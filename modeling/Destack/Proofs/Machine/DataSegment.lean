import Destack.Proofs.Machine.Additions
import Destack.Proofs.Machine.Assignment

/-!
# The data segment

Lowering collects the literals of a method in its data segment. A literal enters it when the first node with that
literal is lowered and never again (`Enters`), so after all nodes are lowered the values differ and each is the literal
of a node (`LowerState.Entered`). A label is made of a prefix and the position of the entry, which keeps labels apart
from each other and from those of blocks, whatever the prefix.
-/

namespace Destack

/-- The literal of a node that has one. -/
def Ssa.Op.literal? : Ssa.Op → Option String
  | .stringConst literal => some literal
  | _ => none

theorem Ssa.Op.eq_of_literal? {op : Ssa.Op} {literal : String} (h : op.literal? = some literal) :
    op = .stringConst literal := by
  cases op with
  | stringConst text => rw [Option.some.inj h]
  | _ => cases h

/-- The label whose address an instruction loads. -/
def Machine.Instr.label? (i : Machine.Instr) : Option String :=
  match i.op with
  | .loadAddress label => some label
  | _ => none

namespace Machine

open Pass (Leads Spec)
open Ssa (nodesOf schedule Scheduled)

/-! ## Labels -/

theorem labelAt_ne_blockLabel (c : Compiled) (k : Nat) (b : BlockId) : labelAt c.labelPrefix k ≠ c.blockLabel b := by
  intro h
  -- Behind the prefix, labels of literals go on with an s and those of blocks with a B.
  have hlist := congrArg String.toList h
  simp only [labelAt, Compiled.blockLabel, String.toList_append, List.append_assoc, List.append_cancel_left_eq] at hlist
  simp [show toString "_str" = "_str" from rfl, show toString "_B" = "_B" from rfl] at hlist

/-! ## Literals that enter -/

/-- A later state of the lowering in which no other node is lowered and a literal, if there is one, may have entered the
data segment, but only if it was not there. -/
structure Enters (literal? : Option String) (s t : LowerState) : Prop where
  lowered_eq : t.lowered = s.lowered
  labelPrefix_eq : t.labelPrefix = s.labelPrefix
  data : t.data = s.data ∨ ∃ literal label, literal? = some literal ∧ (∀ entry ∈ s.data, entry.value ≠ literal) ∧
    t.data = s.data.push ⟨label, literal⟩

variable {literal? : Option String} {s t u : LowerState} {b : BlockId}

namespace Enters

theorem of_eq (hlowered : t.lowered = s.lowered) (hlabel : t.labelPrefix = s.labelPrefix) (hdata : t.data = s.data) :
    Enters literal? s t :=
  ⟨hlowered, hlabel, .inl hdata⟩

/-- The literal enters once at most. -/
theorem trans (h : Enters literal? s t) (h' : Enters literal? t u) : Enters literal? s u := by
  refine ⟨h'.lowered_eq.trans h.lowered_eq, h'.labelPrefix_eq.trans h.labelPrefix_eq, ?_⟩
  rcases h.data with hst | ⟨literal, label, hliteral, hnew, hst⟩
  · rw [← hst]
    exact h'.data
  · rcases h'.data with htu | ⟨literal', label', hliteral', hnew', -⟩
    · exact .inr ⟨literal, label, hliteral, hnew, htu.trans hst⟩
    · obtain rfl := Option.some.inj (hliteral.symm.trans hliteral')
      rw [hst] at hnew'
      exact absurd rfl (hnew' _ Array.mem_push_self)

instance : Std.Refl (Enters literal?) :=
  ⟨fun _ => of_eq rfl rfl rfl⟩

instance : IsTrans LowerState (Enters literal?) :=
  ⟨fun _ _ _ h h' => h.trans h'⟩

end Enters

namespace LowerM

theorem newRegister_enters : Leads (Enters literal?) newRegister :=
  Leads.modifyGet fun _ => .of_eq rfl rfl rfl

theorem append_enters (b : BlockId) (op : Op) (reads : List Register) (write : Option Register) :
    Leads (Enters literal?) (append b op reads write) :=
  leads_append_of fun _ _ => .of_eq rfl rfl rfl

theorem value_enters (b : BlockId) (op : Op) (reads : List Register) : Leads (Enters literal?) (value b op reads) :=
  newRegister_enters.bind fun r => (append_enters b op reads (some r)).bind fun _ => Leads.pure _

theorem effect_enters (b : BlockId) (op : Op) (reads : List Register) : Leads (Enters literal?) (effect b op reads) :=
  (append_enters b op reads none).bind fun _ => Leads.pure _

theorem registerOf_enters (id : NodeId) : Leads (Enters literal?) (registerOf id) := by
  refine Leads.get_bind fun s => ?_
  split
  · exact Leads.pure _
  · exact Leads.throw _

theorem dataLabel_enters (literal : String) : Leads (Enters (some literal)) (dataLabel literal) := by
  refine Leads.intro_ok fun s => ?_
  have hspec : Pass.Spec (dataLabel literal) s (fun _ t => Enters (some literal) s t) fun _ => False := by
    refine .get_bind ?_
    cases hfind : s.data.find? (·.value = literal) with
    | some entry => exact .pure (.of_eq rfl rfl rfl)
    | none =>
      refine .modify_bind (.pure ⟨rfl, rfl, .inr ⟨literal, _, rfl, fun entry hentry => ?_, rfl⟩⟩)
      simpa using Array.find?_eq_none.1 hfind entry hentry
  exact hspec.exists_ok

theorem passArgument_enters (b : BlockId) (source : Register) (location : Location) :
    Leads (Enters literal?) (passArgument b source location) := by
  cases location with
  | register r =>
    refine newRegister_enters.bind fun copy => (append_enters b _ _ _).discard.bind fun _ => ?_
    exact (append_enters b _ _ _).discard.bind fun _ => Leads.pure _
  | stack offset => exact (append_enters b _ _ _).discard.bind fun _ => Leads.pure _

theorem passArguments_enters (b : BlockId) (pairs : List (Register × Location)) :
    Leads (Enters literal?) (pairs.filterMapM fun (source, location) => passArgument b source location) := by
  induction pairs with
  | nil =>
    rw [List.filterMapM_nil]
    exact Leads.pure _
  | cons pair pairs ih =>
    rw [List.filterMapM_cons]
    refine (passArgument_enters b pair.1 pair.2).bind fun saved => ?_
    cases saved with
    | none => exact ih
    | some move => exact ih.bind fun moves => Leads.pure _

theorem call_enters (b : BlockId) (method : Member) (args : List NodeId) (type : ValueType) :
    Leads (Enters literal?) (call b method args type) := by
  have hrest : ∀ (saved : List Move) (lowered : Lowered), Leads (Enters literal?) (do
      saved.forM fun m => discard <| append b .move [m.source] (some m.target)
      modify fun s => { s with stats := s.stats.addCall }
      return lowered : LowerM Lowered) := by
    intro saved lowered
    refine (Leads.forM _ fun m _ => (append_enters b _ _ _).discard).bind fun _ => ?_
    exact (Leads.modify fun _ => .of_eq rfl rfl rfl).bind fun _ => Leads.pure _
  unfold call
  refine (Leads.mapM _ fun arg _ => registerOf_enters arg).bind fun sources => ?_
  refine (passArguments_enters b _).bind fun saved => (append_enters b _ _ _).bind fun id => ?_
  dsimp only
  cases (Location.ofResult? type).bind (·.register?) with
  | some r => exact (value_enters b _ _).bind fun lowered => hrest saved lowered
  | none => exact (Leads.pure _).bind fun lowered => hrest saved lowered

/-- Emitting a node enters its literal, if it has one, and no other. -/
theorem emit_enters (node : Ssa.Node) : Leads (Enters node.op.literal?) (emit node) := by
  obtain ⟨b, type, op⟩ := node
  cases op with
  | param index =>
    change Leads _ (param b index)
    unfold param
    split
    · exact value_enters b _ _
    · exact value_enters b _ _
  | undefined slot => exact newRegister_enters.bind fun _ => Leads.pure _
  | merge slot args => exact newRegister_enters.bind fun _ => Leads.pure _
  | intConst n => exact value_enters b _ _
  | nullConst => exact value_enters b _ _
  | stringConst literal => exact (dataLabel_enters literal).bind fun _ => value_enters b _ _
  | arith op kind lhs rhs =>
    exact (registerOf_enters lhs).bind fun _ => (registerOf_enters rhs).bind fun _ => value_enters b _ _
  | negate v => exact (registerOf_enters v).bind fun _ => value_enters b _ _
  | getStatic field => exact value_enters b _ _
  | putStatic field v => exact (registerOf_enters v).bind fun _ => effect_enters b _ _
  | arrayLoad base offset =>
    exact (registerOf_enters base).bind fun _ => (registerOf_enters offset).bind fun _ => value_enters b _ _
  | arrayStore base offset v =>
    refine (registerOf_enters base).bind fun _ => (registerOf_enters offset).bind fun _ => ?_
    exact (registerOf_enters v).bind fun _ => effect_enters b _ _
  | call kind method args => exact call_enters b method args type
  | branch condition lhs rhs taken fallthrough =>
    exact (registerOf_enters lhs).bind fun _ => (registerOf_enters rhs).bind fun _ => effect_enters b _ _
  | goto target => exact effect_enters b _ _
  | switch v default cases => exact (registerOf_enters v).bind fun _ => effect_enters b _ _
  | ret v =>
    cases v with
    | none => exact effect_enters b _ _
    | some v =>
      refine (registerOf_enters v).bind fun _ => (append_enters b _ _ _).discard.bind fun _ => ?_
      exact effect_enters b _ _
  | raise v => exact (registerOf_enters v).bind fun _ => effect_enters b _ _

end LowerM

/-! ## Literals that have entered -/

/-- The values of the data segment differ, and each is the literal of a node that is lowered. -/
structure LowerState.Entered (labelPrefix : String) (s : LowerState) : Prop where
  labelPrefix_eq : s.labelPrefix = labelPrefix
  nodup : (s.data.toList.map (·.value)).Nodup
  used : ∀ entry ∈ s.data, ∃ id node, s.lowered.contains id = true ∧ s.graph.getResolved id = .ok node ∧
    node.op.literal? = some entry.value

theorem getResolved_eq {g g' : Graph} (h : g.SameNodes g') (id : NodeId) : g'.getResolved id = g.getResolved id := by
  rw [Graph.getResolved, Graph.getResolved, h.resolve_eq, Graph.getNode, Graph.getNode, h.node?_eq]

namespace LowerState.Entered

variable {labelPrefix : String} {id : NodeId} {node : Ssa.Node}

/-- A node more is lowered. -/
theorem insert (h : s.Entered labelPrefix) (henters : Enters node.op.literal? s t) (hnodes : s.graph.SameNodes t.graph)
    (hnode : s.graph.getResolved id = .ok node) (l : Lowered) :
    LowerState.Entered labelPrefix { t with lowered := t.lowered.insert id l } := by
  have hlabel := henters.labelPrefix_eq.trans h.labelPrefix_eq
  have hold : ∀ entry ∈ s.data, ∃ k node, (t.lowered.insert id l).contains k = true ∧
      t.graph.getResolved k = .ok node ∧ node.op.literal? = some entry.value := by
    intro entry hentry
    obtain ⟨k, node, hk, hnode, hliteral⟩ := h.used entry hentry
    refine ⟨k, node, ?_, (getResolved_eq hnodes k).trans hnode, hliteral⟩
    rw [Std.TreeMap.contains_insert, henters.lowered_eq, hk, Bool.or_true]
  rcases henters.data with hdata | ⟨literal, label, hliteral, hnew, hdata⟩
  · refine ⟨hlabel, ?_, fun entry hentry => hold entry (hdata ▸ hentry)⟩
    change (t.data.toList.map (·.value)).Nodup
    rw [hdata]
    exact h.nodup
  · refine ⟨hlabel, ?_, fun entry hentry => ?_⟩
    · change (t.data.toList.map (·.value)).Nodup
      rw [hdata, Array.toList_push, List.map_append, List.map_singleton, List.nodup_append]
      refine ⟨h.nodup, List.nodup_singleton _, fun value hvalue value' hvalue' => ?_⟩
      obtain ⟨entry, hentry, rfl⟩ := List.mem_map.1 hvalue
      rw [List.mem_singleton.1 hvalue']
      exact hnew entry (Array.mem_toList_iff.1 hentry)
    · change entry ∈ t.data at hentry
      rw [hdata, Array.mem_push] at hentry
      rcases hentry with hentry | rfl
      · exact hold entry hentry
      · exact ⟨id, node, Std.TreeMap.contains_insert_self, (getResolved_eq hnodes id).trans hnode, hliteral⟩

/-- Whatever a node and its operands need is lowered, and nothing else enters. -/
theorem lowerResolved (h : s.Entered labelPrefix) (depth : Nat) (id : NodeId) :
    Spec (LowerM.lowerResolved depth id) s (fun _ t => t.Entered labelPrefix) fun _ => True := by
  induction depth generalizing s id with
  | zero => exact .throw trivial
  | succ depth ih =>
    unfold LowerM.lowerResolved
    refine .get_bind ?_
    split
    · exact .pure h
    · refine .bind (Q := fun node t => s = t ∧ s.graph.getResolved id = .ok node)
        (.lift (fun node hnode => ⟨rfl, hnode⟩) fun _ _ => trivial) ?_
      rintro node _ ⟨rfl, hnode⟩
      refine .bind (Q := fun _ (t : LowerState) => t.Entered labelPrefix ∧ s.graph.SameNodes t.graph) ?_ ?_
      · refine .forM (P := fun _ (t : LowerState) => t.Entered labelPrefix ∧ s.graph.SameNodes t.graph) ?_ ⟨h, .refl _⟩
        rintro front o rest - t ⟨ht, hnodes⟩
        refine (ih ht o).of_ok_imp fun _ u hrun hu => ⟨hu, hnodes.trans ?_⟩
        exact ((LowerM.leads_lowerResolved depth o).of_ok hrun).nodes
      · rintro _ t ⟨ht, hnodes⟩
        have hnode' : t.graph.getResolved id = .ok node := by
          rw [getResolved_eq hnodes]
          exact hnode
        refine .bind ((LowerM.emit_enters node).spec t |>.of_ok_imp fun l u hrun henters =>
          And.intro henters ((LowerM.leads_emit node).of_ok hrun).nodes) ?_
        rintro l u ⟨henters, hsame⟩
        exact .modify (ht.insert henters hsame hnode' l)

theorem lower (h : s.Entered labelPrefix) (id : NodeId) :
    Spec (LowerM.lower id) s (fun _ t => t.Entered labelPrefix) fun _ => True := by
  refine .get_bind (.bind (h.lowerResolved _ _) fun _ t ht => .get_bind ?_)
  split
  · exact .pure ht
  · exact .throw trivial

theorem lowerAll (h : s.Entered labelPrefix) :
    Spec LowerM.lowerAll s (fun _ t => t.Entered labelPrefix) fun _ => True := by
  refine .get_bind (.bind (Q := fun _ t => t.Entered labelPrefix) (.lift (fun _ _ => h) fun _ _ => trivial) ?_)
  intro _ t ht
  refine .forM (P := fun _ (u : LowerState) => u.Entered labelPrefix) (fun _ b _ _ u hu => ?_) ht
  refine .get_bind (.bind (Q := fun _ v => v.Entered labelPrefix) (.lift (fun _ _ => hu) fun _ _ => trivial) ?_)
  intro block v hv
  refine .forM (P := fun _ (v : LowerState) => v.Entered labelPrefix) (fun _ id _ _ v hv => ?_) hv
  exact .discard (hv.lower id)

end LowerState.Entered

/-! ## Labels in the code -/

/-- The labels whose addresses some instructions load, in order. -/
def labelsIn (is : List Instr) : List String :=
  is.filterMap Instr.label?

/-- The literals of some nodes, in order. -/
def literalsOf (g : Graph) (ids : List NodeId) : List String :=
  ids.filterMap fun id => (g.node? id).bind (·.op.literal?)

theorem literalsOf_eq {g g' : Graph} (h : g.SameNodes g') (ids : List NodeId) : literalsOf g' ids = literalsOf g ids :=
  List.filterMap_congr fun id _ => by rw [h.node?_eq]

theorem labelsIn_append (is js : List Instr) : labelsIn (is ++ js) = labelsIn is ++ labelsIn js :=
  List.filterMap_append ..

theorem labelsIn_eq_nil {is : List Instr} (h : ∀ i ∈ is, i.label? = none) : labelsIn is = [] :=
  List.filterMap_eq_nil_iff.2 h

/-- Instructions put ahead of a jump that load no addresses make no difference. -/
theorem labelsIn_insertAhead (code : List Instr) {is : List Instr} (h : labelsIn is = []) :
    labelsIn (insertAhead code is) = labelsIn code := by
  rcases List.eq_nil_or_concat' code with rfl | ⟨front, last, rfl⟩
  · exact h
  · cases hjump : last.op.isJump with
    | true => rw [insertAhead_jump hjump, labelsIn_append, labelsIn_append, labelsIn_append, h, List.nil_append]
    | false =>
      have hend : insertAhead (front ++ [last]) is = front ++ [last] ++ is := by simp [insertAhead, hjump]
      rw [hend, labelsIn_append, h, List.append_nil]

section Emits

variable {reg? : NodeId → Option Register} {data : Array DataEntry} {type : ValueType} {op : Ssa.Op} {n next : Nat}
  {is : List Instr} {r : Option Register}

theorem Emits.exists_loadAddress {literal : String} (h : Emits reg? data type (.stringConst literal) n is r next) :
    ∃ label d, r = some d ∧ is = [⟨.loadAddress label, [], some d⟩] ∧ ⟨label, literal⟩ ∈ data := by
  cases h with
  | stringConst hmem => exact ⟨_, _, rfl, rfl, hmem⟩

/-- The instructions of a node load the address of its literal, if it has one, and no other. -/
theorem Emits.forall₂_labelsIn (h : Emits reg? data type op n is r next) :
    List.Forall₂ (fun literal label => ⟨label, literal⟩ ∈ data) op.literal?.toList (labelsIn is) := by
  have hcall : ∀ {method result sources}, labelsIn (callCode method result n sources) = [] := by
    intro method result sources
    refine labelsIn_eq_nil fun i hi => ?_
    rcases op_of_mem_callCode hi with hop | hop | ⟨offset, hop⟩
    · rw [Instr.label?, hop]
    · rw [Instr.label?, hop]
    · rw [Instr.label?, hop]
  cases h with
  | stringConst hmem => exact .cons hmem .nil
  | callValue | callVoid =>
    rw [hcall]
    exact .nil
  | _ => exact .nil

end Emits

section Finished

variable {g : Graph} {piece : NodeId → Piece} {fresh : BlockId × BlockId → Nat} {b : BlockId} {id : NodeId}

theorem Finished.forall₂_flatMap (h : Finished g piece fresh s) {ids : List NodeId}
    (hids : ∀ id ∈ ids, id ∈ schedule g) :
    List.Forall₂ (fun literal label => ⟨label, literal⟩ ∈ s.data) (literalsOf g ids)
      (labelsIn (ids.flatMap fun id => (piece id).code)) := by
  rw [literalsOf, List.filterMap_eq_flatMap_toList]
  induction ids with
  | nil => exact .nil
  | cons id ids ih =>
    obtain ⟨hid, hids⟩ := List.forall_mem_cons.1 hids
    obtain ⟨node, hnode, hemits⟩ := h.emits id hid
    rw [List.flatMap_cons, List.flatMap_cons, labelsIn_append, hnode]
    exact List.rel_append hemits.forall₂_labelsIn (ih hids)

/-- The addresses that a block loads are those of the literals of its nodes. -/
theorem Finished.forall₂_codeOf (h : Finished g piece fresh s) (hs : Scheduled g) (b : BlockId) :
    List.Forall₂ (fun literal label => ⟨label, literal⟩ ∈ s.data) (literalsOf g (nodesOf g b))
      (labelsIn (s.graph.codeOf b)) := by
  cases hb : g.hasBlock b with
  | true =>
    have hmoves : labelsIn ((edgesFrom g b).flatMap (edgeCode g s.register? fresh)) = [] := by
      refine labelsIn_eq_nil fun i hi => ?_
      obtain ⟨e, -, hi⟩ := List.mem_flatMap.1 hi
      obtain ⟨move, -, rfl⟩ := List.mem_map.1 hi
      rfl
    rw [h.codeOf_eq hb, labelsIn_insertAhead _ hmoves]
    exact h.forall₂_flatMap fun id hid => hs.mem_schedule hid
  | false =>
    have hblock : g.block? b = none := Graph.hasBlock_eq_false_iff.1 hb
    have hcode : s.graph.codeOf b = [] :=
      List.eq_nil_iff_forall_not_mem.2 fun i hi => Bool.false_ne_true (hb.symm.trans (h.hasBlock_of_mem_codeOf hi))
    rw [hcode, nodesOf, hblock]
    exact .nil

/-- A listed node with a literal becomes one instruction. -/
theorem Finished.loadAddress_mem (h : Finished g piece fresh s) (hs : Scheduled g) (hid : id ∈ nodesOf g b)
    {node : Ssa.Node} (hnode : g.node? id = some node) {literal : String} (hop : node.op = .stringConst literal) :
    ∃ label r, s.register? id = some r ∧ ⟨.loadAddress label, [], some r⟩ ∈ s.graph.codeOf b ∧
      ⟨label, literal⟩ ∈ s.data := by
  obtain ⟨node', hnode', hemits⟩ := h.emits id (hs.mem_schedule hid)
  obtain rfl := Option.some.inj (hnode.symm.trans hnode')
  rw [hop] at hemits
  obtain ⟨label, r, hregister, hcode, hmem⟩ := hemits.exists_loadAddress
  refine ⟨label, r, hregister, ?_, hmem⟩
  refine (h.mem_codeOf_iff (Ssa.Form.hasBlock_of_mem_nodesOf hid)).2 (.inl ⟨id, hid, ?_⟩)
  rw [hcode]
  exact List.mem_singleton_self _

end Finished

/-! ## The data segment of a method -/

/-- A label names exactly one entry of a data segment, and that entry has a value. -/
def Names (data : Array DataEntry) (label value : String) : Prop :=
  ∃ k : Nat, data[k]? = some ⟨label, value⟩ ∧
    ∀ (j : Nat) (entry : DataEntry), data[j]? = some entry → entry.label = label → j = k

theorem LowerState.Labelled.names (h : s.Labelled) {label value : String} (hmem : ⟨label, value⟩ ∈ s.data) :
    Names s.data label value := by
  obtain ⟨k, hk⟩ := Array.mem_iff_getElem?.1 hmem
  refine ⟨k, hk, fun j entry hj hlabel => ?_⟩
  rw [h j entry hj] at hlabel
  exact labelAt_injective (hlabel.trans (h k _ hk))

theorem LowerState.Labelled.nodup (h : s.Labelled) : (s.data.toList.map (·.label)).Nodup := by
  have hlabels : s.data.toList.map (·.label) = (List.range s.data.size).map (labelAt s.labelPrefix) := by
    refine List.ext_getElem (by simp) fun k hk hk' => ?_
    simp only [List.getElem_map, Array.getElem_toList, List.getElem_range]
    exact h k _ (Array.getElem?_eq_getElem _)
  rw [hlabels]
  exact List.nodup_range.map fun _ _ => labelAt_injective

/-- The data segment of a lowered method holds the literals of its nodes, given the registers of the nodes. -/
structure FaithfulData (c : Compiled) (reg? : NodeId → Option Register) : Prop where
  /-- The addresses that a block loads are, one by one, those of the literals of its nodes. -/
  loads : ∀ b, List.Forall₂ (fun literal label => Names c.data label literal)
    (literalsOf c.graph (nodesOf c.graph b)) (labelsIn (c.graph.codeOf b))
  /-- A listed node gets the address of its literal into its register. -/
  lowered : ∀ b, ∀ id ∈ nodesOf c.graph b, ∀ node literal, c.graph.node? id = some node →
    node.op = .stringConst literal → ∃ label r, reg? id = some r ∧
      ⟨.loadAddress label, [], some r⟩ ∈ c.graph.codeOf b ∧ Names c.data label literal
  values_nodup : (c.data.toList.map (·.value)).Nodup
  labels_nodup : (c.data.toList.map (·.label)).Nodup
  referenced : ∀ entry ∈ c.data, ∃ b, entry.label ∈ labelsIn (c.graph.codeOf b)
  ne_blockLabel : ∀ entry ∈ c.data, ∀ b, entry.label ≠ c.blockLabel b

section Compiled

variable {table : OperandTable} {pool : ConstantPool} {m : Method} {labelPrefix : String} {c : Compiled}

/-- Once all nodes are lowered, nothing more enters. -/
theorem LastStage.data_eq {st : Stages} {piece : NodeId → Piece} {fresh : BlockId × BlockId → Nat} {s₀ : LowerState}
    (h : LastStage st labelPrefix piece fresh s₀) (hst : st.Succeed table pool m labelPrefix c) :
    c.data = st.lowered.data ∧ st.lowered.data = s₀.data ∧ st.lowered.labelPrefix = s₀.labelPrefix := by
  obtain ⟨_, s₀', hall, hrest⟩ := Pass.bind_eq_ok.1 hst.lower
  obtain ⟨-, rfl⟩ := EStateM.Result.ok.inj (hall.symm.trans h.lowerAll)
  obtain ⟨_, s₁, hmerges, hrest⟩ := Pass.bind_eq_ok.1 hrest
  obtain ⟨fresh', hresolves⟩ :=
    (resolveMerges_spec (E := fun _ => True) h.orderly.toScheduled h.lowers).of_ok hmerges
  obtain ⟨_, s₂, hmodify, hrest⟩ := Pass.bind_eq_ok.1 hrest
  obtain rfl := Pass.modify_eq_ok.1 hmodify
  obtain ⟨_, _, hget, hrest⟩ := Pass.bind_eq_ok.1 hrest
  obtain ⟨rfl, rfl⟩ := Pass.get_eq_ok.1 hget
  obtain ⟨hdata, hstate⟩ := Pass.pure_eq_ok.1 hrest
  rw [← hstate]
  exact ⟨hdata.symm, (congrArg LowerState.data hresolves.rest_eq :),
    (congrArg LowerState.labelPrefix hresolves.rest_eq :)⟩

/-- The data segment of every method that compiles is faithful and free of clashes, whatever the prefix of its labels.
Every listed node with a literal loads the address of the one entry under its label, which has that literal, and no
other addresses are loaded. The entries differ in their values and in their labels, each of them is loaded somewhere,
and no label is that of a block. -/
theorem compiled_data_faithful {s s' : Statistics} (h : compile table pool m labelPrefix s = .ok c s') :
    ∃ st : Stages, st.Succeed table pool m labelPrefix c ∧ FaithfulData c st.lowered.register? := by
  obtain ⟨st, hst⟩ := compile_eq_ok h
  obtain ⟨piece, fresh, s₀, hlast⟩ := exists_lastStage hst
  obtain ⟨hdata, hdata₀, hlabel₀⟩ := hlast.data_eq hst
  have hs := hlast.orderly.toScheduled
  have hfinished := hlast.finished
  have hentered : s₀.Entered labelPrefix := by
    have hstart : LowerState.Entered labelPrefix
        { graph := st.cleaned.graph, stats := st.cleaned.stats, labelPrefix } := ⟨rfl, .nil, by simp⟩
    exact hstart.lowerAll.of_ok hlast.lowerAll
  refine ⟨st, hst, ?_, ?_, ?_, ?_, ?_, ?_⟩
  · intro b
    rw [hdata, hst.graph_eq, hfinished.nodes.nodesOf_eq, literalsOf_eq hfinished.nodes]
    exact (hfinished.forall₂_codeOf hs b).imp fun literal label hmem => hfinished.labelled.names hmem
  · intro b id hid node literal hnode hop
    rw [hst.graph_eq] at hid hnode ⊢
    rw [hfinished.nodes.nodesOf_eq] at hid
    rw [hfinished.nodes.node?_eq] at hnode
    obtain ⟨label, r, hr, hmem, hentry⟩ := hfinished.loadAddress_mem hs hid hnode hop
    exact ⟨label, r, hr, hmem, hdata ▸ hfinished.labelled.names hentry⟩
  · rw [hdata, hdata₀]
    exact hentered.nodup
  · rw [hdata]
    exact hfinished.labelled.nodup
  · intro entry hentry
    rw [hdata, hdata₀] at hentry
    obtain ⟨id, node, hlowered, hnode, hliteral⟩ := hentered.used entry hentry
    obtain ⟨b, hid⟩ := (Ssa.mem_schedule hs.mem_order).1 ((hlast.lowers.lowered id).1 hlowered)
    obtain ⟨hresolve, node', hnode', -⟩ := hs.node hid
    rw [getResolved_eq hlast.lowers.nodes, Graph.getResolved, hresolve, Graph.getNode, hnode'] at hnode
    cases hnode
    obtain ⟨label, r, -, hmem, hfound⟩ := hfinished.loadAddress_mem hs hid hnode' (Ssa.Op.eq_of_literal? hliteral)
    -- The entry that the node names has the same value, and values differ.
    rw [hdata₀] at hfound
    have hsame : ⟨label, entry.value⟩ = entry :=
      List.inj_on_of_nodup_map hentered.nodup (Array.mem_toList_iff.2 hfound) (Array.mem_toList_iff.2 hentry) rfl
    rw [← hsame, hst.graph_eq]
    exact ⟨b, List.mem_filterMap.2 ⟨_, hmem, rfl⟩⟩
  · intro entry hentry b
    rw [hdata] at hentry
    obtain ⟨k, hk⟩ := Array.mem_iff_getElem?.1 hentry
    rw [hfinished.labelled k entry hk, hlabel₀, hentered.labelPrefix_eq, ← hst.labelPrefix_eq]
    exact labelAt_ne_blockLabel c k b

end Compiled

/-- Two blocks with literals, one of which stands in the constant pool under two indices. -/
def greeting : Method where
  owner := "Text"
  name := "greet"
  descriptor := "(I)Ljava/lang/String;"
  isStatic := true
  maxLocals := 2
  code := [
    0x1a, 0x99, 0x00, 0x06,        --  0  load slot 0, go to 7 if it is zero
    0x12, 0x01, 0xb0,              --  4  return the first literal
    0x12, 0x02, 0x4c,              --  7  store the second one
    0x12, 0x03, 0xb0]              -- 10  return the third one

def greetingPool : ConstantPool :=
  .ofList [(1, .string "hello"), (2, .string ""), (3, .string "hello")]

theorem compilesWith_greeting : compilesWith .standard greetingPool greeting "Text_B1" (fun c =>
    c.data = #[⟨"Text_B1_str0", "hello"⟩, ⟨"Text_B1_str1", ""⟩]) = true := by
  simp only [compilesWith, compile, Graph.ofInstructions, Layout.partition_eq]
  decide +kernel

theorem greeting_data_faithful : ∃ (c : Compiled) (s : Statistics),
    compile .standard greetingPool greeting "Text_B1" {} = .ok c s ∧
      c.data = #[⟨"Text_B1_str0", "hello"⟩, ⟨"Text_B1_str1", ""⟩] ∧
      ∃ st : Stages, st.Succeed .standard greetingPool greeting "Text_B1" c ∧
        FaithfulData c st.lowered.register? := by
  obtain ⟨c, s, hcompile, hdata⟩ := exists_of_compilesWith compilesWith_greeting
  exact ⟨c, s, hcompile, of_decide_eq_true hdata, compiled_data_faithful hcompile⟩

end Machine

end Destack
