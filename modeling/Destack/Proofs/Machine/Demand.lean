import Destack.Proofs.Machine.Lowering
import Destack.Proofs.Ssa.MergeSlots
import Destack.Proofs.Ssa.Strict

/-!
# Lowering on demand

Nodes may be asked for in any order. Each is lowered at most once, after what it uses and in the block that it belongs
to, and only if it is asked for or used by a node that is (`Answered`). A node that is lowered is not touched again.

The lowering of a node is a recursion with a bound on its depth. In a graph in layers it does what a list of tasks does
without any bound: a node is put back behind what it uses, and is emitted when it comes up again (`TaskSteps`).
-/

namespace Destack.Machine

open Pass (Spec)
open Relation (ReflTransGen TransGen)
open Ssa (Valued)

/-! ## Graphs in layers -/

/-- A node uses another one through an operand. The arguments of a merge do not count. -/
def Uses (g : Graph) (id o : NodeId) : Prop :=
  ∃ node, g.node? id = some node ∧ node.op.isMerge = false ∧ o ∈ node.op.operands.map g.resolve

theorem uses_iff {g : Graph} {id o : NodeId} {node : Ssa.Node} (hnode : g.node? id = some node) :
    Uses g id o ↔ o ∈ if node.op.isMerge = true then [] else node.op.operands.map g.resolve := by
  rw [Uses, hnode]
  split
  · next hmerge => simp [hmerge]
  · next hmerge => simp [hmerge]

/-- A graph whose nodes come after what they use. Merges may use anything. -/
structure Layered (g : Graph) : Prop where
  block : ∀ {id node}, g.node? id = some node → g.hasBlock node.block = true
  operand : ∀ {id node}, g.node? id = some node → node.op.isMerge = false →
    ∀ o ∈ node.op.operands, o < id ∧ Valued g o
  redirect : ∀ {id target : NodeId}, g.aliases[id]? = some target → target < id ∧ Valued g target

namespace Layered

variable {g : Graph} {id o : NodeId}

theorem falling (h : Layered g) : Ssa.Falling g.aliases :=
  fun _ _ hid => (h.redirect hid).1

theorem resolve_resolve (h : Layered g) (id : NodeId) : g.resolve (g.resolve id) = g.resolve id :=
  Ssa.resolve_eq_self h.falling (Ssa.isAliased_resolve h.falling id)

theorem valued_resolve (h : Layered g) (hid : Valued g id) : Valued g (g.resolve id) := by
  have hends := Ssa.ends_resolve h.falling id
  generalize g.resolve id = r at hends
  induction hends with
  | here => exact hid
  | next halias _ ih => exact ih (h.redirect halias).2

/-- What a node uses has a value, is below it and stands for itself. -/
theorem of_uses (h : Layered g) (huses : Uses g id o) : Valued g o ∧ o < id ∧ g.resolve o = o := by
  obtain ⟨node, hnode, hmerge, ho⟩ := huses
  obtain ⟨o', ho', rfl⟩ := List.mem_map.1 ho
  obtain ⟨hlt, hvalued⟩ := h.operand hnode hmerge o' ho'
  exact ⟨h.valued_resolve hvalued, Nat.lt_of_le_of_lt (Ssa.resolve_le h.falling o') hlt, h.resolve_resolve o'⟩

theorem lt_of_reaches (h : Layered g) (hreach : TransGen (Uses g) id o) : o < id := by
  induction hreach with
  | single huses => exact (h.of_uses huses).2.1
  | tail _ huses ih => exact (h.of_uses huses).2.1.trans ih

end Layered

/-- Graphs of nodes without the elided merges are in layers, if blocks list all nodes. -/
theorem layered_of_elided {c : Ssa.Context} {frameSize : Nat} {g g' : Graph} {seg : BlockId → Ssa.Segment}
    (he : Ssa.Elided g g') (h : Ssa.Form c frameSize g seg) (hentry : g.hasBlock Graph.entry = true)
    (hlisted : ∀ {id node}, g.node? id = some node → ∃ b, id ∈ Ssa.nodesOf g b) : Layered g' := by
  have hmerge : ∀ {id b}, id ∈ g.mergesOf b → Valued g id := by
    intro id b hid
    have hb := Ssa.Form.hasBlock_of_mem_nodesOf (Ssa.mem_mergesOf.1 hid).1
    obtain ⟨j, type, slot, args, rfl, hj⟩ := (h.mem_mergesOf_iff hb).1 hid
    exact h.valued_cell hb (Ssa.Segment.getElem?_cells hj) rfl
  have hvalued : ∀ {id}, Valued g id → Valued g' id := by
    rintro id ⟨node, hnode, hyields⟩
    exact ⟨node, he.node?_eq id ▸ hnode, hyields⟩
  refine ⟨fun {id node} hnode => ?_, fun {id node} hnode hop o ho => ?_, fun {id target} halias => ?_⟩
  · rw [he.node?_eq] at hnode
    obtain ⟨b, hb⟩ := hlisted hnode
    rw [h.block_of_mem_nodesOf hb hnode, he.keeps_text.hasBlock_eq]
    exact Ssa.Form.hasBlock_of_mem_nodesOf hb
  · rw [he.node?_eq] at hnode
    obtain ⟨b, hb⟩ := hlisted hnode
    exact ⟨(h.operand_available hentry hb hnode hop ho).2, hvalued (h.valued_operand hentry hb hnode hop ho)⟩
  · obtain ⟨_, b, hid, -⟩ := he.target halias
    refine ⟨he.falling h _ _ halias, hvalued ?_⟩
    -- The target is a merge that was elided as well, or what the merge is read as in the end.
    cases htarget : g'.isAliased target with
    | true =>
      obtain ⟨_, halias'⟩ := Ssa.isAliased_iff.1 htarget
      obtain ⟨_, b', hid', -⟩ := he.target halias'
      exact hmerge hid'
    | false =>
      have hvalue := he.valued_resolve h hentry (hmerge hid)
      rwa [Ssa.resolve_of_alias (he.falling h) halias, Ssa.resolve_eq_self (he.falling h) htarget] at hvalue

/-- The nodes of every method that compiles are in layers when they are lowered. -/
theorem layered_cleaned {st : Stages} {table : OperandTable} {pool : ConstantPool} {m : Method} {labelPrefix : String}
    {c : Compiled} (hst : st.Succeed table pool m labelPrefix c) : Layered st.cleaned.graph := by
  obtain ⟨_, _, _, -, hprepared, helided⟩ := Ssa.exists_elided hst
  obtain ⟨_, _, _, -, -, -, -, hresult⟩ := Ssa.result_of_build hst.decode hst.layout hst.analyze hst.build
  refine layered_of_elided helided hprepared.form hprepared.entry fun hnode => ?_
  obtain ⟨b, hb⟩ := hresult.exists_listed hnode
  rw [← Ssa.nodesOf_patched] at hb
  exact ⟨b, hb⟩

/-! ## Tasks -/

/-- A node that is to be lowered. -/
structure Task where
  node : NodeId
  /-- What the node uses was put ahead of it. -/
  expanded : Bool

/-- The tasks of nodes that are not lowered. -/
def LowerState.tasks (s : LowerState) (ids : List NodeId) : List Task :=
  (ids.filter fun id => !s.lowered.contains id).map (⟨·, false⟩)

/-- Takes one task and says what is left to do. A node that is lowered is passed over. -/
def LowerM.take (task : Task) (rest : List Task) : LowerM (List Task) := do
  let s ← get
  if s.lowered.contains task.node then return rest
  let node ← Pass.lift (s.graph.getResolved task.node)
  match task.expanded with
  | true =>
    let lowered ← emit node
    modify fun s => { s with lowered := s.lowered.insert task.node lowered }
    return rest
  | false =>
    let operands := if node.op.isMerge then [] else node.op.operands.map s.graph.resolve
    return s.tasks operands ++ ⟨task.node, true⟩ :: rest

/-- The first task is taken. -/
def TaskStep (before after : List Task × LowerState) : Prop :=
  ∃ task rest, before.1 = task :: rest ∧ LowerM.take task rest before.2 = .ok after.1 after.2

abbrev TaskSteps : List Task × LowerState → List Task × LowerState → Prop :=
  ReflTransGen TaskStep

section TaskSteps

variable {s t : LowerState} {id : NodeId} {node : Ssa.Node}

theorem step_done (h : s.lowered.contains id = true) (expanded : Bool) (rest : List Task) :
    TaskStep (⟨id, expanded⟩ :: rest, s) (rest, s) := by
  refine ⟨_, _, rfl, Pass.bind_eq_ok.2 ⟨s, s, rfl, ?_⟩⟩
  rw [if_pos h]
  rfl

theorem step_expand (h : s.lowered.contains id = false) (hget : s.graph.getResolved id = .ok node) (rest : List Task) :
    TaskStep (⟨id, false⟩ :: rest, s)
      (s.tasks (if node.op.isMerge then [] else node.op.operands.map s.graph.resolve) ++ ⟨id, true⟩ :: rest, s) := by
  refine ⟨_, _, rfl, Pass.bind_eq_ok.2 ⟨s, s, rfl, ?_⟩⟩
  rw [h, if_neg Bool.false_ne_true]
  exact Pass.bind_eq_ok.2 ⟨node, s, Pass.lift_eq_ok.2 ⟨hget, rfl⟩, rfl⟩

theorem step_emit (h : s.lowered.contains id = false) (hget : s.graph.getResolved id = .ok node)
    (hrun : (do
      let l ← LowerM.emit node
      modify fun s => { s with lowered := s.lowered.insert id l } : LowerM PUnit) s = .ok ⟨⟩ t) (rest : List Task) :
    TaskStep (⟨id, true⟩ :: rest, s) (rest, t) := by
  obtain ⟨l, u, hemit, hmodify⟩ := Pass.bind_eq_ok.1 hrun
  refine ⟨_, _, rfl, Pass.bind_eq_ok.2 ⟨s, s, rfl, ?_⟩⟩
  rw [h, if_neg Bool.false_ne_true]
  refine Pass.bind_eq_ok.2 ⟨node, s, Pass.lift_eq_ok.2 ⟨hget, rfl⟩, ?_⟩
  exact Pass.bind_eq_ok.2 ⟨l, u, hemit, Pass.bind_eq_ok.2 ⟨_, t, hmodify, rfl⟩⟩

/-- One task more is done behind others. -/
theorem steps_tasks_snoc {u : LowerState} {front : List NodeId} {o : NodeId}
    (h : ∀ rest, TaskSteps (s.tasks front ++ rest, s) (rest, t))
    (hsame : s.lowered.contains o = true → u = t) (ho : ∀ rest, TaskSteps (⟨o, false⟩ :: rest, t) (rest, u))
    (rest : List Task) : TaskSteps (s.tasks (front ++ [o]) ++ rest, s) (rest, u) := by
  rw [LowerState.tasks, List.filter_append, List.map_append, List.append_assoc]
  refine (h _).trans ?_
  cases hdone : s.lowered.contains o with
  | true =>
    rw [hsame hdone, List.filter_singleton, hdone]
    exact .refl
  | false =>
    rw [List.filter_singleton, hdone]
    exact ho rest

end TaskSteps

/-! ## What was emitted -/

/-- What a node became: instructions under the numbers from a first one on. -/
structure Emission where
  node : NodeId
  first : InstrId
  code : List Instr

def Emission.numbers (e : Emission) : List InstrId :=
  List.range' e.first e.code.length

/-- A lowering with all that it emitted, in order, since nothing was lowered. -/
structure Logged (s₀ : LowerState) (log : List Emission) (s : LowerState) : Prop where
  nodes : s₀.graph.SameNodes s.graph
  once : (log.map (·.node)).Nodup
  lowered : ∀ id, s.lowered.contains id = true ↔ id ∈ log.map (·.node)
  /-- Nothing is in the table of instructions but what was there and what was emitted. -/
  instrs_eq : s.graph.instrs.toList =
    s₀.graph.instrs.toList ++ numbered s₀.graph.instrs.size (log.flatMap (·.code))
  first_eq : ∀ {front e rest}, log = front ++ e :: rest →
    e.first = s₀.graph.instrs.size + (front.flatMap (·.code)).length
  /-- What is emitted for a node goes to the end of its block. -/
  numbers_eq : ∀ b, s.graph.numbersOf b =
    s₀.graph.numbersOf b ++ (log.filter (belongs s₀.graph b ·.node)).flatMap (·.numbers)
  emits : ∀ e ∈ log, ∃ node l n next, s₀.graph.node? e.node = some node ∧ s.lowered[e.node]? = some l ∧
    Emits s.register? s.data node.type node.op n e.code l.register next
  ordered : ∀ {front e rest}, log = front ++ e :: rest → ∀ o, Uses s₀.graph e.node o → o ∈ front.map (·.node)

section Logged

variable {s₀ s : LowerState} {log : List Emission} {id : NodeId} {E : Error → Prop}

theorem logged_nil (h : s₀.lowered = ∅) : Logged s₀ [] s₀ where
  nodes := .refl _
  once := List.nodup_nil
  lowered id := by
    rw [h]
    simp
  instrs_eq := (List.append_nil _).symm
  first_eq hsplit := by simp at hsplit
  numbers_eq b := (List.append_nil _).symm
  emits _ he := nomatch he
  ordered hsplit := by simp at hsplit

/-- The register of a node with a value that is lowered. -/
theorem Logged.exists_register (h : Logged s₀ log s) (hid : s₀.graph.resolve id ∈ log.map (·.node))
    (hvalued : Valued s₀.graph (s₀.graph.resolve id)) : ∃ r, s.register? id = some r := by
  obtain ⟨e, he, hnode⟩ := List.mem_map.1 hid
  obtain ⟨node, l, _, _, hnode', hl, hemits⟩ := h.emits e he
  obtain ⟨node'', hnode'', hyields⟩ := hvalued
  rw [hnode] at hnode' hl
  obtain rfl := Option.some.inj (hnode'.symm.trans hnode'')
  rw [← hemits.isSome_register] at hyields
  obtain ⟨r, hr⟩ := Option.isSome_iff_exists.1 hyields
  refine ⟨r, ?_⟩
  rw [LowerState.register?, LowerState.lowered?, h.nodes.resolve_eq, hl]
  exact hr

theorem eq_of_append_cons_eq_snoc {α : Type} {xs front rest : List α} {x y : α} (h : xs ++ [x] = front ++ y :: rest) :
    (∃ rest', rest = rest' ++ [x] ∧ xs = front ++ y :: rest') ∨ rest = [] ∧ xs = front ∧ y = x := by
  rcases List.eq_nil_or_concat' rest with rfl | ⟨rest', z, rfl⟩
  · obtain ⟨rfl, hlast⟩ := List.append_inj' h rfl
    exact Or.inr ⟨rfl, rfl, (List.cons.inj hlast).1.symm⟩
  · rw [← List.cons_append, ← List.append_assoc] at h
    obtain ⟨rfl, hlast⟩ := List.append_inj' h rfl
    obtain rfl := (List.cons.inj hlast).1
    exact Or.inl ⟨rest', rfl, rfl⟩

/-- One node more. -/
theorem Logged.snoc (h : Logged s₀ log s) {node : Ssa.Node} (hnode : s₀.graph.node? id = some node)
    (hnot : id ∉ log.map (·.node)) {is : List Instr} {t : LowerState} {l : Lowered}
    (hemitted : Emitted node.block is s t)
    (hemits : Emits s.register? t.data node.type node.op s.graph.registers is l.register t.graph.registers)
    (huses : ∀ o, Uses s₀.graph id o → o ∈ log.map (·.node)) :
    Logged s₀ (log ++ [⟨id, s.graph.instrs.size, is⟩]) { t with lowered := t.lowered.insert id l } := by
  have hsize : s.graph.instrs.size = s₀.graph.instrs.size + (log.flatMap (·.code)).length := by
    simpa [length_numbered] using congrArg List.length h.instrs_eq
  have hnone : s.lowered[id]? = none := by
    rw [← h.lowered, Std.TreeMap.contains_eq_isSome_getElem?] at hnot
    exact Option.not_isSome_iff_eq_none.1 hnot
  constructor
  case nodes => exact h.nodes.trans hemitted.nodes
  case once =>
    rw [List.map_append, List.map_singleton]
    refine List.nodup_append.2 ⟨h.once, List.nodup_singleton _, fun a ha b hb e => ?_⟩
    rw [e, List.mem_singleton.1 hb] at ha
    exact hnot ha
  case lowered =>
    intro k
    rw [Std.TreeMap.contains_insert, hemitted.lowered_eq, Bool.or_eq_true, h.lowered, List.map_append, List.mem_append,
      List.map_singleton, List.mem_singleton, beq_iff_eq, Graph.compare_eq_iff, or_comm, eq_comm]
  case instrs_eq =>
    rw [hemitted.appends.instrs_eq, h.instrs_eq, hsize, List.flatMap_append, List.flatMap_singleton, numbered_append,
      List.append_assoc]
  case first_eq =>
    intro front e rest hsplit
    rcases eq_of_append_cons_eq_snoc hsplit with ⟨rest', -, hsplit⟩ | ⟨-, rfl, rfl⟩
    · exact h.first_eq hsplit
    · exact hsize
  case numbers_eq =>
    intro b
    rw [hemitted.appends.numbers_eq, h.numbers_eq, List.filter_append, List.flatMap_append]
    by_cases hb : b = node.block
    · simp [hb, belongs, hnode, Emission.numbers]
    · simp [hb, belongs, hnode, Ne.symm hb]
  case emits =>
    intro e he
    rcases List.mem_append.1 he with he | he
    · obtain ⟨node', l', n, next, hnode', hl', hemits'⟩ := h.emits e he
      refine ⟨node', l', n, next, hnode', ?_, hemits'.mono (fun o r => hemitted.register?_mono hnone) hemitted.data⟩
      rw [hemitted.getElem?_insert, if_neg, hl']
      exact fun heq => hnot (heq ▸ List.mem_map_of_mem he)
    · obtain rfl := List.mem_singleton.1 he
      refine ⟨node, l, _, _, hnode, ?_, hemits.mono (fun o r => hemitted.register?_mono hnone) fun _ he => he⟩
      rw [hemitted.getElem?_insert, if_pos rfl]
  case ordered =>
    intro front e rest hsplit
    rcases eq_of_append_cons_eq_snoc hsplit with ⟨rest', -, hsplit⟩ | ⟨-, rfl, rfl⟩
    · exact h.ordered hsplit
    · exact huses

/-- A later state of a lowering: what was emitted since then is wanted, and what was recorded stays. -/
structure Grows (s₀ : LowerState) (log : List Emission) (s : LowerState) (wanted : NodeId → Prop)
    (more : List Emission) (t : LowerState) : Prop where
  logged : Logged s₀ (log ++ more) t
  wanted : ∀ e ∈ more, wanted e.node
  recorded : ∀ (k : NodeId) l, s.lowered[k]? = some l → t.lowered[k]? = some l

namespace Grows

variable {t u : LowerState} {wanted wanted' : NodeId → Prop} {more more' : List Emission}

theorem refl (h : Logged s₀ log s) (wanted : NodeId → Prop) : Grows s₀ log s wanted [] s :=
  ⟨(List.append_nil log).symm ▸ h, nofun, fun _ _ hl => hl⟩

theorem trans (h : Grows s₀ log s wanted more t) (h' : Grows s₀ (log ++ more) t wanted' more' u)
    (hwanted : ∀ k, wanted' k → wanted k) : Grows s₀ log s wanted (more ++ more') u where
  logged := List.append_assoc log more more' ▸ h'.logged
  wanted e he := (List.mem_append.1 he).elim (h.wanted e) fun he => hwanted _ (h'.wanted e he)
  recorded k l hl := h'.recorded k l (h.recorded k l hl)

theorem mono (h : Grows s₀ log s wanted more t) (hwanted : ∀ k, wanted k → wanted' k) :
    Grows s₀ log s wanted' more t :=
  ⟨h.logged, fun e he => hwanted _ (h.wanted e he), h.recorded⟩

theorem snoc (h : Grows s₀ log s wanted more t) {node : Ssa.Node} (hnode : s₀.graph.node? id = some node)
    (hnot : id ∉ (log ++ more).map (·.node)) {is : List Instr} {l : Lowered} (hemitted : Emitted node.block is t u)
    (hemits : Emits t.register? u.data node.type node.op t.graph.registers is l.register u.graph.registers)
    (huses : ∀ o, Uses s₀.graph id o → o ∈ (log ++ more).map (·.node)) (hwanted : wanted id) :
    Grows s₀ log s wanted (more ++ [⟨id, t.graph.instrs.size, is⟩]) { u with lowered := u.lowered.insert id l } where
  logged := List.append_assoc log more _ ▸ h.logged.snoc hnode hnot hemitted hemits huses
  wanted e he := by
    rcases List.mem_append.1 he with he | he
    · exact h.wanted e he
    · rwa [List.mem_singleton.1 he]
  recorded k l' hl' := by
    have hk : k ∈ (log ++ more).map (·.node) := by
      rw [← h.logged.lowered, Std.TreeMap.contains_eq_isSome_getElem?, h.recorded k l' hl', Option.isSome_some]
    rw [hemitted.getElem?_insert, if_neg, h.recorded k l' hl']
    rintro rfl
    exact hnot hk

/-- A node is emitted and recorded once all that it uses is lowered. -/
theorem emit (h : Grows s₀ log s wanted more t) (hg : Layered s₀.graph) {node : Ssa.Node}
    (hnode : s₀.graph.node? id = some node) (hnot : id ∉ (log ++ more).map (·.node))
    (huses : ∀ o, Uses s₀.graph id o → o ∈ (log ++ more).map (·.node)) (hwanted : wanted id) :
    Spec (do let l ← LowerM.emit node; modify fun s => { s with lowered := s.lowered.insert id l }) t
      (fun _ u => ∃ more', Grows s₀ log s wanted more' u ∧ id ∈ (log ++ more').map (·.node)) E := by
  refine .bind (LowerM.emit_spec ?_ fun hmerge o ho => ?_) ?_
  · rw [h.logged.nodes.hasBlock_eq, hg.block hnode]
  · have ho : Uses s₀.graph id (s₀.graph.resolve o) := ⟨node, hnode, hmerge, List.mem_map_of_mem ho⟩
    exact h.logged.exists_register (huses _ ho) (hg.of_uses ho).1
  · rintro l u ⟨is, hemitted, hemits⟩
    exact .modify ⟨_, h.snoc hnode hnot hemitted hemits huses hwanted, by simp⟩

end Grows

theorem Logged.getResolved (h : Logged s₀ log s) (hroot : s₀.graph.resolve id = id) {node : Ssa.Node}
    (hnode : s₀.graph.node? id = some node) : s.graph.getResolved id = .ok node := by
  rw [Graph.getResolved, h.nodes.resolve_eq, hroot, Graph.getNode, h.nodes.node?_eq, hnode]

/-- What was lowered before stays lowered. -/
theorem Grows.contains_mono {wanted : NodeId → Prop} {more : List Emission} {t : LowerState}
    (h : Grows s₀ log s wanted more t) (hid : s.lowered.contains id = true) : t.lowered.contains id = true := by
  rw [Std.TreeMap.contains_eq_isSome_getElem?] at hid ⊢
  obtain ⟨l, hl⟩ := Option.isSome_iff_exists.1 hid
  rw [h.recorded id l hl, Option.isSome_some]

/-- A node was lowered after what it uses, unless that was done before, and a list of tasks comes to the same state. -/
structure Visited (s₀ : LowerState) (log : List Emission) (s : LowerState) (id : NodeId) (more : List Emission)
    (t : LowerState) : Prop where
  grows : Grows s₀ log s (ReflTransGen (Uses s₀.graph) id) more t
  mem : id ∈ (log ++ more).map (·.node)
  eq_of_done : s.lowered.contains id = true → t = s
  steps : ∀ rest, TaskSteps (⟨id, false⟩ :: rest, s) (rest, t)

/-- Some of what a node uses was lowered. -/
structure Expanded (s₀ : LowerState) (log : List Emission) (s : LowerState) (id : NodeId) (front : List NodeId)
    (more : List Emission) (t : LowerState) : Prop where
  grows : Grows s₀ log s (TransGen (Uses s₀.graph) id) more t
  mem : ∀ o ∈ front, o ∈ (log ++ more).map (·.node)
  steps : ∀ rest, TaskSteps (s.tasks front ++ rest, s) (rest, t)

namespace Expanded

variable {t u : LowerState} {front : List NodeId} {more more' : List Emission} {o : NodeId}

theorem nil (h : Logged s₀ log s) (id : NodeId) : Expanded s₀ log s id [] [] s :=
  ⟨.refl h _, List.forall_mem_nil _, fun _ => .refl⟩

/-- One more of them. -/
theorem snoc (h : Expanded s₀ log s id front more t) (huses : Uses s₀.graph id o)
    (ho : Visited s₀ (log ++ more) t o more' u) : Expanded s₀ log s id (front ++ [o]) (more ++ more') u := by
  refine ⟨h.grows.trans ho.grows fun k => .head' huses, fun o' ho' => ?_, ?_⟩
  · rw [← List.append_assoc]
    rcases List.mem_append.1 ho' with ho' | ho'
    · rw [List.map_append]
      exact List.mem_append_left _ (h.mem o' ho')
    · rw [List.mem_singleton.1 ho']
      exact ho.mem
  · exact steps_tasks_snoc h.steps (fun hdone => ho.eq_of_done (h.grows.contains_mono hdone)) ho.steps

/-- What was emitted on the way is below the node, so the node itself is still to be lowered. -/
theorem not_mem (h : Expanded s₀ log s id front more t) (hs : Logged s₀ log s) (hg : Layered s₀.graph)
    (hnew : s.lowered.contains id = false) : id ∉ (log ++ more).map (·.node) := by
  rw [List.map_append, List.mem_append, ← hs.lowered, hnew]
  rintro (hfalse | hmem)
  · cases hfalse
  · obtain ⟨e, he, rfl⟩ := List.mem_map.1 hmem
    exact Nat.lt_irrefl _ (hg.lt_of_reaches (h.grows.wanted e he))

/-- The node comes up again when all that it uses is lowered, and is emitted. -/
theorem emit {node : Ssa.Node} (h : Expanded s₀ log s id front more t) (hs : Logged s₀ log s) (hg : Layered s₀.graph)
    (hnew : s.lowered.contains id = false) (hroot : s₀.graph.resolve id = id)
    (hnode : s₀.graph.node? id = some node) (hall : ∀ o, Uses s₀.graph id o → o ∈ front)
    (hexpand : ∀ rest, TaskStep (⟨id, false⟩ :: rest, s) (s.tasks front ++ ⟨id, true⟩ :: rest, s)) :
    Spec (do let l ← LowerM.emit node; modify fun s => { s with lowered := s.lowered.insert id l }) t
      (fun _ u => ∃ more', Visited s₀ log s id more' u) E := by
  have hnot := h.not_mem hs hg hnew
  have hstill : t.lowered.contains id = false := by
    rw [← Bool.not_eq_true, h.grows.logged.lowered]
    exact hnot
  refine ((h.grows.mono fun k => TransGen.to_reflTransGen).emit hg hnode hnot
    (fun o ho => h.mem o (hall o ho)) .refl).of_ok_imp ?_
  rintro _ u hrun ⟨more', hgrows, hmem⟩
  refine ⟨more', hgrows, hmem, ?_, ?_⟩
  · rw [hnew]
    exact fun hfalse => absurd hfalse Bool.false_ne_true
  · intro rest
    have hemit := step_emit hstill (h.grows.logged.getResolved hroot hnode) hrun rest
    exact .head (hexpand rest) ((h.steps _).tail hemit)

end Expanded

/-- A node that stands for itself is lowered, after what it uses. -/
theorem Logged.lowerResolved (h : Logged s₀ log s) (hg : Layered s₀.graph) (hid : id < s₀.graph.nodes.size)
    (hroot : s₀.graph.resolve id = id) {depth : Nat} (hdepth : id < depth) :
    Spec (LowerM.lowerResolved depth id) s (fun _ t => ∃ more, Visited s₀ log s id more t) E := by
  induction depth generalizing id log s with
  | zero => exact absurd hdepth (Nat.not_lt_zero id)
  | succ depth ih =>
    cases hdone : s.lowered.contains id with
    | true =>
      refine (LowerM.lowerResolved_done hdone depth).mono ?_ fun _ he => he
      rintro _ _ rfl
      refine ⟨[], .refl h _, ?_, fun _ => rfl, fun rest => .single (step_done hdone false rest)⟩
      rw [List.append_nil]
      exact (h.lowered id).1 hdone
    | false =>
      have hnode : s₀.graph.node? id = some s₀.graph.nodes[id] := Array.getElem?_eq_getElem hid
      generalize s₀.graph.nodes[id] = node at hnode
      have hget := h.getResolved hroot hnode
      have hexpand := step_expand hdone hget
      unfold LowerM.lowerResolved
      refine .get_bind ?_
      rw [hdone, if_neg Bool.false_ne_true]
      refine .lift_bind hget ?_
      dsimp only
      rw [funext h.nodes.resolve_eq] at hexpand ⊢
      refine .bind (.forM (P := fun front t => ∃ more, Expanded s₀ log s id front more t) ?_ ⟨[], .nil h id⟩) ?_
      · rintro front o rest hsplit t ⟨more, ht⟩
        have huses : Uses s₀.graph id o := (uses_iff hnode).2 (by simp [hsplit])
        obtain ⟨-, hlt, hself⟩ := hg.of_uses huses
        refine (ih ht.grows.logged (hlt.trans hid) hself (Nat.lt_of_lt_of_le hlt (Nat.le_of_lt_succ hdepth))).mono ?_
          fun _ he => he
        rintro _ u ⟨more', hu⟩
        exact ⟨more ++ more', ht.snoc huses hu⟩
      · rintro _ t ⟨more, ht⟩
        exact ht.emit h hg hdone hroot hnode (fun o => (uses_iff hnode).1) hexpand

/-- What a node that was lowered needs was lowered before. -/
theorem Logged.mem_of_reaches (h : Logged s₀ log s) (hid : id ∈ log.map (·.node)) {o : NodeId}
    (hreach : ReflTransGen (Uses s₀.graph) id o) : o ∈ log.map (·.node) := by
  induction hreach with
  | refl => exact hid
  | tail _ huses ih =>
    obtain ⟨e, he, rfl⟩ := List.mem_map.1 ih
    obtain ⟨front, rest, hsplit⟩ := List.append_of_mem he
    rw [hsplit, List.map_append]
    exact List.mem_append_left _ (h.ordered hsplit _ huses)

/-- One request. -/
theorem Logged.lower (h : Logged s₀ log s) (hg : Layered s₀.graph) (hid : id < s₀.graph.nodes.size) :
    Spec (LowerM.lower id) s (fun l t => (∃ more,
      Grows s₀ log s (ReflTransGen (Uses s₀.graph) (s₀.graph.resolve id)) more t ∧ t.lowered? id = some l) ∧
      TaskSteps ([⟨s.graph.resolve id, false⟩], s) ([], t)) E := by
  have hle : s₀.graph.resolve id ≤ id := Ssa.resolve_le hg.falling id
  refine .get_bind ?_
  dsimp only
  rw [h.nodes.resolve_eq, h.nodes.nodes_eq]
  refine .bind (h.lowerResolved hg (Nat.lt_of_le_of_lt hle hid) (hg.resolve_resolve id)
    (Nat.lt_succ_of_le (Nat.le_of_lt (Nat.lt_of_le_of_lt hle hid)))) ?_
  rintro _ t ⟨more, hmore, hmem, -, hsteps⟩
  rw [← hmore.logged.lowered, Std.TreeMap.contains_eq_isSome_getElem?] at hmem
  obtain ⟨l, hl⟩ := Option.isSome_iff_exists.1 hmem
  refine .get_bind ?_
  rw [hl]
  refine .pure ⟨⟨more, hmore, ?_⟩, hsteps []⟩
  rw [LowerState.lowered?, hmore.logged.nodes.resolve_eq, hl]

/-- What is emitted later in a block comes later there. -/
theorem Logged.exists_numbersOf_eq (h : Logged s₀ log s) {front mid rest : List Emission} {e e' : Emission}
    (hsplit : log = front ++ e :: (mid ++ e' :: rest)) {b : BlockId} (hb : belongs s₀.graph b e.node = true)
    (hb' : belongs s₀.graph b e'.node = true) :
    ∃ before between after, s.graph.numbersOf b = before ++ e.numbers ++ between ++ e'.numbers ++ after := by
  simp only [h.numbers_eq, hsplit, List.filter_append, List.filter_cons, hb, hb', if_true, List.flatMap_append,
    List.flatMap_cons, ← List.append_assoc]
  exact ⟨_, _, _, rfl⟩

theorem Logged.exists_first (h : Logged s₀ log s) {e : Emission} (he : e ∈ log) {o : NodeId}
    (huses : Uses s₀.graph e.node o) : ∃ e' ∈ log, e'.node = o ∧ ∀ b, belongs s₀.graph b o = true →
      belongs s₀.graph b e.node = true →
        ∃ before between after, s.graph.numbersOf b = before ++ e'.numbers ++ between ++ e.numbers ++ after := by
  obtain ⟨front, rest, hsplit⟩ := List.append_of_mem he
  obtain ⟨e', he', rfl⟩ := List.mem_map.1 (h.ordered hsplit o huses)
  obtain ⟨front', mid, rfl⟩ := List.append_of_mem he'
  rw [List.append_assoc, List.cons_append] at hsplit
  exact ⟨e', by simp [hsplit], rfl, fun b => h.exists_numbersOf_eq hsplit⟩

end Logged

/-- Only merges and undefined values become nothing. -/
theorem Emits.code_eq_nil_iff {reg? : NodeId → Option Register} {data : Array DataEntry} {type : ValueType}
    {op : Ssa.Op} {n next : Nat} {is : List Instr} {r : Option Register} (h : Emits reg? data type op n is r next) :
    is = [] ↔ op.isMerge = true ∨ op.isUndefined = true := by
  cases h <;> simp [Ssa.Op.isMerge, Ssa.Op.isUndefined, callCode]

/-! ## Requests -/

/-- Nodes were asked for, one after the other, and this came of it. -/
structure Answered (s₀ : LowerState) (ids : List NodeId) (results : List Lowered) (log : List Emission)
    (s : LowerState) : Prop where
  logged : Logged s₀ log s
  results_eq : results.map some = ids.map s.lowered?
  /-- What is lowered is what was asked for and what that uses. -/
  wanted : ∀ k, k ∈ log.map (·.node) ↔ ∃ id ∈ ids, ReflTransGen (Uses s₀.graph) (s₀.graph.resolve id) k
  /-- Only merges and undefined values become nothing. -/
  silent : ∀ e ∈ log, ∃ node, s₀.graph.node? e.node = some node ∧
    (e.code = [] ↔ node.op.isMerge = true ∨ node.op.isUndefined = true)
  /-- What a node uses comes before it in their block. -/
  operand_first : ∀ e ∈ log, ∀ o, Uses s₀.graph e.node o → ∃ e' ∈ log, e'.node = o ∧ ∀ b,
    belongs s₀.graph b o = true → belongs s₀.graph b e.node = true →
      ∃ before between after, s.graph.numbersOf b = before ++ e'.numbers ++ between ++ e.numbers ++ after

section Answered

variable {s₀ s : LowerState} {ids : List NodeId} {results : List Lowered} {log : List Emission} {id : NodeId}
  {E : Error → Prop}

theorem Logged.answered (h : Logged s₀ log s) (hresults : results.map some = ids.map s.lowered?)
    (hwanted : ∀ k, k ∈ log.map (·.node) ↔ ∃ id ∈ ids, ReflTransGen (Uses s₀.graph) (s₀.graph.resolve id) k) :
    Answered s₀ ids results log s where
  logged := h
  results_eq := hresults
  wanted := hwanted
  silent e he := by
    obtain ⟨node, _, _, _, hnode, -, hemits⟩ := h.emits e he
    exact ⟨node, hnode, hemits.code_eq_nil_iff⟩
  operand_first e he o huses := h.exists_first he huses

theorem Grows.lowered?_mono {wanted : NodeId → Prop} {more : List Emission} {t : LowerState}
    (h : Grows s₀ log s wanted more t) (hs : Logged s₀ log s) {l : Lowered} (hl : s.lowered? id = some l) :
    t.lowered? id = some l := by
  rw [LowerState.lowered?, hs.nodes.resolve_eq] at hl
  rw [LowerState.lowered?, h.logged.nodes.resolve_eq]
  exact h.recorded _ l hl

/-- One request more. -/
theorem Answered.lower (h : Answered s₀ ids results log s) (hg : Layered s₀.graph) (hid : id < s₀.graph.nodes.size) :
    Spec (LowerM.lower id) s (fun l t => (∃ more, Answered s₀ (ids ++ [id]) (results ++ [l]) (log ++ more) t) ∧
      TaskSteps ([⟨s.graph.resolve id, false⟩], s) ([], t)) E := by
  refine (h.logged.lower hg hid).mono ?_ fun _ he => he
  rintro l t ⟨⟨more, hmore, hl⟩, hsteps⟩
  have hroot : s₀.graph.resolve id ∈ (log ++ more).map (·.node) := by
    rw [← hmore.logged.lowered, Std.TreeMap.contains_eq_isSome_getElem?, ← hmore.logged.nodes.resolve_eq]
    exact Option.isSome_of_eq_some hl
  refine ⟨⟨more, hmore.logged.answered ?_ fun k => ⟨fun hk => ?_, ?_⟩⟩, hsteps⟩
  · have hkeep : ids.map s.lowered? = ids.map t.lowered? := by
      refine List.map_congr_left fun k hk => ?_
      obtain ⟨l', -, hl'⟩ := List.mem_map.1 (h.results_eq ▸ List.mem_map_of_mem hk : s.lowered? k ∈ results.map some)
      rw [← hl', hmore.lowered?_mono h.logged hl'.symm]
    rw [List.map_append, List.map_append, h.results_eq, hkeep, List.map_singleton, List.map_singleton, hl]
  · rw [List.map_append] at hk
    rcases List.mem_append.1 hk with hk | hk
    · obtain ⟨id', hid', hreach⟩ := (h.wanted k).1 hk
      exact ⟨id', List.mem_append_left _ hid', hreach⟩
    · obtain ⟨e, he, rfl⟩ := List.mem_map.1 hk
      exact ⟨id, by simp, hmore.wanted e he⟩
  · rintro ⟨id', hid', hreach⟩
    rcases List.mem_append.1 hid' with hid' | hid'
    · rw [List.map_append]
      exact List.mem_append_left _ ((h.wanted k).2 ⟨id', hid', hreach⟩)
    · rw [List.mem_singleton.1 hid'] at hreach
      exact hmore.logged.mem_of_reaches hroot hreach

/-- All requests. -/
theorem answered_mapM_lower (h : s₀.lowered = ∅) (hg : Layered s₀.graph) (hids : ∀ id ∈ ids, id < s₀.graph.nodes.size) :
    Spec (ids.mapM LowerM.lower) s₀ (fun results s => ∃ log, Answered s₀ ids results log s) E := by
  have hstart : Answered s₀ [] [] [] s₀ := (logged_nil h).answered rfl (by simp)
  refine .mapM (P := fun front results t => ∃ log, Answered s₀ front results log t) ?_ ⟨[], hstart⟩
  rintro front id rest hsplit results t ⟨log, ht⟩
  refine (ht.lower hg (hids id (by simp [hsplit]))).mono ?_ fun _ he => he
  rintro l u ⟨⟨more, hu⟩, -⟩
  exact ⟨log ++ more, hu⟩

end Answered

/-- Lowering follows demand. In a graph in layers nodes that exist may be asked for in any order: each request is
answered, nothing is lowered twice or without need, and a request for a node that is lowered already, or for one that is
read as such a node, changes nothing. A list of tasks that starts with the node is worked off and comes to the same
state. The nodes of every method that compiles are in layers. -/
theorem lowering_follows_demand :
    (∀ s₀ : LowerState, Layered s₀.graph → s₀.lowered = ∅ → ∀ ids : List NodeId,
      (∀ id ∈ ids, id < s₀.graph.nodes.size) → ∃ results log s, ids.mapM LowerM.lower s₀ = .ok results s ∧
        Answered s₀ ids results log s ∧ ∀ id < s₀.graph.nodes.size, ∃ l more t, LowerM.lower id s = .ok l t ∧
          Answered s₀ (ids ++ [id]) (results ++ [l]) (log ++ more) t ∧
          TaskSteps ([⟨s.graph.resolve id, false⟩], s) ([], t) ∧
          ∀ recorded, s.lowered? id = some recorded → l = recorded ∧ t = s) ∧
    ∀ {table : OperandTable} {pool : ConstantPool} {m : Method} {labelPrefix : String} {c : Compiled}
      {s s' : Statistics}, compile table pool m labelPrefix s = .ok c s' →
        ∃ st : Stages, st.Succeed table pool m labelPrefix c ∧ Layered st.cleaned.graph := by
  constructor
  · intro s₀ hg hempty ids hids
    obtain ⟨results, s, hrun, log, hs⟩ := (answered_mapM_lower hempty hg hids).exists_ok
    refine ⟨results, log, s, hrun, hs, fun id hid => ?_⟩
    obtain ⟨l, t, hlower, ⟨more, ht⟩, hsteps⟩ := (hs.lower hg hid).exists_ok
    refine ⟨l, more, t, hlower, ht, hsteps, fun recorded hrecorded => ?_⟩
    rw [LowerM.lower_done hrecorded] at hlower
    cases hlower
    exact ⟨rfl, rfl⟩
  · intro table pool m labelPrefix s s' c h
    obtain ⟨st, hst⟩ := compile_eq_ok h
    exact ⟨st, hst, layered_cleaned hst⟩

/-- Two blocks, a merge that later nodes feed, one that is read as the parameter, and a constant that nothing uses. -/
def sharedOperands : LowerState where
  graph :=
    { blocks := (∅ : Std.TreeMap BlockId Block).insertMany [(0, {}), (1, {})]
      nodes := #[⟨0, .int, .param 0⟩, ⟨0, .int, .intConst 2⟩, ⟨1, .int, .merge (.localVar 0) [0, 5]⟩,
        ⟨1, .int, .merge (.localVar 1) [0, 3]⟩, ⟨1, .int, .arith .add 96 3 0⟩, ⟨1, .int, .arith .mul 104 4 2⟩,
        ⟨1, .void, .ret (some 5)⟩]
      aliases := (∅ : Std.TreeMap NodeId NodeId).insert 3 0 }
  stats := {}
  labelPrefix := "shared"

theorem layered_sharedOperands : Layered sharedOperands.graph := by
  have hnodes : ∀ id < 7, ∀ node ∈ sharedOperands.graph.node? id,
      sharedOperands.graph.hasBlock node.block = true ∧ (node.op.isMerge = false → ∀ o ∈ node.op.operands,
        o < id ∧ ((sharedOperands.graph.node? o).any fun n => n.op.yields n.type) = true) := by decide +kernel
  have hlt : ∀ {id : NodeId} {node}, sharedOperands.graph.node? id = some node → id < 7 :=
    fun hnode => (Array.getElem?_eq_some_iff.1 hnode).1
  refine ⟨fun hnode => (hnodes _ (hlt hnode) _ hnode).1, fun hnode hmerge o ho => ?_, fun {id target} halias => ?_⟩
  · obtain ⟨hless, hvalued⟩ := (hnodes _ (hlt hnode) _ hnode).2 hmerge o ho
    obtain ⟨node, hnode', hyields⟩ := (Option.any_eq_true _ _).1 hvalued
    exact ⟨hless, node, hnode', hyields⟩
  · simp only [sharedOperands, Std.TreeMap.getElem?_insert, Graph.compare_eq_iff] at halias
    split at halias
    · next heq =>
      cases halias
      subst heq
      exact ⟨by decide, _, rfl, rfl⟩
    · simp at halias

/-- The node for the product is asked for first, then the merge that is read as the parameter, then the end. -/
theorem sharedOperands_and_sumTo_follow_demand :
    (Layered sharedOperands.graph ∧ ∃ results log s, [5, 3, 6, 4].mapM LowerM.lower sharedOperands = .ok results s ∧
      Answered sharedOperands [5, 3, 6, 4] results log s ∧ s.lowered.keys = [0, 2, 4, 5, 6] ∧
      s.graph.numbersOf 1 = [1, 2, 3, 4] ∧ ∃ l, LowerM.lower 3 s = .ok l s) ∧
    ∃ c s, compile .standard .empty sumTo "Sum_upTo" {} = .ok c s ∧
      ∃ st : Stages, st.Succeed .standard .empty sumTo "Sum_upTo" c ∧ Layered st.cleaned.graph := by
  have heval : (match [5, 3, 6, 4].mapM LowerM.lower sharedOperands with
      | .ok _ s => decide (s.lowered.keys = [0, 2, 4, 5, 6] ∧ s.graph.numbersOf 1 = [1, 2, 3, 4] ∧
        (s.lowered? 3).isSome = true)
      | .error .. => false) = true := by decide +kernel
  obtain ⟨c, s, hc⟩ := exists_of_compiles compiles_sumTo
  refine ⟨⟨layered_sharedOperands, ?_⟩, c, s, hc, lowering_follows_demand.2 hc⟩
  obtain ⟨results, log, s, hrun, hs, hnext⟩ :=
    lowering_follows_demand.1 sharedOperands layered_sharedOperands rfl [5, 3, 6, 4] (by decide)
  rw [hrun] at heval
  obtain ⟨hkeys, hnumbers, hsome⟩ := of_decide_eq_true heval
  obtain ⟨recorded, hrecorded⟩ := Option.isSome_iff_exists.1 hsome
  obtain ⟨l, _, _, hlower, -, -, hsame⟩ := hnext 3 (by decide)
  obtain ⟨rfl, rfl⟩ := hsame recorded hrecorded
  exact ⟨results, log, _, hrun, hs, hkeys, hnumbers, l, hlower⟩

end Destack.Machine
