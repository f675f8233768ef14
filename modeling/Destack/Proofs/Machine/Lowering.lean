import Destack.Proofs.Machine.Emission
import Destack.Proofs.Ssa.Evaluation
import Destack.Proofs.Ssa.Schedule

/-!
# The lowering of a graph

Nodes that come in order are all lowered, each at the end of its own block and with registers of its own (`Lowers`),
and every merge becomes moves at the end of the predecessors (`Resolves`). So the lowering never fails, and the code of
a block is that of its nodes with the moves of its edges ahead of the jump (`run_spec`).
-/

namespace Destack.Machine

open Pass (Spec)
open Ssa (nodesOf schedule Scheduled)

/-- What a node became: its instructions, and the numbers of the registers handed out for it. -/
structure Piece where
  code : List Instr
  first : Nat
  next : Nat

/-- Numbers from one count to another are handed out in spans, one after the other. -/
structure Spans {α : Type} (start stop : Nat) (done : List α) (first next : α → Nat) : Prop where
  le : start ≤ stop
  start_le : ∀ a ∈ done, start ≤ first a
  spaced : done.Pairwise fun a b => next a ≤ first b
  next_le : ∀ a ∈ done, next a ≤ stop
  covered : ∀ n, start ≤ n → n < stop → ∃ a ∈ done, first a ≤ n ∧ n < next a

theorem spans_nil {α : Type} (n : Nat) (first next : α → Nat) : Spans n n [] first next :=
  ⟨Nat.le_refl n, by simp, .nil, by simp, fun k hle hlt => absurd hle (Nat.not_le.2 hlt)⟩

/-- One span more. -/
theorem Spans.snoc {α : Type} {start stop stop' : Nat} {done : List α} {first next first' next' : α → Nat} {x : α}
    (h : Spans start stop done first next) (hold : ∀ a ∈ done, first' a = first a ∧ next' a = next a)
    (hfirst : first' x = stop) (hnext : next' x = stop') (hle : stop ≤ stop') :
    Spans start stop' (done ++ [x]) first' next' := by
  refine ⟨h.le.trans hle, fun a ha => ?_, List.pairwise_append.2 ⟨?_, List.pairwise_singleton _ _, ?_⟩,
    fun a ha => ?_, fun n hstart hn => ?_⟩
  · rcases List.mem_append.1 ha with ha | ha
    · rw [(hold a ha).1]
      exact h.start_le a ha
    · rw [List.mem_singleton.1 ha, hfirst]
      exact h.le
  · refine h.spaced.imp_of_mem fun {a b} ha hb hab => ?_
    rwa [(hold a ha).2, (hold b hb).1]
  · intro a ha b hb
    rw [(hold a ha).2, List.mem_singleton.1 hb, hfirst]
    exact h.next_le a ha
  · rcases List.mem_append.1 ha with ha | ha
    · rw [(hold a ha).2]
      exact (h.next_le a ha).trans hle
    · rw [List.mem_singleton.1 ha, hnext]
  · by_cases hlt : n < stop
    · obtain ⟨a, ha, hin⟩ := h.covered n hstart hlt
      refine ⟨a, by simp [ha], ?_⟩
      rwa [(hold a ha).1, (hold a ha).2]
    · exact ⟨x, by simp, by omega, by omega⟩

section Recorded

variable {s t : LowerState} {b : BlockId} {is : List Instr} {id : NodeId} {l : Lowered}

theorem Emitted.getElem?_insert (h : Emitted b is s t) (id : NodeId) (l : Lowered) (k : NodeId) :
    (t.lowered.insert id l)[k]? = if k = id then some l else s.lowered[k]? := by
  rw [Std.TreeMap.getElem?_insert, h.lowered_eq]
  simp only [Graph.compare_eq_iff, eq_comm (a := id)]

/-- Registers that are known stay so when a node is recorded that was not. -/
theorem Emitted.register?_mono (h : Emitted b is s t) (hnot : s.lowered[id]? = none) {o : NodeId} {r : Register}
    (ho : s.register? o = some r) : LowerState.register? { t with lowered := t.lowered.insert id l } o = some r := by
  obtain ⟨l', hl', hr⟩ := Option.bind_eq_some_iff.1 ho
  rw [LowerState.lowered?] at hl'
  rw [LowerState.register?, LowerState.lowered?]
  dsimp only
  rw [h.nodes.resolve_eq, h.getElem?_insert, if_neg, hl', Option.bind_some, hr]
  intro heq
  rw [heq, hnot] at hl'
  cases hl'

end Recorded

/-- Whether a node belongs to a block. -/
def belongs (g : Graph) (b : BlockId) (id : NodeId) : Bool :=
  (g.node? id).map (·.block) = some b

/-- Some nodes of a graph are lowered, one after the other. -/
structure Lowers (g : Graph) (done : List NodeId) (piece : NodeId → Piece) (s : LowerState) : Prop where
  nodes : g.SameNodes s.graph
  code : s.graph.Carries fun b => (done.filter (belongs g b)).flatMap fun id => (piece id).code
  placed : s.graph.PlacedOnce
  lowered : ∀ id, s.lowered.contains id = true ↔ id ∈ done
  emits : ∀ id ∈ done, ∃ node l, g.node? id = some node ∧ s.lowered[id]? = some l ∧
    Emits s.register? s.data node.type node.op (piece id).first (piece id).code l.register (piece id).next
  spans : Spans g.registers s.graph.registers done (fun id => (piece id).first) fun id => (piece id).next
  labelled : s.Labelled

section Lowers

variable {g : Graph} {done : List NodeId} {piece : NodeId → Piece} {s : LowerState} {E : Error → Prop} {b : BlockId}
  {id : NodeId}

/-- The register of a node with a value that is lowered. -/
theorem Lowers.exists_register (h : Lowers g done piece s) (hid : g.resolve id ∈ done)
    (hvalued : Ssa.Valued g (g.resolve id)) : ∃ r, s.register? id = some r := by
  obtain ⟨node, l, hnode, hl, hemits⟩ := h.emits _ hid
  obtain ⟨node', hnode', hyields⟩ := hvalued
  obtain rfl := Option.some.inj (hnode.symm.trans hnode')
  rw [← hemits.isSome_register] at hyields
  obtain ⟨r, hr⟩ := Option.isSome_iff_exists.1 hyields
  refine ⟨r, ?_⟩
  rw [LowerState.register?, LowerState.lowered?, h.nodes.resolve_eq, hl]
  exact hr

/-- The register of a merge. -/
theorem Lowers.exists_register_merge (h : Lowers g (schedule g) piece s) (hs : Scheduled g) (hid : id ∈ g.mergesOf b) :
    ∃ r, s.register? id = some r := by
  obtain ⟨hlisted, hmerge⟩ := Ssa.mem_mergesOf.1 hid
  obtain ⟨hresolve, node, hnode, -⟩ := hs.node hlisted
  rw [Ssa.isSome_merge?_iff hnode] at hmerge
  apply h.exists_register
  · rw [hresolve]
    exact (Ssa.mem_schedule hs.mem_order).2 ⟨b, hlisted⟩
  · refine ⟨node, by rw [hresolve, hnode], ?_⟩
    cases hop : node.op <;> simp_all [Ssa.Op.isMerge, Ssa.Op.yields]

/-- One node more. -/
theorem Lowers.snoc (h : Lowers g done piece s) {node : Ssa.Node} (hnode : g.node? id = some node) (hnot : id ∉ done)
    {is : List Instr} {t : LowerState} {l : Lowered} (hemitted : Emitted node.block is s t)
    (hemits : Emits s.register? t.data node.type node.op s.graph.registers is l.register t.graph.registers) :
    Lowers g (done ++ [id]) (Function.update piece id ⟨is, s.graph.registers, t.graph.registers⟩)
      { t with lowered := t.lowered.insert id l } := by
  have hne : ∀ k ∈ done, k ≠ id := by
    rintro k hk rfl
    exact hnot hk
  have hold : ∀ k ∈ done, Function.update piece id ⟨is, s.graph.registers, t.graph.registers⟩ k = piece k :=
    fun k hk => Function.update_of_ne (hne k hk) _ _
  have hkeep : ∀ k, k ∈ done → (t.lowered.insert id l)[k]? = s.lowered[k]? := by
    intro k hk
    rw [hemitted.getElem?_insert, if_neg (hne k hk)]
  have hnone : s.lowered[id]? = none := by
    rw [← h.lowered, Std.TreeMap.contains_eq_isSome_getElem?] at hnot
    exact Option.not_isSome_iff_eq_none.1 hnot
  have hregister : ∀ o r, s.register? o = some r →
      LowerState.register? { t with lowered := t.lowered.insert id l } o = some r :=
    fun o r ho => hemitted.register?_mono hnone ho
  have hle := hemits.register_eq.1
  refine ⟨h.nodes.trans hemitted.nodes, ?_, h.placed.appends hemitted.appends, ?_, ?_, ?_,
    fun k entry => hemitted.labelled h.labelled k entry⟩
  · refine (hemitted.code _ h.code).congr fun b _ => ?_
    have hfilter : ((done.filter (belongs g b)).flatMap fun k =>
        (Function.update piece id ⟨is, s.graph.registers, t.graph.registers⟩ k).code) =
        (done.filter (belongs g b)).flatMap fun k => (piece k).code :=
      List.flatMap_congr fun k hk => by rw [hold k (List.mem_filter.1 hk).1]
    rw [List.filter_append, List.flatMap_append, hfilter]
    by_cases hb : b = node.block
    · simp [hb, belongs, hnode]
    · simp [hb, belongs, hnode, Ne.symm hb]
  · intro k
    rw [Std.TreeMap.contains_insert, hemitted.lowered_eq, Bool.or_eq_true, h.lowered, List.mem_append,
      List.mem_singleton, beq_iff_eq, Graph.compare_eq_iff, or_comm, eq_comm]
  · intro k hk
    rcases List.mem_append.1 hk with hk | hk
    · obtain ⟨node', l', hnode', hl', hemits'⟩ := h.emits k hk
      refine ⟨node', l', hnode', (hkeep k hk).trans hl', ?_⟩
      rw [hold k hk]
      exact hemits'.mono hregister hemitted.data
    · obtain rfl := List.mem_singleton.1 hk
      refine ⟨node, l, hnode, by simp, ?_⟩
      rw [Function.update_self]
      exact hemits.mono hregister fun _ he => he
  · refine h.spans.snoc (fun k hk => ?_) ?_ ?_ hle
    · rw [hold k hk]
      exact ⟨rfl, rfl⟩
    · rw [Function.update_self]
    · rw [Function.update_self]

/-- A node that is lowered is left alone. -/
theorem LowerM.lowerResolved_done (h : s.lowered.contains id = true) (depth : Nat) :
    Spec (lowerResolved (depth + 1) id) s (fun _ s' => s = s') E := by
  unfold lowerResolved
  refine .get_bind ?_
  rw [if_pos h]
  exact .pure rfl

/-- The next node is lowered, with registers that nothing was lowered to. -/
theorem Lowers.lowerResolved (h : Lowers g done piece s) (hs : Scheduled g) (hid : id ∈ nodesOf g b) (hnot : id ∉ done)
    (hfirst : ∀ o ∈ schedule g, o < id → o ∈ done) (depth : Nat) :
    Spec (LowerM.lowerResolved (depth + 2) id) s
      (fun _ s' => ∃ p, Lowers g (done ++ [id]) (Function.update piece id p) s') E := by
  obtain ⟨hresolve, node, hnode, hblock⟩ := hs.node hid
  have hget : s.graph.getResolved id = .ok node := by
    rw [Graph.getResolved, h.nodes.resolve_eq, hresolve, Graph.getNode, h.nodes.node?_eq, hnode]
  have hoperand : node.op.isMerge = false →
      ∀ o ∈ node.op.operands, g.resolve o ∈ done ∧ Ssa.Valued g (g.resolve o) := by
    intro hmerge o ho
    obtain ⟨hlt, hmem, hvalued⟩ := hs.operand hid hnode hmerge ho
    exact ⟨hfirst _ hmem hlt, hvalued⟩
  unfold LowerM.lowerResolved
  refine .get_bind ?_
  rw [if_neg (mt (h.lowered id).1 hnot)]
  refine .lift_bind hget ?_
  refine .bind (Q := fun _ t => s = t) ?_ ?_
  · -- The operands are lowered already.
    refine .forM (P := fun _ t => s = t) ?_ rfl
    rintro front o rest hsplit _ rfl
    refine LowerM.lowerResolved_done ?_ depth
    have ho : o ∈ if node.op.isMerge = true then [] else node.op.operands.map s.graph.resolve := by simp [hsplit]
    split at ho
    · cases ho
    · next hmerge =>
      obtain ⟨o', ho', rfl⟩ := List.mem_map.1 ho
      rw [h.lowered, h.nodes.resolve_eq]
      exact (hoperand (Bool.of_not_eq_true hmerge) o' ho').1
  · rintro _ _ rfl
    refine .bind (LowerM.emit_spec ?_ fun hmerge o ho => ?_) ?_
    · rw [h.nodes.hasBlock_eq, hblock]
      exact Ssa.Form.hasBlock_of_mem_nodesOf hid
    · obtain ⟨hdone, hvalued⟩ := hoperand hmerge o ho
      exact h.exists_register hdone hvalued
    · rintro l t ⟨is, hemitted, hemits⟩
      exact .modify ⟨_, h.snoc hnode hnot (hblock ▸ hemitted) hemits⟩

/-- A node that is lowered is answered from the record. -/
theorem LowerM.lower_done {l : Lowered} (h : s.lowered? id = some l) : lower id s = .ok l s := by
  have hcontains : s.lowered.contains (s.graph.resolve id) = true := by
    rw [Std.TreeMap.contains_eq_isSome_getElem?]
    exact Option.isSome_of_eq_some h
  have hspec : Spec (lower id) s (fun l' s' => l = l' ∧ s = s') fun _ => False := by
    refine .get_bind (.bind (lowerResolved_done hcontains _) ?_)
    rintro _ _ rfl
    refine .get_bind ?_
    rw [LowerState.lowered?] at h
    rw [h]
    exact .pure ⟨rfl, rfl⟩
  obtain ⟨_, _, hrun, rfl, rfl⟩ := hspec.exists_ok
  exact hrun

/-- The next node of the order. -/
theorem Lowers.lower (h : Lowers g done piece s) (hs : Scheduled g) {rest : List NodeId}
    (hsplit : schedule g = done ++ id :: rest) :
    Spec (LowerM.lower id) s (fun _ s' => ∃ piece', Lowers g (done ++ [id]) piece' s') E := by
  have hsorted := hs.sorted
  rw [hsplit, List.pairwise_append, List.pairwise_cons] at hsorted
  obtain ⟨-, ⟨hrest, -⟩, hdone⟩ := hsorted
  have hnot : id ∉ done := fun hmem => Nat.lt_irrefl id (hdone id hmem id List.mem_cons_self)
  have hfirst : ∀ o ∈ schedule g, o < id → o ∈ done := by
    intro o ho hlt
    rw [hsplit] at ho
    rcases List.mem_append.1 ho with ho | ho
    · exact ho
    · rcases List.mem_cons.1 ho with rfl | ho
      · exact absurd hlt (Nat.lt_irrefl o)
      · exact absurd hlt (Nat.lt_asymm (hrest o ho))
  obtain ⟨b, hid⟩ := (Ssa.mem_schedule hs.mem_order).1 (by simp [hsplit] : id ∈ schedule g)
  obtain ⟨hresolve, node, hnode, -⟩ := hs.node hid
  obtain ⟨size, hsize⟩ : ∃ size, s.graph.nodes.size = size + 1 := by
    refine Nat.exists_eq_succ_of_ne_zero fun hzero => ?_
    have hlt := (Array.getElem?_eq_some_iff.1 hnode).1
    rw [← h.nodes.nodes_eq, hzero] at hlt
    exact Nat.not_lt_zero _ hlt
  have hroot : s.graph.resolve id = id := (h.nodes.resolve_eq id).trans hresolve
  refine .get_bind ?_
  dsimp only
  rw [hroot, hsize]
  refine .bind (h.lowerResolved hs hid hnot hfirst size) fun _ t ⟨p, ht⟩ => ?_
  obtain ⟨_, l, -, hl, -⟩ := ht.emits id (by simp)
  refine .get_bind ?_
  rw [hl]
  exact .pure ⟨_, ht⟩

/-- The nodes of a block in the order of lowering. -/
theorem filter_schedule (hs : Scheduled g) (hb : g.hasBlock b = true) :
    (schedule g).filter (belongs g b) = nodesOf g b := by
  have hown : ∀ {k id}, id ∈ nodesOf g k → belongs g b id = decide (k = b) := by
    intro k id hid
    obtain ⟨-, node, hnode, hblock⟩ := hs.node hid
    simp [belongs, hnode, hblock]
  have hother : ∀ {bs : List BlockId}, b ∉ bs → (bs.flatMap (nodesOf g)).filter (belongs g b) = [] := by
    intro bs hnot
    rw [List.filter_eq_nil_iff]
    intro id hid
    obtain ⟨k, hk, hid⟩ := List.mem_flatMap.1 hid
    rw [hown hid, decide_eq_true_iff]
    rintro rfl
    exact hnot hk
  obtain ⟨front, rest, hsplit⟩ := List.append_of_mem ((hs.mem_order b).2 hb)
  have hnodup := hs.nodup_order
  rw [hsplit, List.nodup_append, List.nodup_cons] at hnodup
  obtain ⟨-, ⟨hrest, -⟩, hfront⟩ := hnodup
  have hself : (nodesOf g b).filter (belongs g b) = nodesOf g b :=
    List.filter_eq_self.2 fun id hid => by rw [hown hid, decide_eq_true rfl]
  rw [schedule, hsplit, List.flatMap_append, List.flatMap_cons, List.filter_append, List.filter_append,
    hother fun hmem => hfront b hmem b List.mem_cons_self rfl, hother hrest, hself, List.nil_append, List.append_nil]

theorem Scheduled.validate (hs : Scheduled g) (h : g.SameNodes s.graph) : s.graph.validate = .ok () := by
  apply (hs.linked.of_keeps h.textOf).validate
  · rw [h.hasBlock_eq, hs.entry]
  · intro b hb
    rw [h.order_eq] at hb
    rw [h.hasBlock_eq, (hs.mem_order b).1 hb]

/-- All nodes are lowered. -/
theorem lowerAll_spec (hs : Scheduled g) (h : Lowers g [] piece s) :
    Spec LowerM.lowerAll s (fun _ s' => ∃ piece', Lowers g (schedule g) piece' s') E := by
  refine .get_bind (.lift_bind (Scheduled.validate hs h.nodes) ?_)
  rw [h.nodes.order_eq]
  refine .forM (P := fun bs t => ∃ piece', Lowers g (bs.flatMap (nodesOf g)) piece' t) ?_ ⟨piece, h⟩
  rintro front b rest hsplit t ⟨piece', ht⟩
  have hb : t.graph.hasBlock b = true := by
    rw [ht.nodes.hasBlock_eq]
    exact (hs.mem_order b).1 (by simp [hsplit])
  obtain ⟨block, hget, hblock⟩ := Graph.exists_getBlock hb
  have hnodes : block.nodes.toList = nodesOf g b := by rw [← ht.nodes.nodesOf_eq, Ssa.nodesOf_eq hblock]
  refine .get_bind (.lift_bind hget ?_)
  rw [hnodes, List.flatMap_append, List.flatMap_singleton]
  refine .forM (P := fun ids t => ∃ piece', Lowers g (front.flatMap (nodesOf g) ++ ids) piece' t) ?_ ⟨piece', by simpa⟩
  rintro ids id ids' hids u ⟨piece'', hu⟩
  refine .discard ?_
  rw [← List.append_assoc]
  have hplace : schedule g = front.flatMap (nodesOf g) ++ ids ++ id :: (ids' ++ rest.flatMap (nodesOf g)) := by
    rw [schedule, hsplit, List.flatMap_append, List.flatMap_cons, hids]
    simp
  exact hu.lower hs hplace

end Lowers

/-! ## Moves on the edges -/

/-- The move that gives a merge the value of an argument, if one is needed. -/
def moveTo? (reg? : NodeId → Option Register) (id arg : NodeId) : Option Move := do
  let source ← reg? arg
  let target ← reg? id
  if source = target then none else some ⟨source, target⟩

/-- The moves that an edge takes. -/
def edgeMoves (g : Graph) (reg? : NodeId → Option Register) (e : BlockId × BlockId) : List Move :=
  (g.mergesOf e.2).filterMap fun id => (g.argFrom? e.2 e.1 id).bind (moveTo? reg? id)

/-- The edges of a graph in the order in which they get their moves. -/
def edges (g : Graph) : List (BlockId × BlockId) :=
  g.order.flatMap fun b => (g.preds b).map (·, b)

/-- The instructions of an edge, with temporary registers from a number on. -/
def edgeCode (g : Graph) (reg? : NodeId → Option Register) (fresh : BlockId × BlockId → Nat)
    (e : BlockId × BlockId) : List Instr :=
  moveCode (fresh e) (edgeMoves g reg? e)

/-- The count of registers after the moves of an edge. -/
def edgeNext (g : Graph) (reg? : NodeId → Option Register) (fresh : BlockId × BlockId → Nat)
    (e : BlockId × BlockId) : Nat :=
  (sequence (fresh e) (edgeMoves g reg? e)).2

/-- Some edges of a graph have their moves, put in one after the other once all nodes are lowered. -/
structure Resolves (g : Graph) (piece : NodeId → Piece) (s₀ : LowerState) (done : List (BlockId × BlockId))
    (fresh : BlockId × BlockId → Nat) (s : LowerState) : Prop where
  nodes : g.SameNodes s.graph
  rest_eq : s = { s₀ with graph := s.graph, stats := s.stats }
  code : s.graph.Carries fun p => insertAhead ((nodesOf g p).flatMap fun id => (piece id).code)
    ((done.filter (·.1 = p)).flatMap (edgeCode g s₀.register? fresh))
  placed : s.graph.PlacedOnce
  spans : Spans s₀.graph.registers s.graph.registers done fresh (edgeNext g s₀.register? fresh)

section Resolves

variable {g : Graph} {piece : NodeId → Piece} {s₀ s : LowerState} {done : List (BlockId × BlockId)}
  {fresh : BlockId × BlockId → Nat} {E : Error → Prop} {b p : BlockId} {id : NodeId}

theorem isJump_of_mem_edgeCode {reg? : NodeId → Option Register} {e : BlockId × BlockId} {i : Instr}
    (h : i ∈ edgeCode g reg? fresh e) : i.op.isJump = false := by
  obtain ⟨m, -, rfl⟩ := List.mem_map.1 h
  rfl

theorem flatMap_edgeCode_update {reg? : NodeId → Option Register} {e : BlockId × BlockId} {n : Nat} (he : e ∉ done) :
    (done.filter (·.1 = p)).flatMap (edgeCode g reg? (Function.update fresh e n)) =
      (done.filter (·.1 = p)).flatMap (edgeCode g reg? fresh) := by
  refine List.flatMap_congr fun e' he' => ?_
  have hne : e' ≠ e := by
    rintro rfl
    exact he (List.mem_filter.1 he').1
  rw [edgeCode, edgeCode, Function.update_of_ne hne]

/-- The registers of one edge more. -/
theorem Resolves.spans_snoc (h : Resolves g piece s₀ done fresh s) (he : (p, b) ∉ done) :
    Spans s₀.graph.registers (sequence s.graph.registers (edgeMoves g s₀.register? (p, b))).2 (done ++ [(p, b)])
      (Function.update fresh (p, b) s.graph.registers)
      (edgeNext g s₀.register? (Function.update fresh (p, b) s.graph.registers)) := by
  refine h.spans.snoc (fun e' he' => ?_) (Function.update_self ..) ?_ (le_sequence s.graph.registers _)
  · have hne : e' ≠ (p, b) := by
      rintro rfl
      exact he he'
    rw [edgeNext, edgeNext, Function.update_of_ne hne]
    exact ⟨rfl, rfl⟩
  · rw [edgeNext, Function.update_self]

/-- One edge more. -/
theorem Resolves.snoc (h : Resolves g piece s₀ done fresh s) (he : (p, b) ∉ done) (stats : Statistics) :
    Resolves g piece s₀ (done ++ [(p, b)]) (Function.update fresh (p, b) s.graph.registers)
      { s with graph := (s.graph.insertMoves p (edgeMoves g s₀.register? (p, b))).2, stats } := by
  have hsame := s.graph.sameNodes_insertMoves p (edgeMoves g s₀.register? (p, b))
  refine ⟨h.nodes.trans hsame, ?_, ?_, h.placed.insertMoves p _, h.spans_snoc he⟩
  · rw [h.rest_eq]
  · refine (h.code.insertMoves p _).congr fun k _ => ?_
    rw [List.filter_append, List.flatMap_append, flatMap_edgeCode_update he]
    by_cases hk : k = p
    · subst hk
      rw [if_pos rfl, insertAhead_insertAhead]
      · simp [edgeCode]
      · intro i hi
        obtain ⟨e, -, hi⟩ := List.mem_flatMap.1 hi
        exact isJump_of_mem_edgeCode hi
    · simp [hk, Ne.symm hk]

/-- An edge that takes no moves may be passed over. -/
theorem Resolves.skip (h : Resolves g piece s₀ done fresh s) (he : (p, b) ∉ done) (hmerges : g.mergesOf b = []) :
    Resolves g piece s₀ (done ++ [(p, b)]) (Function.update fresh (p, b) s.graph.registers) s := by
  have hmoves : edgeMoves g s₀.register? (p, b) = [] := by rw [edgeMoves, hmerges, List.filterMap_nil]
  refine ⟨h.nodes, h.rest_eq, h.code.congr fun k _ => ?_, h.placed, ?_⟩
  · rw [List.filter_append, List.flatMap_append, flatMap_edgeCode_update he]
    by_cases hk : k = p
    · simp [hk, edgeCode, hmoves, moveCode, sequence, stage]
    · simp [Ne.symm hk]
  · have hspans := h.spans_snoc he
    rw [hmoves] at hspans
    exact hspans

/-- The moves of a merge, one for each predecessor. -/
theorem mergeMoves_spec {preds : Nat} {slot : Slot} {args : List NodeId}
    (hmerge : s.graph.merge? id = some (slot, args)) (hlength : args.length = preds) {target : Register}
    (htarget : s.register? id = some target)
    (hargs : ∀ o ∈ args, ∃ r, s.register? o = some r) :
    Spec (LowerM.mergeMoves b preds id) s (fun row s' => s = s' ∧ row = args.map (moveTo? s.register? id)) E := by
  obtain ⟨node, hnode, hop⟩ := Option.bind_eq_some_iff.1 hmerge
  refine .get_bind (.lift_bind (Ssa.getNode_eq_ok.2 hnode) ?_)
  rw [hop]
  dsimp only
  rw [if_neg (not_not_intro hlength)]
  refine LowerM.registerOf_bind htarget ?_
  refine .mapM (P := fun front row t => s = t ∧ row = front.map (moveTo? s.register? id)) ?_ ⟨rfl, rfl⟩
  rintro front o rest hsplit row _ ⟨rfl, rfl⟩
  obtain ⟨r, hr⟩ := hargs o (by simp [hsplit])
  obtain ⟨l, hl, -⟩ := Option.bind_eq_some_iff.1 hr
  refine .bind (Q := fun _ t => s = t) (.discard (.intro_ok (LowerM.lower_done hl) rfl)) ?_
  rintro _ _ rfl
  refine LowerM.registerOf_bind hr (.pure ⟨rfl, ?_⟩)
  simp [moveTo?, hr, htarget]

theorem Resolves.register?_eq (h : Resolves g piece s₀ done fresh s) (hs₀ : g.SameNodes s₀.graph) (id : NodeId) :
    s.register? id = s₀.register? id := by
  have hlowered : s.lowered = s₀.lowered := (congrArg LowerState.lowered h.rest_eq).trans rfl
  rw [LowerState.register?, LowerState.register?, LowerState.lowered?, LowerState.lowered?, h.nodes.resolve_eq,
    hs₀.resolve_eq, hlowered]

/-- The moves into the register of a merge, one for each predecessor. -/
def mergeRow (g : Graph) (reg? : NodeId → Option Register) (id : NodeId) : List (Option Move) :=
  (((g.merge? id).map (·.2)).getD []).map (moveTo? reg? id)

/-- Moves sorted by predecessor are the moves of the edges. -/
theorem byPredecessor_eq (reg? : NodeId → Option Register) (hlinked : g.Linked) :
    LowerM.byPredecessor (g.preds b) ((g.mergesOf b).map (mergeRow g reg?)) =
      (g.preds b).map fun p => (p, edgeMoves g reg? (p, b)) := by
  apply List.ext_getElem?
  intro k
  rw [LowerM.byPredecessor, List.getElem?_map, List.getElem?_map, List.getElem?_zipIdx]
  cases hp : (g.preds b)[k]? with
  | none => rfl
  | some p =>
    rw [Option.map_some, Option.map_some, Option.map_some, Nat.zero_add]
    refine congrArg (fun moves => some (p, moves)) ?_
    rw [List.filterMap_map, edgeMoves]
    refine List.filterMap_congr fun id _ => ?_
    rw [Function.comp_apply, mergeRow]
    cases hmerge : g.merge? id with
    | none => simp [Graph.argFrom?, hmerge]
    | some merge =>
      have harg : g.argFrom? b p id = merge.2[k]? := by
        simp [Graph.argFrom?, hmerge, hlinked.idxOf?_preds hp]
      rw [harg, Option.map_some, Option.getD_some, List.getElem?_map]
      cases merge.2[k]? <;> rfl

/-- The moves of all merges of a block. -/
theorem Resolves.mergeRows_spec (h : Resolves g piece s₀ done fresh s) (hs : Scheduled g)
    (hl : Lowers g (schedule g) piece s₀) :
    Spec ((g.mergesOf b).mapM (LowerM.mergeMoves b (g.preds b).length)) s
      (fun rows s' => s = s' ∧ rows = (g.mergesOf b).map (mergeRow g s₀.register?)) E := by
  refine .mapM (P := fun front rows t => s = t ∧ rows = front.map (mergeRow g s₀.register?)) ?_ ⟨rfl, rfl⟩
  rintro front id rest hsplit rows _ ⟨rfl, rfl⟩
  have hid : id ∈ g.mergesOf b := by simp [hsplit]
  obtain ⟨slot, args, hmerge, hlength, hargs⟩ := hs.argument hid
  obtain ⟨target, htarget⟩ := hl.exists_register_merge hs hid
  have hregisters : s.register? = s₀.register? := funext (h.register?_eq hl.nodes)
  refine (mergeMoves_spec (h.nodes.merge?_eq id ▸ hmerge) hlength (hregisters ▸ htarget) fun o ho => ?_).mono ?_
    fun _ he => he
  · obtain ⟨hmem, hvalued⟩ := hargs o ho
    exact hregisters ▸ hl.exists_register hmem hvalued
  · rintro row t ⟨rfl, rfl⟩
    rw [hregisters, List.map_append, List.map_singleton, mergeRow, hmerge]
    exact ⟨rfl, rfl⟩

/-- The edges into a block are taken one after the other, none of them twice. -/
theorem edge_not_mem (hlinked : g.Linked) (hnew : ∀ p, (p, b) ∉ done) {front rest : List BlockId}
    (hsplit : g.preds b = front ++ p :: rest) : (p, b) ∉ done ++ front.map (·, b) := by
  intro hmem
  rcases List.mem_append.1 hmem with hmem | hmem
  · exact hnew p hmem
  · obtain ⟨p', hp', heq⟩ := List.mem_map.1 hmem
    obtain rfl : p' = p := congrArg Prod.fst heq
    have hnodup := hlinked.preds_nodup b
    rw [hsplit, List.nodup_append] at hnodup
    exact hnodup.2.2 p' hp' p' List.mem_cons_self rfl

/-- Without merges in a block, all edges into it may be passed over. -/
theorem Resolves.skipAll (h : Resolves g piece s₀ done fresh s) (hlinked : g.Linked) (hnew : ∀ p, (p, b) ∉ done)
    (hmerges : g.mergesOf b = []) :
    ∃ fresh', Resolves g piece s₀ (done ++ (g.preds b).map (·, b)) fresh' s := by
  suffices hskip : ∀ front rest, g.preds b = front ++ rest →
      ∃ fresh', Resolves g piece s₀ (done ++ front.map (·, b)) fresh' s from hskip (g.preds b) [] (by simp)
  intro front
  induction front using List.reverseRecOn with
  | nil => exact fun _ _ => ⟨fresh, by simpa using h⟩
  | append_singleton front p ih =>
    intro rest hsplit
    rw [List.append_assoc, List.singleton_append] at hsplit
    obtain ⟨fresh', h'⟩ := ih _ hsplit
    rw [List.map_append, ← List.append_assoc]
    exact ⟨_, h'.skip (edge_not_mem hlinked hnew hsplit) hmerges⟩

/-- Moves are put at the end of a block that is there, with instructions that are. -/
theorem insertMoves_spec (hp : s.graph.hasBlock p = true) (hplaced : s.graph.PlacedOnce) (moves : List Move) :
    Spec (LowerM.insertMoves p moves) s (fun _ t => t =
      { s with
        graph := (s.graph.insertMoves p moves).2
        stats := s.stats.addEdgeMoves (s.graph.insertMoves p moves).1 }) E := by
  have hlook : Spec (LowerM.lookUpEnd p) s (fun _ t => s = t) E := by
    obtain ⟨block, hget, hblock⟩ := Graph.exists_getBlock hp
    refine .get_bind (.lift_bind hget ?_)
    split
    · next last hlast =>
      have hlt : last < s.graph.instrs.size := by
        apply hplaced.lt
        rw [Graph.placed]
        exact List.mem_flatMap.2 ⟨(p, block), Graph.mem_blockList.2 hblock,
          Array.mem_toList_iff.2 (Array.mem_of_back? hlast)⟩
      refine .discard (.lift (fun _ _ => rfl) fun e he => ?_)
      rw [Graph.getLine, Graph.line?, Array.getElem?_eq_getElem hlt] at he
      cases he
    · exact .pure rfl
  unfold LowerM.insertMoves
  dsimp only
  split
  · refine .bind hlook ?_
    rintro _ _ rfl
    exact .modify rfl
  · exact .modify rfl

/-- The merges of a block are those that it had before anything was lowered. -/
theorem Scheduled.getMerges_eq (hs : Scheduled g) (h : g.SameNodes s.graph) (hb : g.hasBlock b = true) :
    s.graph.getMerges b = .ok (g.mergesOf b) := by
  rw [← h.mergesOf_eq]
  refine Ssa.getMerges_eq (by rw [h.hasBlock_eq, hb]) fun id hid => ?_
  rw [h.nodesOf_eq] at hid
  obtain ⟨-, node, hnode, -⟩ := hs.node hid
  exact ⟨node, by rw [h.node?_eq, hnode]⟩

/-- All edges into a block get their moves. -/
theorem Resolves.resolveBlock (h : Resolves g piece s₀ done fresh s) (hs : Scheduled g)
    (hl : Lowers g (schedule g) piece s₀) (hb : g.hasBlock b = true) (hnew : ∀ p, (p, b) ∉ done) :
    Spec (LowerM.resolveBlock b) s
      (fun _ s' => ∃ fresh', Resolves g piece s₀ (done ++ (g.preds b).map (·, b)) fresh' s') E := by
  obtain ⟨block, hget, hblock⟩ := Graph.exists_getBlock ((h.nodes.hasBlock_eq b).trans hb)
  have hpreds : block.preds = g.preds b := by rw [← h.nodes.preds_eq, Graph.preds_eq hblock]
  refine .get_bind (.lift_bind (Scheduled.getMerges_eq hs h.nodes hb) ?_)
  split
  · next hempty => exact .pure (h.skipAll hs.linked hnew (List.isEmpty_iff.1 hempty))
  · refine .lift_bind hget ?_
    rw [hpreds]
    refine .bind (h.mergeRows_spec hs hl) ?_
    rintro _ _ ⟨rfl, rfl⟩
    rw [byPredecessor_eq _ hs.linked, List.forM_eq_forM, List.forM_map]
    refine .forM (P := fun front t => ∃ fresh', Resolves g piece s₀ (done ++ front.map (·, b)) fresh' t) ?_
      ⟨fresh, by simpa using h⟩
    rintro front p rest hsplit t ⟨fresh', ht⟩
    rw [List.map_append, ← List.append_assoc]
    have hp : t.graph.hasBlock p = true := by
      rw [ht.nodes.hasBlock_eq]
      exact hs.linked.hasBlock_source (hs.linked.mem_succs_iff.2 (by rw [hsplit]; simp))
    refine (insertMoves_spec hp ht.placed _).mono ?_ fun _ he => he
    rintro _ _ rfl
    exact ⟨_, ht.snoc (edge_not_mem hs.linked hnew hsplit) _⟩

/-- All edges get their moves. -/
theorem resolveMerges_spec (hs : Scheduled g) (hl : Lowers g (schedule g) piece s₀) :
    Spec LowerM.resolveMerges s₀ (fun _ s' => ∃ fresh, Resolves g piece s₀ (edges g) fresh s') E := by
  refine .get_bind (.lift_bind (Scheduled.validate hs hl.nodes) ?_)
  rw [hl.nodes.order_eq]
  refine .forM (P := fun bs t => ∃ fresh,
    Resolves g piece s₀ (bs.flatMap fun b => (g.preds b).map (·, b)) fresh t) ?_ ?_
  · rintro front b rest hsplit t ⟨fresh, ht⟩
    rw [List.flatMap_append, List.flatMap_singleton]
    refine ht.resolveBlock hs hl ((hs.mem_order b).1 (by simp [hsplit])) fun p hmem => ?_
    obtain ⟨b', hb', hmem⟩ := List.mem_flatMap.1 hmem
    obtain ⟨p', -, heq⟩ := List.mem_map.1 hmem
    obtain rfl : b' = b := congrArg Prod.snd heq
    have hnodup := hs.nodup_order
    rw [hsplit, List.nodup_append] at hnodup
    exact hnodup.2.2 b' hb' b' List.mem_cons_self rfl
  · refine ⟨fun _ => 0, hl.nodes, rfl, hl.code.congr fun b hb => ?_, hl.placed, spans_nil ..⟩
    rw [hl.nodes.hasBlock_eq] at hb
    simp only [List.flatMap_nil, List.filter_nil, insertAhead_nil, filter_schedule hs hb]

end Resolves

/-! ## The whole lowering -/

/-- What a finished lowering leaves: each block has the code of its nodes, with the moves of the edges that leave it
ahead of the jump, and no register has two uses. -/
structure Finished (g : Graph) (piece : NodeId → Piece) (fresh : BlockId × BlockId → Nat) (s : LowerState) :
    Prop where
  nodes : g.SameNodes s.graph
  code : s.graph.Carries fun b => insertAhead ((nodesOf g b).flatMap fun id => (piece id).code)
    (((edges g).filter (·.1 = b)).flatMap (edgeCode g s.register? fresh))
  emits : ∀ id ∈ schedule g, ∃ node, g.node? id = some node ∧
    Emits s.register? s.data node.type node.op (piece id).first (piece id).code (s.register? id) (piece id).next
  /-- Registers are handed out first for the nodes and then for the edges. -/
  spans : ∃ n, Spans g.registers n (schedule g) (fun id => (piece id).first) (fun id => (piece id).next) ∧
    Spans n s.graph.registers (edges g) fresh (edgeNext g s.register? fresh)
  labelled : s.Labelled

theorem Finished.spaced {g : Graph} {piece : NodeId → Piece} {fresh : BlockId × BlockId → Nat} {s : LowerState}
    (h : Finished g piece fresh s) : (schedule g).Pairwise fun a b => (piece a).next ≤ (piece b).first := by
  obtain ⟨n, hnodes, -⟩ := h.spans
  exact hnodes.spaced

theorem Finished.fresh_le {g : Graph} {piece : NodeId → Piece} {fresh : BlockId × BlockId → Nat} {s : LowerState}
    (h : Finished g piece fresh s) : ∀ e ∈ edges g, ∀ id ∈ schedule g, (piece id).next ≤ fresh e := by
  obtain ⟨n, hnodes, hedges⟩ := h.spans
  exact fun e he id hid => (hnodes.next_le id hid).trans (hedges.start_le e he)

/-- What comes after the lowering of the nodes. -/
theorem finish_spec {g : Graph} {piece : NodeId → Piece} {s₀ : LowerState} {E : Error → Prop} (hs : Scheduled g)
    (hl : Lowers g (schedule g) piece s₀) :
    Spec (do
        LowerM.resolveMerges
        modify fun s => { s with graph := s.graph.renumber }
        return (← get).data) s₀
      (fun data s => data = s.data ∧ s.register? = s₀.register? ∧ ∃ fresh, Finished g piece fresh s) E := by
  refine .bind (resolveMerges_spec hs hl) ?_
  rintro _ s ⟨fresh, hr⟩
  have hregister : LowerState.register? { s with graph := s.graph.renumber } = s₀.register? := by
    funext id
    have hlowered : s.lowered = s₀.lowered := (congrArg LowerState.lowered hr.rest_eq).trans rfl
    rw [LowerState.register?, LowerState.register?, LowerState.lowered?, LowerState.lowered?]
    dsimp only
    rw [s.graph.sameNodes_renumber.resolve_eq, hr.nodes.resolve_eq, hl.nodes.resolve_eq, hlowered]
  have hdata : s.data = s₀.data := (congrArg LowerState.data hr.rest_eq).trans rfl
  refine .modify_bind (.get_bind (.pure ⟨rfl, hregister, fresh, hr.nodes.trans s.graph.sameNodes_renumber, ?_, ?_,
    ⟨s₀.graph.registers, hl.spans, ?_⟩, ?_⟩))
  · rw [hregister]
    exact hr.placed.carries_renumber hr.code
  · intro id hid
    obtain ⟨node, l, hnode, hlowered, hemits⟩ := hl.emits id hid
    obtain ⟨b, hlisted⟩ := (Ssa.mem_schedule hs.mem_order).1 hid
    have hown : s₀.register? id = l.register := by
      rw [LowerState.register?, LowerState.lowered?, hl.nodes.resolve_eq, (hs.node hlisted).1, hlowered]
      rfl
    refine ⟨node, hnode, ?_⟩
    rw [hregister, hown]
    exact hdata ▸ hemits
  · rw [hregister]
    exact hr.spans
  · intro k entry hk
    have hlabel : s.labelPrefix = s₀.labelPrefix := (congrArg LowerState.labelPrefix hr.rest_eq).trans rfl
    change s.data[k]? = some entry at hk
    rw [hdata] at hk
    exact (hl.labelled k entry hk).trans (by rw [hlabel])

/-- Before anything is lowered. -/
theorem lowers_nil {g : Graph} (hcode : g.Carries fun _ => []) (stats : Statistics) (labelPrefix : String) :
    Lowers g [] (fun _ => ⟨[], 0, 0⟩) { graph := g, stats, labelPrefix } :=
  ⟨.refl g, hcode, .of_carries_nil hcode, by simp, by simp, spans_nil .., fun k entry hk => by simp at hk⟩

/-- The lowering of nodes that come in order ends well. -/
theorem run_spec {g : Graph} {E : Error → Prop} (hs : Scheduled g) (hcode : g.Carries fun _ => []) (stats : Statistics)
    (labelPrefix : String) :
    Spec LowerM.run { graph := g, stats, labelPrefix }
      (fun data s => data = s.data ∧ ∃ piece fresh, Finished g piece fresh s) E := by
  refine .bind (lowerAll_spec hs (lowers_nil hcode stats labelPrefix)) ?_
  rintro _ s₀ ⟨piece, hl⟩
  exact (finish_spec hs hl).mono (fun data s h => ⟨h.1, piece, h.2.2⟩) fun _ he => he

end Destack.Machine
