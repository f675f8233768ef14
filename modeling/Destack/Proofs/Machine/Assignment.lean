import Destack.Proofs.Machine.Accesses
import Destack.Proofs.Machine.Runs

/-!
# Registers are assigned before they are used

Every virtual register of lowered code was handed out for a node or for an edge. It is never written if it belongs to an
undefined value, written by the moves of its edges if it belongs to a merge, and written in one place otherwise
(`Finished.origin`). A path through the code follows the edges of the graph (`Finished.along`), so that what dominates a
block has run before it, and every register that is read was written before (`Finished.written_before`).
-/

namespace Destack

namespace Ssa

/-- A node stands for a value that nothing defines. -/
def UndefinedAt (g : Graph) (id : NodeId) : Prop :=
  ∃ node slot, g.node? id = some node ∧ node.op = .undefined slot

/-- A node has its value when a block is entered, on whatever path. -/
def Given (g : Graph) (b : BlockId) (id : NodeId) : Prop :=
  UndefinedAt g id ∨ ∃ a, g.Dominates a b ∧ id ∈ nodesOf g a ∧ (id ∈ g.mergesOf a ∨ a ≠ b)

end Ssa

namespace Machine

open Ssa (nodesOf nodeAt? schedule Scheduled Orderly Strict LeadsOut UndefinedAt Given)

/-- The instruction at a position of a block's code. -/
def instrAt? (g : Graph) (place : BlockId × Nat) : Option Instr :=
  (g.codeOf place.1)[place.2]?

/-- An instruction gives a merge its value over an edge: it moves there the register of the argument, or a copy of it
that is made in the block that is left. -/
def MovesArgument (g : Graph) (s : LowerState) (e : BlockId × BlockId) (id : NodeId) (i : Instr) : Prop :=
  ∃ o source target, g.argFrom? e.2 e.1 id = some o ∧ s.register? o = some source ∧ s.register? id = some target ∧
    (i = Move.instr ⟨source, target⟩ ∨
      ∃ k, Move.instr ⟨source, .virtual k⟩ ∈ s.graph.codeOf e.1 ∧ i = Move.instr ⟨.virtual k, target⟩)

/-- Where the contents of a virtual register come from. -/
inductive Origin (g : Graph) (s : LowerState) (r : Register) : Prop where
  /-- It is never written. -/
  | undefined {id : NodeId} : id ∈ schedule g → UndefinedAt g id → s.register? id = some r →
    (∀ place i, instrAt? s.graph place = some i → i.write ≠ some r) → Origin g s r
  /-- It is written by moves in predecessors of the block of a merge. -/
  | merge {t : BlockId} {id : NodeId} : id ∈ g.mergesOf t → s.register? id = some r →
    (∀ b k i, instrAt? s.graph (b, k) = some i → i.write = some r → b ∈ g.preds t ∧ MovesArgument g s (b, t) id i) →
    Origin g s r
  | single : (∃! place, ∃ i, instrAt? s.graph place = some i ∧ i.write = some r) → Origin g s r

theorem mem_codeOf_of_instrAt? {g : Graph} {b : BlockId} {k : Nat} {i : Instr} (h : instrAt? g (b, k) = some i) :
    i ∈ g.codeOf b :=
  List.mem_of_getElem? h

/-- One writer has one position. -/
theorem existsUnique_of_writeCount {r : Register} {code : List Instr} (h : writeCount r code = 1) :
    ∃! k : Nat, ∃ i, code[k]? = some i ∧ i.write = some r := by
  induction code with
  | nil => cases h
  | cons i is ih =>
    rw [writeCount_cons] at h
    by_cases hi : i.write = some r
    · have hrest : ∀ j ∈ is, j.write ≠ some r := writeCount_eq_zero.1 (by rw [if_pos hi] at h; omega)
      refine ⟨0, ⟨i, rfl, hi⟩, ?_⟩
      rintro (- | k) ⟨j, hj, hwrite⟩
      · rfl
      · exact absurd hwrite (hrest j (List.mem_of_getElem? hj))
    · rw [if_neg hi, Nat.zero_add] at h
      obtain ⟨k, hk, hunique⟩ := ih h
      refine ⟨k + 1, hk, ?_⟩
      rintro (- | k') ⟨j, hj, hwrite⟩
      · exact absurd (Option.some.inj hj ▸ hwrite) hi
      · rw [hunique k' ⟨j, hj, hwrite⟩]

/-- One writer in one block has one place. -/
theorem existsUnique_place {g : Graph} {b : BlockId} {r : Register} (hone : writeCount r (g.codeOf b) = 1)
    (hblock : ∀ {b' : BlockId} {i : Instr}, i ∈ g.codeOf b' → i.write = some r → b' = b) :
    ∃! place, ∃ i, instrAt? g place = some i ∧ i.write = some r := by
  obtain ⟨k, hk, hunique⟩ := existsUnique_of_writeCount hone
  refine ⟨(b, k), hk, ?_⟩
  rintro ⟨b', k'⟩ ⟨i, hi, hwrite⟩
  obtain rfl := hblock (mem_codeOf_of_instrAt? hi) hwrite
  rw [hunique k' ⟨i, hi, hwrite⟩]

theorem Spans.eq_of_mem {α : Type} {start stop k : Nat} {done : List α} {first next : α → Nat} {a b : α}
    (h : Spans start stop done first next) (ha : a ∈ done) (hb : b ∈ done) (hak : first a ≤ k ∧ k < next a)
    (hbk : first b ≤ k ∧ k < next b) : a = b := by
  by_contra hne
  have hsymm : Std.Symm fun a b => next a ≤ first b ∨ next b ≤ first a := ⟨fun _ _ => Or.symm⟩
  have hapart : done.Pairwise fun a b => next a ≤ first b ∨ next b ≤ first a := h.spaced.imp Or.inl
  have := hapart.forall ha hb hne
  omega

namespace Finished

variable {g : Graph} {piece : NodeId → Piece} {fresh : BlockId × BlockId → Nat} {s : LowerState} {b t : BlockId}
  {id : NodeId} {i : Instr} {r : Register} {n : Nat}

/-- The register of a node has a number that was handed out. -/
theorem register_lt (h : Finished g piece fresh s) (hid : id ∈ schedule g) (hr : s.register? id = some (.virtual n)) :
    n < s.graph.registers := by
  obtain ⟨middle, hnodes, hedges⟩ := h.spans
  obtain ⟨k, -, hk, heq⟩ := h.register_eq hid hr
  rw [Register.virtual_inj.1 heq]
  exact hk.trans_le ((hnodes.next_le id hid).trans hedges.le)

/-! ## Writers -/

theorem codeOf_eq (h : Finished g piece fresh s) (hb : g.hasBlock b = true) :
    s.graph.codeOf b = insertAhead ((nodesOf g b).flatMap fun id => (piece id).code)
      ((edgesFrom g b).flatMap (edgeCode g s.register? fresh)) :=
  h.code.codeOf_eq (by rw [h.nodes.hasBlock_eq, hb])

theorem hasBlock_of_mem_codeOf (h : Finished g piece fresh s) (hi : i ∈ s.graph.codeOf b) : g.hasBlock b = true := by
  by_contra hb
  rw [← h.nodes.hasBlock_eq, Bool.not_eq_true, Graph.hasBlock_eq_false_iff] at hb
  simp [Graph.codeOf, hb] at hi

/-- The instructions of a block are those of its nodes and of the edges that leave it. -/
theorem mem_codeOf_iff (h : Finished g piece fresh s) (hb : g.hasBlock b = true) :
    i ∈ s.graph.codeOf b ↔ (∃ id ∈ nodesOf g b, i ∈ (piece id).code) ∨
      ∃ e ∈ edgesFrom g b, i ∈ edgeCode g s.register? fresh e := by
  rw [h.codeOf_eq hb, (perm_insertAhead _ _).mem_iff, List.mem_append, List.mem_flatMap, List.mem_flatMap]

theorem mem_edgesFrom (hs : Scheduled g) {e : BlockId × BlockId} : e ∈ edgesFrom g b ↔ e.1 = b ∧ e.2 ∈ g.succs b := by
  rw [edgesFrom, List.mem_filter, decide_eq_true_iff, and_comm]
  refine and_congr_right fun heq => ?_
  rw [← heq]
  exact mem_edges hs

/-- A node writes nothing but the registers that were handed out for it. -/
theorem span_of_write (h : Finished g piece fresh s) (hid : id ∈ schedule g) (hi : i ∈ (piece id).code)
    (hwrite : i.write = some (.virtual n)) : (piece id).first ≤ n ∧ n < (piece id).next := by
  obtain ⟨node, -, hemits⟩ := h.emits id hid
  cases hop : node.op.isPassive with
  | true =>
    rw [(hemits.passive hop).1] at hi
    cases hi
  | false =>
    by_contra hnot
    have hzero := (hemits.writeCount_eq hop n).trans (spanCount_of_not_mem (by omega))
    exact writeCount_eq_zero.1 hzero i hi hwrite

/-- An edge writes the registers of merges, by moving their arguments, and its temporary registers. -/
theorem write_edge (h : Finished g piece fresh s) (hs : Scheduled g) (hb : g.hasBlock b = true) (ht : t ∈ g.succs b)
    (hi : i ∈ edgeCode g s.register? fresh (b, t)) (hwrite : i.write = some r) :
    (∃ id ∈ g.mergesOf t, s.register? id = some r ∧ MovesArgument g s (b, t) id i) ∨
      ∃ k, fresh (b, t) ≤ k ∧ k < edgeNext g s.register? fresh (b, t) ∧ r = .virtual k := by
  obtain ⟨move, hmove, rfl⟩ := List.mem_map.1 hi
  obtain rfl : move.target = r := Option.some.inj hwrite
  obtain ⟨m, hm, hcases⟩ := mem_sequence hmove
  obtain ⟨id, o, hid, ho, hsource, htarget, -⟩ := mem_edgeMoves hm
  rcases hcases with ⟨k, hfirst, hnext, rfl⟩ | rfl | ⟨k, hcopy, rfl⟩
  · exact Or.inr ⟨k, hfirst, hnext, rfl⟩
  · exact Or.inl ⟨id, hid, htarget, o, _, _, ho, hsource, htarget, Or.inl rfl⟩
  · refine Or.inl ⟨id, hid, htarget, o, _, _, ho, hsource, htarget, Or.inr ⟨k, ?_, rfl⟩⟩
    refine (h.mem_codeOf_iff hb).2 (Or.inr ⟨(b, t), (mem_edgesFrom hs).2 ⟨rfl, ht⟩, ?_⟩)
    exact List.mem_map.2 ⟨_, hcopy, rfl⟩

/-- What writes a virtual register. -/
theorem write_cases (h : Finished g piece fresh s) (hs : Scheduled g) (hi : i ∈ s.graph.codeOf b)
    (hwrite : i.write = some (.virtual n)) :
    (∃ id ∈ nodesOf g b, i ∈ (piece id).code ∧ (piece id).first ≤ n ∧ n < (piece id).next) ∨
      ∃ t ∈ g.succs b, i ∈ edgeCode g s.register? fresh (b, t) ∧
        ((∃ id ∈ g.mergesOf t, s.register? id = some (.virtual n) ∧ MovesArgument g s (b, t) id i) ∨
          fresh (b, t) ≤ n ∧ n < edgeNext g s.register? fresh (b, t)) := by
  have hb := h.hasBlock_of_mem_codeOf hi
  rcases (h.mem_codeOf_iff hb).1 hi with ⟨id, hid, hi⟩ | ⟨⟨b', t⟩, he, hedge⟩
  · exact Or.inl ⟨id, hid, hi, h.span_of_write (hs.mem_schedule hid) hi hwrite⟩
  · obtain ⟨rfl, ht⟩ := (mem_edgesFrom hs).1 he
    refine Or.inr ⟨t, ht, hedge, (h.write_edge hs hb ht hedge hwrite).imp_right ?_⟩
    rintro ⟨k, hfirst, hnext, heq⟩
    obtain rfl := Register.virtual_inj.1 heq
    exact ⟨hfirst, hnext⟩

/-- A register that is written has a number that was handed out. -/
theorem write_lt (h : Finished g piece fresh s) (hs : Scheduled g) (hi : i ∈ s.graph.codeOf b)
    (hwrite : i.write = some (.virtual n)) : n < s.graph.registers := by
  obtain ⟨middle, hnodes, hedges⟩ := h.spans
  rcases h.write_cases hs hi hwrite with ⟨id, hid, -, -, hn⟩ | ⟨t, ht, -, ⟨id, hid, hr, -⟩ | ⟨-, hn⟩⟩
  · exact hn.trans_le ((hnodes.next_le id (hs.mem_schedule hid)).trans hedges.le)
  · exact h.register_lt (mem_schedule_of_mem_mergesOf hs hid) hr
  · exact hn.trans_le (hedges.next_le (b, t) ((mem_edges hs).2 ht))

/-- A register with a number handed out for a node is that of the node or of no node. -/
theorem eq_of_register (h : Finished g piece fresh s) (hid : id ∈ schedule g) {k : NodeId} (hk : k ∈ schedule g)
    (hn : (piece id).first ≤ n ∧ n < (piece id).next) (hr : s.register? k = some (.virtual n)) : k = id := by
  obtain ⟨middle, hnodes, -⟩ := h.spans
  obtain ⟨j, hfirst, hnext, heq⟩ := h.register_eq hk hr
  obtain rfl := Register.virtual_inj.1 heq
  exact hnodes.eq_of_mem hk hid ⟨hfirst, hnext⟩ hn

/-- On an edge, a register that was handed out for a node is only written if the node is a merge of the target. -/
theorem edge_write_of_node (h : Finished g piece fresh s) (hs : Scheduled g) (hid : id ∈ schedule g)
    (hn : (piece id).first ≤ n ∧ n < (piece id).next) (hb : g.hasBlock b = true) (ht : t ∈ g.succs b)
    (hi : i ∈ edgeCode g s.register? fresh (b, t)) (hwrite : i.write = some (.virtual n)) :
    id ∈ g.mergesOf t ∧ MovesArgument g s (b, t) id i := by
  rcases h.write_edge hs hb ht hi hwrite with ⟨k, hk, hr, hmoves⟩ | ⟨k, hfresh, -, heq⟩
  · obtain rfl := h.eq_of_register hid (mem_schedule_of_mem_mergesOf hs hk) hn hr
    exact ⟨hk, hmoves⟩
  · have hle := h.fresh_le (b, t) ((mem_edges hs).2 ht) id hid
    have heq := Register.virtual_inj.1 heq
    omega

/-- What writes a register that was handed out for a node: the instructions of the node, or the moves for a merge. -/
theorem write_of_node (h : Finished g piece fresh s) (hs : Scheduled g) (hid : id ∈ schedule g)
    (hn : (piece id).first ≤ n ∧ n < (piece id).next) (hi : i ∈ s.graph.codeOf b)
    (hwrite : i.write = some (.virtual n)) :
    (id ∈ nodesOf g b ∧ i ∈ (piece id).code) ∨
      ∃ t ∈ g.succs b, id ∈ g.mergesOf t ∧ MovesArgument g s (b, t) id i := by
  obtain ⟨middle, hnodes, -⟩ := h.spans
  rcases h.write_cases hs hi hwrite with ⟨k, hk, hcode, hspan⟩ | ⟨t, ht, hedge, -⟩
  · obtain rfl := hnodes.eq_of_mem (hs.mem_schedule hk) hid hspan hn
    exact Or.inl ⟨hk, hcode⟩
  · exact Or.inr ⟨t, ht, h.edge_write_of_node hs hid hn (h.hasBlock_of_mem_codeOf hi) ht hedge hwrite⟩

/-- A register that was handed out for a node with instructions is written in one place. -/
theorem single_of_node (h : Finished g piece fresh s) (hs : Scheduled g) (hid : id ∈ nodesOf g b) {node : Ssa.Node}
    (hnode : g.node? id = some node) (hop : node.op.isPassive = false)
    (hn : (piece id).first ≤ n ∧ n < (piece id).next) :
    ∃! place, ∃ i, instrAt? s.graph place = some i ∧ i.write = some (.virtual n) := by
  have hmem := hs.mem_schedule hid
  have hb := Ssa.Form.hasBlock_of_mem_nodesOf hid
  have hmerge : ∀ {t}, id ∉ g.mergesOf t := by
    intro t hmerge
    have hop' := (Ssa.mem_mergesOf.1 hmerge).2
    rw [Ssa.isSome_merge?_iff hnode] at hop'
    cases hnode : node.op <;> simp_all [Ssa.Op.isMerge, Ssa.Op.isPassive]
  obtain ⟨middle, hnodes, -⟩ := h.spans
  obtain ⟨node', hnode', hemits⟩ := h.emits id hmem
  obtain rfl := Option.some.inj (hnode.symm.trans hnode')
  have hcount : writeCount (.virtual n) (s.graph.codeOf b) = 1 := by
    rw [h.codeOf_eq hb, writeCount_insertAhead, writeCount_flatMap ((hs.sorted_nodesOf b).imp Nat.ne_of_lt) hid,
      hemits.writeCount_eq hop, spanCount_of_mem hn.1 hn.2, Nat.add_eq_left, writeCount_eq_zero]
    · intro i hi hwrite
      obtain ⟨⟨b', t⟩, he, hedge⟩ := List.mem_flatMap.1 hi
      obtain ⟨rfl, ht⟩ := (mem_edgesFrom hs).1 he
      exact hmerge (h.edge_write_of_node hs hmem hn hb ht hedge hwrite).1
    · intro k hk hne
      rw [writeCount_eq_zero]
      intro i hi hwrite
      have hk := hs.mem_schedule hk
      exact hne (hnodes.eq_of_mem hk hmem (h.span_of_write hk hi hwrite) hn)
  refine existsUnique_place hcount fun {b' i} hi hwrite => ?_
  rcases h.write_of_node hs hmem hn hi hwrite with ⟨hid', -⟩ | ⟨t, -, hid', -⟩
  · exact hs.block_unique hid' hid
  · exact (hmerge hid').elim

/-- The temporary registers of an edge were handed out for no node. -/
theorem not_span_of_edge (h : Finished g piece fresh s) (hs : Scheduled g) (ht : t ∈ g.succs b)
    (hn : fresh (b, t) ≤ n) (hid : id ∈ schedule g) : ¬ ((piece id).first ≤ n ∧ n < (piece id).next) := by
  have hle := h.fresh_le (b, t) ((mem_edges hs).2 ht) id hid
  omega

/-- On an edge, a temporary register is only written if it is one of that edge. -/
theorem edge_write_of_edge (h : Finished g piece fresh s) (hs : Scheduled g) (ht : t ∈ g.succs b)
    (hn : fresh (b, t) ≤ n ∧ n < edgeNext g s.register? fresh (b, t)) {b' t' : BlockId} (hb : g.hasBlock b' = true)
    (ht' : t' ∈ g.succs b') (hi : i ∈ edgeCode g s.register? fresh (b', t'))
    (hwrite : i.write = some (.virtual n)) : (b', t') = (b, t) := by
  obtain ⟨middle, -, hedges⟩ := h.spans
  rcases h.write_edge hs hb ht' hi hwrite with ⟨id, hid, hr, -⟩ | ⟨k, hfirst, hnext, heq⟩
  · -- The register of a merge was handed out for a node.
    have hid := mem_schedule_of_mem_mergesOf hs hid
    obtain ⟨j, hfirst, hnext, heq⟩ := h.register_eq hid hr
    obtain rfl := Register.virtual_inj.1 heq
    exact (h.not_span_of_edge hs ht hn.1 hid ⟨hfirst, hnext⟩).elim
  · obtain rfl := Register.virtual_inj.1 heq
    exact hedges.eq_of_mem ((mem_edges hs).2 ht') ((mem_edges hs).2 ht) ⟨hfirst, hnext⟩ hn

theorem target_below (h : Finished g piece fresh s) (hs : Scheduled g) {e : BlockId × BlockId} (he : e ∈ edges g)
    {m : Move} (hm : m ∈ edgeMoves g s.register? e) : m.target.Below (fresh e) := by
  obtain ⟨id, o, hid, -, -, htarget, -⟩ := mem_edgeMoves hm
  exact h.below_fresh he (mem_schedule_of_mem_mergesOf hs hid) htarget

/-- A temporary register of an edge is written in one place. -/
theorem single_of_edge (h : Finished g piece fresh s) (hs : Scheduled g) (ht : t ∈ g.succs b)
    (hn : fresh (b, t) ≤ n ∧ n < edgeNext g s.register? fresh (b, t)) :
    ∃! place, ∃ i, instrAt? s.graph place = some i ∧ i.write = some (.virtual n) := by
  have hb : g.hasBlock b = true := hs.linked.hasBlock_source ht
  have hbelow : ∀ m ∈ edgeMoves g s.register? (b, t), m.target.Below (fresh (b, t)) := fun m hm =>
    h.target_below hs ((mem_edges hs).2 ht) hm
  have hcount : writeCount (.virtual n) (s.graph.codeOf b) = 1 := by
    have hnodes : writeCount (.virtual n) ((nodesOf g b).flatMap fun id => (piece id).code) = 0 := by
      rw [writeCount_eq_zero]
      intro i hi hwrite
      obtain ⟨id, hid, hi⟩ := List.mem_flatMap.1 hi
      have hid := hs.mem_schedule hid
      exact h.not_span_of_edge hs ht hn.1 hid (h.span_of_write hid hi hwrite)
    have hmem : (b, t) ∈ edgesFrom g b := (mem_edgesFrom hs).2 ⟨rfl, ht⟩
    have hnodup : (edgesFrom g b).Nodup := (nodup_edges hs).filter _
    rw [h.codeOf_eq hb, writeCount_insertAhead, hnodes, Nat.zero_add, writeCount_flatMap hnodup hmem, edgeCode,
      writeCount_moveCode hbelow hn.1]
    · exact spanCount_of_mem hn.1 hn.2
    · rintro ⟨b', t'⟩ he' hne
      obtain ⟨rfl, ht'⟩ := (mem_edgesFrom hs).1 he'
      rw [writeCount_eq_zero]
      exact fun i hi hwrite => hne (h.edge_write_of_edge hs ht hn hb ht' hi hwrite)
  refine existsUnique_place hcount fun {b' i} hi hwrite => ?_
  rcases h.write_cases hs hi hwrite with ⟨id, hid, -, hspan⟩ | ⟨t', ht', hi', -⟩
  · exact (h.not_span_of_edge hs ht hn.1 (hs.mem_schedule hid) hspan).elim
  · exact congrArg Prod.fst (h.edge_write_of_edge hs ht hn (h.hasBlock_of_mem_codeOf hi) ht' hi' hwrite)

/-- The register of a passive node is written by moves if the node is a merge, and never otherwise. -/
theorem origin_of_passive (h : Finished g piece fresh s) (hs : Scheduled g) (hid : id ∈ nodesOf g b) {node : Ssa.Node}
    (hnode : g.node? id = some node) (hop : node.op.isPassive = true) (hr : s.register? id = some r) :
    Origin g s r := by
  have hmem := hs.mem_schedule hid
  obtain ⟨node', hnode', hemits⟩ := h.emits id hmem
  obtain rfl := Option.some.inj (hnode.symm.trans hnode')
  obtain ⟨n, hfirst, hnext, rfl⟩ := h.register_eq hmem hr
  have hwriter : ∀ b k i, instrAt? s.graph (b, k) = some i → i.write = some (.virtual n) →
      ∃ t ∈ g.succs b, id ∈ g.mergesOf t ∧ MovesArgument g s (b, t) id i := by
    intro b k i hi hwrite
    refine (h.write_of_node hs hmem ⟨hfirst, hnext⟩ (mem_codeOf_of_instrAt? hi) hwrite).resolve_left ?_
    simp [(hemits.passive hop).1]
  cases hop' : node.op with
  | merge slot args =>
    have hsome : (g.merge? id).isSome = true := by
      rw [Ssa.isSome_merge?_iff hnode, hop']
      rfl
    refine .merge (Ssa.mem_mergesOf.2 ⟨hid, hsome⟩) hr fun b' k i hi hwrite => ?_
    obtain ⟨t, ht, hmerge, hmoves⟩ := hwriter b' k i hi hwrite
    obtain rfl := hs.block_unique (Ssa.mem_mergesOf.1 hmerge).1 hid
    exact ⟨hs.linked.mem_succs_iff.1 ht, hmoves⟩
  | undefined slot =>
    refine .undefined hmem ⟨node, slot, hnode, hop'⟩ hr ?_
    rintro ⟨b', k⟩ i hi hwrite
    obtain ⟨t, -, hmerge, -⟩ := hwriter b' k i hi hwrite
    have hsome := (Ssa.mem_mergesOf.1 hmerge).2
    rw [Ssa.isSome_merge?_iff hnode, hop'] at hsome
    cases hsome
  | _ => simp [hop', Ssa.Op.isPassive] at hop

/-- Every virtual register that was handed out has an origin. -/
theorem origin (h : Finished g piece fresh s) (hs : Scheduled g) (hregisters : g.registers = 0)
    (hn : n < s.graph.registers) : Origin g s (.virtual n) := by
  obtain ⟨middle, hnodes, hedges⟩ := h.spans
  by_cases hlt : n < middle
  · obtain ⟨id, hid, hspan⟩ := hnodes.covered n (by omega) hlt
    obtain ⟨b, hlisted⟩ := (Ssa.mem_schedule hs.mem_order).1 hid
    obtain ⟨node, hnode, hemits⟩ := h.emits id hid
    cases hop : node.op.isPassive with
    | false => exact .single (h.single_of_node hs hlisted hnode hop hspan)
    | true =>
      obtain ⟨-, hr, hnext⟩ := hemits.passive hop
      obtain rfl : (piece id).first = n := by omega
      exact h.origin_of_passive hs hlisted hnode hop hr
  · obtain ⟨⟨b, t⟩, he, hspan⟩ := hedges.covered n (by omega) hn
    exact .single (h.single_of_edge hs ((mem_edges hs).1 he) hspan)

/-! ## Reads in a block -/

/-- The register of a node is written by its instructions, unless the value comes from elsewhere. -/
theorem written_piece (h : Finished g piece fresh s) (hs : Scheduled g) (hid : id ∈ nodesOf g b)
    (hr : s.register? id = some r) :
    UndefinedAt g id ∨ id ∈ g.mergesOf b ∨ ∃ i ∈ (piece id).code, i.write = some r := by
  have hmem := hs.mem_schedule hid
  obtain ⟨node, hnode, hemits⟩ := h.emits id hmem
  cases hop : node.op.isPassive with
  | false =>
    obtain ⟨k, hfirst, hnext, rfl⟩ := h.register_eq hmem hr
    refine Or.inr (Or.inr (exists_of_writeCount ?_))
    rw [hemits.writeCount_eq hop, spanCount_of_mem hfirst hnext]
    exact Nat.one_ne_zero
  | true =>
    cases hnode' : node.op with
    | undefined slot => exact Or.inl ⟨node, slot, hnode, hnode'⟩
    | merge slot args =>
      refine Or.inr (Or.inl (Ssa.mem_mergesOf.2 ⟨hid, ?_⟩))
      rw [Ssa.isSome_merge?_iff hnode, hnode']
      rfl
    | _ => simp [hnode', Ssa.Op.isPassive] at hop

/-- A node of a block has its value when the block is entered, or its instructions write its register. -/
theorem given_or_written (h : Finished g piece fresh s) (hs : Scheduled g) (hid : id ∈ nodesOf g b)
    (hr : s.register? id = some r) : Given g b id ∨ ∃ i ∈ (piece id).code, i.write = some r := by
  rcases h.written_piece hs hid hr with hundefined | hmerge | hwritten
  · exact Or.inl (Or.inl hundefined)
  · exact Or.inl (Or.inr ⟨b, .refl g b, hid, Or.inl hmerge⟩)
  · exact Or.inr hwritten

/-- What a merge takes over an edge is listed in a block that dominates the source. -/
theorem exists_argument (hs : Scheduled g) (hstrict : Strict g) (ht : t ∈ g.succs b) (hid : id ∈ g.mergesOf t)
    {o : NodeId} (ho : g.argFrom? t b id = some o) : ∃ a, g.Dominates a b ∧ g.resolve o ∈ nodesOf g a := by
  obtain ⟨slot, args, hmerge, -⟩ := hs.argument hid
  obtain ⟨j, hj⟩ := Ssa.exists_nodeAt? (Ssa.mem_mergesOf.1 hid).1
  obtain ⟨k, hk⟩ := List.getElem?_of_mem (hs.linked.mem_succs_iff.1 ht)
  have harg : args[k]? = some o := by simpa [Graph.argFrom?, hmerge, hs.linked.idxOf?_preds hk] using ho
  obtain ⟨a, j', hdom, hplace⟩ := (hstrict.argument_before hj hmerge).2 harg hk
  exact ⟨a, hdom, Ssa.mem_of_nodeAt? hplace⟩

/-- A node reads what is given when its block is entered, and what the nodes before it wrote. -/
theorem supplied_piece (h : Finished g piece fresh s) (hs : Scheduled g) (hstrict : Strict g) {front rest : List NodeId}
    (hlist : nodesOf g b = front ++ id :: rest) :
    Supplied (fun r => (∃ k ∈ schedule g, Given g b k ∧ s.register? k = some r) ∨
      ∃ k ∈ front, ∃ i ∈ (piece k).code, i.write = some r) (piece id).code := by
  have hid : id ∈ nodesOf g b := by simp [hlist]
  obtain ⟨node, hnode, hemits⟩ := h.emits id (hs.mem_schedule hid)
  cases hmerge : node.op.isMerge with
  | true =>
    rw [hemits.code_merge hmerge]
    trivial
  | false =>
    refine hemits.supplied.mono fun r hr => ?_
    obtain ⟨o, ho, hr⟩ := hr
    obtain ⟨-, hmem, -⟩ := hs.operand hid hnode hmerge ho
    rw [← h.register_resolve hs hmem] at hr
    have hplace : nodeAt? g (b, front.length) = some id := by simp [nodeAt?, hlist]
    rcases hstrict.operand_before hplace hnode hmerge o ho with ⟨j, hj, hbefore⟩ | ⟨a, j, hdom, hne, hbefore⟩
    · have hfront : g.resolve o ∈ front := by
        rw [nodeAt?, hlist, List.getElem?_append_left hj] at hbefore
        exact List.mem_of_getElem? hbefore
      refine (h.given_or_written hs (Ssa.mem_of_nodeAt? hbefore) hr).imp ?_ ?_
      · exact fun hgiven => ⟨g.resolve o, hmem, hgiven, hr⟩
      · exact fun hwritten => ⟨g.resolve o, hfront, hwritten⟩
    · exact Or.inl ⟨g.resolve o, hmem, Or.inr ⟨a, hdom, Ssa.mem_of_nodeAt? hbefore, Or.inr hne⟩, hr⟩

/-- The moves of an edge read what is given when the block that is left was entered, and what its nodes wrote. -/
theorem supplied_edgeCode (h : Finished g piece fresh s) (hs : Scheduled g) (hstrict : Strict g) (ht : t ∈ g.succs b) :
    Supplied (fun r => (∃ k ∈ schedule g, Given g b k ∧ s.register? k = some r) ∨
      ∃ i ∈ (nodesOf g b).flatMap fun id => (piece id).code, i.write = some r)
      (edgeCode g s.register? fresh (b, t)) := by
  refine (supplied_moveCode _ _).mono fun r hr => ?_
  obtain ⟨m, hm, rfl⟩ := List.mem_map.1 hr
  obtain ⟨id, o, hid, ho, hsource, -⟩ := mem_edgeMoves hm
  have hmem := (h.register_argument hs hid ho).1
  rw [← h.register_resolve hs hmem] at hsource
  obtain ⟨a, hdom, hlisted⟩ := exists_argument hs hstrict ht hid ho
  by_cases hne : a = b
  · subst hne
    refine (h.given_or_written hs hlisted hsource).imp ?_ ?_
    · exact fun hgiven => ⟨g.resolve o, hmem, hgiven, hsource⟩
    · exact fun ⟨i, hi, hwrite⟩ => ⟨i, List.mem_flatMap.2 ⟨_, hlisted, hi⟩, hwrite⟩
  · exact Or.inl ⟨g.resolve o, hmem, Or.inr ⟨a, hdom, hlisted, Or.inr hne⟩, hsource⟩

/-- The code of a block reads what is given when it is entered, and what it wrote before. -/
theorem supplied_codeOf (h : Finished g piece fresh s) (hs : Scheduled g) (hstrict : Strict g)
    (hb : g.hasBlock b = true) :
    Supplied (fun r => ∃ id ∈ schedule g, Given g b id ∧ s.register? id = some r) (s.graph.codeOf b) := by
  rw [h.codeOf_eq hb]
  refine Supplied.insertAhead (supplied_flatMap fun front id rest hlist => ?_) (supplied_flatMap ?_) ?_
  · exact h.supplied_piece hs hstrict hlist
  · rintro front ⟨b', t⟩ rest hlist
    obtain ⟨rfl, ht⟩ := (mem_edgesFrom (b := b) hs).1 (by simp [hlist] : (b', t) ∈ edgesFrom g b)
    exact (h.supplied_edgeCode hs hstrict ht).mono fun r => Or.inl
  · intro i hi hjump
    obtain ⟨id, hid, hi⟩ := List.mem_flatMap.1 hi
    obtain ⟨node, -, hemits⟩ := h.emits id (hs.mem_schedule hid)
    exact hemits.write_jump hi hjump

/-- A register that is read has a number that was handed out. -/
theorem read_lt (h : Finished g piece fresh s) (hs : Scheduled g) (hstrict : Strict g) (hi : i ∈ s.graph.codeOf b)
    (hr : Register.virtual n ∈ i.reads) : n < s.graph.registers := by
  obtain ⟨k, hk⟩ := List.getElem?_of_mem hi
  have hsupplied := h.supplied_codeOf hs hstrict (h.hasBlock_of_mem_codeOf hi)
  rcases hsupplied.read hk hr (Register.isVirtual_virtual n) with ⟨id, hid, -, hr⟩ | ⟨j, hj, hwrite⟩
  · exact h.register_lt hid hr
  · exact h.write_lt hs (List.mem_of_mem_take hj) hwrite

end Finished

/-! ## Paths through the code -/

/-- A path through the code, from the start of the entry block to a position, with the instructions on it. -/
inductive CodePath (g : Graph) : BlockId × Nat → List Instr → Prop where
  | start : CodePath g (Graph.entry, 0) []
  | next {b : BlockId} {k : Nat} {is : List Instr} {i : Instr} : CodePath g (b, k) is → instrAt? g (b, k) = some i →
    i.op.isControl = false → CodePath g (b, k + 1) (is ++ [i])
  | jump {b t : BlockId} {k : Nat} {is : List Instr} {i : Instr} : CodePath g (b, k) is → instrAt? g (b, k) = some i →
    t ∈ i.op.targets → CodePath g (t, 0) (is ++ [i])

/-- The first instruction in control, if it leads to other blocks, is the last one and leads to some of those given. -/
def EndsIn (targets : List BlockId) : List Instr → Prop
  | [] => True
  | i :: is =>
    if i.op.isControl then i.op.targets ≠ [] → is = [] ∧ ∀ t ∈ i.op.targets, t ∈ targets else EndsIn targets is

section EndsIn

theorem Op.isControl_of_mem_targets {op : Op} {t : BlockId} (h : t ∈ op.targets) : op.isControl = true := by
  cases op <;> simp_all [Op.targets, Op.isControl, Op.isJump]

variable {targets : List BlockId} {is js : List Instr}

theorem endsIn_append (h : ∀ i ∈ is, i.op.isControl = false) : EndsIn targets (is ++ js) ↔ EndsIn targets js := by
  induction is with
  | nil => rfl
  | cons i is ih =>
    rw [List.cons_append, EndsIn, h i List.mem_cons_self, if_neg Bool.false_ne_true]
    exact ih fun j hj => h j (List.mem_cons_of_mem _ hj)

/-- An instruction that leads on from a first part without control. -/
theorem EndsIn.last {k : Nat} {i : Instr} {t : BlockId} (h : EndsIn targets is) (hi : is[k]? = some i)
    (hfront : ∀ j ∈ is.take k, j.op.isControl = false) (ht : t ∈ i.op.targets) :
    is = is.take k ++ [i] ∧ t ∈ targets := by
  have hsplit := split_at hi
  rw [hsplit, endsIn_append hfront, EndsIn, Op.isControl_of_mem_targets ht, if_pos rfl] at h
  obtain ⟨hnil, htargets⟩ := h (List.ne_nil_of_mem ht)
  exact ⟨hnil ▸ hsplit, htargets t ht⟩

variable {reg? : NodeId → Option Register} {data : Array DataEntry} {type : ValueType} {op : Ssa.Op} {n next : Nat}
  {r : Option Register}

/-- A node that ends the run leads nowhere. -/
theorem Emits.endsIn (h : Emits reg? data type op n is r next) (hcontrol : op.isControl = true)
    (htargets : op.targets = []) (js : List Instr) : EndsIn targets (is ++ js) := by
  cases h with
  | retValue | retVoid | raise => simp [EndsIn, Op.isControl, Op.isJump, Op.targets]
  | branch | goto | switch => cases htargets
  | _ => cases hcontrol

/-- A jump leads where the node does. -/
theorem Emits.targets_eq (h : Emits reg? data type op n is r next) (hcontrol : op.isControl = true) {j : Instr}
    (hj : is = [j]) : j.op.targets = op.targets := by
  cases h with
  | branch | goto | switch | retVoid | raise =>
    obtain rfl := List.singleton_inj.1 hj
    rfl
  | retValue => cases hj
  | _ => cases hcontrol

end EndsIn

namespace Finished

variable {g : Graph} {piece : NodeId → Piece} {fresh : BlockId × BlockId → Nat} {s : LowerState} {b : BlockId}
  {r : Register}

/-- The code of nodes that come to one in control, with moves ahead of the jump. -/
theorem endsIn (h : Finished g piece fresh s) (hg : Orderly g) {ids : List NodeId} {moves : List Instr}
    (hids : ∀ id ∈ ids, id ∈ nodesOf g b) (hleads : LeadsOut g ids) (hmoves : ∀ i ∈ moves, i.op.isControl = false) :
    EndsIn (g.succs b) (insertAhead (ids.flatMap fun id => (piece id).code) moves) := by
  have hs := hg.toScheduled
  have hsched : ∀ id ∈ ids, id ∈ schedule g := fun id hid => hs.mem_schedule (hids id hid)
  induction ids with
  | nil => exact hleads.elim
  | cons id ids ih =>
    obtain ⟨node, hnode, hlead⟩ := hleads
    obtain ⟨node', hnode', hemits⟩ := h.emits id (hsched id List.mem_cons_self)
    obtain rfl := Option.some.inj (hnode.symm.trans hnode')
    rw [List.flatMap_cons]
    cases hcontrol : node.op.isControl with
    | false =>
      rw [hcontrol, if_neg Bool.false_ne_true] at hlead
      have hids' : ∀ k ∈ ids, k ∈ nodesOf g b := fun k hk => hids k (List.mem_cons_of_mem _ hk)
      have hsched' : ∀ k ∈ ids, k ∈ schedule g := fun k hk => hsched k (List.mem_cons_of_mem _ hk)
      rw [insertAhead_append (h.flatMap_code_ne_nil hsched' hlead),
        endsIn_append fun i hi => hemits.isControl_eq_false hcontrol hi]
      exact ih hids' hlead hsched'
    | true =>
      rw [hcontrol, if_pos rfl] at hlead
      by_cases htargets : node.op.targets = []
      · obtain ⟨front, last, hcode, hjump⟩ := hemits.exists_last hcontrol htargets
        obtain ⟨rest, hrest⟩ := @insertAhead_of_isJump front last hjump (ids.flatMap fun id => (piece id).code) moves
        rw [hcode, hrest, ← hcode]
        exact hemits.endsIn hcontrol htargets rest
      · obtain rfl := hlead htargets
        obtain ⟨j, hcode, hjump⟩ := hemits.exists_jump hcontrol htargets
        have hahead : insertAhead [j] moves = moves ++ [j] := @insertAhead_jump [] _ _ hjump
        rw [List.flatMap_nil, List.append_nil, hcode, hahead, endsIn_append hmoves, EndsIn,
          hemits.targets_eq hcontrol hcode]
        split
        · exact fun _ => ⟨rfl, fun t ht => hg.target (hids id List.mem_cons_self) hnode ht⟩
        · trivial

/-- The code of a block leads to its successors. -/
theorem endsIn_codeOf (h : Finished g piece fresh s) (hg : Orderly g) (hb : g.hasBlock b = true) :
    EndsIn (g.succs b) (s.graph.codeOf b) := by
  rw [h.codeOf_eq hb]
  refine h.endsIn hg (fun _ => id) (hg.leads hb) fun i hi => ?_
  obtain ⟨e, -, hi⟩ := List.mem_flatMap.1 hi
  obtain ⟨move, -, rfl⟩ := List.mem_map.1 hi
  rfl

end Finished

/-- What has run on a path through the code: all of the blocks before on a path of the graph, the first part of the last
block, and the moves for the merges of all of them. -/
structure Along (g : Graph) (s : LowerState) (place : BlockId × Nat) (is : List Instr) (bs : List BlockId) : Prop where
  path : g.Path place.1 (place.1 :: bs)
  hasBlock : g.hasBlock place.1 = true
  code : ∀ a ∈ bs, ∀ i ∈ s.graph.codeOf a, i ∈ is
  front : ∀ i ∈ (s.graph.codeOf place.1).take place.2, i ∈ is ∧ i.op.isControl = false
  merges : ∀ a ∈ place.1 :: bs, ∀ id ∈ g.mergesOf a, ∀ r, s.register? id = some r → ∃ i ∈ is, i.write = some r

namespace Finished

variable {g : Graph} {piece : NodeId → Piece} {fresh : BlockId × BlockId → Nat} {s : LowerState} {b t : BlockId}
  {is : List Instr} {bs : List BlockId} {i : Instr} {id : NodeId} {r : Register} {k : Nat}

/-- On an edge the register of a merge is written, unless the merge keeps its value. -/
theorem written_edge (h : Finished g piece fresh s) (hs : Scheduled g) (hstrict : Strict g) (ht : t ∈ g.succs b)
    (hid : id ∈ g.mergesOf t) (hr : s.register? id = some r) :
    (∃ i ∈ s.graph.codeOf b, i.write = some r) ∨ g.Dominates t b := by
  obtain ⟨o, ho, hmem⟩ := hs.exists_argument ht hid
  obtain ⟨r', hr'⟩ := (h.register_argument (e := (b, t)) hs hid ho).2
  by_cases heq : r' = r
  · -- The argument is the merge itself, which is listed in the target.
    subst heq
    rw [← h.register_resolve hs hmem] at hr'
    obtain ⟨a, hdom, hlisted⟩ := exists_argument hs hstrict ht hid ho
    obtain hself : g.resolve o = id := by
      by_contra hne
      exact h.register_ne hs hmem (mem_schedule_of_mem_mergesOf hs hid) hne hr' hr rfl
    obtain rfl := hs.block_unique (hself ▸ hlisted) (Ssa.mem_mergesOf.1 hid).1
    exact Or.inr hdom
  · have hmove : (⟨r', r⟩ : Move) ∈ edgeMoves g s.register? (b, t) := by
      refine List.mem_filterMap.2 ⟨id, hid, ?_⟩
      simp [ho, moveTo?, hr, hr', heq]
    obtain ⟨i, hi, hwrite⟩ := exists_write_moveCode (fresh (b, t)) hmove
    refine Or.inl ⟨i, (h.mem_codeOf_iff (hs.linked.hasBlock_source ht)).2 (Or.inr ?_), hwrite⟩
    exact ⟨(b, t), (mem_edgesFrom hs).2 ⟨rfl, ht⟩, hi⟩

/-- One instruction more in the same block. -/
theorem along_next (hi : instrAt? s.graph (b, k) = some i) (hcontrol : i.op.isControl = false)
    (ha : Along g s (b, k) is bs) : Along g s (b, k + 1) (is ++ [i]) bs := by
  refine ⟨ha.path, ha.hasBlock, fun a ha' j hj => ?_, fun j hj => ?_, fun a ha' id hid r hr => ?_⟩
  · exact List.mem_append_left _ (ha.code a ha' j hj)
  · have htake : (s.graph.codeOf b).take (k + 1) = (s.graph.codeOf b).take k ++ [i] := by
      rw [List.take_add_one, show (s.graph.codeOf b)[k]? = some i from hi, Option.toList_some]
    rw [htake] at hj
    rcases List.mem_append.1 hj with hj | hj
    · exact ⟨List.mem_append_left _ (ha.front j hj).1, (ha.front j hj).2⟩
    · rw [List.mem_singleton.1 hj]
      exact ⟨by simp, hcontrol⟩
  · obtain ⟨j, hj, hwrite⟩ := ha.merges a ha' id hid r hr
    exact ⟨j, List.mem_append_left _ hj, hwrite⟩

/-- A jump to another block. -/
theorem along_jump (h : Finished g piece fresh s) (hg : Orderly g) (hstrict : Strict g)
    (hi : instrAt? s.graph (b, k) = some i) (ht : t ∈ i.op.targets) (ha : Along g s (b, k) is bs) :
    Along g s (t, 0) (is ++ [i]) (b :: bs) := by
  have hs := hg.toScheduled
  obtain ⟨hlast, hsucc⟩ := (h.endsIn_codeOf hg ha.hasBlock).last hi (fun j hj => (ha.front j hj).2) ht
  have hcode : ∀ a ∈ b :: bs, ∀ j ∈ s.graph.codeOf a, j ∈ is ++ [i] := by
    intro a ha' j hj
    rcases List.mem_cons.1 ha' with rfl | ha'
    · rw [hlast] at hj
      rcases List.mem_append.1 hj with hj | hj
      · exact List.mem_append_left _ (ha.front j hj).1
      · exact List.mem_append_right _ hj
    · exact List.mem_append_left _ (ha.code a ha' j hj)
  have hmerges : ∀ a ∈ b :: bs, ∀ id ∈ g.mergesOf a, ∀ r, s.register? id = some r →
      ∃ j ∈ is ++ [i], j.write = some r := by
    intro a ha' id hid r hr
    obtain ⟨j, hj, hwrite⟩ := ha.merges a ha' id hid r hr
    exact ⟨j, List.mem_append_left _ hj, hwrite⟩
  refine ⟨ha.path.step hsucc, hs.linked.hasBlock_target hsucc, hcode, by simp, fun a ha' id hid r hr => ?_⟩
  rcases List.mem_cons.1 ha' with rfl | ha'
  · rcases h.written_edge hs hstrict hsucc hid hr with ⟨j, hj, hwrite⟩ | hdom
    · exact ⟨j, hcode b List.mem_cons_self j hj, hwrite⟩
    · exact hmerges _ (hdom _ ha.path) id hid r hr
  · exact hmerges a ha' id hid r hr

/-- Every path through the code goes along a path of the graph. -/
theorem along (h : Finished g piece fresh s) (hg : Orderly g) (hstrict : Strict g)
    (hentry : g.mergesOf Graph.entry = []) {place : BlockId × Nat} (hpath : CodePath s.graph place is) :
    ∃ bs, Along g s place is bs := by
  induction hpath with
  | start => exact ⟨[], .start, hg.entry, by simp, by simp, by simp [hentry]⟩
  | next _ hi hcontrol ih =>
    obtain ⟨bs, ha⟩ := ih
    exact ⟨bs, along_next hi hcontrol ha⟩
  | jump _ hi ht ih =>
    obtain ⟨bs, ha⟩ := ih
    exact ⟨_, h.along_jump hg hstrict hi ht ha⟩

/-- What is given when a block is entered has been written on the path there, if it is defined at all. -/
theorem written_of_given (h : Finished g piece fresh s) (hs : Scheduled g) (ha : Along g s (b, k) is bs)
    (hr : s.register? id = some r) (hgiven : Given g b id) (hdefined : ¬ UndefinedAt g id) :
    ∃ j ∈ is, j.write = some r := by
  obtain ⟨a, hdom, hlisted, hcases⟩ := hgiven.resolve_left hdefined
  have hon := hdom _ ha.path
  by_cases hmerge : id ∈ g.mergesOf a
  · exact ha.merges a hon id hmerge r hr
  · have hbefore := (List.mem_cons.1 hon).resolve_left (hcases.resolve_left hmerge)
    obtain ⟨j, hj, hwrite⟩ := ((h.written_piece hs hlisted hr).resolve_left hdefined).resolve_left hmerge
    have hb := Ssa.Form.hasBlock_of_mem_nodesOf hlisted
    exact ⟨j, ha.code a hbefore j ((h.mem_codeOf_iff hb).2 (Or.inl ⟨id, hlisted, hj⟩)), hwrite⟩

/-- On every path through the code, a register is written before it is read, unless it belongs to an undefined value. -/
theorem written_before (h : Finished g piece fresh s) (hg : Orderly g) (hstrict : Strict g)
    (hentry : g.mergesOf Graph.entry = []) {place : BlockId × Nat} (hpath : CodePath s.graph place is)
    (hi : instrAt? s.graph place = some i) (hr : r ∈ i.reads) (hvirtual : r.isVirtual = true) :
    (∃ id ∈ schedule g, UndefinedAt g id ∧ s.register? id = some r) ∨ ∃ j ∈ is, j.write = some r := by
  obtain ⟨bs, ha⟩ := h.along hg hstrict hentry hpath
  have hsupplied := h.supplied_codeOf hg.toScheduled hstrict ha.hasBlock
  rcases hsupplied.read hi hr hvirtual with ⟨id, hid, hgiven, hr⟩ | ⟨j, hj, hwrite⟩
  · by_cases hundefined : UndefinedAt g id
    · exact Or.inl ⟨id, hid, hundefined, hr⟩
    · exact Or.inr (h.written_of_given hg.toScheduled ha hr hgiven hundefined)
  · exact Or.inr ⟨j, (ha.front j hj).1, hwrite⟩

end Finished

/-- In every method that compiles, virtual registers have numbers that were handed out, each has one origin, and none is
read before it is written, unless it stands for an undefined value. -/
theorem registers_assigned_before_use {table : OperandTable} {pool : ConstantPool} {m : Method} {labelPrefix : String}
    {c : Compiled} {s s' : Statistics} (h : compile table pool m labelPrefix s = .ok c s') :
    ∃ st : Stages, st.Succeed table pool m labelPrefix c ∧
      (∀ place i, instrAt? c.graph place = some i → ∀ r, r ∈ i.reads ∨ i.write = some r → r.isVirtual = true →
        Register.physicalCount ≤ r.id ∧ r.id < Register.physicalCount + c.graph.registers) ∧
      (∀ n < c.graph.registers, Origin st.cleaned.graph st.lowered (.virtual n)) ∧
      ∀ place is i, CodePath c.graph place is → instrAt? c.graph place = some i → ∀ r ∈ i.reads, r.isVirtual = true →
        (¬ ∃ id ∈ schedule st.cleaned.graph, UndefinedAt st.cleaned.graph id ∧ st.lowered.register? id = some r) →
        ∃ j ∈ is, j.write = some r := by
  obtain ⟨st, hst⟩ := compile_eq_ok h
  obtain ⟨piece, fresh, s₀, hlast⟩ := exists_lastStage hst
  have hs := hlast.orderly.toScheduled
  have hfinished := hlast.finished
  rw [hst.graph_eq]
  refine ⟨st, hst, ?_, fun n hn => hfinished.origin hs hlast.registers_eq hn, ?_⟩
  · rintro ⟨b, k⟩ i hi r hr hvirtual
    have hi := mem_codeOf_of_instrAt? hi
    obtain ⟨n, rfl⟩ := Register.exists_virtual hvirtual
    have hlt : n < st.lowered.graph.registers := by
      rcases hr with hr | hwrite
      · exact hfinished.read_lt hs hlast.strict hi hr
      · exact hfinished.write_lt hs hi hwrite
    exact ⟨Nat.le_add_right _ _, Nat.add_lt_add_left hlt _⟩
  · intro place is i hpath hi r hr hvirtual hdefined
    exact (hfinished.written_before hlast.orderly hlast.strict hlast.mergesOf_entry hpath hi hr hvirtual).resolve_left
      hdefined

/-- In the loop of `sumTo` registers are assigned before they are used. -/
theorem sumTo_registers_assigned_before_use :
    ∃ (c : Compiled) (s : Statistics), compile .standard .empty sumTo "Sum_upTo" {} = .ok c s ∧
      ∃ st : Stages, st.Succeed .standard .empty sumTo "Sum_upTo" c ∧
        (∀ place i, instrAt? c.graph place = some i → ∀ r, r ∈ i.reads ∨ i.write = some r → r.isVirtual = true →
          Register.physicalCount ≤ r.id ∧ r.id < Register.physicalCount + c.graph.registers) ∧
        (∀ n < c.graph.registers, Origin st.cleaned.graph st.lowered (.virtual n)) ∧
        ∀ place is i, CodePath c.graph place is → instrAt? c.graph place = some i → ∀ r ∈ i.reads, r.isVirtual = true →
          (¬ ∃ id ∈ schedule st.cleaned.graph, UndefinedAt st.cleaned.graph id ∧ st.lowered.register? id = some r) →
          ∃ j ∈ is, j.write = some r := by
  obtain ⟨c, s, hcompile⟩ := exists_of_compiles compiles_sumTo
  exact ⟨c, s, hcompile, registers_assigned_before_use hcompile⟩

end Machine

end Destack
