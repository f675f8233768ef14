import Destack.Proofs.Graph.Paths
import Destack.Proofs.Ssa.Blocks
import Destack.Proofs.Ssa.Prepared

/-!
# Where nodes are available

A node is available at a block if the block that lists it lies on every path there. The nodes in the frames at the
start and at the end of a block are, since every edge hands a frame over (`Form.available_enter`), and with them the
operands of all nodes: those of a merge at the predecessors (`Form.argument_available`), those of another node at its
place in its block (`Form.operand_available`).
-/

namespace Destack.Ssa

/-- A node is listed in a block that dominates a block. -/
def Available (g : Graph) (b : BlockId) (id : NodeId) : Prop :=
  ∃ a, id ∈ nodesOf g a ∧ g.Dominates a b

namespace Form

variable {c : Context} {frameSize : Nat} {g : Graph} {seg : BlockId → Segment} {a b p t : BlockId}
  {bs : List BlockId} {id o x y : NodeId}

/-! ## Lists of nodes -/

theorem nodesOf_eq (h : Form c frameSize g seg) (hb : g.hasBlock b = true) :
    nodesOf g b = List.range' (seg b).first (seg b).cells.length := by
  obtain ⟨block, hblock⟩ := Graph.hasBlock_iff.1 hb
  simp [nodesOf, hblock, h.listed hblock]

theorem hasBlock_of_mem_nodesOf (h : id ∈ nodesOf g b) : g.hasBlock b = true := by
  by_contra hnot
  have hb := Graph.hasBlock_eq_false_iff.1 (Bool.not_eq_true _ ▸ hnot)
  simp [nodesOf, hb] at h

theorem mem_nodesOf_iff (h : Form c frameSize g seg) (hb : g.hasBlock b = true) :
    id ∈ nodesOf g b ↔ (seg b).first ≤ id ∧ id < (seg b).stop := by
  rw [h.nodesOf_eq hb, List.mem_range'_1]
  rfl

/-- A node that is listed has a cell. -/
theorem exists_cell (h : Form c frameSize g seg) (hid : id ∈ nodesOf g b) :
    ∃ j cell, id = (seg b).first + j ∧ (seg b).cells[j]? = some cell ∧ g.node? id = some (cell.nodeIn b) := by
  have hb := hasBlock_of_mem_nodesOf hid
  rw [h.nodesOf_eq hb] at hid
  obtain ⟨j, hj, rfl⟩ := List.mem_range'.1 hid
  rw [Nat.one_mul]
  have hcell := List.getElem?_eq_getElem hj
  exact ⟨j, _, rfl, hcell, h.table hb hcell⟩

theorem block_of_mem_nodesOf (h : Form c frameSize g seg) {node : Node} (hid : id ∈ nodesOf g b)
    (hnode : g.node? id = some node) : node.block = b := by
  obtain ⟨_, cell, -, -, hcell⟩ := h.exists_cell hid
  obtain rfl := Option.some.inj (hnode.symm.trans hcell)
  rfl

/-- No node is listed in two blocks. -/
theorem block_unique (h : Form c frameSize g seg) (ha : id ∈ nodesOf g a) (hb : id ∈ nodesOf g b) : a = b := by
  obtain ⟨_, _, -, -, hnode⟩ := h.exists_cell ha
  exact (h.block_of_mem_nodesOf ha hnode).symm.trans (h.block_of_mem_nodesOf hb hnode)

/-! ## Paths along the order -/

/-- A path leads to every block, and all nodes of the blocks before it on that path have lower numbers. -/
theorem exists_path (h : Form c frameSize g seg) (hb : g.hasBlock b = true) :
    ∃ bs, g.Path b (b :: bs) ∧ ∀ a ∈ bs, (seg a).stop ≤ (seg b).first := by
  rw [← h.mem_order] at hb
  suffices hall : ∀ b ∈ g.order, ∃ bs, g.Path b (b :: bs) ∧ ∀ a ∈ bs, (seg a).stop ≤ (seg b).first from hall b hb
  refine order_induction fun {front rest b} hsplit ih => ?_
  by_cases hentry : b = Graph.entry
  · subst hentry
    exact ⟨[], .start, by simp⟩
  · obtain ⟨p, hp, hfront⟩ := h.earlier_pred hsplit hentry
    obtain ⟨ps, hpath, hps⟩ := ih p hfront
    have hle := h.prior hsplit p hfront
    refine ⟨p :: ps, hpath.step (h.linked.mem_succs_iff.2 hp), fun a ha => ?_⟩
    rcases List.mem_cons.1 ha with rfl | ha
    · exact hle
    · exact ((hps a ha).trans (Nat.le_add_right _ _)).trans hle

theorem reaches (h : Form c frameSize g seg) (hb : g.hasBlock b = true) : g.Reaches b := by
  obtain ⟨bs, hbs, -⟩ := h.exists_path hb
  exact hbs.reaches

/-- Nodes of a block that strictly dominates another one have lower numbers. -/
theorem lt_of_dominates (h : Form c frameSize g seg) (hab : g.Dominates a b) (hne : a ≠ b) (hx : x ∈ nodesOf g a)
    (hy : y ∈ nodesOf g b) : x < y := by
  have ha := hasBlock_of_mem_nodesOf hx
  have hb := hasBlock_of_mem_nodesOf hy
  obtain ⟨bs, hpath, hbs⟩ := h.exists_path hb
  have hmem := (List.mem_cons.1 (hab _ hpath)).resolve_left hne
  calc
    x < (seg a).stop := ((h.mem_nodesOf_iff ha).1 hx).2
    _ ≤ (seg b).first := hbs a hmem
    _ ≤ y := ((h.mem_nodesOf_iff hb).1 hy).1

/-! ## Frames -/

/-- What a block leaves was in its frame before or is one of its nodes. -/
theorem mem_exit (h : Form c frameSize g seg) (hb : g.hasBlock b = true) (hid : id ∈ (seg b).exit.ids) :
    id ∈ (seg b).enter.ids ∨ id ∈ nodesOf g b := by
  rcases (h.body hb).mem_ids hid with hid | ⟨hle, hlt⟩
  · exact Or.inl hid
  · right
    rw [h.mem_nodesOf_iff hb]
    exact ⟨(Nat.le_add_right _ _).trans hle, hlt.trans_le (seg b).body_le_stop⟩

/-- On every path to a block stands the block that lists a node of its frame. -/
theorem listed_on_path (h : Form c frameSize g seg) (hentry : g.hasBlock Graph.entry = true) (hpath : g.Path b bs) :
    (∀ id ∈ (seg b).enter.ids, ∃ a ∈ bs, id ∈ nodesOf g a) ∧ ∀ id ∈ (seg b).exit.ids, ∃ a ∈ bs, id ∈ nodesOf g a := by
  have hexit : ∀ {b bs}, g.hasBlock b = true → g.Path b bs →
      (∀ id ∈ (seg b).enter.ids, ∃ a ∈ bs, id ∈ nodesOf g a) → ∀ id ∈ (seg b).exit.ids, ∃ a ∈ bs, id ∈ nodesOf g a := by
    intro b bs hb hpath henter id hid
    rcases h.mem_exit hb hid with hid | hid
    · exact henter id hid
    · exact ⟨b, hpath.mem, hid⟩
  induction hpath with
  | start =>
    suffices henter : _ from ⟨henter, hexit hentry .start henter⟩
    intro id hid
    refine ⟨Graph.entry, List.mem_cons_self, (h.mem_nodesOf_iff hentry).2 ?_⟩
    rw [h.entry_enter, seedFrame, Frame.ids, List.append_nil, ← h.entry_heads, List.toList_toArray,
      List.mem_range'_1] at hid
    refine ⟨hid.1, hid.2.trans_le (le_trans ?_ (seg Graph.entry).body_le_stop)⟩
    exact Nat.le_add_right _ _
  | @step u v us hpath hv ih =>
    have hb := h.linked.hasBlock_target hv
    suffices henter : _ from ⟨henter, hexit hb (hpath.step hv) henter⟩
    intro id hid
    obtain ⟨slot, hslot⟩ := Frame.mem_ids_iff.1 hid
    obtain ⟨k, hk⟩ := List.mem_iff_getElem?.1 (h.linked.mem_succs_iff.1 hv)
    obtain ⟨o, ho, ⟨rfl, -⟩ | ⟨j, type, args, rfl, hj, -⟩⟩ := h.handover hk hslot
    · obtain ⟨a, ha, hlisted⟩ := ih.2 o (Frame.mem_ids_iff.2 ⟨slot, ho⟩)
      exact ⟨a, List.mem_cons_of_mem _ ha, hlisted⟩
    · refine ⟨v, List.mem_cons_self, (mem_mergesOf.1 ((h.mem_mergesOf_iff hb).2 ?_)).1⟩
      exact ⟨j, type, slot, args, rfl, hj⟩

/-- A node that is listed somewhere on every path to a block is available there. -/
theorem available_of_paths (h : Form c frameSize g seg) (hb : g.hasBlock b = true)
    (hpaths : ∀ bs, g.Path b bs → ∃ a ∈ bs, id ∈ nodesOf g a) : Available g b id := by
  obtain ⟨bs, hbs⟩ := h.reaches hb
  obtain ⟨a, -, hlisted⟩ := hpaths bs hbs
  refine ⟨a, hlisted, fun cs hcs => ?_⟩
  obtain ⟨a', ha', hlisted'⟩ := hpaths cs hcs
  rwa [h.block_unique hlisted hlisted']

theorem available_enter (h : Form c frameSize g seg) (hentry : g.hasBlock Graph.entry = true)
    (hb : g.hasBlock b = true) (hid : id ∈ (seg b).enter.ids) : Available g b id :=
  h.available_of_paths hb fun _ hbs => (h.listed_on_path hentry hbs).1 id hid

theorem available_exit (h : Form c frameSize g seg) (hentry : g.hasBlock Graph.entry = true)
    (hb : g.hasBlock b = true) (hid : id ∈ (seg b).exit.ids) : Available g b id :=
  h.available_of_paths hb fun _ hbs => (h.listed_on_path hentry hbs).2 id hid

/-! ## Operands -/

/-- Slot and arguments of a merge that is listed in a block. -/
theorem exists_merge (h : Form c frameSize g seg) (hid : id ∈ g.mergesOf b) :
    ∃ slot args, g.merge? id = some (slot, args) ∧ args.length = (g.preds b).length ∧ b ≠ Graph.entry ∧
      ∀ {k : Nat} {p : BlockId}, (g.preds b)[k]? = some p →
        ∃ a, args[k]? = some a ∧ (seg p).exit.slot? slot = some a := by
  have hb := hasBlock_of_mem_nodesOf (mem_mergesOf.1 hid).1
  obtain ⟨j, type, slot, args, rfl, hj⟩ := (h.mem_mergesOf_iff hb).1 hid
  have hcell : (seg b).cells[j]? = some (type, .merge slot args) := by
    rw [Segment.cells, List.append_assoc, List.getElem?_append_left (List.getElem?_eq_some_iff.1 hj).1, hj]
  have hne : b ≠ Graph.entry := by
    rintro rfl
    have := isMerge_seedCells _ _ _ (h.entry_heads ▸ List.mem_of_getElem? hj)
    cases this
  obtain ⟨type', slot', args', heq, henter, hlength⟩ := h.heads hb hne hj
  cases heq
  refine ⟨slot, args, by rw [Graph.merge?, h.table hb hcell]; rfl, hlength, hne, fun {k p} hk => ?_⟩
  obtain ⟨a, ha, ⟨rfl, hlt⟩ | ⟨j', type', args', heq, hj', hargs⟩⟩ := h.handover hk henter
  · exact absurd hlt (Nat.not_lt.2 (Nat.le_add_right _ _))
  · obtain rfl := Nat.add_left_cancel heq
    cases hj.symm.trans hj'
    exact ⟨a, hargs, ha⟩

/-- The arguments of a merge are what the predecessors leave in its slot. -/
theorem args_eq (h : Form c frameSize g seg) (hid : id ∈ g.mergesOf b) {slot : Slot} {args : List NodeId}
    (hmerge : g.merge? id = some (slot, args)) :
    args.map some = (g.preds b).map fun p => (g.exitOf p).slot? slot := by
  obtain ⟨slot', args', hmerge', hlength, -, hargs⟩ := h.exists_merge hid
  cases hmerge.symm.trans hmerge'
  refine List.ext_getElem? fun k => ?_
  rw [List.getElem?_map, List.getElem?_map]
  cases hk : (g.preds b)[k]? with
  | none =>
    rw [List.getElem?_eq_none_iff, ← hlength] at hk
    rw [List.getElem?_eq_none hk]
    rfl
  | some p =>
    obtain ⟨a, ha, hexit⟩ := hargs hk
    have hp := (edge_facts h.linked h.entry_not_mem (List.mem_of_getElem? hk)).1
    rw [ha, Option.map_some, Option.map_some, h.exitOf_eq hp, hexit]

/-- What a merge takes from a predecessor is available there. -/
theorem argument_available (h : Form c frameSize g seg) (hentry : g.hasBlock Graph.entry = true)
    (hid : id ∈ g.mergesOf b) {slot : Slot} {args : List NodeId} (hmerge : g.merge? id = some (slot, args)) {k : Nat}
    (harg : args[k]? = some o) (hp : (g.preds b)[k]? = some p) : Available g p o := by
  obtain ⟨slot', args', hmerge', -, -, hexit⟩ := h.exists_merge hid
  cases hmerge.symm.trans hmerge'
  obtain ⟨a, ha, hslot⟩ := hexit hp
  obtain rfl := Option.some.inj (harg.symm.trans ha)
  have hsource := h.linked.hasBlock_source (h.linked.mem_succs_iff.2 (List.mem_of_getElem? hp))
  exact h.available_exit hentry hsource (Frame.mem_ids_iff.2 ⟨slot, hslot⟩)

/-- An operand of a node that is not a merge is available in its block and has a lower number. -/
theorem operand_available (h : Form c frameSize g seg) (hentry : g.hasBlock Graph.entry = true)
    (hid : id ∈ nodesOf g b) {node : Node} (hnode : g.node? id = some node) (hmerge : node.op.isMerge = false)
    (ho : o ∈ node.op.operands) : Available g b o ∧ o < id := by
  have hb := hasBlock_of_mem_nodesOf hid
  obtain ⟨j, cell, rfl, hcell, htable⟩ := h.exists_cell hid
  cases hnode.symm.trans htable
  have hown : o < (seg b).first + j → (seg b).first ≤ o → Available g b o ∧ o < (seg b).first + j := by
    refine fun hlt hle => ⟨⟨b, (h.mem_nodesOf_iff hb).2 ⟨hle, hlt.trans ?_⟩, .refl g b⟩, hlt⟩
    exact ((h.mem_nodesOf_iff hb).1 hid).2
  rw [Segment.cells, List.append_assoc] at hcell
  by_cases hj : j < (seg b).heads.length
  · -- Seeds have no operands, and the other nodes in front are merges.
    rw [List.getElem?_append_left hj] at hcell
    by_cases he : b = Graph.entry
    · subst he
      rw [h.entry_heads] at hcell
      rcases op_of_mem_seedCells (List.mem_of_getElem? hcell) with ⟨index, hop⟩ | ⟨slot, hop⟩
      all_goals
        change o ∈ cell.2.operands at ho
        rw [hop] at ho
        cases ho
    · obtain ⟨type, slot, args, rfl, -⟩ := h.heads hb he hcell
      cases hmerge
  · have hge := Nat.le_of_not_lt hj
    rw [List.getElem?_append_right hge] at hcell
    by_cases hj' : j - (seg b).heads.length < (seg b).body.length
    · rw [List.getElem?_append_left hj'] at hcell
      have hplace : (seg b).first + (seg b).heads.length + (j - (seg b).heads.length) = (seg b).first + j := by
        rw [Nat.add_assoc, Nat.add_sub_cancel' hge]
      rcases (h.body hb).closed.mem_operands hcell ho with ho | ⟨hle, hlt⟩
      · refine ⟨h.available_enter hentry hb ho, (h.enter_lt hb o ho).trans_le ?_⟩
        exact Nat.add_le_add_left hge _
      · exact hown (hplace ▸ hlt) ((Nat.le_add_right _ _).trans hle)
    · rw [List.getElem?_append_right (Nat.le_of_not_lt hj')] at hcell
      obtain ⟨next, -, rfl⟩ := mem_tailOf (h.tail_eq hb ▸ List.mem_of_getElem? hcell)
      cases ho

end Form

end Destack.Ssa
