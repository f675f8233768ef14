import Destack.Proofs.Ssa.Elision
import Destack.Proofs.Ssa.Progress

/-!
# Nodes in the order in which they are lowered

The nodes of a method are lowered block by block, in the order in which the blocks were built. In that order every
operand comes before the nodes that use it, and what is used always is a value (`Scheduled`): frames only hold nodes
that have one (`Form.valued`), and the node that a merge is read as has one, too (`Redirected.valued_resolve`).
-/

namespace Destack.Ssa

/-- A node has a value for others to use. -/
def Valued (g : Graph) (id : NodeId) : Prop :=
  ∃ node, g.node? id = some node ∧ node.op.yields node.type = true

/-! ## Operands have values -/

section Known

variable {ids : List NodeId} {n o id : NodeId} {cells : List Cell}

theorem mem_known (h : id ∈ known ids n cells) :
    id ∈ ids ∨ ∃ k cell, cells[k]? = some cell ∧ id = n + k ∧ cell.2.yields cell.1 = true := by
  induction cells generalizing ids n with
  | nil => exact Or.inl h
  | cons cell cells ih =>
    rcases ih h with hid | ⟨k, cell', hcell, rfl, hyields⟩
    · split at hid
      · next hyields =>
        rcases List.mem_cons.1 hid with rfl | hid
        · exact Or.inr ⟨0, cell, rfl, rfl, hyields⟩
        · exact Or.inl hid
      · exact Or.inl hid
    · exact Or.inr ⟨k + 1, cell', hcell, by rw [Nat.add_assoc, Nat.add_comm 1], hyields⟩

theorem Fed.mem_operands (h : Fed ids n cells) {k : Nat} {cell : Cell} (hcell : cells[k]? = some cell)
    (ho : o ∈ cell.2.operands) : o ∈ known ids n cells := by
  induction cells generalizing ids n k with
  | nil => cases hcell
  | cons first cells ih =>
    cases k with
    | zero =>
      obtain rfl := Option.some.inj hcell
      exact subset_known _ _ _ (h.1 o ho)
    | succ k => exact ih h.2 hcell

end Known

variable {c : Context} {frameSize : Nat} {g g' : Graph} {seg : BlockId → Segment} {b : BlockId} {id o : NodeId}

namespace Form

theorem valued_cell (h : Form c frameSize g seg) (hb : g.hasBlock b = true) {k : Nat} {cell : Cell}
    (hcell : (seg b).cells[k]? = some cell) (hyields : cell.2.yields cell.1 = true) : Valued g ((seg b).first + k) :=
  ⟨_, h.table hb hcell, hyields⟩

/-- After the cells of a block only nodes with values are known, if the frame at its start has no others. -/
theorem valued_known (h : Form c frameSize g seg) (hb : g.hasBlock b = true)
    (henter : ∀ id ∈ (seg b).enter.ids, Valued g id)
    (hid : id ∈ known (seg b).enter.ids ((seg b).first + (seg b).heads.length) ((seg b).body ++ (seg b).tail)) :
    Valued g id := by
  rcases mem_known hid with hid | ⟨k, cell, hcell, rfl, hyields⟩
  · exact henter id hid
  · have hplace : (seg b).cells[(seg b).heads.length + k]? = some cell := by
      rw [Segment.cells, List.append_assoc, List.getElem?_append_right (Nat.le_add_right _ _),
        Nat.add_sub_cancel_left, hcell]
    rw [Nat.add_assoc]
    exact h.valued_cell hb hplace hyields

/-- Frames only hold nodes that have values. -/
theorem valued (h : Form c frameSize g seg) (hentry : g.hasBlock Graph.entry = true) (hb : g.hasBlock b = true) :
    (∀ id ∈ (seg b).enter.ids, Valued g id) ∧ ∀ id ∈ (seg b).exit.ids, Valued g id := by
  have hexit : ∀ {b}, g.hasBlock b = true → (∀ id ∈ (seg b).enter.ids, Valued g id) →
      ∀ id ∈ (seg b).exit.ids, Valued g id :=
    fun hb henter id hid => h.valued_known hb henter ((h.fed hb).2 hid)
  -- By induction on a path to the block.
  obtain ⟨bs, hpath⟩ := h.reaches hb
  induction hpath with
  | start =>
    suffices henter : _ from ⟨henter, hexit hentry henter⟩
    intro id hid
    rw [h.entry_enter, seedFrame, Frame.ids, List.append_nil, ← h.entry_heads, List.toList_toArray] at hid
    obtain ⟨k, hk, rfl⟩ := List.mem_range'.1 hid
    rw [Nat.one_mul]
    have hcell : (seg Graph.entry).cells[k]? = some (seg Graph.entry).heads[k] := by
      rw [Segment.cells, List.append_assoc, List.getElem?_append_left hk, List.getElem?_eq_getElem hk]
    exact h.valued_cell hentry hcell (h.plain_seeds (List.getElem_mem hk)).2.2
  | @step u v us hpath hv ih =>
    suffices henter : _ from ⟨henter, hexit hb henter⟩
    have hu := h.linked.hasBlock_source hv
    intro id hid
    obtain ⟨slot, hslot⟩ := Frame.mem_ids_iff.1 hid
    obtain ⟨k, hk⟩ := List.mem_iff_getElem?.1 (h.linked.mem_succs_iff.1 hv)
    obtain ⟨o, ho, ⟨rfl, -⟩ | ⟨j, type, args, rfl, hj, -⟩⟩ := h.handover hk hslot
    · exact (ih hu).2 o (Frame.mem_ids_iff.2 ⟨slot, ho⟩)
    · have hcell : (seg v).cells[j]? = some (type, .merge slot args) := by
        rw [Segment.cells, List.append_assoc, List.getElem?_append_left (List.getElem?_eq_some_iff.1 hj).1, hj]
      exact h.valued_cell hb hcell rfl

/-- Operands of nodes that are no merges have values. -/
theorem valued_operand (h : Form c frameSize g seg) (hentry : g.hasBlock Graph.entry = true) (hid : id ∈ nodesOf g b)
    {node : Node} (hnode : g.node? id = some node) (hmerge : node.op.isMerge = false) (ho : o ∈ node.op.operands) :
    Valued g o := by
  have hb := hasBlock_of_mem_nodesOf hid
  obtain ⟨j, cell, rfl, hcell, htable⟩ := h.exists_cell hid
  cases hnode.symm.trans htable
  rw [Segment.cells, List.append_assoc] at hcell
  by_cases hj : j < (seg b).heads.length
  · rw [List.getElem?_append_left hj] at hcell
    by_cases he : b = Graph.entry
    · subst he
      change o ∈ cell.2.operands at ho
      rw [(h.plain_seeds (List.mem_of_getElem? hcell)).2.1] at ho
      cases ho
    · obtain ⟨type, slot, args, rfl, -⟩ := h.heads hb he hcell
      cases hmerge
  · rw [List.getElem?_append_right (Nat.le_of_not_lt hj)] at hcell
    exact h.valued_known hb (h.valued hentry hb).1 ((h.fed hb).1.mem_operands hcell ho)

end Form

/-- What a node with a value is read as has one. -/
theorem Redirected.valued_resolve (hr : Redirected g g') (h : Form c frameSize g seg)
    (hentry : g.hasBlock Graph.entry = true) (ho : Valued g o) : Valued g (g'.resolve o) := by
  induction o using Nat.strong_induction_on with
  | _ o ih =>
    cases halias : g'.isAliased o with
    | false =>
      rw [resolve_eq_self (hr.falling h) halias]
      exact ho
    | true =>
      -- The argument from a block built earlier has a lower number and is read as the same node.
      obtain ⟨t, ht⟩ := isAliased_iff.1 halias
      obtain ⟨_, b, hmem, -⟩ := hr.target ht
      obtain ⟨slot, args, hargs, -, hne, hexit⟩ := h.exists_merge hmem
      have hlisted := (mem_mergesOf.1 hmem).1
      have hb := Form.hasBlock_of_mem_nodesOf hlisted
      obtain ⟨front, rest, hsplit⟩ := List.append_of_mem ((h.mem_order b).2 hb)
      obtain ⟨p, hp, hfront⟩ := h.earlier_pred hsplit hne
      obtain ⟨k, hk⟩ := List.mem_iff_getElem?.1 hp
      obtain ⟨x, hx, hslot⟩ := hexit hk
      have hsource := h.linked.hasBlock_source (h.linked.mem_succs_iff.2 hp)
      have hids := Frame.mem_ids_iff.2 ⟨slot, hslot⟩
      have hlt : x < o := calc
        x < (seg p).stop := (h.exit_lt hsource x hids).trans_le (seg p).body_le_stop
        _ ≤ (seg b).first := h.prior hsplit p hfront
        _ ≤ o := ((h.mem_nodesOf_iff hb).1 hlisted).1
      rw [← hr.arguments halias hargs x (List.mem_of_getElem? hx)]
      exact ih x hlt ((h.valued hentry hsource).2 x hids)

/-! ## The order of lowering -/

/-- The listed nodes of a graph, block by block. -/
def schedule (g : Graph) : List NodeId :=
  g.order.flatMap (nodesOf g)

/-- What the lowering of nodes relies on. -/
structure Scheduled (g : Graph) : Prop where
  linked : g.Linked
  entry : g.hasBlock Graph.entry = true
  mem_order : ∀ b, b ∈ g.order ↔ g.hasBlock b = true
  nodup_order : g.order.Nodup
  sorted : (schedule g).Pairwise (· < ·)
  node : ∀ {b : BlockId} {id : NodeId}, id ∈ nodesOf g b →
    g.resolve id = id ∧ ∃ node, g.node? id = some node ∧ node.block = b
  /-- An operand is read as a node that comes first and has a value. -/
  operand : ∀ {b : BlockId} {id o : NodeId} {node : Node}, id ∈ nodesOf g b → g.node? id = some node →
    node.op.isMerge = false → o ∈ node.op.operands →
    g.resolve o < id ∧ g.resolve o ∈ schedule g ∧ Valued g (g.resolve o)
  /-- An argument of a merge is read as a node that has a value. -/
  argument : ∀ {b : BlockId} {id : NodeId}, id ∈ g.mergesOf b → ∃ slot args, g.merge? id = some (slot, args) ∧
    args.length = (g.preds b).length ∧ ∀ o ∈ args, g.resolve o ∈ schedule g ∧ Valued g (g.resolve o)

theorem mem_schedule (h : ∀ b, b ∈ g.order ↔ g.hasBlock b = true) : id ∈ schedule g ↔ ∃ b, id ∈ nodesOf g b := by
  rw [schedule, List.mem_flatMap]
  constructor
  · rintro ⟨b, -, hid⟩
    exact ⟨b, hid⟩
  · rintro ⟨b, hid⟩
    exact ⟨b, (h b).2 (Form.hasBlock_of_mem_nodesOf hid), hid⟩

theorem Scheduled.mem_schedule (hs : Scheduled g) (hid : id ∈ nodesOf g b) : id ∈ schedule g :=
  (Ssa.mem_schedule hs.mem_order).2 ⟨b, hid⟩

/-- The nodes of a block are in ascending order. -/
theorem Scheduled.sorted_nodesOf (hs : Scheduled g) (b : BlockId) : (nodesOf g b).Pairwise (· < ·) := by
  by_cases hb : g.hasBlock b = true
  · exact (List.pairwise_flatMap.1 hs.sorted).1 b ((hs.mem_order b).2 hb)
  · rw [List.eq_nil_iff_forall_not_mem.2 fun id hid => hb (Form.hasBlock_of_mem_nodesOf hid)]
    exact .nil

/-- A node is listed in one block only. -/
theorem Scheduled.block_unique (hs : Scheduled g) {b b' : BlockId} (hid : id ∈ nodesOf g b) (hid' : id ∈ nodesOf g b') :
    b = b' := by
  obtain ⟨-, node, hnode, rfl⟩ := hs.node hid
  obtain ⟨-, node', hnode', rfl⟩ := hs.node hid'
  rw [Option.some.inj (hnode.symm.trans hnode')]

/-- Graphs of nodes without the elided merges can be lowered. -/
theorem Elided.scheduled (he : Elided g g') (h : Form c frameSize g seg) (hentry : g.hasBlock Graph.entry = true) :
    Scheduled g' := by
  have horder : g'.order = g.order := (congrArg Graph.order he.rest_eq).trans rfl
  have hblock : ∀ b, g'.hasBlock b = g.hasBlock b := he.keeps_text.hasBlock_eq
  have hlinked : g'.Linked := h.linked.of_keeps he.keeps_text
  have hmem : ∀ b, b ∈ g'.order ↔ g'.hasBlock b = true := by
    intro b
    rw [horder, hblock, h.mem_order]
  have hvalued : ∀ {id}, Valued g id → Valued g' id := by
    rintro id ⟨node, hnode, hyields⟩
    exact ⟨node, he.node?_eq id ▸ hnode, hyields⟩
  have hread : ∀ {b o}, Available g b o → Valued g o →
      g'.resolve o ∈ schedule g' ∧ Valued g' (g'.resolve o) := by
    intro b o havailable ho
    obtain ⟨a, ha, -⟩ := he.available_resolve h havailable
    have hlisted := he.mem_nodesOf_iff.2 ⟨ha, isAliased_resolve (he.falling h) o⟩
    exact ⟨(mem_schedule hmem).2 ⟨a, hlisted⟩, hvalued (he.valued_resolve h hentry ho)⟩
  refine ⟨hlinked, by rw [hblock, hentry], hmem, horder ▸ h.nodup_order, ?_, ?_, ?_, ?_⟩
  · rw [schedule, List.pairwise_flatMap, horder]
    constructor
    · intro b hb
      rw [he.nodesOf_eq, h.nodesOf_eq ((h.mem_order b).1 hb)]
      exact List.Pairwise.filter _ List.pairwise_lt_range'
    · refine pairwise_of_front fun {front rest b} hsplit p hp x hx y hy => ?_
      have hx := (he.mem_nodesOf_iff.1 hx).1
      have hy := (he.mem_nodesOf_iff.1 hy).1
      calc
        x < (seg p).stop := ((h.mem_nodesOf_iff (Form.hasBlock_of_mem_nodesOf hx)).1 hx).2
        _ ≤ (seg b).first := h.prior hsplit p hp
        _ ≤ y := ((h.mem_nodesOf_iff (Form.hasBlock_of_mem_nodesOf hy)).1 hy).1
  · intro b id hid
    obtain ⟨hlisted, halias⟩ := he.mem_nodesOf_iff.1 hid
    obtain ⟨_, cell, -, -, hnode⟩ := h.exists_cell hlisted
    exact ⟨resolve_eq_self (he.falling h) halias, _, he.node?_eq id ▸ hnode, rfl⟩
  · intro b id o node hid hnode hmerge ho
    rw [he.node?_eq] at hnode
    have hlisted := (he.mem_nodesOf_iff.1 hid).1
    obtain ⟨havailable, hlt⟩ := h.operand_available hentry hlisted hnode hmerge ho
    exact ⟨(resolve_le (he.falling h) o).trans_lt hlt,
      hread havailable (h.valued_operand hentry hlisted hnode hmerge ho)⟩
  · intro b id hid
    have hid := (he.mem_mergesOf_iff.1 hid).1
    obtain ⟨slot, args, hargs, hlength, -, hexit⟩ := h.exists_merge hid
    refine ⟨slot, args, he.merge?_eq id ▸ hargs, by rw [hlength, he.preds_eq], fun o ho => ?_⟩
    obtain ⟨k, hk⟩ := List.mem_iff_getElem?.1 ho
    have hp := List.getElem?_eq_getElem (hlength ▸ (List.getElem?_eq_some_iff.1 hk).1 : k < (g.preds b).length)
    have hsource := h.linked.hasBlock_source (h.linked.mem_succs_iff.2 (List.mem_of_getElem? hp))
    obtain ⟨o', ho', hslot⟩ := hexit hp
    obtain rfl := Option.some.inj (hk.symm.trans ho')
    have hids := Frame.mem_ids_iff.2 ⟨slot, hslot⟩
    exact hread (h.available_exit hentry hsource hids) ((h.valued hentry hsource).2 o hids)

/-! ## What runs first and last -/

/-- Whether an operation stands for something that is there when the method is entered. -/
def Op.isSeed : Op → Bool
  | param .. | undefined .. => true
  | _ => false

/-- A node stands for something that is there when the method is entered. -/
def SeedAt (g : Graph) (id : NodeId) : Prop :=
  ∃ node, g.node? id = some node ∧ node.op.isSeed = true

/-- Among listed nodes there is one in control, and if the first one leads to another block, it is the last node. -/
def LeadsOut (g : Graph) : List NodeId → Prop
  | [] => False
  | id :: ids => ∃ node, g.node? id = some node ∧
    if node.op.isControl then node.op.targets ≠ [] → ids = [] else LeadsOut g ids

/-- What runs of listed nodes rely on. -/
structure Orderly (g : Graph) : Prop extends Scheduled g where
  leads : ∀ {b : BlockId}, g.hasBlock b = true → LeadsOut g (nodesOf g b)
  target : ∀ {b t : BlockId} {id : NodeId} {node : Node}, id ∈ nodesOf g b → g.node? id = some node →
    t ∈ node.op.targets → t ∈ g.succs b
  /-- Nodes that stand for something that is there come first. -/
  seeds_first : ∀ b, (nodesOf g b).Pairwise fun x y => SeedAt g y → SeedAt g x
  /-- They are in a block that no edge leads to. -/
  seed : ∀ {p b : BlockId} {id : NodeId}, id ∈ nodesOf g b → SeedAt g id → b ∉ g.succs p

theorem Translates.isSeed_eq_false {at? : Int → Option BlockId} {i : Instruction} {n : NodeId} {action : Action}
    {f f' : Frame} {ns : List Cell} (h : Translates c at? i n action f ns f') :
    ∀ cell ∈ ns, cell.2.isSeed = false := by
  cases h <;> simp [elementCells, Op.isSeed]

theorem TranslatesAll.isSeed_eq_false {at? : Int → Option BlockId} {is : List Instruction} {n : NodeId}
    {f f' : Frame} {ns : List Cell} (h : TranslatesAll c at? n is f ns f') : ∀ cell ∈ ns, cell.2.isSeed = false := by
  induction h with
  | nil => simp
  | cons _ htrans _ ih =>
    intro cell hcell
    rcases List.mem_append.1 hcell with hcell | hcell
    · exact htrans.isSeed_eq_false cell hcell
    · exact ih cell hcell

/-- The seeds are the cells in front of the entry block. -/
theorem Form.seedAt_iff (h : Form c frameSize g seg) (hid : id ∈ nodesOf g b) :
    SeedAt g id ↔ b = Graph.entry ∧ id < (seg b).first + (seg b).heads.length := by
  have hb := hasBlock_of_mem_nodesOf hid
  obtain ⟨j, cell, rfl, hcell, hnode⟩ := h.exists_cell hid
  have hseed : SeedAt g ((seg b).first + j) ↔ cell.2.isSeed = true := by
    constructor
    · rintro ⟨node, hnode', hseed⟩
      cases hnode.symm.trans hnode'
      exact hseed
    · exact fun hseed => ⟨_, hnode, hseed⟩
  rw [hseed, Nat.add_lt_add_iff_left]
  rw [Segment.cells, List.append_assoc] at hcell
  by_cases hj : j < (seg b).heads.length
  · rw [List.getElem?_append_left hj] at hcell
    by_cases he : b = Graph.entry
    · subst he
      rw [h.entry_heads] at hcell
      rcases op_of_mem_seedCells (List.mem_of_getElem? hcell) with ⟨index, hop⟩ | ⟨slot, hop⟩ <;>
        simp [hop, hj, Op.isSeed]
    · obtain ⟨type, slot, args, rfl, -⟩ := h.heads hb he hcell
      simp [Op.isSeed, he]
  · rw [List.getElem?_append_right (Nat.le_of_not_lt hj)] at hcell
    have hnot : cell.2.isSeed = false := by
      rcases List.mem_append.1 (List.mem_of_getElem? hcell) with hcell | hcell
      · exact (h.body hb).isSeed_eq_false cell hcell
      · obtain ⟨next, -, rfl⟩ := mem_tailOf (h.tail_eq hb ▸ hcell)
        rfl
    simp [hnot, hj]

/-- The cells in front of a block are not in control. -/
theorem Form.isControl_heads (h : Form c frameSize g seg) (hb : g.hasBlock b = true) :
    ∀ cell ∈ (seg b).heads, cell.2.isControl = false := by
  intro cell hcell
  by_cases he : b = Graph.entry
  · subst he
    exact (h.plain_seeds hcell).1.2
  · obtain ⟨j, hj⟩ := List.mem_iff_getElem?.1 hcell
    obtain ⟨type, slot, args, rfl, -⟩ := h.heads hb he hj
    rfl

/-- The cells of a block come to a control cell. -/
theorem Prepared.leads_cells {code : List Instruction} {addr : BlockId → Nat} (h : Prepared c frameSize code addr g seg)
    (hb : g.hasBlock b = true) : Leads (seg b).cells := by
  rw [Segment.cells, List.append_assoc, leads_append (h.form.isControl_heads hb)]
  exact h.form.leads h.laid hb

theorem Op.isMerge_of_isControl {op : Op} (h : op.isControl = true) : op.isMerge = false := by
  cases op <;> first | rfl | cases h

/-- Merges may be taken off a list that comes to a control node. -/
theorem leadsOut_filter {cells : List Cell} {n : NodeId} {keep : NodeId → Bool} (hleads : Leads cells)
    (hcells : ∀ {k : Nat} {cell : Cell}, cells[k]? = some cell → g.node? (n + k) = some (cell.nodeIn b) ∧
      (cell.2.isMerge = false → keep (n + k) = true)) :
    LeadsOut g ((List.range' n cells.length).filter keep) := by
  induction cells generalizing n with
  | nil => exact hleads.elim
  | cons cell cells ih =>
    obtain ⟨hnode, hkeep⟩ := @hcells 0 cell rfl
    rw [Nat.add_zero] at hnode hkeep
    have hrest := @ih (n + 1)
    rw [Leads] at hleads
    rw [List.length_cons, List.range'_succ, List.filter_cons]
    cases hcontrol : cell.2.isControl with
    | true =>
      rw [hcontrol, if_pos rfl] at hleads
      rw [if_pos (hkeep _)]
      · refine ⟨_, hnode, ?_⟩
        rw [if_pos (show (cell.nodeIn b).op.isControl = true from hcontrol)]
        intro htargets
        rw [hleads htargets]
        rfl
      · exact Op.isMerge_of_isControl hcontrol
    | false =>
      rw [hcontrol, if_neg Bool.false_ne_true] at hleads
      have hrest := @ih (n + 1) hleads fun {k cell'} hk => by
        rw [Nat.add_assoc, Nat.add_comm 1]
        exact @hcells (k + 1) cell' hk
      split
      · refine ⟨_, hnode, ?_⟩
        rwa [if_neg (by simp [Cell.nodeIn, hcontrol])]
      · exact hrest

/-- Graphs of nodes without the elided merges are in order. -/
theorem Elided.orderly {code : List Instruction} {addr : BlockId → Nat} (he : Elided g g')
    (h : Prepared c frameSize code addr g seg) : Orderly g' := by
  have hseed : ∀ {id}, SeedAt g' id ↔ SeedAt g id := by simp [SeedAt, he.node?_eq]
  have hs := he.scheduled h.form h.entry
  refine ⟨hs, ?_, ?_, ?_, ?_⟩
  · intro b hb
    rw [he.keeps_text.hasBlock_eq] at hb
    rw [he.nodesOf_eq, h.form.nodesOf_eq hb]
    refine leadsOut_filter (b := b) (h.leads_cells hb) fun {k cell} hcell => ?_
    have hnode := h.form.table hb hcell
    rw [he.node?_eq]
    refine ⟨hnode, fun hmerge => ?_⟩
    rw [he.isAliased_eq_false hnode hmerge, Bool.not_false]
  · intro b t id node hid hnode ht
    have hlisted := (he.mem_nodesOf_iff.1 hid).1
    obtain ⟨block, hblock⟩ := Graph.hasBlock_iff.1 (Form.hasBlock_of_mem_nodesOf hlisted)
    obtain ⟨j, cell, rfl, hcell, htable⟩ := h.form.exists_cell hlisted
    rw [he.node?_eq] at hnode
    cases hnode.symm.trans htable
    rw [he.succs_eq, Graph.succs_eq hblock]
    exact h.form.target_mem_succs h.laid hblock (List.mem_of_getElem? hcell) ht
  · intro b
    refine (hs.sorted_nodesOf b).imp_of_mem fun {x y} hx hy hlt hy' => ?_
    have hx := (he.mem_nodesOf_iff.1 hx).1
    have hy := (he.mem_nodesOf_iff.1 hy).1
    rw [hseed, h.form.seedAt_iff hy] at hy'
    rw [hseed, h.form.seedAt_iff hx]
    exact ⟨hy'.1, hlt.trans hy'.2⟩
  · intro p b id hid hs hb
    have hlisted := (he.mem_nodesOf_iff.1 hid).1
    rw [hseed, h.form.seedAt_iff hlisted] at hs
    rw [he.succs_eq] at hb
    exact h.form.ne_entry (h.form.linked.mem_succs_iff.1 hb) hs.1

end Destack.Ssa
