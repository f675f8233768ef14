import Destack.Proofs.Graph.LoopSearch
import Destack.Proofs.Ssa.Elision

/-!
# Slots with merges

At the head of a loop a merge is made for every slot, and where other blocks meet for each slot in which they do not
leave the same node. The argument for a predecessor is what that one leaves in the slot (`MergesFit`). This holds for
all merges of the table of nodes, whether they are still listed or were elided.
-/

namespace Destack

/-- Two blocks lead to every head of a loop. -/
theorem Graph.Ranked.two_le_length_preds {g : Graph} {rank : BlockId → Nat} (hg : g.Ranked rank) {b : BlockId}
    (hhead : g.isHeadAt b = true) : 2 ≤ (g.preds b).length := by
  cases hb : g.block? b with
  | none =>
    rw [Graph.isHeadAt, hb] at hhead
    cases hhead
  | some block =>
    rw [Graph.isHeadAt, hb, Option.map_some, Option.getD_some] at hhead
    have hback := (hg.isHead hb).1 hhead
    rw [hg.backEdges hb, List.countP_pos_iff] at hback
    obtain ⟨p, hp, hle⟩ := hback
    have hle : rank b ≤ rank p := of_decide_eq_true hle
    rw [← Graph.preds_eq hb] at hp
    have hne : b ≠ Graph.entry := by
      rintro rfl
      exact hg.rooted.entry_not_mem_succs p (hg.rooted.linked.mem_succs_iff.2 hp)
    rcases Relation.ReflTransGen.cases_tail (hg.reach (Graph.hasBlock_iff.2 ⟨block, hb⟩)) with heq | ⟨q, -, hq⟩
    · exact absurd heq hne
    · have hmem := hg.rooted.linked.mem_succs_iff.1 hq.1
      have hlt : rank q < rank b := hq.2
      have hpq : p ≠ q := by
        rintro rfl
        omega
      have hsubset : [p, q] ⊆ g.preds b := by simp [hp, hmem]
      exact (List.subperm_of_subset (by simp [hpq]) hsubset).length_le

namespace Ssa

/-- A node is a merge that was made for a slot of a block, with its arguments. -/
def IsMerge (g : Graph) (b : BlockId) (slot : Slot) (id : NodeId) (args : List NodeId) : Prop :=
  ∃ type, g.node? id = some ⟨b, type, .merge slot args⟩

/-- Merges take what the predecessors of their block leave in the slot, and there are merges for exactly the slots that
need one. -/
structure MergesFit (frameSize : Nat) (g : Graph) : Prop where
  args_eq : ∀ {b : BlockId} {slot : Slot} {id : NodeId} {args : List NodeId}, IsMerge g b slot id args →
    args.map some = (g.preds b).map fun p => (g.exitOf p).slot? slot
  unique : ∀ {b : BlockId} {slot : Slot} {id id' : NodeId} {args args' : List NodeId}, IsMerge g b slot id args →
    IsMerge g b slot id' args' → id = id'
  joins : ∀ {b : BlockId} {slot : Slot} {id : NodeId} {args : List NodeId}, IsMerge g b slot id args →
    2 ≤ (g.preds b).length
  /-- The head of a loop has a merge for each local slot and each place on the stack. -/
  heads : ∀ {b : BlockId}, g.isHeadAt b = true → 2 ≤ (g.preds b).length ∧
    ∃ depth, (∀ p ∈ g.preds b, (g.exitOf p).depth = depth) ∧
      ∀ slot ∈ slotsOf frameSize depth, ∃ id args, IsMerge g b slot id args
  /-- Any other block where several meet has a merge for each slot in which two of them leave different nodes. -/
  differ : ∀ {b : BlockId}, g.isHeadAt b = false → 2 ≤ (g.preds b).length → ∀ slot,
    (∃ id args, IsMerge g b slot id args) ↔
      ∃ p ∈ g.preds b, ∃ q ∈ g.preds b, (g.exitOf p).slot? slot ≠ (g.exitOf q).slot? slot

/-! ## Where blocks meet -/

section Joins

variable {g : Graph} {front preds : List BlockId} {isHead : Bool} {frameSize : Nat} {n : NodeId} {heads : List Cell}
  {enter : Frame} {slot : Slot}

/-- Where blocks meet, a slot holds a merge or what all of them leave in it. -/
theorem Joins.agreed_or_merge (h : Joins isHead (sourcesOf g front preds) frameSize n heads enter) {id : NodeId}
    (hid : enter.slot? slot = some id) :
    (isHead = false ∧ ∀ p ∈ preds, (g.exitOf p).slot? slot = some id) ∨
      ∃ j type args, id = n + j ∧ heads[j]? = some (type, .merge slot args) := by
  cases h with
  | mk _ _ _ hlocals hstack hmerges =>
    obtain ⟨pos, hpos, hat⟩ := slot?_mk_iff.1 hid
    rw [hlocals, hstack] at hpos
    rcases hmerges.slot hpos hat with ⟨hhead, hagreed⟩ | ⟨j, type, hj, hcell⟩
    · refine Or.inl ⟨hhead, fun p hp => ?_⟩
      have hsource := eq_some_of_agreed? hagreed _ (List.mem_map_of_mem (List.mem_map_of_mem hp))
      split at hsource
      · exact hsource
      · cases hsource
    · exact Or.inr ⟨j, type, _, hj, hcell⟩

/-- Where no loop is headed, a merge is made only if two blocks leave different nodes. -/
theorem Joins.exists_ne (h : Joins false (sourcesOf g front preds) frameSize n heads enter) {j : Nat}
    {type : ValueType} {args : List NodeId} (hj : heads[j]? = some (type, .merge slot args))
    (hsome : ∀ p ∈ preds, ((g.exitOf p).slot? slot).isSome = true) :
    ∃ p ∈ preds, ∃ q ∈ preds, (g.exitOf p).slot? slot ≠ (g.exitOf q).slot? slot := by
  cases h with
  | mk hknown hexists _ hlocals hstack hmerges =>
    have hnone := hmerges.agreed?_eq_none rfl (List.mem_of_getElem? hj)
    have hincoming : incoming (sourcesOf g front preds) slot = preds.map fun p => (g.exitOf p).slot? slot := by
      rw [incoming, sourcesOf, List.map_map]
      refine List.map_congr_left fun p hp => ?_
      have hsource := hknown rfl _ (List.mem_map_of_mem hp)
      dsimp only [Function.comp]
      split at hsource
      · next hfront => rw [if_pos hfront]; rfl
      · cases hsource
    rw [hincoming] at hnone
    by_contra hsame
    push Not at hsame
    obtain ⟨f, hf⟩ := hexists
    obtain ⟨p₀, hp₀, -⟩ := mem_sourcesOf hf
    cases preds with
    | nil => cases hp₀
    | cons first rest =>
      obtain ⟨id, hid⟩ := Option.isSome_iff_exists.1 (hsome first List.mem_cons_self)
      rw [List.map_cons, hid, BuildM.agreed?, if_pos] at hnone
      · cases hnone
      · rw [List.all_eq_true]
        rintro x hx
        obtain ⟨p, hp, rfl⟩ := List.mem_map.1 hx
        rw [hsame p (List.mem_cons_of_mem _ hp) first List.mem_cons_self, hid]
        exact beq_self_eq_true _

end Joins

/-! ## Merges in the table of nodes -/

section Patched

variable {c : Context} {frameSize : Nat} {g₀ g : Graph} {seg : BlockId → Segment} {b : BlockId} {slot : Slot}
  {id : NodeId} {args : List NodeId}

theorem preds_patched (g : Graph) (b : BlockId) : (patched g).preds b = g.preds b :=
  congrArg (fun block => (block.map Block.preds).getD []) (block?_patched g b)

theorem exitOf_patched (g : Graph) (b : BlockId) : (patched g).exitOf b = g.exitOf b := by
  rw [Graph.exitOf, block?_patched, Graph.exitOf]

theorem isHeadAt_patched (g : Graph) (b : BlockId) : (patched g).isHeadAt b = g.isHeadAt b := by
  rw [Graph.isHeadAt, block?_patched, Graph.isHeadAt]

theorem hasBlock_patched (g : Graph) (b : BlockId) : (patched g).hasBlock b = g.hasBlock b := by
  rw [Bool.eq_iff_iff, Graph.hasBlock_iff, Graph.hasBlock_iff, block?_patched]

theorem nodesOf_patched (g : Graph) (b : BlockId) : nodesOf (patched g) b = nodesOf g b := by
  rw [nodesOf, block?_patched, nodesOf]

theorem Segment.getElem?_cells {sg : Segment} {j : Nat} {cell : Cell} (h : sg.heads[j]? = some cell) :
    sg.cells[j]? = some cell := by
  rw [Segment.cells, List.append_assoc, List.getElem?_append_left (List.getElem?_eq_some_iff.1 h).1, h]

/-- Patching changes no more than the arguments of merges. -/
theorem exists_merge_patchSegment {sg : Segment} {j : Nat} {type : ValueType} :
    (∃ args, (patchSegment g b sg).heads[j]? = some (type, .merge slot args)) ↔
      ∃ args, sg.heads[j]? = some (type, .merge slot args) := by
  simp only [patchSegment, List.getElem?_map, Option.map_eq_some_iff]
  constructor
  · rintro ⟨args, ⟨type', op⟩, hold, hcell⟩
    cases op with
    | merge slot' args' =>
      rw [patchCell_merge] at hcell
      obtain ⟨rfl, hop⟩ := Prod.mk.inj hcell
      obtain ⟨rfl, -⟩ := Op.merge.inj hop
      exact ⟨args', hold⟩
    | _ =>
      rw [patchCell_eq_self g b rfl] at hcell
      cases hcell
  · rintro ⟨args, hold⟩
    exact ⟨_, _, hold, patchCell_merge g b type slot args⟩

/-- Every node is listed when it is made. -/
theorem Result.exists_listed (h : Result c frameSize g₀ g seg) {node : Node}
    (hnode : (patched g).node? id = some node) : ∃ b, id ∈ nodesOf g b := by
  by_contra hnot
  have hnot : ∀ b, id ∉ nodesOf g b := fun b hb => hnot ⟨b, hb⟩
  have hsame : (patched g).node? id = g.node? id := by
    refine node?_foldl_headPatched_of_not_mem (fun b hb => ?_) fun b _ => hnot b
    rw [h.nodesOf_eq ((h.mem_order b).1 hb)]
    exact List.nodup_range'
  have hlt : id < g.nodes.size := (Array.getElem?_eq_some_iff.1 (hsame.symm.trans hnode)).1
  obtain ⟨b, hb, hle, hstop⟩ := h.construction.covered id hlt
  refine hnot b ?_
  rw [h.nodesOf_eq ((h.mem_order b).1 hb)]
  exact List.mem_range'_1.2 ⟨hle, hstop⟩

/-- The merges that were made for a block are among the nodes in front of its others. -/
theorem Result.isMerge_iff (h : Result c frameSize g₀ g seg)
    (hform : Form c frameSize (patched g) fun b => patchSegment g b (seg b)) :
    IsMerge (patched g) b slot id args ↔ g.hasBlock b = true ∧ ∃ j type, id = (seg b).first + j ∧
      (patchSegment g b (seg b)).heads[j]? = some (type, .merge slot args) := by
  constructor
  · rintro ⟨type, hnode⟩
    obtain ⟨b', hlisted⟩ := h.exists_listed hnode
    rw [← nodesOf_patched] at hlisted
    obtain rfl : b = b' := hform.block_of_mem_nodesOf hlisted hnode
    have hb := Form.hasBlock_of_mem_nodesOf hlisted
    have hmerge : id ∈ (patched g).mergesOf b := mem_mergesOf.2 ⟨hlisted, by rw [isSome_merge?_iff hnode]; rfl⟩
    obtain ⟨j, type', slot', args', rfl, hj⟩ := (hform.mem_mergesOf_iff hb).1 hmerge
    cases hnode.symm.trans (hform.table hb (Segment.getElem?_cells hj))
    exact ⟨hasBlock_patched g b ▸ hb, j, _, rfl, hj⟩
  · rintro ⟨hb, j, type, rfl, hj⟩
    exact ⟨type, hform.table (hasBlock_patched g b ▸ hb) (Segment.getElem?_cells hj)⟩

/-- At both ends of an edge there are the same slots. -/
theorem Form.isSome_exit_iff (hform : Form c frameSize g seg) (hloss : Lossless frameSize g seg) {p : BlockId}
    (hp : p ∈ g.preds b) :
    ((g.exitOf p).slot? slot).isSome = true ↔ ((seg b).enter.slot? slot).isSome = true := by
  obtain ⟨hpb, hb, -, -⟩ := edge_facts hform.linked hform.entry_not_mem hp
  rw [hform.exitOf_eq hpb, Frame.isSome_slot?_iff, Frame.isSome_slot?_iff, hloss.depth_eq hp,
    (hloss.size_locals hpb).2, (hloss.size_locals hb).1]

/-- Merges of a block take what its predecessors leave. -/
theorem Result.args_eq (h : Result c frameSize g₀ g seg)
    (hform : Form c frameSize (patched g) fun b => patchSegment g b (seg b))
    (hmerge : IsMerge (patched g) b slot id args) :
    args.map some = (g.preds b).map fun p => (g.exitOf p).slot? slot := by
  obtain ⟨hb, j, type, hid, hj⟩ := (h.isMerge_iff hform).1 hmerge
  have hmem : id ∈ (patched g).mergesOf b :=
    (hform.mem_mergesOf_iff (hasBlock_patched g b ▸ hb)).2 ⟨j, type, slot, args, hid, hj⟩
  obtain ⟨type', hnode⟩ := hmerge
  have hmerge? : (patched g).merge? id = some (slot, args) := by
    rw [Graph.merge?, hnode]
    rfl
  have hargs := hform.args_eq hmem hmerge?
  simpa only [preds_patched, exitOf_patched] using hargs

/-- The frame where several blocks meet. -/
theorem Result.exists_joins (h : Result c frameSize g₀ g seg)
    (hform : Form c frameSize (patched g) fun b => patchSegment g b (seg b)) (hlen : 2 ≤ (g.preds b).length) :
    g.hasBlock b = true ∧ ∃ front,
      Joins (g.isHeadAt b) (sourcesOf g front (g.preds b)) frameSize (seg b).first (seg b).heads (seg b).enter := by
  obtain ⟨p, hp⟩ := List.exists_mem_of_length_pos (Nat.lt_of_lt_of_le Nat.zero_lt_two hlen)
  rw [← preds_patched] at hp
  obtain ⟨-, hb, -, hne⟩ := edge_facts hform.linked hform.entry_not_mem hp
  rw [hasBlock_patched] at hb
  obtain ⟨front, rest, hsplit⟩ := h.split hb
  have henters := (h.construction.built hsplit).enters
  generalize (seg b).heads = heads, (seg b).enter = enter, (seg b).first = n at henters ⊢
  cases henters with
  | entry he => exact absurd he hne
  | single _ hpreds _ =>
    rw [hpreds, List.length_singleton] at hlen
    omega
  | join _ _ hjoin => exact ⟨hb, front, hjoin⟩

/-- A slot at the start of a block where several meet has a merge, or all of them leave the same node in it. -/
theorem Result.agreed_or_merge (h : Result c frameSize g₀ g seg)
    (hform : Form c frameSize (patched g) fun b => patchSegment g b (seg b)) (hlen : 2 ≤ (g.preds b).length)
    (hslot : ((seg b).enter.slot? slot).isSome = true) :
    (g.isHeadAt b = false ∧ ∃ a, ∀ p ∈ g.preds b, (g.exitOf p).slot? slot = some a) ∨
      ∃ id args, IsMerge (patched g) b slot id args := by
  obtain ⟨hb, front, hjoins⟩ := h.exists_joins hform hlen
  obtain ⟨id, hid⟩ := Option.isSome_iff_exists.1 hslot
  rcases hjoins.agreed_or_merge hid with ⟨hhead, hagreed⟩ | ⟨j, type, args, rfl, hj⟩
  · exact Or.inl ⟨hhead, id, hagreed⟩
  · obtain ⟨args', hj'⟩ := exists_merge_patchSegment.2 ⟨args, hj⟩
    exact Or.inr ⟨_, args', (h.isMerge_iff hform).2 ⟨hb, j, type, rfl, hj'⟩⟩

/-- A block with merges has several predecessors. -/
theorem Result.two_le_of_isMerge (h : Result c frameSize g₀ g seg)
    (hform : Form c frameSize (patched g) fun b => patchSegment g b (seg b))
    (hmerge : IsMerge (patched g) b slot id args) : 2 ≤ (g.preds b).length := by
  obtain ⟨hb, j, type, -, hj⟩ := (h.isMerge_iff hform).1 hmerge
  obtain ⟨args', hj⟩ := exists_merge_patchSegment.1 ⟨args, hj⟩
  obtain ⟨front, rest, hsplit⟩ := h.split hb
  have henters := (h.construction.built hsplit).enters
  generalize (seg b).heads = heads, (seg b).enter = enter, (seg b).first = n at henters hj
  cases henters with
  | entry => cases isMerge_seedCells _ _ _ (List.mem_of_getElem? hj)
  | single => cases hj
  | join _ hlen _ => exact hlen

/-- Where no loop is headed, a merge was made because two predecessors do not leave the same node. -/
theorem Result.exists_ne (h : Result c frameSize g₀ g seg)
    (hform : Form c frameSize (patched g) fun b => patchSegment g b (seg b)) (hhead : g.isHeadAt b = false)
    (hmerge : IsMerge (patched g) b slot id args) :
    ∃ p ∈ g.preds b, ∃ q ∈ g.preds b, (g.exitOf p).slot? slot ≠ (g.exitOf q).slot? slot := by
  obtain ⟨hb, front, hjoins⟩ := h.exists_joins hform (h.two_le_of_isMerge hform hmerge)
  rw [hhead] at hjoins
  obtain ⟨-, j, type, -, hj⟩ := (h.isMerge_iff hform).1 hmerge
  obtain ⟨args', hj⟩ := exists_merge_patchSegment.1 ⟨args, hj⟩
  refine hjoins.exists_ne hj fun p hp => ?_
  have hmem : (g.exitOf p).slot? slot ∈ args.map some := h.args_eq hform hmerge ▸ List.mem_map_of_mem hp
  obtain ⟨a, -, ha⟩ := List.mem_map.1 hmem
  rw [← ha]
  rfl

/-- The merges that the passes make are the ones that are needed. -/
theorem mergesFit_patched (h : Result c frameSize g₀ g seg)
    (hform : Form c frameSize (patched g) fun b => patchSegment g b (seg b))
    (hloss : Lossless frameSize (patched g) fun b => patchSegment g b (seg b))
    (hheads : ∀ b, g.isHeadAt b = true → 2 ≤ (g.preds b).length) : MergesFit frameSize (patched g) := by
  constructor
  case args_eq =>
    intro b slot id args hmerge
    simp only [preds_patched, exitOf_patched]
    exact h.args_eq hform hmerge
  case unique =>
    intro b slot id id' args args' hmerge hmerge'
    obtain ⟨hb, j, type, rfl, hj⟩ := (h.isMerge_iff hform).1 hmerge
    obtain ⟨-, j', type', rfl, hj'⟩ := (h.isMerge_iff hform).1 hmerge'
    -- Both stand in the slot at the start of the block.
    have hne : b ≠ Graph.entry := by
      rintro rfl
      cases isMerge_seedCells _ _ _ (hform.entry_heads ▸ List.mem_of_getElem? hj)
    obtain ⟨_, _, _, hcell, hslot, -⟩ := hform.heads (hasBlock_patched g b ▸ hb) hne hj
    obtain ⟨_, _, _, hcell', hslot', -⟩ := hform.heads (hasBlock_patched g b ▸ hb) hne hj'
    cases hcell
    cases hcell'
    exact Option.some.inj (hslot.symm.trans hslot')
  case joins =>
    intro b slot id args hmerge
    rw [preds_patched]
    exact h.two_le_of_isMerge hform hmerge
  case heads =>
    intro b hhead
    rw [isHeadAt_patched] at hhead
    have hlen := hheads b hhead
    refine ⟨by rwa [preds_patched], (seg b).enter.depth, fun p hp => ?_, fun slot hslot => ?_⟩
    · rw [hform.exitOf_eq (edge_facts hform.linked hform.entry_not_mem hp).1]
      exact hloss.depth_eq hp
    · obtain ⟨hb, -⟩ := h.exists_joins hform hlen
      rw [← (hloss.size_locals (hasBlock_patched g b ▸ hb)).1] at hslot
      rcases h.agreed_or_merge hform hlen (Frame.isSome_slot?_iff.2 hslot) with ⟨hnot, -⟩ | hmerge
      · cases hhead.symm.trans hnot
      · exact hmerge
  case differ =>
    intro b hhead hlen slot
    rw [isHeadAt_patched] at hhead
    simp only [exitOf_patched]
    constructor
    · rintro ⟨id, args, hmerge⟩
      rw [preds_patched]
      exact h.exists_ne hform hhead hmerge
    · rintro ⟨p, hp, q, hq, hne⟩
      have hslot : ((seg b).enter.slot? slot).isSome = true := by
        by_contra hnot
        have hnone : ∀ k ∈ (patched g).preds b, (g.exitOf k).slot? slot = none := fun k hk => by
          rw [← Option.not_isSome_iff_eq_none, ← exitOf_patched, hform.isSome_exit_iff hloss hk]
          exact hnot
        exact hne ((hnone p hp).trans (hnone q hq).symm)
      rw [preds_patched] at hlen hp hq
      rcases h.agreed_or_merge hform hlen hslot with ⟨-, a, ha⟩ | hmerge
      · exact absurd ((ha p hp).trans (ha q hq).symm) hne
      · exact hmerge

end Patched

/-- Eliding merges leaves them in the table of nodes as they are. -/
theorem MergesFit.of_elided {frameSize : Nat} {g g' : Graph} (h : MergesFit frameSize g) (he : Elided g g') :
    MergesFit frameSize g' := by
  have hmerge : ∀ b slot id args, IsMerge g' b slot id args ↔ IsMerge g b slot id args := by
    intro b slot id args
    rw [IsMerge, he.node?_eq, IsMerge]
  have hexit : ∀ b, g'.exitOf b = g.exitOf b := by
    intro b
    rw [Graph.exitOf, he.block?_eq, Option.map_map]
    rfl
  have hhead : ∀ b, g'.isHeadAt b = g.isHeadAt b := by
    intro b
    rw [Graph.isHeadAt, he.block?_eq, Option.map_map]
    rfl
  constructor
  case args_eq =>
    simp only [hmerge, hexit, he.preds_eq]
    exact h.args_eq
  case unique =>
    simp only [hmerge]
    exact h.unique
  case joins =>
    simp only [hmerge, he.preds_eq]
    exact h.joins
  case heads =>
    simp only [hmerge, hexit, hhead, he.preds_eq]
    exact h.heads
  case differ =>
    simp only [hmerge, hexit, hhead, he.preds_eq]
    exact h.differ

end Ssa

end Destack
