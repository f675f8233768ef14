import Destack.Proofs.Ssa.Lookups

/-!
# Patched merges

Patching changes nothing but the arguments of the merges at the heads of loops. Each argument becomes the node that
the predecessor leaves in the slot (`node?_patched`).
-/

namespace Destack.Ssa

/-- A node whose arguments were set, if it is a merge, given the exit frames of the predecessors. -/
def patchNode (exits : List Frame) (node : Node) : Node :=
  match node.op with
  | .merge slot args =>
    { node with op := .merge slot (Merge.patchArgs args (exits.map (·.slot? slot))) }
  | _ => node

theorem patchNode_eq_self {exits : List Frame} {node : Node} (h : node.op.isMerge = false) :
    patchNode exits node = node := by
  unfold patchNode
  split
  · next hop => simp [hop, Op.isMerge] at h
  · rfl

/-! ## One merge -/

theorem node?_patchMerge (exits : List Frame) (acc : Nat × Graph) (id k : NodeId) :
    (Merge.patchMerge exits acc id).2.node? k =
      if k = id then (acc.2.node? k).map (patchNode exits) else acc.2.node? k := by
  obtain ⟨count, g⟩ := acc
  unfold Merge.patchMerge
  dsimp only
  cases hmerge : g.merge? id with
  | none =>
    by_cases hk : k = id
    · subst hk
      rw [if_pos rfl]
      cases hnode : g.node? k with
      | none => simp
      | some node =>
        have hop : node.op.isMerge = false := by
          simp only [Graph.merge?, hnode, Option.bind_some] at hmerge
          cases hnop : node.op <;> simp_all [Op.merge?, Op.isMerge]
        simp [patchNode_eq_self hop]
    · simp [hk]
  | some found =>
    obtain ⟨slot, args⟩ := found
    dsimp only
    unfold Graph.node?
    rw [Array.getElem?_modify]
    by_cases hk : k = id
    · subst hk
      simp only [if_true]
      cases hnode : g.nodes[k]? with
      | none => rfl
      | some node =>
        simp only [Graph.merge?, Graph.node?, hnode, Option.bind_some] at hmerge
        simp only [Option.map_some, Option.some.injEq]
        cases hop : node.op <;> simp_all [Op.merge?, patchNode]
    · rw [if_neg fun e => hk e.symm, if_neg hk]

theorem node?_foldl_patchMerge (exits : List Frame) (acc : Nat × Graph) {ids : List NodeId} (hids : ids.Nodup)
    (k : NodeId) :
    (ids.foldl (Merge.patchMerge exits) acc).2.node? k =
      if k ∈ ids then (acc.2.node? k).map (patchNode exits) else acc.2.node? k := by
  induction ids generalizing acc with
  | nil => simp
  | cons id ids ih =>
    obtain ⟨hid, hids⟩ := List.nodup_cons.1 hids
    rw [List.foldl_cons, ih _ hids, node?_patchMerge]
    by_cases hk : k = id
    · subst hk
      simp [hid]
    · simp [hk]

/-! ## One block -/

/-- What patching does to the nodes listed in a block. -/
def patchAt (g : Graph) (b : BlockId) (node : Node) : Node :=
  if g.isHeadAt b then patchNode (exitsInto g b) node else node

theorem node?_headPatched (acc : Nat × Graph) {b : BlockId} (hnodup : (nodesOf acc.2 b).Nodup) (k : NodeId) :
    (Merge.headPatched acc b).2.node? k =
      if k ∈ nodesOf acc.2 b then (acc.2.node? k).map (patchAt acc.2 b) else acc.2.node? k := by
  obtain ⟨count, g⟩ := acc
  unfold Merge.headPatched patchAt
  dsimp only at hnodup ⊢
  cases g.isHeadAt b with
  | false => simp
  | true =>
    have hmerges : (g.mergesOf b).Nodup := by
      rw [Graph.mergesOf_eq_filter]
      exact hnodup.filter _
    simp only [if_true]
    rw [node?_foldl_patchMerge _ _ hmerges]
    by_cases hk : k ∈ nodesOf g b
    · rw [if_pos hk]
      cases hnode : g.node? k with
      | none => simp
      | some node =>
        cases hop : node.op.isMerge with
        | true => rw [if_pos (mem_mergesOf.2 ⟨hk, (isSome_merge?_iff hnode).trans hop⟩)]
        | false =>
          rw [if_neg, Option.map_some, patchNode_eq_self hop]
          rw [mem_mergesOf, isSome_merge?_iff hnode, hop]
          simp
    · rw [if_neg hk, if_neg fun h => hk (mem_mergesOf.1 h).1]

/-! ## All blocks -/

theorem nodesOf_congr {g g' : Graph} (h : g'.blocks = g.blocks) (b : BlockId) : nodesOf g' b = nodesOf g b := by
  simp only [nodesOf, Graph.block?, h]

theorem patchAt_congr {g g' : Graph} (h : g'.blocks = g.blocks) (b : BlockId) : patchAt g' b = patchAt g b := by
  have hhead : g'.isHeadAt b = g.isHeadAt b := by simp only [Graph.isHeadAt, Graph.block?, h]
  have hexit : g'.exitOf = g.exitOf := by
    funext p
    simp only [Graph.exitOf, Graph.block?, h]
  have hexits : exitsInto g' b = exitsInto g b := by simp only [exitsInto, hexit, Graph.preds, Graph.block?, h]
  funext node
  rw [patchAt, patchAt, hhead, hexits]

theorem node?_foldl_headPatched_of_not_mem {acc : Nat × Graph} {bs : List BlockId}
    (hnodup : ∀ b ∈ bs, (nodesOf acc.2 b).Nodup) {k : NodeId} (hk : ∀ b ∈ bs, k ∉ nodesOf acc.2 b) :
    (bs.foldl Merge.headPatched acc).2.node? k = acc.2.node? k := by
  induction bs generalizing acc with
  | nil => rfl
  | cons b bs ih =>
    have hblocks : (Merge.headPatched acc b).2.blocks = acc.2.blocks := by rw [headPatched_eq]
    rw [List.foldl_cons, ih, node?_headPatched acc (hnodup b List.mem_cons_self), if_neg (hk b List.mem_cons_self)]
    · intro b' hb'
      rw [nodesOf_congr hblocks]
      exact hnodup b' (List.mem_cons_of_mem b hb')
    · intro b' hb'
      rw [nodesOf_congr hblocks]
      exact hk b' (List.mem_cons_of_mem b hb')

/-- A node listed in one block only is patched with that block. -/
theorem node?_foldl_headPatched {acc : Nat × Graph} {bs : List BlockId} (hnodup : ∀ b ∈ bs, (nodesOf acc.2 b).Nodup)
    (hdisj : bs.Pairwise fun b b' => (nodesOf acc.2 b).Disjoint (nodesOf acc.2 b')) {b : BlockId} (hb : b ∈ bs)
    {k : NodeId} (hk : k ∈ nodesOf acc.2 b) :
    (bs.foldl Merge.headPatched acc).2.node? k = (acc.2.node? k).map (patchAt acc.2 b) := by
  induction bs generalizing acc with
  | nil => cases hb
  | cons b' bs ih =>
    obtain ⟨hhead, hdisj⟩ := List.pairwise_cons.1 hdisj
    have hblocks : (Merge.headPatched acc b').2.blocks = acc.2.blocks := by rw [headPatched_eq]
    have hnodup' : ∀ b ∈ bs, (nodesOf (Merge.headPatched acc b').2 b).Nodup := by
      intro b hb
      rw [nodesOf_congr hblocks]
      exact hnodup b (List.mem_cons_of_mem b' hb)
    have hone := node?_headPatched acc (hnodup b' List.mem_cons_self) k
    rw [List.foldl_cons]
    rcases List.mem_cons.1 hb with rfl | hb
    · rw [node?_foldl_headPatched_of_not_mem hnodup', hone, if_pos hk]
      intro b' hb'
      rw [nodesOf_congr hblocks]
      exact fun hin => hhead b' hb' hk hin
    · rw [ih hnodup' ?_ hb (by rw [nodesOf_congr hblocks]; exact hk), hone, if_neg, patchAt_congr hblocks]
      · exact fun hin => hhead b hb hin hk
      · simpa only [nodesOf_congr hblocks] using hdisj

theorem block?_patched (g : Graph) (b : BlockId) : (patched g).block? b = g.block? b :=
  (congrArg (fun g : Graph => g.block? b) (patched_eq g)).trans rfl

end Destack.Ssa
