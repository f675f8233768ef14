import Destack.Proofs.Ssa.Construction
import Destack.Ssa.Merge

/-!
# What the clean-up of merges looks up

The clean-up looks up the blocks of the order, their predecessors and all nodes that they list. Where it finds them, its
steps are functions of the graph (`Merge.headPatched`, `Merge.blockElided`), which the other proofs are about. It finds
them in every graph whose blocks list nodes of the graph (`Furnished`), and no step spoils such a graph
(`cleanMerges_eq`).
-/

namespace Destack

variable {g g' : Graph} {b : BlockId} {id : NodeId}

namespace Ssa

/-- Nodes listed in a block. -/
def nodesOf (g : Graph) (b : BlockId) : List NodeId :=
  ((g.block? b).map (·.nodes.toList)).getD []

theorem nodesOf_eq {block : Block} (h : g.block? b = some block) : nodesOf g b = block.nodes.toList := by
  rw [nodesOf, h, Option.map_some, Option.getD_some]

end Ssa

theorem Graph.mergesOf_eq_filter (g : Graph) (b : BlockId) :
    g.mergesOf b = (Ssa.nodesOf g b).filter fun id => (g.merge? id).isSome := by
  rw [mergesOf, Ssa.nodesOf]
  cases g.block? b <;> rfl

namespace Ssa

/-- The exit frames of the predecessors of a block. -/
def exitsInto (g : Graph) (b : BlockId) : List Frame :=
  (g.preds b).map g.exitOf

theorem mem_mergesOf : id ∈ g.mergesOf b ↔ id ∈ nodesOf g b ∧ (g.merge? id).isSome = true := by
  rw [Graph.mergesOf_eq_filter, List.mem_filter]

theorem isSome_merge?_iff {node : Node} (h : g.node? id = some node) : (g.merge? id).isSome = node.op.isMerge := by
  simp only [Graph.merge?, h, Option.bind_some]
  cases node.op <;> rfl

theorem getNode_eq_ok {node : Node} : g.getNode id = .ok node ↔ g.node? id = some node := by
  unfold Graph.getNode
  cases g.node? id <;> simp

/-- Listed merges, from nodes that were looked up. -/
theorem filter_merges {ids : List NodeId} {nodes : List (NodeId × Node)}
    (h : (ids.mapM fun id => do return (id, ← g.getNode id)) = .ok nodes) :
    (nodes.filter (·.2.op.isMerge)).map (·.1) = ids.filter fun id => (g.merge? id).isSome := by
  induction ids generalizing nodes with
  | nil =>
    rw [List.mapM_nil, except_pure_eq_ok] at h
    subst h
    rfl
  | cons id ids ih =>
    rw [List.mapM_cons] at h
    obtain ⟨entry, hentry, h⟩ := except_bind_eq_ok.1 h
    obtain ⟨rest, hrest, h⟩ := except_bind_eq_ok.1 h
    obtain ⟨node, hnode, hentry⟩ := except_bind_eq_ok.1 hentry
    have hmerge := isSome_merge?_iff (getNode_eq_ok.1 hnode)
    rw [← except_pure_eq_ok.1 h, ← except_pure_eq_ok.1 hentry, List.filter_cons, List.filter_cons, hmerge, ← ih hrest]
    dsimp only
    split <;> rfl

theorem getMerges_eq_ok {ids : List NodeId} (h : g.getMerges b = .ok ids) : ids = g.mergesOf b := by
  unfold Graph.getMerges at h
  obtain ⟨block, hb, h⟩ := except_bind_eq_ok.1 h
  obtain ⟨nodes, hnodes, h⟩ := except_bind_eq_ok.1 h
  rw [← except_pure_eq_ok.1 h, filter_merges hnodes, Graph.mergesOf, Graph.getBlock_eq_ok.1 hb]

/-- The merges of a block are found if the block and the nodes that it lists are there. -/
theorem getMerges_eq (hb : g.hasBlock b = true) (hnodes : ∀ id ∈ nodesOf g b, ∃ node, g.node? id = some node) :
    g.getMerges b = .ok (g.mergesOf b) := by
  obtain ⟨block, hget, hblock⟩ := Graph.exists_getBlock hb
  suffices h : ∃ ids, g.getMerges b = .ok ids by
    obtain ⟨ids, h⟩ := h
    rw [h, getMerges_eq_ok h]
  rw [nodesOf_eq hblock] at hnodes
  have hfound : ∀ id ∈ block.nodes.toList, (do return (id, ← g.getNode id) : Except Error (NodeId × Node)) =
      .ok (id, (g.node? id).getD ⟨0, .void, .nullConst⟩) := by
    intro id hid
    obtain ⟨node, hnode⟩ := hnodes id hid
    rw [getNode_eq_ok.2 hnode, hnode]
    rfl
  exact ⟨_, except_bind_eq_ok.2 ⟨block, hget, except_bind_eq_ok.2 ⟨_, mapM_eq_ok_map hfound, rfl⟩⟩⟩

/-! ## Steps where everything is there -/

namespace Merge

/-- What patching does to the merges of a block. -/
def headPatched (acc : Nat × Graph) (b : BlockId) : Nat × Graph :=
  if acc.2.isHeadAt b then (acc.2.mergesOf b).foldl (patchMerge (exitsInto acc.2 b)) acc else acc

/-- What a round does to a block. -/
def blockElided (r : Round) (b : BlockId) : Round :=
  let (gone, g) := (r.work.graph.mergesOf b).foldl redirect ([], r.work.graph)
  let goneSet := Std.TreeSet.ofList gone
  { elided := r.elided + gone.length
    work := {
      graph := g.modifyBlock b fun block => { block with nodes := block.nodes.filter (!goneSet.contains ·) }
      stats := r.work.stats.addMergesElided gone.length } }

/-- What a round does. -/
def onceElided (w : Work) : Round :=
  w.graph.order.foldl blockElided ⟨0, w⟩

/-- What a number of rounds do, up to the first that takes nothing away. -/
def allElided : Nat → Work → Round
  | 0, w => ⟨0, w⟩
  | fuel + 1, w =>
    let round := onceElided w
    if round.elided = 0 then round
    else
      let rest := allElided fuel round.work
      { rest with elided := round.elided + rest.elided }

theorem patchHead_eq_ok {acc acc' : Nat × Graph} (h : patchHead acc b = .ok acc') : acc' = headPatched acc b := by
  unfold patchHead at h
  obtain ⟨block, hget, h⟩ := except_bind_eq_ok.1 h
  have hb := Graph.getBlock_eq_ok.1 hget
  have hhead : acc.2.isHeadAt b = block.isHead := by rw [Graph.isHeadAt, hb, Option.map_some, Option.getD_some]
  unfold headPatched
  rw [hhead]
  split at h
  · next hisHead =>
    rw [if_pos hisHead]
    obtain ⟨exits, hexits, h⟩ := except_bind_eq_ok.1 h
    obtain ⟨ids, hids, h⟩ := except_bind_eq_ok.1 h
    have hexitsInto : exits = exitsInto acc.2 b := by
      rw [exitsInto, Graph.preds_eq hb]
      refine eq_map_of_mapM_eq_ok (fun p exit hp => ?_) hexits
      obtain ⟨pred, hget, hp⟩ := except_bind_eq_ok.1 hp
      rw [Graph.exitOf, Graph.getBlock_eq_ok.1 hget]
      exact (except_pure_eq_ok.1 hp).symm
    rw [← except_pure_eq_ok.1 h, getMerges_eq_ok hids, hexitsInto]
  · next hisHead =>
    rw [if_neg hisHead]
    exact (except_pure_eq_ok.1 h).symm

theorem elideBlock_eq_ok {r r' : Round} (h : elideBlock r b = .ok r') : r' = blockElided r b := by
  unfold elideBlock at h
  obtain ⟨ids, hids, h⟩ := except_bind_eq_ok.1 h
  obtain ⟨graph, hgraph, h⟩ := except_bind_eq_ok.1 h
  obtain ⟨-, rfl⟩ := Graph.editBlock_eq_ok.1 hgraph
  rw [← except_pure_eq_ok.1 h, getMerges_eq_ok hids]
  rfl

theorem elideOnce_eq_ok {w : Work} {r : Round} (h : elideOnce w = .ok r) : r = onceElided w :=
  eq_foldl_of_foldlM_eq_ok (fun _ _ _ => elideBlock_eq_ok) h

theorem elideAll_eq_ok {fuel : Nat} {w : Work} {r : Round} (h : elideAll fuel w = .ok r) : r = allElided fuel w := by
  induction fuel generalizing w r with
  | zero => exact (except_pure_eq_ok.1 h).symm
  | succ fuel ih =>
    unfold elideAll at h
    obtain ⟨round, hround, h⟩ := except_bind_eq_ok.1 h
    obtain rfl := elideOnce_eq_ok hround
    unfold allElided
    dsimp only
    split at h
    · next hzero =>
      rw [if_pos hzero]
      exact (except_pure_eq_ok.1 h).symm
    · next hsome =>
      rw [if_neg hsome]
      obtain ⟨rest, hrest, h⟩ := except_bind_eq_ok.1 h
      rw [← except_pure_eq_ok.1 h, ih hrest]

end Merge

/-- The graph with the arguments of loop heads set. -/
def patched (g : Graph) : Graph :=
  (g.order.foldl Merge.headPatched (0, g)).2

/-! ## What patching leaves alone -/

theorem patchMerge_eq (exits : List Frame) (acc : Nat × Graph) (id : NodeId) :
    (Merge.patchMerge exits acc id).2 = { acc.2 with nodes := (Merge.patchMerge exits acc id).2.nodes } := by
  unfold Merge.patchMerge
  dsimp only
  split <;> rfl

theorem foldl_patchMerge_eq (exits : List Frame) (acc : Nat × Graph) (ids : List NodeId) :
    (ids.foldl (Merge.patchMerge exits) acc).2 =
      { acc.2 with nodes := (ids.foldl (Merge.patchMerge exits) acc).2.nodes } := by
  induction ids generalizing acc with
  | nil => rfl
  | cons id ids ih =>
    rw [List.foldl_cons, ih, patchMerge_eq]

theorem headPatched_eq (acc : Nat × Graph) (b : BlockId) :
    (Merge.headPatched acc b).2 = { acc.2 with nodes := (Merge.headPatched acc b).2.nodes } := by
  unfold Merge.headPatched
  split
  · rw [foldl_patchMerge_eq]
  · rfl

theorem foldl_headPatched_eq (acc : Nat × Graph) (bs : List BlockId) :
    (bs.foldl Merge.headPatched acc).2 = { acc.2 with nodes := (bs.foldl Merge.headPatched acc).2.nodes } := by
  induction bs generalizing acc with
  | nil => rfl
  | cons b bs ih => rw [List.foldl_cons, ih, headPatched_eq]

theorem patched_eq (g : Graph) : patched g = { g with nodes := (patched g).nodes } :=
  foldl_headPatched_eq (0, g) g.order

theorem size_patchMerge (exits : List Frame) (acc : Nat × Graph) (id : NodeId) :
    (Merge.patchMerge exits acc id).2.nodes.size = acc.2.nodes.size := by
  unfold Merge.patchMerge
  dsimp only
  split
  · exact Array.size_modify
  · rfl

theorem size_headPatched (acc : Nat × Graph) (b : BlockId) :
    (Merge.headPatched acc b).2.nodes.size = acc.2.nodes.size := by
  have hfold : ∀ (exits : List Frame) (acc : Nat × Graph) (ids : List NodeId),
      (ids.foldl (Merge.patchMerge exits) acc).2.nodes.size = acc.2.nodes.size := by
    intro exits acc ids
    induction ids generalizing acc with
    | nil => rfl
    | cons id ids ih => rw [List.foldl_cons, ih, size_patchMerge]
  unfold Merge.headPatched
  split
  · exact hfold _ _ _
  · rfl

theorem size_patched (g : Graph) : (patched g).nodes.size = g.nodes.size := by
  have hfold : ∀ (acc : Nat × Graph) (bs : List BlockId),
      (bs.foldl Merge.headPatched acc).2.nodes.size = acc.2.nodes.size := by
    intro acc bs
    induction bs generalizing acc with
    | nil => rfl
    | cons b bs ih => rw [List.foldl_cons, ih, size_headPatched]
  exact hfold (0, g) g.order

/-- All rounds of a clean-up, from the patched graph on. -/
def rounds (w : Work) : Merge.Round :=
  Merge.allElided ((patched w.graph).nodes.size + 1) { w with graph := patched w.graph }

theorem cleanMerges_eq_ok {w w' : Work} {summary : MergeSummary} (h : cleanMerges w = .ok summary w') :
    w.graph.validate = .ok () ∧ summary.patched = (w.graph.order.foldl Merge.headPatched (0, w.graph)).1 ∧
      summary.elided = (rounds w).elided ∧ w' = (rounds w).work := by
  simp only [cleanMerges, Pass.bind_eq_ok, Pass.get_eq_ok, Pass.lift_eq_ok, Pass.set_eq_ok, Pass.pure_eq_ok] at h
  obtain ⟨_, _, ⟨rfl, rfl⟩, ⟨⟩, _, ⟨hvalid, rfl⟩, _, _, ⟨rfl, rfl⟩, acc, _, ⟨hpatch, rfl⟩, r, _,
    ⟨helide, rfl⟩, _, _, rfl, rfl, rfl⟩ := h
  obtain rfl := eq_foldl_of_foldlM_eq_ok (fun _ _ _ => Merge.patchHead_eq_ok) hpatch
  obtain rfl := Merge.elideAll_eq_ok helide
  exact ⟨hvalid, rfl, rfl, rfl⟩

/-! ## Graphs in which everything is there -/

/-- The blocks of the order, the predecessors of blocks and the nodes that blocks list are there. -/
structure Furnished (g : Graph) : Prop where
  ordered : ∀ b ∈ g.order, g.hasBlock b = true
  pred : ∀ {b p : BlockId}, p ∈ g.preds b → g.hasBlock p = true
  node_lt : ∀ {b : BlockId} {id : NodeId}, id ∈ nodesOf g b → id < g.nodes.size

namespace Furnished

/-- Nothing is lost as long as blocks and nodes stay, and lists of nodes get no longer. -/
theorem congr (h : Furnished g) (horder : g'.order = g.order) (hhas : ∀ b, g'.hasBlock b = g.hasBlock b)
    (hpreds : ∀ b, g'.preds b = g.preds b) (hnodes : ∀ b, nodesOf g' b ⊆ nodesOf g b)
    (hsize : g'.nodes.size = g.nodes.size) : Furnished g' := by
  refine ⟨fun b hb => ?_, fun {b p} hp => ?_, fun {b id} hid => ?_⟩
  · rw [hhas]
    exact h.ordered b (horder ▸ hb)
  · rw [hhas]
    exact h.pred (hpreds b ▸ hp)
  · rw [hsize]
    exact h.node_lt (hnodes b hid)

theorem with_nodes (h : Furnished g) {nodes : Array Node} (hsize : nodes.size = g.nodes.size) :
    Furnished { g with nodes } :=
  h.congr rfl (fun _ => rfl) (fun _ => rfl) (fun _ => List.Subset.refl _) hsize

theorem getMerges_eq (h : Furnished g) (hb : g.hasBlock b = true) : g.getMerges b = .ok (g.mergesOf b) :=
  Ssa.getMerges_eq hb fun _ hid => ⟨_, Array.getElem?_eq_getElem (h.node_lt hid)⟩

theorem headPatched {acc : Nat × Graph} (h : Furnished acc.2) (b : BlockId) :
    Furnished (Merge.headPatched acc b).2 ∧ ∀ k, (Merge.headPatched acc b).2.hasBlock k = acc.2.hasBlock k := by
  have hsize := size_headPatched acc b
  rw [headPatched_eq]
  exact ⟨h.with_nodes hsize, fun _ => rfl⟩

theorem of_patched (h : Furnished (patched g)) : Furnished g := by
  have hg : g = { patched g with nodes := g.nodes } := by rw [patched_eq]
  rw [hg]
  exact h.with_nodes (size_patched g).symm

theorem patchHead_eq {acc : Nat × Graph} (h : Furnished acc.2) (hb : acc.2.hasBlock b = true) :
    Merge.patchHead acc b = .ok (Merge.headPatched acc b) := by
  obtain ⟨block, hget, hblock⟩ := Graph.exists_getBlock hb
  suffices hok : ∃ acc', Merge.patchHead acc b = .ok acc' by
    obtain ⟨acc', hok⟩ := hok
    rw [hok, Merge.patchHead_eq_ok hok]
  have hexits : ∀ p ∈ block.preds, (do return (← acc.2.getBlock p).exit : Except Error Frame) =
      .ok (acc.2.exitOf p) := by
    intro p hp
    obtain ⟨pred, hget, hpred⟩ := Graph.exists_getBlock (h.pred (b := b) (by rwa [Graph.preds_eq hblock]))
    rw [hget, Graph.exitOf, hpred]
    rfl
  by_cases hhead : block.isHead = true
  · refine ⟨(acc.2.mergesOf b).foldl (Merge.patchMerge (block.preds.map acc.2.exitOf)) acc, ?_⟩
    refine except_bind_eq_ok.2 ⟨block, hget, (if_pos hhead).trans ?_⟩
    exact except_bind_eq_ok.2 ⟨_, mapM_eq_ok_map hexits, except_bind_eq_ok.2 ⟨_, h.getMerges_eq hb, rfl⟩⟩
  · exact ⟨acc, except_bind_eq_ok.2 ⟨block, hget, if_neg hhead⟩⟩

theorem redirect {acc : List NodeId × Graph} (h : Furnished acc.2) (id : NodeId) :
    Furnished (Merge.redirect acc id).2 ∧ ∀ b, (Merge.redirect acc id).2.hasBlock b = acc.2.hasBlock b := by
  unfold Merge.redirect
  dsimp only
  split
  · exact ⟨⟨h.ordered, h.pred, h.node_lt⟩, fun _ => rfl⟩
  · exact ⟨h, fun _ => rfl⟩

theorem foldl_redirect (acc : List NodeId × Graph) (h : Furnished acc.2) (ids : List NodeId) :
    Furnished (ids.foldl Merge.redirect acc).2 ∧
      ∀ b, (ids.foldl Merge.redirect acc).2.hasBlock b = acc.2.hasBlock b := by
  induction ids generalizing acc with
  | nil => exact ⟨h, fun _ => rfl⟩
  | cons id ids ih =>
    obtain ⟨hone, hhas⟩ := h.redirect id
    obtain ⟨hrest, hhas'⟩ := ih _ hone
    exact ⟨hrest, fun b => (hhas' b).trans (hhas b)⟩

/-- A list of nodes that gets shorter spoils nothing. -/
theorem filter (h : Furnished g) (b : BlockId) (keep : NodeId → Bool) :
    Furnished (g.modifyBlock b fun block => { block with nodes := block.nodes.filter keep }) := by
  refine h.congr rfl (fun k => g.hasBlock_modifyBlock b k _) (fun k => ?_) (fun k => ?_) rfl
  · unfold Graph.preds
    rw [Graph.block?_modifyBlock]
    split
    · next hk => rw [hk, Option.map_map]; rfl
    · rfl
  · unfold nodesOf
    rw [Graph.block?_modifyBlock]
    split
    · next hk =>
      subst hk
      cases g.block? k with
      | none => exact List.Subset.refl _
      | some block =>
        rw [Option.map_some, Option.map_some, Option.getD_some, Option.map_some, Option.getD_some, Array.toList_filter]
        exact List.filter_subset_self _
    · exact List.Subset.refl _

theorem elideBlock_eq {r : Merge.Round} (h : Furnished r.work.graph) (hb : r.work.graph.hasBlock b = true) :
    Merge.elideBlock r b = .ok (Merge.blockElided r b) ∧ Furnished (Merge.blockElided r b).work.graph ∧
      ∀ k, (Merge.blockElided r b).work.graph.hasBlock k = r.work.graph.hasBlock k := by
  obtain ⟨hfold, hhas⟩ := foldl_redirect ([], r.work.graph) h (r.work.graph.mergesOf b)
  refine ⟨?_, hfold.filter b _, fun k => (Graph.hasBlock_modifyBlock ..).trans (hhas k)⟩
  suffices hok : ∃ r', Merge.elideBlock r b = .ok r' by
    obtain ⟨r', hok⟩ := hok
    rw [hok, Merge.elideBlock_eq_ok hok]
  unfold Merge.elideBlock
  rw [h.getMerges_eq hb]
  dsimp only [bind, Except.bind]
  rw [Graph.editBlock_of_hasBlock _ ((hhas b).trans hb)]
  exact ⟨_, rfl⟩

theorem elideOnce_eq {w : Work} (h : Furnished w.graph) :
    Merge.elideOnce w = .ok (Merge.onceElided w) ∧ Furnished (Merge.onceElided w).work.graph := by
  obtain ⟨r, hok, hr, -⟩ := exists_foldlM_eq_ok (f := Merge.elideBlock) (l := w.graph.order)
    (fun r => Furnished r.work.graph ∧ ∀ k, r.work.graph.hasBlock k = w.graph.hasBlock k)
    (fun r b hb hr => by
      obtain ⟨hok, hnext, hhas⟩ := hr.1.elideBlock_eq ((hr.2 b).trans (h.ordered b hb))
      exact ⟨_, hok, hnext, fun k => (hhas k).trans (hr.2 k)⟩)
    (a := ⟨0, w⟩) ⟨h, fun _ => rfl⟩
  obtain rfl := Merge.elideOnce_eq_ok hok
  exact ⟨hok, hr⟩

theorem elideAll_eq {w : Work} (h : Furnished w.graph) (fuel : Nat) :
    Merge.elideAll fuel w = .ok (Merge.allElided fuel w) := by
  induction fuel generalizing w with
  | zero => rfl
  | succ fuel ih =>
    obtain ⟨hround, hnext⟩ := h.elideOnce_eq
    unfold Merge.elideAll Merge.allElided
    rw [hround]
    dsimp only [bind, Except.bind]
    split
    · rfl
    · rw [ih hnext]
      rfl

theorem foldlM_patchHead_eq (h : Furnished g) :
    g.order.foldlM Merge.patchHead (0, g) = .ok (g.order.foldl Merge.headPatched (0, g)) ∧ Furnished (patched g) := by
  obtain ⟨acc, hok, hacc, -⟩ := exists_foldlM_eq_ok (f := Merge.patchHead) (l := g.order)
    (fun acc => Furnished acc.2 ∧ ∀ k, acc.2.hasBlock k = g.hasBlock k)
    (fun acc b hb hacc => by
      obtain ⟨hnext, hhas⟩ := hacc.1.headPatched b
      exact ⟨_, hacc.1.patchHead_eq ((hacc.2 b).trans (h.ordered b hb)), hnext, fun k => (hhas k).trans (hacc.2 k)⟩)
    (a := (0, g)) ⟨h, fun _ => rfl⟩
  obtain rfl := eq_foldl_of_foldlM_eq_ok (fun _ _ _ => Merge.patchHead_eq_ok) hok
  exact ⟨hok, hacc⟩

end Furnished

/-- The clean-up of a graph in which everything is there ends well. -/
theorem cleanMerges_eq {w : Work} (hvalid : w.graph.validate = .ok ()) (h : Furnished w.graph) :
    cleanMerges w =
      .ok ⟨(w.graph.order.foldl Merge.headPatched (0, w.graph)).1, (rounds w).elided⟩ (rounds w).work := by
  obtain ⟨hpatch, hpatched⟩ := h.foldlM_patchHead_eq
  have helide := Furnished.elideAll_eq (w := { w with graph := patched w.graph }) hpatched
    ((patched w.graph).nodes.size + 1)
  refine Pass.bind_eq_ok.2 ⟨w, w, Pass.get_eq_ok.2 ⟨rfl, rfl⟩, ?_⟩
  refine Pass.bind_eq_ok.2 ⟨(), w, Pass.lift_eq_ok.2 ⟨hvalid, rfl⟩, ?_⟩
  refine Pass.bind_eq_ok.2 ⟨w, w, Pass.get_eq_ok.2 ⟨rfl, rfl⟩, ?_⟩
  refine Pass.bind_eq_ok.2 ⟨_, w, Pass.lift_eq_ok.2 ⟨hpatch, rfl⟩, ?_⟩
  refine Pass.bind_eq_ok.2 ⟨_, w, Pass.lift_eq_ok.2 ⟨helide, rfl⟩, ?_⟩
  exact Pass.bind_eq_ok.2 ⟨⟨⟩, (rounds w).work, Pass.set_eq_ok.2 rfl, Pass.pure_eq_ok.2 ⟨rfl, rfl⟩⟩

end Ssa
end Destack
