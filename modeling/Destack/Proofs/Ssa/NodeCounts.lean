import Destack.Proofs.Ssa.CleanUp
import Destack.Proofs.Ssa.FixedPoint
import Destack.Proofs.Ssa.MergeSlots
import Destack.Proofs.Tally

/-!
# How many nodes there are

Every node is counted and listed in one block when it is built, and the merges that are elided later on are counted as
well. So the merges that were made are the ones that were elided and the ones that are still listed
(`Elided.aliased_add_listed`). No clean-up changes the kind of a node (`Cleans.addNodes_eq`).
-/

namespace Destack

namespace Ssa

/-- Merges that were made, listed or not. -/
def mergeCount (g : Graph) : Nat :=
  g.nodes.toList.countP (·.op.isMerge)

/-- The kinds of all nodes. -/
def kinds (g : Graph) : List String :=
  g.nodes.toList.map (·.op.kind)

/-- Merges that blocks list. -/
def listedMerges (g : Graph) : List NodeId :=
  g.blockIds.flatMap g.mergesOf

/-! ## Nodes by their numbers -/

theorem map_some_nodes (g : Graph) : g.nodes.toList.map some = (List.range g.nodes.size).map g.node? := by
  refine List.ext_getElem? fun k => ?_
  rw [List.getElem?_map, List.getElem?_map, Array.getElem?_toList]
  rcases Nat.lt_or_ge k g.nodes.size with hlt | hge
  · rw [List.getElem?_range hlt, Option.map_some, Graph.node?, Array.getElem?_eq_getElem hlt, Option.map_some]
  · rw [List.getElem?_eq_none (by rwa [List.length_range]), Array.getElem?_eq_none hge]
    rfl

theorem mergeCount_eq_countP (g : Graph) :
    mergeCount g = (List.range g.nodes.size).countP fun id => (g.merge? id).isSome := by
  have hsome : ∀ node : Option Node, (node.bind (·.op.merge?)).isSome = node.any (·.op.isMerge) := by
    rintro (_ | ⟨b, type, op⟩)
    · rfl
    · cases op <;> rfl
  calc mergeCount g = (g.nodes.toList.map some).countP (·.any (·.op.isMerge)) := by
        rw [List.countP_map]
        rfl
    _ = (List.range g.nodes.size).countP fun id => (g.node? id).any (·.op.isMerge) := by
        rw [map_some_nodes, List.countP_map]
        rfl
    _ = _ := by
        simp only [Graph.merge?, hsome]

section Listed

variable {c : Context} {frameSize : Nat} {g₀ g g' : Graph} {seg : BlockId → Segment}

/-- The blocks list every node once. -/
theorem Result.perm_listed (h : Result c frameSize g₀ g seg)
    (hform : Form c frameSize (patched g) fun b => patchSegment g b (seg b)) :
    ((patched g).blockIds.flatMap (nodesOf (patched g))).Perm (List.range (patched g).nodes.size) := by
  have hnodup : ((patched g).blockIds.flatMap (nodesOf (patched g))).Nodup := by
    refine List.nodup_flatMap.2 ⟨fun b hb => ?_, ?_⟩
    · rw [hform.nodesOf_eq (Graph.mem_blockIds.1 hb)]
      exact List.nodup_range'
    · refine (Graph.nodup_blockIds _).imp fun {a b} hne id ha hb => hne ?_
      exact hform.block_unique ha hb
  refine (List.perm_ext_iff_of_nodup hnodup List.nodup_range).2 fun id => ?_
  rw [List.mem_flatMap, List.mem_range]
  constructor
  · rintro ⟨b, -, hid⟩
    obtain ⟨j, cell, -, -, hnode⟩ := hform.exists_cell hid
    exact (Array.getElem?_eq_some_iff.1 hnode).1
  · intro hlt
    obtain ⟨b, hid⟩ := h.exists_listed (Array.getElem?_eq_getElem hlt)
    rw [← nodesOf_patched] at hid
    exact ⟨b, Graph.mem_blockIds.2 (Form.hasBlock_of_mem_nodesOf hid), hid⟩

/-- Every merge was elided or is still listed. -/
theorem Elided.aliased_add_listed (he : Elided (patched g) g') (h : Result c frameSize g₀ g seg)
    (hform : Form c frameSize (patched g) fun b => patchSegment g b (seg b)) :
    aliasedCount g' + (listedMerges g').length = mergeCount g' := by
  have hnodes : g'.nodes = (patched g).nodes := by rw [he.rest_eq]
  have hlisted : listedMerges g' = (((patched g).blockIds.flatMap (nodesOf (patched g))).filter
      fun id => !g'.isAliased id).filter fun id => (g'.merge? id).isSome := by
    rw [listedMerges, he.keeps_text.blockIds_eq, List.filter_flatMap, List.filter_flatMap]
    refine List.flatMap_congr fun b _ => ?_
    rw [Graph.mergesOf_eq_filter, he.nodesOf_eq]
  have hperm := (((h.perm_listed hform).filter fun id => !g'.isAliased id).filter
    fun id => (g'.merge? id).isSome).length_eq
  have hmerges : ∀ id ∈ (List.range g'.nodes.size).filter g'.isAliased, (g'.merge? id).isSome = true := by
    intro id hid
    obtain ⟨t, ht⟩ := isAliased_iff.1 (List.mem_filter.1 hid).2
    obtain ⟨a, b, hmerge, -⟩ := he.target ht
    rw [he.merge?_eq]
    exact (mem_mergesOf.1 hmerge).2
  rw [mergeCount_eq_countP, List.countP_eq_countP_filter_add _ _ g'.isAliased, List.countP_eq_length.2 hmerges,
    aliasedCount, List.countP_eq_length_filter, hlisted, hperm, hnodes, List.countP_eq_length_filter]

end Listed

/-! ## Kinds of nodes -/

theorem kind_skeleton (node : Node) : node.skeleton.2.2.1.kind = node.op.kind := by
  unfold Node.skeleton
  split
  · next hop => rw [hop]; rfl
  · rfl

theorem isMerge_skeleton (node : Node) : node.skeleton.2.2.1.isMerge = node.op.isMerge := by
  unfold Node.skeleton
  split
  · next hop => rw [hop]; rfl
  · rfl

/-- What the skeleton of a node tells about its operation is kept. -/
theorem Cleans.map_op_eq {α : Type} {f : Op → α} (hf : ∀ node : Node, f node.skeleton.2.2.1 = f node.op) {w w' : Work}
    (h : Cleans w w') : w'.graph.nodes.toList.map (fun node => f node.op) =
      w.graph.nodes.toList.map fun node => f node.op := by
  refine List.ext_getElem? fun k => ?_
  have hnode := congrArg (Option.map fun skeleton => f skeleton.2.2.1) (h.node?_eq k)
  rw [Option.map_map, Option.map_map] at hnode
  simp only [Function.comp_def, hf] at hnode
  rw [List.getElem?_map, List.getElem?_map, Array.getElem?_toList, Array.getElem?_toList]
  exact hnode

end Ssa

/-- Counts all nodes of a graph. -/
def Statistics.addNodes (s : Statistics) (g : Graph) : Statistics :=
  { s with
    nodes := s.nodes + g.nodes.size
    nodeKinds := s.nodeKinds.bumpAll (Ssa.kinds g)
    mergesCreated := s.mergesCreated + Ssa.mergeCount g }

theorem Statistics.addOps_nodes (s : Statistics) (g : Graph) :
    s.addOps (g.nodes.toList.map (·.op)) = s.addNodes g := by
  rw [addOps_eq, List.length_map, List.map_map, List.countP_map]
  rfl

namespace Ssa

/-- All nodes are counted when they are built. -/
theorem Extends.stats_eq {w w' : Work} (h : Extends w w') (hfresh : w.graph.nodes = #[]) :
    w'.stats = w.stats.addNodes w'.graph := by
  obtain ⟨new, hnodes, hstats, -⟩ := h.exists_nodes
  have hnew : w'.graph.nodes.toList = new := by
    rw [hnodes, hfresh, List.nil_append]
  rw [← Statistics.addOps_nodes, hnew]
  exact hstats

theorem Cleans.addNodes_eq {w w' : Work} (h : Cleans w w') (s : Statistics) :
    s.addNodes w'.graph = s.addNodes w.graph := by
  have hkinds : kinds w'.graph = kinds w.graph := h.map_op_eq kind_skeleton
  have hlength : ∀ g : Graph, (kinds g).length = g.nodes.size := by
    intro g
    rw [kinds, List.length_map, Array.length_toList]
  have hsize : w'.graph.nodes.size = w.graph.nodes.size := by
    rw [← hlength, hkinds, hlength]
  have hmerges := congrArg (List.countP id) (h.map_op_eq isMerge_skeleton)
  rw [List.countP_map, List.countP_map] at hmerges
  rw [Statistics.addNodes, hkinds, hsize]
  exact congrArg (fun count => { s.addNodes w.graph with mergesCreated := s.mergesCreated + count }) hmerges

/-- Merges that are elided are counted. -/
theorem Prepared.stats_cleaned {c : Context} {frameSize : Nat} {code : List Instruction} {addr : BlockId → Nat}
    {seg : BlockId → Segment} {w w' : Work} {summary : MergeSummary}
    (h : Prepared c frameSize code addr (patched w.graph) seg) (hclean : cleanMerges w = .ok summary w') :
    w'.stats = w.stats.addMergesElided (aliasedCount w'.graph) := by
  rw [cleanMerges_eq h.validate h.furnished] at hclean
  cases hclean
  have hcounted : Counted { w with graph := patched w.graph } (rounds w) :=
    counted_allElided h.form h.entry (.of_aliases_eq h.aliases_eq)
  have hsize : aliasedCount (rounds w).work.graph = (rounds w).elided := by
    rw [← (elided_rounds h).size_aliases_eq h.form, hcounted.size_aliases]
    change (patched w.graph).aliases.size + _ = _
    rw [h.aliases_eq, Std.TreeMap.size_emptyc, Nat.zero_add]
  rw [hsize]
  exact hcounted.stats_eq

end Ssa

end Destack
