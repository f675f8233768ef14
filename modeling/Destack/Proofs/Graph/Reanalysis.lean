import Destack.Proofs.Graph.LoopHeads

/-!
# Analysing a graph again

A second analysis finds what the first one found. It starts from a smaller graph, with the marks of the first analysis
still on it, but neither traversal can tell: the search for loops sees only blocks that are left and writes every mark
that it reads (`Tracks`), so it takes the very same way, and then there is nothing to prune and the dominator walk
starts from the same blocks (`Renumbers`). Only the number of the next loop is not set back, so that loops get numbers
above those of the first analysis.
-/

namespace Destack.Graph

variable {g₀ g g' : Graph} {b : BlockId}

/-- A block with the number of its loop raised. -/
def renumbered (k : Nat) (block : Block) : Block :=
  { block with loopIndex := block.loopIndex.map (· + k) }

theorem block?_modifyBlock_map {change f f' : Block → Block} {c : BlockId} (h : g'.block? c = (g.block? c).map change)
    (hcomm : ∀ block, f' (change block) = change (f block)) :
    (g'.modifyBlock b f').block? c = ((g.modifyBlock b f).block? c).map change := by
  rw [block?_modifyBlock, block?_modifyBlock]
  split
  · next hcb =>
    rw [← hcb, h, Option.map_map, Option.map_map]
    exact congrArg (fun f => (g.block? c).map f) (funext hcomm)
  · exact h

/-! ## The search for loops -/

/-- A block with the number of its loop raised, and with the marks of another one that the search does not touch. -/
def relabeled (k : Nat) (old block : Block) : Block :=
  { renumbered k block with preds := old.preds, dominator := old.dominator, awaited := old.awaited }

/-- The second graph is the first one on the blocks that paths lead to, but for numbers of loops and for marks that
the search does not touch. -/
structure Tracks (g₀ : Graph) (k : Nat) (old : BlockId → Block) (g g' : Graph) : Prop where
  sameText : SameText g₀ g
  loops_eq : g'.loops = g.loops + k
  block?_eq : ∀ {b : BlockId}, g₀.Reaches b → g'.block? b = (g.block? b).map (relabeled k (old b))

namespace Tracks

variable {k : Nat} {old : BlockId → Block}

theorem setLoops (h : Tracks g₀ k old g g') (n : Nat) :
    Tracks g₀ k old { g with loops := n } { g' with loops := n + k } :=
  ⟨h.sameText.trans (.setLoops g n), rfl, h.block?_eq⟩

theorem modifyBlock (h : Tracks g₀ k old g g') (b : BlockId) {f f' : Block → Block}
    (hf : ∀ block, unanalyzed (f block) = unanalyzed block)
    (hcomm : ∀ old block, f' (relabeled k old block) = relabeled k old (f block)) :
    Tracks g₀ k old (g.modifyBlock b f) (g'.modifyBlock b f') :=
  ⟨h.sameText.trans (.modifyBlock g b hf), h.loops_eq, fun hc => block?_modifyBlock_map (h.block?_eq hc) (hcomm _)⟩

/-- A block marked as the head of a loop, which takes a number unless it has one. -/
def headed (number : Nat) (block : Block) : Block :=
  { block with
    loopIndex := block.loopIndex.orElse fun _ => some number
    isHead := true
    backEdges := block.backEdges + 1 }

theorem headed_relabeled (n : Nat) (old block : Block) :
    headed (n + k) (relabeled k old block) = relabeled k old (headed n block) := by
  cases hn : block.loopIndex <;> simp [headed, relabeled, renumbered, hn]

theorem closeLoop (h : Tracks g₀ k old g g') {head : BlockId} (hhead : g₀.Reaches head) (tail : Option BlockId) :
    Tracks g₀ k old (g.closeLoop head tail) (g'.closeLoop head tail) := by
  have hnew : ((g'.block? head).map (·.loopIndex.isNone)).getD false =
      ((g.block? head).map (·.loopIndex.isNone)).getD false := by
    rw [h.block?_eq hhead, Option.map_map]
    cases g.block? head with
    | none => rfl
    | some block => cases hn : block.loopIndex <;> simp [relabeled, renumbered, hn]
  have hcount : Tracks g₀ k old
      (if ((g.block? head).map (·.loopIndex.isNone)).getD false then { g with loops := g.loops + 1 } else g)
      (if ((g'.block? head).map (·.loopIndex.isNone)).getD false then { g' with loops := g'.loops + 1 } else g') := by
    rw [hnew, h.loops_eq, Nat.add_right_comm]
    split
    · exact h.setLoops _
    · exact h
  have hmarked : Tracks g₀ k old (Graph.modifyBlock _ head (headed g.loops))
      (Graph.modifyBlock _ head (headed g'.loops)) :=
    hcount.modifyBlock head (fun _ => rfl) fun old block => by rw [h.loops_eq, headed_relabeled]
  unfold Graph.closeLoop
  cases tail with
  | none => exact hmarked
  | some t => exact hmarked.modifyBlock t (fun _ => rfl) fun _ _ => rfl

/-- At a block that a path leads to, the search does the same in both graphs. -/
theorem arrive (h : Tracks g₀ k old g g') (hb : g₀.Reaches b) (pred : Option BlockId) :
    (Traversal.loops.arrive pred b g').1 = (Traversal.loops.arrive pred b g).1 ∧
      Tracks g₀ k old (Traversal.loops.arrive pred b g).2 (Traversal.loops.arrive pred b g').2 := by
  have hblock := h.block?_eq hb
  cases hg : g.block? b with
  | none =>
    rw [hg, Option.map_none] at hblock
    simpa only [Traversal.loops, hg, hblock, true_and] using h
  | some block =>
    rw [hg, Option.map_some] at hblock
    have hactive : (relabeled k (old b) block).active = block.active := rfl
    have hvisited : (relabeled k (old b) block).visited = block.visited := rfl
    rw [Search.loops_arrive hg, Search.loops_arrive hblock, hactive, hvisited]
    split
    · exact ⟨rfl, h.closeLoop hb pred⟩
    · split
      · exact ⟨rfl, h⟩
      · exact ⟨rfl, h.modifyBlock b (fun _ => rfl) fun _ _ => rfl⟩

end Tracks

/-- The search for loops takes the same way through both graphs. -/
theorem respects_loops (k : Nat) (old : BlockId → Block) :
    Traversal.loops.Respects g₀.Reaches (Tracks g₀ k old) := by
  constructor
  case go_eq => exact fun pred h hb => (h.arrive hb pred).1
  case arrive => exact fun pred h hb => (h.arrive hb pred).2
  case leave => exact fun h hb => h.modifyBlock _ (fun _ => rfl) fun _ _ => rfl
  case succs_eq =>
    intro g g' b h hb
    unfold succs
    rw [h.block?_eq hb, Option.map_map]
    rfl
  case closed =>
    intro g g' b t h hb ht
    rw [h.sameText.succs_eq] at ht
    exact hb.succ ht

/-! ## The dominator walk -/

/-- The second graph is the first one, but for numbers of loops. -/
def Renumbers (k : Nat) (g g' : Graph) : Prop :=
  ∀ b, g'.block? b = (g.block? b).map (renumbered k)

theorem chainWith_congr (h : ∀ b, g'.dominator? b = g.dominator? b) (fuel : Nat) (b : BlockId) :
    g'.chainWith fuel b = g.chainWith fuel b := by
  induction fuel generalizing b with
  | zero => rfl
  | succ fuel ih => simp only [chainWith, h, ih]

/-- Blocks with the same chains of dominators have the same nearest common one. -/
theorem commonDominator_congr (h : ∀ b, g'.dominator? b = g.dominator? b) (hcount : g'.blockCount = g.blockCount)
    (a b : BlockId) : g'.commonDominator a b = g.commonDominator a b := by
  unfold commonDominator
  simp only [climb?_eq_find?, dominators, hcount, chainWith_congr h]

namespace Renumbers

variable {k : Nat}

theorem keeps (h : Renumbers k g g') : Keeps (fun block => { block with loopIndex := none }) g g' := by
  intro b
  rw [h b, Option.map_map]
  rfl

theorem dominator?_eq (h : Renumbers k g g') (b : BlockId) : g'.dominator? b = g.dominator? b := by
  unfold dominator?
  rw [h b]
  cases g.block? b <;> rfl

theorem seeFrom (h : Renumbers k g g') (pred : Option BlockId) (b : BlockId) :
    Renumbers k (Traversal.seeFrom g pred b) (Traversal.seeFrom g' pred b) := by
  cases pred with
  | none => exact h
  | some p =>
    have hnarrowed : g'.narrowed p b = g.narrowed p b := by
      unfold narrowed
      simp only [h.dominator?_eq, commonDominator_congr h.dominator?_eq h.keeps.blockCount_eq]
    intro c
    refine block?_modifyBlock_map (h c) fun block => ?_
    change { renumbered k block with
      awaited := block.awaited - 1, dominator := some (g'.narrowed p b) } = _
    rw [hnarrowed]
    rfl

theorem findDominators (h : Renumbers k g.clearDominators g'.clearDominators) :
    Renumbers k g.findDominators g'.findDominators := by
  have hrespects : Traversal.dominators.Respects (fun _ => True) (Renumbers k) := by
    constructor
    case go_eq =>
      intro g g' b pred h _
      simp only [Traversal.dominators]
      rw [h.seeFrom pred b b, Option.any_map]
      rfl
    case arrive => exact fun pred h _ => h.seeFrom pred _
    case leave => exact fun h _ => h
    case succs_eq =>
      intro g g' b h _
      unfold succs
      rw [h b, Option.map_map]
      rfl
    case closed =>
      exact fun _ _ _ => trivial
  have hcount : g'.blockCount = g.blockCount := by
    rw [← (clearDominators_sameText g).keeps.blockCount_eq, ← (clearDominators_sameText g').keeps.blockCount_eq,
      h.keeps.blockCount_eq]
  unfold Graph.findDominators
  rw [hcount]
  exact hrespects.visit _ none h trivial

theorem loopHeadCount_eq (h : Renumbers k g g') : g'.loopHeadCount = g.loopHeadCount := by
  refine Keeps.loopHeadCount_eq fun b => ?_
  rw [h b, Option.map_map]
  rfl

end Renumbers

/-! ## The whole analysis -/

theorem prune_of_dead_nil (h : g.dead = []) : g.prune = (0, g) := by
  unfold prune dead at *
  simp [h]

/-- Blocks that an analysis leaves are as they were, but for their predecessors and for its marks. -/
theorem unanalyzed_of_analyzed {block' : Block}
    (hb : g.clearFlow.findLoops.prune.2.findDominators.block? b = some block') :
    ∃ block, g.block? b = some block ∧ unanalyzed block' = { unanalyzed block with preds := block'.preds } := by
  obtain ⟨block₁, hb₁, hview⟩ := (findDominators_sameText _).keeps.symm.exists_block hb
  obtain ⟨-, block₀, hb₀, rfl⟩ := block?_prune_eq_some hb₁
  obtain ⟨block, hblock, hview₀⟩ := (findLoops_sameText g).keeps.symm.exists_block hb₀
  refine ⟨block, hblock, ?_⟩
  have hpreds : block'.preds = block₀.preds.filter g.clearFlow.findLoops.survives :=
    (congrArg Block.preds hview.symm :)
  rw [← hview, hpreds, hview₀]
  rfl

section Again

variable {summary : FlowSummary} {k : Nat} (hg : Rooted g) (ha : g.analyze = .ok (summary, g'))
  (hk : g'.loops = g.loops + k)
include hg ha

theorem hasBlock_analyzed_iff : g'.hasBlock b = true ↔ g.Reaches b := by
  rw [analyzed_eq ha, (findDominators_sameText _).keeps.hasBlock_eq]
  exact (exists_ranked hg).2.1 b

include hk

/-- The second search for loops goes where the first one went. -/
theorem tracks_findLoops :
    Tracks g k (fun b => (g'.block? b).getD {}) g.clearFlow.findLoops g'.clearFlow.findLoops := by
  have hrooted := hg.analyze ha
  have hstart : Tracks g k (fun b => (g'.block? b).getD {}) g.clearFlow g'.clearFlow := by
    refine ⟨clearFlow_sameText g, hk, fun {b} hb => ?_⟩
    obtain ⟨block', hb'⟩ := hasBlock_iff.1 ((hasBlock_analyzed_iff hg ha).2 hb)
    obtain ⟨block, hblock, hview⟩ := unanalyzed_of_analyzed (analyzed_eq ha ▸ hb')
    unfold clearFlow
    rw [block?_mapBlocks, block?_mapBlocks, hb', hblock]
    change some { unanalyzed block' with dominator := block'.dominator, awaited := block'.awaited } = _
    rw [hview]
    rfl
  have hle : g'.blockCount ≤ g.blockCount := by
    have hcount := pruned_add_blockCount g
    rw [analyzed_eq ha]
    omega
  -- There are fewer blocks now, but a search that may get as deep as the first one comes to the same.
  rw [← Search.visit_loops_eq hg (Nat.le_refl g.blockCount), ← Search.visit_loops_eq hrooted hle]
  exact (respects_loops k _).visit _ none hstart reaches_entry

/-- The second search reaches every block. -/
theorem prune_again : g'.clearFlow.findLoops.prune = (0, g'.clearFlow.findLoops) := by
  have htracks := tracks_findLoops hg ha hk
  refine prune_of_dead_nil (List.eq_nil_iff_forall_not_mem.2 fun b hdead => ?_)
  obtain ⟨block', hb', hvisited⟩ := mem_dead.1 hdead
  have hhas : g'.hasBlock b = true := by
    rw [← (findLoops_sameText g').keeps.hasBlock_eq]
    exact hasBlock_iff.2 ⟨block', hb'⟩
  rw [htracks.block?_eq ((hasBlock_analyzed_iff hg ha).1 hhas)] at hb'
  obtain ⟨block, hb, rfl⟩ := Option.map_eq_some_iff.1 hb'
  rw [analyzed_eq ha, (findDominators_sameText _).keeps.hasBlock_eq, hasBlock_prune] at hhas
  exact hhas.2 (mem_dead.2 ⟨block, hb, hvisited⟩)

/-- The second analysis leaves the blocks as the first one did, but for numbers of loops. -/
theorem renumbers_analyzed : Renumbers k g' g'.clearFlow.findLoops.findDominators := by
  have htracks := tracks_findLoops hg ha hk
  have heq := analyzed_eq ha
  have hdom := findDominators_sameText g.clearFlow.findLoops.prune.2
  -- What the first analysis left behind is cleared before the walk, but for predecessors, which both prunings leave.
  suffices h : Renumbers k g.clearFlow.findLoops.prune.2.clearDominators g'.clearFlow.findLoops.clearDominators by
    have := h.findDominators
    rwa [← heq] at this
  intro b
  unfold clearDominators
  rw [block?_mapBlocks, block?_mapBlocks]
  have hhas : g'.hasBlock b = g.clearFlow.findLoops.prune.2.hasBlock b := by
    rw [heq, hdom.keeps.hasBlock_eq]
  cases hb₁ : g.clearFlow.findLoops.prune.2.block? b with
  | none =>
    rw [hasBlock_eq_false_iff.2 hb₁, ← (findLoops_sameText g').keeps.hasBlock_eq, hasBlock_eq_false_iff] at hhas
    rw [hhas]
    rfl
  | some block₁ =>
    rw [hasBlock_iff.2 ⟨block₁, hb₁⟩] at hhas
    obtain ⟨block', hb'⟩ := hasBlock_iff.1 hhas
    have hpreds : block'.preds = block₁.preds := by
      rw [← preds_eq hb', ← preds_eq hb₁, heq, hdom.preds_eq]
    obtain ⟨-, block₀, hb₀, rfl⟩ := block?_prune_eq_some hb₁
    rw [htracks.block?_eq ((hasBlock_analyzed_iff hg ha).1 hhas), hb₀, hb']
    simp only [Option.map_some, Option.getD_some, relabeled, hpreds]
    rfl

/-- As many loops are numbered as by the first analysis. -/
theorem loops_analyzed_again : g'.clearFlow.findLoops.findDominators.loops = g'.loops + k := by
  obtain ⟨⟨rank, hranked⟩, -⟩ := exists_ranked hg
  obtain ⟨⟨rank', hranked'⟩, -⟩ := exists_ranked (hg.analyze ha)
  rw [prune_again hg ha hk] at hranked'
  have hfirst : g'.loops = g.clearFlow.findLoops.loops := by
    rw [analyzed_eq ha, findDominators_loops hranked]
    exact (congrArg Graph.loops g.clearFlow.findLoops.prune_eq).trans rfl
  rw [findDominators_loops hranked', (tracks_findLoops hg ha hk).loops_eq, hfirst]

end Again

theorem order_analyzed {summary : FlowSummary} (h : g.analyze = .ok (summary, g')) : g'.order = g.order := by
  obtain ⟨g₁, hmarks, hdom⟩ := analyze_eq_ok h
  rw [hdom.eq_with_blocks, g₁.prune_eq, hmarks.eq_with_blocks]

/-- The second analysis of a graph finds what the first one found and takes nothing away. It changes nothing but the
numbers of loops, which are greater by the number of loop heads. -/
theorem analyze_again (h : Drawn g) :
    ∃ summary g' g'', g.analyze = .ok (summary, g') ∧ g'.analyze = .ok (⟨summary.loopHeads, 0⟩, g'') ∧
      Renumbers summary.loopHeads g' g'' ∧
      g'' = { g' with blocks := g''.blocks, loops := g'.loops + summary.loopHeads } := by
  obtain ⟨hg, horder⟩ := h.rooted
  have ha := hg.analyze_eq horder
  have hcount := (numbered_analyze hg h.loops_eq).loopHeadCount_eq
  generalize hg' : g.clearFlow.findLoops.prune.2.findDominators = g' at ha hcount
  generalize hsummary : FlowSummary.mk g'.loopHeadCount g.clearFlow.findLoops.prune.1 = summary at ha
  have hheads : summary.loopHeads = g'.loopHeadCount := by rw [← hsummary]
  have hk : g'.loops = g.loops + summary.loopHeads := by
    rw [h.loops_eq, hheads, hcount, Nat.zero_add]
  have hrooted := hg.analyze ha
  have hrenumbers := renumbers_analyzed hg ha hk
  have hagain := hrooted.analyze_eq ((order_analyzed ha).trans horder)
  rw [prune_again hg ha hk, hrenumbers.loopHeadCount_eq, ← hheads] at hagain
  refine ⟨summary, g', _, ha, hagain, hrenumbers, ?_⟩
  rw [← loops_analyzed_again hg ha hk]
  exact ((findLoops_sameText g').trans (findDominators_sameText _)).eq_with_blocks

theorem analyze_again_with_two_tails :
    ∃ g, Drawn g ∧ (∀ u v, v ∈ g.succs u ↔ (u, v) ∈ [(0, 1), (1, 2), (2, 1), (1, 1), (3, 2)]) ∧
      ∃ summary g' g'', g.analyze = .ok (summary, g') ∧ g'.analyze = .ok (⟨summary.loopHeads, 0⟩, g'') ∧
        Renumbers summary.loopHeads g' g'' := by
  obtain ⟨g, hdrawn, hsuccs⟩ :=
    Drawn.exists_of_edges 4 [(0, 1), (1, 2), (2, 1), (1, 1), (3, 2)] (by decide) (by decide)
  obtain ⟨summary, g', g'', ha, hagain, hrenumbers, -⟩ := analyze_again hdrawn
  exact ⟨g, hdrawn, hsuccs, summary, g', g'', ha, hagain, hrenumbers⟩

end Destack.Graph
