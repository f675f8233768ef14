import Mathlib.Data.Set.Card
import Destack.Proofs.Graph.DominatorWalk

/-!
# What flow analysis finds out

The dominators of an analysed graph are true just when the graph is reducible (`Analyzed.reducible_iff`); otherwise some
edge that leads back is not recognized as such, and its target does not dominate its source (`Flawed`). This is said of
every graph with an entry that no edge leads to (`analyze_rooted`). Graphs that are put together from blocks and edges
have the rest of what is needed (`Assembled`).
-/

namespace Destack.Graph

variable {g g₀ g' : Graph} {rank : BlockId → Nat} {a b d u v : BlockId}

/-! ## Ranks and dominance -/

theorem Ranked.of_keeps (h : Ranked g₀ rank) (hk : Keeps undominated g₀ g) : Ranked g rank := by
  have hraises : g.Raises rank = g₀.Raises rank := by
    funext u v
    unfold Raises
    rw [hk.succs_eq]
  have hold : ∀ {b : BlockId} {block : Block}, g.block? b = some block → ∃ block₀, g₀.block? b = some block₀ ∧
      block₀.preds = block.preds ∧ block₀.succs = block.succs ∧ block₀.backEdges = block.backEdges ∧
      block₀.isHead = block.isHead := by
    intro b block hb
    obtain ⟨block₀, hb₀, hview⟩ := hk.symm.exists_block hb
    exact ⟨block₀, hb₀, (congrArg Block.preds hview :), (congrArg Block.succs hview :),
      (congrArg Block.backEdges hview :), (congrArg Block.isHead hview :)⟩
  constructor
  case rooted =>
    refine ⟨h.rooted.linked.of_keeps (hk.comp textOf), ?_, ?_⟩
    · rw [hk.hasBlock_eq]
      exact h.rooted.hasBlock_entry
    · intro b block hb
      obtain ⟨block₀, hb₀, -, hsuccs, -⟩ := hold hb
      exact hsuccs ▸ h.rooted.entry_not_mem hb₀
  case rank_lt =>
    intro b hb
    rw [hk.hasBlock_eq] at hb
    rw [hk.blockCount_eq]
    exact h.rank_lt hb
  case inj =>
    intro a b ha hb
    rw [hk.hasBlock_eq] at ha hb
    exact h.inj ha hb
  case reach =>
    intro b hb
    rw [hk.hasBlock_eq] at hb
    rw [hraises]
    exact h.reach hb
  case retreat =>
    intro u v hv hle
    rw [hk.succs_eq] at hv
    rw [hraises]
    exact h.retreat hv hle
  case backEdges =>
    intro b block hb
    obtain ⟨block₀, hb₀, hpreds, -, hback, -⟩ := hold hb
    rw [← hback, ← hpreds]
    exact h.backEdges hb₀
  case isHead =>
    intro b block hb
    obtain ⟨block₀, hb₀, -, -, hback, hhead⟩ := hold hb
    rw [← hback, ← hhead]
    exact h.isHead hb₀

/-- Some path leads to a block along ranks that do not exceed its own. -/
theorem Ranked.exists_path (h : Ranked g rank) (hb : g.hasBlock b = true) :
    ∃ bs, Path g b bs ∧ ∀ k ∈ bs, rank k ≤ rank b := by
  have hreach := h.reach hb
  clear hb
  induction hreach with
  | refl =>
    refine ⟨[entry], .start, fun k hk => ?_⟩
    rw [List.mem_singleton.1 hk]
  | tail _ huv ih =>
    obtain ⟨bs, hbs, hle⟩ := ih
    refine ⟨_, hbs.step huv.1, fun k hk => ?_⟩
    rcases List.mem_cons.1 hk with rfl | hk
    · exact Nat.le_refl _
    · exact (hle k hk).trans (Nat.le_of_lt huv.2)

/-- A block dominates no block of lower rank. -/
theorem Ranked.rank_le_of_dominates (h : Ranked g rank) (hb : g.hasBlock b = true) (hab : g.Dominates a b) :
    rank a ≤ rank b := by
  obtain ⟨bs, hbs, hle⟩ := h.exists_path hb
  exact hle a (hab bs hbs)

/-- The count of back edges is the number of the edges that do not raise the rank. -/
theorem Ranked.backEdges_eq_ncard (hg : Ranked g rank) {block : Block} (hb : g.block? b = some block) :
    block.backEdges = {u | b ∈ g.succs u ∧ rank b ≤ rank u}.ncard := by
  have hset : {u | b ∈ g.succs u ∧ rank b ≤ rank u} =
      ((block.preds.filter fun p => rank b ≤ rank p).toFinset : Set BlockId) := by
    ext u
    simp only [Set.mem_ofPred_eq, List.coe_toFinset, List.mem_filter, decide_eq_true_eq, ← preds_eq hb,
      ← hg.rooted.linked.mem_succs_iff]
  rw [hset, Set.ncard_coe_finset, List.toFinset_card_of_nodup ((hg.rooted.linked.nodup_preds hb).filter _),
    hg.backEdges hb, List.countP_eq_length_filter]

/-! ## Outcomes -/

/-- The dominators are true, and edges lead back just when they do not raise the rank. -/
structure Exact (g : Graph) (rank : BlockId → Nat) : Prop where
  dominator_entry : g.dominator? entry = none
  dominator : ∀ {b : BlockId}, g.hasBlock b = true → b ≠ entry →
    ∃ d, g.dominator? b = some d ∧ g.ImmediatelyDominates d b
  dominates_iff : ∀ {a b : BlockId}, g.hasBlock b = true → (g.dominates a b = true ↔ g.Dominates a b)
  dominates_iff_rank : ∀ {u v : BlockId}, v ∈ g.succs u → (g.Dominates v u ↔ rank v ≤ rank u)

/-- Some edge that does not raise the rank leads to a block that does not dominate its source and is not taken to. -/
def Flawed (g : Graph) (rank : BlockId → Nat) : Prop :=
  ∃ u v, v ∈ g.succs u ∧ rank v ≤ rank u ∧ g.dominates v u = false ∧ ¬ g.Dominates v u

/-- What the analysis leaves. -/
structure Analyzed (g : Graph) (rank : BlockId → Nat) : Prop where
  ranked : Ranked g rank
  rank_le : ∀ {a b : BlockId}, g.hasBlock b = true → g.dominates a b = true → rank a ≤ rank b
  exact_or_flawed : g.Exact rank ∨ g.Flawed rank

/-- When the walk has seen all edges and found each of them in order, blocks are above those that they dominate. -/
theorem Tour.Faithful.dominates_of_above {t : Tour} (h : Faithful g₀ rank t g) (hch : Chained rank t g)
    (hc : Counts g₀ rank t g) (hg : Ranked g₀ rank) (hseen : ∀ u v, v ∈ g₀.succs u → (u, v) ∈ t.seen)
    (hab : g.Above a b) : g₀.Dominates a b := by
  intro bs hbs
  induction hbs with
  | start =>
    rcases hab.cases with rfl | ⟨d, hd, -⟩
    · exact List.mem_cons_self
    · rw [hch.dominator_entry hc hg] at hd
      cases hd
  | @step u v bs _ hv ih =>
    rcases hab.cases with rfl | ⟨d, hd, had⟩
    · exact List.mem_cons_self
    · exact List.mem_cons_of_mem _ (ih (had.trans (h.through (hseen u v hv) hd)))

theorem analyzed_findDominators (hg : Ranked g₀ rank) : Analyzed g₀.findDominators rank := by
  obtain ⟨t, ⟨hc, hch, hout⟩, hpassed, hseen⟩ := Tour.findDominators_spec hg
  have hranked := hg.of_keeps hc.keeps
  have hhas : ∀ {b : BlockId}, g₀.findDominators.hasBlock b = true → b ∈ t.passed := fun hb =>
    hpassed _ ((hc.keeps.hasBlock_eq _).symm.trans hb)
  have habove : ∀ {a b : BlockId}, g₀.findDominators.hasBlock b = true →
      (g₀.findDominators.dominates a b = true ↔ g₀.findDominators.Above a b) := fun hb =>
    dominates_iff_above hch.falling (Nat.le_of_lt (hranked.rank_lt hb))
  have hsuccs := hc.keeps.succs_eq
  have hdom : ∀ {a b : BlockId}, g₀.findDominators.Dominates a b ↔ g₀.Dominates a b :=
    dominates_congr fun b _ => hsuccs b
  refine ⟨hranked, fun hb h => ((habove hb).1 h).rank_le hch.falling, ?_⟩
  rcases hout with hf | ⟨u, v, huv, hle, hnot, hnd⟩
  · refine Or.inl ⟨?_, ?_, ?_, ?_⟩
    · exact hch.dominator_entry hc hg
    · intro b hb hne
      obtain ⟨d, hd⟩ := hch.dominator_of_passed hc hg (hhas hb) hne
      refine ⟨d, hd, ?_, ?_, ?_⟩
      · rw [hdom]
        exact hf.dominates_of_above hch hc hg hseen ((Above.refl _ d).of_dominator hd)
      · rintro rfl
        exact Nat.lt_irrefl _ (hch.falling hd)
      · intro a hab hne'
        rw [hdom] at hab ⊢
        exact hf.dominates_of_above hch hc hg hseen (hf.complete hab hne' hd)
    · intro a b hb
      rw [habove hb, hdom]
      exact ⟨hf.dominates_of_above hch hc hg hseen, hf.above_of_dominates hch hc hg (hhas hb)⟩
    · intro u v hv
      have hu := hranked.rooted.linked.hasBlock_source hv
      constructor
      · exact hranked.rank_le_of_dominates hu
      · intro hle
        rw [hsuccs] at hv
        rw [hdom]
        exact hf.dominates_of_above hch hc hg hseen (hf.closed (hseen u v hv) hle)
  · refine Or.inr ⟨u, v, ?_, hle, ?_, fun h => hnd (hdom.1 h)⟩
    · rw [hsuccs]
      exact (hc.seen_mem _ huv).1
    · have hu := hranked.rooted.linked.hasBlock_source ((hsuccs u).symm ▸ (hc.seen_mem _ huv).1 : v ∈ _)
      rw [Bool.eq_false_iff]
      exact fun h => hnot ((habove hu).1 h)

/-! ## Reducible graphs -/

/-- Edges that raise the rank do not lead back. -/
theorem Ranked.forward_of_raises (h : Ranked g rank) (huv : g.Raises rank u v) : g.Forward u v := by
  refine ⟨huv.1, fun hdom => ?_⟩
  have := h.rank_le_of_dominates (h.rooted.linked.hasBlock_source huv.1) hdom
  have := huv.2
  omega

/-- The dominators are true just when the graph is reducible. -/
theorem Analyzed.reducible_iff (h : Analyzed g rank) : g.Reducible ↔ g.Exact rank := by
  constructor
  · intro hred
    refine h.exact_or_flawed.resolve_right ?_
    rintro ⟨u, v, hv, hle, -, hnd⟩
    have hback := Relation.ReflTransGen.mono (fun _ _ => h.ranked.forward_of_raises) _ _ (h.ranked.retreat hv hle)
    exact hred v (Relation.TransGen.tail' hback ⟨hv, hnd⟩)
  · intro hexact b hcycle
    have hlt : ∀ {a b : BlockId}, Relation.TransGen g.Forward a b → rank a < rank b := by
      intro a b hab
      have hedge : ∀ {u v : BlockId}, g.Forward u v → rank u < rank v := by
        intro u v huv
        by_contra hle
        exact huv.2 ((hexact.dominates_iff_rank huv.1).2 (by omega))
      induction hab with
      | single huv => exact hedge huv
      | tail _ huv ih => exact ih.trans (hedge huv)
    exact Nat.lt_irrefl _ (hlt hcycle)

theorem Exact.isBackEdge_iff (h : g.Exact rank) (hg : Ranked g rank) (hv : v ∈ g.succs u) :
    g.isBackEdge u v = true ↔ g.Dominates v u := by
  have hu := hg.rooted.linked.hasBlock_source hv
  unfold isBackEdge
  rw [Bool.and_eq_true, h.dominates_iff hu]
  refine and_iff_right_of_imp fun hdom => ?_
  -- The edge is one of those that the mark of a head counts.
  obtain ⟨block, hb⟩ := hasBlock_iff.1 (hg.rooted.linked.hasBlock_target hv)
  have hpred : u ∈ block.preds := by
    rw [← preds_eq hb]
    exact hg.rooted.linked.mem_succs_iff.1 hv
  have hpos : 0 < block.backEdges := by
    rw [hg.backEdges hb, List.countP_pos_iff]
    exact ⟨u, hpred, by simpa using (h.dominates_iff_rank hv).1 hdom⟩
  simpa [hb] using (hg.isHead hb).2 hpos

/-- The number of back edges into a block is that of the edges from blocks that it dominates. -/
theorem Exact.backEdges_eq (h : g.Exact rank) (hg : Ranked g rank) {block : Block} (hb : g.block? b = some block) :
    block.backEdges = {u | b ∈ g.succs u ∧ g.Dominates b u}.ncard := by
  rw [hg.backEdges_eq_ncard hb]
  congr 1
  ext u
  exact and_congr_right fun hu => (h.dominates_iff_rank hu).symm

/-! ## The whole analysis -/

theorem Rooted.validate (hg : Rooted g) (horder : g.order = []) : g.validate = .ok () :=
  hg.linked.validate hg.hasBlock_entry (by simp [horder])

/-- The analysis of a rooted graph finds everything that it looks up. -/
theorem Rooted.analyze_eq (hg : Rooted g) (horder : g.order = []) :
    g.analyze = .ok (⟨g.clearFlow.findLoops.prune.2.findDominators.loopHeadCount, g.clearFlow.findLoops.prune.1⟩,
      g.clearFlow.findLoops.prune.2.findDominators) := by
  obtain ⟨⟨rank, hranked⟩, -⟩ := exists_ranked hg
  unfold Graph.analyze
  rw [hg.validate horder]
  dsimp only [bind, Except.bind]
  rw [hg.searchLoops_eq]
  dsimp only
  rw [hranked.rooted.walkDominators_eq]
  rfl

theorem validate_of_analyze {summary : FlowSummary} (h : g.analyze = .ok (summary, g')) : g.validate = .ok () :=
  (Graph.analyze_eq h).1

theorem analyzed_eq {summary : FlowSummary} (h : g.analyze = .ok (summary, g')) :
    g' = g.clearFlow.findLoops.prune.2.findDominators :=
  (Graph.analyze_eq h).2.2

theorem Rooted.analyze {summary : FlowSummary} (hg : Rooted g) (h : g.analyze = .ok (summary, g')) : Rooted g' := by
  obtain ⟨⟨rank, hranked⟩, -⟩ := exists_ranked hg
  rw [analyzed_eq h]
  exact (findDominators_sameText _).rooted hranked.rooted

/-- A graph with an entry that no edge leads to is analysed. What is left are the blocks that paths lead to, with their
edges. -/
theorem analyze_rooted (hg : Rooted g) (horder : g.order = []) :
    ∃ summary g' rank, g.analyze = .ok (summary, g') ∧ Analyzed g' rank ∧
      (∀ b, g'.hasBlock b = true ↔ g.Reaches b) ∧ ∀ b, g.Reaches b → g'.succs b = g.succs b := by
  obtain ⟨⟨rank, hranked⟩, hhas, hsuccs⟩ := exists_ranked hg
  have htext := findDominators_sameText g.clearFlow.findLoops.prune.2
  refine ⟨_, _, rank, hg.analyze_eq horder, analyzed_findDominators hranked, fun b => ?_,
    fun b hb => ?_⟩
  · rw [htext.keeps.hasBlock_eq, hhas]
  · rw [htext.succs_eq, hsuccs b hb]

/-! ## Graphs from blocks and edges -/

/-- Graphs that are put together from empty blocks and edges. -/
inductive Assembled : Graph → Prop where
  | empty : Assembled Graph.empty
  | addBlock {g : Graph} : Assembled g → Assembled g.addBlock.2
  | addEdge {g g' : Graph} {source target : BlockId} :
    Assembled g → g.addEdge source target = .ok g' → Assembled g'

theorem block?_addBlock (g : Graph) (b : BlockId) :
    g.addBlock.2.block? b = if b = g.nextBlock then some {} else g.block? b := by
  unfold addBlock block?
  simp only [Std.TreeMap.getElem?_insert, compare_eq_iff, eq_comm (a := b)]

theorem Linked.addBlock (hg : Linked g) : Linked g.addBlock.2 := by
  have hnone := g.block?_nextBlock
  -- The new block has no edges, and no other block has an edge to it.
  have hold : ∀ {b : BlockId} {block : Block}, g.addBlock.2.block? b = some block →
      block.succs = [] ∧ block.preds = [] ∧ b = g.nextBlock ∨ g.block? b = some block := by
    intro b block hb
    rw [block?_addBlock] at hb
    split at hb
    · next hnew =>
      obtain rfl := Option.some.inj hb
      exact Or.inl ⟨rfl, rfl, hnew⟩
    · exact Or.inr hb
  have hhas : ∀ {b : BlockId}, g.hasBlock b = true → g.addBlock.2.hasBlock b = true := by
    intro b hb
    rw [hasBlock_iff, block?_addBlock]
    split
    · exact ⟨_, rfl⟩
    · exact hasBlock_iff.1 hb
  have hnot : g.hasBlock g.nextBlock = false := hasBlock_eq_false_iff.2 hnone
  constructor
  case mem_iff =>
    intro b t block target hb ht
    rcases hold hb with ⟨hs, hp, rfl⟩ | hb <;> rcases hold ht with ⟨hs', hp', rfl⟩ | ht
    · simp [hs, hp']
    · rw [hs]
      refine ⟨fun h => absurd h List.not_mem_nil, fun h => ?_⟩
      rw [hg.pred_mem ht h] at hnot
      cases hnot
    · rw [hp']
      refine ⟨fun h => ?_, fun h => absurd h List.not_mem_nil⟩
      rw [hg.succ_mem hb h] at hnot
      cases hnot
    · exact hg.mem_iff hb ht
  case nodup_succs =>
    intro b block hb
    rcases hold hb with ⟨hs, -⟩ | hb
    · rw [hs]
      exact List.nodup_nil
    · exact hg.nodup_succs hb
  case nodup_preds =>
    intro b block hb
    rcases hold hb with ⟨-, hp, -⟩ | hb
    · rw [hp]
      exact List.nodup_nil
    · exact hg.nodup_preds hb
  case succ_mem =>
    intro b t block hb ht
    rcases hold hb with ⟨hs, -⟩ | hb
    · rw [hs] at ht
      cases ht
    · exact hhas (hg.succ_mem hb ht)
  case pred_mem =>
    intro b t block hb ht
    rcases hold hb with ⟨-, hp, -⟩ | hb
    · rw [hp] at ht
      cases ht
    · exact hhas (hg.pred_mem hb ht)

namespace Assembled

theorem linked (h : Assembled g) : Linked g := by
  induction h with
  | empty => constructor <;> simp [block?, Graph.empty]
  | addBlock _ ih => exact ih.addBlock
  | addEdge _ hadd ih => exact ih.addEdge hadd

theorem order_eq (h : Assembled g) : g.order = [] := by
  induction h with
  | empty => rfl
  | addBlock _ ih => exact ih
  | addEdge _ hadd ih => exact (congrArg Graph.order (addEdge_eq hadd)).trans ih

theorem hasBlock_entry (h : Assembled g) (hne : g.blockCount ≠ 0) : g.hasBlock entry = true := by
  have hempty : ∀ {g : Graph}, g.blockCount = 0 → g.nextBlock = entry := by
    intro g hzero
    have : g.blocks.isEmpty = true := by
      rw [Std.TreeMap.isEmpty_eq_size_eq_zero, show g.blocks.size = 0 from hzero]
      rfl
    rw [nextBlock, Std.TreeMap.maxKey?_eq_none_iff.2 this]
    rfl
  induction h with
  | empty => exact absurd rfl hne
  | @addBlock g _ ih =>
    rw [hasBlock_iff, block?_addBlock]
    by_cases hzero : g.blockCount = 0
    · rw [hempty hzero, if_pos rfl]
      exact ⟨_, rfl⟩
    · split
      · exact ⟨_, rfl⟩
      · exact hasBlock_iff.1 (ih hzero)
  | @addEdge g g' source target hg hadd ih =>
    obtain ⟨block, hb⟩ := hasBlock_iff.1 (addEdge_hasBlock hadd).1
    have hpos : g.blockCount ≠ 0 := by
      rw [← length_blockIds]
      exact (List.length_pos_of_mem (mem_blockIds.2 (hasBlock_iff.2 ⟨block, hb⟩))).ne'
    obtain ⟨block, hb⟩ := hasBlock_iff.1 (ih hpos)
    rw [hasBlock_iff, block?_addEdge hg.linked hadd, hb]
    exact ⟨_, rfl⟩

/-- Every set of edges between some blocks can be put together. -/
theorem exists_of_edges (n : Nat) (es : List (BlockId × BlockId)) (h : ∀ e ∈ es, e.1 < n ∧ e.2 < n) :
    ∃ g, Assembled g ∧ (∀ b, g.hasBlock b = true ↔ b < n) ∧ ∀ u v, v ∈ g.succs u ↔ (u, v) ∈ es := by
  induction es with
  | nil =>
    clear h
    induction n with
    | zero => exact ⟨_, .empty, by simp [hasBlock, Graph.empty], by simp [succs, block?, Graph.empty]⟩
    | succ n ih =>
      obtain ⟨g, hg, hhas, hsuccs⟩ := ih
      have hnext := nextBlock_eq hhas
      refine ⟨_, hg.addBlock, fun b => ?_, fun u v => ?_⟩
      · rw [hasBlock_iff, block?_addBlock, hnext]
        by_cases hb : b = n
        · simp [hb]
        · rw [if_neg hb, ← hasBlock_iff, hhas]
          exact ⟨Nat.lt_succ_of_lt, fun h => Nat.lt_of_le_of_ne (Nat.le_of_lt_succ h) hb⟩
      · have hold := hsuccs u v
        unfold succs at hold ⊢
        rw [block?_addBlock]
        split
        · simp
        · exact hold
  | cons e es ih =>
    obtain ⟨g, hg, hhas, hsuccs⟩ := ih fun e he => h e (List.mem_cons_of_mem _ he)
    obtain ⟨hs, ht⟩ := h e List.mem_cons_self
    obtain ⟨g', hadd⟩ := exists_addEdge ((hhas e.1).2 hs) ((hhas e.2).2 ht)
    have hblock := block?_addEdge hg.linked hadd
    refine ⟨g', hg.addEdge hadd, fun b => ?_, fun u v => ?_⟩
    · rw [← hhas, hasBlock_iff, hasBlock_iff, hblock]
      simp
    · have hold := hsuccs u v
      unfold succs at hold ⊢
      rw [hblock]
      cases hu : g.block? u with
      | none =>
        have hne : u ≠ e.1 := by
          rintro rfl
          have := (hhas e.1).2 hs
          rw [hasBlock_eq_false_iff.2 hu] at this
          cases this
        rw [hu] at hold
        simpa [Prod.ext_iff, hne] using hold
      | some block =>
        rw [hu] at hold
        simp only [Option.map_some, Option.getD_some, succs_withEdge] at hold ⊢
        by_cases hue : u = e.1
        · rw [if_pos hue, mem_appendNew, hold, List.mem_cons, Prod.ext_iff]
          simp [hue, or_comm]
        · rw [if_neg hue, hold, List.mem_cons, Prod.ext_iff]
          simp [hue]

theorem rooted (h : Assembled g) (hne : g.blockCount ≠ 0) (hentry : ∀ b, entry ∉ g.succs b) : Rooted g := by
  refine ⟨h.linked, h.hasBlock_entry hne, fun {b block} hb => ?_⟩
  rw [← succs_eq hb]
  exact hentry b

end Assembled

/-- On a reducible graph the analysis finds the dominators: the entry has none, every other block that is left has its
only immediate dominator, blocks dominate those that they lie on every path to, and the edges that lead back are those
to blocks that dominate their source, which are counted at their targets. -/
theorem analyze_finds_dominators (h : Assembled g) (hne : g.blockCount ≠ 0) (hentry : ∀ b, entry ∉ g.succs b)
    (hred : g.Reducible) :
    ∃ summary g', g.analyze = .ok (summary, g') ∧
      (∀ b, g'.hasBlock b = true ↔ g.Reaches b) ∧
      g'.dominator? entry = none ∧
      (∀ b, g'.hasBlock b = true → b ≠ entry → ∃ d, g'.dominator? b = some d ∧ g.ImmediatelyDominates d b ∧
        ∀ d', g.ImmediatelyDominates d' b → d' = d) ∧
      (∀ a b, g'.hasBlock b = true → (g'.dominates a b = true ↔ g.Dominates a b)) ∧
      (∀ u v, g'.hasBlock u = true → v ∈ g.succs u → (g'.isBackEdge u v = true ↔ g.Dominates v u)) ∧
      ∀ v block, g'.block? v = some block →
        block.backEdges = {u | g'.hasBlock u = true ∧ v ∈ g.succs u ∧ g.Dominates v u}.ncard := by
  obtain ⟨summary, g', rank, hok, han, hhas, hsuccs⟩ := analyze_rooted (h.rooted hne hentry) h.order_eq
  have hexact := han.reducible_iff.1 ((reducible_congr hsuccs).2 hred)
  have hdom : ∀ {a b : BlockId}, g'.Dominates a b ↔ g.Dominates a b := dominates_congr hsuccs
  refine ⟨summary, g', hok, hhas, hexact.dominator_entry, ?_, ?_, ?_, ?_⟩
  · intro b hb hne'
    obtain ⟨d, hd, himm⟩ := hexact.dominator hb hne'
    have himm' : g.ImmediatelyDominates d b :=
      ⟨hdom.1 himm.dominates, himm.ne, fun a hab hne => hdom.1 (himm.nearest a (hdom.2 hab) hne)⟩
    exact ⟨d, hd, himm', fun d' h' => h'.unique ((hhas b).1 hb) himm'⟩
  · intro a b hb
    rw [hexact.dominates_iff hb, hdom]
  · intro u v hu hv
    rw [← hsuccs u ((hhas u).1 hu)] at hv
    rw [hexact.isBackEdge_iff han.ranked hv, hdom]
  · intro v block hb
    rw [hexact.backEdges_eq han.ranked hb]
    congr 1
    ext u
    simp only [Set.mem_ofPred_eq, hdom]
    constructor
    · rintro ⟨hv, hd⟩
      have hu := han.ranked.rooted.linked.hasBlock_source hv
      exact ⟨hu, hsuccs u ((hhas u).1 hu) ▸ hv, hd⟩
    · rintro ⟨hu, hv, hd⟩
      exact ⟨(hsuccs u ((hhas u).1 hu)).symm ▸ hv, hd⟩

/-- A graph is reducible if every edge leads to a later block or to one that dominates its source. -/
theorem reducible_of_lt (h : ∀ u v, v ∈ g.succs u → u < v ∨ g.Dominates v u) : g.Reducible := by
  have hlt : ∀ {a b : BlockId}, Relation.TransGen g.Forward a b → a < b := by
    intro a b hab
    induction hab with
    | single huv => exact (h _ _ huv.1).resolve_right huv.2
    | tail _ huv ih => exact ih.trans ((h _ _ huv.1).resolve_right huv.2)
  exact fun b hb => Nat.lt_irrefl b (hlt hb)

theorem analyze_finds_dominators_of_loop :
    ∃ g : Graph, (∀ u v, v ∈ g.succs u ↔ (u, v) ∈ [(0, 1), (1, 2), (2, 1)]) ∧
      ∃ summary g', g.analyze = .ok (summary, g') ∧ g'.dominator? entry = none ∧ g'.isBackEdge 2 1 = true := by
  obtain ⟨g, hg, hhas, hsuccs⟩ := Assembled.exists_of_edges 3 [(0, 1), (1, 2), (2, 1)] (by decide)
  have hne : g.blockCount ≠ 0 := by
    rw [← length_blockIds]
    exact (List.length_pos_of_mem (mem_blockIds.2 ((hhas 0).2 (by decide)))).ne'
  have hentry : ∀ b, entry ∉ g.succs b := by
    intro b hb
    simp [hsuccs, entry] at hb
  have hdom : g.Dominates 1 2 := by
    refine dominates_of_preds (by decide) fun c hc => ?_
    obtain rfl : c = 1 := by simpa [hsuccs] using hc
    exact Dominates.refl g 1
  have hred : g.Reducible := by
    refine reducible_of_lt fun u v huv => ?_
    simp only [hsuccs, List.mem_cons, Prod.mk.injEq, List.not_mem_nil, or_false] at huv
    rcases huv with ⟨rfl, rfl⟩ | ⟨rfl, rfl⟩ | ⟨rfl, rfl⟩
    · exact Or.inl (by decide)
    · exact Or.inl (by decide)
    · exact Or.inr hdom
  obtain ⟨summary, g', hok, hhas', hdentry, -, -, hback, -⟩ := analyze_finds_dominators hg hne hentry hred
  have hreach : g.Reaches 2 :=
    ((reaches_entry.succ ((hsuccs 0 1).2 (by decide))).succ ((hsuccs 1 2).2 (by decide)))
  exact ⟨g, hsuccs, summary, g', hok, hdentry,
    (hback 2 1 ((hhas' 2).2 hreach) ((hsuccs 2 1).2 (by decide))).2 hdom⟩

end Destack.Graph
