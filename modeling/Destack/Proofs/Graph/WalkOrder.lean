import Destack.Proofs.Graph.LoopHeads

/-!
# The order of the dominator walk

The dominator walk has no marks for the blocks that it knows: it goes on from a block when it has seen all its edges but
as many as the search for loops counted back (`CountedBack`). On every graph, reducible or not, this lets it go on from
each block once, after just the right edges (`WalkStage`), and at the end it has followed every edge once, waits for
nothing, and has put a chain of dominators up to the entry above every block (`WalkDone`).
-/

namespace Destack.Graph

variable {g g' : Graph} {rank : BlockId → Nat} {a b d u v : BlockId}

/-! ## Stages of a traversal -/

namespace Traversal

variable {w : Traversal} {s s' s₀ s₁ s₂ : Stage} {e : BlockId × BlockId}

theorem Step.followed_subset (h : w.Step s s') : s.followed ⊆ s'.followed := by
  cases h with
  | enter => exact List.subset_cons_self _ _
  | pass => exact List.subset_cons_self _ _
  | leave => exact fun _ h => h

theorem Steps.followed_subset (h : w.Steps s s') : s.followed ⊆ s'.followed := by
  induction h with
  | refl => exact fun _ h => h
  | tail _ hstep ih => exact fun e he => hstep.followed_subset (ih he)

/-- The next edge is followed in the next step. -/
theorem Step.followed_eq (h : w.Step s s') (he : s.edge? = some e) : s'.followed = e :: s.followed := by
  cases h with
  | enter =>
    obtain rfl := Option.some.inj he
    rfl
  | pass =>
    obtain rfl := Option.some.inj he
    rfl
  | leave => cases he

/-- A step follows the next edge, if there is one. -/
theorem Step.edge_of_mem (h : w.Step s s') (hnew : e ∉ s.followed) (he : e ∈ s'.followed) : s.edge? = some e := by
  cases h with
  | enter => exact congrArg some ((List.mem_cons.1 he).resolve_right hnew).symm
  | pass => exact congrArg some ((List.mem_cons.1 he).resolve_right hnew).symm
  | leave => exact absurd he hnew

theorem Framed.edge (h : Framed g s) (he : s.edge? = some (u, v)) (hnodup : (g.succs u).Nodup) :
    v ∈ g.succs u ∧ u ∈ s.entered ∧ (u, v) ∉ s.followed := by
  obtain ⟨frames, graph, entered, followed⟩ := s
  cases frames with
  | nil => cases he
  | cons f rest =>
    obtain ⟨b, todo⟩ := f
    cases todo with
    | nil => cases he
    | cons t todo =>
      obtain ⟨rfl, rfl⟩ := Prod.mk.inj (Option.some.inj he)
      exact ⟨h.edge_mem, h.entered_mem, h.edge_new hnodup⟩

/-- Where each edge is followed once, it is the next one at one stage only. -/
theorem Steps.edge_unique (hnew : ∀ s e, w.Steps s₀ s → s.edge? = some e → e ∉ s.followed) (h₁ : w.Steps s₀ s₁)
    (h₂ : w.Steps s₀ s₂) (he₁ : s₁.edge? = some e) (he₂ : s₂.edge? = some e) : s₁ = s₂ := by
  have hle : ∀ {s s' : Stage}, w.Steps s₀ s' → s.edge? = some e → s'.edge? = some e → w.Steps s s' → s = s' := by
    intro s s' h' he he' hsteps
    rcases Relation.ReflTransGen.cases_head hsteps with heq | ⟨s'', hstep, hrest⟩
    · exact heq
    · have hmem : e ∈ s''.followed := by
        rw [hstep.followed_eq he]
        exact List.mem_cons_self
      exact absurd (Steps.followed_subset hrest hmem) (hnew s' e h' he')
  have hunique : Relator.RightUnique w.Step := fun _ _ _ h h' => step_unique h h'
  rcases Relation.ReflTransGen.total_of_right_unique hunique h₁ h₂ with h | h
  · exact hle h₂ he₁ he₂ h
  · exact (hle h₁ he₂ he₁ h).symm

end Traversal

/-! ## Edges that are counted back -/

/-- The count of back edges into a block. -/
def backCount (g : Graph) (b : BlockId) : Nat :=
  ((g.block? b).map (·.backEdges)).getD 0

theorem backCount_eq {block : Block} (hb : g.block? b = some block) : g.backCount b = block.backEdges := by
  simp [backCount, hb]

/-- The search for loops counts an edge back at its target. -/
def CountedBack (g : Graph) (u v : BlockId) : Prop :=
  ∃ s s', Traversal.loops.Steps (Traversal.loops.start g.clearFlow) s ∧ s.edge? = some (u, v) ∧
    Traversal.loops.Step s s' ∧ s'.graph.backCount v = s.graph.backCount v + 1

namespace Search

variable {s s' : Search} {st st' : Traversal.Stage}

/-- An edge that does not advance is one more that leads back to its target. -/
theorem Step.retreats_target (h : Step g s s') (hs : Sound g s) (hseen : s'.seen = (u, v) :: s.seen) :
    s'.retreats v = s.retreats v + if Before s'.line u v then 0 else 1 := by
  cases h with
  | look =>
    obtain ⟨heq, -⟩ := List.cons.inj hseen
    obtain ⟨rfl, rfl⟩ := Prod.mk.inj heq
    rw [retreats_look]
    simp only [true_and, ite_not]
    rfl
  | @push path done seen p b hb hnew hmem =>
    obtain ⟨heq, -⟩ := List.cons.inj hseen
    obtain ⟨rfl, rfl⟩ := Prod.mk.inj heq
    have hbefore : Before (line ⟨b :: p :: path, done, (p, b) :: seen⟩) p b := by
      rw [line_push]
      exact before_append (by simp) List.mem_cons_self
    rw [retreats_push hs hb hnew hmem, if_pos hbefore, Nat.add_zero]
  | pop => exact absurd (congrArg List.length hseen) (by simp)

theorem Mirrors.backCount_eq (h : Mirrors g s st) (hb : g.hasBlock b = true) : st.graph.backCount b = s.retreats b := by
  obtain ⟨block, hblock⟩ := hasBlock_iff.1 ((h.sameText.keeps.hasBlock_eq b).trans hb)
  rw [Graph.backCount_eq hblock, h.marks.backEdges hblock]

theorem edge_new_of_steps (hg : Rooted g) (h : Traversal.loops.Steps (Traversal.loops.start g.clearFlow) st)
    {e : BlockId × BlockId} (he : st.edge? = some e) : e ∉ st.followed := by
  obtain ⟨s, -, hs⟩ := mirrors_of_steps hg h
  exact (hs.framed.edge he (hg.linked.succs_nodup e.1)).2.2

/-- At every stage the edges counted back, of those that were followed, are the ones that do not advance. -/
theorem mirrors_countedBack (hg : Rooted g) (h : Traversal.loops.Steps (Traversal.loops.start g.clearFlow) st) :
    ∃ s, Relation.ReflTransGen (Moves g) (⟨[entry], [], []⟩, mark g.clearFlow entry) (s, st.graph) ∧ Mirrors g s st ∧
      ∀ u v, (u, v) ∈ st.followed → (g.CountedBack u v ↔ ¬ Before s.line u v) := by
  induction h with
  | refl =>
    have hstart := mirrors_start hg
    refine ⟨_, ?_, hstart, ?_⟩
    · rw [start_loops hg]
    · intro u v huv
      rw [hstart.seen_eq] at huv
      cases huv
  | @tail st st' hsteps hstep ih =>
    obtain ⟨s, hmoves, hs, hiff⟩ := ih
    obtain ⟨s', hmove, hs'⟩ := hs.step hg hstep
    refine ⟨s', hmoves.tail hmove, hs', fun u v huv => ?_⟩
    have hline : ∀ {u v : BlockId}, (u, v) ∈ st.followed → (Before s'.line u v ↔ Before s.line u v) := by
      intro u v hmem
      rw [hs.seen_eq] at hmem
      obtain ⟨-, hu, hv⟩ := hs.sound.seen_mem _ hmem
      exact before_congr hmove.step.line_sublist hs'.sound.nodup hu hv
    by_cases hold : (u, v) ∈ st.followed
    · rw [hiff u v hold, hline hold]
    · -- The edge is followed in this step, and in no other one.
      have hedge := hstep.edge_of_mem hold huv
      have hhas := hg.linked.hasBlock_target (hs.framed.edge hedge (hg.linked.succs_nodup u)).1
      have hseen : s'.seen = (u, v) :: s.seen := by
        rw [← hs'.seen_eq, ← hs.seen_eq, hstep.followed_eq hedge]
      have hcount := hmove.step.retreats_target hs.sound hseen
      rw [← hs'.backCount_eq hhas, ← hs.backCount_eq hhas] at hcount
      constructor
      · rintro ⟨st₁, st₂, hsteps₁, hedge₁, hstep₁, hmore⟩ hbefore
        obtain rfl := hsteps₁.edge_unique (fun _ _ h he => edge_new_of_steps hg h he) hsteps hedge₁ hedge
        obtain rfl := Traversal.step_unique hstep₁ hstep
        rw [if_pos hbefore] at hcount
        omega
      · intro hnot
        rw [if_neg hnot] at hcount
        exact ⟨st, st', hsteps, hedge, hstep, hcount⟩

end Search

/-- A traversal takes step after step until it has left every block. -/
structure Traversal.Finishes (w : Traversal) (g : Graph) (s : Traversal.Stage) : Prop where
  steps : w.Steps (w.start g) s
  frames_eq : s.frames = []
  unavoidable : ∀ s', w.Steps (w.start g) s' → w.Steps s' s

theorem Traversal.Finishes.of_steps {w : Traversal} {s : Traversal.Stage} (h : w.Steps (w.start g) s)
    (hnil : s.frames = []) : w.Finishes g s :=
  ⟨h, hnil, fun _ h' => h'.to_end h hnil⟩

/-- The edges counted back are those that do not raise the rank of what is left. -/
theorem finishes_findLoops (hg : Rooted g) :
    ∃ s rank, Traversal.loops.Finishes g.clearFlow s ∧ s.graph = g.clearFlow.findLoops ∧
      Ranked g.clearFlow.findLoops.prune.2 rank ∧
      ∀ u v, g.CountedBack u v ↔ v ∈ g.clearFlow.findLoops.prune.2.succs u ∧ rank v ≤ rank u := by
  obtain ⟨st, hsteps, hnil, hgraph⟩ := Search.steps_findLoops hg
  obtain ⟨s, hmoves, hs, hcounted⟩ := Search.mirrors_countedBack hg hsteps
  have hpath : s.path = [] := by
    rw [← hs.path_eq, hnil]
    rfl
  have hended := Search.ended_of_moves hg (hgraph ▸ hmoves) hpath
  refine ⟨st, s.line.idxOf, .of_steps hsteps hnil, hgraph, hended.ranked_pruned, fun u v => ?_⟩
  have hedge : (u, v) ∈ st.followed ↔ v ∈ g.clearFlow.findLoops.prune.2.succs u := by
    rw [hs.seen_eq, hended.mem_seen_iff_pruned]
  have hle : (u, v) ∈ st.followed → (g.CountedBack u v ↔ s.line.idxOf v ≤ s.line.idxOf u) := by
    intro hmem
    have hv := (hs.sound.seen_mem _ (hs.seen_eq ▸ hmem)).2.2
    rw [hcounted u v hmem, before_iff hs.sound.nodup hv, Nat.not_lt]
  rw [← hedge]
  constructor
  · intro h
    have hmem : (u, v) ∈ st.followed := by
      obtain ⟨st₁, st₂, hsteps₁, hedge₁, hstep₁, -⟩ := h
      have hsteps₂ : Traversal.loops.Steps (Traversal.loops.start g.clearFlow) st₂ := hsteps₁.tail hstep₁
      apply (hsteps₂.to_end hsteps hnil).followed_subset
      rw [hstep₁.followed_eq hedge₁]
      exact List.mem_cons_self
    exact ⟨hmem, (hle hmem).1 h⟩
  · rintro ⟨hmem, hrank⟩
    exact (hle hmem).2 hrank

/-! ## The walk -/

/-- What holds of a graph at every stage of the dominator walk. -/
structure WalkStage (g : Graph) (s : Traversal.Stage) : Prop where
  /-- The walk goes on from a block when it has followed all edges to it that were not counted back. -/
  awaits : ∀ b ∈ s.entered, ∀ u, g.Reaches u → b ∈ g.succs u → ¬ g.CountedBack u b → (u, b) ∈ s.followed
  /-- A block still waits for the edge that is followed next. -/
  awaited_pos : ∀ u b, s.edge? = some (u, b) → ∀ block, s.graph.block? b = some block → 0 < block.awaited
  dominator_entered : ∀ b d, s.graph.dominator? b = some d → d ∈ s.entered
  /-- The chain that is climbed from a block goes up to the entry. -/
  chain : ∀ b ∈ s.entered, (s.graph.dominators b).getLast? = some entry

/-- What the dominator walk has done at its end. -/
structure WalkDone (g : Graph) (s : Traversal.Stage) : Prop where
  nodup_entered : s.entered.Nodup
  mem_entered_iff : ∀ b, b ∈ s.entered ↔ g.Reaches b
  nodup_followed : s.followed.Nodup
  mem_followed_iff : ∀ u v, (u, v) ∈ s.followed ↔ g.Reaches u ∧ v ∈ g.succs u
  hasBlock_iff : ∀ b, s.graph.hasBlock b = true ↔ g.Reaches b
  awaited_eq : ∀ b block, s.graph.block? b = some block → block.awaited = 0
  dominator_entry : s.graph.dominator? entry = none
  dominator : ∀ b, s.graph.hasBlock b = true → b ≠ entry → ∃ d, s.graph.dominator? b = some d
  chain : ∀ b, s.graph.hasBlock b = true → (s.graph.dominators b).getLast? = some entry
  dominates_iff : ∀ a b, s.graph.hasBlock b = true → (s.graph.dominates a b = true ↔ s.graph.Above a b)
  commonDominator : ∀ a b c, s.graph.hasBlock a = true → s.graph.hasBlock b = true →
    (s.graph.Above c (s.graph.commonDominator a b) ↔ s.graph.Above c a ∧ s.graph.Above c b)

namespace Tour

variable {g₀ : Graph} {s : Traversal.Stage}

theorem Mirrors.chain (h : Mirrors g₀ rank s) (hg : Ranked g₀ rank) (hb : b ∈ s.entered) :
    (s.graph.dominators b).getLast? = some entry := by
  have hc := h.sound.counts
  have hch := h.sound.chained
  exact getLast?_chainWith hch.falling (hch.dominator_entry hc hg) (Nat.lt_succ_of_le (hc.rank_le hg hb))
    (hch.entry_above hc hg hb)

theorem Mirrors.walkStage (h : Mirrors g₀ rank s) (hg : Ranked g₀ rank)
    (hsuccs : ∀ u, g.Reaches u → g₀.succs u = g.succs u)
    (hcounted : ∀ u v, v ∈ g₀.succs u → rank v ≤ rank u → g.CountedBack u v) : WalkStage g s := by
  constructor
  case awaits =>
    intro b hb u hu hsucc hnot
    rw [← hsuccs u hu] at hsucc
    refine h.sound.counts.full hb hsucc ?_
    by_contra hle
    exact hnot (hcounted u b hsucc (Nat.le_of_not_lt hle))
  case awaited_pos =>
    intro u b he block hb
    obtain ⟨hedge, hu, hnew⟩ := h.framed.edge he (hg.rooted.linked.succs_nodup u)
    have hawaited := h.sound.counts.awaited hb
    have hlt := h.sound.counts.length_sources_lt hg hu hedge hnew hb
    omega
  case dominator_entered =>
    intro b d hd
    exact (h.sound.chained.dominator hd).1
  case chain =>
    intro b hb
    exact h.chain hg hb

/-- When all edges were followed, no block waits. -/
theorem Counts.awaited_eq_zero {t : Tour} (h : Counts g₀ rank t g) (hg : Ranked g₀ rank)
    (hall : ∀ u v, v ∈ g₀.succs u → (u, v) ∈ t.seen) {block : Block} (hb : g.block? b = some block) :
    block.awaited = 0 := by
  obtain ⟨block₀, hb₀, hpreds, -, -⟩ := h.block_eq hb
  have hsub : block.preds ⊆ t.sources b := by
    intro u hu
    rw [← hpreds, ← preds_eq hb₀, ← hg.rooted.linked.mem_succs_iff] at hu
    exact mem_sources.2 (hall u b hu)
  have hnodup : block.preds.Nodup := hpreds ▸ hg.rooted.linked.nodup_preds hb₀
  have hle := (List.subperm_of_subset hnodup hsub).length_le
  have hawaited := h.awaited hb
  omega

theorem Mirrors.walkDone (h : Mirrors g₀ rank s) (hg : Ranked g₀ rank) (hnil : s.frames = [])
    (hhas : ∀ b, g₀.hasBlock b = true ↔ g.Reaches b) (hsuccs : ∀ u, g.Reaches u → g₀.succs u = g.succs u) :
    WalkDone g s := by
  have hc := h.sound.counts
  have hch := h.sound.chained
  have hentered : ∀ b, b ∈ s.entered ↔ g₀.hasBlock b = true := fun b =>
    ⟨hc.hasBlock_passed b, h.entered_of_end hg hnil⟩
  have hfollowed : ∀ u v, v ∈ g₀.succs u → (u, v) ∈ s.followed := by
    intro u v hv
    apply h.framed.finished u ((hentered u).2 (hg.rooted.linked.hasBlock_source hv)) _ v hv
    simp [hnil]
  have hsame := hc.keeps.hasBlock_eq
  have hrank : ∀ {b : BlockId}, s.graph.hasBlock b = true → rank b ≤ s.graph.blockCount := by
    intro b hb
    rw [hsame, ← hentered] at hb
    exact hc.rank_le hg hb
  constructor
  case nodup_entered => exact h.framed.nodup_entered
  case mem_entered_iff =>
    intro b
    rw [hentered, hhas]
  case nodup_followed => exact h.framed.nodup_followed
  case mem_followed_iff =>
    intro u v
    constructor
    · intro huv
      obtain ⟨hv, hu⟩ := h.framed.followed_mem _ huv
      have hreach := (hhas u).1 ((hentered u).1 hu)
      exact ⟨hreach, hsuccs u hreach ▸ hv⟩
    · rintro ⟨hreach, hv⟩
      exact hfollowed u v (hsuccs u hreach ▸ hv)
  case hasBlock_iff =>
    intro b
    rw [hsame, hhas]
  case awaited_eq =>
    intro b block hb
    exact hc.awaited_eq_zero hg hfollowed hb
  case dominator_entry => exact hch.dominator_entry hc hg
  case dominator =>
    intro b hb hne
    rw [hsame, ← hentered] at hb
    exact hch.dominator_of_passed hc hg hb hne
  case chain =>
    intro b hb
    rw [hsame, ← hentered] at hb
    exact h.chain hg hb
  case dominates_iff =>
    intro a b hb
    exact dominates_iff_above hch.falling (hrank hb)
  case commonDominator =>
    intro a b c ha hb
    apply above_commonDominator hch.falling (hrank ha) (hrank hb)
    rw [hsame, ← hentered] at ha hb
    exact ⟨hch.entry_above hc hg ha, hch.entry_above hc hg hb⟩

end Tour

/-- The analysis of a graph comes to an end, whether the graph is reducible or not. The dominator walk goes on
from every block that paths lead to once, and follows every edge between such blocks once. It goes on from a block
after all edges to it that the search for loops did not count back, and in the end every block has the entry above
it. -/
theorem analyze_walks_in_order (h : Drawn g) :
    ∃ summary g' searchEnd walkEnd, g.analyze = .ok (summary, g') ∧
      Traversal.loops.Finishes g.clearFlow searchEnd ∧
      Traversal.dominators.Finishes searchEnd.graph.prune.2.clearDominators walkEnd ∧ walkEnd.graph = g' ∧
      (∀ b block, g'.block? b = some block → block.backEdges = {u | g.CountedBack u b}.ncard) ∧
      (∀ s, Traversal.dominators.Steps (Traversal.dominators.start searchEnd.graph.prune.2.clearDominators) s →
        WalkStage g s) ∧
      WalkDone g walkEnd := by
  obtain ⟨hg, horder⟩ := h.rooted
  obtain ⟨searchEnd, rank, hsearch, hgraph, hranked, hcounted⟩ := finishes_findLoops hg
  obtain ⟨-, hhas, hsuccs⟩ := exists_ranked hg
  obtain ⟨walkEnd, hsteps, hnil, hwalk⟩ := Tour.steps_findDominators hranked
  have hend := Tour.mirrors_of_steps hranked hsteps
  have hrankedEnd := hranked.of_keeps hend.sound.counts.keeps
  have hok := hg.analyze_eq horder
  rw [← hwalk] at hok
  refine ⟨_, walkEnd.graph, searchEnd, walkEnd, hok, hsearch, ?_, rfl, ?_, ?_, ?_⟩
  · rw [hgraph]
    exact .of_steps hsteps hnil
  · intro b block hb
    rw [hrankedEnd.backEdges_eq_ncard hb]
    congr 1
    ext u
    rw [Set.mem_ofPred_eq, Set.mem_ofPred_eq, hcounted, hend.sound.counts.keeps.succs_eq]
  · intro s hs
    rw [hgraph] at hs
    exact (Tour.mirrors_of_steps hranked hs).walkStage hranked hsuccs fun u v hv hle => (hcounted u v).2 ⟨hv, hle⟩
  · exact hend.walkDone hranked hnil hhas hsuccs

/-- Two blocks that lead to each other and to neither of which every path leads through the other. -/
theorem analyze_walks_in_order_of_two_entries :
    ∃ g, Drawn g ∧ (∀ u v, v ∈ g.succs u ↔ (u, v) ∈ [(0, 1), (0, 2), (1, 2), (2, 1)]) ∧ ¬ g.Dominates 1 2 ∧
      ¬ g.Dominates 2 1 ∧ ∃ summary g' searchEnd walkEnd, g.analyze = .ok (summary, g') ∧
        Traversal.loops.Finishes g.clearFlow searchEnd ∧
        Traversal.dominators.Finishes searchEnd.graph.prune.2.clearDominators walkEnd ∧ walkEnd.graph = g' ∧
        WalkDone g walkEnd ∧ 1 ∈ walkEnd.entered ∧ 2 ∈ walkEnd.entered := by
  obtain ⟨g, hdrawn, hsuccs⟩ := Drawn.exists_of_edges 3 [(0, 1), (0, 2), (1, 2), (2, 1)] (by decide) (by decide)
  have hto : ∀ {b : BlockId}, b ∈ [1, 2] → Path g b [b, entry] := by
    intro b hb
    apply Path.start.step
    rw [hsuccs]
    simpa [entry] using hb
  obtain ⟨summary, g', searchEnd, walkEnd, hok, hsearch, hwalk, heq, -, -, hdone⟩ := analyze_walks_in_order hdrawn
  refine ⟨g, hdrawn, hsuccs, ?_, ?_, summary, g', searchEnd, walkEnd, hok, hsearch, hwalk, heq, hdone, ?_, ?_⟩
  · intro hdom
    have := hdom _ (hto (by decide))
    simp [entry] at this
  · intro hdom
    have := hdom _ (hto (by decide))
    simp [entry] at this
  · exact (hdone.mem_entered_iff 1).2 (hto (by decide)).reaches
  · exact (hdone.mem_entered_iff 2).2 (hto (by decide)).reaches

end Destack.Graph
