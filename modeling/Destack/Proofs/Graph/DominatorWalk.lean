import Destack.Proofs.Graph.Chains
import Destack.Proofs.Graph.LoopSearch

/-!
# The dominator walk

The walk goes on from a block when it has seen as many edges into it as raise the rank. An edge that does not raise the
rank closes a cycle of edges that do, so the walk sees it only when it has gone on from its target; hence it goes
on from a block just when it has seen all edges into it that raise the rank, and it goes on from every block once
(`Counts`).

All the while a dominator is one of the blocks gone on from (`Chained`). As long as every edge seen that does not raise
the rank leads to a block above its source, the blocks above a block are at least those that dominate it, and no chain
loses a block again (`Faithful`). Once an edge is seen that leads back to a block that is not above its source, this
stays so (`Broken`), and that block does not dominate the source.
-/

namespace Destack.Graph

variable {g₀ g g' : Graph} {rank : BlockId → Nat} {p b k u v : BlockId}

/-! ## What the walk leaves alone -/

/-- A block without the marks of the dominator walk. -/
def undominated (block : Block) : Block :=
  { block with dominator := none, awaited := 0 }

theorem Keeps.succs_eq (h : Keeps undominated g g') (b : BlockId) : g'.succs b = g.succs b := by
  have := congrArg (Option.map Block.succs) (h b)
  simp only [Option.map_map] at this
  exact congrArg (Option.getD · []) this

theorem seeEdge_keeps (g : Graph) (source target : BlockId) : Keeps undominated g (g.seeEdge source target) :=
  Keeps.modifyBlock g target fun _ => rfl

theorem block?_seeEdge (g : Graph) (source target : BlockId) :
    (g.seeEdge source target).block? k =
      if k = target then (g.block? target).map fun block =>
        { block with awaited := block.awaited - 1, dominator := some (g.narrowed source target) }
      else g.block? k :=
  block?_modifyBlock ..

theorem dominator?_seeEdge (ht : g.hasBlock b = true) :
    (g.seeEdge p b).dominator? k = if k = b then some (g.narrowed p b) else g.dominator? k := by
  obtain ⟨block, hb⟩ := hasBlock_iff.1 ht
  unfold dominator?
  rw [block?_seeEdge]
  split
  · simp [hb]
  · rfl

/-! ## Stages -/

/-- A stage of the walk. -/
structure Tour where
  /-- Blocks that the walk has gone on from, last one first. -/
  passed : List BlockId
  /-- Edges seen, last one first. -/
  seen : List (BlockId × BlockId)

/-- Predecessors whose edge to a block raises the rank. -/
def raising (g : Graph) (rank : BlockId → Nat) (b : BlockId) : List BlockId :=
  (g.preds b).filter fun p => rank p < rank b

namespace Tour

variable {t t' : Tour}

/-- Blocks from which an edge to a block was seen. -/
def sources (t : Tour) (b : BlockId) : List BlockId :=
  (t.seen.filter fun e => e.2 = b).map Prod.fst

theorem mem_sources : p ∈ t.sources b ↔ (p, b) ∈ t.seen := by
  simp [sources]

/-- The stage after an edge. -/
def see (t : Tour) (g : Graph) (rank : BlockId → Nat) (p b : BlockId) : Tour where
  passed := if (t.sources b).length + 1 = (g.raising rank b).length then b :: t.passed else t.passed
  seen := (p, b) :: t.seen

theorem sources_see : (t.see g rank p b).sources k = if k = b then p :: t.sources b else t.sources k := by
  unfold see sources
  by_cases h : k = b
  · subst h
    simp
  · simp [h, Ne.symm h]

theorem passed_subset_see : t.passed ⊆ (t.see g rank p b).passed := by
  unfold see
  dsimp only
  split
  · exact List.subset_cons_self _ _
  · exact fun _ h => h

theorem mem_passed_see : k ∈ (t.see g rank p b).passed ↔
    k ∈ t.passed ∨ k = b ∧ (t.sources b).length + 1 = (g.raising rank b).length := by
  unfold see
  dsimp only
  split
  · next h => simp [h, or_comm]
  · next h => simp [h]

/-! ## Counts -/

/-- What the walk has counted at a stage. -/
structure Counts (g₀ : Graph) (rank : BlockId → Nat) (t : Tour) (g : Graph) : Prop where
  keeps : Keeps undominated g₀ g
  nodup_passed : t.passed.Nodup
  nodup_seen : t.seen.Nodup
  seen_mem : ∀ e ∈ t.seen, e.2 ∈ g₀.succs e.1 ∧ e.1 ∈ t.passed
  hasBlock_passed : ∀ b ∈ t.passed, g₀.hasBlock b = true
  awaited : ∀ {b : BlockId} {block : Block}, g.block? b = some block →
    block.awaited + (t.sources b).length = block.preds.length
  passed_iff : ∀ {b : BlockId}, g₀.hasBlock b = true →
    (b ∈ t.passed ↔ (g₀.raising rank b).length ≤ (t.sources b).length)
  /-- Only edges that raise the rank are seen before the walk goes on from their target. -/
  fresh : ∀ {p b : BlockId}, b ∉ t.passed → (p, b) ∈ t.seen → rank p < rank b
  /-- All edges that raise the rank are seen by the time the walk goes on from their target. -/
  full : ∀ {p b : BlockId}, b ∈ t.passed → b ∈ g₀.succs p → rank p < rank b → (p, b) ∈ t.seen

theorem Counts.nodup_sources (h : Counts g₀ rank t g) (b : BlockId) : (t.sources b).Nodup := by
  refine (h.nodup_seen.filter _).map_on fun e he e' he' heq => ?_
  simp only [List.mem_filter, decide_eq_true_eq] at he he'
  exact Prod.ext heq (he.2.trans he'.2.symm)

theorem mem_raising (hg : Ranked g₀ rank) : p ∈ g₀.raising rank b ↔ b ∈ g₀.succs p ∧ rank p < rank b := by
  unfold raising
  rw [List.mem_filter, ← hg.rooted.linked.mem_succs_iff, decide_eq_true_eq]

/-- The sources of edges that raise the rank have been passed before their targets. -/
theorem Counts.passed_of_raises (h : Counts g₀ rank t g) (huv : Relation.ReflTransGen (g₀.Raises rank) u v)
    (hv : v ∈ t.passed) : u ∈ t.passed := by
  induction huv using Relation.ReflTransGen.head_induction_on with
  | refl => exact hv
  | head hxy _ ih => exact (h.seen_mem _ (h.full ih hxy.1 hxy.2)).2

/-- An edge from a passed block to one that is not passed raises the rank. -/
theorem Counts.raises (h : Counts g₀ rank t g) (hg : Ranked g₀ rank) (hp : p ∈ t.passed) (hb : b ∈ g₀.succs p)
    (hnot : b ∉ t.passed) : rank p < rank b := by
  by_contra hle
  exact hnot (h.passed_of_raises (hg.retreat hb (by omega)) hp)

/-- A new edge to a passed block does not raise the rank. -/
theorem Counts.retreats (h : Counts g₀ rank t g) (hb : b ∈ g₀.succs p) (hnew : (p, b) ∉ t.seen)
    (hpassed : b ∈ t.passed) : rank b ≤ rank p := by
  by_contra hlt
  exact hnew (h.full hpassed hb (by omega))

theorem length_preds (hg : Ranked g₀ rank) {block : Block} (hb : g₀.block? b = some block) :
    (g₀.raising rank b).length + block.backEdges = block.preds.length := by
  have hsplit := List.length_eq_countP_add_countP (fun p => decide (rank p < rank b)) (l := block.preds)
  have hnot : block.preds.countP (fun p => !decide (rank p < rank b)) =
      block.preds.countP fun p => decide (rank b ≤ rank p) := by
    refine List.countP_congr fun p _ => ?_
    simp
  unfold raising
  rw [preds_eq hb, hg.backEdges hb, hsplit, ← List.countP_eq_length_filter, ← hnot]
  simp only [decide_not, Bool.decide_eq_true]

theorem Counts.block_eq (h : Counts g₀ rank t g) {block : Block} (hb : g.block? b = some block) :
    ∃ block₀, g₀.block? b = some block₀ ∧ block₀.preds = block.preds ∧ block₀.succs = block.succs ∧
      block₀.backEdges = block.backEdges := by
  obtain ⟨block₀, hb₀, hview⟩ := h.keeps.symm.exists_block hb
  exact ⟨block₀, hb₀, (congrArg Block.preds hview :), (congrArg Block.succs hview :),
    (congrArg Block.backEdges hview :)⟩

section See

variable (h : Counts g₀ rank t g) (hg : Ranked g₀ rank) (hp : p ∈ t.passed) (hb : b ∈ g₀.succs p)
  (hnew : (p, b) ∉ t.seen)
include h hg hp hb hnew

theorem Counts.length_sources_lt {block : Block} (hblock : g.block? b = some block) :
    (t.sources b).length < block.preds.length := by
  obtain ⟨block₀, hb₀, hpreds, -, -⟩ := h.block_eq hblock
  have hsub : p :: t.sources b ⊆ block.preds := by
    intro u hu
    rw [← hpreds, ← preds_eq hb₀, ← hg.rooted.linked.mem_succs_iff]
    rcases List.mem_cons.1 hu with rfl | hu
    · exact hb
    · exact (h.seen_mem _ (mem_sources.1 hu)).1
  have hnodup : (p :: t.sources b).Nodup :=
    List.nodup_cons.2 ⟨fun hmem => hnew (mem_sources.1 hmem), h.nodup_sources b⟩
  exact (List.subperm_of_subset hnodup hsub).length_le

/-- A block that is not passed has edges that raise the rank left, and the new edge is one of them. -/
theorem Counts.sources_subset (hnot : b ∉ t.passed) : p :: t.sources b ⊆ g₀.raising rank b := by
  intro u hu
  rw [mem_raising hg]
  rcases List.mem_cons.1 hu with rfl | hu
  · exact ⟨hb, h.raises hg hp hb hnot⟩
  · have hseen := mem_sources.1 hu
    exact ⟨(h.seen_mem _ hseen).1, h.fresh hnot hseen⟩

theorem Counts.see : Counts g₀ rank (t.see g₀ rank p b) (g.seeEdge p b) := by
  have hlinked := hg.rooted.linked
  have hnodup : (p :: t.sources b).Nodup :=
    List.nodup_cons.2 ⟨fun hmem => hnew (mem_sources.1 hmem), h.nodup_sources b⟩
  have hpassed_of_eq : (t.sources b).length + 1 = (g₀.raising rank b).length → b ∉ t.passed := by
    intro heq hmem
    have := (h.passed_iff (hlinked.hasBlock_target hb)).1 hmem
    omega
  constructor
  case keeps => exact h.keeps.trans (seeEdge_keeps g p b)
  case nodup_passed =>
    unfold Tour.see
    dsimp only
    split
    · next heq => exact List.nodup_cons.2 ⟨hpassed_of_eq heq, h.nodup_passed⟩
    · exact h.nodup_passed
  case nodup_seen => exact List.nodup_cons.2 ⟨hnew, h.nodup_seen⟩
  case seen_mem =>
    intro e he
    rcases List.mem_cons.1 he with rfl | he
    · exact ⟨hb, passed_subset_see hp⟩
    · exact ⟨(h.seen_mem e he).1, passed_subset_see (h.seen_mem e he).2⟩
  case hasBlock_passed =>
    intro k hk
    rcases mem_passed_see.1 hk with hk | ⟨rfl, -⟩
    · exact h.hasBlock_passed k hk
    · exact hlinked.hasBlock_target hb
  case awaited =>
    intro k block' hk
    rw [block?_seeEdge] at hk
    rw [sources_see]
    split at hk
    · next hkb =>
      subst hkb
      obtain ⟨block, hblock, rfl⟩ := Option.map_eq_some_iff.1 hk
      have := h.awaited hblock
      have := h.length_sources_lt hg hp hb hnew hblock
      simp only [if_true, List.length_cons]
      omega
    · next hkb =>
      rw [if_neg hkb]
      exact h.awaited hk
  case passed_iff =>
    intro k hk
    rw [mem_passed_see, sources_see, h.passed_iff hk]
    by_cases hkb : k = b
    · subst hkb
      simp only [true_and, if_true, List.length_cons]
      omega
    · simp [hkb]
  case fresh =>
    intro u k hk hseen
    rw [mem_passed_see, not_or] at hk
    rcases List.mem_cons.1 hseen with heq | hseen
    · obtain ⟨rfl, rfl⟩ := Prod.mk.inj heq
      exact h.raises hg hp hb hk.1
    · exact h.fresh hk.1 hseen
  case full =>
    intro u k hk hsucc hlt
    rcases mem_passed_see.1 hk with hk | ⟨rfl, heq⟩
    · exact List.mem_cons_of_mem _ (h.full hk hsucc hlt)
    · -- As many edges were seen as raise the rank, so all of these were seen.
      have hsub := h.sources_subset hg hp hb hnew (hpassed_of_eq heq)
      have hperm := (List.subperm_of_subset hnodup hsub).perm_of_length_le (by simp [heq])
      have hmem : u ∈ p :: t.sources k := hperm.mem_iff.2 ((mem_raising hg).2 ⟨hsucc, hlt⟩)
      rcases List.mem_cons.1 hmem with rfl | hmem
      · exact List.mem_cons_self
      · exact List.mem_cons_of_mem _ (mem_sources.1 hmem)

/-- The walk goes on from the target just when the last edge to it that raises the rank was seen. -/
theorem Counts.awaited_eq_iff {block : Block} (hblock : (g.seeEdge p b).block? b = some block) :
    block.awaited = block.backEdges ↔ (t.sources b).length + 1 = (g₀.raising rank b).length := by
  have hcounts := (h.see hg hp hb hnew)
  obtain ⟨block₀, hb₀, hpreds, -, hback⟩ := hcounts.block_eq hblock
  have hawaited := hcounts.awaited hblock
  have hlen := length_preds hg hb₀
  rw [sources_see, if_pos rfl, List.length_cons] at hawaited
  rw [hpreds, hback] at hlen
  omega

end See

/-! ## Chains -/

/-- Dominators are blocks that the walk has gone on from, and a block has one as soon as an edge to it was seen. -/
structure Chained (rank : BlockId → Nat) (t : Tour) (g : Graph) : Prop where
  dominator : ∀ {b d : BlockId}, g.dominator? b = some d → d ∈ t.passed ∧ rank d < rank b
  exists_dominator : ∀ {p b : BlockId}, (p, b) ∈ t.seen → ∃ d, g.dominator? b = some d

theorem Chained.falling (h : Chained rank t g) : g.Falling rank :=
  fun hd => (h.dominator hd).2

theorem Chained.passed_of_above (h : Chained rank t g) {a : BlockId} (hab : g.Above a b) (hb : b ∈ t.passed) :
    a ∈ t.passed := by
  induction hab with
  | refl => exact hb
  | tail _ hxy _ => exact (h.dominator hxy).1

/-- A block that was passed and is not the entry has a dominator. -/
theorem Chained.dominator_of_passed (h : Chained rank t g) (hc : Counts g₀ rank t g) (hg : Ranked g₀ rank)
    (hb : b ∈ t.passed) (hne : b ≠ entry) : ∃ d, g.dominator? b = some d := by
  rcases Relation.ReflTransGen.cases_tail (hg.reach (hc.hasBlock_passed b hb)) with heq | ⟨u, -, hu⟩
  · exact absurd heq hne
  · exact h.exists_dominator (hc.full hb hu.1 hu.2)

theorem Chained.entry_above (h : Chained rank t g) (hc : Counts g₀ rank t g) (hg : Ranked g₀ rank)
    (hb : b ∈ t.passed) : g.Above entry b := by
  induction hn : rank b using Nat.strong_induction_on generalizing b with
  | _ n ih =>
    by_cases hne : b = entry
    · rw [hne]
      exact Above.refl g entry
    · obtain ⟨d, hd⟩ := h.dominator_of_passed hc hg hb hne
      obtain ⟨hd', hlt⟩ := h.dominator hd
      exact (ih (rank d) (hn ▸ hlt) hd' rfl).of_dominator hd

/-- The entry has the lowest rank, so it has no dominator. -/
theorem Chained.dominator_entry (h : Chained rank t g) (hc : Counts g₀ rank t g) (hg : Ranked g₀ rank) :
    g.dominator? entry = none := by
  cases hd : g.dominator? entry with
  | none => rfl
  | some d =>
    obtain ⟨hd', hlt⟩ := h.dominator hd
    have := (h.entry_above hc hg hd').rank_le h.falling
    omega

theorem Counts.rank_le (hc : Counts g₀ rank t g) (hg : Ranked g₀ rank) (hb : b ∈ t.passed) :
    rank b ≤ g.blockCount := by
  have := hg.rank_lt (hc.hasBlock_passed b hb)
  rw [hc.keeps.blockCount_eq]
  omega

theorem Counts.hasBlock_target (hc : Counts g₀ rank t g) (hg : Ranked g₀ rank) (hb : b ∈ g₀.succs p) :
    g.hasBlock b = true :=
  (hc.keeps.hasBlock_eq b).trans (hg.rooted.linked.hasBlock_target hb)

/-- Until the walk goes on from a block, no chain of another block passes it. -/
theorem Chained.above_seeEdge_iff (h : Chained rank t g) (hc : Counts g₀ rank t g) (hg : Ranked g₀ rank)
    (hb : b ∈ g₀.succs p) {a : BlockId} (hnot : b ∉ t.passed) (hk : k ≠ b) :
    (g.seeEdge p b).Above a k ↔ g.Above a k := by
  have hhas := hc.hasBlock_target hg hb
  constructor
  · intro hab
    induction hab using Relation.ReflTransGen.head_induction_on with
    | refl => exact Above.refl g a
    | head hxy _ ih =>
      rw [dominator?_seeEdge hhas, if_neg hk] at hxy
      refine Above.of_dominator hxy (ih fun e => hnot ?_)
      exact e ▸ (h.dominator hxy).1
  · intro hab
    induction hab using Relation.ReflTransGen.head_induction_on with
    | refl => exact Above.refl _ a
    | head hxy _ ih =>
      refine Above.of_dominator ?_ (ih fun e => hnot ?_)
      · rw [dominator?_seeEdge hhas, if_neg hk]
        exact hxy
      · exact e ▸ (h.dominator hxy).1

section See

variable (h : Chained rank t g) (hc : Counts g₀ rank t g) (hg : Ranked g₀ rank) (hp : p ∈ t.passed)
  (hb : b ∈ g₀.succs p) (hnew : (p, b) ∉ t.seen)
include h hc hg hp

/-- Above the new dominator is what is above the old one and above the source of the edge. -/
theorem Chained.above_narrowed {a : BlockId} :
    g.Above a (g.narrowed p b) ↔ (∀ c, g.dominator? b = some c → g.Above a c) ∧ g.Above a p := by
  unfold narrowed
  cases hd : g.dominator? b with
  | none => simp
  | some c =>
    have hc' := (h.dominator hd).1
    simp only [Option.some.injEq, forall_eq']
    exact above_commonDominator h.falling (hc.rank_le hg hc') (hc.rank_le hg hp)
      ⟨h.entry_above hc hg hc', h.entry_above hc hg hp⟩

theorem Chained.narrowed_above_source : g.Above (g.narrowed p b) p :=
  ((h.above_narrowed hc hg hp).1 (Above.refl g _)).2

theorem Chained.narrowed_above_dominator {c : BlockId} (hd : g.dominator? b = some c) :
    g.Above (g.narrowed p b) c :=
  ((h.above_narrowed hc hg hp).1 (Above.refl g _)).1 c hd

theorem Chained.narrowed_passed : g.narrowed p b ∈ t.passed :=
  h.passed_of_above (h.narrowed_above_source hc hg hp) hp

include hb

theorem Chained.rank_narrowed : rank (g.narrowed p b) < rank b := by
  cases hd : g.dominator? b with
  | some c =>
    have := (h.narrowed_above_dominator hc hg hp hd).rank_le h.falling
    have := h.falling hd
    omega
  | none =>
    have hnot : b ∉ t.passed := by
      intro hpassed
      have hne : b ≠ entry := fun e => hg.rooted.entry_not_mem_succs p (e ▸ hb)
      obtain ⟨d, hd'⟩ := h.dominator_of_passed hc hg hpassed hne
      rw [hd] at hd'
      cases hd'
    have := (h.narrowed_above_source hc hg hp (b := b)).rank_le h.falling
    have := hc.raises hg hp hb hnot
    omega

theorem Chained.see : Chained rank (t.see g₀ rank p b) (g.seeEdge p b) := by
  have hhas := hc.hasBlock_target hg hb
  constructor
  · intro k d hd
    rw [dominator?_seeEdge hhas] at hd
    split at hd
    · next hk =>
      obtain rfl := Option.some.inj hd
      subst hk
      exact ⟨passed_subset_see (h.narrowed_passed hc hg hp), h.rank_narrowed hc hg hp hb⟩
    · exact ⟨passed_subset_see (h.dominator hd).1, (h.dominator hd).2⟩
  · intro u k hseen
    rw [dominator?_seeEdge hhas]
    split
    · exact ⟨_, rfl⟩
    · next hk =>
      rcases List.mem_cons.1 hseen with heq | hseen
      · exact absurd (Prod.mk.inj heq).2 hk
      · exact h.exists_dominator hseen

/-- After the walk has gone on from a block, chains that pass it only lose blocks. -/
theorem Chained.above_of_above_seeEdge {a : BlockId} (hpassed : b ∈ t.passed) (hab : (g.seeEdge p b).Above a k) :
    g.Above a k := by
  have hne : b ≠ entry := fun e => hg.rooted.entry_not_mem_succs p (e ▸ hb)
  obtain ⟨c, hd⟩ := h.dominator_of_passed hc hg hpassed hne
  refine hab.mono fun {x y} hxy => ?_
  rw [dominator?_seeEdge (hc.hasBlock_target hg hb)] at hxy
  split at hxy
  · next hx =>
    obtain rfl := Option.some.inj hxy
    rw [hx]
    exact (h.narrowed_above_dominator hc hg hp hd).of_dominator hd
  · exact Above.of_dominator hxy (Above.refl g y)

end See

/-! ## Dominance -/

/-- The chains show what the edges seen leave possible. -/
structure Faithful (g₀ : Graph) (rank : BlockId → Nat) (t : Tour) (g : Graph) : Prop where
  through : ∀ {p b d : BlockId}, (p, b) ∈ t.seen → g.dominator? b = some d → g.Above d p
  complete : ∀ {a b d : BlockId}, g₀.Dominates a b → a ≠ b → g.dominator? b = some d → g.Above a d
  closed : ∀ {u v : BlockId}, (u, v) ∈ t.seen → rank v ≤ rank u → g.Above v u

/-- An edge was seen that leads back to a block that is not above its source and does not dominate it. -/
def Broken (g₀ : Graph) (rank : BlockId → Nat) (t : Tour) (g : Graph) : Prop :=
  ∃ u v, (u, v) ∈ t.seen ∧ rank v ≤ rank u ∧ ¬ g.Above v u ∧ ¬ g₀.Dominates v u

theorem Faithful.above_of_dominates (h : Faithful g₀ rank t g) (hch : Chained rank t g) (hc : Counts g₀ rank t g)
    (hg : Ranked g₀ rank) {a : BlockId} (hb : b ∈ t.passed) (hab : g₀.Dominates a b) : g.Above a b := by
  by_cases hne : a = b
  · rw [hne]
    exact Above.refl g b
  · have hentry : b ≠ entry := fun e => hne ((eq_entry_of_dominates (e ▸ hab)).trans e.symm)
    obtain ⟨d, hd⟩ := hch.dominator_of_passed hc hg hb hentry
    exact (h.complete hab hne hd).of_dominator hd

section See

variable (hch : Chained rank t g) (hc : Counts g₀ rank t g) (hg : Ranked g₀ rank) (hp : p ∈ t.passed)
  (hb : b ∈ g₀.succs p) (hnew : (p, b) ∉ t.seen)
include hch hc hg hp hb

theorem Broken.see (h : Broken g₀ rank t g) : Broken g₀ rank (t.see g₀ rank p b) (g.seeEdge p b) := by
  obtain ⟨u, v, hseen, hle, habove, hdom⟩ := h
  refine ⟨u, v, List.mem_cons_of_mem _ hseen, hle, fun hnow => habove ?_, hdom⟩
  by_cases hpassed : b ∈ t.passed
  · exact hch.above_of_above_seeEdge hc hg hp hb hpassed hnow
  · have hu : u ≠ b := fun e => hpassed (e ▸ (hc.seen_mem _ hseen).2)
    exact (hch.above_seeEdge_iff hc hg hb hpassed hu).1 hnow

/-- The first edges to a block narrow its dominator. -/
theorem Faithful.see_fresh (h : Faithful g₀ rank t g) (hnot : b ∉ t.passed) :
    Faithful g₀ rank (t.see g₀ rank p b) (g.seeEdge p b) := by
  have hhas := hc.hasBlock_target hg hb
  have hsame : ∀ {a k : BlockId}, k ∈ t.passed → ((g.seeEdge p b).Above a k ↔ g.Above a k) := fun hk =>
    hch.above_seeEdge_iff hc hg hb hnot fun e => hnot (e ▸ hk)
  constructor
  case through =>
    intro u k d hseen hd
    have hu : u ∈ t.passed := by
      rcases List.mem_cons.1 hseen with heq | hseen
      · exact (Prod.mk.inj heq).1 ▸ hp
      · exact (hc.seen_mem _ hseen).2
    rw [hsame hu]
    rw [dominator?_seeEdge hhas] at hd
    split at hd
    · next hk =>
      obtain rfl := Option.some.inj hd
      subst hk
      rcases List.mem_cons.1 hseen with heq | hseen
      · rw [(Prod.mk.inj heq).1]
        exact hch.narrowed_above_source hc hg hp
      · obtain ⟨c, hcd⟩ := hch.exists_dominator hseen
        exact (hch.narrowed_above_dominator hc hg hp hcd).trans (h.through hseen hcd)
    · next hk =>
      rcases List.mem_cons.1 hseen with heq | hseen
      · exact absurd (Prod.mk.inj heq).2 hk
      · exact h.through hseen hd
  case complete =>
    intro a k d hab hne hd
    rw [dominator?_seeEdge hhas] at hd
    split at hd
    · next hk =>
      obtain rfl := Option.some.inj hd
      subst hk
      rw [hsame (hch.narrowed_passed hc hg hp), hch.above_narrowed hc hg hp]
      exact ⟨fun c hcd => h.complete hab hne hcd, h.above_of_dominates hch hc hg hp (hab.pred hne hb)⟩
    · rw [hsame (hch.dominator hd).1]
      exact h.complete hab hne hd
  case closed =>
    intro u v hseen hle
    rcases List.mem_cons.1 hseen with heq | hseen
    · obtain ⟨rfl, rfl⟩ := Prod.mk.inj heq
      have := hc.raises hg hp hb hnot
      omega
    · rw [hsame (hc.seen_mem _ hseen).2]
      exact h.closed hseen hle

/-- An edge back to a block above its source changes no dominator. -/
theorem Faithful.see_above (h : Faithful g₀ rank t g) (hpassed : b ∈ t.passed) (habove : g.Above b p) :
    Faithful g₀ rank (t.see g₀ rank p b) (g.seeEdge p b) := by
  have hne : b ≠ entry := fun e => hg.rooted.entry_not_mem_succs p (e ▸ hb)
  obtain ⟨c, hcd⟩ := hch.dominator_of_passed hc hg hpassed hne
  have hcp : g.Above c p := ((Above.refl g c).of_dominator hcd).trans habove
  have hnarrowed : g.narrowed p b = c := by
    refine Above.antisymm hch.falling (hch.narrowed_above_dominator hc hg hp hcd) ?_
    refine (hch.above_narrowed hc hg hp).2 ⟨fun c' hcd' => ?_, hcp⟩
    obtain rfl := Option.some.inj (hcd.symm.trans hcd')
    exact Above.refl g c
  have hdominator : ∀ k, (g.seeEdge p b).dominator? k = g.dominator? k := by
    intro k
    rw [dominator?_seeEdge (hc.hasBlock_target hg hb), hnarrowed]
    split
    · next hk => rw [hk, hcd]
    · rfl
  have hsame : ∀ {a k : BlockId}, (g.seeEdge p b).Above a k ↔ g.Above a k := by
    intro a k
    unfold Above
    simp only [hdominator]
  constructor
  case through =>
    intro u k d hseen hd
    rw [hdominator] at hd
    rw [hsame]
    rcases List.mem_cons.1 hseen with heq | hseen
    · obtain ⟨rfl, rfl⟩ := Prod.mk.inj heq
      obtain rfl := Option.some.inj (hcd.symm.trans hd)
      exact hcp
    · exact h.through hseen hd
  case complete =>
    intro a k d hab hne' hd
    rw [hdominator] at hd
    rw [hsame]
    exact h.complete hab hne' hd
  case closed =>
    intro u v hseen hle
    rw [hsame]
    rcases List.mem_cons.1 hseen with heq | hseen
    · obtain ⟨rfl, rfl⟩ := Prod.mk.inj heq
      exact habove
    · exact h.closed hseen hle

include hnew

theorem Faithful.see (h : Faithful g₀ rank t g) :
    Faithful g₀ rank (t.see g₀ rank p b) (g.seeEdge p b) ∨ Broken g₀ rank (t.see g₀ rank p b) (g.seeEdge p b) := by
  by_cases hpassed : b ∈ t.passed
  · by_cases habove : g.Above b p
    · exact Or.inl (h.see_above hch hc hg hp hb hpassed habove)
    · refine Or.inr ⟨p, b, List.mem_cons_self, hc.retreats hb hnew hpassed, fun hnow => habove ?_,
        fun hdom => habove ?_⟩
      · exact hch.above_of_above_seeEdge hc hg hp hb hpassed hnow
      · exact h.above_of_dominates hch hc hg hp hdom
  · exact Or.inl (h.see_fresh hch hc hg hp hb hpassed)

end See

/-! ## The run of the walk -/

/-- What holds at every stage of the walk. -/
structure Sound (g₀ : Graph) (rank : BlockId → Nat) (t : Tour) (g : Graph) : Prop where
  counts : Counts g₀ rank t g
  chained : Chained rank t g
  faithful_or_broken : Faithful g₀ rank t g ∨ Broken g₀ rank t g

theorem Sound.see (h : Sound g₀ rank t g) (hg : Ranked g₀ rank) (hp : p ∈ t.passed) (hb : b ∈ g₀.succs p)
    (hnew : (p, b) ∉ t.seen) : Sound g₀ rank (t.see g₀ rank p b) (g.seeEdge p b) := by
  refine ⟨h.counts.see hg hp hb hnew, h.chained.see h.counts hg hp hb, ?_⟩
  rcases h.faithful_or_broken with hf | hbr
  · exact hf.see h.chained h.counts hg hp hb hnew
  · exact Or.inr (hbr.see h.chained h.counts hg hp hb)

/-- Where an edge leads, the walk goes on just when that was the last edge that raises the rank. -/
theorem Counts.arrive (h : Counts g₀ rank t g) (hg : Ranked g₀ rank) (hp : p ∈ t.passed) (hb : b ∈ g₀.succs p)
    (hnew : (p, b) ∉ t.seen) : Traversal.dominators.arrive (some p) b g =
      (decide ((t.sources b).length + 1 = (g₀.raising rank b).length), g.seeEdge p b) := by
  have hkeeps := (h.see hg hp hb hnew).keeps
  obtain ⟨block, hblock⟩ := hasBlock_iff.1 ((hkeeps.hasBlock_eq b).trans (hg.rooted.linked.hasBlock_target hb))
  have htest := h.awaited_eq_iff hg hp hb hnew hblock
  simp only [Traversal.dominators, Traversal.seeFrom, hblock, Option.any_some, htest]

/-- What holds at every stage of the walk as a traversal. -/
structure Mirrors (g₀ : Graph) (rank : BlockId → Nat) (st : Traversal.Stage) : Prop where
  framed : Traversal.Framed g₀ st
  sound : Sound g₀ rank ⟨st.entered, st.followed⟩ st.graph

theorem Mirrors.step {st st' : Traversal.Stage} (hg : Ranked g₀ rank) (h : Mirrors g₀ rank st)
    (hstep : Traversal.dominators.Step st st') : Mirrors g₀ rank st' := by
  have hnodup := hg.rooted.linked.succs_nodup
  cases hstep with
  | @enter p b todo rest g g' entered followed harrive =>
    have hedge := h.framed.edge_mem
    have hp := h.framed.entered_mem
    have hnew := h.framed.edge_new (hnodup p)
    have hsee := h.sound.see hg hp hedge hnew
    rw [h.sound.counts.arrive hg hp hedge hnew] at harrive
    obtain ⟨hgo, rfl⟩ := Prod.mk.inj harrive
    have hpassed : (see ⟨entered, followed⟩ g₀ rank p b).passed = b :: entered := if_pos (of_decide_eq_true hgo)
    have hfresh : b ∉ entered := by
      have := hsee.counts.nodup_passed
      rw [hpassed] at this
      exact (List.nodup_cons.1 this).1
    constructor
    · rw [hsee.counts.keeps.succs_eq b]
      exact h.framed.enter (hnodup p) _ hfresh
    · rw [← hpassed]
      exact hsee
  | @pass p b todo rest g g' entered followed harrive =>
    have hedge := h.framed.edge_mem
    have hp := h.framed.entered_mem
    have hnew := h.framed.edge_new (hnodup p)
    have hsee := h.sound.see hg hp hedge hnew
    rw [h.sound.counts.arrive hg hp hedge hnew] at harrive
    obtain ⟨hstay, rfl⟩ := Prod.mk.inj harrive
    have hpassed : (see ⟨entered, followed⟩ g₀ rank p b).passed = entered := if_neg (of_decide_eq_false hstay)
    refine ⟨h.framed.pass (hnodup p) _, ?_⟩
    rw [← hpassed]
    exact hsee
  | leave => exact ⟨h.framed.leave _, h.sound⟩

/-- The stack of the walk is not higher than the number of blocks. -/
theorem Mirrors.length_frames_le {st : Traversal.Stage} (h : Mirrors g₀ rank st) :
    st.frames.length ≤ g₀.blockCount := by
  have hsub : st.entered ⊆ g₀.blockIds := fun k hk => mem_blockIds.2 (h.sound.counts.hasBlock_passed k hk)
  have hle := (List.subperm_of_subset h.framed.nodup_entered hsub).length_le
  rw [length_blockIds] at hle
  exact h.framed.length_frames_le.trans hle

theorem sound_start (hg : Ranked g₀ rank) : Sound g₀ rank ⟨[entry], []⟩ g₀.clearDominators := by
  have hpreds : g₀.preds entry = [] := by
    rw [List.eq_nil_iff_forall_not_mem]
    intro p hp
    exact hg.rooted.entry_not_mem_succs p (hg.rooted.linked.mem_succs_iff.2 hp)
  have hdominator : ∀ b, g₀.clearDominators.dominator? b = none := by
    intro b
    unfold dominator? clearDominators
    rw [block?_mapBlocks]
    cases g₀.block? b with
    | none => rfl
    | some block => rfl
  refine ⟨⟨Keeps.mapBlocks g₀ fun _ => rfl, List.nodup_singleton _, List.nodup_nil, by simp, ?_, ?_, ?_, by simp, ?_⟩,
    ⟨?_, by simp⟩, Or.inl ⟨by simp, ?_, by simp⟩⟩
  · intro b hb
    rw [List.mem_singleton.1 hb]
    exact hg.rooted.hasBlock_entry
  · intro b block hb
    rw [clearDominators, block?_mapBlocks] at hb
    obtain ⟨block, -, rfl⟩ := Option.map_eq_some_iff.1 hb
    simp [sources]
  · intro b hb
    rw [List.mem_singleton]
    constructor
    · rintro rfl
      simp [raising, hpreds]
    · intro hle
      by_contra hne
      rcases Relation.ReflTransGen.cases_tail (hg.reach hb) with heq | ⟨u, -, hu⟩
      · exact hne heq
      · have := List.length_pos_of_mem ((mem_raising hg).2 hu)
        simp [sources] at hle
        simp [hle] at this
  · intro p b hb hsucc _
    obtain rfl := List.mem_singleton.1 hb
    exact absurd hsucc (hg.rooted.entry_not_mem_succs p)
  · intro b d hd
    simp [hdominator] at hd
  · intro a b d _ _ hd
    simp [hdominator] at hd

/-- The walk starts from the entry. -/
theorem start_dominators (hg : Ranked g₀ rank) : Traversal.dominators.start g₀.clearDominators =
    ⟨[(entry, g₀.succs entry)], g₀.clearDominators, [entry], []⟩ := by
  have hstart := sound_start hg
  obtain ⟨block, hblock⟩ := hasBlock_iff.1 ((hstart.counts.keeps.hasBlock_eq entry).trans hg.rooted.hasBlock_entry)
  obtain ⟨block₀, hb₀, hpreds, -, hback⟩ := hstart.counts.block_eq hblock
  have hgo : block.awaited = block.backEdges := by
    have hawaited := hstart.counts.awaited hblock
    have hlen := length_preds hg hb₀
    have hraising := (hstart.counts.passed_iff hg.rooted.hasBlock_entry).1 List.mem_cons_self
    rw [hpreds, hback] at hlen
    simp only [sources, List.filter_nil, List.map_nil, List.length_nil] at hawaited hraising
    omega
  have harrive : Traversal.dominators.arrive none entry g₀.clearDominators = (true, g₀.clearDominators) := by
    simp only [Traversal.dominators, Traversal.seeFrom, hblock, Option.any_some, hgo, decide_true]
  rw [Traversal.start, harrive, ← hstart.counts.keeps.succs_eq]

theorem mirrors_of_steps {st : Traversal.Stage} (hg : Ranked g₀ rank)
    (h : Traversal.dominators.Steps (Traversal.dominators.start g₀.clearDominators) st) : Mirrors g₀ rank st := by
  induction h with
  | refl =>
    rw [start_dominators hg]
    exact ⟨.start entry, sound_start hg⟩
  | tail _ hstep ih => exact ih.step hg hstep

/-- The walk comes to an end with the marks that the recursion makes. -/
theorem steps_findDominators (hg : Ranked g₀ rank) :
    ∃ st, Traversal.dominators.Steps (Traversal.dominators.start g₀.clearDominators) st ∧ st.frames = [] ∧
      st.graph = g₀.findDominators := by
  have hsquare : g₀.blockCount + 1 ≤ (g₀.blockCount + 1) * (g₀.blockCount + 1) :=
    Nat.le_mul_of_pos_left _ (Nat.succ_pos _)
  obtain ⟨depth, hdepth⟩ : ∃ depth, (g₀.blockCount + 1) * (g₀.blockCount + 1) = depth + 1 :=
    Nat.exists_eq_add_one.2 (by omega)
  rcases Traversal.dominators.steps_start depth g₀.clearDominators with ⟨st, hsteps, hdeep⟩ | ⟨st, hsteps, hnil, hgraph⟩
  · have hle := (mirrors_of_steps hg hsteps).length_frames_le
    omega
  · refine ⟨st, hsteps, hnil, hgraph.trans ?_⟩
    rw [findDominators, hdepth]

/-- When the walk has left all blocks it went on from, it went on from every block. -/
theorem Mirrors.entered_of_end {st : Traversal.Stage} (h : Mirrors g₀ rank st) (hg : Ranked g₀ rank)
    (hnil : st.frames = []) (hb : g₀.hasBlock b = true) : b ∈ st.entered := by
  induction hn : rank b using Nat.strong_induction_on generalizing b with
  | _ n ih =>
    -- The predecessors of lower rank were passed, so their edges were seen.
    have hsub : g₀.raising rank b ⊆ sources ⟨st.entered, st.followed⟩ b := by
      intro u hu
      obtain ⟨hsucc, hlt⟩ := (mem_raising hg).1 hu
      have hpassed := ih (rank u) (hn ▸ hlt) (hg.rooted.linked.hasBlock_source hsucc) rfl
      exact mem_sources.2 (h.framed.finished u hpassed (by simp [hnil]) b hsucc)
    have hnodup : (g₀.raising rank b).Nodup := (hg.rooted.linked.preds_nodup b).filter _
    exact (h.sound.counts.passed_iff hb).2 (List.subperm_of_subset hnodup hsub).length_le

/-- The walk goes on from every block and sees every edge. -/
theorem findDominators_spec (hg : Ranked g₀ rank) :
    ∃ t, Sound g₀ rank t g₀.findDominators ∧ (∀ b, g₀.hasBlock b = true → b ∈ t.passed) ∧
      ∀ u v, v ∈ g₀.succs u → (u, v) ∈ t.seen := by
  obtain ⟨st, hsteps, hnil, hgraph⟩ := steps_findDominators hg
  have hst := mirrors_of_steps hg hsteps
  have hall : ∀ b, g₀.hasBlock b = true → b ∈ st.entered := fun b hb => hst.entered_of_end hg hnil hb
  refine ⟨⟨st.entered, st.followed⟩, hgraph ▸ hst.sound, hall, fun u v hv => ?_⟩
  exact hst.framed.finished u (hall u (hg.rooted.linked.hasBlock_source hv)) (by simp [hnil]) v hv

end Tour

/-! ## Blocks that the walk looks up -/

theorem Anchored.exists_noteEdge (hg : g.Anchored) (hp : g.hasBlock p = true) (hb : g.hasBlock b = true) :
    ∃ g', g.noteEdge p b = .ok g' ∧ g'.Anchored := by
  obtain ⟨block, hget, hblock⟩ := exists_getBlock hb
  obtain ⟨d, hd, hhas⟩ : ∃ d, g.getNarrowed p b = .ok d ∧ g.hasBlock d = true := by
    unfold getNarrowed
    rw [hget]
    cases hdom : block.dominator with
    | none => exact ⟨p, by simp [hdom, bind, Except.bind, pure, Except.pure], hp⟩
    | some current =>
      have hcurrent := hg.dominator (b := b) (d := current) (by rw [dominator?, hblock, Option.bind_some, hdom])
      obtain ⟨c, hc, hhas⟩ := hg.exists_commonDominator hcurrent hp
      exact ⟨c, by simp [hdom, hc, bind, Except.bind], hhas⟩
  have hnote : g.noteEdge p b = .ok (g.seeEdge p b) := by
    unfold noteEdge
    rw [hd, getNarrowed_eq_ok hd]
    exact editBlock_of_hasBlock _ hb
  refine ⟨_, hnote, (seeEdge_keeps g p b).hasBlock_eq _ ▸ hg.entry, fun {k e} hk => ?_⟩
  rw [(seeEdge_keeps g p b).hasBlock_eq]
  rw [dominator?_seeEdge hb, ← getNarrowed_eq_ok hd] at hk
  split at hk
  · exact Option.some.inj hk ▸ hhas
  · exact hg.dominator hk

/-- Where edges lead to blocks of the graph, the walk finds every block that it comes to and every dominator. -/
theorem Anchored.exists_walkDominatorsFrom {g₀ : Graph}
    (hclosed : ∀ {b t : BlockId}, t ∈ g₀.succs b → g₀.hasBlock t = true)
    (depth : Nat) (pred : Option BlockId) (hkeeps : Keeps undominated g₀ g) (hg : g.Anchored)
    (hb : g₀.hasBlock b = true) (hpred : ∀ p, pred = some p → g₀.hasBlock p = true) :
    ∃ g', walkDominatorsFrom depth b pred g = .ok g' ∧ Keeps undominated g₀ g' ∧ g'.Anchored := by
  induction depth generalizing b pred g with
  | zero => exact ⟨g, rfl, hkeeps, hg⟩
  | succ depth ih =>
    obtain ⟨g₁, hnote, hkeeps₁, hg₁⟩ : ∃ g₁, g.noteFrom pred b = .ok g₁ ∧ Keeps undominated g₀ g₁ ∧ g₁.Anchored := by
      cases pred with
      | none => exact ⟨g, rfl, hkeeps, hg⟩
      | some p =>
        obtain ⟨g₁, hnote, hg₁⟩ := hg.exists_noteEdge ((hkeeps.hasBlock_eq p).trans (hpred p rfl))
          ((hkeeps.hasBlock_eq b).trans hb)
        exact ⟨g₁, hnote, noteEdge_eq_ok hnote ▸ hkeeps.trans (seeEdge_keeps g p b), hg₁⟩
    obtain ⟨block, hget, hblock⟩ := exists_getBlock ((hkeeps₁.hasBlock_eq b).trans hb)
    unfold walkDominatorsFrom
    rw [hnote]
    dsimp only [bind, Except.bind]
    rw [hget]
    dsimp only
    split
    · refine exists_foldlM_eq_ok (fun g => Keeps undominated g₀ g ∧ g.Anchored) (fun g t ht hg => ?_) ⟨hkeeps₁, hg₁⟩
      rw [← succs_eq hblock, hkeeps₁.succs_eq] at ht
      exact ih (some b) hg.1 hg.2 (hclosed ht) fun p hp => Option.some.inj hp ▸ hb
    · exact ⟨g₁, rfl, hkeeps₁, hg₁⟩

/-- The dominator walk of a rooted graph finds everything that it looks up. -/
theorem Rooted.walkDominators_eq (hg : Rooted g) : g.walkDominators = .ok g.findDominators := by
  have hkeeps : Keeps undominated g g.clearDominators := Keeps.mapBlocks g fun _ => rfl
  have hanchored : g.clearDominators.Anchored := by
    refine ⟨(hkeeps.hasBlock_eq _).trans hg.hasBlock_entry, fun {b d} hd => ?_⟩
    rw [dominator?, clearDominators, block?_mapBlocks] at hd
    cases hb : g.block? b with
    | none => simp [hb] at hd
    | some block => simp [hb] at hd
  obtain ⟨g', hwalk, -⟩ := hanchored.exists_walkDominatorsFrom hg.linked.hasBlock_target
    ((g.blockCount + 1) * (g.blockCount + 1)) none hkeeps hg.hasBlock_entry (by simp)
  exact hwalk.trans (congrArg _ (Traversal.walkDominatorsFrom_eq_ok hwalk))

end Destack.Graph
