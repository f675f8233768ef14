import Mathlib.Logic.Relation
import Destack.Graph.Dominance
import Destack.Proofs.Graph.Blocks
import Destack.Proofs.Pass

/-!
# Chains of dominators

A block is above another one if it lies on the chain of dominators of that one. While dominators have a lower rank than
the blocks they belong to, a chain is no longer than the rank of its first block, so the bounded chain is the whole
chain (`mem_dominators`), and the common dominator of two blocks has above it what both have above them
(`above_commonDominator`). While dominators are blocks of the graph, it is found (`Anchored.exists_commonDominator`).
-/

namespace Destack.Graph

variable {g g' : Graph} {rank : BlockId → Nat} {a b c d m : BlockId}

/-- A block lies on the chain of dominators of another one. -/
def Above (g : Graph) (a b : BlockId) : Prop :=
  Relation.ReflTransGen (fun x y => g.dominator? x = some y) b a

namespace Above

theorem refl (g : Graph) (b : BlockId) : g.Above b b :=
  Relation.ReflTransGen.refl

theorem trans (hab : g.Above a b) (hbc : g.Above b c) : g.Above a c :=
  Relation.ReflTransGen.trans hbc hab

theorem of_dominator (hd : g.dominator? b = some d) (h : g.Above a d) : g.Above a b :=
  Relation.ReflTransGen.head hd h

theorem cases (h : g.Above a b) : a = b ∨ ∃ d, g.dominator? b = some d ∧ g.Above a d := by
  rcases Relation.ReflTransGen.cases_head h with rfl | ⟨d, hd, h⟩
  · exact Or.inl rfl
  · exact Or.inr ⟨d, hd, h⟩

/-- A relation that holds along every dominator holds along chains. -/
theorem mono (h : g.Above a b) (hstep : ∀ {x y : BlockId}, g.dominator? x = some y → g'.Above y x) :
    g'.Above a b := by
  induction h with
  | refl => exact refl g' b
  | tail _ hxy ih => exact (hstep hxy).trans ih

end Above

/-- Dominators have a lower rank than the blocks they belong to. -/
def Falling (g : Graph) (rank : BlockId → Nat) : Prop :=
  ∀ {b d : BlockId}, g.dominator? b = some d → rank d < rank b

theorem Above.rank_le (hg : g.Falling rank) (h : g.Above a b) : rank a ≤ rank b := by
  induction h with
  | refl => exact Nat.le_refl _
  | tail _ hxy ih => exact (Nat.le_of_lt (hg hxy)).trans ih

theorem Above.antisymm (hg : g.Falling rank) (hab : g.Above a b) (hba : g.Above b a) : a = b := by
  rcases hab.cases with rfl | ⟨d, hd, h⟩
  · rfl
  · have := hg hd
    have := h.rank_le hg
    have := hba.rank_le hg
    omega

theorem above_of_mem_chainWith {fuel : Nat} (h : a ∈ g.chainWith fuel b) : g.Above a b := by
  induction fuel generalizing b with
  | zero => cases h
  | succ fuel ih =>
    unfold chainWith at h
    cases hd : g.dominator? b with
    | none =>
      simp only [hd] at h
      rw [List.mem_singleton.1 h]
      exact Above.refl g b
    | some d =>
      simp only [hd] at h
      rcases List.mem_cons.1 h with rfl | h
      · exact Above.refl g a
      · exact (ih h).of_dominator hd

theorem mem_chainWith (hg : g.Falling rank) {fuel : Nat} (hb : rank b < fuel) :
    a ∈ g.chainWith fuel b ↔ g.Above a b := by
  refine ⟨above_of_mem_chainWith, fun h => ?_⟩
  induction fuel generalizing b with
  | zero => omega
  | succ fuel ih =>
    unfold chainWith
    rcases h.cases with rfl | ⟨d, hd, h⟩
    · cases g.dominator? a with
      | none => exact List.mem_cons_self
      | some d => exact List.mem_cons_self
    · have hlt := hg hd
      simp only [hd]
      exact List.mem_cons_of_mem _ (ih (by omega) h)

theorem mem_dominators (hg : g.Falling rank) (hb : rank b ≤ g.blockCount) : a ∈ g.dominators b ↔ g.Above a b :=
  mem_chainWith hg (Nat.lt_succ_of_le hb)

theorem dominates_iff_above (hg : g.Falling rank) (hb : rank b ≤ g.blockCount) :
    g.dominates a b = true ↔ g.Above a b := by
  rw [← mem_dominators hg hb, dominates, climb?_eq_find?, List.find?_isSome]
  simp

/-- The bounded chain goes up to a block that has no dominator. -/
theorem getLast?_chainWith (hg : g.Falling rank) (hd : g.dominator? d = none) {fuel : Nat} (hb : rank b < fuel)
    (h : g.Above d b) : (g.chainWith fuel b).getLast? = some d := by
  induction fuel generalizing b with
  | zero => omega
  | succ fuel ih =>
    unfold chainWith
    rcases h.cases with rfl | ⟨c, hc, h⟩
    · simp [hd]
    · have hlt := hg hc
      simp only [hc]
      rw [List.getLast?_cons, ih (by omega) h, Option.getD_some]

/-- The first block on a chain that passes a test has above it every other block on the chain that passes it. -/
theorem above_of_find?_chainWith {test : BlockId → Bool} {fuel : Nat} (h : (g.chainWith fuel b).find? test = some m)
    (ha : a ∈ g.chainWith fuel b) (hta : test a = true) : g.Above a m := by
  induction fuel generalizing b with
  | zero => cases ha
  | succ fuel ih =>
    by_cases htb : test b = true
    · have hm : m = b := by
        unfold chainWith at h
        cases hd : g.dominator? b with
        | none => simpa [hd, htb] using h.symm
        | some d => simpa [hd, htb] using h.symm
      rw [hm]
      exact above_of_mem_chainWith ha
    · have hne : a ≠ b := fun e => htb (e ▸ hta)
      unfold chainWith at h ha
      cases hd : g.dominator? b with
      | none =>
        simp only [hd, List.mem_singleton] at ha
        exact absurd ha hne
      | some d =>
        simp only [hd, List.find?_cons_of_neg htb, List.mem_cons, hne, false_or] at h ha
        exact ih h ha

/-! ## The nearest block on two chains -/

/-- The nearest block that dominates two blocks, whether or not all blocks on their chains are there. -/
def commonDominator (g : Graph) (a b : BlockId) : BlockId :=
  (g.climb? (g.dominators a).contains b).getD entry

theorem getChainWith_eq_ok {fuel : Nat} {chain : List BlockId} (h : g.getChainWith fuel b = .ok chain) :
    chain = g.chainWith fuel b := by
  induction fuel generalizing b chain with
  | zero => exact (except_pure_eq_ok.1 h).symm
  | succ fuel ih =>
    unfold getChainWith at h
    obtain ⟨block, hb, h⟩ := except_bind_eq_ok.1 h
    have hdom : g.dominator? b = block.dominator := by rw [dominator?, getBlock_eq_ok.1 hb, Option.bind_some]
    rw [chainWith, hdom]
    cases hd : block.dominator with
    | none =>
      rw [hd] at h
      exact (except_pure_eq_ok.1 h).symm
    | some d =>
      rw [hd] at h
      obtain ⟨rest, hrest, h⟩ := except_bind_eq_ok.1 h
      rw [← except_pure_eq_ok.1 h, ih hrest]

theorem getClimbWith_eq_ok {test : BlockId → Bool} {fuel : Nat} {found : Option BlockId}
    (h : g.getClimbWith test fuel b = .ok found) : found = g.climbWith test fuel b := by
  induction fuel generalizing b with
  | zero => exact (except_pure_eq_ok.1 h).symm
  | succ fuel ih =>
    unfold getClimbWith at h
    unfold climbWith
    split at h
    · next ht =>
      rw [if_pos ht]
      exact (except_pure_eq_ok.1 h).symm
    · next ht =>
      rw [if_neg ht]
      obtain ⟨block, hb, h⟩ := except_bind_eq_ok.1 h
      rw [dominator?, getBlock_eq_ok.1 hb, Option.bind_some]
      cases hd : block.dominator with
      | none =>
        rw [hd] at h
        exact (except_pure_eq_ok.1 h).symm
      | some d =>
        rw [hd] at h
        exact ih h

theorem getCommonDominator_eq_ok (h : g.getCommonDominator a b = .ok c) : c = g.commonDominator a b := by
  unfold getCommonDominator at h
  obtain ⟨chain, hchain, h⟩ := except_bind_eq_ok.1 h
  obtain ⟨found, hfound, h⟩ := except_bind_eq_ok.1 h
  rw [← except_pure_eq_ok.1 h, getClimbWith_eq_ok hfound, getChainWith_eq_ok hchain]
  rfl

/-- The entry is there, and so is every block that is a dominator. -/
structure Anchored (g : Graph) : Prop where
  entry : g.hasBlock entry = true
  dominator : ∀ {b d : BlockId}, g.dominator? b = some d → g.hasBlock d = true

namespace Anchored

theorem exists_chain (h : g.Anchored) (hb : g.hasBlock b = true) (fuel : Nat) :
    ∃ chain, g.getChainWith fuel b = .ok chain := by
  induction fuel generalizing b with
  | zero => exact ⟨[], rfl⟩
  | succ fuel ih =>
    obtain ⟨block, hget, hblock⟩ := exists_getBlock hb
    unfold getChainWith
    rw [hget]
    cases hd : block.dominator with
    | none => exact ⟨[b], by simp [hd, bind, Except.bind, pure, Except.pure]⟩
    | some d =>
      obtain ⟨rest, hrest⟩ := ih (h.dominator (b := b) (by rw [dominator?, hblock, Option.bind_some, hd]))
      exact ⟨b :: rest, by simp [hd, hrest, bind, Except.bind, pure, Except.pure]⟩

/-- Climbing ends at a block of the graph, if it ends at one. -/
theorem exists_climb (h : g.Anchored) (hb : g.hasBlock b = true) (test : BlockId → Bool) (fuel : Nat) :
    ∃ found, g.getClimbWith test fuel b = .ok found ∧ ∀ d, found = some d → g.hasBlock d = true := by
  induction fuel generalizing b with
  | zero => exact ⟨none, rfl, by simp⟩
  | succ fuel ih =>
    unfold getClimbWith
    by_cases ht : test b = true
    · exact ⟨some b, by rw [if_pos ht]; rfl, fun d hd => Option.some.inj hd ▸ hb⟩
    · obtain ⟨block, hget, hblock⟩ := exists_getBlock hb
      rw [if_neg ht, hget]
      cases hd : block.dominator with
      | none => exact ⟨none, by simp [hd, bind, Except.bind, pure, Except.pure], by simp⟩
      | some d =>
        obtain ⟨found, hfound, hhas⟩ :=
          ih (h.dominator (b := b) (by rw [dominator?, hblock, Option.bind_some, hd]))
        exact ⟨found, by simp [hd, hfound, bind, Except.bind], hhas⟩

theorem exists_commonDominator (h : g.Anchored) (ha : g.hasBlock a = true) (hb : g.hasBlock b = true) :
    ∃ c, g.getCommonDominator a b = .ok c ∧ g.hasBlock c = true := by
  obtain ⟨chain, hchain⟩ := h.exists_chain ha (g.blockCount + 1)
  obtain ⟨found, hfound, hhas⟩ := h.exists_climb hb chain.contains (g.blockCount + 1)
  refine ⟨found.getD Graph.entry,
    by simp [getCommonDominator, hchain, hfound, bind, Except.bind, pure, Except.pure], ?_⟩
  cases found with
  | none => exact h.entry
  | some d => exact hhas d rfl

end Anchored

/-- Above the common dominator of two blocks is what is above both. -/
theorem above_commonDominator (hg : g.Falling rank) (ha : rank a ≤ g.blockCount) (hb : rank b ≤ g.blockCount)
    (hcommon : g.Above d a ∧ g.Above d b) : g.Above c (g.commonDominator a b) ↔ g.Above c a ∧ g.Above c b := by
  have hmem : ∀ {x : BlockId}, (g.dominators a).contains x = true ↔ g.Above x a := by
    intro x
    rw [List.contains_iff_mem, mem_dominators hg ha]
  obtain ⟨m, hm⟩ : ∃ m, (g.dominators b).find? (g.dominators a).contains = some m := by
    rw [← Option.isSome_iff_exists, List.find?_isSome]
    exact ⟨d, (mem_dominators hg hb).2 hcommon.2, hmem.2 hcommon.1⟩
  have heq : g.commonDominator a b = m := by
    simp only [commonDominator, climb?_eq_find?, hm, Option.getD_some]
  have hma : g.Above m a := hmem.1 (List.find?_some hm)
  have hmb : g.Above m b := (mem_dominators hg hb).1 (List.mem_of_find?_eq_some hm)
  rw [heq]
  constructor
  · exact fun h => ⟨h.trans hma, h.trans hmb⟩
  · exact fun h => above_of_find?_chainWith hm ((mem_dominators hg hb).2 h.2) (hmem.2 h.1)

end Destack.Graph
