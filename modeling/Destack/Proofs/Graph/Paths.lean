import Mathlib.Logic.Relation
import Destack.Proofs.Graph.Blocks

/-!
# Paths and dominance

A block dominates another one if it lies on every path from the entry to that one. This is said here on the edges
alone, apart from any way to compute it. An edge leads back if its target dominates its source; a graph is reducible if
the edges that do not lead back make no cycle. Blocks that no path comes to are dominated by every block, so their edges
all lead back and have no part in this.
-/

namespace Destack.Graph

/-- A path from the entry to a block, with the block first. -/
inductive Path (g : Graph) : BlockId → List BlockId → Prop where
  | start : Path g entry [entry]
  | step {u v : BlockId} {bs : List BlockId} : Path g u bs → v ∈ g.succs u → Path g v (v :: bs)

/-- Some path leads to a block. -/
def Reaches (g : Graph) (b : BlockId) : Prop :=
  ∃ bs, Path g b bs

/-- A block lies on every path to another one. -/
def Dominates (g : Graph) (a b : BlockId) : Prop :=
  ∀ bs, Path g b bs → a ∈ bs

/-- The nearest of the blocks that dominate a block and are not that block. -/
structure ImmediatelyDominates (g : Graph) (d b : BlockId) : Prop where
  dominates : g.Dominates d b
  ne : d ≠ b
  nearest : ∀ a, g.Dominates a b → a ≠ b → g.Dominates a d

/-- An edge whose target does not dominate its source. -/
def Forward (g : Graph) (u v : BlockId) : Prop :=
  v ∈ g.succs u ∧ ¬ g.Dominates v u

/-- Without the edges that lead back there is no cycle. -/
def Reducible (g : Graph) : Prop :=
  ∀ b, ¬ Relation.TransGen g.Forward b b

variable {g g' : Graph} {a b c d : BlockId} {bs : List BlockId}

namespace Path

theorem mem (h : Path g b bs) : b ∈ bs := by
  cases h with
  | start => exact List.mem_cons_self
  | step => exact List.mem_cons_self

theorem reaches (h : Path g b bs) : g.Reaches b :=
  ⟨bs, h⟩

/-- The part of a path up to a block on it. -/
theorem exists_suffix (h : Path g b bs) (ha : a ∈ bs) : ∃ as, Path g a as ∧ as <:+ bs := by
  induction h with
  | start =>
    obtain rfl := List.mem_singleton.1 ha
    exact ⟨_, .start, List.suffix_rfl⟩
  | step hu hv ih =>
    rcases List.mem_cons.1 ha with rfl | ha
    · exact ⟨_, hu.step hv, List.suffix_rfl⟩
    · obtain ⟨as, has, hsuffix⟩ := ih ha
      exact ⟨as, has, hsuffix.trans (List.suffix_cons _ _)⟩

/-- The part of a path up to the first time that it comes to a block. -/
theorem exists_first (h : Path g b bs) (ha : a ∈ bs) :
    ∃ as, Path g a (a :: as) ∧ a ∉ as ∧ (a :: as) <:+ bs := by
  induction h with
  | start =>
    obtain rfl := List.mem_singleton.1 ha
    exact ⟨[], .start, List.not_mem_nil, List.suffix_rfl⟩
  | @step u v us hu hv ih =>
    by_cases hin : a ∈ us
    · obtain ⟨as, has, hnot, hsuffix⟩ := ih hin
      exact ⟨as, has, hnot, hsuffix.trans (List.suffix_cons _ _)⟩
    · obtain rfl := (List.mem_cons.1 ha).resolve_right hin
      exact ⟨us, hu.step hv, hin, List.suffix_rfl⟩

/-- Edges that lead on from the end of a path make it longer. -/
theorem extend (h : Path g a bs) (hab : Relation.ReflTransGen (fun u v => v ∈ g.succs u) a b) :
    ∃ cs, Path g b cs ∧ bs <:+ cs := by
  induction hab with
  | refl => exact ⟨bs, h, List.suffix_rfl⟩
  | tail _ huv ih =>
    obtain ⟨cs, hcs, hsuffix⟩ := ih
    exact ⟨_, hcs.step huv, hsuffix.trans (List.suffix_cons _ _)⟩

/-- A path only uses edges of blocks that it comes to. -/
theorem of_succs (hsuccs : ∀ b, g.Reaches b → g'.succs b = g.succs b) (h : Path g b bs) : Path g' b bs := by
  induction h with
  | start => exact .start
  | step hu hv ih => exact ih.step (by rwa [hsuccs _ hu.reaches])

end Path

theorem reaches_entry : g.Reaches entry :=
  ⟨_, .start⟩

theorem Reaches.succ (h : g.Reaches a) (hb : b ∈ g.succs a) : g.Reaches b := by
  obtain ⟨bs, hbs⟩ := h
  exact ⟨_, hbs.step hb⟩

/-! ## Dominance -/

theorem Dominates.refl (g : Graph) (b : BlockId) : g.Dominates b b :=
  fun _ h => h.mem

theorem Dominates.trans (hab : g.Dominates a b) (hbc : g.Dominates b c) : g.Dominates a c := by
  intro cs hcs
  obtain ⟨bs, hbs, hsuffix⟩ := hcs.exists_suffix (hbc cs hcs)
  exact hsuffix.subset (hab bs hbs)

/-- A block that dominates another one dominates all predecessors of that one. -/
theorem Dominates.pred (hab : g.Dominates a b) (hne : a ≠ b) (hb : b ∈ g.succs c) : g.Dominates a c := by
  intro cs hcs
  exact (List.mem_cons.1 (hab _ (hcs.step hb))).resolve_left hne

/-- A block that dominates all predecessors dominates. -/
theorem dominates_of_preds (hb : b ≠ entry) (h : ∀ c, b ∈ g.succs c → g.Dominates a c) : g.Dominates a b := by
  intro bs hbs
  cases hbs with
  | start => exact absurd rfl hb
  | step hu hv => exact List.mem_cons_of_mem _ (h _ hv _ hu)

theorem eq_entry_of_dominates (h : g.Dominates a entry) : a = entry :=
  List.mem_singleton.1 (h _ .start)

theorem Reaches.of_dominates (hb : g.Reaches b) (h : g.Dominates a b) : g.Reaches a := by
  obtain ⟨bs, hbs⟩ := hb
  obtain ⟨as, has, -⟩ := hbs.exists_suffix (h bs hbs)
  exact has.reaches

theorem Dominates.antisymm (ha : g.Reaches a) (hab : g.Dominates a b) (hba : g.Dominates b a) : a = b := by
  obtain ⟨as, has⟩ := ha
  -- The first time that a path comes to `a`, it has been at `b`, and before that at `a` again.
  obtain ⟨rest, hfirst, hnot, -⟩ := has.exists_first has.mem
  by_contra hne
  obtain ⟨bs, hbs, hsuffix⟩ := hfirst.exists_suffix (hba _ hfirst)
  rcases List.suffix_cons_iff.1 hsuffix with rfl | hrest
  · cases hbs with
    | start => exact hne rfl
    | step => exact hne rfl
  · exact hnot (hrest.subset (hab bs hbs))

theorem ImmediatelyDominates.unique (hb : g.Reaches b) (h : g.ImmediatelyDominates c b)
    (h' : g.ImmediatelyDominates d b) : c = d :=
  Dominates.antisymm (hb.of_dominates h.dominates) (h'.nearest c h.dominates h.ne) (h.nearest d h'.dominates h'.ne)

/-! ## Graphs with the same edges -/

section Same

variable (hsuccs : ∀ b, g.Reaches b → g'.succs b = g.succs b)
include hsuccs

theorem path_congr : Path g' b bs ↔ Path g b bs := by
  refine ⟨fun h => ?_, Path.of_succs hsuccs⟩
  induction h with
  | start => exact .start
  | step _ hv ih => exact ih.step (by rwa [← hsuccs _ ih.reaches])

theorem reaches_congr : g'.Reaches b ↔ g.Reaches b :=
  exists_congr fun _ => path_congr hsuccs

theorem dominates_congr : g'.Dominates a b ↔ g.Dominates a b :=
  forall_congr' fun _ => imp_congr_left (path_congr hsuccs)

theorem forward_congr : g'.Forward a b ↔ g.Forward a b := by
  -- An edge of a block that no path comes to leads back in both graphs.
  by_cases ha : g.Reaches a
  · unfold Forward
    rw [hsuccs a ha, dominates_congr hsuccs]
  · have hnot : ∀ c, g.Dominates c a := fun c bs hbs => absurd hbs.reaches ha
    constructor
    · exact fun h => absurd ((dominates_congr hsuccs).2 (hnot b)) h.2
    · exact fun h => absurd (hnot b) h.2

theorem reducible_congr : g'.Reducible ↔ g.Reducible := by
  have : g'.Forward = g.Forward := by
    funext a b
    exact propext (forward_congr hsuccs)
  unfold Reducible
  rw [this]

end Same

end Destack.Graph
