import Mathlib.Data.List.Nodup
import Destack.Proofs.Graph.Paths

/-!
# Depth-first search

A stage of a depth-first search is the path from the block at hand back to the entry, the blocks that are finished, and
the edges that were followed. The path from the entry on and behind it the finished blocks, last one first, make a line
in which new blocks come in but no two change places. An edge advances if it leads down the line. The search follows
each edge once (`Search.Step`), and what the line says about paths and edges holds after every step (`Search.Sound`):
every block is reached by edges that advance, and an edge that does not advance closes a cycle of edges that do.
-/

namespace Destack.Graph

open scoped List

/-! ## Places in a line -/

section Before

variable {l l' : List BlockId} {a b : BlockId}

/-- One block stands somewhere before another one. -/
def Before (l : List BlockId) (a b : BlockId) : Prop :=
  [a, b] <+ l

instance (l : List BlockId) (a b : BlockId) : Decidable (Before l a b) :=
  inferInstanceAs (Decidable ([a, b] <+ l))

theorem Before.mono (h : Before l a b) (hl : l <+ l') : Before l' a b :=
  h.trans hl

theorem before_append (ha : a ∈ l) (hb : b ∈ l') : Before (l ++ l') a b :=
  (List.singleton_sublist.2 ha).append (List.singleton_sublist.2 hb)

theorem before_cons {x : BlockId} : Before (x :: l) a b ↔ (a = x ∧ b ∈ l) ∨ Before l a b := by
  constructor
  · intro h
    unfold Before at h
    rcases List.cons_sublist_cons'.1 h with htail | ⟨rfl, hb⟩
    · exact Or.inr htail
    · exact Or.inl ⟨rfl, List.singleton_sublist.1 hb⟩
  · rintro (⟨rfl, hb⟩ | h)
    · exact (List.singleton_sublist.2 hb).cons_cons a
    · exact h.mono (List.sublist_cons_self x l)

theorem Before.mem_right (h : Before l a b) : b ∈ l :=
  h.subset (by simp)

theorem Before.idxOf_lt (hl : l.Nodup) (h : Before l a b) : l.idxOf a < l.idxOf b := by
  induction l with
  | nil => cases h
  | cons x l ih =>
    obtain ⟨hx, hl⟩ := List.nodup_cons.1 hl
    rcases before_cons.1 h with ⟨rfl, hb⟩ | h
    · have hne : a ≠ b := fun e => hx (e ▸ hb)
      simp [List.idxOf_cons_ne l hne]
    · have hb : x ≠ b := fun e => hx (e ▸ h.mem_right)
      by_cases hxa : x = a
      · subst hxa
        simp [List.idxOf_cons_ne l hb]
      · rw [List.idxOf_cons_ne l hxa, List.idxOf_cons_ne l hb]
        exact Nat.succ_lt_succ (ih hl h)

theorem before_of_idxOf_lt (hb : b ∈ l) (h : l.idxOf a < l.idxOf b) : Before l a b := by
  induction l with
  | nil => cases hb
  | cons x l ih =>
    rw [before_cons]
    by_cases hxb : x = b
    · subst hxb
      simp at h
    · have hb : b ∈ l := (List.mem_cons.1 hb).resolve_left (Ne.symm hxb)
      by_cases hxa : x = a
      · exact Or.inl ⟨hxa.symm, hb⟩
      · rw [List.idxOf_cons_ne l hxa, List.idxOf_cons_ne l hxb] at h
        exact Or.inr (ih hb (Nat.lt_of_succ_lt_succ h))

/-- In a line without repetitions, places are numbers. -/
theorem before_iff (hl : l.Nodup) (hb : b ∈ l) : Before l a b ↔ l.idxOf a < l.idxOf b :=
  ⟨Before.idxOf_lt hl, before_of_idxOf_lt hb⟩

/-- Blocks in a line keep their order while others come in. -/
theorem before_congr (hl : l <+ l') (hnodup : l'.Nodup) (ha : a ∈ l) (hb : b ∈ l) :
    Before l' a b ↔ Before l a b := by
  refine ⟨fun h => ?_, fun h => h.mono hl⟩
  have hlt := h.idxOf_lt hnodup
  by_contra hnot
  rw [before_iff (hnodup.sublist hl) hb] at hnot
  by_cases heq : a = b
  · subst heq
    exact Nat.lt_irrefl _ hlt
  · have hne : l.idxOf a ≠ l.idxOf b := fun e => heq ((List.idxOf_inj ha).1 e)
    have hback : Before l b a := before_of_idxOf_lt ha (by omega)
    have := (hback.mono hl).idxOf_lt hnodup
    omega

end Before

/-- An edge that leads down a line. -/
def Advances (g : Graph) (l : List BlockId) (u v : BlockId) : Prop :=
  v ∈ g.succs u ∧ Before l u v

theorem Advances.mono {g : Graph} {l l' : List BlockId} {a b : BlockId} (hl : l <+ l')
    (h : Relation.ReflTransGen (g.Advances l) a b) : Relation.ReflTransGen (g.Advances l') a b :=
  Relation.ReflTransGen.mono (fun _ _ h => ⟨h.1, h.2.mono hl⟩) _ _ h

/-! ## Stages -/

/-- A stage of the search. -/
structure Search where
  /-- From the block at hand back to the entry. -/
  path : List BlockId
  /-- Finished blocks, last one first. -/
  done : List BlockId
  /-- Edges that were followed, last one first. -/
  seen : List (BlockId × BlockId)

namespace Search

variable {g : Graph} {s s' : Search} {p b : BlockId}

def line (s : Search) : List BlockId :=
  s.path.reverse ++ s.done

theorem mem_line : b ∈ s.line ↔ b ∈ s.path ∨ b ∈ s.done := by
  simp [line]

/-- What the search does next. -/
inductive Step (g : Graph) : Search → Search → Prop where
  /-- An edge leads to a block that is known. -/
  | look {path done : List BlockId} {seen : List (BlockId × BlockId)} {p b : BlockId} :
    b ∈ g.succs p → (p, b) ∉ seen → b ∈ line ⟨p :: path, done, seen⟩ →
    Step g ⟨p :: path, done, seen⟩ ⟨p :: path, done, (p, b) :: seen⟩
  /-- An edge leads to a new block. -/
  | push {path done : List BlockId} {seen : List (BlockId × BlockId)} {p b : BlockId} :
    b ∈ g.succs p → (p, b) ∉ seen → b ∉ line ⟨p :: path, done, seen⟩ →
    Step g ⟨p :: path, done, seen⟩ ⟨b :: p :: path, done, (p, b) :: seen⟩
  /-- All edges of the block at hand were followed. -/
  | pop {path done : List BlockId} {seen : List (BlockId × BlockId)} {p : BlockId} :
    (∀ b ∈ g.succs p, (p, b) ∈ seen) → Step g ⟨p :: path, done, seen⟩ ⟨path, p :: done, seen⟩

abbrev Steps (g : Graph) : Search → Search → Prop :=
  Relation.ReflTransGen (Step g)

theorem line_push (path done : List BlockId) (seen : List (BlockId × BlockId)) (p b : BlockId) :
    line ⟨b :: p :: path, done, seen⟩ = (p :: path).reverse ++ b :: done := by
  simp [line]

theorem line_pop (path done : List BlockId) (seen : List (BlockId × BlockId)) (p : BlockId) :
    line ⟨path, p :: done, seen⟩ = line ⟨p :: path, done, seen⟩ := by
  simp [line]

theorem Step.line_sublist (h : Step g s s') : s.line <+ s'.line := by
  cases h with
  | look => exact List.Sublist.refl _
  | push =>
    rw [line_push]
    exact (List.sublist_cons_self _ _).append_left _
  | pop =>
    rw [line_pop]

theorem Steps.line_sublist (h : Steps g s s') : s.line <+ s'.line := by
  induction h with
  | refl => exact List.Sublist.refl _
  | tail _ hstep ih => exact ih.trans hstep.line_sublist

/-! ## What holds at every stage -/

structure Sound (g : Graph) (s : Search) : Prop where
  nodup : s.line.Nodup
  nodup_seen : s.seen.Nodup
  seen_mem : ∀ e ∈ s.seen, e.2 ∈ g.succs e.1 ∧ e.1 ∈ s.line ∧ e.2 ∈ s.line
  done_seen : ∀ u ∈ s.done, ∀ v ∈ g.succs u, (u, v) ∈ s.seen
  /-- The path leads from each block on it to those behind it. -/
  descend : s.path.Pairwise fun lower upper => Relation.ReflTransGen (g.Advances s.line) upper lower
  reach : ∀ b ∈ s.line, Relation.ReflTransGen (g.Advances s.line) entry b
  /-- An edge that does not advance closes a cycle. -/
  retreat : ∀ e ∈ s.seen, ¬ Before s.line e.1 e.2 → Relation.ReflTransGen (g.Advances s.line) e.2 e.1

theorem sound_start (g : Graph) : Sound g ⟨[entry], [], []⟩ where
  nodup := by simp [line]
  nodup_seen := List.nodup_nil
  seen_mem := by simp
  done_seen := by simp
  descend := List.pairwise_singleton _ _
  reach := by
    intro b hb
    obtain rfl : b = entry := by simpa [line] using hb
    exact .refl
  retreat := by simp

theorem Sound.look {path done : List BlockId} {seen : List (BlockId × BlockId)}
    (h : Sound g ⟨p :: path, done, seen⟩) (hb : b ∈ g.succs p) (hnew : (p, b) ∉ seen)
    (hmem : b ∈ line ⟨p :: path, done, seen⟩) : Sound g ⟨p :: path, done, (p, b) :: seen⟩ where
  nodup := h.nodup
  nodup_seen := List.nodup_cons.2 ⟨hnew, h.nodup_seen⟩
  seen_mem := by
    intro e he
    rcases List.mem_cons.1 he with rfl | he
    · exact ⟨hb, mem_line.2 (Or.inl List.mem_cons_self), hmem⟩
    · exact h.seen_mem e he
  done_seen := fun u hu v hv => List.mem_cons_of_mem _ (h.done_seen u hu v hv)
  descend := h.descend
  reach := h.reach
  retreat := by
    intro e he hnot
    rcases List.mem_cons.1 he with rfl | he
    · -- A block that is finished stands behind the path, so the edge leads to a block on the path.
      rcases mem_line.1 hmem with hpath | hdone
      · rcases List.mem_cons.1 hpath with rfl | hpath
        · exact .refl
        · exact (List.pairwise_cons.1 h.descend).1 b hpath
      · refine absurd ?_ hnot
        exact before_append (l := (p :: path).reverse) (by simp) hdone
    · exact h.retreat e he hnot

theorem Sound.push {path done : List BlockId} {seen : List (BlockId × BlockId)}
    (h : Sound g ⟨p :: path, done, seen⟩) (hb : b ∈ g.succs p) (hnew : (p, b) ∉ seen)
    (hmem : b ∉ line ⟨p :: path, done, seen⟩) : Sound g ⟨b :: p :: path, done, (p, b) :: seen⟩ := by
  have hline := line_push path done ((p, b) :: seen) p b
  have hsub : line ⟨p :: path, done, seen⟩ <+ line ⟨b :: p :: path, done, (p, b) :: seen⟩ :=
    (Step.push hb hnew hmem).line_sublist
  have hbefore : Before (line ⟨b :: p :: path, done, (p, b) :: seen⟩) p b := by
    rw [hline]
    exact before_append (by simp) List.mem_cons_self
  have hedge : Relation.ReflTransGen (g.Advances (line ⟨b :: p :: path, done, (p, b) :: seen⟩)) p b :=
    .single ⟨hb, hbefore⟩
  have hmem' : ∀ {k : BlockId}, k ∈ line ⟨b :: p :: path, done, (p, b) :: seen⟩ →
      k = b ∨ k ∈ line ⟨p :: path, done, seen⟩ := by
    intro k hk
    rw [mem_line] at hk ⊢
    rcases hk with hk | hk
    · exact (List.mem_cons.1 hk).imp_right Or.inl
    · exact Or.inr (Or.inr hk)
  constructor
  case nodup =>
    have hperm : (line ⟨b :: p :: path, done, (p, b) :: seen⟩).Perm (b :: line ⟨p :: path, done, seen⟩) := by
      rw [hline]
      exact List.perm_middle
    exact hperm.nodup_iff.2 (List.nodup_cons.2 ⟨hmem, h.nodup⟩)
  case nodup_seen => exact List.nodup_cons.2 ⟨hnew, h.nodup_seen⟩
  case seen_mem =>
    intro e he
    rcases List.mem_cons.1 he with rfl | he
    · exact ⟨hb, hbefore.subset (by simp), hbefore.mem_right⟩
    · obtain ⟨hsucc, hu, hv⟩ := h.seen_mem e he
      exact ⟨hsucc, hsub.subset hu, hsub.subset hv⟩
  case done_seen => exact fun u hu v hv => List.mem_cons_of_mem _ (h.done_seen u hu v hv)
  case descend =>
    have hold := h.descend.imp fun h => Advances.mono hsub h
    refine List.pairwise_cons.2 ⟨fun k hk => ?_, hold⟩
    rcases List.mem_cons.1 hk with rfl | hk
    · exact hedge
    · exact ((List.pairwise_cons.1 hold).1 k hk).trans hedge
  case reach =>
    intro k hk
    rcases hmem' hk with rfl | hk
    · exact (Advances.mono hsub (h.reach p (mem_line.2 (Or.inl List.mem_cons_self)))).trans hedge
    · exact Advances.mono hsub (h.reach k hk)
  case retreat =>
    intro e he hnot
    rcases List.mem_cons.1 he with rfl | he
    · exact absurd hbefore hnot
    · exact Advances.mono hsub (h.retreat e he fun hb => hnot (hb.mono hsub))

theorem Sound.pop {path done : List BlockId} {seen : List (BlockId × BlockId)}
    (h : Sound g ⟨p :: path, done, seen⟩) (hall : ∀ b ∈ g.succs p, (p, b) ∈ seen) :
    Sound g ⟨path, p :: done, seen⟩ := by
  have hline := line_pop path done seen p
  constructor
  case nodup =>
    rw [hline]
    exact h.nodup
  case nodup_seen => exact h.nodup_seen
  case seen_mem =>
    rw [hline]
    exact h.seen_mem
  case done_seen =>
    intro u hu v hv
    rcases List.mem_cons.1 hu with rfl | hu
    · exact hall v hv
    · exact h.done_seen u hu v hv
  case descend =>
    rw [hline]
    exact (List.pairwise_cons.1 h.descend).2
  case reach =>
    rw [hline]
    exact h.reach
  case retreat =>
    rw [hline]
    exact h.retreat

theorem Sound.step (h : Sound g s) (hstep : Step g s s') : Sound g s' := by
  cases hstep with
  | look hb hnew hmem => exact h.look hb hnew hmem
  | push hb hnew hmem => exact h.push hb hnew hmem
  | pop hall => exact h.pop hall

theorem Sound.steps (h : Sound g s) (hsteps : Steps g s s') : Sound g s' := by
  induction hsteps with
  | refl => exact h
  | tail _ hstep ih => exact ih.step hstep

/-- The blocks in the line of a search that has come to its end are those that paths lead to. -/
theorem Sound.mem_line_iff_reaches (h : Sound g s) (hpath : s.path = []) (hentry : entry ∈ s.line) :
    b ∈ s.line ↔ g.Reaches b := by
  constructor
  · intro hb
    obtain ⟨bs, hbs, -⟩ := Path.start.extend (Relation.ReflTransGen.mono (fun _ _ h => h.1) _ _ (h.reach b hb))
    exact hbs.reaches
  · rintro ⟨bs, hbs⟩
    induction hbs with
    | start => exact hentry
    | @step u v bs _ hv ih =>
      have hu : u ∈ s.done := by
        rcases mem_line.1 ih with hu | hu
        · simp [hpath] at hu
        · exact hu
      exact (h.seen_mem _ (h.done_seen u hu v hv)).2.2

end Search

end Destack.Graph
