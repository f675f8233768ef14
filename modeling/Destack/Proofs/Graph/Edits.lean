import Destack.Proofs.Graph.Analysis

/-!
# Calls that change a graph

A graph is changed by calls that add blocks and edges, analyse it and prune it. A call that is refused leaves the graph
as it was. Edges stay linked along every run of calls that prunes only what an analysis has found dead
(`Rootable.after`).

Blocks do not get their numbers from a counter: a new one gets the number above those that are there. The numbers given
so far are always those below a bound, and the next one is new only as long as the block with the greatest of them is
there (`number_given_again_iff`).
-/

namespace Destack.Graph

/-- A call that changes a graph. -/
inductive Edit where
  | addBlock
  | addEdge (source target : BlockId)
  | analyze
  | prune
deriving DecidableEq, Repr

namespace Edit

/-- The graph that a call leaves. -/
def apply (g : Graph) : Edit → Graph
  | addBlock => g.addBlock.2
  | addEdge source target =>
    match edge source target g with
    | .ok _ g' => g'
    | .error _ g' => g'
  | analyze =>
    match g.analyze with
    | .ok (_, g') => g'
    | .error _ => g
  | prune => g.prune.2

/-- The number that a call gives to a block, if it adds one. -/
def given (g : Graph) : Edit → List BlockId
  | addBlock => [g.addBlock.1]
  | _ => []

end Edit

/-- The graph after some calls. -/
def after (g : Graph) (edits : List Edit) : Graph :=
  edits.foldl Edit.apply g

/-- The numbers that some calls give to blocks, in order. -/
def given (g : Graph) : List Edit → List BlockId
  | [] => []
  | e :: edits => e.given g ++ given (e.apply g) edits

variable {g g' : Graph} {b source target : BlockId}

theorem apply_addEdge (g : Graph) (source target : BlockId) :
    g.addEdge source target = .ok ((Edit.addEdge source target).apply g) ∨
      (Edit.addEdge source target).apply g = g := by
  simp only [Edit.apply, addEdge]
  cases hedge : edge source target g with
  | ok _ g' => exact Or.inl rfl
  | error e g' => exact Or.inr (edge_eq_error hedge).1

theorem apply_analyze (g : Graph) :
    (∃ summary, g.analyze = .ok (summary, Edit.analyze.apply g)) ∨ Edit.analyze.apply g = g := by
  simp only [Edit.apply]
  cases g.analyze with
  | ok result => exact Or.inl ⟨result.1, rfl⟩
  | error e => exact Or.inr rfl

/-! ## Edges -/

/-- A linked graph in which no edge leads to the entry, which need not be there yet. -/
structure Rootable (g : Graph) : Prop where
  linked : Linked g
  entry_not_mem : ∀ b, entry ∉ g.succs b

theorem Rooted.rootable (h : Rooted g) : Rootable g :=
  ⟨h.linked, h.entry_not_mem_succs⟩

namespace Rootable

theorem empty : Rootable Graph.empty :=
  ⟨Assembled.empty.linked, fun b => by simp [succs, block?, Graph.empty]⟩

theorem addBlock (h : Rootable g) : Rootable g.addBlock.2 := by
  refine ⟨h.linked.addBlock, fun b => ?_⟩
  have hold := h.entry_not_mem b
  unfold succs at hold ⊢
  rw [block?_addBlock]
  split
  · exact List.not_mem_nil
  · exact hold

theorem addEdge (h : Rootable g) (hadd : g.addEdge source target = .ok g') (ht : target ≠ entry) : Rootable g' := by
  refine ⟨h.linked.addEdge hadd, fun b => ?_⟩
  have hold := h.entry_not_mem b
  unfold succs at hold ⊢
  rw [block?_addEdge h.linked hadd]
  cases hb : g.block? b with
  | none => exact List.not_mem_nil
  | some block =>
    rw [hb] at hold
    simp only [Option.map_some, Option.getD_some, succs_withEdge] at hold ⊢
    split
    · rw [mem_appendNew]
      exact not_or.2 ⟨hold, ht.symm⟩
    · exact hold

theorem analyze {summary : FlowSummary} (h : Rootable g) (ha : g.analyze = .ok (summary, g')) : Rootable g' := by
  have hrooted : Rooted g := by
    refine ⟨h.linked, hasBlock_entry_of_validate (validate_of_analyze ha), fun {b block} hb => ?_⟩
    rw [← succs_eq hb]
    exact h.entry_not_mem b
  exact (hrooted.analyze ha).rootable

/-- No call that draws no edge to the entry and does not prune on its own spoils a graph. -/
theorem apply {e : Edit} (h : Rootable g) (hprune : e ≠ .prune)
    (hentry : ∀ source g', e = .addEdge source entry → g.addEdge source entry ≠ .ok g') : Rootable (e.apply g) := by
  cases e with
  | addBlock => exact h.addBlock
  | addEdge source target =>
    rcases apply_addEdge g source target with hadd | hsame
    · refine h.addEdge hadd ?_
      rintro rfl
      exact hentry source _ rfl hadd
    · rw [hsame]
      exact h
  | analyze =>
    rcases apply_analyze g with ⟨summary, ha⟩ | hsame
    · exact h.analyze ha
    · rw [hsame]
      exact h
  | prune => exact absurd rfl hprune

end Rootable

/-- Every edge to the entry that is asked for is refused. -/
def SparesEntry (g : Graph) (edits : List Edit) : Prop :=
  ∀ front source rest, edits = front ++ .addEdge source entry :: rest →
    ∀ g', (g.after front).addEdge source entry ≠ .ok g'

theorem sparesEntry_of_not_mem {edits : List Edit} (h : ∀ source, .addEdge source entry ∉ edits) :
    g.SparesEntry edits := by
  intro front source rest hsplit
  exact absurd (by simp [hsplit]) (h source)

theorem Rootable.after {edits : List Edit} (h : Rootable g) (hprune : .prune ∉ edits) (hentry : g.SparesEntry edits) :
    Rootable (g.after edits) := by
  induction edits generalizing g with
  | nil => exact h
  | cons e edits ih =>
    rw [List.mem_cons, not_or] at hprune
    refine ih (h.apply (Ne.symm hprune.1) ?_) hprune.2 ?_
    · rintro source g' rfl
      exact hentry [] source edits rfl g'
    · intro front source rest hsplit
      exact hentry (e :: front) source rest (by rw [hsplit, List.cons_append])

/-! ## Numbers -/

theorem keeps_addEdge (h : g.addEdge source target = .ok g') : Keeps bare g g' := by
  obtain ⟨-, _, -, ⟨-, rfl⟩ | ⟨-, rfl⟩⟩ := addEdge_eq_ok h
  · exact Keeps.refl bare _
  · refine (Keeps.modifyBlock g source ?_).trans (Keeps.modifyBlock _ target ?_)
    · exact fun block => rfl
    · exact fun block => rfl

/-- A call adds no block but one with the next number. -/
theorem hasBlock_apply {e : Edit} (h : (e.apply g).hasBlock b = true) :
    g.hasBlock b = true ∨ e = .addBlock ∧ b = g.nextBlock := by
  cases e with
  | addBlock =>
    rw [hasBlock_iff, Edit.apply, block?_addBlock] at h
    split at h
    · next hb => exact Or.inr ⟨rfl, hb⟩
    · exact Or.inl (hasBlock_iff.2 h)
  | addEdge source target =>
    rcases apply_addEdge g source target with hadd | hsame
    · exact Or.inl ((keeps_addEdge hadd).hasBlock_eq b ▸ h)
    · exact Or.inl (hsame ▸ h)
  | analyze =>
    rcases apply_analyze g with ⟨summary, ha⟩ | hsame
    · obtain ⟨g₁, hmarks, hdom⟩ := analyze_eq_ok ha
      rw [hdom.keeps.hasBlock_eq] at h
      obtain ⟨block', hb'⟩ := hasBlock_iff.1 h
      obtain ⟨-, block, hb, -⟩ := block?_prune_eq_some hb'
      exact Or.inl (hmarks.keeps.hasBlock_eq b ▸ hasBlock_iff.2 ⟨block, hb⟩)
    · exact Or.inl (hsame ▸ h)
  | prune =>
    obtain ⟨block', hb'⟩ := hasBlock_iff.1 h
    obtain ⟨-, block, hb, -⟩ := block?_prune_eq_some hb'
    exact Or.inl (hasBlock_iff.2 ⟨block, hb⟩)

/-- The numbers given to blocks are those below a bound. -/
structure GivenBelow (n : Nat) (numbers : List BlockId) (g : Graph) : Prop where
  mem_iff : ∀ b, b ∈ numbers ↔ b < n
  lt_of_hasBlock : ∀ b, g.hasBlock b = true → b < n

namespace GivenBelow

variable {n : Nat} {numbers : List BlockId}

theorem nextBlock_le (h : GivenBelow n numbers g) : g.nextBlock ≤ n := by
  cases hnext : g.nextBlock with
  | zero => exact Nat.zero_le n
  | succ b => exact h.lt_of_hasBlock b (hasBlock_of_nextBlock_eq hnext)

theorem apply (h : GivenBelow n numbers g) (e : Edit) : ∃ n', GivenBelow n' (numbers ++ e.given g) (e.apply g) := by
  by_cases he : e = .addBlock
  · subst he
    have hle := h.nextBlock_le
    refine ⟨max n (g.nextBlock + 1), fun b => ?_, fun b hb => ?_⟩
    · rw [List.mem_append, h.mem_iff, Edit.given, List.mem_singleton]
      change b < n ∨ b = g.nextBlock ↔ _
      lia
    · rcases hasBlock_apply hb with hb | ⟨-, rfl⟩
      · have := h.lt_of_hasBlock b hb
        lia
      · lia
  · have hnone : e.given g = [] := by
      cases e <;> first | rfl | exact absurd rfl he
    refine ⟨n, fun b => ?_, fun b hb => ?_⟩
    · rw [hnone, List.append_nil, h.mem_iff]
    · exact h.lt_of_hasBlock b ((hasBlock_apply hb).resolve_right fun hadd => he hadd.1)

theorem after (h : GivenBelow n numbers g) (edits : List Edit) :
    ∃ n', GivenBelow n' (numbers ++ g.given edits) (g.after edits) := by
  induction edits generalizing g n numbers with
  | nil => exact ⟨n, by simpa [Graph.given, Graph.after] using h⟩
  | cons e edits ih =>
    obtain ⟨n₁, h₁⟩ := h.apply e
    have := ih h₁
    rwa [List.append_assoc] at this

/-- The next number was given before exactly if the block with the greatest one is gone. -/
theorem nextBlock_mem_iff (h : GivenBelow n numbers g) :
    g.nextBlock ∈ numbers ↔ ∃ b ∈ numbers, (∀ k ∈ numbers, k ≤ b) ∧ g.hasBlock b = false := by
  have hle := h.nextBlock_le
  rw [h.mem_iff]
  constructor
  · intro hlt
    refine ⟨n - 1, (h.mem_iff _).2 (by lia), fun k hk => ?_, ?_⟩
    · have := (h.mem_iff k).1 hk
      lia
    · rw [Bool.eq_false_iff]
      intro hhas
      have := lt_nextBlock hhas
      lia
  · rintro ⟨b, hb, hmax, hgone⟩
    rw [h.mem_iff] at hb
    have hlast : n - 1 ≤ b := hmax _ ((h.mem_iff _).2 (by lia))
    by_contra hnot
    -- Otherwise the next number is the bound, and the block below it is there.
    have hhas : g.hasBlock b = true := hasBlock_of_nextBlock_eq (by lia)
    rw [hgone] at hhas
    cases hhas

end GivenBelow

/-- Graphs that calls start from: the one without blocks, and those of code. -/
inductive Origin : Graph → Prop where
  | empty : Origin Graph.empty
  | code {is : List Instruction} {g : Graph} : ofInstructions is = .ok g → Origin g

namespace Origin

theorem rootable (h : Origin g) : Rootable g := by
  cases h with
  | empty => exact Rootable.empty
  | code hg => exact (rooted_ofInstructions hg).1.rootable

theorem exists_givenBelow (h : Origin g) : ∃ n, GivenBelow n g.blockIds g := by
  have hlt : ∃ n, ∀ b, g.hasBlock b = true ↔ b < n := by
    cases h with
    | empty => exact ⟨0, by simp [hasBlock, Graph.empty]⟩
    | code hg => exact exists_hasBlock_iff_lt hg
  obtain ⟨n, hn⟩ := hlt
  exact ⟨n, fun b => mem_blockIds.trans (hn b), fun b => (hn b).1⟩

end Origin

/-- After any calls, a new block gets a number that no block has. It is one that was given before exactly if the block
with the greatest number given so far is not there any more. -/
theorem number_given_again_iff (h : Origin g) (edits : List Edit) :
    (g.after edits).hasBlock (g.after edits).addBlock.1 = false ∧
      ((g.after edits).addBlock.1 ∈ g.blockIds ++ g.given edits ↔
        ∃ b ∈ g.blockIds ++ g.given edits, (∀ k ∈ g.blockIds ++ g.given edits, k ≤ b) ∧
          (g.after edits).hasBlock b = false) := by
  obtain ⟨n, hn⟩ := h.exists_givenBelow
  obtain ⟨n', hn'⟩ := hn.after edits
  exact ⟨hasBlock_eq_false_iff.2 (block?_nextBlock _), hn'.nextBlock_mem_iff⟩

/-- An analysis that takes away the last block makes its number that of the next one. -/
theorem number_given_again_once_pruned : Origin Graph.empty ∧
    Graph.empty.given [.addBlock, .addBlock, .analyze] = [0, 1] ∧
      (Graph.empty.after [.addBlock, .addBlock, .analyze]).addBlock.1 ∈ [0, 1] := by
  have hgiven : Graph.empty.blockIds ++ Graph.empty.given [.addBlock, .addBlock, .analyze] = [0, 1] := by
    simp only [given, Edit.given, Edit.apply, addBlock, nextBlock_eq_getLast?]
    decide +kernel
  have hgone : (Graph.empty.after [.addBlock, .addBlock, .analyze]).hasBlock 1 = false := by
    simp only [after, List.foldl_cons, List.foldl_nil, Edit.apply, addBlock, nextBlock_eq_getLast?]
    decide +kernel
  obtain ⟨-, hiff⟩ := number_given_again_iff .empty [.addBlock, .addBlock, .analyze]
  rw [hgiven] at hiff
  exact ⟨.empty, hgiven, hiff.2 ⟨1, by decide, by decide, hgone⟩⟩

/-- Numbers are given more than once. -/
theorem number_given_twice : ¬ ∀ edits, (Graph.empty.given edits).Nodup := by
  intro h
  have hgiven : Graph.empty.given [.addBlock, .addBlock, .analyze, .addBlock] = [0, 1, 1] := by
    simp only [given, Edit.given, Edit.apply, addBlock, nextBlock_eq_getLast?]
    decide +kernel
  have := h [.addBlock, .addBlock, .analyze, .addBlock]
  rw [hgiven] at this
  simp at this

end Destack.Graph
