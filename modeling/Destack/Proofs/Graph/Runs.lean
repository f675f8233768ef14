import Destack.Graph.Layout
import Destack.Proofs.Decode
import Destack.Proofs.Graph.Blocks

/-!
# Cutting instructions into runs

Marking and cutting lose nothing: the runs put one after the other are the instructions, but for the marks
(`flatten_runs`). An instruction that ends a block is the last one of its run (`category_of_mem_dropLast`), and each
run starts at the address where the one before it ends (`contiguous_run`).
-/

namespace Destack

/-- An instruction without its mark. -/
def Instruction.unmarked (i : Instruction) : Instruction :=
  { i with leader := false }

@[simp] theorem Instruction.unmarked_address (i : Instruction) : i.unmarked.address = i.address := rfl
@[simp] theorem Instruction.unmarked_next (i : Instruction) : i.unmarked.next = i.next := rfl

theorem Instruction.unmarked_jumpTargets (i : Instruction) : i.unmarked.jumpTargets = i.jumpTargets := by
  have hcat : i.unmarked.category = i.category := rfl
  have hhalf : ∀ pos, i.unmarked.signedHalfAt pos = i.signedHalfAt pos := fun _ => rfl
  have hword : ∀ pos, i.unmarked.signedWordAt pos = i.signedWordAt pos := fun _ => rfl
  have htable : i.unmarked.switchTable? = i.switchTable? := rfl
  unfold jumpTargets
  rw [hcat, hhalf, hword, htable]
  cases i.category <;> rfl

/-- Instructions as they are decoded have no marks. -/
theorem Contiguous.unmarked_eq {a : Nat} {is : List Instruction} (h : Contiguous a is) {i : Instruction} (hi : i ∈ is) :
    i.unmarked = i := by
  unfold Instruction.unmarked
  rw [← h.leader_eq_false i hi]

theorem Instruction.category_of_jumpTargets_ne_nil {i : Instruction} (h : i.jumpTargets ≠ []) :
    i.category = .conditionalBranch ∨ i.category = .goto ∨ i.category = .subroutine ∨ i.category = .switch := by
  unfold jumpTargets at h
  split at h
  · next hc => exact Or.inl hc
  · next hc => exact Or.inr (Or.inl hc)
  · next hc => exact Or.inr (Or.inr (Or.inl hc))
  · next hc => exact Or.inr (Or.inr (Or.inr hc))
  · exact absurd rfl h

/-- The address after a sequence of instructions that starts at an address. -/
def endOf (a : Nat) (is : List Instruction) : Nat :=
  is.foldl (fun _ i => i.next) a

@[simp] theorem endOf_nil (a : Nat) : endOf a [] = a := rfl

@[simp] theorem endOf_cons (a : Nat) (i : Instruction) (is : List Instruction) :
    endOf a (i :: is) = endOf i.next is := rfl

theorem endOf_append (a : Nat) (is js : List Instruction) : endOf a (is ++ js) = endOf (endOf a is) js := by
  simp [endOf]

theorem endOf_eq_of_getLast? {a : Nat} {is : List Instruction} {last : Instruction}
    (h : is.getLast? = some last) : endOf a is = last.next := by
  rw [List.getLast?_eq_some_iff] at h
  obtain ⟨front, rfl⟩ := h
  simp [endOf_append]

theorem endOf_map_unmarked (a : Nat) (is : List Instruction) : endOf a (is.map Instruction.unmarked) = endOf a is := by
  induction is generalizing a with
  | nil => rfl
  | cons i is ih => simp [ih]

theorem contiguous_append {a : Nat} {is js : List Instruction} :
    Contiguous a (is ++ js) ↔ Contiguous a is ∧ Contiguous (endOf a is) js := by
  induction is generalizing a with
  | nil => simp [Contiguous]
  | cons i is ih => simp only [List.cons_append, Contiguous, ih, endOf_cons, and_assoc]

namespace Layout

/-! ## Marks -/

theorem map_unmarked_markLeaders (targets : Std.TreeSet Nat) (first : Bool) (is : List Instruction) :
    (markLeaders targets first is).map Instruction.unmarked = is.map Instruction.unmarked := by
  induction is generalizing first with
  | nil => rfl
  | cons i is ih => simp [markLeaders, ih, Instruction.unmarked]

/-- An instruction after one that ends a block is marked. -/
def Marked (is : List Instruction) : Prop :=
  is.IsChain fun i j => i.category.endsBlock = true → j.leader = true

theorem marked_markLeaders (targets : Std.TreeSet Nat) (first : Bool) (is : List Instruction) :
    Marked (markLeaders targets first is) := by
  induction is generalizing first with
  | nil => exact .nil
  | cons i is ih =>
    have htail := ih i.category.endsBlock
    unfold markLeaders Marked
    cases is with
    | nil => exact .singleton _
    | cons j is =>
      unfold markLeaders at htail ⊢
      refine .cons_cons (fun hends => ?_) htail
      have : i.category.endsBlock = true := hends
      simp [this]

/-! ## Runs -/

theorem flatten_cut (current is : List Instruction) : (cut current is).flatten = current.reverse ++ is := by
  induction is generalizing current with
  | nil =>
    unfold cut
    split
    · next h => simp [List.isEmpty_iff.1 h]
    · simp
  | cons i is ih =>
    unfold cut
    split
    · simp [ih]
    · simp [ih]

theorem ne_nil_of_mem_cut {current is run : List Instruction} (h : run ∈ cut current is) : run ≠ [] := by
  induction is generalizing current with
  | nil =>
    unfold cut at h
    split at h
    · cases h
    · next hne =>
      rw [List.mem_singleton] at h
      subst h
      simpa using hne
  | cons i is ih =>
    unfold cut at h
    split at h
    · next hc =>
      rcases List.mem_cons.1 h with rfl | h
      · simp only [Bool.and_eq_true, Bool.not_eq_true', List.isEmpty_eq_false_iff] at hc
        simpa using hc.2
      · exact ih h
    · exact ih h

/-- Only the first instruction of a run is marked. -/
theorem leader_eq_false_of_mem_tail {current is : List Instruction}
    (hcur : ∀ i ∈ current.reverse.tail, i.leader = false) :
    ∀ run ∈ cut current is, ∀ i ∈ run.tail, i.leader = false := by
  induction is generalizing current with
  | nil =>
    intro run h
    unfold cut at h
    split at h
    · cases h
    · rw [List.mem_singleton] at h
      subst h
      exact hcur
  | cons i is ih =>
    intro run h
    unfold cut at h
    split at h
    · rcases List.mem_cons.1 h with rfl | h
      · exact hcur
      · exact ih (by simp) run h
    · next hc =>
      refine ih ?_ run h
      cases hcur' : current.reverse with
      | nil => simp [List.reverse_eq_nil_iff.1 hcur']
      | cons j js =>
        rw [hcur'] at hcur
        have hne : current.isEmpty = false := by
          cases current with
          | nil => simp at hcur'
          | cons => rfl
        have hi : i.leader = false := by simpa [hne] using hc
        intro k hk
        simp only [List.reverse_cons, hcur', List.cons_append, List.tail_cons, List.mem_append,
          List.mem_singleton] at hk
        rcases hk with hk | rfl
        · exact hcur k hk
        · exact hi

/-- In a run of marked instructions, an instruction with another one after it does not end a block. -/
theorem endsBlock_of_mem_dropLast {run : List Instruction} (hmarked : Marked run)
    (htail : ∀ i ∈ run.tail, i.leader = false) : ∀ i ∈ run.dropLast, i.category.endsBlock = false := by
  induction run with
  | nil => intro i hi; cases hi
  | cons i run ih =>
    cases run with
    | nil => intro k hk; cases hk
    | cons j run =>
      intro k hk
      rw [List.dropLast_cons_cons] at hk
      have hj : j.leader = false := htail j (by simp)
      rcases List.mem_cons.1 hk with rfl | hk
      · cases hends : k.category.endsBlock with
        | false => rfl
        | true =>
          have : j.leader = true := (List.isChain_cons_cons.1 hmarked).1 hends
          rw [hj] at this
          cases this
      · exact ih (List.isChain_cons_cons.1 hmarked).2
          (fun k hk => htail k (List.mem_cons_of_mem j hk)) k hk

theorem category_eq_other {c : Category} (h : c.endsBlock = false) : c = .other := by
  cases c <;> first | rfl | cases h

/-- The runs of a method's instructions, with an empty run in front if the first instruction is a jump target. -/
def runs (targets : List Nat) (is : List Instruction) : List (List Instruction) :=
  (if targets.contains ((is.head?.map (·.address)).getD 0) then [[]] else []) ++
    cut [] (markLeaders (targets.foldl (·.insert ·) ∅) true is)

theorem mem_runs {targets : List Nat} {is run : List Instruction} (h : run ∈ runs targets is) :
    run = [] ∨ run ∈ cut [] (markLeaders (targets.foldl (·.insert ·) ∅) true is) := by
  rcases List.mem_append.1 h with h | h
  · split at h
    · exact Or.inl (List.mem_singleton.1 h)
    · cases h
  · exact Or.inr h

theorem runs_ne_nil (targets : List Nat) {is : List Instruction} (hne : is ≠ []) : runs targets is ≠ [] := by
  intro hnil
  have hflat := flatten_cut [] (markLeaders (targets.foldl (·.insert ·) ∅) true is)
  rw [(List.append_eq_nil_iff.1 hnil).2] at hflat
  cases is with
  | nil => exact hne rfl
  | cons i is => cases hflat

/-- Runs read off their positions. -/
theorem map_getD_range (rs : List (List Instruction)) :
    (List.range rs.length).map (fun k => rs[k]?.getD []) = rs := by
  refine List.ext_getElem (by simp) fun k hk hk' => ?_
  simp [hk']

theorem flatten_runs (targets : List Nat) {a : Nat} {is : List Instruction} (h : Contiguous a is) :
    (runs targets is).flatten.map Instruction.unmarked = is := by
  have hfront : (if targets.contains ((is.head?.map (·.address)).getD 0) then [[]]
      else ([] : List (List Instruction))).flatten = [] := by
    split <;> rfl
  unfold runs
  rw [List.flatten_append, hfront, List.nil_append, flatten_cut]
  simp only [List.reverse_nil, List.nil_append]
  rw [map_unmarked_markLeaders, List.map_congr_left fun i hi => h.unmarked_eq hi, List.map_id']

theorem unmarked_mem {targets : List Nat} {is run : List Instruction} (h : Contiguous 0 is) {k : Nat}
    (hk : (runs targets is)[k]? = some run) {i : Instruction} (hi : i ∈ run) : i.unmarked ∈ is := by
  have hmem : i ∈ (runs targets is).flatten := List.mem_flatten.2 ⟨run, List.mem_of_getElem? hk, hi⟩
  rw [← flatten_runs targets h]
  exact List.mem_map_of_mem hmem

/-- Addresses go up from run to run. -/
theorem pairwise_address_runs (targets : List Nat) {is : List Instruction} (h : Contiguous 0 is) :
    (runs targets is).flatten.Pairwise fun i j => i.address < j.address := by
  have hlt := h.pairwise_lt
  rwa [← flatten_runs targets h, List.pairwise_map] at hlt

/-- Where the run at a position starts. -/
def startAt (rs : List (List Instruction)) (k : Nat) : Nat :=
  endOf 0 (rs.take k).flatten

@[simp] theorem startAt_zero (rs : List (List Instruction)) : startAt rs 0 = 0 := by
  simp [startAt]

theorem startAt_succ {rs : List (List Instruction)} {k : Nat} {run : List Instruction} (h : rs[k]? = some run) :
    startAt rs (k + 1) = endOf (startAt rs k) run := by
  unfold startAt
  rw [List.take_add_one, h]
  simp [endOf_append]

/-- A run of contiguous instructions is contiguous, from the address where it starts. -/
theorem contiguous_run {targets : List Nat} {is : List Instruction} (h : Contiguous 0 is) {k : Nat}
    {run : List Instruction} (hk : (runs targets is)[k]? = some run) :
    Contiguous (startAt (runs targets is) k) (run.map Instruction.unmarked) := by
  rw [← flatten_runs targets h] at h
  generalize runs targets is = rs at h hk ⊢
  obtain ⟨hlt, hget⟩ := List.getElem?_eq_some_iff.1 hk
  have hsplit : rs = rs.take k ++ run :: rs.drop (k + 1) := by
    rw [← hget, List.getElem_cons_drop, List.take_append_drop]
  rw [hsplit] at h
  simp only [List.flatten_append, List.flatten_cons, List.map_append] at h
  have := (contiguous_append.1 (contiguous_append.1 h).2).1
  rwa [endOf_map_unmarked] at this

/-- An instruction with another one after it in its run transfers no control. -/
theorem category_of_mem_dropLast {targets : List Nat} {is run : List Instruction} (h : run ∈ runs targets is) :
    ∀ i ∈ run.dropLast, i.category = .other := by
  intro i hi
  rcases mem_runs h with rfl | h
  · cases hi
  · have htail := leader_eq_false_of_mem_tail (by simp) run h
    have hmarked : Marked run := by
      have hall := marked_markLeaders (targets.foldl (·.insert ·) ∅) true is
      have hflat := flatten_cut [] (markLeaders (targets.foldl (·.insert ·) ∅) true is)
      rw [List.reverse_nil, List.nil_append] at hflat
      rw [← hflat] at hall
      exact hall.infix (List.infix_of_mem_flatten h)
    exact category_eq_other (endsBlock_of_mem_dropLast hmarked htail i hi)

/-- Only a run in front may be empty. -/
theorem run_ne_nil {targets : List Nat} {is run : List Instruction} {k : Nat} (h : (runs targets is)[k]? = some run)
    (hk : k ≠ 0) : run ≠ [] := by
  unfold runs at h
  split at h
  · rw [List.getElem?_append_right (by simp; omega)] at h
    exact ne_nil_of_mem_cut (List.mem_of_getElem? h)
  · rw [List.nil_append] at h
    exact ne_nil_of_mem_cut (List.mem_of_getElem? h)

end Layout

end Destack
