import Destack.Proofs.Ssa.Growth

/-!
# Counting by name

Counts by name stay sorted, with one entry for each name, so that counting a name raises its own entry and no other.
Counting nodes one by one comes to adding up how many there are, how many merges and how many of each kind
(`Statistics.addOps_eq`).
-/

namespace Destack

namespace Tally

variable {t : Tally} {name : String}

/-- The count under a name. -/
def entry (t : Tally) (name : String) : Nat :=
  (List.lookup name t).getD 0

/-- Names come in ascending order, each of them once. -/
def Sorted (t : Tally) : Prop :=
  t.Pairwise fun a b => a.1 < b.1

theorem total_cons (name : String) (count : Nat) (t : Tally) : total ((name, count) :: t) = count + t.total :=
  rfl

theorem entry_cons (name kind : String) (count : Nat) (t : Tally) :
    entry ((name, count) :: t) kind = if kind = name then count else t.entry kind := by
  rw [entry, entry, List.lookup_cons]
  split
  · next h => rw [if_pos (eq_of_beq h), Option.getD_some]
  · next h => rw [if_neg (ne_of_beq_false h)]

theorem entry_eq_zero (h : ∀ e ∈ t, name < e.1) : t.entry name = 0 := by
  have hnone : List.lookup name t = none := by
    refine List.lookup_eq_none_iff.2 fun e he => bne_iff_ne.2 fun heq => ?_
    exact String.lt_irrefl name (heq ▸ h e he)
  rw [entry, hnone, Option.getD_none]

/-! ## One more under a name -/

theorem total_bump (name : String) (t : Tally) : (t.bump name).total = t.total + 1 := by
  fun_induction bump name t with
  | case1 => rfl
  | case2 count rest =>
    rw [total_cons, total_cons]
    omega
  | case3 other count rest hne hlt =>
    rw [total_cons, total_cons]
    omega
  | case4 other count rest hne hnot ih =>
    rw [total_cons, total_cons, ih]
    omega

theorem fst_of_mem_bump {e : String × Nat} (h : e ∈ t.bump name) : e.1 = name ∨ ∃ e' ∈ t, e'.1 = e.1 := by
  fun_induction bump name t with
  | case1 =>
    rw [List.mem_singleton.1 h]
    exact Or.inl rfl
  | case2 count rest =>
    rcases List.mem_cons.1 h with rfl | h
    · exact Or.inl rfl
    · exact Or.inr ⟨e, List.mem_cons_of_mem _ h, rfl⟩
  | case3 other count rest hne hlt =>
    rcases List.mem_cons.1 h with rfl | h
    · exact Or.inl rfl
    · exact Or.inr ⟨e, h, rfl⟩
  | case4 other count rest hne hnot ih =>
    rcases List.mem_cons.1 h with rfl | h
    · exact Or.inr ⟨_, List.mem_cons_self, rfl⟩
    · rcases ih h with heq | ⟨e', he', heq⟩
      · exact Or.inl heq
      · exact Or.inr ⟨e', List.mem_cons_of_mem _ he', heq⟩

theorem Sorted.bump (h : t.Sorted) (name : String) : (t.bump name).Sorted := by
  unfold Sorted at h ⊢
  fun_induction Tally.bump name t with
  | case1 => exact List.pairwise_singleton _ _
  | case2 count rest => exact List.pairwise_cons.2 (List.pairwise_cons.1 h)
  | case3 other count rest hne hlt =>
    refine List.pairwise_cons.2 ⟨fun e he => ?_, h⟩
    rcases List.mem_cons.1 he with rfl | he
    · exact hlt
    · exact String.lt_trans hlt ((List.pairwise_cons.1 h).1 e he)
  | case4 other count rest hne hnot ih =>
    obtain ⟨hfirst, hrest⟩ := List.pairwise_cons.1 h
    refine List.pairwise_cons.2 ⟨fun e he => ?_, ih hrest⟩
    rcases fst_of_mem_bump he with heq | ⟨e', he', heq⟩
    · rw [heq]
      exact Std.lt_of_le_of_ne (String.not_lt.1 hnot) hne
    · rw [← heq]
      exact hfirst e' he'

/-- Counting a name raises its own entry and no other. -/
theorem Sorted.entry_bump (h : t.Sorted) (name kind : String) :
    (t.bump name).entry kind = t.entry kind + if name = kind then 1 else 0 := by
  unfold Sorted at h
  fun_induction Tally.bump name t with
  | case1 =>
    rw [entry_cons]
    simp only [eq_comm, entry, List.lookup_nil, Option.getD_none, Nat.zero_add]
  | case2 count rest =>
    rw [entry_cons, entry_cons]
    split
    · next heq => rw [if_pos heq.symm]
    · next hne => rw [if_neg fun heq => hne heq.symm, Nat.add_zero]
  | case3 other count rest hne hlt =>
    rw [entry_cons]
    split
    · next heq =>
      have hzero : entry ((other, count) :: rest) name = 0 := by
        refine entry_eq_zero fun e he => ?_
        rcases List.mem_cons.1 he with rfl | he
        · exact hlt
        · exact String.lt_trans hlt ((List.pairwise_cons.1 h).1 e he)
      rw [heq, hzero, if_pos rfl]
    · next hne' => rw [if_neg fun heq => hne' heq.symm, Nat.add_zero]
  | case4 other count rest hne hnot ih =>
    rw [entry_cons, entry_cons, ih (List.pairwise_cons.1 h).2]
    split
    · next heq => rw [if_neg fun h => hne (heq.symm.trans h.symm), Nat.add_zero]
    · rfl

/-! ## Many names -/

/-- Counts names one after the other. -/
def bumpAll (t : Tally) (names : List String) : Tally :=
  names.foldl (fun t name => t.bump name) t

theorem total_bumpAll (names : List String) (t : Tally) : (t.bumpAll names).total = t.total + names.length := by
  induction names generalizing t with
  | nil => rfl
  | cons name names ih =>
    rw [bumpAll, List.foldl_cons, ← bumpAll, ih, total_bump, List.length_cons]
    omega

theorem Sorted.bumpAll (h : t.Sorted) (names : List String) : (t.bumpAll names).Sorted := by
  induction names generalizing t with
  | nil => exact h
  | cons name names ih => exact ih (h.bump name)

theorem Sorted.entry_bumpAll (h : t.Sorted) (names : List String) (kind : String) :
    (t.bumpAll names).entry kind = t.entry kind + names.count kind := by
  induction names generalizing t with
  | nil => rfl
  | cons name names ih =>
    rw [Tally.bumpAll, List.foldl_cons, ← Tally.bumpAll, ih (h.bump name), h.entry_bump, List.count_cons]
    simp only [beq_iff_eq]
    omega

end Tally

/-- Nodes that are counted one by one. -/
theorem Statistics.addOps_eq (ops : List Ssa.Op) (s : Statistics) :
    s.addOps ops =
      { s with
        nodes := s.nodes + ops.length
        nodeKinds := s.nodeKinds.bumpAll (ops.map (·.kind))
        mergesCreated := s.mergesCreated + ops.countP (·.isMerge) } := by
  induction ops generalizing s with
  | nil => rfl
  | cons op ops ih =>
    rw [addOps, List.foldl_cons, ← addOps, ih, List.length_cons, List.countP_cons, Nat.add_comm ops.length]
    cases hmerge : op.isMerge with
    | true => simp only [addOp, hmerge, if_true, addNode, addMergeCreated, Tally.bumpAll, List.map_cons,
        List.foldl_cons, Nat.add_assoc, Nat.add_comm 1]
    | false => simp only [addOp, hmerge, Bool.false_eq_true, if_false, addNode, Tally.bumpAll, List.map_cons,
        List.foldl_cons, Nat.add_assoc, Nat.add_zero]

end Destack
