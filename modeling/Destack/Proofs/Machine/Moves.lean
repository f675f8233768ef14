import Destack.Proofs.Machine.Code

/-!
# Running moves

Moves on an edge are put one after the other so that they do what they would do at once: every destination gets what
its source held before the first of them, and apart from destinations and fresh registers nothing changes
(`runMoves_sequence`).
-/

namespace Destack

namespace Register

theorem isVirtual_virtual (n : Nat) : (virtual n).isVirtual = true := by
  simp [isVirtual, isPhysical, virtual]

theorem exists_virtual {r : Register} (h : r.isVirtual = true) : ∃ n, r = virtual n := by
  have hle : physicalCount ≤ r.id := by simpa [isVirtual, isPhysical] using h
  exact ⟨r.id - physicalCount, by rw [virtual, Nat.add_sub_cancel' hle]⟩

theorem virtual_inj {m n : Nat} : virtual m = virtual n ↔ m = n := by
  simp [virtual]

theorem ne_virtual {r : Register} (h : r.isVirtual = false) (n : Nat) : r ≠ virtual n := by
  rintro rfl
  cases h.symm.trans (isVirtual_virtual n)

/-- A register is none of the virtual ones from a number on. -/
def Below (n : Nat) (r : Register) : Prop :=
  ∀ k, n ≤ k → r ≠ virtual k

theorem below_virtual {k n : Nat} (h : k < n) : (virtual k).Below n := by
  intro j hj e
  rw [virtual_inj] at e
  omega

theorem Below.mono {m n : Nat} {r : Register} (h : r.Below m) (hle : m ≤ n) : r.Below n :=
  fun k hk => h k (hle.trans hk)

end Register

namespace Machine

/-! ## Straight code -/

section

variable (W : World) (m : Setting W)

/-- Runs instructions of which none is in control. -/
def executeAll : List Instr → State W.Value → Exec W (State W.Value)
  | [], s => pure s
  | i :: is, s => do executeAll is (← execute W m s i)

end

section

variable {W : World} {m : Setting W}

theorem executeAll_singleton (i : Instr) (s : State W.Value) : executeAll W m [i] s = execute W m s i :=
  bind_pure _

theorem executeAll_append (is js : List Instr) (s : State W.Value) :
    executeAll W m (is ++ js) s = executeAll W m is s >>= executeAll W m js := by
  induction is generalizing s with
  | nil => rw [List.nil_append, executeAll, pure_bind]
  | cons i is ih =>
    rw [List.cons_append, executeAll, executeAll, bind_assoc]
    exact bind_congr fun s' => ih s'

theorem runCode_append {is : List Instr} (h : ∀ i ∈ is, i.op.isControl = false) (rest : List Instr)
    (s : State W.Value) : runCode W m (is ++ rest) s = executeAll W m is s >>= runCode W m rest := by
  induction is generalizing s with
  | nil => rw [List.nil_append, executeAll, pure_bind]
  | cons i is ih =>
    rw [List.cons_append, runCode, if_neg (by simp [h i]), executeAll, bind_assoc]
    exact bind_congr fun s' => ih (fun i hi => h i (List.mem_cons_of_mem _ hi)) s'

end

/-! ## What moves on an edge are -/

section

variable {moves : List Move} {n : Nat}

/-- The moves proper have the destinations of the moves. -/
theorem map_target_stage (targets : List Register) (n : Nat) (moves : List Move) :
    (stage targets n moves).2.1.map (·.target) = moves.map (·.target) := by
  induction moves generalizing n with
  | nil => rfl
  | cons m moves ih =>
    rw [stage]
    split
    · exact congrArg (m.target :: ·) (ih (n + 1))
    · exact congrArg (m.target :: ·) (ih n)

/-- Copies are made of sources, and a move proper reads its source or the copy of it. -/
theorem mem_stage (targets : List Register) (n : Nat) (moves : List Move) :
    (∀ copy ∈ (stage targets n moves).1, ∃ m ∈ moves, ∃ k, n ≤ k ∧ k < (stage targets n moves).2.2 ∧
      copy = ⟨m.source, .virtual k⟩) ∧
    ∀ move ∈ (stage targets n moves).2.1, ∃ m ∈ moves, move = m ∨
      ∃ k, ⟨m.source, .virtual k⟩ ∈ (stage targets n moves).1 ∧ move = ⟨.virtual k, m.target⟩ := by
  induction moves generalizing n with
  | nil => simp [stage]
  | cons m moves ih =>
    rw [stage]
    split
    · obtain ⟨hcopies, hmoves⟩ := ih (n + 1)
      refine ⟨fun copy hcopy => ?_, fun move hmove => ?_⟩
      · rcases List.mem_cons.1 hcopy with rfl | hcopy
        · exact ⟨m, List.mem_cons_self, n, Nat.le_refl n, le_stage targets (n + 1) moves, rfl⟩
        · obtain ⟨m', hm', k, hk, hnext, rfl⟩ := hcopies copy hcopy
          exact ⟨m', List.mem_cons_of_mem _ hm', k, Nat.le_of_succ_le hk, hnext, rfl⟩
      · rcases List.mem_cons.1 hmove with rfl | hmove
        · exact ⟨m, List.mem_cons_self, Or.inr ⟨n, List.mem_cons_self, rfl⟩⟩
        · obtain ⟨m', hm', hmove⟩ := hmoves move hmove
          refine ⟨m', List.mem_cons_of_mem _ hm', hmove.imp_right ?_⟩
          rintro ⟨k, hk, heq⟩
          exact ⟨k, List.mem_cons_of_mem _ hk, heq⟩
    · obtain ⟨hcopies, hmoves⟩ := ih n
      refine ⟨fun copy hcopy => ?_, fun move hmove => ?_⟩
      · obtain ⟨m', hm', hcopy⟩ := hcopies copy hcopy
        exact ⟨m', List.mem_cons_of_mem _ hm', hcopy⟩
      · rcases List.mem_cons.1 hmove with rfl | hmove
        · exact ⟨_, List.mem_cons_self, Or.inl rfl⟩
        · obtain ⟨m', hm', hmove⟩ := hmoves move hmove
          exact ⟨m', List.mem_cons_of_mem _ hm', hmove⟩

/-- What the moves of an edge are, one after the other: copies of sources, and moves from the sources or the copies. -/
theorem mem_sequence {move : Move} (h : move ∈ (sequence n moves).1) :
    ∃ m ∈ moves, (∃ k, n ≤ k ∧ k < (sequence n moves).2 ∧ move = ⟨m.source, .virtual k⟩) ∨ move = m ∨
      ∃ k, ⟨m.source, .virtual k⟩ ∈ (sequence n moves).1 ∧ move = ⟨.virtual k, m.target⟩ := by
  obtain ⟨hcopies, hmoves⟩ := mem_stage (moves.map (·.target)) n moves
  rcases List.mem_append.1 h with h | h
  · obtain ⟨m, hm, hcopy⟩ := hcopies move h
    exact ⟨m, hm, Or.inl hcopy⟩
  · obtain ⟨m, hm, hmove⟩ := hmoves move h
    refine ⟨m, hm, Or.inr (hmove.imp_right ?_)⟩
    exact fun ⟨k, hk, heq⟩ => ⟨k, List.mem_append_left _ hk, heq⟩

end

/-! ## Moves one after the other -/

section

variable {V : Type}

/-- Register contents after moves. -/
def runMoves : List Move → (Register → V) → Register → V
  | [], regs => regs
  | m :: ms, regs => runMoves ms fun r => if r = m.target then regs m.source else regs r

theorem executeAll_moves {W : World} {m : Setting W} (ms : List Move) (s : State W.Value) :
    executeAll W m (ms.map Move.instr) s = pure { s with regs := runMoves ms s.regs } := by
  induction ms generalizing s with
  | nil => rfl
  | cons move ms ih =>
    rw [List.map_cons, executeAll]
    exact ih _

variable {ms : List Move} {regs : Register → V} {n : Nat}

theorem runMoves_append (ms ms' : List Move) (regs : Register → V) :
    runMoves (ms ++ ms') regs = runMoves ms' (runMoves ms regs) := by
  induction ms generalizing regs with
  | nil => rfl
  | cons m ms ih => exact ih _

theorem runMoves_of_not_mem {r : Register} (h : r ∉ ms.map (·.target)) : runMoves ms regs r = regs r := by
  induction ms generalizing regs with
  | nil => rfl
  | cons m ms ih =>
    rw [List.map_cons, List.mem_cons, not_or] at h
    rw [runMoves, ih h.2, if_neg h.1]

/-- Moves that do not write what others read. -/
theorem runMoves_target (hnodup : (ms.map (·.target)).Nodup) (hsource : ∀ m ∈ ms, m.source ∉ ms.map (·.target))
    {m : Move} (hm : m ∈ ms) : runMoves ms regs m.target = regs m.source := by
  induction ms generalizing regs with
  | nil => cases hm
  | cons first ms ih =>
    rw [List.map_cons, List.nodup_cons] at hnodup
    rw [runMoves]
    rcases List.mem_cons.1 hm with rfl | hm
    · rw [runMoves_of_not_mem hnodup.1, if_pos rfl]
    · have hne : m.source ≠ first.target := fun e =>
        hsource m (List.mem_cons_of_mem _ hm) (e ▸ List.mem_cons_self)
      rw [ih hnodup.2 (fun m' hm' hmem => hsource m' (List.mem_cons_of_mem _ hm') (List.mem_cons_of_mem _ hmem)) hm,
        if_neg hne]

/-! ## Moves at once -/

/-- Endangered sources are copied to fresh registers, and the moves proper read what the sources held. -/
theorem runMoves_stage {targets : List Register} (htargets : ∀ r ∈ targets, r.Below n) (moves : List Move)
    (regs : Register → V) :
    (∀ r, r.Below n → runMoves (stage targets n moves).1 regs r = regs r) ∧
      List.Forall₂ (fun m m' => m'.target = m.target ∧ m'.source ∉ targets ∧
        (m.source.Below n → runMoves (stage targets n moves).1 regs m'.source = regs m.source))
        moves (stage targets n moves).2.1 := by
  induction moves generalizing n regs with
  | nil => exact ⟨fun _ _ => rfl, .nil⟩
  | cons m moves ih =>
    rw [stage]
    split
    · -- The copy is the first register still free.
      obtain ⟨hsame, hall⟩ := ih (fun r hr => (htargets r hr).mono (Nat.le_succ n))
        fun r => if r = Register.virtual n then regs m.source else regs r
      have hne : ∀ {r : Register}, r.Below n → r ≠ Register.virtual n := fun hr => hr n (Nat.le_refl n)
      refine ⟨fun r hr => ?_, .cons ⟨rfl, fun hmem => htargets _ hmem n (Nat.le_refl n) rfl, fun _ => ?_⟩ ?_⟩
      · exact (hsame r (hr.mono (Nat.le_succ n))).trans (if_neg (hne hr))
      · exact (hsame _ (Register.below_virtual (Nat.lt_succ_self n))).trans (if_pos rfl)
      · refine hall.imp fun m₁ m₂ h => ⟨h.1, h.2.1, fun hm₁ => ?_⟩
        exact (h.2.2 (hm₁.mono (Nat.le_succ n))).trans (if_neg (hne hm₁))
    · next hnot =>
      obtain ⟨hsame, hall⟩ := ih htargets regs
      exact ⟨hsame, .cons ⟨rfl, by simpa using hnot, hsame _⟩ hall⟩

theorem mem_of_forall₂ {α β : Type} {R : α → β → Prop} {xs : List α} {ys : List β} (h : List.Forall₂ R xs ys) {x : α}
    (hx : x ∈ xs) : ∃ y ∈ ys, R x y := by
  induction h with
  | nil => cases hx
  | cons hxy _ ih =>
    rcases List.mem_cons.1 hx with rfl | hx
    · exact ⟨_, List.mem_cons_self, hxy⟩
    · obtain ⟨y, hy, hR⟩ := ih hx
      exact ⟨y, List.mem_cons_of_mem _ hy, hR⟩

/-- Moves of an edge happen as if at once. -/
theorem runMoves_sequence {moves : List Move} (hnodup : (moves.map (·.target)).Nodup)
    (hbelow : ∀ m ∈ moves, m.source.Below n ∧ m.target.Below n) (regs : Register → V) :
    (∀ m ∈ moves, runMoves (sequence n moves).1 regs m.target = regs m.source) ∧
      ∀ r, r ∉ moves.map (·.target) → r.Below n → runMoves (sequence n moves).1 regs r = regs r := by
  have htargets : ∀ r ∈ moves.map (·.target), r.Below n := by
    intro r hr
    obtain ⟨m, hm, rfl⟩ := List.mem_map.1 hr
    exact (hbelow m hm).2
  obtain ⟨hsame, hall⟩ := runMoves_stage htargets moves regs
  have hsequence : (sequence n moves).1 = (stage (moves.map (·.target)) n moves).1 ++
      (stage (moves.map (·.target)) n moves).2.1 := rfl
  have heq := map_target_stage (moves.map (·.target)) n moves
  generalize stage (moves.map (·.target)) n moves = staged at hsame hall hsequence heq
  rw [hsequence, runMoves_append]
  constructor
  · intro m hm
    obtain ⟨m', hm', htarget, -, hsource⟩ := mem_of_forall₂ hall hm
    rw [← htarget, runMoves_target (heq ▸ hnodup) (fun m₁ hm₁ => ?_) hm', hsource (hbelow m hm).1]
    obtain ⟨-, -, -, hnot, -⟩ := mem_of_forall₂ hall.flip hm₁
    rwa [heq]
  · intro r hr hn
    rw [runMoves_of_not_mem (heq ▸ hr), hsame r hn]

end

end Machine

end Destack
