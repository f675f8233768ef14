import Destack.Proofs.Machine.Execution

/-!
# What instructions read and write

The instructions of a node write every virtual register that was handed out for it exactly once, and no other one
(`Emits.writeCount_eq`). What they read are registers of operands, and what they wrote before (`Emits.supplied`). In the
same way the moves of an edge write their temporary registers once, and read only sources and copies of them
(`writeCount_moveCode`, `supplied_moveCode`).
-/

namespace Destack

/-- Whether a node has a register but no instructions, since its value comes from elsewhere. -/
def Ssa.Op.isPassive : Ssa.Op → Bool
  | .undefined .. | .merge .. => true
  | _ => false

namespace Machine

/-! ## Counting writers -/

/-- How many instructions write a register. -/
def writeCount (r : Register) (code : List Instr) : Nat :=
  code.countP fun i => i.write = some r

section writeCount

variable {r : Register} {code is js : List Instr}

@[simp] theorem writeCount_nil (r : Register) : writeCount r [] = 0 := rfl

@[simp] theorem writeCount_cons (r : Register) (i : Instr) (is : List Instr) :
    writeCount r (i :: is) = (if i.write = some r then 1 else 0) + writeCount r is := by
  simp [writeCount, List.countP_cons, Nat.add_comm]

@[simp] theorem writeCount_append (r : Register) (is js : List Instr) :
    writeCount r (is ++ js) = writeCount r is + writeCount r js :=
  List.countP_append

theorem writeCount_eq_zero : writeCount r code = 0 ↔ ∀ i ∈ code, i.write ≠ some r := by
  simp [writeCount, List.countP_eq_zero]

theorem exists_of_writeCount (h : writeCount r code ≠ 0) : ∃ i ∈ code, i.write = some r := by
  by_contra hnot
  push Not at hnot
  exact h (writeCount_eq_zero.2 hnot)

/-- Among parts of which only one writes a register, the writers are those of that part. -/
theorem writeCount_flatMap {α : Type} {xs : List α} {f : α → List Instr} {x : α} (hnodup : xs.Nodup) (hx : x ∈ xs)
    (hother : ∀ y ∈ xs, y ≠ x → writeCount r (f y) = 0) : writeCount r (xs.flatMap f) = writeCount r (f x) := by
  obtain ⟨front, rest, rfl⟩ := List.append_of_mem hx
  obtain ⟨hfront, hrest⟩ : (∀ y ∈ front, y ≠ x) ∧ ∀ y ∈ rest, y ≠ x := by
    rw [List.nodup_append, List.nodup_cons] at hnodup
    exact ⟨fun y hy => hnodup.2.2 y hy x List.mem_cons_self, fun y hy heq => hnodup.2.1.1 (heq ▸ hy)⟩
  have hzero : ∀ ys : List α, (∀ y ∈ ys, y ∈ front ++ x :: rest ∧ y ≠ x) → writeCount r (ys.flatMap f) = 0 := by
    intro ys hys
    rw [writeCount_eq_zero]
    intro i hi
    obtain ⟨y, hy, hi⟩ := List.mem_flatMap.1 hi
    exact writeCount_eq_zero.1 (hother y (hys y hy).1 (hys y hy).2) i hi
  rw [List.flatMap_append, List.flatMap_cons, writeCount_append, writeCount_append,
    hzero front fun y hy => ⟨by simp [hy], hfront y hy⟩, hzero rest fun y hy => ⟨by simp [hy], hrest y hy⟩]
  omega

/-- Instructions put ahead of a jump are added to the others. -/
theorem perm_insertAhead (code is : List Instr) : (insertAhead code is).Perm (code ++ is) := by
  rcases List.eq_nil_or_concat' code with rfl | ⟨front, last, rfl⟩
  · exact .refl _
  · cases hjump : last.op.isJump with
    | true =>
      rw [insertAhead_jump hjump, List.append_assoc]
      exact .append_left _ List.perm_append_comm
    | false =>
      simp [insertAhead, hjump]

theorem writeCount_insertAhead (r : Register) (code is : List Instr) :
    writeCount r (insertAhead code is) = writeCount r code + writeCount r is := by
  rw [← writeCount_append]
  exact (perm_insertAhead code is).countP_eq _

end writeCount

/-- One if a number is in a span, and zero otherwise. -/
def spanCount (first next k : Nat) : Nat :=
  if first ≤ k ∧ k < next then 1 else 0

section spanCount

variable {first middle next k : Nat}

theorem spanCount_of_mem (hfirst : first ≤ k) (hnext : k < next) : spanCount first next k = 1 :=
  if_pos ⟨hfirst, hnext⟩

theorem spanCount_of_not_mem (h : k < first ∨ next ≤ k) : spanCount first next k = 0 :=
  if_neg (by omega)

@[simp] theorem spanCount_self (first k : Nat) : spanCount first first k = 0 :=
  spanCount_of_not_mem (by omega)

theorem spanCount_succ (first k : Nat) : spanCount first (first + 1) k = if first = k then 1 else 0 := by
  unfold spanCount
  congr 1
  exact propext (by omega)

theorem spanCount_add (hfirst : first ≤ middle) (hnext : middle ≤ next) :
    spanCount first middle k + spanCount middle next k = spanCount first next k := by
  unfold spanCount
  split_ifs <;> omega

/-- A register written by one more instruction. -/
theorem writeCount_virtual (op : Op) (reads : List Register) (first k : Nat) :
    writeCount (.virtual k) [⟨op, reads, some (.virtual first)⟩] = spanCount first (first + 1) k := by
  simp [spanCount_succ, Register.virtual_inj]

end spanCount

/-! ## Reads that are supplied -/

/-- Every virtual register that the instructions read is a known one, or one of them wrote it before. -/
def Supplied (known : Register → Prop) : List Instr → Prop
  | [] => True
  | i :: is => (∀ r ∈ i.reads, r.isVirtual = true → known r) ∧ Supplied (fun r => known r ∨ i.write = some r) is

section Supplied

variable {known known' : Register → Prop} {code is js : List Instr} {r : Register}

theorem Supplied.mono (h : Supplied known code) (hknown : ∀ r, known r → known' r) : Supplied known' code := by
  induction code generalizing known known' with
  | nil => trivial
  | cons i is ih =>
    exact ⟨fun r hr hvirtual => hknown r (h.1 r hr hvirtual), ih h.2 fun r => Or.imp_left (hknown r)⟩

theorem supplied_append :
    Supplied known (is ++ js) ↔
      Supplied known is ∧ Supplied (fun r => known r ∨ ∃ i ∈ is, i.write = some r) js := by
  induction is generalizing known with
  | nil => simp [Supplied]
  | cons i is ih => simp [Supplied, ih, and_assoc, or_assoc]

/-- Reads of known registers. -/
theorem supplied_of_reads (h : ∀ i ∈ code, ∀ r ∈ i.reads, r.isVirtual = true → known r) : Supplied known code := by
  induction code generalizing known with
  | nil => trivial
  | cons i is ih =>
    refine ⟨h i List.mem_cons_self, ih fun j hj r hr hvirtual => Or.inl ?_⟩
    exact h j (List.mem_cons_of_mem _ hj) r hr hvirtual

/-- Parts that are supplied by what comes before them. -/
theorem supplied_flatMap {α : Type} {xs : List α} {f : α → List Instr}
    (h : ∀ front x rest, xs = front ++ x :: rest →
      Supplied (fun r => known r ∨ ∃ y ∈ front, ∃ i ∈ f y, i.write = some r) (f x)) :
    Supplied known (xs.flatMap f) := by
  induction xs generalizing known with
  | nil => trivial
  | cons x xs ih =>
    rw [List.flatMap_cons, supplied_append]
    refine ⟨(h [] x xs rfl).mono (by simp), ih fun front y rest heq => ?_⟩
    refine (h (x :: front) y rest (by rw [heq, List.cons_append])).mono fun r hr => ?_
    simpa [or_assoc] using hr

/-- Instructions ahead of a jump may read what all others wrote, since the jump writes nothing. -/
theorem Supplied.insertAhead (h : Supplied known code)
    (his : Supplied (fun r => known r ∨ ∃ i ∈ code, i.write = some r) is)
    (hjump : ∀ i ∈ code, i.op.isJump = true → i.write = none) : Supplied known (insertAhead code is) := by
  rcases List.eq_nil_or_concat' code with rfl | ⟨front, last, rfl⟩
  · exact his.mono (by simp)
  · cases hlast : last.op.isJump with
    | true =>
      have hwrite := hjump last (by simp) hlast
      rw [insertAhead_jump hlast, supplied_append, supplied_append]
      obtain ⟨hfront, hlast⟩ := supplied_append.1 h
      refine ⟨hfront, his.mono fun r hr => ?_, hlast.mono fun r => Or.inl⟩
      simpa [or_and_right, exists_or, hwrite] using hr
    | false =>
      have hcode : Machine.insertAhead (front ++ [last]) is = front ++ [last] ++ is := by
        simp [Machine.insertAhead, hlast]
      rw [hcode, supplied_append]
      exact ⟨h, his⟩

/-- Code taken apart at an instruction. -/
theorem split_at {k : Nat} {i : Instr} (hi : code[k]? = some i) : code = code.take k ++ i :: code.drop (k + 1) := by
  obtain ⟨hlt, rfl⟩ := List.getElem?_eq_some_iff.1 hi
  rw [← List.drop_eq_getElem_cons hlt, List.take_append_drop]

/-- What an instruction reads is known or written ahead of it. -/
theorem Supplied.read (h : Supplied known code) {k : Nat} {i : Instr} (hi : code[k]? = some i) (hr : r ∈ i.reads)
    (hvirtual : r.isVirtual = true) : known r ∨ ∃ j ∈ code.take k, j.write = some r := by
  rw [split_at hi, supplied_append] at h
  exact h.2.1 r hr hvirtual

end Supplied

/-! ## Instructions of a call -/

section Calls

variable {n : Nat} {pairs : List (Register × Location)} {sources : List Register}

/-- Passing arguments writes the registers of the copies, once each. -/
theorem writeCount_passing (hphysical : ∀ source r, (source, .register r) ∈ pairs → r.isVirtual = false) (n k : Nat) :
    writeCount (.virtual k) (passing n pairs).1 = spanCount n (passing n pairs).2.2 k := by
  induction pairs generalizing n with
  | nil => simp [passing]
  | cons pair pairs ih =>
    obtain ⟨source, location⟩ := pair
    have ih := @ih fun source r hmem => hphysical source r (List.mem_cons_of_mem _ hmem)
    cases location with
    | register r =>
      have hr := Register.ne_virtual (hphysical source r List.mem_cons_self) k
      have hcopy := writeCount_virtual .move [r] n k
      have hspan : spanCount n (n + 1) k + spanCount (n + 1) (passing (n + 1) pairs).2.2 k =
          spanCount n (passing n ((source, .register r) :: pairs)).2.2 k :=
        spanCount_add (Nat.le_succ n) (le_passing (n + 1) pairs)
      rw [← hspan, ← hcopy, ← ih (n + 1)]
      simp [passing, hr]
    | stack offset => simpa [passing] using ih n

/-- Passing arguments reads sources and physical registers, and what is saved was copied. -/
theorem supplied_passing (hphysical : ∀ source r, (source, .register r) ∈ pairs → r.isVirtual = false) (n : Nat) :
    Supplied (· ∈ pairs.map (·.1)) (passing n pairs).1 ∧
      ∀ move ∈ (passing n pairs).2.1, ∃ i ∈ (passing n pairs).1, i.write = some move.source := by
  induction pairs generalizing n with
  | nil => exact ⟨trivial, by simp [passing]⟩
  | cons pair pairs ih =>
    obtain ⟨source, location⟩ := pair
    have ih := @ih fun source r hmem => hphysical source r (List.mem_cons_of_mem _ hmem)
    cases location with
    | register r =>
      have hr := hphysical source r List.mem_cons_self
      obtain ⟨hsupplied, hsaved⟩ := ih (n + 1)
      refine ⟨⟨?_, ?_, hsupplied.mono fun r' hr' => ?_⟩, ?_⟩
      · simp [hr]
      · simp
      · exact Or.inl (Or.inl (List.mem_cons_of_mem _ hr'))
      · intro move hmove
        rcases List.mem_cons.1 hmove with rfl | hmove
        · exact ⟨_, List.mem_cons_self, rfl⟩
        · obtain ⟨i, hi, hwrite⟩ := hsaved move hmove
          exact ⟨i, List.mem_cons_of_mem _ (List.mem_cons_of_mem _ hi), hwrite⟩
    | stack offset =>
      obtain ⟨hsupplied, hsaved⟩ := ih n
      refine ⟨⟨by simp, hsupplied.mono fun r hr => Or.inl (List.mem_cons_of_mem _ hr)⟩, fun move hmove => ?_⟩
      obtain ⟨i, hi, hwrite⟩ := hsaved move hmove
      exact ⟨i, List.mem_cons_of_mem _ hi, hwrite⟩

theorem isVirtual_of_located {source r : Register} (h : (source, .register r) ∈ located sources) :
    r.isVirtual = false :=
  (mem_located h).2 r rfl

theorem writeCount_callCode (method : Member) {result : Option Register} (hresult : ∀ r ∈ result, r = .result)
    (n k : Nat) (sources : List Register) :
    writeCount (.virtual k) (callCode method result n sources) =
      spanCount n ((passing n (located sources)).2.2 + result.toList.length) k := by
  have hpass := writeCount_passing (fun source r => @isVirtual_of_located sources source r) n k
  have hrestore : writeCount (.virtual k) ((passing n (located sources)).2.1.map Move.instr) = 0 := by
    rw [writeCount_eq_zero]
    intro i hi
    obtain ⟨move, hmove, rfl⟩ := List.mem_map.1 hi
    exact fun heq => Register.ne_virtual (targets_saved hmove) k (Option.some.inj heq)
  rw [← spanCount_add (le_passing n (located sources)) (Nat.le_add_right _ _), ← hpass]
  cases result with
  | none => simp [callCode, hrestore]
  | some r =>
    obtain rfl := hresult r rfl
    have hmove := writeCount_virtual .move [.result] (passing n (located sources)).2.2 k
    rw [Option.toList_some, List.length_singleton, ← hmove]
    simp [callCode, hrestore, Register.ne_virtual (show Register.result.isVirtual = false from rfl) k]

theorem supplied_callCode (method : Member) {result : Option Register} (hresult : ∀ r ∈ result, r = .result) (n : Nat)
    (sources : List Register) : Supplied (· ∈ sources) (callCode method result n sources) := by
  obtain ⟨hpass, hsaved⟩ := supplied_passing (fun source r => @isVirtual_of_located sources source r) n
  have htargets : ∀ r ∈ (passing n (located sources)).2.1.map (·.target), r.isVirtual = false := by
    intro r hr
    obtain ⟨move, hmove, rfl⟩ := List.mem_map.1 hr
    exact targets_saved hmove
  rw [callCode, supplied_append]
  refine ⟨hpass.mono fun r hr => ?_, ?_, supplied_append.2 ⟨supplied_of_reads ?_, supplied_of_reads ?_⟩⟩
  · obtain ⟨pair, hpair, rfl⟩ := List.mem_map.1 hr
    exact (mem_located hpair).1
  · exact fun r hr hvirtual => by cases (htargets r hr).symm.trans hvirtual
  · intro i hi r hr hvirtual
    obtain ⟨r', hr', rfl⟩ := Option.map_eq_some_iff.1 (Option.mem_toList.1 hi)
    obtain rfl := List.mem_singleton.1 hr
    rw [hresult r hr'] at hvirtual
    cases hvirtual
  · intro i hi r hr _
    obtain ⟨move, hmove, rfl⟩ := List.mem_map.1 hi
    obtain rfl := List.mem_singleton.1 hr
    exact Or.inl (Or.inl (Or.inr (hsaved move hmove)))

end Calls

/-! ## Instructions of a node -/

section Emits

variable {reg? : NodeId → Option Register} {data : Array DataEntry} {type : ValueType} {op : Ssa.Op} {n next : Nat}
  {is : List Instr} {r : Option Register}

/-- The one register of a passive node is that of its value. -/
theorem Emits.passive (h : Emits reg? data type op n is r next) (hop : op.isPassive = true) :
    is = [] ∧ r = some (.virtual n) ∧ next = n + 1 := by
  cases h with
  | undefined => exact ⟨rfl, rfl, rfl⟩
  | merge => exact ⟨rfl, rfl, rfl⟩
  | _ => cases hop

/-- Other nodes write every register that was handed out for them once, and no other virtual one. -/
theorem Emits.writeCount_eq (h : Emits reg? data type op n is r next) (hop : op.isPassive = false) (k : Nat) :
    writeCount (.virtual k) is = spanCount n next k := by
  cases h with
  | undefined => cases hop
  | merge => cases hop
  | callValue => exact writeCount_callCode _ (by simp) n k _
  | callVoid => exact writeCount_callCode _ (by simp) n k _
  | retValue => simp [Register.ne_virtual (show Register.result.isVirtual = false from rfl) k]
  | _ => first
    | exact writeCount_virtual ..
    | simp

/-- The instructions of a node read its operands and what they wrote before. -/
theorem Emits.supplied (h : Emits reg? data type op n is r next) :
    Supplied (fun r => ∃ o ∈ op.operands, reg? o = some r) is := by
  cases h with
  | paramRegister hloc => exact ⟨by simp [Location.isVirtual_of_ofIndex hloc], trivial⟩
  | callValue _ hargs =>
    exact (supplied_callCode _ (by simp) n _).mono fun r hr => exists_of_mem_mapM hargs hr
  | callVoid _ hargs =>
    exact (supplied_callCode _ (by simp) n _).mono fun r hr => exists_of_mem_mapM hargs hr
  | _ => simp_all [Supplied, Ssa.Op.operands]

/-- Jumps write nothing. -/
theorem Emits.write_jump (h : Emits reg? data type op n is r next) {i : Instr} (hi : i ∈ is)
    (hjump : i.op.isJump = true) : i.write = none := by
  cases hcontrol : op.isControl with
  | false =>
    have hnot := h.isControl_eq_false hcontrol hi
    cases hop : i.op <;> simp_all [Op.isControl, Op.isJump]
  | true =>
    cases h with
    | retValue =>
      rcases List.mem_cons.1 hi with rfl | hi
      · cases hjump
      · rw [List.mem_singleton.1 hi]
    | _ => simp_all [Ssa.Op.isControl]

end Emits

/-! ## Moves of an edge -/

section Moves

variable {targets : List Register} {moves : List Move} {n : Nat}

/-- The moves of an edge read their sources, and copies made before. -/
theorem supplied_moveCode (n : Nat) (moves : List Move) : Supplied (· ∈ moves.map (·.source)) (moveCode n moves) := by
  obtain ⟨hcopies, hmoves⟩ := mem_stage (moves.map (·.target)) n moves
  have hcode : moveCode n moves = (stage (moves.map (·.target)) n moves).1.map Move.instr ++
      (stage (moves.map (·.target)) n moves).2.1.map Move.instr := List.map_append
  rw [hcode, supplied_append]
  refine ⟨supplied_of_reads fun i hi r hr _ => ?_, supplied_of_reads fun i hi r hr _ => ?_⟩
  · obtain ⟨copy, hcopy, rfl⟩ := List.mem_map.1 hi
    obtain ⟨m, hm, k, -, -, rfl⟩ := hcopies copy hcopy
    obtain rfl := List.mem_singleton.1 hr
    exact List.mem_map.2 ⟨m, hm, rfl⟩
  · obtain ⟨move, hmove, rfl⟩ := List.mem_map.1 hi
    obtain rfl := List.mem_singleton.1 hr
    obtain ⟨m, hm, rfl | ⟨k, hk, rfl⟩⟩ := hmoves move hmove
    · exact Or.inl (List.mem_map.2 ⟨move, hm, rfl⟩)
    · exact Or.inr ⟨_, List.mem_map.2 ⟨_, hk, rfl⟩, rfl⟩

/-- The temporary registers of an edge are written once each. -/
theorem writeCount_moveCode (hbelow : ∀ m ∈ moves, m.target.Below n) {k : Nat} (hk : n ≤ k) :
    writeCount (.virtual k) (moveCode n moves) = spanCount n (sequence n moves).2 k := by
  -- The copies write the span, and the moves proper write destinations.
  have hcopies : ∀ (targets : List Register) (moves : List Move) (n : Nat),
      writeCount (.virtual k) ((stage targets n moves).1.map Move.instr) =
        spanCount n (stage targets n moves).2.2 k := by
    intro targets moves
    induction moves with
    | nil => simp [stage]
    | cons m moves ih =>
      intro n
      rw [stage]
      split
      · have hcopy := writeCount_virtual .move [m.source] n k
        rw [← spanCount_add (Nat.le_succ n) (le_stage targets (n + 1) moves), ← hcopy, ← ih (n + 1)]
        simp [Move.instr]
      · exact ih n
  have hmoves : writeCount (.virtual k) ((stage (moves.map (·.target)) n moves).2.1.map Move.instr) = 0 := by
    rw [writeCount_eq_zero]
    intro i hi heq
    obtain ⟨move, hmove, rfl⟩ := List.mem_map.1 hi
    have htarget : move.target = .virtual k := Option.some.inj heq
    obtain ⟨m, hm, rfl | ⟨k', -, rfl⟩⟩ := (mem_stage _ n moves).2 move hmove
    · exact hbelow move hm k hk htarget
    · exact hbelow m hm k hk htarget
  rw [moveCode, sequence, List.map_append, writeCount_append, hmoves, hcopies]
  rfl

/-- Every destination of an edge is written. -/
theorem exists_write_moveCode (n : Nat) {m : Move} (hm : m ∈ moves) :
    ∃ i ∈ moveCode n moves, i.write = some m.target := by
  have hmem : m.target ∈ (stage (moves.map (·.target)) n moves).2.1.map (·.target) := by
    rw [map_target_stage]
    exact List.mem_map.2 ⟨m, hm, rfl⟩
  obtain ⟨move, hmove, heq⟩ := List.mem_map.1 hmem
  exact ⟨move.instr, List.mem_map.2 ⟨move, List.mem_append_right _ hmove, rfl⟩, congrArg some heq⟩

end Moves

end Machine

end Destack
