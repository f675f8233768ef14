import Destack.Instruction.Decode
import Destack.Proofs.StackCode

/-!
# Decoded instructions

The instructions of decoded code follow each other without gaps from address zero (`decode_contiguous`), so their
addresses ascend and an address fetches the instruction that stands there.
-/

namespace Destack

/-- Instructions that follow each other from an address on, none of them marked as the start of a block. -/
def Contiguous : Nat → List Instruction → Prop
  | _, [] => True
  | a, i :: is => i.address = a ∧ i.leader = false ∧ Contiguous i.next is

namespace Contiguous

theorem le_address {a : Nat} {is : List Instruction} (h : Contiguous a is) : ∀ i ∈ is, a ≤ i.address := by
  induction is generalizing a with
  | nil => intro i hi; cases hi
  | cons j is ih =>
    intro i hi
    obtain ⟨rfl, -, hrest⟩ := h
    rcases List.mem_cons.1 hi with rfl | hi
    · exact Nat.le_refl _
    · have := ih hrest i hi
      simp only [Instruction.next, Instruction.size] at this
      omega

theorem pairwise_lt {a : Nat} {is : List Instruction} (h : Contiguous a is) :
    is.Pairwise fun i j => i.address < j.address := by
  induction is generalizing a with
  | nil => exact .nil
  | cons i is ih =>
    obtain ⟨rfl, -, hrest⟩ := h
    refine .cons (fun j hj => ?_) (ih hrest)
    have := hrest.le_address j hj
    simp only [Instruction.next, Instruction.size] at this
    omega

theorem leader_eq_false {a : Nat} {is : List Instruction} (h : Contiguous a is) :
    ∀ i ∈ is, i.leader = false := by
  induction is generalizing a with
  | nil => intro i hi; cases hi
  | cons j is ih =>
    intro i hi
    rcases List.mem_cons.1 hi with rfl | hi
    · exact h.2.1
    · exact ih h.2.2 i hi

theorem fetch?_eq_some {a : Nat} {is : List Instruction} (h : Contiguous a is) {i : Instruction} (hi : i ∈ is) :
    StackCode.fetch? is i.address = some i := by
  induction is generalizing a with
  | nil => cases hi
  | cons j is ih =>
    obtain ⟨rfl, -, hrest⟩ := h
    unfold StackCode.fetch?
    rcases List.mem_cons.1 hi with rfl | hi
    · simp
    · have hlt := hrest.le_address i hi
      have hne : j.address ≠ i.address := by
        simp only [Instruction.next, Instruction.size] at hlt
        omega
      rw [List.find?_cons_of_neg (by simpa using hne)]
      exact ih hrest hi

end Contiguous

namespace Instruction

theorem length_of_splitExactly?_eq_some {α : Type} {n : Nat} {xs front rest : List α}
    (h : splitExactly? n xs = some (front, rest)) : front.length = n := by
  induction n generalizing xs front rest with
  | zero =>
    simp only [splitExactly?, Option.some.injEq, Prod.mk.injEq] at h
    simp [← h.1]
  | succ n ih =>
    cases xs with
    | nil => simp [splitExactly?] at h
    | cons x xs =>
      simp only [splitExactly?, Option.map_eq_some_iff, Prod.mk.injEq, Prod.exists] at h
      obtain ⟨front', rest', hin, rfl, rfl⟩ := h
      simp [ih hin]

theorem decodeFrom_contiguous {table : OperandTable} {a : Nat} {seen is : List Instruction} {code : List UInt8}
    (h : decodeFrom table a seen code = .ok is) :
    ∃ rest, is = seen.reverse ++ rest ∧ Contiguous a rest ∧ rest.length ≤ code.length := by
  fun_induction decodeFrom table a seen code with
  | case1 a seen =>
    simp only [Except.ok.injEq] at h
    exact ⟨[], by simp [h], trivial, Nat.le_refl _⟩
  | case2 => cases h
  | case3 => cases h
  | case4 a seen opcode rest count hcount operands after hsplit hle ih =>
    obtain ⟨is', rfl, his, hcount⟩ := ih h
    refine ⟨{ address := a, opcode, operands := operands.toArray } :: is', by simp, ⟨rfl, rfl, ?_⟩,
      Nat.succ_le_succ (hcount.trans hle)⟩
    have hlen := length_of_splitExactly?_eq_some hsplit
    have hnext : (⟨a, opcode, operands.toArray, false⟩ : Instruction).next = a + 1 + count := by
      simp only [Instruction.next, Instruction.size, List.size_toArray, hlen]
      omega
    rw [hnext]
    exact his

/-- Decoded instructions follow each other from address zero. -/
theorem decode_contiguous {table : OperandTable} {code : List UInt8} {is : List Instruction}
    (h : decode table code = .ok is) : Contiguous 0 is := by
  obtain ⟨rest, rfl, hrest, -⟩ := decodeFrom_contiguous h
  simpa using hrest

/-- An instruction takes a byte at least. -/
theorem length_decode_le {table : OperandTable} {code : List UInt8} {is : List Instruction}
    (h : decode table code = .ok is) : is.length ≤ code.length := by
  obtain ⟨rest, rfl, -, hlength⟩ := decodeFrom_contiguous h
  simpa using hlength

end Instruction

end Destack
