import Destack.Instruction.Action
import Destack.Proofs.Graph.Runs
import Destack.Proofs.StackCode

/-!
# What opcodes mean

The machine reads opcodes by their numbers and the compiler reads them in the table of the instruction set. The two
readings are the same for every opcode (`Opcode.effect?_eq`), and so is what is read from the operands, as long as a
wide prefix stands before a form that has one (`Instruction.meaning?_of_action?`).
-/

namespace Destack

/-- How control leaves an instruction with an effect. -/
def Effect.category : Effect → Category
  | .branchZero _ | .branchPair _ | .branchNull _ => .conditionalBranch
  | .jump => .goto
  | .switch => .switch
  | .returnValue | .returnVoid => .methodReturn
  | .raise => .raise
  | _ => .other

/-- How control leaves an action. -/
def Action.category : Action → Category
  | .branchZero _ | .branchPair _ | .branchNull _ => .conditionalBranch
  | .jump => .goto
  | .switch => .switch
  | .returnValue | .returnVoid => .methodReturn
  | .raise => .raise
  | _ => .other

theorem Instruction.category_act (i : Instruction) (effect : Effect) : (i.act effect).category = effect.category := by
  cases effect <;> rfl

namespace Opcode

/-- The table gives each opcode the effect of its number. -/
theorem effect?_eq (op : Opcode) : op.effect? = StackCode.effectOf? op.toNat := by
  have h : ∀ k : Fin 256, Opcode.effect? (UInt8.ofFin k) = StackCode.effectOf? k := by decide +kernel
  exact h op.toFin

/-- The table says of each opcode with an effect how control leaves it. -/
theorem category_of_effect? {op : Opcode} {effect : Effect} (h : op.effect? = some effect) :
    op.category = effect.category := by
  have hall : ∀ k : Fin 256, (Opcode.effect? (UInt8.ofFin k)).all
      (fun e => Opcode.category (UInt8.ofFin k) = e.category) = true := by decide +kernel
  have := hall op.toFin
  rw [show UInt8.ofFin op.toFin = op from rfl, h] at this
  simpa using this

theorem category_wide : wide.category = .other := by decide +kernel

theorem effect?_wide : wide.effect? = none := by decide +kernel

theorem category_jsrWide : jsrWide.category = .subroutine := by decide +kernel

end Opcode

namespace Instruction

variable {i : Instruction}

/-- A wide prefix stands before a form that has one. -/
def WideFits (i : Instruction) : Prop :=
  i.isWide = true → i.effectiveOpcode ∈ StackCode.wideForms

instance (i : Instruction) : Decidable i.WideFits :=
  inferInstanceAs (Decidable (_ → _))

theorem isWide_iff : i.isWide = true ↔ i.opcode = 0xc4 :=
  decide_eq_true_iff

theorem slotOperand_eq (i : Instruction) : StackCode.slotOperand i = i.localIndex := by
  simp only [StackCode.slotOperand, localIndex, isWide_iff]

theorem amountOperand_eq (i : Instruction) : StackCode.amountOperand i = i.increment := by
  simp only [StackCode.amountOperand, increment, isWide_iff]

/-- Control passes on behind a wide prefix, whatever stands there. -/
theorem category_of_isWide (hw : i.isWide = true) : i.category = .other := by
  rw [category, isWide_iff.1 hw]
  exact Opcode.category_wide

/-- An instruction means for the machine what the compiler translates it as. -/
theorem meaning?_of_action? {action : Action} (hwide : i.WideFits) (h : i.action? = some action) :
    ∃ effect, StackCode.meaning? i = some effect ∧ i.act effect = action ∧ i.category = effect.category := by
  obtain ⟨effect, heffect, rfl⟩ := Option.map_eq_some_iff.1 h
  refine ⟨effect, ?_, rfl, ?_⟩
  · unfold StackCode.meaning?
    split
    · next hop =>
      have hw := isWide_iff.2 hop
      have hmem := hwide hw
      simp only [effectiveOpcode, hw, if_true] at heffect hmem
      cases hsub : i.operands[0]? with
      | none =>
        rw [hsub] at hmem
        exact absurd hmem (by decide)
      | some sub =>
        rw [hsub] at hmem heffect
        rw [← heffect, Opcode.effect?_eq]
        exact if_pos hmem
    · next hop =>
      have hw : i.isWide = false := Bool.eq_false_iff.2 (hop ∘ isWide_iff.1)
      simp only [effectiveOpcode, hw] at heffect
      rw [← heffect, ← Opcode.effect?_eq]
      rfl
  · cases hw : i.isWide with
    | false =>
      simp only [effectiveOpcode, hw] at heffect
      exact Opcode.category_of_effect? heffect
    | true =>
      have hforms : ∀ op ∈ StackCode.wideForms, op.effect?.all (fun e => e.category = .other) = true := by
        decide +kernel
      have := hforms _ (hwide hw)
      rw [heffect] at this
      rw [category_of_isWide hw]
      exact (of_decide_eq_true this).symm

/-- An instruction leaves in the way of its action, if a wide prefix stands before a form that has one. -/
theorem WideFits.category_eq {action : Action} (hwide : i.WideFits) (h : i.action? = some action) :
    i.category = action.category := by
  obtain ⟨effect, -, rfl, hcat⟩ := meaning?_of_action? hwide h
  exact hcat.trans (i.category_act effect).symm

/-- A wide prefix names no targets. -/
theorem jumpTargets_of_isWide (hw : i.isWide = true) : i.jumpTargets = [] := by
  by_contra hne
  have hcat := category_of_jumpTargets_ne_nil hne
  simp [category_of_isWide hw] at hcat

/-- An instruction that names targets leaves in the way of its action, also if a wide prefix stands before it. -/
theorem category_of_action? {action : Action} (h : i.action? = some action) (hjump : i.jumpTargets ≠ []) :
    i.category = action.category :=
  WideFits.category_eq (fun hw => absurd (jumpTargets_of_isWide hw) hjump) h

/-- A branch or a jump has one target, the one that the machine goes to. -/
theorem jumpTargets_eq_branchTarget (h : i.category = .conditionalBranch ∨ i.category = .goto) :
    i.jumpTargets = [StackCode.branchTarget i] := by
  have hjsr : i.opcode ≠ Opcode.jsrWide := by
    intro hop
    rw [category, hop, Opcode.category_jsrWide] at h
    simp at h
  unfold jumpTargets StackCode.branchTarget
  rcases h with h | h <;> rw [h] <;> simp [hjsr, Opcode.gotoWide]

theorem category_of_switchTable? {table : SwitchTable} (h : i.switchTable? = some table) : i.category = .switch := by
  have hswitch : Opcode.tableswitch.category = .switch ∧ Opcode.lookupswitch.category = .switch := by
    decide +kernel
  unfold switchTable? at h
  dsimp only at h
  split at h
  · next hop => rw [category, hop, hswitch.1]
  · split at h
    · next hop => rw [category, hop, hswitch.2]
    · cases h

theorem switchTable?_of_isWide (hw : i.isWide = true) : i.switchTable? = none := by
  refine Option.eq_none_iff_forall_ne_some.2 fun table htable => ?_
  have hcat := category_of_switchTable? htable
  rw [category_of_isWide hw] at hcat
  cases hcat

theorem jumpTargets_of_switchTable? {table : SwitchTable} (h : i.switchTable? = some table) :
    i.jumpTargets = (table.default :: table.cases.map (·.2)).map fun offset => (i.address : Int) + offset := by
  unfold jumpTargets
  rw [category_of_switchTable? h, h]

/-! ## Marks -/

theorem meaning?_unmarked (i : Instruction) : StackCode.meaning? i.unmarked = StackCode.meaning? i := rfl

theorem execute_unmarked (W : World) (pool : ConstantPool) (i : Instruction) (s : StackCode.State W.Value)
    (effect : Effect) : StackCode.execute W pool i.unmarked s effect = StackCode.execute W pool i s effect := by
  cases effect <;> rfl

end Instruction

end Destack
