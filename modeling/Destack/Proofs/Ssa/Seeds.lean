import Destack.Proofs.Ssa.Simulation

/-!
# The start of a method

The nodes made for the local slots have the values that the machine starts with (`seeds_hold`). This rests on the
slots that parameters take: none of them is void (`ne_void_of_ofDescriptor`), and the frame has room for all.
-/

namespace Destack

/-! ## Parameters take slots -/

section Descriptors

theorem ne_void_of_takeType? {cs rest : List Char} {type : ValueType}
    (h : Descriptor.takeType? cs = some (type, rest)) : type ≠ .void := by
  cases cs with
  | nil => cases h
  | cons c cs =>
    unfold Descriptor.takeType? at h
    split at h
    · obtain ⟨_, -, heq⟩ := Option.map_eq_some_iff.1 h
      obtain ⟨rfl, -⟩ := Prod.mk.inj heq
      simp
    · split at h
      · obtain ⟨_, -, heq⟩ := Option.map_eq_some_iff.1 h
        obtain ⟨rfl, -⟩ := Prod.mk.inj heq
        simp
      · obtain ⟨type', hprim, heq⟩ := Option.map_eq_some_iff.1 h
        obtain ⟨rfl, -⟩ := Prod.mk.inj heq
        unfold Descriptor.primitive? at hprim
        split at hprim <;> cases hprim <;> simp

theorem ne_void_of_takeParams {cs rest : List Char} {types : List ValueType}
    (h : Descriptor.takeParams cs = .ok (types, rest)) : ∀ type ∈ types, type ≠ .void := by
  fun_induction Descriptor.takeParams cs generalizing types rest with
  | case1 => cases h
  | case2 =>
    cases h
    simp
  | case3 => cases h
  | case4 => cases h
  | case5 c rest' hc type after htake _ types' last hrest ih =>
    cases h
    intro t ht
    rcases List.mem_cons.1 ht with rfl | ht
    · exact ne_void_of_takeType? htake
    · exact ih hrest t ht

/-- No parameter is void. -/
theorem ne_void_of_ofDescriptor {text : String} {type : MethodType} (h : MethodType.ofDescriptor text = .ok type) :
    ∀ param ∈ type.params, param ≠ .void := by
  unfold MethodType.ofDescriptor at h
  split at h
  · next hmethod =>
    cases h
    unfold Descriptor.method at hmethod
    split at hmethod
    · next inner =>
      split at hmethod
      · cases hmethod
      · next params rest htake =>
        split at hmethod
        · cases hmethod
          exact ne_void_of_takeParams htake
        · cases hmethod
    · cases hmethod
  · cases h

/-- A descriptor with any number of integers. -/
theorem MethodType.ofDescriptor_ints (count : Nat) :
    MethodType.ofDescriptor (String.ofList ('(' :: (List.replicate count 'I' ++ [')', 'V']))) =
      .ok ⟨List.replicate count .int, .void⟩ := by
  have hparams : Descriptor.takeParams (List.replicate count 'I' ++ [')', 'V']) =
      .ok (List.replicate count .int, ['V']) := by
    induction count with
    | zero => simp [Descriptor.takeParams]
    | succ count ih =>
      have htake : ∀ rest, Descriptor.takeType? ('I' :: rest) = some (.int, rest) := fun _ => rfl
      rw [List.replicate_succ, List.cons_append, Descriptor.takeParams, if_neg (by decide)]
      split
      · next hnone => cases hnone.symm.trans (htake _)
      · next hsome =>
        cases hsome.symm.trans (htake _)
        rw [ih]
        rfl
  rw [MethodType.ofDescriptor, String.toList_ofList, Descriptor.method, hparams]
  rfl

theorem slots_of_ne_void {type : ValueType} (h : type ≠ .void) : type.slots = 1 ∨ type.slots = 2 := by
  cases type <;> simp [ValueType.slots] at h ⊢

end Descriptors

namespace StackCode

variable {type : ValueType} {formals : List ValueType}

@[simp] theorem firstSlot_zero (formals : List ValueType) : firstSlot formals 0 = 0 := by
  simp [firstSlot]

@[simp] theorem firstSlot_cons_succ (type : ValueType) (formals : List ValueType) (index : Nat) :
    firstSlot (type :: formals) (index + 1) = type.slots + firstSlot formals index := by
  simp [firstSlot]

/-- Integers take a slot each. -/
theorem firstSlot_ints {count p : Nat} (h : p ≤ count) : firstSlot (List.replicate count .int) p = p := by
  simp [firstSlot, ValueType.slots, h]

/-- The first parameter starts at slot zero and the others after its slots. -/
theorem paramIn?_cons (slot : Nat) :
    paramIn? (type :: formals) slot =
      if slot = 0 then some 0
      else if slot < type.slots then none
      else (paramIn? formals (slot - type.slots)).map (· + 1) := by
  unfold paramIn?
  rw [List.length_cons, List.range_succ_eq_map, List.find?_cons, firstSlot_zero]
  by_cases hzero : slot = 0
  · simp [hzero]
  · have hfirst : decide (0 = slot) = false := by simpa using Ne.symm hzero
    rw [hfirst, if_neg hzero, List.find?_map]
    by_cases hlt : slot < type.slots
    · rw [if_pos hlt, Option.map_eq_none_iff, List.find?_eq_none]
      intro index _
      simp only [Function.comp, Nat.succ_eq_add_one, firstSlot_cons_succ, decide_eq_true_eq]
      omega
    · rw [if_neg hlt]
      refine congrArg (Option.map _) (congrArg (List.find? · _) (funext fun index => ?_))
      simp only [Function.comp, Nat.succ_eq_add_one, firstSlot_cons_succ, decide_eq_decide]
      omega

/-- The slots of a parameter lie among those of all. -/
theorem firstSlot_lt (hvoid : ∀ type ∈ formals, type ≠ .void) {p : Nat} (h : formals[p]? = some type) :
    firstSlot formals p < (formals.map (·.slots)).sum := by
  induction formals generalizing p with
  | nil => cases h
  | cons first formals ih =>
    have hslots := slots_of_ne_void (hvoid first (by simp))
    rw [List.map_cons, List.sum_cons]
    cases p with
    | zero =>
      rw [firstSlot_zero]
      omega
    | succ p =>
      have := ih (fun t ht => hvoid t (by simp [ht])) h
      rw [firstSlot_cons_succ]
      omega

/-- A parameter has no higher number than its first slot. -/
theorem le_firstSlot (hvoid : ∀ type ∈ formals, type ≠ .void) {p : Nat} (h : formals[p]? = some type) :
    p ≤ firstSlot formals p := by
  induction formals generalizing p with
  | nil => cases h
  | cons first formals ih =>
    have hslots := slots_of_ne_void (hvoid first (by simp))
    cases p with
    | zero => exact Nat.zero_le _
    | succ p =>
      have := ih (fun t ht => hvoid t (by simp [ht])) h
      rw [firstSlot_cons_succ]
      omega

/-- Past the slots of the parameters none starts. -/
theorem paramIn?_eq_none (hvoid : ∀ type ∈ formals, type ≠ .void) {slot : Nat}
    (h : (formals.map (·.slots)).sum ≤ slot) : paramIn? formals slot = none := by
  induction formals generalizing slot with
  | nil => rfl
  | cons type formals ih =>
    have hslots := slots_of_ne_void (hvoid type (by simp))
    rw [List.map_cons, List.sum_cons] at h
    rw [paramIn?_cons, if_neg (by omega), if_neg (by omega), ih (fun t ht => hvoid t (by simp [ht])) (by omega)]
    rfl

theorem le_of_paramIn?_eq_some (hvoid : ∀ type ∈ formals, type ≠ .void) {slot index : Nat}
    (h : paramIn? formals slot = some index) : index ≤ slot := by
  have hindex := List.mem_range.1 (List.mem_of_find?_eq_some h)
  have hslot : firstSlot formals index = slot := by simpa using List.find?_some h
  rw [← hslot]
  exact le_firstSlot hvoid (List.getElem?_eq_getElem hindex)

/-- A slot where no parameter starts holds none. -/
theorem paramIn?_eq_none_of_ne {slot : Nat} (h : ∀ index < formals.length, firstSlot formals index ≠ slot) :
    paramIn? formals slot = none := by
  refine List.find?_eq_none.2 fun index hindex => ?_
  simpa using h index (List.mem_range.1 hindex)

end StackCode

namespace Ssa

/-- Slots that parameters take. -/
theorem length_paramCells {formals : List ValueType} (hvoid : ∀ type ∈ formals, type ≠ .void) (slot index : Nat) :
    (paramCells slot (formals.zipIdx index)).length = (formals.map (·.slots)).sum := by
  induction formals generalizing slot index with
  | nil => rfl
  | cons type formals ih =>
    have ih := ih fun t ht => hvoid t (by simp [ht])
    rw [List.zipIdx_cons, paramCells]
    rcases slots_of_ne_void (hvoid type (by simp)) with hone | htwo
    · simp only [hone, OfNat.one_ne_ofNat, if_false, List.length_cons, ih, List.map_cons, List.sum_cons]
      omega
    · simp only [htwo, if_true, List.length_cons, ih, List.map_cons, List.sum_cons]
      omega

/-- The cell for a slot is the parameter that starts there, or an empty slot. -/
theorem op_paramCells {formals : List ValueType} (hvoid : ∀ type ∈ formals, type ≠ .void) {slot index k : Nat}
    {cell : Cell} (h : (paramCells slot (formals.zipIdx index))[k]? = some cell) :
    cell.2 = ((StackCode.paramIn? formals k).map fun p => Op.param (low16 (index + p))).getD
      (.undefined (low16 (slot + k))) := by
  induction formals generalizing slot index k with
  | nil => cases h
  | cons type formals ih =>
    have ih := @ih fun t ht => hvoid t (by simp [ht])
    rw [List.zipIdx_cons, paramCells] at h
    rcases slots_of_ne_void (hvoid type (by simp)) with hone | htwo
    · rw [StackCode.paramIn?_cons, hone]
      simp only [hone, OfNat.one_ne_ofNat, if_false] at h
      cases k with
      | zero =>
        cases h
        rfl
      | succ k =>
        have := ih h
        simp only [Nat.add_eq_zero_iff, one_ne_zero, and_false, if_false, Nat.lt_one_iff, Nat.add_sub_cancel]
        rw [this, Option.map_map]
        simp [Function.comp_def, Nat.add_assoc, Nat.add_comm 1]
    · rw [StackCode.paramIn?_cons, htwo]
      simp only [htwo, if_true] at h
      rcases k with _ | _ | k
      · cases h
        rfl
      · cases h
        rfl
      · have := ih h
        rw [this]
        simp [Function.comp_def, Nat.add_assoc, Nat.add_comm 1, Nat.add_comm 2]

/-- The cell for a slot at the start of a method. -/
theorem op_seedCells {formals : List ValueType} (hvoid : ∀ type ∈ formals, type ≠ .void) {size k : Nat} {cell : Cell}
    (h : (seedCells formals size)[k]? = some cell) :
    cell.2 = ((StackCode.paramIn? formals k).map fun p => Op.param (low16 p)).getD (.undefined (low16 k)) := by
  unfold seedCells at h
  dsimp only at h
  rcases Nat.lt_or_ge k (paramCells 0 formals.zipIdx).length with hlt | hge
  · rw [List.getElem?_append_left hlt] at h
    simpa using op_paramCells hvoid h
  · -- Past the parameters no parameter starts.
    rw [List.getElem?_append_right hge] at h
    have hnone := StackCode.paramIn?_eq_none hvoid (length_paramCells hvoid 0 0 ▸ hge)
    obtain ⟨hlt, rfl⟩ := List.getElem?_eq_some_iff.1 h
    simp [hnone, undefinedCells, Nat.add_sub_cancel' hge]

/-- A parameter has its cell in its first slot. -/
theorem getElem?_paramCells {formals : List ValueType} (hvoid : ∀ type ∈ formals, type ≠ .void) {p : Nat}
    {formal : ValueType} (h : formals[p]? = some formal) (slot index : Nat) :
    (paramCells slot (formals.zipIdx index))[StackCode.firstSlot formals p]? =
      some (formal.onStack, .param (low16 (index + p))) := by
  induction formals generalizing p slot index with
  | nil => cases h
  | cons type formals ih =>
    rw [List.zipIdx_cons, paramCells]
    cases p with
    | zero =>
      obtain rfl := Option.some.inj h
      rw [StackCode.firstSlot_zero]
      split <;> rfl
    | succ p =>
      have ih := ih (fun t ht => hvoid t (List.mem_cons_of_mem _ ht)) h
      have hindex : index + (p + 1) = index + 1 + p := by omega
      rw [StackCode.firstSlot_cons_succ, hindex]
      rcases slots_of_ne_void (hvoid type List.mem_cons_self) with hone | htwo
      · rw [hone, if_neg (by decide), Nat.add_comm 1, List.getElem?_cons_succ]
        exact ih _ _
      · rw [htwo, if_pos rfl, Nat.add_comm 2, List.getElem?_cons_succ, List.getElem?_cons_succ]
        exact ih _ _

theorem getElem?_seedCells {formals : List ValueType} (hvoid : ∀ type ∈ formals, type ≠ .void) {p : Nat}
    {formal : ValueType} (h : formals[p]? = some formal) (size : Nat) :
    (seedCells formals size)[StackCode.firstSlot formals p]? = some (formal.onStack, .param (low16 p)) := by
  have hcell := getElem?_paramCells hvoid h 0 0
  rw [Nat.zero_add] at hcell
  exact (List.getElem?_append_left (List.getElem?_eq_some_iff.1 hcell).1).trans hcell

/-- A slot where no parameter starts has a cell with its number. -/
theorem getElem?_seedCells_of_ne {formals : List ValueType} (hvoid : ∀ type ∈ formals, type ≠ .void) {size slot : Nat}
    (hlt : slot < (seedCells formals size).length)
    (hne : ∀ p < formals.length, StackCode.firstSlot formals p ≠ slot) :
    (seedCells formals size)[slot]? = some (.void, .undefined (low16 slot)) := by
  have hcell := List.getElem?_eq_getElem hlt
  have hop := op_seedCells hvoid hcell
  rw [StackCode.paramIn?_eq_none_of_ne hne] at hop
  rcases eq_of_mem_seedCells (List.mem_of_getElem? hcell) with ⟨index, hparam⟩ | ⟨k, hempty⟩
  · cases hop.symm.trans hparam
  · rw [hempty] at hop
    rw [hcell, hempty, Op.undefined.inj hop]

variable {W : World} {inputs : Inputs W.Value}

/-- The value of a parameter or an empty slot. -/
def seedValue (inputs : Inputs W.Value) : Op → Option W.Value
  | .param index => some (inputs.arg index)
  | .undefined slot => some (inputs.unset slot)
  | _ => none

/-- Seeds are evaluated without asking anything. -/
theorem evalCells_seeds {cells : List Cell}
    (h : ∀ cell ∈ cells, (∃ index, cell.2 = .param index) ∨ ∃ slot, cell.2 = .undefined slot) (n : NodeId)
    (ρ : Env W) :
    ∃ ρ' : Env W, evalCells W direct inputs n cells ρ = pure ρ' ∧ (∀ id < n, ρ' id = ρ id) ∧
      ∀ {k : Nat} {cell : Cell}, cells[k]? = some cell → ρ' (n + k) = seedValue inputs cell.2 := by
  induction cells generalizing n ρ with
  | nil => exact ⟨ρ, rfl, fun _ _ => rfl, fun hk => by cases hk⟩
  | cons cell cells ih =>
    obtain ⟨v, heval, hv⟩ : ∃ v, eval W inputs (direct ρ) cell.2 = pure v ∧ seedValue inputs cell.2 = some v := by
      rcases h cell (by simp) with ⟨index, hop⟩ | ⟨slot, hop⟩ <;> rw [hop] <;> exact ⟨_, rfl, rfl⟩
    obtain ⟨ρ', hrun, hold, hnew⟩ := ih (fun c hc => h c (by simp [hc])) (n + 1) (ρ.set n v)
    refine ⟨ρ', by rw [evalCells, heval, pure_bind, hrun], fun id hid => ?_, fun {k c} hk => ?_⟩
    · rw [hold id (Nat.lt_succ_of_lt hid), Env.set_of_ne _ _ (Nat.ne_of_lt hid)]
    · cases k with
      | zero =>
        cases hk
        rw [Nat.add_zero, hold n (Nat.lt_succ_self n), Env.set_self, hv]
      | succ k =>
        have := hnew hk
        rwa [Nat.add_assoc, Nat.add_comm 1] at this

/-- The nodes made at the start have the values that the machine starts with. -/
theorem seeds_hold {formals : List ValueType} (hvoid : ∀ type ∈ formals, type ≠ .void) {size : Nat}
    (hfits : Fits formals size) (n : NodeId) (ρ : Env W) :
    ∃ ρ' : Env W, evalCells W direct inputs n (seedCells formals size) ρ = pure ρ' ∧
      Holds ρ' (seedFrame n (seedCells formals size).length) (StackCode.initialLocals inputs formals size) [] := by
  obtain ⟨ρ', hrun, -, hnew⟩ := evalCells_seeds (fun cell => op_of_mem_seedCells) n ρ
  refine ⟨ρ', hrun, ?_, .nil⟩
  simp only [seedFrame, StackCode.initialLocals, hfits.length_eq]
  refine List.forall₂_iff_get.2 ⟨by simp, fun k hk hk' => ?_⟩
  have hsize : k < size := by simpa using hk
  have hlow := low16_of_lt (hsize.trans hfits.lt)
  have hlt : k < (seedCells formals size).length := by rwa [hfits.length_eq]
  have hcell := List.getElem?_eq_getElem hlt
  have hop := op_seedCells hvoid hcell
  have hvalue := hnew hcell
  rw [hop] at hvalue
  simp only [List.get_eq_getElem, List.getElem_range', Nat.one_mul, List.getElem_map, List.getElem_range]
  rw [hvalue, hlow]
  cases hparam : StackCode.paramIn? formals k with
  | none => rfl
  | some p =>
    have hp := StackCode.le_of_paramIn?_eq_some hvoid hparam
    rw [Option.map_some, Option.getD_some, low16_of_lt (hp.trans_lt (hsize.trans hfits.lt))]
    rfl

end Ssa

end Destack
