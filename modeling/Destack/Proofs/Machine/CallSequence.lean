import Destack.Proofs.Machine.ParallelMoves

/-!
# The instructions around a call

A call is emitted between two runs of instructions. Those ahead of it save the registers that arguments travel in
and put every argument in its place; those after it move the result out and restore the registers. Nothing is
assumed about the callee but that it leaves virtual registers alone, and nothing about what registers and the
stack held before.
-/

namespace Destack

/-! ## Argument registers -/

/-- The registers among the places of some arguments are the first ones. -/
theorem Location.filterMap_register?_ofIndex (n : Nat) :
    (List.range n).filterMap (fun i => (ofIndex i).register?) = (List.range (min n 4)).map Register.mk := by
  induction n with
  | zero => rfl
  | succ n ih =>
    rw [List.range_succ, List.filterMap_append, ih]
    rcases ofIndex_cases n with ⟨hn, hlocation⟩ | ⟨hn, hlocation⟩
    · rw [Nat.min_eq_left hn.le, Nat.min_eq_left hn, List.range_succ, List.map_append]
      simp [hlocation, register?]
    · rw [Nat.min_eq_right hn, Nat.min_eq_right (hn.trans (Nat.le_succ n))]
      simp [hlocation, register?]

namespace Machine

theorem filterMap_register?_located (sources : List Register) :
    (located sources).filterMap (·.2.register?) = (List.range (min sources.length 4)).map Register.mk := by
  have hlocations := congrArg (List.filterMap Location.register?) (map_snd_located sources)
  rw [List.filterMap_map, List.filterMap_map] at hlocations
  exact hlocations.trans (Location.filterMap_register?_ofIndex _)

/-! ## Kinds of instructions -/

/-- A move between registers of two kinds. -/
def Instr.isTransfer (source target : Register → Bool) (i : Instr) : Bool :=
  match i.op, i.reads, i.write with
  | .move, [a], some d => source a && target d
  | _, _, _ => false

/-- A move out of a physical register into a virtual one. -/
def Instr.isSave : Instr → Bool :=
  isTransfer Register.isPhysical Register.isVirtual

/-- A move out of a virtual register into a physical one. -/
def Instr.isLoad : Instr → Bool :=
  isTransfer Register.isVirtual Register.isPhysical

theorem isSave_mk {r d : Register} (hr : r.isVirtual = false) (hd : d.isVirtual = true) :
    (Instr.mk .move [r] (some d)).isSave = true ∧ (Instr.mk .move [r] (some d)).isLoad = false := by
  have hr' : r.isPhysical = true := by simpa [Register.isVirtual] using hr
  simp [Instr.isSave, Instr.isLoad, Instr.isTransfer, hr, hr', hd]

variable {n : Nat} {sources : List Register}

/-- What follows a call, with the register number that the result goes to. -/
def afterCode (result : Option Register) (next : Nat) (saved : List Move) : List Instr :=
  (result.map fun r => (⟨.move, [r], some (.virtual next)⟩ : Instr)).toList ++ saved.map Move.instr

theorem callCode_eq (method : Member) (result : Option Register) (n : Nat) (sources : List Register) :
    callCode method result n sources = (passing n (located sources)).1 ++
      ⟨.call method, (List.range (min sources.length 4)).map Register.mk, result⟩ ::
        afterCode result (passing n (located sources)).2.2 (passing n (located sources)).2.1 := by
  rw [callCode, ← filterMap_register?_located, ← targets_passing n]
  rfl

/-- The register that a call writes. -/
def resultOf (type : ValueType) : Option Register :=
  if type = .void then none else some .result

theorem eq_result_of_resultOf {type : ValueType} {r : Register} (h : resultOf type = some r) : r = .result := by
  unfold resultOf at h
  split at h
  · cases h
  · exact (Option.some.inj h).symm

section

variable {V : Type}

/-- Arguments where a callee looks for them: the first four in registers and the others in slots of the outgoing
area. -/
structure Delivers (values : List V) (s : State V) : Prop where
  register : ∀ i v, i < 4 → values[i]? = some v → s.regs ⟨i⟩ = v
  slot : ∀ i v, 4 ≤ i → values[i]? = some v → s.outgoing.lookup ((4 * (i - 4) : Nat) : Int) = some v

/-- The state after a call with a number of arguments, against the one before it and the one that the callee left. The
result is in its register, the argument registers are as before, and so are the virtual registers that were not handed
out for the call. -/
structure Restores (n next count : Nat) (register : Option Register) (before left after : State V) : Prop where
  result : ∀ d ∈ register, after.regs d = left.regs .result
  arguments : ∀ i < min count 4, after.regs ⟨i⟩ = before.regs ⟨i⟩
  virtual : State.Kept n next before after

theorem Passed.delivers {next : Nat} {s s' : State V} (h : Passed n next (located sources) s s') :
    Delivers (sources.map s.regs) s' := by
  have hargument : ∀ i v, (sources.map s.regs)[i]? = some v →
      s'.argument? ((located sources).filterMap (·.2.register?)) i = some v := by
    intro i v hi
    rw [List.getElem?_map] at hi
    obtain ⟨source, hsource, rfl⟩ := Option.map_eq_some_iff.1 hi
    exact h.argument? hsource
  constructor
  · intro i v hi hv
    have hplace := hargument i v hv
    rcases Location.ofIndex_cases i with ⟨-, hlocation⟩ | ⟨hge, -⟩
    · rw [State.argument?, hlocation] at hplace
      exact Option.some.inj (Option.ite_none_right_eq_some.1 hplace).2
    · omega
  · intro i v hi hv
    have hplace := hargument i v hv
    rcases Location.ofIndex_cases i with ⟨hlt, -⟩ | ⟨-, hlocation⟩
    · omega
    · rw [State.argument?, hlocation] at hplace
      exact hplace

end

/-- What a call does to registers and to the outgoing area, whatever the callee leaves in physical registers and
memory. -/
theorem executeAll_around {W : World} (m : Setting W) (hsources : ∀ source ∈ sources, source.HandedOut n)
    (type : ValueType) (s : State W.Value) :
    ∃ s₁, executeAll W m (passing n (located sources)).1 s = pure s₁ ∧ Delivers (sources.map s.regs) s₁ ∧
      ∀ s₂ : State W.Value, (∀ k, s₂.regs (.virtual k) = s₁.regs (.virtual k)) →
        ∃ s₃, executeAll W m
            (afterCode (resultOf type) (passing n (located sources)).2.2
              (passing n (located sources)).2.1) s₂ = pure s₃ ∧
          Restores n ((passing n (located sources)).2.2 + (resultOf type).toList.length) sources.length
            ((resultOf type).map fun _ => .virtual (passing n (located sources)).2.2) s s₂ s₃ := by
  obtain ⟨s₁, hpass, hpassed⟩ := @executeAll_passing W m (located sources) n (nodup_located sources)
    (fun pair hpair => hsources pair.1 (mem_located hpair).1) (fun source r hmem => (mem_located hmem).2 r rfl) s
  have hsaved := saved_passing n sources
  refine ⟨s₁, hpass, hpassed.delivers, fun s₂ hs₂ => ?_⟩
  obtain ⟨s₃, hafter, hvalue, hkept, hrestored, -⟩ := @executeAll_after W m _ _ _ hsaved (resultOf type)
    (fun _ => eq_result_of_resultOf) s₂
  refine ⟨s₃, hafter, ?_, fun i hi => ?_, fun k hk => ?_⟩
  · intro d hd
    obtain ⟨r, hr, rfl⟩ := Option.map_eq_some_iff.1 hd
    exact hvalue (Option.isSome_iff_exists.2 ⟨r, hr⟩)
  · have hmem : Register.mk i ∈ (passing n (located sources)).2.1.map (·.target) := by
      rw [targets_passing, filterMap_register?_located]
      exact List.mem_map.2 ⟨i, List.mem_range.2 hi, rfl⟩
    obtain ⟨move, hmove, htarget⟩ := List.mem_map.1 hmem
    obtain ⟨k, -, -, hk⟩ := hsaved.source move hmove
    rw [← htarget, hrestored move hmove, hk, hs₂, ← hk, hpassed.saved move hmove]
  · have hle := le_passing n (located sources)
    rw [hkept k (by omega), hs₂, hpassed.virtual k (by omega)]

/-! ## Calls that are emitted -/

theorem Emits.call_eq {reg? : NodeId → Option Register} {data : Array DataEntry} {type : ValueType} {kind : CallKind}
    {method : Member} {args : List NodeId} {is : List Instr} {r : Option Register} {next : Nat}
    (h : Emits reg? data type (.call kind method args) n is r next) (hargs : args.mapM reg? = some sources) :
    is = callCode method (resultOf type) n sources ∧
      r = ((resultOf type).map fun _ => .virtual (passing n (located sources)).2.2) ∧
      next = (passing n (located sources)).2.2 + (resultOf type).toList.length := by
  cases h with
  | callValue htype hargs' =>
    obtain rfl := Option.some.inj (hargs.symm.trans hargs')
    rw [resultOf, if_neg htype]
    exact ⟨rfl, rfl, rfl⟩
  | callVoid htype hargs' =>
    obtain rfl := Option.some.inj (hargs.symm.trans hargs')
    rw [resultOf, if_pos htype]
    exact ⟨rfl, rfl, rfl⟩

/-- Six values in registers, for a call that takes one of them twice. -/
def sixValues : LowerState where
  graph := { blocks := (∅ : Std.TreeMap BlockId Block).insert 0 {}, registers := 6 }
  stats := {}
  labelPrefix := "Six_values"
  lowered := (∅ : Std.TreeMap NodeId Lowered).insertMany
    ((List.range 6).map fun id => (id, ⟨none, some (.virtual id)⟩))

end Machine

end Destack
