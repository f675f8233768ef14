import Destack.Proofs.Machine.Calls
import Destack.Proofs.Ssa.Schedule

/-!
# Running the instructions of a node

The instructions that a node becomes do what the node does: if the registers of its operands hold their values, they ask
the same of their surroundings, and they leave the node's value in its register and all registers that were not
handed out for the node as they were (`Emits.executeAll_refines`). A node in control becomes instructions that
lead to the same block or end in the same way (`Emits.runCode_halt`, `Emits.follow_refines`).
-/

namespace Destack.Machine

/-! ## Labels -/

theorem labelAt_injective {labelPrefix : String} {i j : Nat} (h : labelAt labelPrefix i = labelAt labelPrefix j) :
    i = j := by
  have hrepr : i.repr = j.repr := by simpa [labelAt] using h
  rw [← Nat.ofDigitChars_ten_toDigits (n := i), ← Nat.ofDigitChars_ten_toDigits (n := j), ← Nat.toList_repr,
    ← Nat.toList_repr, hrepr]

/-- A literal is found under its label. -/
theorem LowerState.Labelled.find?_eq {s : LowerState} (h : s.Labelled) {entry : DataEntry} (hmem : entry ∈ s.data) :
    s.data.find? (·.label = entry.label) = some entry := by
  have hsome : (s.data.find? (·.label = entry.label)).isSome = true :=
    Array.find?_isSome.2 ⟨entry, hmem, decide_eq_true rfl⟩
  obtain ⟨found, hfound⟩ := Option.isSome_iff_exists.1 hsome
  have hlabel : found.label = entry.label := by simpa using Array.find?_some hfound
  obtain ⟨i, hi⟩ := Array.mem_iff_getElem?.1 hmem
  obtain ⟨j, hj⟩ := Array.mem_iff_getElem?.1 (Array.mem_of_find?_eq_some hfound)
  rw [h i entry hi, h j found hj] at hlabel
  obtain rfl := labelAt_injective hlabel
  rw [hfound, ← hi, hj]

/-! ## Nodes that are not in control -/

section

variable {W : World} {m : Setting W} {inputs : Inputs W.Value} {get : NodeId → Option W.Value}
  {reg? : NodeId → Option Register} {data : Array DataEntry} {type : ValueType} {op : Ssa.Op} {n next : Nat}
  {is : List Instr} {r : Option Register} {s : State W.Value}

/-- The registers of some nodes hold their values. -/
def Holds (reg? : NodeId → Option Register) (get : NodeId → Option W.Value) (s : State W.Value)
    (P : NodeId → Prop) : Prop :=
  ∀ o r v, P o → reg? o = some r → get o = some v → s.regs r = v

/-- What a node that reads its surroundings finds there: a parameter where the convention puts it, and an
undefined value in the register of the node. -/
def Finds (inputs : Inputs W.Value) (m : Setting W) (s : State W.Value) (r : Option Register) : Ssa.Op → Prop
  | .param index =>
    match Location.ofIndex index with
    | .register source => s.regs source = inputs.arg index
    | .stack offset => m.incoming offset = inputs.arg index
  | .undefined slot => ∀ d ∈ r, s.regs d = inputs.unset slot
  | _ => True

/-- What the instructions of a node leave: its value in its register, and all else as it was. -/
structure Computes (op : Ssa.Op) (r : Option Register) (n next : Nat) (s : State W.Value) (v : W.Value)
    (s' : State W.Value) : Prop where
  value : ∀ d ∈ r, s'.regs d = v
  kept : State.Kept n next s s'
  physical : op.isSeed = true → ∀ source, source.isVirtual = false → s'.regs source = s.regs source
  outgoing : s'.outgoing = []

/-- A value in the next register. -/
theorem Computes.write (hout : s.outgoing = []) (op : Ssa.Op) (n : Nat) (v : W.Value) :
    Computes op (some (.virtual n)) n (n + 1) s v (s.write (.virtual n) v) := by
  refine ⟨fun d hd => ?_, fun k hk => ?_, fun _ source hsource => ?_, hout⟩
  · obtain rfl := Option.some.inj hd
    exact State.write_regs_self _ _ _
  · refine State.write_regs_of_ne _ _ ?_
    rw [Ne, Register.virtual_inj]
    omega
  · exact State.write_regs_of_ne _ _ (Register.ne_virtual hsource n)

/-- An effect without a value. -/
theorem Computes.skip (hout : s.outgoing = []) (op : Ssa.Op) (n : Nat) (v : W.Value) : Computes op none n n s v s :=
  ⟨nofun, fun _ _ => rfl, fun _ _ _ => rfl, hout⟩

theorem Holds.mapM {ids : List NodeId} (h : Holds reg? get s (· ∈ ids)) {rs : List Register} {vs : List W.Value}
    (hrs : ids.mapM reg? = some rs) (hvs : ids.mapM get = some vs) : vs = rs.map s.regs := by
  induction ids generalizing rs vs with
  | nil =>
    obtain rfl := Option.some.inj hrs
    exact (Option.some.inj hvs).symm
  | cons id ids ih =>
    rw [List.mapM_cons] at hrs hvs
    obtain ⟨r, hr, hrs⟩ := Option.bind_eq_some_iff.1 hrs
    obtain ⟨rs', hrs', hrs⟩ := Option.bind_eq_some_iff.1 hrs
    obtain ⟨v, hv, hvs⟩ := Option.bind_eq_some_iff.1 hvs
    obtain ⟨vs', hvs', hvs⟩ := Option.bind_eq_some_iff.1 hvs
    obtain rfl := Option.some.inj hrs
    obtain rfl := Option.some.inj hvs
    rw [List.map_cons, h id r v List.mem_cons_self hr hv,
      ih (fun o r v ho => h o r v (List.mem_cons_of_mem _ ho)) hrs' hvs']

theorem exists_of_mem_mapM {ids : List NodeId} {rs : List Register} (hrs : ids.mapM reg? = some rs) {r : Register}
    (hr : r ∈ rs) : ∃ o ∈ ids, reg? o = some r := by
  induction ids generalizing rs with
  | nil =>
    obtain rfl := Option.some.inj hrs
    cases hr
  | cons id ids ih =>
    rw [List.mapM_cons] at hrs
    obtain ⟨r', hr', hrs⟩ := Option.bind_eq_some_iff.1 hrs
    obtain ⟨rs', hrs', hrs⟩ := Option.bind_eq_some_iff.1 hrs
    obtain rfl := Option.some.inj hrs
    rcases List.mem_cons.1 hr with rfl | hr
    · exact ⟨id, List.mem_cons_self, hr'⟩
    · obtain ⟨o, ho, hor⟩ := ih hrs' hr
      exact ⟨o, List.mem_cons_of_mem _ ho, hor⟩

/-- The instructions of a call do what the call does. -/
theorem call_refines {kind : CallKind} {method : Member} {args : List NodeId} {sources : List Register}
    (hsources : args.mapM reg? = some sources) (hholds : Holds reg? get s (· ∈ args))
    (hbelow : ∀ o ∈ args, ∀ r, reg? o = some r → ∃ k < n, r = .virtual k) {result : Option Register}
    (hresult : ∀ r ∈ result, r = .result) (hout : s.outgoing = []) :
    Exec.Refines
      (Computes (.call kind method args) (result.map fun _ => .virtual (passing n (located sources)).2.2) n
        ((passing n (located sources)).2.2 + result.toList.length) s)
      (Ssa.eval W inputs get (.call kind method args)) (executeAll W m (callCode method result n sources) s) := by
  have hvirtual : ∀ source ∈ sources, ∃ k < n, source = .virtual k := by
    intro source hmem
    obtain ⟨o, ho, hr⟩ := exists_of_mem_mapM hsources hmem
    exact hbelow o ho source hr
  refine .need_bind fun vs hvs => ?_
  rw [hholds.mapM hsources hvs]
  refine (callCode_refines hresult hvirtual hout).mono fun v s' ⟨hvalue, hkept, hnone⟩ =>
    ⟨fun d hd => ?_, hkept, nofun, hnone⟩
  obtain ⟨r, hr, rfl⟩ := Option.map_eq_some_iff.1 hd
  exact hvalue (by rw [hr]; rfl)

/-- The instructions of a node do what the node does. -/
theorem Emits.executeAll_refines (h : Emits reg? data type op n is r next) (hcontrol : op.isControl = false)
    (hmerge : op.isMerge = false) (hholds : Holds reg? get s (· ∈ op.operands))
    (hbelow : ∀ o ∈ op.operands, ∀ r, reg? o = some r → ∃ k < n, r = .virtual k)
    (hfinds : Finds inputs m s r op) (hout : s.outgoing = [])
    (hdata : ∀ entry ∈ data, m.data.find? (·.label = entry.label) = some entry) :
    Exec.Refines (Computes op r n next s) (Ssa.eval W inputs get op) (executeAll W m is s) := by
  cases h with
  | paramRegister hloc =>
    rw [Finds, hloc] at hfinds
    exact .pure (hfinds ▸ Computes.write hout _ n _)
  | paramStack hloc =>
    rw [Finds, hloc] at hfinds
    exact .pure (hfinds ▸ Computes.write hout _ n _)
  | undefined => exact .pure ⟨hfinds, fun _ _ => rfl, fun _ _ _ => rfl, hout⟩
  | intConst | nullConst => exact .pure (.write hout _ n _)
  | stringConst hmem =>
    rw [executeAll_singleton]
    simp only [execute, hdata _ hmem, Exec.need_some, pure_bind]
    exact .pure (.write hout _ n _)
  | arith hl hr =>
    refine .need_bind fun lhs hlhs => .need_bind fun rhs hrhs => ?_
    rw [← hholds _ _ _ (by simp [Ssa.Op.operands]) hl hlhs, ← hholds _ _ _ (by simp [Ssa.Op.operands]) hr hrhs,
      executeAll_singleton]
    exact .bind_right _ fun v => .pure (.write hout _ n v)
  | negate hv =>
    refine .need_bind fun value hvalue => ?_
    rw [← hholds _ _ _ (by simp [Ssa.Op.operands]) hv hvalue]
    exact .pure (.write hout _ n _)
  | getStatic =>
    rw [executeAll_singleton]
    exact .bind_right _ fun v => .pure (.write hout _ n v)
  | putStatic hv =>
    refine .need_bind fun value hvalue => ?_
    rw [← hholds _ _ _ (by simp [Ssa.Op.operands]) hv hvalue, executeAll_singleton]
    simp only [execute, Exec.discard_bind]
    exact .bind_right _ fun v => .pure (.skip hout _ n v)
  | arrayLoad hl hr =>
    refine .need_bind fun base hbase => .need_bind fun offset hoffset => ?_
    rw [← hholds _ _ _ (by simp [Ssa.Op.operands]) hl hbase, ← hholds _ _ _ (by simp [Ssa.Op.operands]) hr hoffset,
      executeAll_singleton]
    exact .bind_right _ fun v => .pure (.write hout _ n v)
  | arrayStore hl hr hv =>
    refine .need_bind fun base hbase => .need_bind fun offset hoffset => .need_bind fun value hvalue => ?_
    rw [← hholds _ _ _ (by simp [Ssa.Op.operands]) hl hbase, ← hholds _ _ _ (by simp [Ssa.Op.operands]) hr hoffset,
      ← hholds _ _ _ (by simp [Ssa.Op.operands]) hv hvalue, executeAll_singleton]
    simp only [execute, Exec.discard_bind]
    exact .bind_right _ fun v => .pure (.skip hout _ n v)
  | callValue htype hargs => exact call_refines hargs hholds hbelow (by simp) hout
  | callVoid htype hargs => exact call_refines hargs hholds hbelow (by simp) hout
  | merge => cases hmerge
  | branch | goto | switch | retValue | retVoid | raise => cases hcontrol

/-- Arguments are passed by moves and stores. -/
theorem op_of_mem_passing {pairs : List (Register × Location)} {i : Instr} (h : i ∈ (passing n pairs).1) :
    i.op = .move ∨ ∃ offset, i.op = .storeStack offset := by
  induction pairs generalizing n with
  | nil => cases h
  | cons pair pairs ih =>
    obtain ⟨source, location⟩ := pair
    cases location with
    | register r =>
      rcases List.mem_cons.1 h with rfl | h
      · exact .inl rfl
      · rcases List.mem_cons.1 h with rfl | h
        · exact .inl rfl
        · exact ih h
    | stack offset =>
      rcases List.mem_cons.1 h with rfl | h
      · exact .inr ⟨offset, rfl⟩
      · exact ih h

/-- Around a call there are only moves and stores. -/
theorem op_of_mem_callCode {method : Member} {result : Option Register} {sources : List Register} {i : Instr}
    (h : i ∈ callCode method result n sources) :
    i.op = .call method ∨ i.op = .move ∨ ∃ offset, i.op = .storeStack offset := by
  rcases List.mem_append.1 h with h | h
  · exact .inr (op_of_mem_passing h)
  · rcases List.mem_cons.1 h with rfl | h
    · exact .inl rfl
    · rcases List.mem_append.1 h with h | h
      · obtain ⟨r, -, rfl⟩ := Option.map_eq_some_iff.1 (Option.mem_toList.1 h)
        exact .inr (.inl rfl)
      · obtain ⟨move, -, rfl⟩ := List.mem_map.1 h
        exact .inr (.inl rfl)

theorem isControl_callCode {method : Member} {result : Option Register} {sources : List Register} {i : Instr}
    (h : i ∈ callCode method result n sources) : i.op.isControl = false := by
  rcases op_of_mem_callCode h with hop | hop | ⟨offset, hop⟩
  · rw [hop]
    rfl
  · rw [hop]
    rfl
  · rw [hop]
    rfl

/-- Only nodes in control become instructions in control. -/
theorem Emits.isControl_eq_false (h : Emits reg? data type op n is r next) (hcontrol : op.isControl = false)
    {i : Instr} (hi : i ∈ is) : i.op.isControl = false := by
  cases h with
  | callValue | callVoid => exact isControl_callCode hi
  | branch | goto | switch | retValue | retVoid | raise => cases hcontrol
  | undefined | merge => cases hi
  | _ =>
    obtain rfl := List.mem_singleton.1 hi
    rfl

/-- A merge becomes no instructions. -/
theorem Emits.code_merge (h : Emits reg? data type op n is r next) (hmerge : op.isMerge = true) : is = [] := by
  cases h with
  | merge => rfl
  | _ => cases hmerge

/-! ## Nodes in control -/

/-- A node in control has no register. -/
theorem Emits.register_eq_none (h : Emits reg? data type op n is r next) (hcontrol : op.isControl = true) :
    r = none := by
  have := h.isSome_register
  rwa [Ssa.Op.yields_of_isControl hcontrol, Option.isSome_eq_false_iff, Option.isNone_iff_eq_none] at this

/-- A node that ends the run becomes instructions that end it in the same way. -/
theorem Emits.runCode_halt (h : Emits reg? data type op n is r next) (hcontrol : op.isControl = true)
    (htargets : op.targets = []) (hholds : Holds reg? get s (· ∈ op.operands)) (rest : List Instr)
    {R : BlockId → State W.Value × BlockId → Prop} :
    Exec.Refines R (Ssa.follow W get op) (runCode W m (is ++ rest) s) := by
  cases h with
  | retValue hv =>
    refine .need_bind fun value hvalue => ?_
    have hregs : (s.write .result (s.regs _)).regs .result = value :=
      (State.write_regs_self _ _ _).trans (hholds _ _ _ (by simp [Ssa.Op.operands]) hv hvalue)
    rw [← hregs]
    exact .throw _
  | retVoid => exact .throw _
  | raise hv =>
    refine .need_bind fun value hvalue => ?_
    rw [← hholds _ _ _ (by simp [Ssa.Op.operands]) hv hvalue]
    exact .throw _
  | branch | goto | switch => cases htargets
  | _ => cases hcontrol

/-- The last instruction of a node that ends the run is no jump. -/
theorem Emits.exists_last (h : Emits reg? data type op n is r next) (hcontrol : op.isControl = true)
    (htargets : op.targets = []) : ∃ front last, is = front ++ [last] ∧ last.op.isJump = false := by
  cases h with
  | retValue => exact ⟨[_], _, rfl, rfl⟩
  | retVoid | raise => exact ⟨[], _, rfl, rfl⟩
  | branch | goto | switch => cases htargets
  | _ => cases hcontrol

/-- A node that leads to other blocks becomes one jump. -/
theorem Emits.exists_jump (h : Emits reg? data type op n is r next) (hcontrol : op.isControl = true)
    (htargets : op.targets ≠ []) : ∃ j, is = [j] ∧ j.op.isJump = true := by
  cases h with
  | branch | goto | switch => exact ⟨_, rfl, rfl⟩
  | retValue | retVoid | raise => exact absurd rfl htargets
  | _ => cases hcontrol

/-- The jump leads to the same block as the node, if the registers of its operands hold their values or there is
just one block to lead to. -/
theorem Emits.follow_refines (h : Emits reg? data type op n is r next) (hcontrol : op.isControl = true)
    (htargets : op.targets ≠ []) {j : Instr} (hj : is = [j])
    (hsame : Holds reg? get s (· ∈ op.operands) ∨ ∃ t, ∀ t' ∈ op.targets, t' = t) :
    Exec.Refines (· = ·) (Ssa.follow W get op) (follow W s j) := by
  cases h with
  | branch hl hr =>
    obtain rfl := List.singleton_inj.1 hj
    refine .need_bind fun lhs hlhs => .need_bind fun rhs hrhs => .pure ?_
    rcases hsame with hholds | ⟨t, ht⟩
    · rw [← hholds _ _ _ (by simp [Ssa.Op.operands]) hl hlhs, ← hholds _ _ _ (by simp [Ssa.Op.operands]) hr hrhs]
    · rw [ht _ (W.choose_mem ..), ht _ (W.choose_mem ..)]
  | goto =>
    obtain rfl := List.singleton_inj.1 hj
    exact .refl _
  | switch hv =>
    obtain rfl := List.singleton_inj.1 hj
    refine .need_bind fun value hvalue => .pure ?_
    rcases hsame with hholds | ⟨t, ht⟩
    · rw [← hholds _ _ _ (by simp [Ssa.Op.operands]) hv hvalue]
    · rw [ht _ (W.select_mem ..), ht _ (W.select_mem ..)]
  | retValue | retVoid | raise => exact absurd rfl htargets
  | _ => cases hcontrol

end

end Destack.Machine
