import Destack.Machine.Lower
import Destack.Proofs.Machine.Placement
import Destack.Proofs.Pass
import Destack.Proofs.Ssa.Progress

/-!
# Instructions of a node

`Emits` says which instructions a node becomes, given the registers of its operands, and which registers are handed
out for it. A node whose operands have registers is always emitted, at the end of its block (`emit_spec`).
-/

namespace Destack.Machine

/-! ## Instructions of a call -/

/-- The instructions that put sources in their places, with the copies of the registers that they overwrite and the
first register number still free. -/
def passing : Nat → List (Register × Location) → List Instr × List Move × Nat
  | n, [] => ([], [], n)
  | n, (source, .register r) :: rest =>
    let (is, saved, next) := passing (n + 1) rest
    (⟨.move, [r], some (.virtual n)⟩ :: ⟨.move, [source], some r⟩ :: is, ⟨.virtual n, r⟩ :: saved, next)
  | n, (source, .stack offset) :: rest =>
    let (is, saved, next) := passing n rest
    (⟨.storeStack offset, [source], none⟩ :: is, saved, next)

/-- Sources with the places where the convention wants them. -/
def located (sources : List Register) : List (Register × Location) :=
  sources.zip ((List.range sources.length).map Location.ofIndex)

/-- A call between the instructions that pass its arguments and those that restore what they overwrote. The result, if
there is one, goes to the first register number still free. -/
def callCode (method : Member) (result : Option Register) (n : Nat) (sources : List Register) : List Instr :=
  let (pass, saved, next) := passing n (located sources)
  let move := (result.map fun r => (⟨.move, [r], some (.virtual next)⟩ : Instr)).toList
  pass ++ ⟨.call method, saved.map (·.target), result⟩ :: (move ++ saved.map Move.instr)

/-! ## Instructions of nodes -/

section Emits

variable (reg? : NodeId → Option Register) (data : Array DataEntry) (type : ValueType)

/-- The instructions that a node becomes, with the register of its value, if it has one, between two counts of
registers handed out. -/
inductive Emits : Ssa.Op → Nat → List Instr → Option Register → Nat → Prop where
  | paramRegister {index n : Nat} {r : Register} : Location.ofIndex index = .register r →
    Emits (.param index) n [⟨.move, [r], some (.virtual n)⟩] (some (.virtual n)) (n + 1)
  | paramStack {index n : Nat} {offset : Int} : Location.ofIndex index = .stack offset →
    Emits (.param index) n [⟨.loadStack offset, [], some (.virtual n)⟩] (some (.virtual n)) (n + 1)
  | undefined {slot n : Nat} : Emits (.undefined slot) n [] (some (.virtual n)) (n + 1)
  | merge {slot : Slot} {args : List NodeId} {n : Nat} : Emits (.merge slot args) n [] (some (.virtual n)) (n + 1)
  | intConst {value : Int} {n : Nat} :
    Emits (.intConst value) n [⟨.loadConst value, [], some (.virtual n)⟩] (some (.virtual n)) (n + 1)
  | nullConst {n : Nat} : Emits .nullConst n [⟨.loadConst 0, [], some (.virtual n)⟩] (some (.virtual n)) (n + 1)
  | stringConst {value label : String} {n : Nat} : ⟨label, value⟩ ∈ data →
    Emits (.stringConst value) n [⟨.loadAddress label, [], some (.virtual n)⟩] (some (.virtual n)) (n + 1)
  | arith {op : ArithOp} {opcode : Opcode} {lhs rhs : NodeId} {l r : Register} {n : Nat} :
    reg? lhs = some l → reg? rhs = some r →
    Emits (.arith op opcode lhs rhs) n [⟨.binary op, [l, r], some (.virtual n)⟩] (some (.virtual n)) (n + 1)
  | negate {value : NodeId} {v : Register} {n : Nat} : reg? value = some v →
    Emits (.negate value) n [⟨.negate, [v], some (.virtual n)⟩] (some (.virtual n)) (n + 1)
  | getStatic {field : Member} {n : Nat} :
    Emits (.getStatic field) n [⟨.loadStatic field, [], some (.virtual n)⟩] (some (.virtual n)) (n + 1)
  | putStatic {field : Member} {value : NodeId} {v : Register} {n : Nat} : reg? value = some v →
    Emits (.putStatic field value) n [⟨.storeStatic field, [v], none⟩] none n
  | arrayLoad {base offset : NodeId} {l r : Register} {n : Nat} : reg? base = some l → reg? offset = some r →
    Emits (.arrayLoad base offset) n [⟨.load, [l, r], some (.virtual n)⟩] (some (.virtual n)) (n + 1)
  | arrayStore {base offset value : NodeId} {l r v : Register} {n : Nat} : reg? base = some l →
    reg? offset = some r → reg? value = some v →
    Emits (.arrayStore base offset value) n [⟨.store, [l, r, v], none⟩] none n
  | callValue {kind : CallKind} {method : Member} {args : List NodeId} {sources : List Register} {n : Nat} :
    type ≠ .void → args.mapM reg? = some sources →
    Emits (.call kind method args) n (callCode method (some .result) n sources)
      (some (.virtual (passing n (located sources)).2.2)) ((passing n (located sources)).2.2 + 1)
  | callVoid {kind : CallKind} {method : Member} {args : List NodeId} {sources : List Register} {n : Nat} :
    type = .void → args.mapM reg? = some sources →
    Emits (.call kind method args) n (callCode method none n sources) none (passing n (located sources)).2.2
  | branch {condition : Condition} {lhs rhs : NodeId} {taken fallthrough : BlockId} {l r : Register} {n : Nat} :
    reg? lhs = some l → reg? rhs = some r →
    Emits (.branch condition lhs rhs taken fallthrough) n [⟨.branch condition taken fallthrough, [l, r], none⟩] none n
  | goto {target : BlockId} {n : Nat} : Emits (.goto target) n [⟨.jump target, [], none⟩] none n
  | switch {value : NodeId} {default : BlockId} {cases : List (Int × BlockId)} {v : Register} {n : Nat} :
    reg? value = some v →
    Emits (.switch value default cases) n [⟨.switch default cases, [v], none⟩] none n
  | retValue {value : NodeId} {v : Register} {n : Nat} : reg? value = some v →
    Emits (.ret (some value)) n [⟨.move, [v], some .result⟩, ⟨.ret, [.result], none⟩] none n
  | retVoid {n : Nat} : Emits (.ret none) n [⟨.ret, [], none⟩] none n
  | raise {value : NodeId} {v : Register} {n : Nat} : reg? value = some v →
    Emits (.raise value) n [⟨.raise, [v], none⟩] none n

end Emits

section Emits

variable {reg? reg?' : NodeId → Option Register} {data data' : Array DataEntry} {type : ValueType} {op : Ssa.Op}
  {n next : Nat} {is : List Instr} {r : Option Register}

theorem mapM_mono {ids : List NodeId} {rs : List Register} (hreg : ∀ o r, reg? o = some r → reg?' o = some r)
    (h : ids.mapM reg? = some rs) : ids.mapM reg?' = some rs := by
  induction ids generalizing rs with
  | nil => exact h
  | cons id ids ih =>
    rw [List.mapM_cons] at h ⊢
    obtain ⟨r, hr, h⟩ := Option.bind_eq_some_iff.1 h
    obtain ⟨rs', hrs, h⟩ := Option.bind_eq_some_iff.1 h
    obtain rfl := Option.some.inj h
    simp [hreg id r hr, ih hrs]

/-- Registers and literals that are known stay so. -/
theorem Emits.mono (h : Emits reg? data type op n is r next) (hreg : ∀ o r, reg? o = some r → reg?' o = some r)
    (hdata : ∀ entry ∈ data, entry ∈ data') : Emits reg?' data' type op n is r next := by
  cases h with
  | paramRegister hloc => exact .paramRegister hloc
  | paramStack hloc => exact .paramStack hloc
  | stringConst hmem => exact .stringConst (hdata _ hmem)
  | arith hl hr => exact .arith (hreg _ _ hl) (hreg _ _ hr)
  | negate hv => exact .negate (hreg _ _ hv)
  | putStatic hv => exact .putStatic (hreg _ _ hv)
  | arrayLoad hl hr => exact .arrayLoad (hreg _ _ hl) (hreg _ _ hr)
  | arrayStore hl hr hv => exact .arrayStore (hreg _ _ hl) (hreg _ _ hr) (hreg _ _ hv)
  | callValue htype hargs => exact .callValue htype (mapM_mono hreg hargs)
  | callVoid htype hargs => exact .callVoid htype (mapM_mono hreg hargs)
  | branch hl hr => exact .branch (hreg _ _ hl) (hreg _ _ hr)
  | switch hv => exact .switch (hreg _ _ hv)
  | retValue hv => exact .retValue (hreg _ _ hv)
  | raise hv => exact .raise (hreg _ _ hv)
  | _ => constructor

/-- A node has a register if it has a value. -/
theorem Emits.isSome_register (h : Emits reg? data type op n is r next) : r.isSome = op.yields type := by
  cases h with
  | callValue htype => simp [Ssa.Op.yields, htype]
  | callVoid htype => simp [Ssa.Op.yields, htype]
  | _ => rfl

theorem le_passing (n : Nat) (pairs : List (Register × Location)) : n ≤ (passing n pairs).2.2 := by
  induction pairs generalizing n with
  | nil => exact Nat.le_refl n
  | cons pair pairs ih =>
    obtain ⟨source, location⟩ := pair
    cases location with
    | register r => exact (Nat.le_succ n).trans (ih (n + 1))
    | stack offset => exact ih n

/-- Registers are handed out in ascending order, and the last one is that of the value. -/
theorem Emits.register_eq (h : Emits reg? data type op n is r next) :
    n ≤ next ∧ ∀ r' ∈ r, ∃ k, n ≤ k ∧ k < next ∧ r' = .virtual k := by
  have hone : n ≤ n + 1 ∧ ∀ r' ∈ some (Register.virtual n), ∃ k, n ≤ k ∧ k < n + 1 ∧ r' = .virtual k :=
    ⟨Nat.le_succ n, fun r' hr' => ⟨n, Nat.le_refl n, Nat.lt_succ_self n, (Option.some.inj hr').symm⟩⟩
  have hnone : n ≤ n ∧ ∀ r' ∈ (none : Option Register), ∃ k, n ≤ k ∧ k < n ∧ r' = .virtual k :=
    ⟨Nat.le_refl n, fun _ hr' => nomatch hr'⟩
  cases h with
  | @callValue _ _ _ sources =>
    have hle := le_passing n (located sources)
    exact ⟨hle.trans (Nat.le_succ _), fun r' hr' => ⟨_, hle, Nat.lt_succ_self _, (Option.some.inj hr').symm⟩⟩
  | callVoid => exact ⟨le_passing n _, fun _ hr' => nomatch hr'⟩
  | putStatic | arrayStore | branch | goto | switch | retValue | retVoid | raise => exact hnone
  | _ => exact hone

end Emits

/-! ## Emitting instructions -/

/-- The register of a node that is lowered. -/
def LowerState.register? (s : LowerState) (id : NodeId) : Option Register :=
  (s.lowered? id).bind (·.register)

/-- The label of the literal at a position of the data segment. -/
def labelAt (labelPrefix : String) (position : Nat) : String :=
  s!"{labelPrefix}_str{position}"

/-- Literals are labelled by position. -/
def LowerState.Labelled (s : LowerState) : Prop :=
  ∀ k entry, s.data[k]? = some entry → entry.label = labelAt s.labelPrefix k

/-- A state of the pass has become another one with more instructions at the end of a block. -/
structure Emitted (b : BlockId) (is : List Instr) (s s' : LowerState) : Prop where
  appends : s.graph.Appends b is s'.graph
  lowered_eq : s'.lowered = s.lowered
  data : ∀ entry ∈ s.data, entry ∈ s'.data
  labelled : s.Labelled → s'.Labelled

namespace Emitted

variable {b : BlockId} {is js : List Instr} {s s' s'' : LowerState}

theorem refl (b : BlockId) (s : LowerState) : Emitted b [] s s :=
  ⟨.refl b _, rfl, fun _ h => h, fun h => h⟩

theorem trans (h : Emitted b is s s') (h' : Emitted b js s' s'') : Emitted b (is ++ js) s s'' :=
  ⟨h.appends.trans h'.appends, h'.lowered_eq.trans h.lowered_eq, fun entry he => h'.data entry (h.data entry he),
    fun hl => h'.labelled (h.labelled hl)⟩

theorem setStats (h : Emitted b is s s') (stats : Statistics) : Emitted b is s { s' with stats } :=
  ⟨h.appends, h.lowered_eq, h.data, h.labelled⟩

theorem nodes (h : Emitted b is s s') : s.graph.SameNodes s'.graph :=
  h.appends.nodes

theorem code (h : Emitted b is s s') (code : BlockId → List Instr) (hcode : s.graph.Carries code) :
    s'.graph.Carries fun k => if k = b then code k ++ is else code k :=
  h.appends.carries hcode

theorem hasBlock_eq (h : Emitted b is s s') (k : BlockId) : s'.graph.hasBlock k = s.graph.hasBlock k :=
  h.nodes.hasBlock_eq k

end Emitted

namespace LowerM

open Pass (Spec)

variable {s : LowerState} {b : BlockId} {E : Error → Prop}

theorem newRegister_spec (b : BlockId) :
    Spec newRegister s (fun r s' => r = .virtual s.graph.registers ∧ Emitted b [] s s' ∧
      s'.graph.registers = s.graph.registers + 1) E := by
  have happends : s.graph.Appends b [] s.graph.newRegister.2 :=
    .of_instrs_eq s.graph.sameNodes_newRegister rfl fun _ => rfl
  exact .modifyGet ⟨rfl, ⟨happends, rfl, fun _ h => h, fun h => h⟩, rfl⟩

/-- An instruction is appended to a block that is there. -/
theorem append_eq (hb : s.graph.hasBlock b = true) (op : Op) (reads : List Register) (write : Option Register) :
    append b op reads write s =
      .ok s.graph.instrs.size { s with graph := s.graph.withInstr b ⟨op, reads, write⟩ } := by
  refine Pass.bind_eq_ok.2 ⟨s, s, Pass.get_eq_ok.2 ⟨rfl, rfl⟩, ?_⟩
  refine Pass.bind_eq_ok.2 ⟨_, s, Pass.lift_eq_ok.2 ⟨Graph.appendInstr_eq hb _, rfl⟩, ?_⟩
  exact Pass.bind_eq_ok.2 ⟨⟨⟩, _, Pass.set_eq_ok.2 rfl, Pass.pure_eq_ok.2 ⟨rfl, rfl⟩⟩

theorem append_cases (b : BlockId) (op : Op) (reads : List Register) (write : Option Register) (s : LowerState) :
    (s.graph.hasBlock b = true ∧ append b op reads write s =
      .ok s.graph.instrs.size { s with graph := s.graph.withInstr b ⟨op, reads, write⟩ }) ∨
    ∃ e, append b op reads write s = .error e s := by
  cases hb : s.graph.hasBlock b with
  | true => exact Or.inl ⟨rfl, append_eq hb op reads write⟩
  | false =>
    refine Or.inr ⟨.absent (.block b), ?_⟩
    have hedit : s.graph.appendInstr b ⟨op, reads, write⟩ = .error (.absent (.block b)) := by
      have hnone : (s.graph.newInstr ⟨op, reads, write⟩).2.hasBlock b = false := hb
      dsimp only [Graph.appendInstr, Graph.editBlock, bind, Except.bind]
      rw [hnone]
      rfl
    unfold append
    rw [Pass.run_bind, Pass.run_get]
    dsimp only
    rw [hedit]
    rfl

theorem append_spec (hb : s.graph.hasBlock b = true) (op : Op) (reads : List Register) (write : Option Register) :
    Spec (append b op reads write) s (fun _ s' => Emitted b [⟨op, reads, write⟩] s s' ∧
      s'.graph.registers = s.graph.registers) E := by
  exact .intro_ok (append_eq hb op reads write) ⟨⟨.withInstr hb _, rfl, fun _ h => h, fun h => h⟩, rfl⟩

theorem value_spec (hb : s.graph.hasBlock b = true) (op : Op) (reads : List Register) :
    Spec (value b op reads) s (fun l s' => l.register = some (.virtual s.graph.registers) ∧
      Emitted b [⟨op, reads, some (.virtual s.graph.registers)⟩] s s' ∧
      s'.graph.registers = s.graph.registers + 1) E := by
  refine .bind (newRegister_spec b) ?_
  rintro _ t ⟨rfl, hnew, hcount⟩
  refine .bind (append_spec (hnew.hasBlock_eq b ▸ hb) op reads _) ?_
  rintro _ u ⟨hemit, hsame⟩
  exact .pure ⟨rfl, hnew.trans hemit, hsame.trans hcount⟩

theorem effect_spec (hb : s.graph.hasBlock b = true) (op : Op) (reads : List Register) :
    Spec (effect b op reads) s (fun l s' => l.register = none ∧ Emitted b [⟨op, reads, none⟩] s s' ∧
      s'.graph.registers = s.graph.registers) E := by
  refine .bind (append_spec hb op reads none) ?_
  rintro _ t ⟨hemit, hsame⟩
  exact .pure ⟨rfl, hemit, hsame⟩

theorem registerOf_bind {α : Type} {Q : α → LowerState → Prop} {f : Register → LowerM α} {id : NodeId} {r : Register}
    (h : s.register? id = some r) (hf : Spec (f r) s Q E) : Spec (registerOf id >>= f) s Q E := by
  rw [registerOf, bind_assoc]
  refine .get_bind ?_
  rw [LowerState.register?] at h
  rw [h]
  exact hf

theorem registers_bind {α : Type} {Q : α → LowerState → Prop} {f : List Register → LowerM α} {ids : List NodeId}
    {rs : List Register} (h : ids.mapM s.register? = some rs) (hf : Spec (f rs) s Q E) :
    Spec (ids.mapM registerOf >>= f) s Q E := by
  induction ids generalizing rs f with
  | nil =>
    rw [List.mapM_nil] at h ⊢
    rw [pure_bind, Option.some.inj h]
    exact hf
  | cons id ids ih =>
    rw [List.mapM_cons] at h ⊢
    obtain ⟨r, hr, h⟩ := Option.bind_eq_some_iff.1 h
    obtain ⟨rs', hrs, h⟩ := Option.bind_eq_some_iff.1 h
    obtain rfl := Option.some.inj h
    rw [bind_assoc]
    refine registerOf_bind hr ?_
    simp only [bind_assoc, pure_bind]
    exact ih hrs hf

theorem dataLabel_spec (b : BlockId) (literal : String) :
    Spec (dataLabel literal) s (fun label s' => ⟨label, literal⟩ ∈ s'.data ∧ Emitted b [] s s' ∧
      s'.graph.registers = s.graph.registers) E := by
  refine .get_bind ?_
  cases hfind : s.data.find? (·.value = literal) with
  | some entry =>
    have hvalue : entry.value = literal := by simpa using Array.find?_some hfind
    refine .pure ⟨?_, .refl b s, rfl⟩
    rw [← hvalue]
    exact Array.mem_of_find?_eq_some hfind
  | none =>
    let entry : DataEntry := ⟨labelAt s.labelPrefix s.data.size, literal⟩
    refine .modify_bind (.pure ⟨Array.mem_push_self,
      ⟨.refl b _, rfl, fun _ => Array.mem_push_of_mem entry, fun hlabelled k entry' hk => ?_⟩, rfl⟩)
    rw [Array.getElem?_push] at hk
    split at hk
    · next hsize =>
      obtain rfl := Option.some.inj hk
      rw [hsize]
      rfl
    · exact hlabelled k entry' hk

theorem passArguments_spec (hb : s.graph.hasBlock b = true) (pairs : List (Register × Location)) :
    Spec (pairs.filterMapM fun (source, location) => passArgument b source location) s (fun saved s' =>
      saved = (passing s.graph.registers pairs).2.1 ∧ Emitted b (passing s.graph.registers pairs).1 s s' ∧
      s'.graph.registers = (passing s.graph.registers pairs).2.2) E := by
  induction pairs generalizing s with
  | nil =>
    rw [List.filterMapM_nil]
    exact .pure ⟨rfl, .refl b s, rfl⟩
  | cons pair pairs ih =>
    obtain ⟨source, location⟩ := pair
    rw [List.filterMapM_cons]
    cases location with
    | register r =>
      refine .bind (Q := fun saved t => saved = some ⟨.virtual s.graph.registers, r⟩ ∧
        Emitted b [⟨.move, [r], some (.virtual s.graph.registers)⟩, ⟨.move, [source], some r⟩] s t ∧
        t.graph.registers = s.graph.registers + 1) ?_ ?_
      · refine .bind (newRegister_spec b) ?_
        rintro _ t ⟨rfl, hnew, hcount⟩
        have ht := hnew.hasBlock_eq b ▸ hb
        refine .bind (.discard (append_spec ht .move [r] _)) fun _ u hsave => ?_
        refine .bind (.discard (append_spec (hsave.1.hasBlock_eq b ▸ ht) .move [source] _)) fun _ v hpass => ?_
        exact .pure ⟨rfl, hnew.trans (hsave.1.trans hpass.1), hpass.2.trans (hsave.2.trans hcount)⟩
      · rintro _ t ⟨rfl, hemit, hcount⟩
        refine .bind (ih (hemit.hasBlock_eq b ▸ hb)) ?_
        rintro saved u ⟨rfl, hrest, hnext⟩
        rw [hcount] at hrest hnext
        exact .pure ⟨by rw [hcount]; rfl, hemit.trans hrest, hnext⟩
    | stack offset =>
      refine .bind (Q := fun saved t => saved = none ∧ Emitted b [⟨.storeStack offset, [source], none⟩] s t ∧
        t.graph.registers = s.graph.registers) ?_ ?_
      · refine .bind (.discard (append_spec hb (.storeStack offset) [source] none)) fun _ u hstore => ?_
        exact .pure ⟨rfl, hstore.1, hstore.2⟩
      · rintro _ t ⟨rfl, hemit, hcount⟩
        refine (ih (hemit.hasBlock_eq b ▸ hb)).mono ?_ fun _ he => he
        rintro saved u ⟨rfl, hrest, hnext⟩
        rw [hcount] at hrest hnext
        exact ⟨by rw [hcount]; rfl, hemit.trans hrest, hnext⟩

theorem restore_spec (hb : s.graph.hasBlock b = true) (saved : List Move) :
    Spec (saved.forM fun m => discard <| append b .move [m.source] (some m.target)) s (fun _ s' =>
      Emitted b (saved.map Move.instr) s s' ∧ s'.graph.registers = s.graph.registers) E := by
  refine .forM (P := fun done t => Emitted b (done.map Move.instr) s t ∧ t.graph.registers = s.graph.registers) ?_
    ⟨.refl b s, rfl⟩
  rintro front m rest - t ⟨hemit, hcount⟩
  refine .discard ((append_spec (hemit.hasBlock_eq b ▸ hb) .move [m.source] _).mono ?_ fun _ he => he)
  rintro _ u ⟨hmove, hsame⟩
  rw [List.map_append]
  exact ⟨hemit.trans hmove, hsame.trans hcount⟩

/-- What emitting a node does. -/
def EmitsTo (b : BlockId) (type : ValueType) (op : Ssa.Op) (s : LowerState) (l : Lowered) (s' : LowerState) : Prop :=
  ∃ is, Emitted b is s s' ∧ Emits s.register? s'.data type op s.graph.registers is l.register s'.graph.registers

theorem call_spec (hb : s.graph.hasBlock b = true) (kind : CallKind) (method : Member) {args : List NodeId}
    {sources : List Register} (hargs : args.mapM s.register? = some sources) (type : ValueType) :
    Spec (call b method args type) s (EmitsTo b type (.call kind method args) s) E := by
  apply registers_bind hargs
  refine .bind (passArguments_spec hb (located sources)) ?_
  rintro _ t ⟨rfl, hpass, hnext⟩
  have ht := hpass.hasBlock_eq b ▸ hb
  refine .bind (append_spec ht (.call method) _ _) fun id u hcall => ?_
  have hu := hcall.1.hasBlock_eq b ▸ ht
  have hcount := hcall.2.trans hnext
  by_cases hvoid : type = .void
  · subst hvoid
    rw [show (Location.ofResult? .void).bind (·.register?) = none from rfl] at hcall ⊢
    refine .bind (Q := fun l v => l.register = none ∧ v = u) (.pure ⟨rfl, rfl⟩) ?_
    rintro l _ ⟨hl, rfl⟩
    refine .bind (restore_spec hu _) fun _ v hrestore => ?_
    refine .modify_bind (.pure ⟨_, (hpass.trans (hcall.1.trans hrestore.1)).setStats _, ?_⟩)
    rw [hl]
    change Emits _ _ _ _ _ _ _ v.graph.registers
    rw [hrestore.2, hcount]
    exact .callVoid rfl hargs
  · rw [show (Location.ofResult? type).bind (·.register?) = some .result by
      simp [Location.ofResult?, hvoid, Location.register?]] at hcall ⊢
    refine .bind (value_spec hu .move [.result]) ?_
    rintro l v ⟨hl, hvalue, hregister⟩
    rw [hcount] at hl hvalue hregister
    refine .bind (restore_spec (hvalue.hasBlock_eq b ▸ hu) _) fun _ w hrestore => ?_
    refine .modify_bind (.pure ⟨_, (hpass.trans (hcall.1.trans (hvalue.trans hrestore.1))).setStats _, ?_⟩)
    rw [hl]
    change Emits _ _ _ _ _ _ _ w.graph.registers
    rw [hrestore.2, hregister]
    exact .callValue hvoid hargs

/-- A node whose operands have registers is emitted. -/
theorem emit_spec {node : Ssa.Node} (hb : s.graph.hasBlock node.block = true)
    (hreg : node.op.isMerge = false → ∀ o ∈ node.op.operands, ∃ r, s.register? o = some r) :
    Spec (emit node) s (EmitsTo node.block node.type node.op s) E := by
  obtain ⟨b, type, op⟩ := node
  dsimp only at hb hreg ⊢
  -- Nodes that become one instruction.
  have hvalue : ∀ {mop reads}, (∀ data, Emits s.register? data type op s.graph.registers
      [⟨mop, reads, some (.virtual s.graph.registers)⟩] (some (.virtual s.graph.registers))
      (s.graph.registers + 1)) → Spec (value b mop reads) s (EmitsTo b type op s) E := by
    intro mop reads hemits
    refine (value_spec hb mop reads).mono ?_ fun _ he => he
    rintro l t ⟨hl, hemit, hcount⟩
    exact ⟨_, hemit, by rw [hl, hcount]; exact hemits t.data⟩
  have heffect : ∀ {mop reads}, (∀ data, Emits s.register? data type op s.graph.registers
      [⟨mop, reads, none⟩] none s.graph.registers) → Spec (effect b mop reads) s (EmitsTo b type op s) E := by
    intro mop reads hemits
    refine (effect_spec hb mop reads).mono ?_ fun _ he => he
    rintro l t ⟨hl, hemit, hcount⟩
    exact ⟨_, hemit, by rw [hl, hcount]; exact hemits t.data⟩
  cases op with
  | param index =>
    change Spec (param b index) s _ E
    unfold param
    split
    · next r hloc => exact hvalue fun _ => .paramRegister hloc
    · next offset hloc => exact hvalue fun _ => .paramStack hloc
  | undefined slot =>
    refine .bind (newRegister_spec b) ?_
    rintro _ t ⟨rfl, hnew, hcount⟩
    exact .pure ⟨_, hnew, by rw [hcount]; exact .undefined⟩
  | merge slot args =>
    refine .bind (newRegister_spec b) ?_
    rintro _ t ⟨rfl, hnew, hcount⟩
    exact .pure ⟨_, hnew, by rw [hcount]; exact .merge⟩
  | intConst n => exact hvalue fun _ => .intConst
  | nullConst => exact hvalue fun _ => .nullConst
  | stringConst literal =>
    refine .bind (dataLabel_spec b literal) ?_
    rintro label t ⟨hmem, hdata, hsame⟩
    refine (value_spec (hdata.hasBlock_eq b ▸ hb) (.loadAddress label) []).mono ?_ fun _ he => he
    rintro l u ⟨hl, hemit, hcount⟩
    rw [hsame] at hl hemit hcount
    exact ⟨_, hdata.trans hemit, by rw [hl, hcount]; exact .stringConst (hemit.data _ hmem)⟩
  | arith op opcode lhs rhs =>
    obtain ⟨l, hl⟩ := hreg rfl lhs (by simp [Ssa.Op.operands])
    obtain ⟨r, hr⟩ := hreg rfl rhs (by simp [Ssa.Op.operands])
    apply registerOf_bind hl
    apply registerOf_bind hr
    exact hvalue fun _ => .arith hl hr
  | negate value =>
    obtain ⟨v, hv⟩ := hreg rfl value (by simp [Ssa.Op.operands])
    apply registerOf_bind hv
    exact hvalue fun _ => .negate hv
  | getStatic field => exact hvalue fun _ => .getStatic
  | putStatic field value =>
    obtain ⟨v, hv⟩ := hreg rfl value (by simp [Ssa.Op.operands])
    apply registerOf_bind hv
    exact heffect fun _ => .putStatic hv
  | arrayLoad base offset =>
    obtain ⟨l, hl⟩ := hreg rfl base (by simp [Ssa.Op.operands])
    obtain ⟨r, hr⟩ := hreg rfl offset (by simp [Ssa.Op.operands])
    apply registerOf_bind hl
    apply registerOf_bind hr
    exact hvalue fun _ => .arrayLoad hl hr
  | arrayStore base offset value =>
    obtain ⟨l, hl⟩ := hreg rfl base (by simp [Ssa.Op.operands])
    obtain ⟨r, hr⟩ := hreg rfl offset (by simp [Ssa.Op.operands])
    obtain ⟨v, hv⟩ := hreg rfl value (by simp [Ssa.Op.operands])
    apply registerOf_bind hl
    apply registerOf_bind hr
    apply registerOf_bind hv
    exact heffect fun _ => .arrayStore hl hr hv
  | call kind method args =>
    have hsome : (args.mapM s.register?).isSome = true := by
      apply Ssa.mapM_isSome
      intro o ho
      obtain ⟨r, hr⟩ := hreg rfl o ho
      rw [hr]
      rfl
    obtain ⟨sources, hsources⟩ := Option.isSome_iff_exists.1 hsome
    exact call_spec hb kind method hsources type
  | branch condition lhs rhs taken fallthrough =>
    obtain ⟨l, hl⟩ := hreg rfl lhs (by simp [Ssa.Op.operands])
    obtain ⟨r, hr⟩ := hreg rfl rhs (by simp [Ssa.Op.operands])
    apply registerOf_bind hl
    apply registerOf_bind hr
    exact heffect fun _ => .branch hl hr
  | goto target => exact heffect fun _ => .goto
  | switch value default cases =>
    obtain ⟨v, hv⟩ := hreg rfl value (by simp [Ssa.Op.operands])
    apply registerOf_bind hv
    exact heffect fun _ => .switch hv
  | ret value =>
    cases value with
    | none => exact heffect fun _ => .retVoid
    | some value =>
      obtain ⟨v, hv⟩ := hreg rfl value (by simp [Ssa.Op.operands])
      apply registerOf_bind hv
      refine .bind (.discard (append_spec hb .move [v] _)) fun _ t hmove => ?_
      refine (effect_spec (hmove.1.hasBlock_eq b ▸ hb) .ret _).mono ?_ fun _ he => he
      rintro l u ⟨hl, hemit, hcount⟩
      exact ⟨_, hmove.1.trans hemit, by rw [hl, hcount, hmove.2]; exact .retValue hv⟩
  | raise value =>
    obtain ⟨v, hv⟩ := hreg rfl value (by simp [Ssa.Op.operands])
    apply registerOf_bind hv
    exact heffect fun _ => .raise hv

end LowerM

end Destack.Machine
