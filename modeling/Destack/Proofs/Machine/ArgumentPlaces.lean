import Destack.Proofs.Machine.CallSequence
import Destack.Proofs.Ssa.Errors
import Destack.Proofs.Ssa.Prepared

/-!
# Places of arguments

Three countings have to agree for a call to work: the caller hands out places to actual arguments, one after the other;
the callee looks for its parameters by their index; and its frame has a slot for each, two if it is wide. Both sides go
by the places that an assigner hands out (`Assigner.serveAll_start`, `passesInOrder_passing`,
`LowerM.emit_param`), and the frame starts with every parameter in its first slot (`Ssa.seeded_enter`).

All three count in machine numbers. Offsets are those of consecutive slots up to `2 ^ 29 + 4` arguments and repeat after
`2 ^ 30` slots (`Assigner.nth_eq_ofIndex_iff`, `Assigner.nth_eq_iff`), and a callee numbers parameters in sixteen
bits, so it finds an argument where it was put exactly if its index is below `65536` (`Assigner.nth_low16_iff`).
-/

namespace Destack

/-! ## Assigners -/

namespace Assigner

/-- The offset of a stack slot, in thirty-two bits with a sign. -/
theorem toInt_offset (n : Nat) : (UInt32.ofNat n).toInt32.toInt = (n : Int).bmod (2 ^ 32) :=
  BitVec.toInt_ofNat' n

theorem nth_of_lt {k : Nat} (h : k < 4) : nth k = .register ⟨k⟩ := by
  match k with
  | 0 | 1 | 2 | 3 => rfl

theorem nth_of_le {k : Nat} (h : 4 ≤ k) : nth k = .stack (((4 * (k - 4) : Nat) : Int).bmod (2 ^ 32)) := by
  have hdrop : Register.arguments.drop k = [] := List.drop_eq_nil_of_le h
  rw [nth, assign, after, hdrop, ← toInt_offset]
  rfl

/-- A place that was handed out leads to the next one. -/
theorem assign_after (count : Nat) : assign (after count) = (nth count, after (count + 1)) := by
  refine Prod.ext rfl ?_
  rcases Nat.lt_or_ge count Register.arguments.length with hlt | hge
  · simp only [assign, after, List.drop_eq_getElem_cons hlt, mk.injEq, true_and]
    rw [Nat.sub_eq_zero_of_le hlt.le, Nat.sub_eq_zero_of_le hlt]
  · have hdrop : Register.arguments.drop count = [] := List.drop_eq_nil_of_le hge
    have hdrop' : Register.arguments.drop (count + 1) = [] := List.drop_eq_nil_of_le (hge.trans (Nat.le_succ count))
    simp only [assign, after, hdrop, hdrop', mk.injEq, true_and]
    rw [Nat.sub_add_comm hge, Nat.mul_add, Nat.mul_one, UInt32.ofNat_add]

/-- Two arguments have the same place exactly if their slots are a multiple of `2 ^ 30` apart. -/
theorem nth_eq_iff (i j : Nat) : nth i = nth j ↔ i = j ∨ 4 ≤ i ∧ 4 ≤ j ∧ i % 2 ^ 30 = j % 2 ^ 30 := by
  rcases Nat.lt_or_ge i 4 with hi | hi <;> rcases Nat.lt_or_ge j 4 with hj | hj
  · rw [nth_of_lt hi, nth_of_lt hj, Location.register.injEq, Register.mk.injEq]
    omega
  · rw [nth_of_lt hi, nth_of_le hj]
    exact ⟨nofun, by omega⟩
  · rw [nth_of_le hi, nth_of_lt hj]
    exact ⟨nofun, by omega⟩
  · rw [nth_of_le hi, nth_of_le hj, Location.stack.injEq, Int.bmod_def, Int.bmod_def]
    omega

/-- The place of an argument is the next slot as long as offsets stay positive. -/
theorem nth_eq_ofIndex_iff (k : Nat) : nth k = Location.ofIndex k ↔ k < 2 ^ 29 + 4 := by
  rcases Location.ofIndex_cases k with ⟨hlt, hplace⟩ | ⟨hge, hplace⟩
  · rw [hplace, nth_of_lt hlt]
    exact ⟨fun _ => by omega, fun _ => rfl⟩
  · rw [hplace, nth_of_le hge, Location.stack.injEq, Int.bmod_def]
    omega

/-- Sixteen bits of the index of an argument lead to its place exactly if there are no more. -/
theorem nth_low16_iff {k : Nat} (h : k < 2 ^ 30 + 4) : nth (low16 k) = nth k ↔ k < 65536 := by
  rw [nth_eq_iff, low16]
  omega

/-- What an assigner is asked: a place for the next argument, or to start over. -/
inductive Request where
  | assign
  | reset
deriving DecidableEq, Repr

/-- Serves a request, with the place that is handed out. -/
def serve (a : Assigner) : Request → Option Location × Assigner
  | .assign => (some a.assign.1, a.assign.2)
  | .reset => (none, start)

/-- Serves requests one after the other, with the answers. -/
def serveAll : Assigner → List Request → List (Option Location) × Assigner
  | a, [] => ([], a)
  | a, r :: rs => ((a.serve r).1 :: ((a.serve r).2.serveAll rs).1, ((a.serve r).2.serveAll rs).2)

/-- The number of places asked for since the last reset. -/
def sinceReset (rs : List Request) : Nat :=
  (rs.reverse.takeWhile (· = .assign)).length

theorem sinceReset_assign (rs : List Request) : sinceReset (rs ++ [.assign]) = sinceReset rs + 1 := by
  simp [sinceReset]

theorem sinceReset_reset (rs : List Request) : sinceReset (rs ++ [.reset]) = 0 := by
  simp [sinceReset]

theorem serveAll_append (a : Assigner) (rs rs' : List Request) :
    a.serveAll (rs ++ rs') =
      ((a.serveAll rs).1 ++ ((a.serveAll rs).2.serveAll rs').1, ((a.serveAll rs).2.serveAll rs').2) := by
  induction rs generalizing a with
  | nil => rfl
  | cons r rs ih =>
    rw [List.cons_append, serveAll, ih]
    rfl

theorem length_serveAll (a : Assigner) (rs : List Request) : (a.serveAll rs).1.length = rs.length := by
  induction rs generalizing a with
  | nil => rfl
  | cons r rs ih => exact congrArg Nat.succ (ih _)

/-- After any requests the assigner is where the places since the last reset lead. -/
theorem serveAll_start (rs : List Request) : (start.serveAll rs).2 = after (sinceReset rs) := by
  induction rs using List.reverseRecOn with
  | nil => rfl
  | append_singleton rs r ih =>
    rw [serveAll_append]
    dsimp only
    rw [ih]
    cases r with
    | assign => rw [serveAll, serve, assign_after, sinceReset_assign, serveAll]
    | reset =>
      rw [sinceReset_reset]
      rfl

/-- Requests to a new assigner are served by the calling convention: each place is the one of the argument that comes
next since the last reset, and the stack size is that of the call so far, in thirty-two bits. Up to `2 ^ 29 + 4`
arguments the slots handed out since the last reset lie in the stack area of the call. -/
structure ServesInOrder (rs : List Request) : Prop where
  answer : ∀ before rest, rs = before ++ .assign :: rest →
    (start.serveAll rs).1[before.length]? = some (some (nth (sinceReset before)))
  stackSize_eq : (start.serveAll rs).2.stackSize.toNat = 4 * (sinceReset rs - 4) % 2 ^ 32
  slot : sinceReset rs ≤ 2 ^ 29 + 4 → ∀ k < sinceReset rs, ∀ offset, nth k = .stack offset →
    0 ≤ offset ∧ 4 ∣ offset ∧ offset + 4 ≤ (start.serveAll rs).2.stackSize.toNat

theorem servesInOrder (rs : List Request) : ServesInOrder rs := by
  have hsize : (start.serveAll rs).2.stackSize.toNat = 4 * (sinceReset rs - 4) % 2 ^ 32 := by
    rw [serveAll_start]
    exact UInt32.toNat_ofNat' 
  refine ⟨?_, hsize, fun hfew k hk offset hoffset => ?_⟩
  · rintro before rest rfl
    have hlength := length_serveAll start before
    rw [serveAll_append, ← hlength, List.getElem?_append_right (Nat.le_refl _), Nat.sub_self, serveAll_start, serveAll,
      serve, assign_after]
    rfl
  · rw [hsize]
    rw [(nth_eq_ofIndex_iff k).2 (by omega)] at hoffset
    rcases Location.ofIndex_cases k with ⟨-, hregister⟩ | ⟨hge, hstack⟩
    · cases hregister.symm.trans hoffset
    · obtain rfl := Location.stack.inj (hstack.symm.trans hoffset)
      omega

end Assigner

/-! ## The code of both sides -/

namespace Location

/-- The instruction that puts what a register holds in a place. -/
def put (source : Register) : Location → Machine.Instr
  | .register r => ⟨.move, [source], some r⟩
  | .stack offset => ⟨.storeStack offset, [source], none⟩

/-- The instruction that gets what is in a place into a register. -/
def fetch (target : Register) : Location → Machine.Instr
  | .register r => ⟨.move, [r], some target⟩
  | .stack offset => ⟨.loadStack offset, [], some target⟩

end Location

namespace Machine

/-- Apart from the moves that save registers, arguments are passed by putting each in its place, in order. -/
theorem filter_passing {pairs : List (Register × Location)} (n : Nat)
    (h : ∀ pair ∈ pairs, ∀ r, pair.2 = .register r → r.isVirtual = false) :
    (passing n pairs).1.filter (!·.isSave) = pairs.map fun pair => pair.2.put pair.1 := by
  induction pairs generalizing n with
  | nil => rfl
  | cons pair pairs ih =>
    obtain ⟨hpair, hpairs⟩ := List.forall_mem_cons.1 h
    obtain ⟨source, location⟩ := pair
    cases location with
    | register r =>
      have hr := hpair r rfl
      have hsave := (isSave_mk hr (Register.isVirtual_virtual n)).1
      have hput : (Instr.mk .move [source] (some r)).isSave = false := by
        simp [Instr.isSave, Instr.isTransfer, hr]
      have hcode : (passing n ((source, .register r) :: pairs)).1 = ⟨.move, [r], some (.virtual n)⟩ ::
          ⟨.move, [source], some r⟩ :: (passing (n + 1) pairs).1 := rfl
      rw [hcode, List.filter_cons_of_neg (by simp [hsave]), List.filter_cons_of_pos (by simp [hput]), ih (n + 1) hpairs]
      rfl
    | stack offset =>
      have hcode : (passing n ((source, .stack offset) :: pairs)).1 =
          ⟨.storeStack offset, [source], none⟩ :: (passing n pairs).1 := rfl
      rw [hcode, List.filter_cons_of_pos (by rfl), ih n hpairs]
      rfl

theorem located_eq_zipIdx (sources : List Register) :
    located sources = sources.zipIdx.map fun (source, k) => (source, Location.ofIndex k) := by
  apply List.ext_getElem?
  intro k
  rw [List.getElem?_map, List.getElem?_zipIdx]
  cases hk : sources[k]? with
  | none => simpa [length_located] using hk
  | some source => simp [getElem?_located hk]

/-- A callee finds what its caller left at the call: the physical registers, and the outgoing area as the incoming
one. -/
structure Receives {W : World} (atCall : State W.Value) (m : Setting W) (callee : State W.Value) : Prop where
  register : ∀ r, r.isVirtual = false → callee.regs r = atCall.regs r
  slot : ∀ offset v, atCall.outgoing.lookup offset = some v → m.incoming offset = v

/-- Instructions pass sources in order: each is put in the place of the argument with its index. If the sources are
among the virtual registers handed out then, whatever registers and memory hold, a callee that fetches from that place
gets what the source held. -/
structure PassesInOrder (n : Nat) (sources : List Register) (pass : List Instr) : Prop where
  places : pass.filter (!·.isSave) = sources.zipIdx.map fun (source, k) => (Assigner.nth k).put source
  values : (∀ source ∈ sources, source.HandedOut n) → ∀ (W : World) (m : Setting W) (before : State W.Value),
    ∃ atCall, executeAll W m pass before = pure atCall ∧
      ∀ k source, sources[k]? = some source → ∀ (m' : Setting W) (callee : State W.Value), Receives atCall m' callee →
        ∀ target, executeAll W m' [(Assigner.nth k).fetch target] callee =
          pure (callee.write target (before.regs source))

theorem passesInOrder_passing (n : Nat) {sources : List Register} (hfew : sources.length ≤ 2 ^ 29 + 4) :
    PassesInOrder n sources (passing n (located sources)).1 := by
  have hnth : ∀ {k source}, sources[k]? = some source → Assigner.nth k = Location.ofIndex k := by
    intro k source hk
    exact (Assigner.nth_eq_ofIndex_iff k).2 (Nat.lt_of_lt_of_le (List.getElem?_eq_some_iff.1 hk).1 hfew)
  constructor
  · rw [filter_passing n fun pair hpair => (mem_located hpair).2, located_eq_zipIdx, List.map_map]
    refine List.map_congr_left fun pair hpair => ?_
    exact congrArg (Location.put pair.1) (hnth (List.mem_zipIdx_iff_getElem?.1 hpair)).symm
  · intro h W m before
    obtain ⟨atCall, hrun, hdelivers, -⟩ := executeAll_around m h .void before
    refine ⟨atCall, hrun, fun k source hk m' callee hreceives target => ?_⟩
    have hvalue : (sources.map before.regs)[k]? = some (before.regs source) := by rw [List.getElem?_map, hk]; rfl
    rw [hnth hk]
    rcases Location.ofIndex_cases k with ⟨hlt, hplace⟩ | ⟨hge, hplace⟩
    · have hregister := hdelivers.register k _ hlt hvalue
      rw [hplace, ← hregister, ← hreceives.register ⟨k⟩ (Location.isVirtual_of_ofIndex hplace)]
      rfl
    · have hslot := hreceives.slot _ _ (hdelivers.slot k _ hge hvalue)
      rw [hplace, ← hslot]
      rfl

/-- A call passes its arguments in order, as long as there is a slot for each. -/
theorem LowerM.emit_call {s : LowerState} {b : BlockId} (hb : s.graph.hasBlock b = true) (type : ValueType)
    (kind : CallKind) (method : Member) {args : List NodeId} {sources : List Register}
    (hargs : args.mapM s.register? = some sources) (hfew : sources.length ≤ 2 ^ 29 + 4) :
    ∃ l t pass reads after, LowerM.emit ⟨b, type, .call kind method args⟩ s = .ok l t ∧
      Emitted b (pass ++ ⟨.call method, reads, resultOf type⟩ :: after) s t ∧
      PassesInOrder s.graph.registers sources pass := by
  obtain ⟨l, t, hok, is, hemitted, hemits⟩ := (LowerM.call_spec hb kind method hargs type).exists_ok
  obtain ⟨rfl, -, -⟩ := hemits.call_eq hargs
  rw [callCode_eq] at hemitted
  exact ⟨l, t, _, _, _, hok, hemitted, passesInOrder_passing _ hfew⟩

/-- A parameter is fetched from the place of the argument with its index. -/
theorem LowerM.emit_param {s : LowerState} {b : BlockId} (hb : s.graph.hasBlock b = true) (type : ValueType) {k : Nat}
    (hk : k < 65536) :
    ∃ l t target, LowerM.emit ⟨b, type, .param k⟩ s = .ok l t ∧ l.register = some target ∧
      Emitted b [(Assigner.nth k).fetch target] s t := by
  rw [(Assigner.nth_eq_ofIndex_iff k).2 (by omega)]
  have hspec : Pass.Spec (LowerM.param b k) s (fun l t => ∃ target, l.register = some target ∧
      Emitted b [(Location.ofIndex k).fetch target] s t) fun _ => False := by
    have hvalue : ∀ op reads, Pass.Spec (LowerM.value b op reads) s (fun l t => ∃ target, l.register = some target ∧
        Emitted b [⟨op, reads, some target⟩] s t) fun _ => False := fun op reads =>
      (LowerM.value_spec hb op reads).mono (fun l t h => ⟨_, h.1, h.2.1⟩) fun _ he => he
    unfold LowerM.param
    cases Location.ofIndex k with
    | register r => exact hvalue _ _
    | stack offset => exact hvalue _ _
  obtain ⟨l, t, hok, target, hl, hemitted⟩ := hspec.exists_ok
  exact ⟨l, t, target, hok, hl, hemitted⟩

end Machine

/-! ## The frame of the callee -/

namespace Ssa

/-- The node in a local slot. -/
def BuildState.local? (s : BuildState) (slot : Nat) : Option Node :=
  s.frame.locals[slot]?.bind s.graph.node?

/-- Where the slots are numbered like the nodes, a slot holds the node of its cell. -/
theorem After.local?_eq {s t : BuildState} {cells : List Cell}
    (h : After s cells (seedFrame s.graph.nodes.size cells.length) t) (slot : Nat) :
    t.local? slot = cells[slot]?.map (Cell.nodeIn s.block) := by
  rw [BuildState.local?, h.frame_eq, h.graph_eq, seedFrame, List.getElem?_toArray]
  rcases Nat.lt_or_ge slot cells.length with hlt | hge
  · rw [List.getElem?_range' hlt, Option.bind_some, Nat.one_mul, Graph.node?_emitted]
  · rw [List.getElem?_eq_none (by simpa using hge), List.getElem?_eq_none hge]
    rfl

/-- The number of receivers of a method, which is also the number of slots they take. -/
def receivers (isStatic : Bool) : Nat :=
  if isStatic then 0 else 1

/-- The frame of a method at its start, with a number for each parameter and slot: the receiver, if there is one, each
parameter in its first slot, and a placeholder with the number of its slot in every other one. -/
structure Seeded (number : Nat → Nat) (m : Method) (type : MethodType) (t : BuildState) : Prop where
  size_eq : t.frame.locals.size = max m.maxLocals (receivers m.isStatic + (type.params.map (·.slots)).sum)
  stack_eq : t.frame.stack = []
  receiver : m.isStatic = false → t.local? 0 = some ⟨Graph.entry, .reference, .param 0⟩
  param : ∀ j formal, type.params[j]? = some formal →
    t.local? (receivers m.isStatic + StackCode.firstSlot type.params j) =
      some ⟨Graph.entry, formal.onStack, .param (number (receivers m.isStatic + j))⟩
  rest : ∀ slot < t.frame.locals.size, (m.isStatic = false → slot ≠ 0) →
    (∀ j < type.params.length, slot ≠ receivers m.isStatic + StackCode.firstSlot type.params j) →
    t.local? slot = some ⟨Graph.entry, .void, .undefined (number slot)⟩

/-- Sixteen bits are all of the number of a slot, if the frame has no more than they tell apart. -/
theorem Seeded.of_low16 {m : Method} {type : MethodType} {t : BuildState} (h : Seeded low16 m type t)
    (hvoid : ∀ param ∈ type.params, param ≠ .void) (hsize : t.frame.locals.size ≤ 65536) : Seeded id m type t := by
  have hlow : ∀ {slot}, slot < t.frame.locals.size → low16 slot = slot := fun hslot =>
    low16_of_lt (Nat.lt_of_lt_of_le hslot hsize)
  refine ⟨h.size_eq, h.stack_eq, h.receiver, fun j formal hj => ?_, fun slot hslot hreceiver hparams => ?_⟩
  · -- A parameter has no higher number than its slot.
    have hslot := StackCode.firstSlot_lt hvoid hj
    have hindex := StackCode.le_firstSlot hvoid hj
    rw [h.param j formal hj, id, hlow]
    rw [h.size_eq]
    omega
  · rw [h.rest slot hslot hreceiver hparams, hlow hslot, id]

/-- The slot of a formal parameter, the receiver counted apart. -/
theorem firstSlot_formals (c : Context) (j : Nat) :
    StackCode.firstSlot c.formals (receivers c.isStatic + j) =
      receivers c.isStatic + StackCode.firstSlot c.type.params j := by
  unfold Context.formals receivers
  cases c.isStatic with
  | true => simp
  | false => simp [Nat.add_comm 1 j, ValueType.slots]

theorem getElem?_formals (c : Context) (j : Nat) : c.formals[receivers c.isStatic + j]? = c.type.params[j]? := by
  unfold Context.formals receivers
  cases c.isStatic with
  | true => simp
  | false => simp [Nat.add_comm 1 j]

/-- A formal parameter is the receiver or one of those that the descriptor lists. -/
theorem eq_of_lt_length_formals {c : Context} {p : Nat} (h : p < c.formals.length) :
    c.isStatic = false ∧ p = 0 ∨ ∃ j < c.type.params.length, p = receivers c.isStatic + j := by
  unfold Context.formals at h
  unfold receivers
  cases hstatic : c.isStatic with
  | true =>
    rw [hstatic, if_pos rfl] at h
    exact Or.inr ⟨p, h, (Nat.zero_add p).symm⟩
  | false =>
    rw [hstatic, if_neg (by decide), List.length_cons] at h
    cases p with
    | zero => exact Or.inl ⟨rfl, rfl⟩
    | succ j => exact Or.inr ⟨j, Nat.lt_of_succ_lt_succ h, Nat.add_comm j 1⟩

/-- The frame has a slot for each that the method asks for and each that a parameter takes. -/
theorem length_seedCells_frameSize (pool : ConstantPool) (m : Method) {type : MethodType}
    (hvoid : ∀ formal ∈ (Context.mk pool m.isStatic type).formals, formal ≠ .void) :
    (seedCells (Context.mk pool m.isStatic type).formals (frameSize m type)).length =
      max m.maxLocals (receivers m.isStatic + (type.params.map (·.slots)).sum) := by
  have hlength := length_paramCells hvoid 0 0
  have hsum : ((Context.mk pool m.isStatic type).formals.map (·.slots)).sum =
      receivers m.isStatic + (type.params.map (·.slots)).sum := by
    unfold Context.formals receivers
    cases m.isStatic with
    | true => exact (Nat.zero_add _).symm
    | false => rfl
  have hlow := low16_le (type.params.map (·.slots)).sum
  have hframe : frameSize m type = max m.maxLocals (receivers m.isStatic + low16 (type.params.map (·.slots)).sum) := by
    rw [frameSize, paramSlots_eq, Nat.add_comm]
    rfl
  unfold seedCells undefinedCells
  simp only [List.length_append, List.length_map, List.length_range', hlength, hsum, hframe]
  omega

/-- Every method starts with its frame seeded. -/
theorem seeded_enter (pool : ConstantPool) (m : Method) {type : MethodType}
    (htype : MethodType.ofDescriptor m.descriptor = .ok type) {s : BuildState}
    (hs : s.graph.hasBlock Graph.entry = true) :
    ∃ t, BuildM.enter ⟨pool, m.isStatic, type⟩ (frameSize m type) Graph.entry s = .ok () t ∧
      Seeded low16 m type t := by
  let c : Context := ⟨pool, m.isStatic, type⟩
  let s₀ : BuildState := { s with block := Graph.entry, frame := Frame.empty }
  have hs₀ : s₀.graph.hasBlock s₀.block = true := hs
  have hvoid : ∀ formal ∈ c.formals, formal ≠ .void := ne_void_formals htype pool m.isStatic
  have hlength := length_seedCells_frameSize pool m hvoid
  obtain ⟨⟨⟩, t, henter, -⟩ := (enterEntry_stays hs₀ c (frameSize m type)).exists_ok
  have hafter := enterEntry_ok rfl henter
  refine ⟨t, henter, ?_⟩
  have hlocal := hafter.local?_eq
  have hsize : t.frame.locals.size = (seedCells c.formals (frameSize m type)).length := by
    rw [hafter.frame_eq]
    simp [seedFrame]
  refine ⟨hsize.trans hlength, ?_, fun hstatic => ?_, fun j formal hj => ?_,
    fun slot hslot hreceiver hparams => ?_⟩
  · rw [hafter.frame_eq]
    rfl
  · have hfirst : c.formals[0]? = some .reference := by simp [c, Context.formals, hstatic]
    have hcell := getElem?_seedCells hvoid hfirst (frameSize m type)
    rw [StackCode.firstSlot_zero] at hcell
    rw [hlocal, hcell]
    rfl
  · have hcell := getElem?_seedCells hvoid ((getElem?_formals c j).trans hj) (frameSize m type)
    rw [firstSlot_formals] at hcell
    rw [hlocal, hcell]
    rfl
  · have hcell := getElem?_seedCells_of_ne hvoid (hsize ▸ hslot) ?_
    · rw [hlocal, hcell]
      rfl
    · intro p hp
      rcases eq_of_lt_length_formals hp with ⟨hstatic, rfl⟩ | ⟨j, hj, rfl⟩
      · rw [StackCode.firstSlot_zero]
        exact (hreceiver hstatic).symm
      · rw [firstSlot_formals]
        exact (hparams j hj).symm

/-! ## Calls -/

/-- How a method is called. -/
def kindOf (isStatic : Bool) : CallKind :=
  if isStatic then .static else .special

theorem callCount_eq (isStatic : Bool) (type : MethodType) :
    type.arity + (if kindOf isStatic = .special then 1 else 0) = receivers isStatic + type.params.length := by
  cases isStatic
  · exact Nat.add_comm _ _
  · exact (Nat.zero_add _).symm

theorem Translates.call_cells {c : Context} {at? : Int → Option BlockId} {i : Instruction} {n : NodeId}
    {kind : CallKind} {index : Nat} {f f' : Frame} {cells : List Cell}
    (h : Translates c at? i n (.call kind index) f cells f')
    {method : Member} {type : MethodType} (hmethod : c.pool.method index = .ok method)
    (htype : MethodType.ofDescriptor method.descriptor = .ok type) :
    cells = [(type.result.onStack,
      .call kind method (f.stack.take (type.arity + (if kind = .special then 1 else 0))).reverse)] := by
  cases h with
  | call hmethod' htype' hcount _ =>
    obtain rfl := Except.ok.inj (hmethod.symm.trans hmethod')
    obtain rfl := Except.ok.inj (htype.symm.trans htype')
    rw [hcount]

/-- A call takes the actual arguments from the stack in the order in which they were pushed. -/
theorem call_of_actuals {c : Context} {index : Nat} {method : Member} {type : MethodType}
    (hmethod : c.pool.method index = .ok method) (htype : MethodType.ofDescriptor method.descriptor = .ok type)
    (i : Instruction) (isStatic : Bool) {s : BuildState} {actuals below : List NodeId}
    (hs : s.graph.hasBlock s.block = true) (hstack : s.frame.stack = actuals.reverse ++ below)
    (hcount : actuals.length = receivers isStatic + type.params.length) :
    ∃ t, BuildM.call c i (kindOf isStatic) index s = .ok () t ∧
      t.graph.node? s.graph.nodes.size =
        some ⟨s.block, type.result.onStack, .call (kindOf isStatic) method actuals⟩ := by
  have hsucceeds : Pass.Spec (BuildM.call c i (kindOf isStatic) index) s (fun _ _ => True) fun _ => False := by
    refine .lift_bind hmethod (.lift_bind htype (.get_bind ?_))
    dsimp only
    rw [callCount_eq, ← hcount, hstack, if_neg (by simp)]
    refine .modify_bind (.bind (emitWith_stays (by exact hs) _ _) fun id t _ => ?_)
    split
    · exact .modify trivial
    · exact .pure trivial
  obtain ⟨⟨⟩, t, hok, -⟩ := hsucceeds.exists_ok
  refine ⟨t, hok, ?_⟩
  obtain ⟨cells, f', htranslates, hafter⟩ := (After.refl s).call hok
  obtain rfl := htranslates.call_cells hmethod htype
  have hactuals : (s.frame.stack.take (type.arity + (if kindOf isStatic = .special then 1 else 0))).reverse =
      actuals := by
    rw [callCount_eq, ← hcount, hstack]
    simp
  rw [hafter.graph_eq, hactuals]
  exact Graph.node?_emitted s.graph s.block _ 0

end Ssa

namespace Machine

/-- A method and its callers agree on where arguments are. A call is built of the actual arguments in the order in which
they were pushed, the receiver first; in its code each is put in the place of the argument with its index; the code of
the method fetches each parameter from the place of the argument with its index; and its frame starts with each
parameter in its first slot. Numbers in the frame have sixteen bits: they are the indices and slots themselves if there
are no more than `65536` slots, and otherwise a parameter from index `65536` on is fetched from a place where no caller
put it. -/
structure CallsAgree (m : Method) (type : MethodType) : Prop where
  built : ∀ (c : Ssa.Context) (i : Instruction) (index : Nat) (member : Member) (s : Ssa.BuildState)
    (actuals below : List NodeId), c.pool.method index = .ok member → member.descriptor = m.descriptor →
    s.graph.hasBlock s.block = true → s.frame.stack = actuals.reverse ++ below →
    actuals.length = Ssa.receivers m.isStatic + type.params.length →
    ∃ t, Ssa.BuildM.call c i (Ssa.kindOf m.isStatic) index s = .ok () t ∧
      t.graph.node? s.graph.nodes.size =
        some ⟨s.block, type.result.onStack, .call (Ssa.kindOf m.isStatic) member actuals⟩
  passed : ∀ (s : LowerState) (b : BlockId) (member : Member) (actuals : List NodeId) (sources : List Register),
    s.graph.hasBlock b = true → actuals.mapM s.register? = some sources → sources.length ≤ 2 ^ 29 + 4 →
    ∃ l t pass reads after,
      LowerM.emit ⟨b, type.result.onStack, .call (Ssa.kindOf m.isStatic) member actuals⟩ s = .ok l t ∧
      Emitted b (pass ++ ⟨.call member, reads, resultOf type.result.onStack⟩ :: after) s t ∧
      PassesInOrder s.graph.registers sources pass
  fetched : ∀ (s : LowerState) (b : BlockId) (formal : ValueType), ∀ k < 65536, s.graph.hasBlock b = true →
    ∃ l t target, LowerM.emit ⟨b, formal, .param k⟩ s = .ok l t ∧ l.register = some target ∧
      Emitted b [(Assigner.nth k).fetch target] s t
  seeded : ∀ (pool : ConstantPool) (s : Ssa.BuildState), s.graph.hasBlock Graph.entry = true →
    ∃ t, Ssa.BuildM.enter ⟨pool, m.isStatic, type⟩ (Ssa.frameSize m type) Graph.entry s = .ok () t ∧
      Ssa.Seeded low16 m type t ∧ (t.frame.locals.size ≤ 65536 → Ssa.Seeded id m type t)
  found : ∀ k < Ssa.receivers m.isStatic + type.params.length, k < 2 ^ 30 + 4 →
    (Assigner.nth (low16 k) = Assigner.nth k ↔ k < 65536)

/-- Callers and callees agree on argument locations as far as their numbers reach. Whatever is asked of a new assigner,
each place that it hands out is the one of the argument that comes next since the last reset, and its stack size is that
of the call so far, in thirty-two bits. Two arguments share a place exactly if their slots are a multiple of `2 ^ 30`
apart, and the place is the next slot of the stack area up to `2 ^ 29 + 4` arguments. A method with a valid descriptor
agrees with its callers, whether it has a receiver or not, on all arguments with an index below `65536`. -/
theorem callers_and_callees_agree {m : Method} {type : MethodType}
    (htype : MethodType.ofDescriptor m.descriptor = .ok type) (requests : List Assigner.Request) :
    Assigner.ServesInOrder requests ∧
    (∀ i j, Assigner.nth i = Assigner.nth j ↔ i = j ∨ 4 ≤ i ∧ 4 ≤ j ∧ i % 2 ^ 30 = j % 2 ^ 30) ∧
    (∀ k, Assigner.nth k = Location.ofIndex k ↔ k < 2 ^ 29 + 4) ∧ CallsAgree m type := by
  refine ⟨Assigner.servesInOrder requests, Assigner.nth_eq_iff, Assigner.nth_eq_ofIndex_iff, ?_, ?_, ?_, ?_, ?_⟩
  · intro c i index member s actuals below hmember hdescriptor hs hstack hcount
    exact Ssa.call_of_actuals hmember (hdescriptor ▸ htype) i m.isStatic hs hstack hcount
  · intro s b member actuals sources hb hactuals hfew
    exact LowerM.emit_call hb _ _ member hactuals hfew
  · intro s b formal k hk hb
    exact LowerM.emit_param hb formal hk
  · intro pool s hs
    obtain ⟨t, henter, hseeded⟩ := Ssa.seeded_enter pool m htype hs
    exact ⟨t, henter, hseeded, hseeded.of_low16 (ne_void_of_ofDescriptor htype)⟩
  · exact fun k _ hk => Assigner.nth_low16_iff hk

/-- A method with a receiver and wide parameters, the last two of which go to the stack. -/
def weigh : Method where
  owner := "Scales"
  name := "weigh"
  descriptor := "(IJDLScales;Z)J"
  isStatic := false
  maxLocals := 9
  code := []

def weighType : MethodType := ⟨[.int, .long, .double, .reference, .boolean], .long⟩

/-- The method as a caller names it. -/
def weighMember : Member := ⟨weigh.owner, weigh.name, weigh.descriptor⟩

/-- A caller that has pushed six actual arguments above one other value. -/
def weighing : Ssa.BuildState where
  graph := sixValues.graph
  stats := {}
  frame := ⟨#[], [1, 2, 3, 3, 0, 5, 4]⟩

theorem weigh_and_callers_agree :
    MethodType.ofDescriptor weigh.descriptor = .ok weighType ∧
    (Assigner.start.serveAll [.assign, .reset, .assign, .assign, .assign, .assign, .assign, .assign]).1[7]? =
      some (some (.stack 4)) ∧
    (∃ t, Ssa.BuildM.call ⟨.ofList [(7, .method weighMember)], true, weighType⟩ ⟨0, 183, #[0, 7], false⟩ .special 7
        weighing = .ok () t ∧
      t.graph.node? 0 = some ⟨Graph.entry, .long, .call .special weighMember [5, 0, 3, 3, 2, 1]⟩) ∧
    (∃ l t pass reads after, LowerM.emit ⟨0, .long, .call .special weighMember [5, 0, 3, 3, 2, 1]⟩ sixValues = .ok l t ∧
      Emitted 0 (pass ++ ⟨.call weighMember, reads, some .result⟩ :: after) sixValues t ∧
      pass.filter (!·.isSave) =
        [⟨.move, [.virtual 5], some ⟨0⟩⟩, ⟨.move, [.virtual 0], some ⟨1⟩⟩, ⟨.move, [.virtual 3], some ⟨2⟩⟩,
          ⟨.move, [.virtual 3], some ⟨3⟩⟩, ⟨.storeStack 0, [.virtual 2], none⟩,
          ⟨.storeStack 4, [.virtual 1], none⟩]) ∧
    (∃ l t target, LowerM.emit ⟨0, .int, .param 5⟩ sixValues = .ok l t ∧ l.register = some target ∧
      Emitted 0 [⟨.loadStack 4, [], some target⟩] sixValues t) ∧
    ∃ t, Ssa.BuildM.enter ⟨.empty, false, weighType⟩ (Ssa.frameSize weigh weighType) Graph.entry weighing = .ok () t ∧
      t.frame.locals.size = 9 ∧ t.local? 0 = some ⟨Graph.entry, .reference, .param 0⟩ ∧
      t.local? 7 = some ⟨Graph.entry, .int, .param 5⟩ ∧ t.local? 5 = some ⟨Graph.entry, .void, .undefined 5⟩ := by
  have htype : MethodType.ofDescriptor weigh.descriptor = .ok weighType := by cbv
  obtain ⟨hserves, -, -, hagree⟩ := callers_and_callees_agree htype
    [.assign, .reset, .assign, .assign, .assign, .assign, .assign, .assign]
  refine ⟨htype, hserves.answer [.assign, .reset, .assign, .assign, .assign, .assign, .assign] [] rfl, ?_, ?_, ?_, ?_⟩
  · exact hagree.built _ _ 7 weighMember weighing [5, 0, 3, 3, 2, 1] [4] rfl rfl
      (by decide +kernel) rfl rfl
  · obtain ⟨l, t, pass, reads, after, hok, hemitted, hpass⟩ := hagree.passed sixValues 0 weighMember [5, 0, 3, 3, 2, 1]
      [.virtual 5, .virtual 0, .virtual 3, .virtual 3, .virtual 2, .virtual 1] (by decide +kernel) (by decide +kernel)
      (by decide)
    exact ⟨l, t, pass, reads, after, hok, hemitted, hpass.places⟩
  · exact hagree.fetched sixValues 0 .int 5 (by decide) (by decide +kernel)
  · obtain ⟨t, hok, hseeded, hexact⟩ := hagree.seeded .empty weighing (by decide +kernel)
    have hsize : t.frame.locals.size = 9 := hseeded.size_eq
    replace hexact := hexact (by rw [hsize]; decide)
    refine ⟨t, hok, hsize, hexact.receiver rfl, hexact.param 4 .boolean rfl, ?_⟩
    exact hexact.rest 5 (by rw [hsize]; decide) (by decide) (by decide)

/-- A method with more parameters than sixteen bits number. -/
def crowd : Method where
  owner := "Crowd"
  name := "count"
  descriptor := String.ofList ('(' :: (List.replicate 65537 'I' ++ [')', 'V']))
  isStatic := true
  maxLocals := 0
  code := [0xb1]

/-- The last parameter of `crowd` is fetched from the first register, while a caller puts it on the stack; and far along
the stack area an argument is put below the stack pointer. -/
theorem crowd_parameter_out_of_place :
    ∃ type t, MethodType.ofDescriptor crowd.descriptor = .ok type ∧
      Ssa.BuildM.enter ⟨.empty, true, type⟩ (Ssa.frameSize crowd type) Graph.entry weighing = .ok () t ∧
      t.local? 65536 = some ⟨Graph.entry, .int, .param 0⟩ ∧ Assigner.nth 0 = .register ⟨0⟩ ∧
      Assigner.nth 65536 = .stack 262128 ∧ Assigner.nth 536870916 = .stack (-2147483648) := by
  have htype := MethodType.ofDescriptor_ints 65537
  obtain ⟨t, henter, hseeded⟩ := Ssa.seeded_enter .empty crowd htype (s := weighing) (by decide +kernel)
  have hint : (List.replicate 65537 ValueType.int)[65536]? = some .int := List.getElem?_replicate_of_lt (by decide)
  have hparam := hseeded.param 65536 .int hint
  have hslot := StackCode.firstSlot_ints (show 65536 ≤ 65537 by decide)
  have hlocal : t.local? 65536 = some ⟨Graph.entry, .int, .param (low16 65536)⟩ := by
    simpa only [hslot, crowd, Ssa.receivers, if_true, Nat.zero_add, ValueType.onStack] using hparam
  exact ⟨_, t, htype, henter, hlocal, rfl, Assigner.nth_of_le (by decide), Assigner.nth_of_le (by decide)⟩

end Machine

end Destack
