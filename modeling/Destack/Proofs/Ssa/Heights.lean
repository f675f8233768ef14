import Destack.Proofs.Ssa.Availability

/-!
# Heights of the operand stack

A footprint says what an instruction takes from the operand stack, what it puts there, and which local slot it uses.
The heights along a sequence of instructions are then numbers, and there are none where an instruction finds too few
operands or no such slot. The frames that nodes are built on have these heights (`TranslatesAll.heightThrough`), and
they are the same at both ends of an edge. So a method that was built has a height for each instruction, whichever way
control comes there, and no run along any path lacks an operand or a slot (`Level`).
-/

namespace Destack

namespace StackCode

/-- What an instruction needs of a frame and does to its operand stack. -/
structure Footprint where
  takes : Nat
  gives : Nat
  /-- The local slot that is read or written. -/
  slot : Option Nat := none
deriving DecidableEq, Repr

/-- The footprint of an instruction with an effect. A call has the one of its method's descriptor. -/
def footprint? (pool : ConstantPool) (i : Instruction) : Effect → Option Footprint
  | .nop | .jump | .returnVoid => some ⟨0, 0, none⟩
  | .pushNull | .pushInt _ | .pushByte | .pushShort | .pushConstant | .pushConstantWide | .getStatic =>
    some ⟨0, 1, none⟩
  | .pop | .branchZero _ | .branchNull _ | .switch | .returnValue | .raise | .putStatic => some ⟨1, 0, none⟩
  | .negate => some ⟨1, 1, none⟩
  | .dup => some ⟨1, 2, none⟩
  | .branchPair _ => some ⟨2, 0, none⟩
  | .arith _ | .arrayLoadInt | .arrayLoadReference => some ⟨2, 1, none⟩
  | .swap => some ⟨2, 2, none⟩
  | .arrayStore => some ⟨3, 0, none⟩
  | .load slot => some ⟨0, 1, some (slot.getD (slotOperand i))⟩
  | .store slot => some ⟨1, 0, some (slot.getD (slotOperand i))⟩
  | .increment => some ⟨0, 0, some (slotOperand i)⟩
  | .call kind => do
    let method ← (pool.method (i.halfAt 0)).toOption
    let type ← (MethodType.ofDescriptor method.descriptor).toOption
    return ⟨argCount kind type, if type.result = .void then 0 else 1, none⟩

/-- Height of the operand stack after an instruction, if a frame of a size has what it needs. -/
def heightAfter? (pool : ConstantPool) (frameSize height : Nat) (i : Instruction) : Option Nat := do
  let fp ← (meaning? i).bind (footprint? pool i)
  if fp.takes ≤ height ∧ ∀ slot ∈ fp.slot, slot < frameSize then some (height - fp.takes + fp.gives) else none

/-- Height after instructions one after the other, if the frame always has what they need. -/
def heightThrough? (pool : ConstantPool) (frameSize : Nat) : Nat → List Instruction → Option Nat :=
  List.foldlM (heightAfter? pool frameSize)

/-- Runs instructions one after the other, wherever they lead. -/
def runThrough (W : World) (pool : ConstantPool) : State W.Value → List Instruction → Exec W (State W.Value) :=
  List.foldlM fun s i => do execute W pool i s (← Exec.need (meaning? i))

/-- A state has as many operands and local slots as a frame. -/
structure Shaped {V : Type} (f : Frame) (s : State V) : Prop where
  stack : s.stack.length = f.depth
  locals : s.locals.length = f.locals.size

theorem exists_pop {α : Type} {xs : List α} {n : Nat} (h : xs.length = n + 1) :
    ∃ x rest, xs = x :: rest ∧ rest.length = n := by
  obtain ⟨x, rest, rfl⟩ := List.exists_cons_of_length_eq_add_one h
  exact ⟨x, rest, rfl, by simpa using h⟩

end StackCode

namespace Ssa

open StackCode

/-! ## Instructions -/

section Instructions

variable {W : World} {c : Context} {at? : Int → Option BlockId} {i : Instruction} {n : NodeId} {f f' : Frame}
  {ns : List Cell} {effect : Effect}

/-- The height after an instruction whose footprint fits. -/
theorem heightAfter?_eq {pool : ConstantPool} {frameSize height : Nat} {fp : Footprint}
    (hmeaning : meaning? i = some effect) (hfp : footprint? pool i effect = some fp) (htakes : fp.takes ≤ height)
    (hslot : ∀ slot ∈ fp.slot, slot < frameSize) :
    heightAfter? pool frameSize height i = some (height - fp.takes + fp.gives) := by
  simp only [heightAfter?, hmeaning, Option.bind_some, hfp, Option.bind_eq_bind]
  rw [if_pos ⟨htakes, hslot⟩]

theorem Translates.pushInt_eq {value : Int} (h : Translates c at? i n (.pushInt value) f ns f') : f' = push f n := by
  cases h
  rfl

/-- The frames before and after an instruction have its heights. -/
theorem Translates.heightAfter (h : Translates c at? i n (i.act effect) f ns f') (hmeaning : meaning? i = some effect) :
    heightAfter? c.pool f.locals.size f.depth i = some f'.depth ∧ f'.locals.size = f.locals.size := by
  cases effect with
  | call kind =>
    cases h with
    | @call ls st _ _ count method type hmethod htype hcount hle =>
      have hkind : argCount kind type = count := by
        rw [hcount]
        cases kind <;> rfl
      have hfp : footprint? c.pool i (.call kind) =
          some ⟨count, if type.result = .void then 0 else 1, none⟩ := by
        simp [footprint?, hmethod, htype, Except.toOption, hkind]
      refine ⟨(heightAfter?_eq hmeaning hfp hle (by simp)).trans ?_, rfl⟩
      by_cases hvoid : type.result = .void <;> simp [Frame.depth, MethodType.returnsValue, hvoid]
  | load slot =>
    cases h with
    | load hslot =>
      obtain ⟨hlt, -⟩ := Array.getElem?_eq_some_iff.1 hslot
      rw [heightAfter?_eq hmeaning rfl (Nat.zero_le _) (by simpa [i.slotOperand_eq] using hlt)]
      exact ⟨rfl, rfl⟩
  | store slot =>
    cases h with
    | store hlt =>
      rw [heightAfter?_eq hmeaning rfl (by simp [Frame.depth]) (by simpa [i.slotOperand_eq] using hlt)]
      exact ⟨rfl, by simp⟩
  | increment =>
    cases h with
    | increment hslot =>
      obtain ⟨hlt, -⟩ := Array.getElem?_eq_some_iff.1 hslot
      rw [heightAfter?_eq hmeaning rfl (Nat.zero_le _) (by simpa [i.slotOperand_eq] using hlt)]
      exact ⟨rfl, by simp⟩
  | pushInt | pushByte | pushShort =>
    obtain rfl := h.pushInt_eq
    rw [heightAfter?_eq hmeaning rfl (Nat.zero_le _) (by simp)]
    exact ⟨rfl, rfl⟩
  | _ =>
    cases h <;>
    · rw [heightAfter?_eq hmeaning rfl (by simp [Frame.depth]) (by simp)]
      exact ⟨rfl, rfl⟩

theorem goTo_safe {target : Int} {locals stack : List W.Value} (htarget : 0 ≤ target)
    (h : Shaped f' (State.mk 0 locals stack)) : Exec.Safe (Shaped f') (goTo W target locals stack) := by
  cases target with
  | ofNat a => exact .pure ⟨h.stack, h.locals⟩
  | negSucc a => exact absurd htarget (by omega)

theorem choose_safe {condition : Condition} {lhs rhs : W.Value} {target next : Int} {locals stack : List W.Value}
    (htarget : 0 ≤ target) (hnext : 0 ≤ next) (h : Shaped f' (State.mk 0 locals stack)) :
    Exec.Safe (Shaped f') (goTo W (W.choose condition lhs rhs target next) locals stack) := by
  unfold World.choose
  split
  · exact goTo_safe htarget h
  · exact goTo_safe hnext h

theorem elementAddress_safe (array index : W.Value) : Exec.Safe (fun _ => True) (elementAddress W array index) :=
  .bind (.arith _ _ _) fun _ _ => .bind (.arith _ _ _) fun _ _ => .pure trivial

theorem Translates.literal_safe {index : Nat} (W : World)
    (h : Translates c at? i n (.pushConstant index) f ns f') :
    f' = push f n ∧ Exec.Safe (fun _ => True) (literal W c.pool index) := by
  unfold literal
  cases h with
  | pushIntLiteral hentry =>
    rw [hentry]
    exact ⟨rfl, .pure trivial⟩
  | pushStringLiteral hentry =>
    rw [hentry]
    exact ⟨rfl, .pure trivial⟩

/-- An instruction finds its operands and its slot in a state that has the shape of the frame before it, and leaves
one with the shape of the frame after it. -/
theorem Translates.execute_safe (h : Translates c at? i n (i.act effect) f ns f')
    (hcat : i.category = effect.category) (hat : ∀ {target t}, at? target = some t → 0 ≤ target)
    {s : State W.Value} (hs : Shaped f s) : Exec.Safe (Shaped f') (execute W c.pool i s effect) := by
  obtain ⟨pc, locals, stack⟩ := s
  obtain ⟨hstack, hlocals⟩ := hs
  dsimp only at hstack hlocals
  cases effect with
  | nop =>
    cases h
    exact .pure ⟨hstack, hlocals⟩
  | pushNull =>
    cases h
    exact .pure ⟨by simpa [Frame.depth, push] using hstack, hlocals⟩
  | pushInt | pushByte | pushShort =>
    obtain rfl := h.pushInt_eq
    exact .pure ⟨by simpa [Frame.depth, push] using hstack, hlocals⟩
  | pushConstant | pushConstantWide =>
    obtain ⟨rfl, hliteral⟩ := h.literal_safe W
    exact .bind hliteral fun _ _ => .pure ⟨by simpa [Frame.depth, push] using hstack, hlocals⟩
  | load slot =>
    cases h with
    | load hslot =>
      obtain ⟨hlt, -⟩ := Array.getElem?_eq_some_iff.1 hslot
      rw [← hlocals, ← i.slotOperand_eq] at hlt
      exact .bind (.need (by simpa using hlt)) fun _ _ => .pure ⟨by simpa [Frame.depth, push] using hstack, hlocals⟩
  | store slot =>
    cases h with
    | store hlt =>
      obtain ⟨v, rest, rfl, hrest⟩ := exists_pop hstack
      rw [← hlocals, ← i.slotOperand_eq] at hlt
      simp only [execute, if_pos hlt]
      exact .pure ⟨hrest, by simpa using hlocals⟩
  | increment =>
    cases h with
    | increment hslot =>
      obtain ⟨hlt, -⟩ := Array.getElem?_eq_some_iff.1 hslot
      rw [← hlocals, ← i.slotOperand_eq] at hlt
      refine .bind (.need (by simpa using hlt)) fun _ _ => .bind (.arith _ _ _) fun _ _ => .pure ⟨hstack, ?_⟩
      simpa using hlocals
  | arrayLoadInt | arrayLoadReference =>
    cases h
    obtain ⟨_, _, rfl, hbelow⟩ := exists_pop hstack
    obtain ⟨_, rest, rfl, hrest⟩ := exists_pop hbelow
    refine .bind (elementAddress_safe _ _) fun _ _ => .bind (.ask _) fun _ _ => .pure ⟨?_, hlocals⟩
    simpa [Frame.depth] using hrest
  | arrayStore =>
    cases h
    obtain ⟨_, _, rfl, hbelow⟩ := exists_pop hstack
    obtain ⟨_, _, rfl, hlower⟩ := exists_pop hbelow
    obtain ⟨_, rest, rfl, hrest⟩ := exists_pop hlower
    simp only [execute, Exec.discard_bind]
    exact .bind (elementAddress_safe _ _) fun _ _ => .bind (.ask _) fun _ _ => .pure ⟨hrest, hlocals⟩
  | pop =>
    cases h
    obtain ⟨_, rest, rfl, hrest⟩ := exists_pop hstack
    exact .pure ⟨hrest, hlocals⟩
  | dup =>
    cases h
    obtain ⟨_, rest, rfl, hrest⟩ := exists_pop hstack
    exact .pure ⟨by simpa [Frame.depth] using hrest, hlocals⟩
  | swap =>
    cases h
    obtain ⟨_, _, rfl, hbelow⟩ := exists_pop hstack
    obtain ⟨_, rest, rfl, hrest⟩ := exists_pop hbelow
    exact .pure ⟨by simpa [Frame.depth] using hrest, hlocals⟩
  | arith =>
    cases h
    obtain ⟨_, _, rfl, hbelow⟩ := exists_pop hstack
    obtain ⟨_, rest, rfl, hrest⟩ := exists_pop hbelow
    exact .bind (.arith _ _ _) fun _ _ => .pure ⟨by simpa [Frame.depth] using hrest, hlocals⟩
  | negate =>
    cases h
    obtain ⟨_, rest, rfl, hrest⟩ := exists_pop hstack
    exact .pure ⟨by simpa [Frame.depth] using hrest, hlocals⟩
  | branchZero =>
    have htargets := i.jumpTargets_eq_branchTarget (Or.inl hcat)
    cases h with
    | branchZero hjump htaken hnext =>
      obtain ⟨rfl, -⟩ := List.cons.inj (htargets.symm.trans hjump)
      obtain ⟨_, rest, rfl, hrest⟩ := exists_pop hstack
      exact choose_safe (hat htaken) (hat hnext) ⟨hrest, hlocals⟩
  | branchNull =>
    have htargets := i.jumpTargets_eq_branchTarget (Or.inl hcat)
    cases h with
    | branchNull hjump htaken hnext =>
      obtain ⟨rfl, -⟩ := List.cons.inj (htargets.symm.trans hjump)
      obtain ⟨_, rest, rfl, hrest⟩ := exists_pop hstack
      exact choose_safe (hat htaken) (hat hnext) ⟨hrest, hlocals⟩
  | branchPair =>
    have htargets := i.jumpTargets_eq_branchTarget (Or.inl hcat)
    cases h with
    | branchPair hjump htaken hnext =>
      obtain ⟨rfl, -⟩ := List.cons.inj (htargets.symm.trans hjump)
      obtain ⟨_, _, rfl, hbelow⟩ := exists_pop hstack
      obtain ⟨_, rest, rfl, hrest⟩ := exists_pop hbelow
      exact choose_safe (hat htaken) (hat hnext) ⟨hrest, hlocals⟩
  | jump =>
    have htargets := i.jumpTargets_eq_branchTarget (Or.inr hcat)
    cases h with
    | jump hjump htarget =>
      obtain ⟨rfl, -⟩ := List.cons.inj (htargets.symm.trans hjump)
      exact goTo_safe (hat htarget) ⟨hstack, hlocals⟩
  | switch =>
    cases h with
    | switch htable hdefault hcases =>
      obtain ⟨_, rest, rfl, hrest⟩ := exists_pop hstack
      simp only [execute, htable]
      exact goTo_safe (hat (select_eq hdefault hcases)) ⟨hrest, hlocals⟩
  | returnValue | raise =>
    cases h
    obtain ⟨_, rest, rfl, hrest⟩ := exists_pop hstack
    exact .throw (by simp)
  | returnVoid =>
    cases h
    exact .throw (by simp)
  | getStatic =>
    cases h with
    | getStatic hfield _ =>
      simp only [execute, hfield, Except.toOption, Exec.need_some, pure_bind]
      exact .bind (.ask _) fun _ _ => .pure ⟨by simpa [Frame.depth, push] using hstack, hlocals⟩
  | putStatic =>
    cases h with
    | putStatic hfield =>
      obtain ⟨_, rest, rfl, hrest⟩ := exists_pop hstack
      simp only [execute, hfield, Except.toOption, Exec.need_some, pure_bind, Exec.discard_bind]
      exact .bind (.ask _) fun _ _ => .pure ⟨hrest, hlocals⟩
  | call kind =>
    cases h with
    | @call ls st _ _ count method type hmethod htype hcount hle =>
      have hkind : argCount kind type = count := by
        rw [hcount]
        cases kind <;> rfl
      have hlen : ¬ stack.length < count := by
        rw [hstack]
        exact Nat.not_lt.2 hle
      simp only [execute, hmethod, htype, Except.toOption, Exec.need_some, pure_bind, hkind, if_neg hlen]
      refine .bind (.ask _) fun _ _ => .pure ⟨?_, hlocals⟩
      by_cases hvoid : type.result = .void <;>
        simpa [Frame.depth, MethodType.returnsValue, hvoid] using congrArg (· - count) hstack

/-! ## Sequences of instructions -/

variable {is : List Instruction}

theorem heightThrough?_append (pool : ConstantPool) (frameSize height : Nat) (is js : List Instruction) :
    heightThrough? pool frameSize height (is ++ js) =
      (heightThrough? pool frameSize height is).bind (heightThrough? pool frameSize · js) :=
  List.foldlM_append

theorem runThrough_append (pool : ConstantPool) (s : State W.Value) (is js : List Instruction) :
    runThrough W pool s (is ++ js) = runThrough W pool s is >>= (runThrough W pool · js) :=
  List.foldlM_append

/-- The frames before and after a sequence of instructions have its heights. -/
theorem TranslatesAll.heightThrough (h : TranslatesAll c at? n is f ns f') (hwide : ∀ i ∈ is, i.WideFits) :
    heightThrough? c.pool f.locals.size f.depth is = some f'.depth ∧ f'.locals.size = f.locals.size := by
  induction h with
  | nil => exact ⟨rfl, rfl⟩
  | @cons n i is action f f₁ f' ns ns' haction htrans _ ih =>
    obtain ⟨effect, hmeaning, rfl, -⟩ := Instruction.meaning?_of_action? (hwide i List.mem_cons_self) haction
    obtain ⟨hheight, hsize⟩ := htrans.heightAfter hmeaning
    obtain ⟨hheights, hsizes⟩ := ih fun j hj => hwide j (List.mem_cons_of_mem i hj)
    refine ⟨?_, hsizes.trans hsize⟩
    rw [hsize] at hheights
    unfold heightThrough? at hheights ⊢
    rw [List.foldlM_cons, hheight]
    exact hheights

/-- A run through a sequence of instructions is not stuck, and its operand stack has the heights of the sequence. -/
theorem TranslatesAll.run_safe (h : TranslatesAll c at? n is f ns f') (hwide : ∀ i ∈ is, i.WideFits)
    (hat : ∀ {target t}, at? target = some t → 0 ≤ target) {s : State W.Value} (hs : Shaped f s)
    {front : List Instruction} (hfront : front <+: is) :
    Exec.Safe (fun t => heightThrough? c.pool f.locals.size f.depth front = some t.stack.length ∧
      t.locals.length = f.locals.size) (runThrough W c.pool s front) := by
  induction h generalizing s front with
  | nil =>
    rw [List.prefix_nil] at hfront
    subst hfront
    exact .pure ⟨by rw [hs.stack]; rfl, hs.locals⟩
  | @cons n i is action f f₁ f' ns ns' haction htrans _ ih =>
    cases front with
    | nil => exact .pure ⟨by rw [hs.stack]; rfl, hs.locals⟩
    | cons j front =>
      obtain ⟨rfl, htail⟩ := List.cons_prefix_cons.1 hfront
      obtain ⟨effect, hmeaning, rfl, hcat⟩ := Instruction.meaning?_of_action? (hwide j List.mem_cons_self) haction
      obtain ⟨hheight, hsize⟩ := htrans.heightAfter hmeaning
      unfold runThrough heightThrough?
      rw [List.foldlM_cons, List.foldlM_cons, hheight, hmeaning, Exec.need_some, pure_bind]
      refine .bind (htrans.execute_safe hcat hat hs) fun t ht => ?_
      refine (ih (fun k hk => hwide k (List.mem_cons_of_mem j hk)) ht htail).mono fun u hu => ?_
      rw [hsize] at hu
      exact hu

end Instructions

end Ssa

/-! ## Paths -/

namespace Graph

/-- The instructions of the blocks on a path, in the order in which they run. -/
def trace (g : Graph) (bs : List BlockId) : List Instruction :=
  bs.reverse.flatMap g.instructionsOf

theorem trace_cons (g : Graph) (b : BlockId) (bs : List BlockId) :
    g.trace (b :: bs) = g.trace bs ++ g.instructionsOf b := by
  simp [trace]

end Graph

namespace Ssa

open StackCode

/-- A graph whose instructions have each a height of the operand stack, for a frame of a size. -/
structure Level (pool : ConstantPool) (frameSize : Nat) (g : Graph) (height : Nat → Nat) : Prop where
  /-- A path leads to every block. -/
  reached : ∀ {b : BlockId}, g.hasBlock b = true → g.Reaches b
  /-- On every path from the entry, an instruction finds the operand stack at the height of its address. -/
  on_path : ∀ {b : BlockId} {bs : List BlockId}, g.Path b bs → ∀ {front rest : List Instruction} {i : Instruction},
    g.trace bs = front ++ i :: rest → heightThrough? pool frameSize 0 front = some (height i.address)
  /-- No instruction on the way lacks an operand or a slot, and the last block leaves the stack that it recorded. -/
  at_exit : ∀ {b : BlockId} {bs : List BlockId}, g.Path b bs →
    heightThrough? pool frameSize 0 (g.trace bs) = some (g.exitOf b).stack.length
  exit_locals : ∀ {b : BlockId}, g.hasBlock b = true → (g.exitOf b).locals.size = frameSize
  /-- No run along a path is stuck, whatever the values are, and its operand stack has these heights. -/
  run_safe : ∀ {b : BlockId} {bs : List BlockId}, g.Path b bs → ∀ {front : List Instruction}, front <+: g.trace bs →
    ∀ (W : World) (s : State W.Value), s.stack = [] → s.locals.length = frameSize →
      Exec.Safe (fun t => heightThrough? pool frameSize 0 front = some t.stack.length ∧ t.locals.length = frameSize)
        (runThrough W pool s front)

section Paths

variable {c : Context} {frameSize : Nat} {code : List Instruction} {addr : BlockId → Nat} {g : Graph}
  {seg : BlockId → Segment} {b : BlockId} {bs : List BlockId}

theorem Prepared.wideFits (h : Prepared c frameSize code addr g seg) (hwide : ∀ i ∈ code, i.WideFits)
    (b : BlockId) : ∀ i ∈ g.instructionsOf b, i.WideFits :=
  fun i hi => hwide i.unmarked (h.laid.unmarked_mem hi)

theorem Prepared.block_height (h : Prepared c frameSize code addr g seg) (hloss : Lossless frameSize g seg)
    (hwide : ∀ i ∈ code, i.WideFits) (hb : g.hasBlock b = true) :
    heightThrough? c.pool frameSize (seg b).enter.depth (g.instructionsOf b) = some (seg b).exit.depth := by
  have hheight := ((h.form.body hb).heightThrough (h.wideFits hwide b)).1
  rwa [(hloss.size_locals hb).1] at hheight

theorem Prepared.hasBlock_of_path (h : Prepared c frameSize code addr g seg) (hp : g.Path b bs) :
    g.hasBlock b = true := by
  cases hp with
  | start => exact h.entry
  | step _ hv => exact h.form.linked.hasBlock_target hv

/-- Every path leaves a block at the height of its frame. -/
theorem Prepared.exit_height (h : Prepared c frameSize code addr g seg) (hloss : Lossless frameSize g seg)
    (hwide : ∀ i ∈ code, i.WideFits) (hp : g.Path b bs) :
    heightThrough? c.pool frameSize 0 (g.trace bs) = some (seg b).exit.depth := by
  induction hp with
  | start =>
    have hzero : (seg Graph.entry).enter.depth = 0 := by
      rw [h.form.entry_enter]
      rfl
    rw [Graph.trace_cons, ← h.block_height hloss hwide h.entry, hzero]
    rfl
  | @step u v bs hp hv ih =>
    have hb := h.form.linked.hasBlock_target hv
    rw [Graph.trace_cons, heightThrough?_append, ih, hloss.depth_eq (h.form.linked.mem_succs_iff.1 hv)]
    exact h.block_height hloss hwide hb

/-- Every path enters a block at the height of its frame. -/
theorem Prepared.enter_height (h : Prepared c frameSize code addr g seg) (hloss : Lossless frameSize g seg)
    (hwide : ∀ i ∈ code, i.WideFits) (hp : g.Path b (b :: bs)) :
    heightThrough? c.pool frameSize 0 (g.trace bs) = some (seg b).enter.depth := by
  cases hp with
  | start =>
    rw [h.form.entry_enter]
    rfl
  | step hp hv => rw [h.exit_height hloss hwide hp, hloss.depth_eq (h.form.linked.mem_succs_iff.1 hv)]

theorem Prepared.height_in_last (h : Prepared c frameSize code addr g seg) (hloss : Lossless frameSize g seg)
    (hwide : ∀ i ∈ code, i.WideFits) (hp : g.Path b (b :: bs)) (pre : List Instruction) :
    heightThrough? c.pool frameSize 0 (g.trace bs ++ pre) =
      heightThrough? c.pool frameSize (seg b).enter.depth pre := by
  rw [heightThrough?_append, h.enter_height hloss hwide hp]
  rfl

/-- An instruction on a path stands in a block, at the height that the block's instructions before it make. -/
theorem Prepared.height_in_block (h : Prepared c frameSize code addr g seg) (hloss : Lossless frameSize g seg)
    (hwide : ∀ i ∈ code, i.WideFits) (hp : g.Path b bs) {front rest : List Instruction} {i : Instruction}
    (hsplit : g.trace bs = front ++ i :: rest) :
    ∃ b' pre post, g.hasBlock b' = true ∧ g.instructionsOf b' = pre ++ i :: post ∧
      heightThrough? c.pool frameSize 0 front = heightThrough? c.pool frameSize (seg b').enter.depth pre := by
  induction hp generalizing rest with
  | start =>
    rw [Graph.trace_cons] at hsplit
    exact ⟨Graph.entry, front, rest, h.entry, hsplit, h.height_in_last hloss hwide .start front⟩
  | @step u v bs hp hv ih =>
    have hb := h.form.linked.hasBlock_target hv
    rw [Graph.trace_cons] at hsplit
    -- The instruction is in the last block, or on the path to the block before it.
    rcases List.append_eq_append_iff.1 hsplit with ⟨pre, rfl, hinstr⟩ | ⟨mid, htrace, hmid⟩
    · exact ⟨v, pre, rest, hb, hinstr, h.height_in_last hloss hwide (hp.step hv) pre⟩
    · cases mid with
      | nil =>
        obtain rfl : g.trace bs = front := by simpa using htrace
        have hfirst := h.height_in_last hloss hwide (hp.step hv) []
        rw [List.append_nil] at hfirst
        exact ⟨v, [], rest, hb, hmid.symm, hfirst⟩
      | cons j mid =>
        obtain ⟨rfl, -⟩ := List.cons.inj hmid
        exact ih htrace

theorem eq_of_split {pre post pre' post' : List Instruction} {i i' : Instruction}
    (hlt : (pre ++ i :: post).Pairwise fun i j => i.address < j.address)
    (heq : pre ++ i :: post = pre' ++ i' :: post') (haddr : i.address = i'.address) : pre = pre' := by
  have hlt' := heq ▸ hlt
  rcases List.append_eq_append_iff.1 heq with ⟨mid, rfl, hmid⟩ | ⟨mid, rfl, hmid⟩
  · cases mid with
    | nil => simp
    | cons j mid =>
      obtain ⟨rfl, rfl⟩ := List.cons.inj hmid
      have := (List.pairwise_cons.1 (List.pairwise_append.1 hlt).2.1).1 i' (by simp)
      omega
  · cases mid with
    | nil => simp
    | cons j mid =>
      obtain ⟨rfl, rfl⟩ := List.cons.inj hmid
      have := (List.pairwise_cons.1 (List.pairwise_append.1 hlt').2.1).1 i (by simp)
      omega

/-- The place of an instruction in the blocks is known by its address. -/
theorem Prepared.place_unique (h : Prepared c frameSize code addr g seg) {b' : BlockId} (hb : g.hasBlock b = true)
    (hb' : g.hasBlock b' = true) {pre post pre' post' : List Instruction} {i i' : Instruction}
    (hinstr : g.instructionsOf b = pre ++ i :: post) (hinstr' : g.instructionsOf b' = pre' ++ i' :: post')
    (haddr : i.address = i'.address) : b = b' ∧ pre = pre' := by
  obtain ⟨block, hblock⟩ := Graph.hasBlock_iff.1 hb
  obtain ⟨block', hblock'⟩ := Graph.hasBlock_iff.1 hb'
  have heq : block.instructions = pre ++ i :: post := (Graph.instructionsOf_eq hblock).symm.trans hinstr
  have heq' : block'.instructions = pre' ++ i' :: post' := (Graph.instructionsOf_eq hblock').symm.trans hinstr'
  obtain rfl := h.laid.eq_of_address hblock hblock' i (by simp [heq]) i' (by simp [heq']) haddr
  refine ⟨rfl, ?_⟩
  have hlt := (h.laid.contiguous hblock).pairwise_lt
  rw [List.pairwise_map, heq] at hlt
  exact eq_of_split hlt (hinstr.symm.trans hinstr') haddr

/-- A run along a path has the heights of its instructions. -/
theorem Prepared.run_safe (h : Prepared c frameSize code addr g seg) (hloss : Lossless frameSize g seg)
    (hwide : ∀ i ∈ code, i.WideFits) (hp : g.Path b bs) {front : List Instruction}
    (hfront : front <+: g.trace bs) {W : World} {s : State W.Value}
    (hstack : s.stack = []) (hlocals : s.locals.length = frameSize) :
    Exec.Safe (fun t => heightThrough? c.pool frameSize 0 front = some t.stack.length ∧ t.locals.length = frameSize)
      (runThrough W c.pool s front) := by
  have hat : ∀ {target t}, g.blockAtTarget? target = some t → 0 ≤ target := by
    intro target t ht
    cases target with
    | ofNat a => exact Int.natCast_nonneg a
    | negSucc a => cases ht
  have hblock : ∀ {b bs pre}, g.Path b (b :: bs) → pre <+: g.instructionsOf b →
      Exec.Safe (fun t => heightThrough? c.pool frameSize 0 (g.trace bs) = some t.stack.length ∧
        t.locals.length = frameSize) (runThrough W c.pool s (g.trace bs)) →
      Exec.Safe (fun t => heightThrough? c.pool frameSize 0 (g.trace bs ++ pre) = some t.stack.length ∧
        t.locals.length = frameSize) (runThrough W c.pool s (g.trace bs ++ pre)) := by
    intro b bs pre hp hpre hbefore
    have hb := h.hasBlock_of_path hp
    rw [runThrough_append, h.height_in_last hloss hwide hp]
    refine .bind hbefore fun t ht => ?_
    rw [h.enter_height hloss hwide hp, Option.some.injEq] at ht
    have hsize := (hloss.size_locals hb).1
    have hsafe := (h.form.body hb).run_safe (h.wideFits hwide b) hat ⟨ht.1.symm, ht.2.trans hsize.symm⟩ hpre
    rwa [hsize] at hsafe
  induction hp generalizing front with
  | start =>
    rw [Graph.trace_cons] at hfront
    refine hblock .start hfront (.pure ⟨by rw [hstack]; rfl, hlocals⟩)
  | @step u v bs hp hv ih =>
    rw [Graph.trace_cons] at hfront
    obtain ⟨rest, hrest⟩ := hfront
    rcases List.append_eq_append_iff.1 hrest with ⟨mid, htrace, -⟩ | ⟨pre, rfl, hinstr⟩
    · exact ih ⟨mid, htrace.symm⟩
    · exact hblock (hp.step hv) ⟨rest, hinstr.symm⟩ (ih List.prefix_rfl)

/-- The instructions of prepared nodes have a height each. -/
theorem Prepared.level (h : Prepared c frameSize code addr g seg) (hloss : Lossless frameSize g seg)
    (hwide : ∀ i ∈ code, i.WideFits) :
    ∃ height, Level c.pool frameSize g height := by
  have hone : ∀ a, ∃ height, ∀ b pre i post, g.hasBlock b = true → g.instructionsOf b = pre ++ i :: post →
      i.address = a → heightThrough? c.pool frameSize (seg b).enter.depth pre = some height := by
    intro a
    by_cases hex : ∃ b pre i post, g.hasBlock b = true ∧ g.instructionsOf b = pre ++ i :: post ∧ i.address = a
    · obtain ⟨b, pre, i, post, hb, hinstr, rfl⟩ := hex
      have hheight := h.block_height hloss hwide hb
      rw [hinstr, heightThrough?_append] at hheight
      obtain ⟨height, hpre, -⟩ := Option.bind_eq_some_iff.1 hheight
      refine ⟨height, fun b' pre' i' post' hb' hinstr' haddr => ?_⟩
      obtain ⟨rfl, rfl⟩ := h.place_unique hb' hb hinstr' hinstr haddr
      exact hpre
    · exact ⟨0, fun b pre i post hb hinstr haddr => absurd ⟨b, pre, i, post, hb, hinstr, haddr⟩ hex⟩
  choose height hheight using hone
  have hexit : ∀ {b}, g.hasBlock b = true → g.exitOf b = (seg b).exit := by
    intro b hb
    obtain ⟨block, hblock⟩ := Graph.hasBlock_iff.1 hb
    rw [Graph.exitOf, hblock]
    exact h.form.exit_eq hblock
  refine ⟨height, ⟨h.form.reaches, ?_, ?_, ?_, ?_⟩⟩
  · intro b bs hp front rest i hsplit
    obtain ⟨b', pre, post, hb', hinstr, heq⟩ := h.height_in_block hloss hwide hp hsplit
    rw [heq]
    exact hheight _ b' pre i post hb' hinstr rfl
  · intro b bs hp
    rw [hexit (h.hasBlock_of_path hp)]
    exact h.exit_height hloss hwide hp
  · intro b hb
    rw [hexit hb]
    exact (hloss.size_locals hb).2
  · intro b bs hp front hfront W s hstack hlocals
    exact h.run_safe hloss hwide hp hfront hstack hlocals

/-- Heights only depend on the blocks of a graph. -/
theorem Level.congr {pool : ConstantPool} {g' : Graph} {height : Nat → Nat} (h : Level pool frameSize g height)
    (hblock : ∀ b, g'.block? b = g.block? b) : Level pool frameSize g' height := by
  have hsuccs : ∀ b, g.Reaches b → g'.succs b = g.succs b := by
    intro b _
    unfold Graph.succs
    rw [hblock]
  have hhas : ∀ {b}, g'.hasBlock b = true → g.hasBlock b = true := by
    intro b hb
    rwa [Graph.hasBlock_iff, ← hblock, ← Graph.hasBlock_iff]
  have htrace : ∀ bs, g'.trace bs = g.trace bs := by
    intro bs
    unfold Graph.trace Graph.instructionsOf
    simp only [hblock]
  have hexit : ∀ b, g'.exitOf b = g.exitOf b := by
    intro b
    unfold Graph.exitOf
    rw [hblock]
  refine ⟨fun hb => (Graph.reaches_congr hsuccs).2 (h.reached (hhas hb)), ?_, ?_, ?_, ?_⟩
  · intro b bs hp front rest i hsplit
    exact h.on_path ((Graph.path_congr hsuccs).1 hp) (htrace bs ▸ hsplit)
  · intro b bs hp
    rw [htrace, hexit]
    exact h.at_exit ((Graph.path_congr hsuccs).1 hp)
  · intro b hb
    rw [hexit]
    exact h.exit_locals (hhas hb)
  · intro b bs hp front hfront
    exact h.run_safe ((Graph.path_congr hsuccs).1 hp) (htrace bs ▸ hfront)

end Paths

/-- A method that was built has a height of the operand stack for each instruction, whatever path leads there. -/
theorem built_code_is_level {table : OperandTable} {pool : ConstantPool} {m : Method} {type : MethodType}
    {code : List Instruction} {laid analysed : Graph} {flow : FlowSummary} {stats : Statistics} {w : Work}
    (hdecode : Instruction.decode table m.code = .ok code) (hwide : ∀ i ∈ code, i.WideFits)
    (hlayout : Graph.ofInstructions code = .ok laid) (hflow : laid.analyze = .ok (flow, analysed))
    (hbuild : build pool m { graph := analysed, stats } = .ok () w)
    (htype : MethodType.ofDescriptor m.descriptor = .ok type) (hbounded : Bounded m type) :
    ∃ height, Level pool (frameSize m type) w.graph height := by
  obtain ⟨type', addr, seg, htype', h⟩ := prepared_patched hdecode hlayout hflow hbuild
  obtain rfl := Except.ok.inj (htype.symm.trans htype')
  obtain ⟨height, hlevel⟩ := h.level (h.lossless hdecode hbounded) hwide
  exact ⟨height, hlevel.congr fun b => (block?_patched w.graph b).symm⟩

/-- The loop of `sumTo` can be gone through any number of times. -/
theorem sumTo_built_code_is_level :
    ∃ (st : Stages) (c : Compiled) (type : MethodType) (height : Nat → Nat),
      st.Succeed .standard .empty sumTo "Sum_upTo" c ∧ (∀ i ∈ st.code, i.WideFits) ∧
        MethodType.ofDescriptor sumTo.descriptor = .ok type ∧ Bounded sumTo type ∧
          Level .empty (frameSize sumTo type) st.built.graph height := by
  obtain ⟨c, s, hcompile⟩ := exists_of_compiles compiles_sumTo
  obtain ⟨st, hst⟩ := compile_eq_ok hcompile
  obtain ⟨type, -, htype, -⟩ := build_eq_ok hst.build
  have hwide := wideFits_sumTo hst.decode
  have hbounded := bounded_sumTo htype
  obtain ⟨height, hlevel⟩ := built_code_is_level hst.decode hwide hst.layout hst.analyze hst.build htype hbounded
  exact ⟨st, c, type, height, hst, hwide, htype, hbounded, hlevel⟩

end Ssa

end Destack
