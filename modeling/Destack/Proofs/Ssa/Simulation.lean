import Destack.Proofs.Opcodes
import Destack.Proofs.Ssa.Cells
import Destack.Proofs.Ssa.Form

/-!
# Stack code and its nodes

While a block runs, the nodes in the frame have the values that the machine has in the same slots (`Holds`). Each
instruction keeps this (`execute_agrees`, `leave_agrees`), and so does the step from one block to the next.
-/

namespace Destack

/-- The nodes in a frame come before a number. -/
def Frame.Below (f : Frame) (n : NodeId) : Prop :=
  ∀ id ∈ f.ids, id < n

namespace Frame.Below

variable {ls : Array NodeId} {st : List NodeId} {id n : NodeId}

theorem top (h : (Frame.mk ls (id :: st)).Below n) : id < n :=
  h id (by simp [ids])

theorem tail (h : (Frame.mk ls (id :: st)).Below n) : (Frame.mk ls st).Below n := by
  intro k hk
  refine h k ?_
  simp only [ids, List.mem_append, List.mem_cons] at hk ⊢
  exact hk.imp_right Or.inr

theorem drop (h : (Frame.mk ls st).Below n) (count : Nat) : (Frame.mk ls (st.drop count)).Below n := by
  intro k hk
  refine h k ?_
  simp only [ids, List.mem_append] at hk ⊢
  exact hk.imp_right List.mem_of_mem_drop

theorem slot {f : Frame} {slot : Nat} (h : f.Below n) (hid : f.locals[slot]? = some id) : id < n :=
  h id (Frame.mem_ids_iff.2 ⟨.localVar slot, hid⟩)

end Frame.Below

namespace Ssa

variable {W : World} {inputs : Inputs W.Value}

/-! ## Frames and values -/

/-- The nodes of a frame have the values of local slots and an operand stack. -/
structure Holds (ρ : Env W) (f : Frame) (locals stack : List W.Value) : Prop where
  locals : List.Forall₂ (fun id v => ρ id = some v) f.locals.toList locals
  stack : List.Forall₂ (fun id v => ρ id = some v) f.stack stack

namespace Holds

variable {ρ : Env W} {f : Frame} {ls : Array NodeId} {st : List NodeId} {vs ws : List W.Value} {id : NodeId}

theorem congr {ρ' : Env W} (h : Holds ρ f vs ws) (hids : ∀ id ∈ f.ids, ρ' id = ρ id) : Holds ρ' f vs ws := by
  have hlist : ∀ {ids : List NodeId} {us : List W.Value}, (∀ id ∈ ids, ρ' id = ρ id) →
      List.Forall₂ (fun id v => ρ id = some v) ids us → List.Forall₂ (fun id v => ρ' id = some v) ids us := by
    intro ids us hids h
    induction h with
    | nil => exact .nil
    | cons hv _ ih => exact .cons (by rw [hids _ (by simp), hv]) (ih fun id hid => hids id (by simp [hid]))
  exact ⟨hlist (fun id hid => hids id (by simp [Frame.ids, hid])) h.locals,
    hlist (fun id hid => hids id (by simp [Frame.ids, hid])) h.stack⟩

/-- New nodes leave the values of a frame of older ones. -/
theorem set {n k : NodeId} (h : Holds ρ f vs ws) (hlt : f.Below n) (hle : n ≤ k) (v : W.Value) :
    Holds (ρ.set k v) f vs ws :=
  h.congr fun id hid => ρ.set_of_ne v (Nat.ne_of_lt (Nat.lt_of_lt_of_le (hlt id hid) hle))

theorem push {v : W.Value} (h : Holds ρ f vs ws) (hv : ρ id = some v) : Holds ρ (push f id) vs (v :: ws) :=
  ⟨h.locals, .cons hv h.stack⟩

theorem pop (h : Holds ρ ⟨ls, id :: st⟩ vs ws) :
    ∃ v rest, ws = v :: rest ∧ ρ id = some v ∧ Holds ρ ⟨ls, st⟩ vs rest := by
  obtain ⟨hl, hs⟩ := h
  cases hs with
  | cons hv hrest => exact ⟨_, _, rfl, hv, hl, hrest⟩

theorem getElem? {slot : Nat} (h : Holds ρ f vs ws) (hid : f.locals[slot]? = some id) :
    ∃ v, vs[slot]? = some v ∧ ρ id = some v := by
  rw [← Array.getElem?_toList, List.getElem?_eq_some_iff] at hid
  obtain ⟨hlt, rfl⟩ := hid
  have hlt' : slot < vs.length := h.locals.length_eq ▸ hlt
  exact ⟨vs[slot], List.getElem?_eq_getElem hlt', h.locals.get hlt hlt'⟩

theorem setSlot {v : W.Value} (h : Holds ρ ⟨ls, st⟩ vs ws) (slot : Nat) (hv : ρ id = some v) :
    Holds ρ ⟨ls.setIfInBounds slot id, st⟩ (vs.set slot v) ws := by
  refine ⟨?_, h.stack⟩
  have hl := h.locals
  clear h
  simp only [Array.toList_setIfInBounds] at hl ⊢
  generalize ls.toList = ids at hl
  induction hl generalizing slot with
  | nil => simp
  | cons hu hrest ih =>
    cases slot with
    | zero => exact .cons hv hrest
    | succ slot => exact .cons hu (ih slot)

theorem length_stack (h : Holds ρ f vs ws) : ws.length = f.stack.length :=
  h.stack.length_eq.symm

theorem drop (h : Holds ρ ⟨ls, st⟩ vs ws) (count : Nat) : Holds ρ ⟨ls, st.drop count⟩ vs (ws.drop count) :=
  ⟨h.locals, List.forall₂_drop count h.stack⟩

/-- The values of arguments taken from the stack. -/
theorem mapM_args (h : Holds ρ ⟨ls, st⟩ vs ws) (count : Nat) :
    (st.take count).reverse.mapM ρ = some (ws.take count).reverse := by
  have hargs : List.Forall₂ (fun id v => ρ id = some v) (st.take count).reverse (ws.take count).reverse :=
    List.forall₂_reverse_iff.2 (List.forall₂_take count h.stack)
  generalize (st.take count).reverse = ids, (ws.take count).reverse = us at hargs
  induction hargs with
  | nil => rfl
  | cons hv _ ih => simp [List.mapM_cons, hv, ih]

end Holds

/-! ## Instructions that lead to the next one -/

section Instructions

variable {c : Context} {at? : Int → Option BlockId} {i : Instruction} {n : NodeId} {f f' : Frame} {ns : List Cell}
  {ρ : Env W} {vs ws : List W.Value}

/-- The run goes on at the next instruction, with the values that a frame has then. -/
def Next (i : Instruction) (f : Frame) (s : StackCode.State W.Value) (ρ : Env W) : Prop :=
  s.pc = i.next ∧ Holds ρ f s.locals s.stack

theorem pushInt_agrees {value : Int} (h : Translates c at? i n (.pushInt value) f ns f') (hf : Holds ρ f vs ws)
    (hlt : f.Below n) :
    Exec.Agree (Next i f') (pure ⟨i.next, vs, W.int value :: ws⟩) (evalCells W direct inputs n ns ρ) := by
  cases h
  exact .pure ⟨rfl, (hf.set hlt (Nat.le_refl n) _).push (Env.set_self ..)⟩

theorem pushConstant_agrees {index : Nat} (h : Translates c at? i n (.pushConstant index) f ns f')
    (hf : Holds ρ f vs ws) (hlt : f.Below n) :
    Exec.Agree (Next i f') (do return ⟨i.next, vs, (← StackCode.literal W c.pool index) :: ws⟩)
      (evalCells W direct inputs n ns ρ) := by
  cases h with
  | pushIntLiteral hentry =>
    simp only [StackCode.literal, hentry, pure_bind]
    exact .pure ⟨rfl, (hf.set hlt (Nat.le_refl n) _).push (Env.set_self ..)⟩
  | pushStringLiteral hentry =>
    simp only [StackCode.literal, hentry, pure_bind]
    exact .pure ⟨rfl, (hf.set hlt (Nat.le_refl n) _).push (Env.set_self ..)⟩

theorem load_agrees {slot : Nat} (h : Translates c at? i n (.load slot) f ns f') (hf : Holds ρ f vs ws) :
    Exec.Agree (Next i f') (do let v ← Exec.need vs[slot]?; return ⟨i.next, vs, v :: ws⟩)
      (evalCells W direct inputs n ns ρ) := by
  cases h with
  | load hid =>
    obtain ⟨v, hv, hρ⟩ := hf.getElem? hid
    simp only [hv, Exec.need_some, pure_bind]
    exact .pure ⟨rfl, hf.push hρ⟩

theorem store_agrees {slot : Nat} (h : Translates c at? i n (.store slot) f ns f') (hf : Holds ρ f vs ws) :
    Exec.Agree (Next i f')
      (match ws with
        | v :: rest => if slot < vs.length then pure ⟨i.next, vs.set slot v, rest⟩ else throw .stuck
        | [] => throw .stuck)
      (evalCells W direct inputs n ns ρ) := by
  cases h with
  | store hslot =>
    obtain ⟨v, rest, rfl, hv, hrest⟩ := hf.pop
    have hlen : slot < vs.length := by
      rw [← hf.locals.length_eq]
      simpa using hslot
    simp only [if_pos hlen]
    exact .pure ⟨rfl, hrest.setSlot slot hv⟩

theorem increment_agrees {slot : Nat} {amount : Int} (h : Translates c at? i n (.increment slot amount) f ns f')
    (hf : Holds ρ f vs ws) (hlt : f.Below n) :
    Exec.Agree (Next i f')
      (do let v ← Exec.need vs[slot]?
          let sum ← Exec.arith .add v (W.int amount)
          return ⟨i.next, vs.set slot sum, ws⟩)
      (evalCells W direct inputs n ns ρ) := by
  cases h with
  | @increment ls st _ _ lhs hid =>
    obtain ⟨v, hv, hρ⟩ := hf.getElem? hid
    have hlhs : ρ.set n (W.int amount) lhs = some v := by
      rw [Env.set_of_ne _ _ (Nat.ne_of_lt (hlt.slot hid)), hρ]
    simp only [evalCells, eval, direct, pure_bind, hv, hlhs, Env.set_self, Exec.need_some, bind_assoc]
    refine .bind_eq (.arith _ _ _) fun sum => .pure ⟨rfl, ?_⟩
    exact (((hf.set hlt (Nat.le_refl n) _).set hlt (Nat.le_succ n) _).setSlot slot (Env.set_self ..))

theorem getStatic_agrees {index : Nat} (h : Translates c at? i n (.getStatic index) f ns f') (hf : Holds ρ f vs ws)
    (hlt : f.Below n) :
    Exec.Agree (Next i f')
      (do let field ← Exec.need (c.pool.field index).toOption
          return ⟨i.next, vs, (← Exec.ask (.getStatic field)) :: ws⟩)
      (evalCells W direct inputs n ns ρ) := by
  cases h with
  | getStatic hfield _ =>
    simp only [hfield, Except.toOption, Exec.need_some, pure_bind]
    refine .bind_eq (.ask _) fun v => .pure ⟨rfl, ?_⟩
    exact (hf.set hlt (Nat.le_refl n) v).push (Env.set_self ..)

theorem putStatic_agrees {index : Nat} (h : Translates c at? i n (.putStatic index) f ns f') (hf : Holds ρ f vs ws)
    (hlt : f.Below n) :
    Exec.Agree (Next i f')
      (do let field ← Exec.need (c.pool.field index).toOption
          match ws with
          | v :: rest =>
            discard <| Exec.ask (.putStatic field v)
            return ⟨i.next, vs, rest⟩
          | [] => throw .stuck)
      (evalCells W direct inputs n ns ρ) := by
  cases h with
  | @putStatic ls st _ field value hfield =>
    obtain ⟨v, rest, rfl, hv, hrest⟩ := hf.pop
    simp only [hfield, Except.toOption, Exec.need_some, pure_bind, evalCells, eval, direct, hv, Exec.discard_bind]
    refine .bind_eq (.ask _) fun u => .pure ⟨rfl, ?_⟩
    exact hrest.set hlt.tail (Nat.le_refl n) u

/-- The address of an element is computed from the same values. -/
theorem element_agrees {opcode : Opcode} {array index : NodeId} {a k : W.Value} (ha : ρ array = some a)
    (hk : ρ index = some k) (halt : array < n) (hklt : index < n) :
    Exec.Agree (fun address ρ' => (∃ base offset, ρ' (n + 1) = some base ∧ ρ' (n + 3) = some offset ∧
        W.address base offset = address) ∧ ∀ id < n, ρ' id = ρ id)
      (StackCode.elementAddress W a k) (evalCells W direct inputs n (elementCells opcode array index n) ρ) := by
  have hbelow : ∀ {id k : NodeId} (ρ : Env W) (v : W.Value), id < n → n ≤ k → ρ.set k v id = ρ id :=
    fun ρ v hid hk => ρ.set_of_ne v (Nat.ne_of_lt (Nat.lt_of_lt_of_le hid hk))
  have h₁ : n ≤ n + 1 := Nat.le_add_right n 1
  have h₂ : n ≤ n + 2 := Nat.le_add_right n 2
  have h₃ : n ≤ n + 3 := Nat.le_add_right n 3
  simp only [StackCode.elementAddress, elementCells, evalCells, eval, direct, pure_bind, Nat.add_assoc, bind_assoc,
    Nat.reduceAdd, hbelow _ _ halt (Nat.le_refl n), ha, Env.set_self, Exec.need_some]
  refine .bind_eq (.arith _ _ _) fun base => ?_
  simp only [hbelow _ _ hklt h₂, hbelow _ _ hklt h₁, hbelow _ _ hklt (Nat.le_refl n), hk, Exec.need_some, pure_bind]
  refine .bind_eq (.arith _ _ _) fun offset => .pure ⟨⟨base, offset, ?_, Env.set_self .., rfl⟩, fun id hid => ?_⟩
  · rw [Env.set_of_ne _ _ (by simp), Env.set_of_ne _ _ (by simp), Env.set_self]
  · rw [hbelow _ _ hid h₃, hbelow _ _ hid h₂, hbelow _ _ hid h₁, hbelow _ _ hid (Nat.le_refl n)]

/-- An element is loaded and pushed. -/
theorem arrayLoad_agrees {ls : Array NodeId} {st : List NodeId} {array index : NodeId} {opcode : Opcode}
    {type : ValueType} (hf : Holds ρ ⟨ls, index :: array :: st⟩ vs ws)
    (hlt : (Frame.mk ls (index :: array :: st)).Below n) :
    Exec.Agree (Next i ⟨ls, (n + 4) :: st⟩)
      (match ws with
        | index :: array :: rest => do
          let v ← Exec.ask (.load (← StackCode.elementAddress W array index))
          return ⟨i.next, vs, v :: rest⟩
        | _ => throw .stuck)
      (evalCells W direct inputs n
        (elementCells opcode array index n ++ [(type, .arrayLoad (n + 1) (n + 3))]) ρ) := by
  obtain ⟨k, _, rfl, hk, hf₁⟩ := hf.pop
  obtain ⟨a, rest, rfl, ha, hf₂⟩ := hf₁.pop
  rw [evalCells_append]
  refine .bind (element_agrees ha hk hlt.tail.top hlt.top) ?_
  rintro address ρ' ⟨⟨base, offset, hbase, hoffset, rfl⟩, hold⟩
  simp only [elementCells, List.length_cons, List.length_nil, evalCells, eval, direct, hbase, hoffset,
    Exec.need_some, pure_bind]
  refine .bind_eq (.ask _) fun v => .pure ⟨rfl, ?_⟩
  have hf₃ : Holds ρ' ⟨ls, st⟩ vs rest := hf₂.congr fun id hid => hold id (hlt.tail.tail id hid)
  exact (hf₃.set hlt.tail.tail (Nat.le_add_right n 4) v).push (Env.set_self ..)

theorem arrayStore_agrees (h : Translates c at? i n .arrayStore f ns f') (hf : Holds ρ f vs ws) (hlt : f.Below n) :
    Exec.Agree (Next i f')
      (match ws with
        | value :: index :: array :: rest => do
          discard <| Exec.ask (.store (← StackCode.elementAddress W array index) value)
          return ⟨i.next, vs, rest⟩
        | _ => throw .stuck)
      (evalCells W direct inputs n ns ρ) := by
  cases h with
  | arrayStore =>
  obtain ⟨v, _, rfl, hv, hf₁⟩ := hf.pop
  obtain ⟨k, _, rfl, hk, hf₂⟩ := hf₁.pop
  obtain ⟨a, rest, rfl, ha, hf₃⟩ := hf₂.pop
  rw [evalCells_append]
  simp only [Exec.discard_bind]
  refine .bind (element_agrees ha hk hlt.tail.tail.top hlt.tail.top) ?_
  rintro address ρ' ⟨⟨base, offset, hbase, hoffset, rfl⟩, hold⟩
  simp only [elementCells, List.length_cons, List.length_nil, evalCells, eval, direct, hbase, hoffset,
    hold _ hlt.top, hv, Exec.need_some, pure_bind]
  refine .bind_eq (.ask _) fun u => .pure ⟨rfl, ?_⟩
  have hf₄ : Holds ρ' ⟨_, _⟩ vs rest := hf₃.congr fun id hid => hold id (hlt.tail.tail.tail id hid)
  exact hf₄.set hlt.tail.tail.tail (Nat.le_add_right n 4) u

theorem call_agrees {kind : CallKind} {index : Nat} (h : Translates c at? i n (.call kind index) f ns f')
    (hf : Holds ρ f vs ws) (hlt : f.Below n) :
    Exec.Agree (Next i f')
      (do let method ← Exec.need (c.pool.method index).toOption
          let type ← Exec.need (MethodType.ofDescriptor method.descriptor).toOption
          if ws.length < StackCode.argCount kind type then throw .stuck
          let v ← Exec.ask (.call method (ws.take (StackCode.argCount kind type)).reverse)
          let rest := ws.drop (StackCode.argCount kind type)
          return ⟨i.next, vs, if type.result = .void then rest else v :: rest⟩)
      (evalCells W direct inputs n ns ρ) := by
  cases h with
  | @call ls st _ _ count method type hmethod htype hcount hle =>
    have hkind : StackCode.argCount kind type = count := by
      rw [hcount]
      cases kind <;> rfl
    have hlen : ¬ ws.length < count := by
      rw [hf.length_stack]
      exact Nat.not_lt.2 hle
    simp only [hmethod, htype, Except.toOption, Exec.need_some, pure_bind, hkind, if_neg hlen, evalCells, eval,
      direct, hf.mapM_args count]
    refine .bind_eq (.ask _) fun v => .pure ⟨rfl, ?_⟩
    have hrest := (hf.drop count).set (hlt.drop count) (Nat.le_refl n) v
    by_cases hvoid : type.result = .void
    · simpa [MethodType.returnsValue, hvoid] using hrest
    · have hpush : Holds (ρ.set n v) ⟨ls, n :: st.drop count⟩ vs (v :: ws.drop count) := hrest.push (Env.set_self ..)
      simpa [MethodType.returnsValue, hvoid] using hpush

variable {s : StackCode.State W.Value} {effect : Effect}

theorem isPlain_of_translates {action : Action} (h : Translates c at? i n action f ns f')
    (hother : action.category = .other) : ∀ cell ∈ ns, cell.IsPlain := by
  cases h <;> cases hother <;> simp [elementCells, Cell.IsPlain, Op.isMerge, Op.isControl]

/-- An instruction that leads to the next one does to the values what its cells do. -/
theorem execute_agrees (h : Translates c at? i n (i.act effect) f ns f') (hother : effect.category = .other)
    (hf : Holds ρ f s.locals s.stack) (hlt : f.Below n) :
    Exec.Agree (Next i f') (StackCode.execute W c.pool i s effect) (evalCells W direct inputs n ns ρ) := by
  cases effect with
  | nop =>
    cases h
    exact .pure ⟨rfl, hf⟩
  | pushNull =>
    cases h
    exact .pure ⟨rfl, (hf.set hlt (Nat.le_refl n) _).push (Env.set_self ..)⟩
  | pushInt value => exact pushInt_agrees h hf hlt
  | pushByte => exact pushInt_agrees h hf hlt
  | pushShort => exact pushInt_agrees h hf hlt
  | pushConstant => exact pushConstant_agrees h hf hlt
  | pushConstantWide => exact pushConstant_agrees h hf hlt
  | load slot =>
    unfold StackCode.execute
    rw [i.slotOperand_eq]
    exact load_agrees h hf
  | store slot =>
    unfold StackCode.execute
    rw [i.slotOperand_eq]
    exact store_agrees h hf
  | arrayLoadInt =>
    cases h
    exact arrayLoad_agrees hf hlt
  | arrayLoadReference =>
    cases h
    exact arrayLoad_agrees hf hlt
  | arrayStore => exact arrayStore_agrees h hf hlt
  | pop =>
    cases h
    obtain ⟨v, rest, hws, -, hrest⟩ := hf.pop
    simp only [StackCode.execute, hws]
    exact .pure ⟨rfl, hrest⟩
  | dup =>
    cases h
    obtain ⟨v, rest, hws, hv, hrest⟩ := hf.pop
    simp only [StackCode.execute, hws]
    exact .pure ⟨rfl, (hrest.push hv).push hv⟩
  | swap =>
    cases h
    obtain ⟨v, _, hws, hv, hrest⟩ := hf.pop
    obtain ⟨w, rest, rfl, hw, hrest⟩ := hrest.pop
    simp only [StackCode.execute, hws]
    exact .pure ⟨rfl, (hrest.push hv).push hw⟩
  | arith op =>
    cases h
    obtain ⟨v, _, hws, hv, hrest⟩ := hf.pop
    obtain ⟨w, rest, rfl, hw, hrest⟩ := hrest.pop
    simp only [StackCode.execute, hws, evalCells, eval, direct, hv, hw, Exec.need_some, pure_bind]
    refine .bind_eq (.arith _ _ _) fun u => .pure ⟨rfl, ?_⟩
    exact (hrest.set hlt.tail.tail (Nat.le_refl n) u).push (Env.set_self ..)
  | negate =>
    cases h
    obtain ⟨v, rest, hws, hv, hrest⟩ := hf.pop
    simp only [StackCode.execute, hws, evalCells, eval, direct, hv, Exec.need_some, pure_bind]
    exact .pure ⟨rfl, (hrest.set hlt.tail (Nat.le_refl n) _).push (Env.set_self ..)⟩
  | increment =>
    unfold StackCode.execute
    rw [i.slotOperand_eq, i.amountOperand_eq]
    exact increment_agrees h hf hlt
  | getStatic => exact getStatic_agrees h hf hlt
  | putStatic => exact putStatic_agrees h hf hlt
  | call kind => exact call_agrees h hf hlt
  | branchZero | branchPair | branchNull | jump | switch | returnValue | returnVoid | raise => cases hother

/-! ## Instructions that lead elsewhere -/

variable {g : Graph}

/-- The run goes on at the start of a block, with the values that a frame has then. -/
def Leaves (g : Graph) (f : Frame) (s : StackCode.State W.Value) (r : Env W × BlockId) : Prop :=
  g.blockAt? s.pc = some r.2 ∧ Holds r.1 f s.locals s.stack

theorem goTo_agrees {target : Int} {t : BlockId} (ht : g.blockAtTarget? target = some t) (hf : Holds ρ f vs ws) :
    Exec.Agree (Leaves g f) (StackCode.goTo W target vs ws) (pure (ρ, t)) := by
  cases target with
  | ofNat a => exact .pure ⟨ht, hf⟩
  | negSucc a => cases ht

theorem choose_agrees {condition : Condition} {lhs rhs : W.Value} {target next : Int} {taken fallthrough : BlockId}
    (htaken : g.blockAtTarget? target = some taken) (hnext : g.blockAtTarget? next = some fallthrough)
    (hf : Holds ρ f vs ws) :
    Exec.Agree (Leaves g f) (StackCode.goTo W (W.choose condition lhs rhs target next) vs ws)
      (pure (ρ, W.choose condition lhs rhs taken fallthrough)) := by
  unfold World.choose
  split
  · exact goTo_agrees htaken hf
  · exact goTo_agrees hnext hf

/-- A value selects the block at the address that it selects. -/
theorem select_eq {address : Int} {value : W.Value} {cases : List (Int × Int)} {blocks : List (Int × BlockId)}
    {default : Int} {block : BlockId} (hdefault : at? (address + default) = some block)
    (hcases : List.Forall₂ (fun source case => source.1 = case.1 ∧ at? (address + source.2) = some case.2)
      cases blocks) :
    at? (address + W.select value default cases) = some (W.select value block blocks) := by
  unfold World.select
  induction hcases with
  | nil => exact hdefault
  | @cons source case _ _ hcase _ ih =>
    obtain ⟨hkey, htarget⟩ := hcase
    simp only [List.find?_cons, ← hkey]
    cases W.compare .eq value (W.int source.1) with
    | true => exact htarget
    | false => exact ih

/-- An instruction that leads elsewhere leads where its cells lead. -/
theorem leave_agrees (h : Translates c g.blockAtTarget? i n (i.act effect) f ns f')
    (hcat : i.category = effect.category)
    (hends : effect.category ≠ .other) (hf : Holds ρ f s.locals s.stack) (hlt : f.Below n) (rest : List Cell) :
    Exec.Agree (Leaves g f') (StackCode.execute W c.pool i s effect)
      (runCells W direct inputs n (ns ++ rest) ρ) := by
  cases effect with
  | branchZero condition =>
    have htargets := i.jumpTargets_eq_branchTarget (Or.inl hcat)
    cases h with
    | branchZero hjump htaken hnext =>
    obtain ⟨rfl, -⟩ := List.cons.inj (htargets.symm.trans hjump)
    obtain ⟨v, _, hws, hv, hrest⟩ := hf.pop
    have hlhs := (ρ.set_of_ne (W.int 0) (Nat.ne_of_lt hlt.top)).trans hv
    simp only [StackCode.execute, hws, List.cons_append, List.nil_append, runCells, Op.isMerge, Op.isControl, eval,
      follow, direct, hlhs, Env.set_self, Exec.need_some, pure_bind]
    exact choose_agrees htaken hnext (hrest.set hlt.tail (Nat.le_refl n) _)
  | branchPair condition =>
    have htargets := i.jumpTargets_eq_branchTarget (Or.inl hcat)
    cases h with
    | branchPair hjump htaken hnext =>
    obtain ⟨rfl, -⟩ := List.cons.inj (htargets.symm.trans hjump)
    obtain ⟨v, _, hws, hv, hrest⟩ := hf.pop
    obtain ⟨w, _, rfl, hw, hrest⟩ := hrest.pop
    simp only [StackCode.execute, hws, List.cons_append, List.nil_append, runCells, Op.isMerge, Op.isControl,
      follow, direct, hv, hw, Exec.need_some, pure_bind]
    exact choose_agrees htaken hnext hrest
  | branchNull condition =>
    have htargets := i.jumpTargets_eq_branchTarget (Or.inl hcat)
    cases h with
    | branchNull hjump htaken hnext =>
    obtain ⟨rfl, -⟩ := List.cons.inj (htargets.symm.trans hjump)
    obtain ⟨v, _, hws, hv, hrest⟩ := hf.pop
    have hlhs := (ρ.set_of_ne (W.int 0) (Nat.ne_of_lt hlt.top)).trans hv
    simp only [StackCode.execute, hws, List.cons_append, List.nil_append, runCells, Op.isMerge, Op.isControl, eval,
      follow, direct, hlhs, Env.set_self, Exec.need_some, pure_bind]
    exact choose_agrees htaken hnext (hrest.set hlt.tail (Nat.le_refl n) _)
  | jump =>
    have htargets := i.jumpTargets_eq_branchTarget (Or.inr hcat)
    cases h with
    | jump hjump htarget =>
    obtain ⟨rfl, -⟩ := List.cons.inj (htargets.symm.trans hjump)
    exact goTo_agrees htarget hf
  | switch =>
    cases h with
    | switch htable hdefault hcases =>
    obtain ⟨v, _, hws, hv, hrest⟩ := hf.pop
    simp only [StackCode.execute, hws, htable, List.cons_append, List.nil_append, runCells, Op.isMerge, Op.isControl,
      follow, direct, hv, Exec.need_some, pure_bind]
    exact goTo_agrees (select_eq hdefault hcases) hrest
  | returnValue =>
    cases h
    obtain ⟨v, _, hws, hv, -⟩ := hf.pop
    simp only [StackCode.execute, hws, List.cons_append, List.nil_append, runCells, Op.isMerge, Op.isControl,
      follow, direct, hv, Exec.need_some, pure_bind]
    exact .throw (by simp)
  | returnVoid =>
    cases h
    exact .throw (by simp)
  | raise =>
    cases h
    obtain ⟨v, _, hws, hv, -⟩ := hf.pop
    simp only [StackCode.execute, hws, List.cons_append, List.nil_append, runCells, Op.isMerge, Op.isControl,
      follow, direct, hv, Exec.need_some, pure_bind]
    exact .throw (by simp)
  | _ => exact absurd rfl hends

end Instructions

end Ssa

end Destack
