import Mathlib.Tactic
import Destack.ConstantPool
import Destack.Opcode

/-!
# Worlds and runs

A method is run in a world, which says what its values are, how they are computed with, and how the surroundings
answer to what the method does: to accesses of static fields and memory, and to calls. An answer may depend on
everything the method did before, so a world stands for any behaviour of fields, memory and callees.

A run collects the events in order and ends in one of a few ways. Stack code, nodes and register code are all run in
this way, and `Exec.Agree` says that two runs go the same way: the same events, the same end, related results, and
neither of them stuck. It comes in two parts where that is easier: the first run is not stuck (`Exec.Safe`), and the
second one goes the same way unless it is (`Exec.Refines`).
-/

namespace Destack

/-- What a running method asks of its surroundings. -/
inductive Event (V : Type) where
  | getStatic (field : Member)
  | putStatic (field : Member) (value : V)
  | load (address : V)
  | store (address value : V)
  | call (method : Member) (args : List V)

/-- Values and surroundings of a run. References are words like integers, and the null reference is the word of the
integer zero. -/
structure World where
  Value : Type
  int : Int → Value
  /-- Reference to a string literal. -/
  literal : String → Value
  /-- Result of an integer operation, missing if it traps. -/
  arith : ArithOp → Value → Value → Option Value
  negate : Value → Value
  /-- The address at an offset from a base. -/
  address : Value → Value → Value
  compare : Condition → Value → Value → Bool
  /-- Answer to the first of the events, the others being those before it, last one first. It is missing if control
  does not come back. -/
  answer : List (Event Value) → Option Value

/-- Contents of the formal parameters, by index, and of the local slots that nothing was stored in. -/
structure Inputs (V : Type) where
  arg : Nat → V
  unset : Nat → V

/-- The two-way choice of the world's comparison. -/
def World.choose {α : Type} (W : World) (c : Condition) (lhs rhs : W.Value) (yes no : α) : α :=
  if W.compare c lhs rhs then yes else no

/-- The target of the first case whose key is the value. -/
def World.select {α : Type} (W : World) (value : W.Value) (default : α) (cases : List (Int × α)) : α :=
  ((cases.find? fun (key, _) => W.compare .eq value (W.int key)).map (·.2)).getD default

theorem World.choose_mem {α : Type} (W : World) (c : Condition) (lhs rhs : W.Value) (yes no : α) :
    W.choose c lhs rhs yes no ∈ [yes, no] := by
  unfold choose
  split <;> simp

theorem World.select_mem {α : Type} (W : World) (value : W.Value) (default : α) (cases : List (Int × α)) :
    W.select value default cases ∈ default :: cases.map (·.2) := by
  unfold select
  generalize hfind : cases.find? _ = found
  cases found with
  | none => exact List.mem_cons_self
  | some case => exact List.mem_cons_of_mem _ (List.mem_map_of_mem (List.mem_of_find?_eq_some hfind))

/-- Ways in which a run ends. -/
inductive Halt (V : Type) where
  | returned (value : Option V)
  | raised (value : V)
  /-- An operation trapped, or the surroundings did not give control back. -/
  | lost
  /-- The run asked for something that is not there: an operand, a slot, an instruction. -/
  | stuck

/-- A run, which collects events, last one first. -/
abbrev Exec (W : World) := EStateM (Halt W.Value) (List (Event W.Value))

namespace Exec

variable {W : World} {α β γ δ : Type}

/-- Continues with something that has to be there. -/
def need : Option α → Exec W α
  | some a => pure a
  | none => throw .stuck

/-- Continues with the result of an integer operation. -/
def arith (op : ArithOp) (lhs rhs : W.Value) : Exec W W.Value :=
  match W.arith op lhs rhs with
  | some v => pure v
  | none => throw .lost

/-- Does something to the surroundings and continues with their answer. -/
def ask (e : Event W.Value) : Exec W W.Value := fun events =>
  match W.answer (e :: events) with
  | some v => .ok v (e :: events)
  | none => .error .lost (e :: events)

/-- Repeats a step. -/
def iterate (step : α → Exec W α) : Nat → α → Exec W α
  | 0, a => pure a
  | n + 1, a => do iterate step n (← step a)

theorem need_some (a : α) : need (W := W) (some a) = pure a := rfl

theorem discard_bind (x : Exec W α) (f : PUnit → Exec W β) : (discard x >>= f) = x >>= fun _ => f ⟨⟩ := by
  simp only [Functor.discard, map_const, Function.comp, bind_map_left, Function.const]

/-! ## Agreement -/

/-- Two outcomes are the same up to a relation of their results, and neither is stuck. -/
def Same (R : α → β → Prop) :
    EStateM.Result (Halt W.Value) (List (Event W.Value)) α →
    EStateM.Result (Halt W.Value) (List (Event W.Value)) β → Prop
  | .ok a t, .ok b u => R a b ∧ t = u
  | .error x t, .error y u => x = y ∧ t = u ∧ x ≠ .stuck
  | _, _ => False

/-- Two runs go the same way whatever happened before. -/
def Agree (R : α → β → Prop) (x : Exec W α) (y : Exec W β) : Prop :=
  ∀ events, Same R (x events) (y events)

namespace Agree

theorem pure {R : α → β → Prop} {a : α} {b : β} (h : R a b) :
    Agree (W := W) R (Pure.pure a) (Pure.pure b) :=
  fun _ => ⟨h, rfl⟩

theorem throw {R : α → β → Prop} {x : Halt W.Value} (h : x ≠ .stuck) :
    Agree (W := W) R (MonadExcept.throw x) (MonadExcept.throw x) :=
  fun _ => ⟨rfl, rfl, h⟩

theorem mono {R S : α → β → Prop} {x : Exec W α} {y : Exec W β} (h : Agree R x y)
    (hRS : ∀ a b, R a b → S a b) : Agree S x y := by
  intro events
  have := h events
  cases hx : x events <;> cases hy : y events <;> rw [hx, hy] at this
  · exact ⟨hRS _ _ this.1, this.2⟩
  · exact this
  · exact this
  · exact this

theorem bind {R : α → β → Prop} {S : γ → δ → Prop} {x : Exec W α} {y : Exec W β} {f : α → Exec W γ}
    {g : β → Exec W δ} (h : Agree R x y) (hfg : ∀ a b, R a b → Agree S (f a) (g b)) :
    Agree S (x >>= f) (y >>= g) := by
  intro events
  have := h events
  change Same S (EStateM.bind x f events) (EStateM.bind y g events)
  unfold EStateM.bind
  cases hx : x events <;> cases hy : y events <;> rw [hx, hy] at this
  · obtain ⟨hab, rfl⟩ := this
    exact hfg _ _ hab _
  · exact this.elim
  · exact this.elim
  · exact this

theorem bind_eq {S : γ → δ → Prop} {x y : Exec W α} {f : α → Exec W γ} {g : α → Exec W δ}
    (h : Agree (· = ·) x y) (hfg : ∀ a, Agree S (f a) (g a)) : Agree S (x >>= f) (y >>= g) :=
  bind h fun a _ e => e ▸ hfg a

theorem arith (op : ArithOp) (lhs rhs : W.Value) :
    Agree (· = ·) (Exec.arith (W := W) op lhs rhs) (Exec.arith op lhs rhs) := by
  unfold Exec.arith
  cases W.arith op lhs rhs with
  | some v => exact pure rfl
  | none => exact throw (by simp)

theorem ask (e : Event W.Value) : Agree (· = ·) (Exec.ask (W := W) e) (Exec.ask e) := by
  intro events
  unfold Exec.ask
  cases W.answer (e :: events) with
  | some v => exact ⟨rfl, rfl⟩
  | none => exact ⟨rfl, rfl, by simp⟩

/-- Steps that keep a relation keep it in any number. -/
theorem iterate {R : α → β → Prop} {f : α → Exec W α} {g : β → Exec W β}
    (hstep : ∀ a b, R a b → Agree R (f a) (g b)) :
    ∀ (n : Nat) {a : α} {b : β}, R a b → Agree R (Exec.iterate f n a) (Exec.iterate g n b) := by
  intro n
  induction n with
  | zero => intro a b h; exact pure h
  | succ n ih => intro a b h; exact bind (hstep a b h) fun a' b' h' => ih h'

end Agree

/-! ## Results of a run -/

/-- A run that gives a result gives one with a property. -/
def Yields (P : α → Prop) (x : Exec W α) : Prop :=
  ∀ events a events', x events = .ok a events' → P a

namespace Yields

theorem pure {P : α → Prop} {a : α} (h : P a) : Yields (W := W) P (Pure.pure a) := by
  intro events b events' hb
  cases hb
  exact h

theorem throw {P : α → Prop} (x : Halt W.Value) : Yields (W := W) P (MonadExcept.throw x) := by
  intro events b events' hb
  cases hb

theorem mono {P Q : α → Prop} {x : Exec W α} (h : Yields P x) (hPQ : ∀ a, P a → Q a) : Yields Q x :=
  fun _ a _ ha => hPQ a (h _ a _ ha)

theorem bind {P : α → Prop} {Q : β → Prop} {x : Exec W α} {f : α → Exec W β} (hx : Yields P x)
    (h : ∀ a, P a → Yields Q (f a)) : Yields Q (x >>= f) := by
  intro events b events' hb
  change EStateM.bind x f events = _ at hb
  unfold EStateM.bind at hb
  cases ha : x events with
  | ok a t =>
    rw [ha] at hb
    exact h a (hx _ a _ ha) _ b _ hb
  | error e t =>
    rw [ha] at hb
    cases hb

theorem of_bind {Q : β → Prop} {x : Exec W α} {f : α → Exec W β} (h : ∀ a, Yields Q (f a)) : Yields Q (x >>= f) :=
  bind (P := fun _ => True) (fun _ _ _ _ => trivial) fun a _ => h a

end Yields

theorem Agree.yields_left {R : α → β → Prop} {x : Exec W α} {y : Exec W β} (h : Agree R x y) :
    Yields (fun a => ∃ b, R a b) x := by
  intro events a events' ha
  have := h events
  cases hy : y events <;> rw [ha, hy] at this
  · exact ⟨_, this.1⟩
  · exact this.elim

/-- A property of the results of one run comes on top of what relates the two. -/
theorem Agree.and_right {R : α → β → Prop} {P : β → Prop} {x : Exec W α} {y : Exec W β} (h : Agree R x y)
    (hy : Yields P y) : Agree (fun a b => R a b ∧ P b) x y := by
  intro events
  have := h events
  cases hx : x events <;> cases hb : y events <;> rw [hx, hb] at this
  · exact ⟨⟨this.1, hy _ _ _ hb⟩, this.2⟩
  · exact this
  · exact this
  · exact this

/-! ## Runs that are not stuck -/

/-- A run is not stuck, and a result that it gives has a property. -/
def Safe (P : α → Prop) (x : Exec W α) : Prop :=
  ∀ events, match x events with
    | .ok a _ => P a
    | .error e _ => e ≠ .stuck

namespace Safe

theorem pure {P : α → Prop} {a : α} (h : P a) : Safe (W := W) P (Pure.pure a) :=
  fun _ => h

theorem throw {P : α → Prop} {x : Halt W.Value} (h : x ≠ .stuck) : Safe (W := W) P (MonadExcept.throw x) :=
  fun _ => h

theorem yields {P : α → Prop} {x : Exec W α} (h : Safe P x) : Yields P x := by
  intro events a events' ha
  have := h events
  rwa [ha] at this

/-- Of two runs that agree the second one is not stuck either. -/
theorem of_agree {R : α → β → Prop} {x : Exec W α} {y : Exec W β} (h : Agree R x y) : Safe (fun _ => True) y := by
  intro events
  have := h events
  cases hx : x events <;> cases hy : y events <;> rw [hx, hy] at this
  · trivial
  · exact this.elim
  · exact this.elim
  · obtain ⟨rfl, -, hne⟩ := this
    exact hne

theorem mono {P Q : α → Prop} {x : Exec W α} (h : Safe P x) (hPQ : ∀ a, P a → Q a) : Safe Q x := by
  intro events
  have := h events
  cases hx : x events <;> rw [hx] at this
  · exact hPQ _ this
  · exact this

theorem bind {P : α → Prop} {Q : β → Prop} {x : Exec W α} {f : α → Exec W β} (hx : Safe P x)
    (h : ∀ a, P a → Safe Q (f a)) : Safe Q (x >>= f) := by
  intro events
  have := hx events
  change match EStateM.bind x f events with | .ok a _ => Q a | .error e _ => e ≠ .stuck
  unfold EStateM.bind
  cases ha : x events <;> rw [ha] at this
  · exact h _ this _
  · exact this

theorem and_yields {P Q : α → Prop} {x : Exec W α} (h : Safe P x) (hQ : Yields Q x) : Safe (fun a => P a ∧ Q a) x := by
  intro events
  have := h events
  cases hx : x events <;> rw [hx] at this
  · exact ⟨this, hQ _ _ _ hx⟩
  · exact this

theorem need {a : Option α} (h : a.isSome = true) : Safe (W := W) (fun b => a = some b) (Exec.need a) := by
  obtain ⟨b, rfl⟩ := Option.isSome_iff_exists.1 h
  exact pure rfl

theorem arith (op : ArithOp) (lhs rhs : W.Value) : Safe (W := W) (fun _ => True) (Exec.arith op lhs rhs) := by
  unfold Exec.arith
  cases W.arith op lhs rhs with
  | some v => exact pure trivial
  | none => exact throw (by simp)

theorem ask (e : Event W.Value) : Safe (W := W) (fun _ => True) (Exec.ask e) := by
  intro events
  unfold Exec.ask
  cases W.answer (e :: events) with
  | some v => trivial
  | none => simp

/-- Steps that keep a property keep it in any number. -/
theorem iterate {P : α → Prop} {f : α → Exec W α} (hstep : ∀ a, P a → Safe P (f a)) :
    ∀ (n : Nat) {a : α}, P a → Safe P (Exec.iterate f n a) := by
  intro n
  induction n with
  | zero => intro a h; exact pure h
  | succ n ih => intro a h; exact bind (hstep a h) fun a' h' => ih h'

end Safe

/-- The second run goes the same way as the first one, unless that one is stuck. -/
def Refines (R : α → β → Prop) (x : Exec W α) (y : Exec W β) : Prop :=
  ∀ events, (∃ t, x events = .error .stuck t) ∨ Same R (x events) (y events)

namespace Refines

theorem stuck {R : α → β → Prop} {y : Exec W β} : Refines R (MonadExcept.throw .stuck) y :=
  fun _ => Or.inl ⟨_, rfl⟩

theorem pure {R : α → β → Prop} {a : α} {b : β} (h : R a b) :
    Refines (W := W) R (Pure.pure a) (Pure.pure b) :=
  fun _ => Or.inr ⟨h, rfl⟩

theorem throw {R : α → β → Prop} (x : Halt W.Value) :
    Refines (W := W) R (MonadExcept.throw x) (MonadExcept.throw x) := by
  by_cases hx : x = .stuck
  · subst hx
    exact stuck
  · exact fun _ => Or.inr ⟨rfl, rfl, hx⟩

theorem refl (x : Exec W α) : Refines (· = ·) x x := by
  intro events
  cases hx : x events with
  | ok a t => exact Or.inr ⟨rfl, rfl⟩
  | error e t =>
    by_cases he : e = .stuck
    · exact Or.inl ⟨t, by rw [he]⟩
    · exact Or.inr ⟨rfl, rfl, he⟩

theorem mono {R S : α → β → Prop} {x : Exec W α} {y : Exec W β} (h : Refines R x y)
    (hRS : ∀ a b, R a b → S a b) : Refines S x y := by
  intro events
  refine (h events).imp_right fun hsame => ?_
  cases hx : x events <;> cases hy : y events <;> rw [hx, hy] at hsame
  · exact ⟨hRS _ _ hsame.1, hsame.2⟩
  · exact hsame
  · exact hsame
  · exact hsame

theorem bind {R : α → β → Prop} {S : γ → δ → Prop} {x : Exec W α} {y : Exec W β} {f : α → Exec W γ}
    {g : β → Exec W δ} (h : Refines R x y) (hfg : ∀ a b, R a b → Refines S (f a) (g b)) :
    Refines S (x >>= f) (y >>= g) := by
  intro events
  change (∃ t, EStateM.bind x f events = _) ∨ Same S (EStateM.bind x f events) (EStateM.bind y g events)
  unfold EStateM.bind
  rcases h events with ⟨t, ht⟩ | hsame
  · exact Or.inl ⟨t, by rw [ht]⟩
  · cases hx : x events <;> cases hy : y events <;> rw [hx, hy] at hsame
    · obtain ⟨hab, rfl⟩ := hsame
      exact hfg _ _ hab _
    · exact hsame.elim
    · exact hsame.elim
    · exact Or.inr hsame

/-- A run that gives a result whatever happened before, and does nothing to its surroundings. -/
theorem of_ok {R : α → β → Prop} {a : α} {y : Exec W β} (h : ∀ events, ∃ b, y events = .ok b events ∧ R a b) :
    Refines R (Pure.pure a) y := by
  intro events
  obtain ⟨b, hy, hab⟩ := h events
  right
  rw [hy]
  exact ⟨hab, rfl⟩

/-- A run that goes on from the result of another one. -/
theorem bind_right {R : α → β → Prop} (x : Exec W α) {f : α → Exec W β} (h : ∀ a, Refines R (Pure.pure a) (f a)) :
    Refines R x (x >>= f) := by
  have := bind (refl x) (S := R) (f := Pure.pure) (g := f) fun a b hab => hab ▸ h a
  rwa [bind_pure] at this

theorem and_left {P : α → Prop} {R : α → β → Prop} {x : Exec W α} {y : Exec W β} (h : Refines R x y)
    (hx : Yields P x) : Refines (fun a b => P a ∧ R a b) x y := by
  intro events
  refine (h events).imp_right fun hsame => ?_
  cases ha : x events <;> cases hy : y events <;> rw [ha, hy] at hsame
  · exact ⟨⟨hx _ _ _ ha, hsame.1⟩, hsame.2⟩
  · exact hsame
  · exact hsame
  · exact hsame

/-- A value that is missing leaves the first run stuck. -/
theorem need_bind {R : γ → β → Prop} {v : Option α} {f : α → Exec W γ} {y : Exec W β}
    (h : ∀ a, v = some a → Refines R (f a) y) : Refines R (Exec.need v >>= f) y := by
  cases v with
  | none => exact fun _ => Or.inl ⟨_, rfl⟩
  | some a => exact h a rfl

/-- Steps that keep a relation keep it in any number. -/
theorem iterate {R : α → β → Prop} {f : α → Exec W α} {g : β → Exec W β}
    (hstep : ∀ a b, R a b → Refines R (f a) (g b)) :
    ∀ (n : Nat) {a : α} {b : β}, R a b → Refines R (Exec.iterate f n a) (Exec.iterate g n b) := by
  intro n
  induction n with
  | zero => intro a b h; exact pure h
  | succ n ih => intro a b h; exact bind (hstep a b h) fun a' b' h' => ih h'

/-- If the first run is not stuck, the two agree. -/
theorem agree {P : α → Prop} {R : α → β → Prop} {x : Exec W α} {y : Exec W β} (h : Refines R x y) (hx : Safe P x) :
    Agree R x y := by
  intro events
  refine (h events).resolve_left fun ⟨t, ht⟩ => ?_
  have := hx events
  rw [ht] at this
  exact this rfl

end Refines

end Exec

end Destack
