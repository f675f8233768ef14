import Mathlib.Tactic
import Destack.Pass

/-!
# What passes do

Inversion of a pass that ends well: each combinator is taken apart into the results of its parts, with the states
in between named. Where the errors of a pass matter, it has a specification (`Pass.Spec`), which is put together from
those of its parts. Proofs about passes only use these and never unfold the monad.
-/

namespace Destack.Pass

variable {σ τ α β γ : Type}

theorem bind_eq_ok {x : Pass σ α} {f : α → Pass σ β} {s s' : σ} {b : β} :
    (x >>= f) s = .ok b s' ↔ ∃ a t, x s = .ok a t ∧ f a t = .ok b s' := by
  change EStateM.bind x f s = _ ↔ _
  unfold EStateM.bind
  cases x s <;> simp

theorem bind_eq_error {x : Pass σ α} {f : α → Pass σ β} {s s' : σ} {e : Error} :
    (x >>= f) s = .error e s' ↔ x s = .error e s' ∨ ∃ a t, x s = .ok a t ∧ f a t = .error e s' := by
  change EStateM.bind x f s = _ ↔ _
  unfold EStateM.bind
  cases x s <;> simp

theorem pure_eq_ok {a b : α} {s s' : σ} : (pure a : Pass σ α) s = .ok b s' ↔ a = b ∧ s = s' := by
  change EStateM.Result.ok a s = _ ↔ _
  simp

theorem throw_eq_ok {e : Error} {s s' : σ} {a : α} : (throw e : Pass σ α) s = .ok a s' ↔ False := by
  change EStateM.Result.error e s = _ ↔ _
  simp

theorem get_eq_ok {s t s' : σ} : (get : Pass σ σ) s = .ok t s' ↔ s = t ∧ s = s' := by
  change EStateM.Result.ok s s = _ ↔ _
  simp

theorem set_eq_ok {t s s' : σ} {u : PUnit} : (set t : Pass σ PUnit) s = .ok u s' ↔ t = s' := by
  change EStateM.Result.ok PUnit.unit t = _ ↔ _
  simp

theorem modify_eq_ok {f : σ → σ} {s s' : σ} {u : PUnit} :
    (modify f : Pass σ PUnit) s = .ok u s' ↔ f s = s' := by
  change EStateM.Result.ok PUnit.unit (f s) = _ ↔ _
  simp

theorem discard_eq_ok {x : Pass σ α} {s s' : σ} {u : Unit} :
    (discard x) s = .ok u s' ↔ ∃ a, x s = .ok a s' := by
  change EStateM.map _ x s = _ ↔ _
  unfold EStateM.map
  cases x s <;> simp

theorem lift_eq_ok {e : Except Error α} {s s' : σ} {a : α} :
    lift e s = .ok a s' ↔ e = .ok a ∧ s = s' := by
  cases e with
  | ok b => simp only [lift, pure_eq_ok, Except.ok.injEq]
  | error e => simp only [lift, throw_eq_ok, reduceCtorEq, false_and]

theorem lift_eq_error {x : Except Error α} {s s' : σ} {e : Error} :
    lift x s = .error e s' ↔ x = .error e ∧ s = s' := by
  cases x with
  | ok b =>
    change EStateM.Result.ok b s = _ ↔ _
    simp
  | error e' =>
    change EStateM.Result.error e' s = _ ↔ _
    simp

theorem focus_eq_ok {enlarge : σ → τ} {restrict : τ → σ} {p : Pass τ α} {s s' : σ} {a : α} {t : τ} :
    focus enlarge restrict p s = .ok (a, t) s' ↔ p (enlarge s) = .ok a t ∧ restrict t = s' := by
  unfold focus
  cases p (enlarge s) with
  | ok b u =>
    simp only [EStateM.Result.ok.injEq, Prod.mk.injEq]
    constructor
    · rintro ⟨⟨rfl, rfl⟩, rfl⟩
      exact ⟨⟨rfl, rfl⟩, rfl⟩
    · rintro ⟨⟨rfl, rfl⟩, rfl⟩
      exact ⟨⟨rfl, rfl⟩, rfl⟩
  | error e u => simp

theorem focus_eq_error {enlarge : σ → τ} {restrict : τ → σ} {p : Pass τ α} {s s' : σ} {e : Error} :
    focus enlarge restrict p s = .error e s' ↔ ∃ t, p (enlarge s) = .error e t ∧ restrict t = s' := by
  unfold focus
  cases p (enlarge s) with
  | ok b u => simp
  | error e' u => simp [and_assoc]

/-! ## Running a pass

These run a pass whose steps are known in a given state. -/

theorem run_bind (x : Pass σ α) (f : α → Pass σ β) (s : σ) :
    (x >>= f) s = match x s with | .ok a t => f a t | .error e t => .error e t := by
  change EStateM.bind x f s = _
  unfold EStateM.bind
  cases x s <;> rfl

theorem run_pure (a : α) (s : σ) : (pure a : Pass σ α) s = .ok a s := rfl

theorem run_throw (e : Error) (s : σ) : (throw e : Pass σ α) s = .error e s := rfl

theorem run_get (s : σ) : (get : Pass σ σ) s = .ok s s := rfl

theorem run_set (t s : σ) : (set t : Pass σ PUnit) s = .ok ⟨⟩ t := rfl

theorem run_lift (a : α) (s : σ) : lift (.ok a) s = .ok a s := rfl

/-! ## Loops over lists -/

theorem forM_nil_eq_ok {f : α → Pass σ PUnit} {s s' : σ} {u : PUnit} :
    ([] : List α).forM f s = .ok u s' ↔ s = s' := by
  change EStateM.Result.ok PUnit.unit s = _ ↔ _
  simp

theorem forM_cons_eq_ok {f : α → Pass σ PUnit} {x : α} {xs : List α} {s s' : σ} {u : PUnit} :
    (x :: xs).forM f s = .ok u s' ↔ ∃ t, f x s = .ok () t ∧ xs.forM f t = .ok u s' := by
  change (f x >>= fun _ => xs.forM f) s = _ ↔ _
  rw [bind_eq_ok]
  constructor
  · rintro ⟨⟨⟩, t, hx, hxs⟩
    exact ⟨t, hx, hxs⟩
  · rintro ⟨t, hx, hxs⟩
    exact ⟨(), t, hx, hxs⟩

theorem mapM_nil_eq_ok {f : α → Pass σ β} {s s' : σ} {ys : List β} :
    ([] : List α).mapM f s = .ok ys s' ↔ [] = ys ∧ s = s' := by
  rw [List.mapM_nil, pure_eq_ok]

theorem mapM_cons_eq_ok {f : α → Pass σ β} {x : α} {xs : List α} {s s' : σ} {ys : List β} :
    (x :: xs).mapM f s = .ok ys s' ↔
      ∃ y t zs, f x s = .ok y t ∧ xs.mapM f t = .ok zs s' ∧ y :: zs = ys := by
  rw [List.mapM_cons, bind_eq_ok]
  constructor
  · rintro ⟨y, t, hx, h⟩
    rw [bind_eq_ok] at h
    obtain ⟨zs, t', hxs, h⟩ := h
    rw [pure_eq_ok] at h
    obtain ⟨rfl, rfl⟩ := h
    exact ⟨y, t, zs, hx, hxs, rfl⟩
  · rintro ⟨y, t, zs, hx, hxs, rfl⟩
    refine ⟨y, t, hx, ?_⟩
    rw [bind_eq_ok]
    exact ⟨zs, s', hxs, pure_eq_ok.2 ⟨rfl, rfl⟩⟩

/-- A loop whose steps only check something leaves the state alone. -/
theorem forM_check {f : α → Pass σ PUnit} {P : α → Prop}
    (hf : ∀ {x t t'}, f x t = .ok () t' → t = t' ∧ P x) {xs : List α} {s s' : σ} {u : PUnit}
    (h : xs.forM f s = .ok u s') : s = s' ∧ ∀ x ∈ xs, P x := by
  induction xs generalizing s with
  | nil => exact ⟨forM_nil_eq_ok.1 h, by simp⟩
  | cons x xs ih =>
    obtain ⟨t, hx, hxs⟩ := forM_cons_eq_ok.1 h
    obtain ⟨rfl, hP⟩ := hf hx
    obtain ⟨rfl, hall⟩ := ih hxs
    exact ⟨rfl, List.forall_mem_cons.2 ⟨hP, hall⟩⟩

/-! ## Specifications

`Spec` also says what the errors are that a pass can end with. A pass that never fails has errors with a property that
nothing has. -/

/-- What a pass does in a state: a result and a new state with one property, or an error with another. -/
def Spec (p : Pass σ α) (s : σ) (Q : α → σ → Prop) (E : Error → Prop) : Prop :=
  match p s with
  | .ok a t => Q a t
  | .error e _ => E e

namespace Spec

variable {p : Pass σ α} {s : σ} {Q Q' : α → σ → Prop} {E E' : Error → Prop}

theorem of_ok (h : Spec p s Q E) {a : α} {t : σ} (hp : p s = .ok a t) : Q a t := by
  unfold Spec at h
  rwa [hp] at h

theorem of_error (h : Spec p s Q E) {e : Error} {t : σ} (hp : p s = .error e t) : E e := by
  unfold Spec at h
  rwa [hp] at h

theorem intro_ok {a : α} {t : σ} (hp : p s = .ok a t) (h : Q a t) : Spec p s Q E := by
  unfold Spec
  rwa [hp]

theorem intro_error {e : Error} {t : σ} (hp : p s = .error e t) (h : E e) : Spec p s Q E := by
  unfold Spec
  rwa [hp]

/-- A pass that cannot fail ends well. -/
theorem exists_ok (h : Spec p s Q fun _ => False) : ∃ a t, p s = .ok a t ∧ Q a t := by
  unfold Spec at h
  cases hp : p s with
  | ok a t =>
    rw [hp] at h
    exact ⟨a, t, rfl, h⟩
  | error e t =>
    rw [hp] at h
    exact h.elim

/-- A pass that cannot end well fails. -/
theorem exists_error (h : Spec p s (fun _ _ => False) E) : ∃ e t, p s = .error e t ∧ E e := by
  unfold Spec at h
  cases hp : p s with
  | ok a t =>
    rw [hp] at h
    exact h.elim
  | error e t =>
    rw [hp] at h
    exact ⟨e, t, rfl, h⟩

theorem mono (h : Spec p s Q E) (hQ : ∀ a t, Q a t → Q' a t) (hE : ∀ e, E e → E' e) : Spec p s Q' E' := by
  unfold Spec at h ⊢
  cases hp : p s with
  | ok a t =>
    rw [hp] at h
    exact hQ a t h
  | error e t =>
    rw [hp] at h
    exact hE e h

/-- What is known of a pass that ends well adds to its specification. -/
theorem of_ok_imp (h : Spec p s Q E) (hQ : ∀ a t, p s = .ok a t → Q a t → Q' a t) : Spec p s Q' E := by
  unfold Spec at h ⊢
  cases hp : p s with
  | ok a t =>
    rw [hp] at h
    exact hQ a t hp h
  | error e t =>
    rw [hp] at h
    exact h

theorem pure {a : α} (h : Q a s) : Spec (Pure.pure a) s Q E :=
  h

theorem throw {e : Error} (h : E e) : Spec (MonadExcept.throw e) s Q E :=
  h

theorem bind {R : β → σ → Prop} {f : α → Pass σ β} (h : Spec p s Q E) (hf : ∀ a t, Q a t → Spec (f a) t R E) :
    Spec (p >>= f) s R E := by
  unfold Spec at h
  change match EStateM.bind p f s with | .ok a t => R a t | .error e _ => E e
  unfold EStateM.bind
  cases hp : p s with
  | ok a t =>
    rw [hp] at h
    exact hf a t h
  | error e t =>
    rw [hp] at h
    exact h

/-- Nothing follows a pass that fails. -/
theorem stop_bind {R : β → σ → Prop} {f : α → Pass σ β} (h : Spec p s (fun _ _ => False) E) : Spec (p >>= f) s R E :=
  bind h fun _ _ hfalse => hfalse.elim

theorem get_bind {f : σ → Pass σ α} (h : Spec (f s) s Q E) : Spec (get >>= f) s Q E :=
  h

theorem modify {Q : PUnit → σ → Prop} {f : σ → σ} (h : Q ⟨⟩ (f s)) : Spec (modify f) s Q E :=
  h

theorem modify_bind {f : σ → σ} {k : PUnit → Pass σ α} (h : Spec (k ⟨⟩) (f s) Q E) :
    Spec (MonadState.modifyGet (fun s => (⟨⟩, f s)) >>= k) s Q E :=
  h

theorem modifyGet {f : σ → α × σ} (h : Q (f s).1 (f s).2) : Spec (MonadState.modifyGet f) s Q E :=
  h

theorem lift {x : Except Error α} (hok : ∀ a, x = .ok a → Q a s) (herror : ∀ e, x = .error e → E e) :
    Spec (Pass.lift x) s Q E := by
  cases x with
  | ok a => exact hok a rfl
  | error e => exact herror e rfl

theorem lift_bind {x : Except Error β} {b : β} {f : β → Pass σ α} (hx : x = .ok b) (h : Spec (f b) s Q E) :
    Spec (Pass.lift x >>= f) s Q E := by
  subst hx
  exact h

theorem lift_bind_error {x : Except Error β} {e : Error} {f : β → Pass σ α} (hx : x = .error e) (h : E e) :
    Spec (Pass.lift x >>= f) s Q E := by
  subst hx
  exact h

theorem discard {Q : σ → Prop} (h : Spec p s (fun _ => Q) E) : Spec (Functor.discard p) s (fun _ => Q) E := by
  have h' : Spec (p >>= fun _ => Pure.pure ()) s (fun _ => Q) E := bind h fun _ _ ht => ht
  rwa [bind_pure_comp] at h'

theorem focus {enlarge : τ → σ} {restrict : σ → τ} {s : τ} {Q : α × σ → τ → Prop}
    (h : Spec p (enlarge s) (fun a t => Q (a, t) (restrict t)) E) : Spec (Pass.focus enlarge restrict p) s Q E := by
  unfold Spec Pass.focus at *
  cases hp : p (enlarge s) with
  | ok a t =>
    rw [hp] at h
    exact h
  | error e t =>
    rw [hp] at h
    exact h

-- The lemmas above are all that is used: a specification is not to be unfolded and run.
attribute [irreducible] Spec

/-- What every step of a loop keeps holds after it, and all errors come from a step. The property may depend on how
far the loop has come. -/
theorem forM {P : List α → σ → Prop} {f : α → Pass σ PUnit} {xs : List α}
    (hstep : ∀ front x rest, xs = front ++ x :: rest → ∀ t, P front t → Spec (f x) t (fun _ => P (front ++ [x])) E)
    (hs : P [] s) : Spec (xs.forM f) s (fun _ => P xs) E := by
  suffices h : ∀ rest front, xs = front ++ rest → ∀ t, P front t → Spec (rest.forM f) t (fun _ => P xs) E from
    h xs [] rfl s hs
  intro rest
  induction rest with
  | nil =>
    intro front hsplit t ht
    rw [hsplit, List.append_nil]
    exact pure ht
  | cons x rest ih =>
    intro front hsplit t ht
    refine bind (hstep front x rest hsplit t ht) fun _ t' ht' => ih (front ++ [x]) ?_ t' ht'
    rw [hsplit, List.append_assoc, List.singleton_append]

/-- A loop ends at a step that fails, if the steps ahead of it end well. -/
theorem forM_stop {f : α → Pass σ PUnit} {front rest : List α} {x : α} {u : PUnit} {t : σ}
    (hfront : front.forM f s = .ok u t) (hx : Spec (f x) t (fun _ _ => False) E) :
    Spec ((front ++ x :: rest).forM f) s (fun _ _ => False) E := by
  induction front generalizing s with
  | nil =>
    obtain rfl := forM_nil_eq_ok.1 hfront
    exact stop_bind hx
  | cons y front ih =>
    obtain ⟨t', hy, hfront⟩ := forM_cons_eq_ok.1 hfront
    refine bind (Q := fun _ t => t = t') (intro_ok hy rfl) fun _ t heq => ?_
    subst heq
    exact ih hfront

/-- A loop that collects results, given what its steps keep. -/
theorem mapM {P : List α → List β → σ → Prop} {f : α → Pass σ β} {xs : List α}
    (hstep : ∀ front x rest, xs = front ++ x :: rest → ∀ ys t, P front ys t →
      Spec (f x) t (fun y => P (front ++ [x]) (ys ++ [y])) E)
    (hs : P [] [] s) : Spec (xs.mapM f) s (P xs) E := by
  suffices h : ∀ rest front, xs = front ++ rest → ∀ ys t, P front ys t →
      Spec (rest.mapM f) t (fun zs => P xs (ys ++ zs)) E from
    h xs [] rfl [] s hs
  intro rest
  induction rest with
  | nil =>
    intro front hsplit ys t ht
    rw [List.append_nil] at hsplit
    subst hsplit
    rw [List.mapM_nil]
    exact pure (by rwa [List.append_nil])
  | cons x rest ih =>
    intro front hsplit ys t ht
    rw [List.mapM_cons]
    refine bind (hstep front x rest hsplit ys t ht) fun y t' ht' => ?_
    refine bind (ih (front ++ [x]) ?_ _ t' ht') fun zs t'' ht'' => pure ?_
    · rw [hsplit, List.append_assoc, List.singleton_append]
    · rwa [List.append_assoc, List.singleton_append] at ht''

end Spec

end Destack.Pass

namespace Destack

/-! ## Computations without a state -/

theorem except_bind_eq_ok {ε α β : Type} {x : Except ε α} {f : α → Except ε β} {b : β} :
    (x >>= f) = .ok b ↔ ∃ a, x = .ok a ∧ f a = .ok b := by
  cases x <;> simp [bind, Except.bind]

theorem toOption_eq_some {ε α : Type} {x : Except ε α} {a : α} : x.toOption = some a ↔ x = .ok a := by
  cases x <;> simp [Except.toOption]

theorem except_pure_eq_ok {ε α : Type} {a b : α} : (pure a : Except ε α) = .ok b ↔ a = b := by
  simp [pure, Except.pure]

/-- A loop whose steps all succeed collects their results. -/
theorem mapM_eq_ok_map {ε α β : Type} {f : α → Except ε β} {value : α → β} {xs : List α}
    (h : ∀ x ∈ xs, f x = .ok (value x)) : xs.mapM f = .ok (xs.map value) := by
  induction xs with
  | nil => rfl
  | cons x xs ih =>
    rw [List.mapM_cons, h x List.mem_cons_self, ih fun y hy => h y (List.mem_cons_of_mem x hy)]
    rfl

theorem eq_map_of_mapM_eq_ok {ε α β : Type} {f : α → Except ε β} {value : α → β} {xs : List α} {ys : List β}
    (hf : ∀ x y, f x = .ok y → y = value x) (h : xs.mapM f = .ok ys) : ys = xs.map value := by
  induction xs generalizing ys with
  | nil => exact (except_pure_eq_ok.1 (List.mapM_nil (f := f) ▸ h)).symm
  | cons x xs ih =>
    rw [List.mapM_cons] at h
    obtain ⟨y, hy, h⟩ := except_bind_eq_ok.1 h
    obtain ⟨zs, hzs, h⟩ := except_bind_eq_ok.1 h
    rw [← except_pure_eq_ok.1 h, List.map_cons, hf x y hy, ih hzs]

/-- A loop ends well if all its steps do, as long as they keep something. -/
theorem exists_foldlM_eq_ok {ε α β : Type} {f : α → β → Except ε α} (P : α → Prop) {l : List β} {a : α}
    (hstep : ∀ a x, x ∈ l → P a → ∃ a', f a x = .ok a' ∧ P a') (ha : P a) : ∃ a', l.foldlM f a = .ok a' ∧ P a' := by
  induction l generalizing a with
  | nil => exact ⟨a, rfl, ha⟩
  | cons x l ih =>
    obtain ⟨a₁, hx, ha₁⟩ := hstep a x List.mem_cons_self ha
    obtain ⟨a', hxs, ha'⟩ := ih (fun a y hy => hstep a y (List.mem_cons_of_mem x hy)) ha₁
    exact ⟨a', by rw [List.foldlM_cons, hx]; exact hxs, ha'⟩

theorem eq_foldl_of_foldlM_eq_ok {ε α β : Type} {f : α → β → Except ε α} {value : α → β → α} {xs : List β}
    {a a' : α} (hf : ∀ a x a', f a x = .ok a' → a' = value a x) (h : xs.foldlM f a = .ok a') :
    a' = xs.foldl value a := by
  induction xs generalizing a with
  | nil => exact (except_pure_eq_ok.1 (List.foldlM_nil (f := f) ▸ h)).symm
  | cons x xs ih =>
    rw [List.foldlM_cons] at h
    obtain ⟨a₁, hx, h⟩ := except_bind_eq_ok.1 h
    rw [List.foldl_cons, ← hf a x a₁ hx]
    exact ih h

theorem exists_mem_of_mapM_eq_ok {ε α β : Type} {f : α → Except ε β} {xs : List α} {ys : List β}
    (h : xs.mapM f = .ok ys) {x : α} (hx : x ∈ xs) : ∃ y ∈ ys, f x = .ok y := by
  induction xs generalizing ys with
  | nil => cases hx
  | cons x' xs ih =>
    rw [List.mapM_cons] at h
    obtain ⟨y, hy, h⟩ := except_bind_eq_ok.1 h
    obtain ⟨zs, hzs, h⟩ := except_bind_eq_ok.1 h
    obtain rfl := except_pure_eq_ok.1 h
    rcases List.mem_cons.1 hx with rfl | hx
    · exact ⟨y, List.mem_cons_self, hy⟩
    · obtain ⟨z, hz, hfz⟩ := ih hzs hx
      exact ⟨z, List.mem_cons_of_mem y hz, hfz⟩

theorem exists_source_of_mapM_eq_ok {ε α β : Type} {f : α → Except ε β} {xs : List α} {ys : List β}
    (h : xs.mapM f = .ok ys) {y : β} (hy : y ∈ ys) : ∃ x ∈ xs, f x = .ok y := by
  induction xs generalizing ys with
  | nil =>
    rw [List.mapM_nil, except_pure_eq_ok] at h
    subst h
    cases hy
  | cons x xs ih =>
    rw [List.mapM_cons] at h
    obtain ⟨z, hz, h⟩ := except_bind_eq_ok.1 h
    obtain ⟨zs, hzs, h⟩ := except_bind_eq_ok.1 h
    obtain rfl := except_pure_eq_ok.1 h
    rcases List.mem_cons.1 hy with rfl | hy
    · exact ⟨x, List.mem_cons_self, hz⟩
    · obtain ⟨w, hw, hfw⟩ := ih hzs hy
      exact ⟨w, List.mem_cons_of_mem x hw, hfw⟩

theorem exists_mem_of_mapM_eq_error {ε α β : Type} {f : α → Except ε β} {xs : List α} {e : ε}
    (h : xs.mapM f = .error e) : ∃ x ∈ xs, f x = .error e := by
  induction xs with
  | nil => cases h
  | cons x xs ih =>
    rw [List.mapM_cons] at h
    cases hx : f x with
    | error e' =>
      rw [hx] at h
      exact ⟨x, List.mem_cons_self, by rw [hx]; exact congrArg Except.error (Except.error.inj h)⟩
    | ok y =>
      rw [hx] at h
      cases hxs : xs.mapM f with
      | ok ys => rw [hxs] at h; cases h
      | error e' =>
        rw [hxs] at h
        obtain ⟨w, hw, hfw⟩ := ih (hxs.trans (congrArg Except.error (Except.error.inj h)))
        exact ⟨w, List.mem_cons_of_mem x hw, hfw⟩

end Destack
