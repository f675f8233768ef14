import Destack.Proofs.Pass

/-!
# Passes step by step

What a pass does to its state is often a relation that holds between any two states on its way, also up to a failure:
`Pass.Leads` says so for a pass as a whole and is put together from its parts. Where the states on the way matter
themselves, a pass is written out as a script (`Pass.Script`), whose run is the pass and which visits states.
-/

namespace Destack.Pass

variable {σ τ α β : Type} {R : σ → σ → Prop}

/-! ## Relations along a pass -/

/-- A relation between the state in which a pass starts and the one in which it ends, well or not. -/
def Leads (R : σ → σ → Prop) (p : Pass σ α) : Prop :=
  ∀ s, match p s with
    | .ok _ t => R s t
    | .error _ t => R s t

namespace Leads

variable {p : Pass σ α}

theorem of_ok (h : Leads R p) {s t : σ} {a : α} (hp : p s = .ok a t) : R s t := by
  have := h s
  rwa [hp] at this

theorem of_error (h : Leads R p) {s t : σ} {e : Error} (hp : p s = .error e t) : R s t := by
  have := h s
  rwa [hp] at this

theorem intro (hok : ∀ s a t, p s = .ok a t → R s t) (herror : ∀ s e t, p s = .error e t → R s t) : Leads R p := by
  intro s
  cases hp : p s with
  | ok a t => exact hok s a t hp
  | error e t => exact herror s e t hp

/-- What holds along a pass holds when it ends well. -/
theorem spec (h : Leads R p) (s : σ) : Spec p s (fun _ t => R s t) fun _ => True := by
  unfold Spec
  cases hp : p s with
  | ok a t => exact h.of_ok hp
  | error e t => trivial

/-- A pass that ends well in every state. -/
theorem intro_ok (h : ∀ s, ∃ a t, p s = .ok a t ∧ R s t) : Leads R p := by
  intro s
  obtain ⟨a, t, hp, hR⟩ := h s
  rwa [hp]

theorem modify {f : σ → σ} (h : ∀ s, R s (f s)) : Leads R (modify f : Pass σ PUnit) :=
  h

theorem modifyGet {f : σ → α × σ} (h : ∀ s, R s (f s).2) : Leads R (modifyGet f : Pass σ α) :=
  h

theorem get_bind {f : σ → Pass σ β} (h : ∀ s, Leads R (f s)) : Leads R (get >>= f) :=
  fun s => h s s

section Refl

variable [Std.Refl R]

theorem pure (a : α) : Leads R (pure a : Pass σ α) :=
  fun s => Std.Refl.refl s

theorem throw (e : Error) : Leads R (throw e : Pass σ α) :=
  fun s => Std.Refl.refl s

theorem lift (x : Except Error α) : Leads R (Pass.lift x : Pass σ α) := by
  cases x with
  | ok a => exact pure a
  | error e => exact throw e

/-- A pass that works out the next state and fails as long as it has not got it. -/
theorem get_lift_set {x : σ → Except Error α} {f : σ → α → σ} {result : α → β}
    (h : ∀ s a, x s = .ok a → R s (f s a)) : Leads R (do
      let s ← get
      let a ← Pass.lift (x s)
      set (f s a)
      return result a : Pass σ β) := by
  intro s
  simp only [run_bind, run_get]
  cases hx : x s with
  | ok a => exact h s a hx
  | error e => exact Std.Refl.refl s

/-- A pass that either fails at once or ends well. -/
theorem of_cases (h : ∀ s, (∃ e, p s = .error e s) ∨ ∃ a t, p s = .ok a t ∧ R s t) : Leads R p := by
  intro s
  rcases h s with ⟨e, herror⟩ | ⟨a, t, hok, hR⟩
  · rw [herror]
    exact Std.Refl.refl s
  · rwa [hok]

/-- Two passes in a row that either fail at once or end well. -/
theorem bind_ok {f : α → Pass σ β} (h : ∀ s, (∃ e, p s = .error e s) ∨
    ∃ a t b u, p s = .ok a t ∧ f a t = .ok b u ∧ R s u) : Leads R (p >>= f) := by
  intro s
  change match EStateM.bind p f s with | .ok _ t => R s t | .error _ t => R s t
  unfold EStateM.bind
  rcases h s with ⟨e, herror⟩ | ⟨a, t, b, u, hp, hf, hR⟩
  · rw [herror]
    exact Std.Refl.refl s
  · rw [hp]
    dsimp only
    rwa [hf]

end Refl

section Preorder

variable [IsTrans σ R]

theorem bind {f : α → Pass σ β} (h : Leads R p) (hf : ∀ a, Leads R (f a)) : Leads R (p >>= f) := by
  intro s
  change match EStateM.bind p f s with | .ok _ t => R s t | .error _ t => R s t
  unfold EStateM.bind
  cases hp : p s with
  | ok a t =>
    have hst := h.of_ok hp
    dsimp only
    cases hft : f a t with
    | ok b u => exact IsTrans.trans _ _ _ hst ((hf a).of_ok hft)
    | error e u => exact IsTrans.trans _ _ _ hst ((hf a).of_error hft)
  | error e t => exact h.of_error hp

variable [Std.Refl R]

theorem discard (h : Leads R p) : Leads R (discard p) := by
  have h' : Leads R (p >>= fun _ => Pure.pure ()) := h.bind fun _ => pure ()
  rwa [bind_pure_comp] at h'

theorem forM {f : α → Pass σ PUnit} (xs : List α) (h : ∀ x ∈ xs, Leads R (f x)) : Leads R (xs.forM f) := by
  induction xs with
  | nil => exact pure _
  | cons x xs ih =>
    obtain ⟨hx, hxs⟩ := List.forall_mem_cons.1 h
    exact hx.bind fun _ => ih hxs

theorem mapM {f : α → Pass σ β} (xs : List α) (h : ∀ x ∈ xs, Leads R (f x)) : Leads R (xs.mapM f) := by
  induction xs with
  | nil =>
    rw [List.mapM_nil]
    exact pure _
  | cons x xs ih =>
    obtain ⟨hx, hxs⟩ := List.forall_mem_cons.1 h
    rw [List.mapM_cons]
    exact hx.bind fun y => (ih hxs).bind fun ys => pure (y :: ys)

end Preorder

theorem focus {enlarge : τ → σ} {restrict : σ → τ} {R' : τ → τ → Prop} (h : Leads R p)
    (hR : ∀ s t, R (enlarge s) t → R' s (restrict t)) : Leads R' (Pass.focus enlarge restrict p) := by
  intro s
  unfold Pass.focus
  cases hp : p (enlarge s) with
  | ok a t => exact hR s t (h.of_ok hp)
  | error e t => exact hR s t (h.of_error hp)

-- As with specifications, the lemmas above are all that is used.
attribute [irreducible] Leads

end Leads

/-! ## Scripts -/

/-- A pass written out as steps, each of which may depend on the results of those before. -/
inductive Script (σ α : Type) : Type 1 where
  | done (a : α) : Script σ α
  | step {β : Type} (p : Pass σ β) (rest : β → Script σ α) : Script σ α

namespace Script

/-- The pass that a script is written for. -/
def run : Script σ α → Pass σ α
  | done a => pure a
  | step p rest => p >>= fun b => (rest b).run

/-- One script after the other. -/
def andThen : Script σ α → (α → Script σ β) → Script σ β
  | done a, next => next a
  | step p rest, next => step p fun b => (rest b).andThen next

/-- A pass in a single step. -/
def single (p : Pass σ α) : Script σ α :=
  step p done

/-- A script for each element of a list. -/
def forEach (f : α → Script σ PUnit) : List α → Script σ PUnit
  | [] => done ⟨⟩
  | x :: xs => (f x).andThen fun _ => forEach f xs

/-- A script for each element of a list, with the results of all of them. -/
def collect (f : α → Script σ β) : List α → Script σ (List β)
  | [] => done []
  | x :: xs => (f x).andThen fun y => (collect f xs).andThen fun ys => done (y :: ys)

/-- A script for each element of a list, with a value handed on from one to the next. -/
def fold (f : β → α → Script σ β) : β → List α → Script σ β
  | b, [] => done b
  | b, x :: xs => (f b x).andThen fun b' => fold f b' xs

/-- The states between the steps of a script that starts in a state, up to its end or to a step that fails. -/
inductive Visits : Script σ α → σ → σ → Prop where
  | start (c : Script σ α) (s : σ) : Visits c s s
  | next {β : Type} {p : Pass σ β} {rest : β → Script σ α} {s t u : σ} {b : β} :
    p s = .ok b t → Visits (rest b) t u → Visits (step p rest) s u
  | fail {β : Type} {p : Pass σ β} {rest : β → Script σ α} {s t : σ} {e : Error} :
    p s = .error e t → Visits (step p rest) s t

/-! ### Runs -/

theorem run_single (p : Pass σ α) : (single p).run = p :=
  bind_pure p

theorem run_andThen (c : Script σ α) (next : α → Script σ β) :
    (c.andThen next).run = c.run >>= fun a => (next a).run := by
  induction c with
  | done a => rfl
  | step p rest ih =>
    simp only [andThen, run, bind_assoc]
    exact congrArg (p >>= ·) (funext ih)

theorem run_forEach (f : α → Script σ PUnit) (xs : List α) : (forEach f xs).run = xs.forM fun x => (f x).run := by
  induction xs with
  | nil => rfl
  | cons x xs ih =>
    rw [forEach, run_andThen, ih]
    rfl

theorem run_collect (f : α → Script σ β) (xs : List α) : (collect f xs).run = xs.mapM fun x => (f x).run := by
  induction xs with
  | nil => rfl
  | cons x xs ih =>
    simp only [collect, run_andThen, ih, List.mapM_cons]
    rfl

/-- Steps that always end well come to a fold over a list. -/
theorem run_fold {γ : Type} {f : β → α → Script σ β} {step : γ → α → γ} (value : γ → β) (state : γ → σ)
    (h : ∀ c x, (f (value c) x).run (state c) = .ok (value (step c x)) (state (step c x))) (c : γ) (xs : List α) :
    (fold f (value c) xs).run (state c) = .ok (value (xs.foldl step c)) (state (xs.foldl step c)) := by
  induction xs generalizing c with
  | nil => rfl
  | cons x xs ih =>
    rw [fold, run_andThen]
    exact bind_eq_ok.2 ⟨_, _, h c x, ih (step c x)⟩

/-! ### States on the way -/

/-- The state in which a run ends is visited. -/
theorem visits_of_run_ok {c : Script σ α} {s t : σ} {a : α} (h : c.run s = .ok a t) : Visits c s t := by
  induction c generalizing s with
  | done b =>
    obtain ⟨-, rfl⟩ := pure_eq_ok.1 h
    exact .start _ s
  | step p rest ih =>
    obtain ⟨b, u, hp, hrest⟩ := bind_eq_ok.1 h
    exact .next hp (ih b hrest)

theorem visits_of_run_error {c : Script σ α} {s t : σ} {e : Error} (h : c.run s = .error e t) : Visits c s t := by
  induction c generalizing s with
  | done b => cases h
  | step p rest ih =>
    rcases bind_eq_error.1 h with hp | ⟨b, u, hp, hrest⟩
    · exact .fail hp
    · exact .next hp (ih b hrest)

theorem visits_andThen {c : Script σ α} {next : α → Script σ β} {s u : σ} (h : Visits (c.andThen next) s u) :
    Visits c s u ∨ ∃ a t, c.run s = .ok a t ∧ Visits (next a) t u := by
  induction c generalizing s with
  | done a => exact Or.inr ⟨a, s, rfl, h⟩
  | step p rest ih =>
    cases h with
    | start => exact Or.inl (.start _ _)
    | next hp hrest =>
      rcases ih _ hrest with hrest | ⟨a, t, hrun, hnext⟩
      · exact Or.inl (.next hp hrest)
      · exact Or.inr ⟨a, t, bind_eq_ok.2 ⟨_, _, hp, hrun⟩, hnext⟩
    | fail hp => exact Or.inl (.fail hp)

/-- All states that a script visits are in a relation to the one in which it starts. -/
def Keeps (R : σ → σ → Prop) (c : Script σ α) : Prop :=
  ∀ s t, Visits c s t → R s t

namespace Keeps

variable {c : Script σ α}

/-- What holds of all states on the way holds of the last one. -/
theorem leads_run (h : c.Keeps R) : Leads R c.run :=
  Leads.intro (fun s _ t hrun => h s t (visits_of_run_ok hrun)) fun s _ t hrun => h s t (visits_of_run_error hrun)

theorem andThen [IsTrans σ R] {next : α → Script σ β} (h : c.Keeps R) (hnext : ∀ a, (next a).Keeps R) :
    (c.andThen next).Keeps R := by
  intro s u hvisits
  rcases visits_andThen hvisits with hvisits | ⟨a, t, hrun, hvisits⟩
  · exact h s u hvisits
  · exact IsTrans.trans _ _ _ (h s t (visits_of_run_ok hrun)) (hnext a t u hvisits)

variable [Std.Refl R]

theorem done (a : α) : (done a : Script σ α).Keeps R := by
  rintro s t ⟨⟩
  exact Std.Refl.refl s

theorem single {p : Pass σ α} (h : Leads R p) : (single p).Keeps R := by
  intro s t hvisits
  cases hvisits with
  | start => exact Std.Refl.refl s
  | next hp hdone =>
    cases hdone
    exact h.of_ok hp
  | fail hp => exact h.of_error hp

/-- A script that looks at its state first. -/
theorem get_step {rest : σ → Script σ α} (h : ∀ s, (rest s).Keeps R) : (step get rest).Keeps R := by
  intro s t hvisits
  cases hvisits with
  | start => exact Std.Refl.refl s
  | next hget hrest =>
    obtain ⟨rfl, rfl⟩ := get_eq_ok.1 hget
    exact h s s t hrest
  | fail hget => cases hget

/-- A script that goes on with what was worked out, if that does not fail. -/
theorem lift_step {x : Except Error β} {rest : β → Script σ α} (h : ∀ b, x = .ok b → (rest b).Keeps R) :
    (Script.step (Pass.lift x) rest).Keeps R := by
  intro s t hvisits
  cases hvisits with
  | start => exact Std.Refl.refl s
  | next hlift hrest =>
    obtain ⟨hx, rfl⟩ := lift_eq_ok.1 hlift
    exact h _ hx s t hrest
  | fail hlift => exact (Leads.lift x).of_error hlift

variable [IsTrans σ R]

theorem step {p : Pass σ β} {rest : β → Script σ α} (h : Leads R p) (hrest : ∀ b, (rest b).Keeps R) :
    (step p rest).Keeps R :=
  (single h).andThen hrest

theorem forEach {f : α → Script σ PUnit} (xs : List α) (h : ∀ x ∈ xs, (f x).Keeps R) : (forEach f xs).Keeps R := by
  induction xs with
  | nil => exact done _
  | cons x xs ih =>
    obtain ⟨hx, hxs⟩ := List.forall_mem_cons.1 h
    exact hx.andThen fun _ => ih hxs

theorem collect {f : α → Script σ β} (xs : List α) (h : ∀ x ∈ xs, (f x).Keeps R) : (collect f xs).Keeps R := by
  induction xs with
  | nil => exact done _
  | cons x xs ih =>
    obtain ⟨hx, hxs⟩ := List.forall_mem_cons.1 h
    exact hx.andThen fun y => (ih hxs).andThen fun ys => done (y :: ys)

theorem fold {f : β → α → Script σ β} (b : β) (xs : List α) (h : ∀ b, ∀ x ∈ xs, (f b x).Keeps R) :
    (fold f b xs).Keeps R := by
  induction xs generalizing b with
  | nil => exact done b
  | cons x xs ih =>
    refine (h b x List.mem_cons_self).andThen fun b' => ih b' fun b x hx => ?_
    exact h b x (List.mem_cons_of_mem _ hx)

end Keeps

end Script

end Destack.Pass
