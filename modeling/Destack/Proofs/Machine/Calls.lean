import Destack.Proofs.Machine.Emission
import Destack.Proofs.Machine.Moves

/-!
# Running a call

At the call every argument is in the place where the callee looks for it, and afterwards the result is in a fresh
register and no other virtual register has changed (`callCode_refines`).
-/

namespace Destack

/-! ## Places of arguments -/

namespace Location

theorem ofIndex_cases (k : Nat) :
    (k < 4 ∧ ofIndex k = .register ⟨k⟩) ∨ 4 ≤ k ∧ ofIndex k = .stack (4 * (k - 4) : Nat) := by
  match k with
  | 0 | 1 | 2 | 3 => exact Or.inl ⟨by decide, rfl⟩
  | k + 4 => exact Or.inr ⟨by omega, rfl⟩

theorem ofIndex_injective {i j : Nat} (h : ofIndex i = ofIndex j) : i = j := by
  rcases ofIndex_cases i with ⟨-, hi⟩ | ⟨hi', hi⟩ <;> rcases ofIndex_cases j with ⟨-, hj⟩ | ⟨hj', hj⟩ <;>
    rw [hi, hj] at h
  · simpa using h
  · cases h
  · cases h
  · have := Location.stack.inj h
    omega

/-- Arguments travel in physical registers. -/
theorem isVirtual_of_ofIndex {i : Nat} {r : Register} (h : ofIndex i = .register r) : r.isVirtual = false := by
  unfold ofIndex at h
  split at h
  · next r' hr' =>
    obtain rfl := Location.register.inj h
    have hall : ∀ r ∈ Register.arguments, r.isVirtual = false := by decide
    exact hall _ (List.mem_of_getElem? hr')
  · cases h

end Location

namespace Machine

theorem getElem?_located {sources : List Register} {k : Nat} {source : Register} (h : sources[k]? = some source) :
    (located sources)[k]? = some (source, Location.ofIndex k) := by
  rw [located, List.getElem?_zip_eq_some]
  obtain ⟨hlt, rfl⟩ := List.getElem?_eq_some_iff.1 h
  simp [hlt]

theorem length_located (sources : List Register) : (located sources).length = sources.length := by
  simp [located]

theorem map_snd_located (sources : List Register) :
    (located sources).map (·.2) = (List.range sources.length).map Location.ofIndex := by
  rw [located]
  exact List.map_snd_zip (by simp)

theorem nodup_located (sources : List Register) : ((located sources).map (·.2)).Nodup := by
  rw [map_snd_located]
  exact List.nodup_range.map fun _ _ => Location.ofIndex_injective

theorem mem_located {sources : List Register} {source : Register} {location : Location}
    (h : (source, location) ∈ located sources) :
    source ∈ sources ∧ ∀ r, location = .register r → r.isVirtual = false := by
  rw [located] at h
  obtain ⟨hsource, hlocation⟩ := List.of_mem_zip h
  obtain ⟨k, -, rfl⟩ := List.mem_map.1 hlocation
  exact ⟨hsource, fun r hr => Location.isVirtual_of_ofIndex hr⟩

/-! ## Passing arguments -/

section

variable {W : World} {m : Setting W}

/-- Values on their way to stack slots, with the offsets. -/
def stacked {V : Type} (regs : Register → V) (pairs : List (Register × Location)) : List (Int × V) :=
  pairs.filterMap fun pair => pair.2.stack?.map fun offset => (offset, regs pair.1)

theorem targets_passing (n : Nat) (pairs : List (Register × Location)) :
    (passing n pairs).2.1.map (·.target) = pairs.filterMap (·.2.register?) := by
  induction pairs generalizing n with
  | nil => rfl
  | cons pair pairs ih =>
    obtain ⟨source, location⟩ := pair
    cases location with
    | register r => exact congrArg (r :: ·) (ih (n + 1))
    | stack offset => exact ih n

/-- What is saved is what arguments overwrite. -/
theorem exists_of_mem_saved {n : Nat} {pairs : List (Register × Location)} {move : Move}
    (h : move ∈ (passing n pairs).2.1) : ∃ source, (source, .register move.target) ∈ pairs := by
  have hmem : move.target ∈ (passing n pairs).2.1.map (·.target) := List.mem_map.2 ⟨move, h, rfl⟩
  rw [targets_passing] at hmem
  obtain ⟨⟨source, location⟩, hpair, hregister⟩ := List.mem_filterMap.1 hmem
  cases location with
  | register r =>
    obtain rfl := Option.some.inj hregister
    exact ⟨source, hpair⟩
  | stack offset => cases hregister

/-- The virtual registers outside of a range are as they were. -/
def State.Kept {V : Type} (n next : Nat) (s s' : State V) : Prop :=
  ∀ k, k < n ∨ next ≤ k → s'.regs (.virtual k) = s.regs (.virtual k)

/-- What passing arguments does: registers and outgoing slots get the sources, fresh registers get what was in the
registers before, and everything else stays as it was. -/
structure Passed {V : Type} (n next : Nat) (pairs : List (Register × Location)) (s s' : State V) : Prop where
  register : ∀ source r, (source, .register r) ∈ pairs → s'.regs r = s.regs source
  virtual : State.Kept n next s s'
  physical : ∀ r, r.isVirtual = false → (∀ source, (source, .register r) ∉ pairs) → s'.regs r = s.regs r
  outgoing : s'.outgoing = (stacked s.regs pairs).reverse ++ s.outgoing
  saved : ∀ move ∈ (passing n pairs).2.1, s'.regs move.source = s.regs move.target

/-- The state in which a register was saved in a fresh one and then got the value of another. -/
def State.exchange {V : Type} (s : State V) (n j : Nat) (r : Register) : State V :=
  (s.write (.virtual n) (s.regs r)).write r ((s.write (.virtual n) (s.regs r)).regs (.virtual j))

namespace State

variable {V : Type} {s : State V} {n j k : Nat} {r r' : Register}

theorem exchange_self (hj : j ≠ n) : (s.exchange n j r).regs r = s.regs (.virtual j) := by
  rw [exchange, write_regs_self, write_regs_of_ne _ _ (mt Register.virtual_inj.1 hj)]

theorem exchange_saved (hr : r.isVirtual = false) : (s.exchange n j r).regs (.virtual n) = s.regs r := by
  rw [exchange, write_regs_of_ne _ _ (Register.ne_virtual hr n).symm, write_regs_self]

theorem exchange_virtual (hr : r.isVirtual = false) (hk : k ≠ n) :
    (s.exchange n j r).regs (.virtual k) = s.regs (.virtual k) := by
  rw [exchange, write_regs_of_ne _ _ (Register.ne_virtual hr k).symm,
    write_regs_of_ne _ _ (mt Register.virtual_inj.1 hk)]

theorem exchange_physical (hr' : r'.isVirtual = false) (hne : r' ≠ r) : (s.exchange n j r).regs r' = s.regs r' := by
  rw [exchange, write_regs_of_ne _ _ hne, write_regs_of_ne _ _ (Register.ne_virtual hr' n)]

end State

section Passing

variable {V : Type} {pairs : List (Register × Location)} {n j next : Nat} {s s' : State V}

theorem stacked_congr {regs regs' : Register → V} (h : ∀ pair ∈ pairs, regs pair.1 = regs' pair.1) :
    stacked regs pairs = stacked regs' pairs :=
  List.filterMap_congr fun pair hpair => by rw [h pair hpair]

/-- An argument is passed in a register before the other arguments, none of which goes to that register. -/
theorem Passed.cons_register {r : Register} (hr : r.isVirtual = false) (hj : j < n) (hnext : n + 1 ≤ next)
    (hnot : ∀ source, (source, .register r) ∉ pairs) (hsources : ∀ pair ∈ pairs, ∃ k < n, pair.1 = .virtual k)
    (hphysical : ∀ source r, (source, .register r) ∈ pairs → r.isVirtual = false)
    (h : Passed (n + 1) next pairs (s.exchange n j r) s') :
    Passed n next ((.virtual j, .register r) :: pairs) s s' := by
  have hkeep : ∀ pair ∈ pairs, (s.exchange n j r).regs pair.1 = s.regs pair.1 := by
    intro pair hpair
    obtain ⟨k, hk, hpair⟩ := hsources pair hpair
    rw [hpair]
    exact State.exchange_virtual hr (Nat.ne_of_lt hk)
  constructor
  case register =>
    intro source r' hmem
    rcases List.mem_cons.1 hmem with heq | hmem
    · cases heq
      rw [h.physical r hr hnot, State.exchange_self (Nat.ne_of_lt hj)]
    · rw [h.register source r' hmem, hkeep _ hmem]
  case virtual =>
    intro k hk
    rw [h.virtual k (by omega), State.exchange_virtual hr (by omega)]
  case physical =>
    intro r' hr' hmem
    have hne : r' ≠ r := by
      rintro rfl
      exact hmem _ List.mem_cons_self
    rw [h.physical r' hr' fun source hmem' => hmem source (List.mem_cons_of_mem _ hmem'),
      State.exchange_physical hr' hne]
  case outgoing =>
    rw [h.outgoing, stacked_congr hkeep]
    rfl
  case saved =>
    intro move hmove
    rcases List.mem_cons.1 hmove with rfl | hmove
    · rw [h.virtual n (Or.inl (Nat.lt_succ_self n)), State.exchange_saved hr]
    · obtain ⟨source, hmem⟩ := exists_of_mem_saved hmove
      rw [h.saved move hmove, State.exchange_physical (hphysical _ _ hmem)]
      rintro rfl
      exact hnot source hmem

/-- An argument is passed on the stack before the other arguments. -/
theorem Passed.cons_stack {offset : Int}
    (h : Passed n next pairs { s with outgoing := (offset, s.regs (.virtual j)) :: s.outgoing } s') :
    Passed n next ((.virtual j, .stack offset) :: pairs) s s' where
  register source r hmem := h.register source r ((List.mem_cons.1 hmem).resolve_left nofun)
  virtual := h.virtual
  physical r hr hmem := h.physical r hr fun source hmem' => hmem source (List.mem_cons_of_mem _ hmem')
  outgoing := by
    rw [h.outgoing]
    simp [stacked, Location.stack?]
  saved := h.saved

end Passing

theorem executeAll_passing {pairs : List (Register × Location)} {n : Nat} (hnodup : (pairs.map (·.2)).Nodup)
    (hsource : ∀ pair ∈ pairs, ∃ k < n, pair.1 = .virtual k)
    (hphysical : ∀ source r, (source, .register r) ∈ pairs → r.isVirtual = false) (s : State W.Value) :
    ∃ s', executeAll W m (passing n pairs).1 s = pure s' ∧ Passed n (passing n pairs).2.2 pairs s s' := by
  induction pairs generalizing n s with
  | nil => exact ⟨s, rfl, by simp, fun _ _ => rfl, fun _ _ _ => rfl, rfl, by simp [passing]⟩
  | cons pair pairs ih =>
    obtain ⟨source, location⟩ := pair
    rw [List.map_cons, List.nodup_cons] at hnodup
    obtain ⟨⟨j, hj, rfl⟩, hsources⟩ := List.forall_mem_cons.1 hsource
    have hphysical' : ∀ source r, (source, .register r) ∈ pairs → r.isVirtual = false :=
      fun source r hmem => hphysical source r (List.mem_cons_of_mem _ hmem)
    cases location with
    | register r =>
      have hsources' : ∀ pair ∈ pairs, ∃ k < n + 1, pair.1 = .virtual k := fun pair hpair =>
        (hsources pair hpair).imp fun k hk => ⟨Nat.lt_succ_of_lt hk.1, hk.2⟩
      have hnot : ∀ source, (source, Location.register r) ∉ pairs := fun source hmem =>
        hnodup.1 (List.mem_map.2 ⟨_, hmem, rfl⟩)
      obtain ⟨s', hrun, hpassed⟩ := @ih (n + 1) hnodup.2 hsources' hphysical' (s.exchange n j r)
      refine ⟨s', hrun, ?_⟩
      exact hpassed.cons_register (hphysical _ r List.mem_cons_self) hj (le_passing _ pairs) hnot hsources hphysical'
    | stack offset =>
      obtain ⟨s', hrun, hpassed⟩ := ih hnodup.2 hsources hphysical'
        { s with outgoing := (offset, s.regs (.virtual j)) :: s.outgoing }
      exact ⟨s', hrun, hpassed.cons_stack⟩

theorem mapM_range' {α : Type} {f : Nat → Option α} {xs : List α} {n : Nat}
    (h : ∀ {k x}, xs[k]? = some x → f (n + k) = some x) : (List.range' n xs.length).mapM f = some xs := by
  induction xs generalizing n with
  | nil => rfl
  | cons x xs ih =>
    have hrest : (List.range' (n + 1) xs.length).mapM f = some xs := by
      apply ih
      intro k y hk
      rw [Nat.add_assoc, Nat.add_comm 1]
      exact @h (k + 1) y hk
    have hfirst : f n = some x := @h 0 x rfl
    simp [List.range'_succ, List.mapM_cons, hfirst, hrest]

theorem lookup_of_mem {V : Type} {k : Int} {v : V} {entries : List (Int × V)} (hnodup : (entries.map (·.1)).Nodup)
    (hmem : (k, v) ∈ entries) : entries.lookup k = some v := by
  induction entries with
  | nil => cases hmem
  | cons entry entries ih =>
    rw [List.map_cons, List.nodup_cons] at hnodup
    rw [List.lookup_cons]
    rcases List.mem_cons.1 hmem with rfl | hmem
    · simp
    · have hne : k ≠ entry.1 := fun e => hnodup.1 (e ▸ List.mem_map.2 ⟨_, hmem, rfl⟩)
      rw [beq_false_of_ne hne]
      exact ih hnodup.2 hmem

theorem length_stacked {V : Type} (regs : Register → V) (pairs : List (Register × Location)) :
    (pairs.filterMap (·.2.register?)).length + (stacked regs pairs).length = pairs.length := by
  induction pairs with
  | nil => rfl
  | cons pair pairs ih =>
    obtain ⟨source, location⟩ := pair
    cases location with
    | register r => exact (Nat.succ_add _ _).trans (congrArg Nat.succ ih)
    | stack offset => exact congrArg Nat.succ ih

theorem nodup_stacked {V : Type} (regs : Register → V) {pairs : List (Register × Location)}
    (h : (pairs.map (·.2)).Nodup) : ((stacked regs pairs).map (·.1)).Nodup := by
  have heq : (stacked regs pairs).map (·.1) = (pairs.map (·.2)).filterMap Location.stack? := by
    rw [stacked, List.map_filterMap, List.filterMap_map]
    refine List.filterMap_congr fun pair _ => ?_
    rw [Option.map_map]
    exact Option.map_id'
  rw [heq]
  refine h.filterMap fun a b c ha hb => ?_
  cases a <;> cases b <;> simp_all [Location.stack?]

/-- At the call every argument is found in its place, whatever was in the outgoing area before. -/
theorem Passed.argument? {V : Type} {n next : Nat} {sources : List Register} {s s' : State V}
    (h : Passed n next (located sources) s s') {k : Nat} {source : Register} (hk : sources[k]? = some source) :
    s'.argument? ((located sources).filterMap (·.2.register?)) k = some (s.regs source) := by
  have hmem := List.mem_of_getElem? (getElem?_located hk)
  rw [State.argument?]
  cases hloc : Location.ofIndex k with
  | register r =>
    rw [hloc] at hmem
    dsimp only
    have hread : r ∈ (located sources).filterMap (·.2.register?) := List.mem_filterMap.2 ⟨_, hmem, rfl⟩
    rw [if_pos hread, h.register source r hmem]
  | stack offset =>
    rw [hloc] at hmem
    dsimp only
    have hstacked : ((stacked s.regs (located sources)).reverse).lookup offset = some (s.regs source) := by
      apply lookup_of_mem
      · rw [List.map_reverse, List.nodup_reverse]
        exact nodup_stacked s.regs (nodup_located sources)
      · rw [List.mem_reverse]
        exact List.mem_filterMap.2 ⟨_, hmem, rfl⟩
    rw [h.outgoing, List.lookup_append, hstacked, Option.some_or]

theorem Passed.arguments? {V : Type} {n next : Nat} {sources : List Register} {s s' : State V}
    (h : Passed n next (located sources) s s') (hs : s.outgoing = []) :
    s'.arguments? ((located sources).filterMap (·.2.register?)) = some (sources.map s.regs) := by
  have hcount : ((located sources).filterMap (·.2.register?)).length + s'.outgoing.length =
      (sources.map s.regs).length := by
    rw [h.outgoing, hs, List.append_nil, List.length_reverse, length_stacked, length_located, List.length_map]
  rw [State.arguments?, hcount, List.range_eq_range']
  refine mapM_range' fun {k v} hk => ?_
  rw [List.getElem?_map] at hk
  obtain ⟨source, hsource, rfl⟩ := Option.map_eq_some_iff.1 hk
  rw [Nat.zero_add]
  exact h.argument? hsource

/-! ## The whole call -/

theorem targets_saved {sources : List Register} {n : Nat} {move : Move}
    (h : move ∈ (passing n (located sources)).2.1) : move.target.isVirtual = false := by
  obtain ⟨source, hmem⟩ := exists_of_mem_saved h
  exact (mem_located hmem).2 _ rfl

/-- Copies of physical registers in virtual ones. -/
structure Saved (n next : Nat) (saved : List Move) : Prop where
  nodup : (saved.map (·.target)).Nodup
  target : ∀ move ∈ saved, move.target.isVirtual = false
  source : ∀ move ∈ saved, ∃ k, n ≤ k ∧ k < next ∧ move.source = .virtual k

theorem source_of_mem_saved {pairs : List (Register × Location)} {n : Nat} {move : Move}
    (h : move ∈ (passing n pairs).2.1) : ∃ k, n ≤ k ∧ k < (passing n pairs).2.2 ∧ move.source = .virtual k := by
  induction pairs generalizing n with
  | nil => cases h
  | cons pair pairs ih =>
    obtain ⟨source, location⟩ := pair
    cases location with
    | register r =>
      rcases List.mem_cons.1 h with rfl | h
      · exact ⟨n, Nat.le_refl n, le_passing (n + 1) pairs, rfl⟩
      · obtain ⟨k, hk, hnext, hsource⟩ := ih h
        exact ⟨k, Nat.le_of_succ_le hk, hnext, hsource⟩
    | stack offset => exact ih h

theorem saved_passing (n : Nat) (sources : List Register) :
    Saved n (passing n (located sources)).2.2 (passing n (located sources)).2.1 where
  nodup := by
    rw [targets_passing]
    have hlocations := (nodup_located sources).filterMap (f := Location.register?) fun a b r ha hb => ?_
    · rwa [List.filterMap_map] at hlocations
    · cases a <;> cases b <;> simp_all [Location.register?]
  target _ := targets_saved
  source _ := source_of_mem_saved

/-- What comes after a call: the result is moved, and the registers that passed arguments get their contents back. -/
theorem executeAll_after {saved : List Move} {n next : Nat} (hsaved : Saved n next saved) {result : Option Register}
    (hresult : ∀ r ∈ result, r = .result) (s : State W.Value) :
    ∃ s', executeAll W m ((result.map fun r => (⟨.move, [r], some (.virtual next)⟩ : Instr)).toList ++
        saved.map Move.instr) s = pure s' ∧
      (result.isSome = true → s'.regs (.virtual next) = s.regs .result) ∧
      State.Kept next (next + result.toList.length) s s' ∧
      (∀ move ∈ saved, s'.regs move.target = s.regs move.source) ∧ s'.outgoing = s.outgoing := by
  have hnot : ∀ k, Register.virtual k ∉ saved.map (·.target) := by
    intro k hmem
    obtain ⟨move, hmove, heq⟩ := List.mem_map.1 hmem
    exact Register.ne_virtual (hsaved.target move hmove) k heq
  have hsource : ∀ move ∈ saved, move.source ∉ saved.map (·.target) := by
    intro move hmove
    obtain ⟨k, -, -, hk⟩ := hsaved.source move hmove
    rw [hk]
    exact hnot k
  cases result with
  | none =>
    refine ⟨_, executeAll_moves saved _, nofun, fun k _ => runMoves_of_not_mem (hnot k), fun move hmove => ?_, rfl⟩
    exact runMoves_target hsaved.nodup hsource hmove
  | some r =>
    obtain rfl := hresult r rfl
    refine ⟨_, executeAll_moves saved (s.write (.virtual next) (s.regs .result)), fun _ => ?_, fun k hk => ?_,
      fun move hmove => ?_, rfl⟩
    · exact (runMoves_of_not_mem (hnot next)).trans (State.write_regs_self _ _ _)
    · change k < next ∨ next + 1 ≤ k at hk
      refine (runMoves_of_not_mem (hnot k)).trans (State.write_regs_of_ne _ _ ?_)
      rw [Ne, Register.virtual_inj]
      omega
    · obtain ⟨k, -, hk, hmove'⟩ := hsaved.source move hmove
      refine (runMoves_target hsaved.nodup hsource hmove).trans (State.write_regs_of_ne _ _ ?_)
      rw [hmove', Ne, Register.virtual_inj]
      omega

/-- A call that is emitted asks for the call and for nothing else. Its result, if there is one, is in the register made
for it, and no virtual register changes that was not handed out for the call. -/
theorem callCode_refines {method : Member} {result : Option Register} (hresult : ∀ r ∈ result, r = .result) {n : Nat}
    {sources : List Register} (hsources : ∀ source ∈ sources, ∃ k < n, source = .virtual k) {s : State W.Value}
    (hs : s.outgoing = []) :
    Exec.Refines (fun v s' =>
        (result.isSome = true → s'.regs (.virtual (passing n (located sources)).2.2) = v) ∧
        State.Kept n ((passing n (located sources)).2.2 + result.toList.length) s s' ∧ s'.outgoing = [])
      (Exec.ask (.call method (sources.map s.regs))) (executeAll W m (callCode method result n sources) s) := by
  obtain ⟨s₁, hpass, hpassed⟩ := @executeAll_passing W m (located sources) n (nodup_located sources)
    (fun pair hpair => hsources pair.1 (mem_located hpair).1) (fun source r hmem => (mem_located hmem).2 r rfl) s
  have hle := le_passing n (located sources)
  have hrun : executeAll W m (callCode method result n sources) s =
      Exec.ask (.call method (sources.map s.regs)) >>= fun v => get >>= fun events =>
        executeAll W m ((result.map fun r =>
            (⟨.move, [r], some (.virtual (passing n (located sources)).2.2)⟩ : Instr)).toList ++
          (passing n (located sources)).2.1.map Move.instr) (s₁.returned (m.scratch events) result v) := by
    rw [callCode]
    dsimp only
    rw [executeAll_append, hpass, pure_bind, executeAll, targets_passing]
    simp only [execute, hpassed.arguments? hs, Exec.need_some, bind_assoc, pure_bind]
  rw [hrun]
  refine Exec.Refines.bind_right _ fun v => Exec.Refines.of_ok fun events => ?_
  obtain ⟨s', hrest, hvalue, hkept, -, hout⟩ := @executeAll_after W m _ _ _ (saved_passing n sources) result hresult
    (s₁.returned (m.scratch events) result v)
  refine ⟨s', congrFun hrest events, fun hsome => ?_, fun k hk => ?_, hout⟩
  · obtain ⟨r, rfl⟩ := Option.isSome_iff_exists.1 hsome
    rw [hvalue hsome, hresult r rfl]
    simp [State.returned, show Register.result.isVirtual = false from rfl]
  · have hreturned : (s₁.returned (m.scratch events) result v).regs (.virtual k) = s₁.regs (.virtual k) :=
      if_pos (Register.isVirtual_virtual k)
    rw [hkept k (by omega), hreturned, hpassed.virtual k (by omega)]

end

end Machine

end Destack
