import Destack.Proofs.Machine.Additions

/-!
# Registers that are handed out

Virtual registers are numbered as they are handed out. While a graph is lowered, no instruction uses one that is
still to be handed out, and the values of nodes are in those that are (`LowerState.Supplied`), whatever the graph
looks like. So this holds whenever moves are put at the end of a block (`Inserts.supplied`).
-/

namespace Destack

theorem Register.below_of_physical {r : Register} (h : r.isVirtual = false) (n : Nat) : r.Below n :=
  fun k _ => ne_virtual h k

/-- A register is one of the first virtual ones. -/
def Register.HandedOut (n : Nat) (r : Register) : Prop :=
  ∃ k < n, r = .virtual k

theorem Register.HandedOut.mono {r : Register} {m n : Nat} (h : r.HandedOut m) (hle : m ≤ n) : r.HandedOut n :=
  h.imp fun _ hk => ⟨hk.1.trans_le hle, hk.2⟩

theorem Register.HandedOut.below {r : Register} {n : Nat} (h : r.HandedOut n) : r.Below n := by
  obtain ⟨k, hk, rfl⟩ := h
  exact below_virtual hk

/-- The registers that an instruction reads or writes. -/
def Machine.Instr.registers (i : Machine.Instr) : List Register :=
  i.reads ++ i.write.toList

/-- The instructions use no virtual register that is still to be handed out. -/
def Graph.Supplied (g : Graph) : Prop :=
  ∀ i ∈ g.table, ∀ r ∈ i.registers, r.Below g.registers

namespace Machine

open Pass (Spec)

/-- The register of a value, if there is one, is handed out. -/
def Lowered.HandedOut (n : Nat) (l : Lowered) : Prop :=
  ∀ r ∈ l.register, r.HandedOut n

/-- Both registers of a move are handed out. -/
def Move.Below (n : Nat) (m : Move) : Prop :=
  m.source.Below n ∧ m.target.Below n

theorem Lowered.HandedOut.mono {l : Lowered} {m n : Nat} (h : l.HandedOut m) (hle : m ≤ n) : l.HandedOut n :=
  fun r hr => (h r hr).mono hle

theorem Move.Below.mono {move : Move} {m n : Nat} (h : move.Below m) (hle : m ≤ n) : move.Below n :=
  ⟨h.1.mono hle, h.2.mono hle⟩

section Moves

variable {g : Graph} {n : Nat} {moves : List Move} {r : Register}

theorem Move.mem_registers_instr {m : Move} : r ∈ m.instr.registers ↔ r = m.source ∨ r = m.target := by
  simp [Move.instr, Instr.registers]

/-- What the moves of an edge write are the destinations and registers handed out for it. -/
theorem mem_map_target_sequence (h : r ∈ (sequence n moves).1.map (·.target)) :
    r ∈ moves.map (·.target) ∨ ∃ k, n ≤ k ∧ k < (sequence n moves).2 ∧ r = .virtual k := by
  obtain ⟨move, hmove, rfl⟩ := List.mem_map.1 h
  obtain ⟨m, hm, ⟨k, hk, hlt, rfl⟩ | rfl | ⟨k, -, rfl⟩⟩ := mem_sequence hmove
  · exact Or.inr ⟨k, hk, hlt, rfl⟩
  · exact Or.inl (List.mem_map_of_mem hm)
  · exact Or.inl (List.mem_map.2 ⟨m, hm, rfl⟩)

/-- The moves of an edge use registers of the moves asked for and those handed out for it. -/
theorem below_sequence (hbelow : ∀ m ∈ moves, m.Below n) {move : Move}
    (hmove : move ∈ (sequence n moves).1) : move.Below (sequence n moves).2 := by
  have hmono : ∀ m ∈ moves, m.Below (sequence n moves).2 := fun m hm => (hbelow m hm).mono (le_sequence n moves)
  obtain ⟨m, hm, ⟨k, -, hlt, rfl⟩ | rfl | ⟨k, hcopy, rfl⟩⟩ := mem_sequence hmove
  · exact ⟨(hmono m hm).1, Register.below_virtual hlt⟩
  · exact hmono move hm
  · refine ⟨?_, (hmono m hm).2⟩
    have hwritten : Register.virtual k ∈ (sequence n moves).1.map (·.target) := List.mem_map.2 ⟨_, hcopy, rfl⟩
    rcases mem_map_target_sequence hwritten with htarget | ⟨j, -, hlt, heq⟩
    · obtain ⟨m', hm', heq⟩ := List.mem_map.1 htarget
      rw [← heq]
      exact (hmono m' hm').2
    · rw [heq]
      exact Register.below_virtual hlt

/-- Moves keep to registers that are handed out. -/
theorem supplied_insertMoves (hg : g.Supplied) (p : BlockId) (hbelow : ∀ m ∈ moves, m.Below g.registers) :
    (g.insertMoves p moves).2.Supplied := by
  intro i hi r hr
  rw [Graph.table_insertMoves, List.mem_append] at hi
  rcases hi with hi | hi
  · exact (hg i hi r hr).mono (le_sequence _ moves)
  · obtain ⟨move, hmove, rfl⟩ := List.mem_map.1 hi
    obtain ⟨hsource, htarget⟩ := below_sequence hbelow hmove
    rcases Move.mem_registers_instr.1 hr with rfl | rfl
    · exact hsource
    · exact htarget

end Moves

/-- No instruction uses a virtual register that is still to be handed out, and values are in those that are. -/
structure LowerState.Supplied (s : LowerState) : Prop where
  graph : s.graph.Supplied
  lowered : ∀ (id : NodeId) (l : Lowered), s.lowered[id]? = some l → l.HandedOut s.graph.registers

/-- A later state of the lowering that is supplied. -/
structure Supplies (s t : LowerState) : Prop where
  le : s.graph.registers ≤ t.graph.registers
  supplied : t.Supplied

theorem Supplies.refl {s : LowerState} (h : s.Supplied) : Supplies s s :=
  ⟨Nat.le_refl _, h⟩

theorem Supplies.trans {s t u : LowerState} (h : Supplies s t) (h' : Supplies t u) : Supplies s u :=
  ⟨h.le.trans h'.le, h'.supplied⟩

theorem LowerState.Supplied.handedOut {s : LowerState} (h : s.Supplied) {id : NodeId} {r : Register}
    (hr : s.register? id = some r) : r.HandedOut s.graph.registers := by
  obtain ⟨l, hl, hregister⟩ := Option.bind_eq_some_iff.1 hr
  exact h.lowered _ l hl r hregister

theorem Supplies.spec {s t : LowerState} {α : Type} {p : LowerM α} (h : Supplies s t)
    (hp : Spec p t (fun _ u => Supplies t u) fun _ => True) : Spec p t (fun _ u => Supplies s u) fun _ => True :=
  hp.mono (fun _ _ hu => h.trans hu) fun _ he => he

namespace LowerM

variable {s : LowerState} {b : BlockId}

/-! ## Emitting instructions -/

theorem newRegister_supplies (h : s.Supplied) :
    Spec newRegister s (fun r t => Supplies s t ∧ r.HandedOut t.graph.registers) fun _ => True := by
  have hle : s.graph.registers ≤ s.graph.registers + 1 := Nat.le_succ _
  refine .modifyGet ⟨⟨hle, ⟨?_, ?_⟩⟩, ⟨_, Nat.lt_succ_self _, rfl⟩⟩
  · exact fun i hi r hr => (h.graph i hi r hr).mono hle
  · exact fun id l hl => (h.lowered id l hl).mono hle

theorem append_supplies (h : s.Supplied) (b : BlockId) (op : Op) {reads : List Register} {write : Option Register}
    (hreads : ∀ r ∈ reads, r.Below s.graph.registers) (hwrite : ∀ r ∈ write, r.Below s.graph.registers) :
    Spec (append b op reads write) s (fun _ t => Supplies s t) fun _ => True := by
  rcases append_cases b op reads write s with ⟨-, hok⟩ | ⟨e, herror⟩
  case inr => exact .intro_error herror trivial
  refine .intro_ok hok ⟨Nat.le_refl _, ⟨fun i hi r hr => ?_, h.lowered⟩⟩
  rw [Graph.table_withInstr, List.mem_append, List.mem_singleton] at hi
  rcases hi with hi | rfl
  · exact h.graph i hi r hr
  · rcases List.mem_append.1 hr with hr | hr
    · exact hreads r hr
    · exact hwrite r (Option.mem_toList.1 hr)

theorem value_supplies (h : s.Supplied) (b : BlockId) (op : Op) {reads : List Register}
    (hreads : ∀ r ∈ reads, r.Below s.graph.registers) :
    Spec (value b op reads) s (fun l t => Supplies s t ∧ l.HandedOut t.graph.registers) fun _ => True := by
  refine .bind (newRegister_supplies h) fun r t ht => ?_
  have hregister : ∀ r' ∈ some r, r'.HandedOut t.graph.registers := by
    rintro _ ⟨⟩
    exact ht.2
  refine .bind (append_supplies ht.1.supplied b op (fun r hr => (hreads r hr).mono ht.1.le)
    fun r hr => (hregister r hr).below) fun _ u hu => ?_
  exact .pure ⟨ht.1.trans hu, fun r' hr' => (hregister r' hr').mono hu.le⟩

theorem effect_supplies (h : s.Supplied) (b : BlockId) (op : Op) {reads : List Register}
    (hreads : ∀ r ∈ reads, r.Below s.graph.registers) :
    Spec (effect b op reads) s (fun l t => Supplies s t ∧ l.HandedOut t.graph.registers) fun _ => True := by
  refine .bind (append_supplies h b op hreads fun _ hr => nomatch hr) fun _ t ht => ?_
  exact .pure ⟨ht, fun _ hr => nomatch hr⟩

theorem registerOf_supplies (h : s.Supplied) (id : NodeId) :
    Spec (registerOf id) s (fun r t => s = t ∧ r.Below s.graph.registers) fun _ => True := by
  refine .get_bind ?_
  split
  · next r hr => exact .pure ⟨rfl, (h.handedOut hr).below⟩
  · exact .throw trivial

/-- A pass that goes on with the register of a node. -/
theorem registerOf_bind_supplies {α : Type} {Q : α → LowerState → Prop} {f : Register → LowerM α} (h : s.Supplied)
    (id : NodeId) (hf : ∀ r, r.Below s.graph.registers → Spec (f r) s Q fun _ => True) :
    Spec (registerOf id >>= f) s Q fun _ => True := by
  refine .bind (registerOf_supplies h id) ?_
  rintro r _ ⟨rfl, hr⟩
  exact hf r hr

theorem dataLabel_supplies (h : s.Supplied) (text : String) :
    Spec (dataLabel text) s (fun _ t => Supplies s t) fun _ => True := by
  refine .get_bind ?_
  split
  · exact .pure (.refl h)
  · exact .modify_bind (.pure ⟨Nat.le_refl _, ⟨h.graph, h.lowered⟩⟩)

/-! ## Parameters and calls -/

theorem param_supplies (h : s.Supplied) (b : BlockId) (index : Nat) :
    Spec (param b index) s (fun l t => Supplies s t ∧ l.HandedOut t.graph.registers) fun _ => True := by
  unfold param
  split
  · next r hlocation =>
    refine value_supplies h b _ fun r' hr' => ?_
    rw [List.mem_singleton.1 hr']
    exact Register.below_of_physical (Location.isVirtual_of_ofIndex hlocation) _
  · exact value_supplies h b _ fun _ hr => nomatch hr

theorem passArgument_supplies (h : s.Supplied) (b : BlockId) {source : Register}
    (hsource : source.Below s.graph.registers) {location : Location}
    (hlocation : ∀ r, location = .register r → r.isVirtual = false) :
    Spec (passArgument b source location) s (fun saved t => Supplies s t ∧ ∀ m ∈ saved, m.Below t.graph.registers)
      fun _ => True := by
  cases location with
  | register r =>
    have hr : ∀ n, r.Below n := Register.below_of_physical (hlocation r rfl)
    refine .bind (newRegister_supplies h) fun copy t ht => ?_
    refine .bind (.discard (append_supplies ht.1.supplied b .move ?_ ?_)) fun _ u hu => ?_
    · exact fun r' hr' => List.mem_singleton.1 hr' ▸ hr _
    · rintro _ ⟨⟩
      exact ht.2.below
    refine .bind (.discard (append_supplies hu.supplied b .move ?_ ?_)) fun _ v hv => ?_
    · exact fun r' hr' => List.mem_singleton.1 hr' ▸ hsource.mono (ht.1.le.trans hu.le)
    · rintro _ ⟨⟩
      exact hr _
    refine .pure ⟨ht.1.trans (hu.trans hv), ?_⟩
    rintro _ ⟨⟩
    exact ⟨ht.2.below.mono (hu.le.trans hv.le), hr _⟩
  | stack offset =>
    refine .bind (.discard (append_supplies h b _ ?_ fun _ hr => nomatch hr)) fun _ t ht => ?_
    · exact fun r' hr' => List.mem_singleton.1 hr' ▸ hsource
    · exact .pure ⟨ht, fun _ hm => nomatch hm⟩

theorem passArguments_supplies (h : s.Supplied) (b : BlockId) {pairs : List (Register × Location)}
    (hpairs : ∀ pair ∈ pairs, pair.1.Below s.graph.registers ∧ ∀ r, pair.2 = .register r → r.isVirtual = false) :
    Spec (pairs.filterMapM fun (source, location) => passArgument b source location) s
      (fun saved t => Supplies s t ∧ ∀ m ∈ saved, m.Below t.graph.registers) fun _ => True := by
  induction pairs generalizing s with
  | nil =>
    rw [List.filterMapM_nil]
    exact .pure ⟨.refl h, fun _ hm => nomatch hm⟩
  | cons pair pairs ih =>
    rw [List.filterMapM_cons]
    obtain ⟨⟨hsource, hlocation⟩, hpairs⟩ := List.forall_mem_cons.1 hpairs
    refine .bind (passArgument_supplies h b hsource hlocation) fun first t ht => ?_
    have hrest := ih ht.1.supplied fun pair hpair => ⟨(hpairs pair hpair).1.mono ht.1.le, (hpairs pair hpair).2⟩
    cases first with
    | none => exact hrest.mono (fun saved u hu => ⟨ht.1.trans hu.1, hu.2⟩) fun _ he => he
    | some m =>
      refine .bind hrest fun saved u hu => .pure ⟨ht.1.trans hu.1, ?_⟩
      exact List.forall_mem_cons.2 ⟨(ht.2 m rfl).mono hu.1.le, hu.2⟩

theorem restore_supplies (h : s.Supplied) (b : BlockId) {saved : List Move}
    (hsaved : ∀ m ∈ saved, m.Below s.graph.registers) :
    Spec (saved.forM fun m => discard <| append b .move [m.source] (some m.target)) s (fun _ t => Supplies s t)
      fun _ => True := by
  refine .forM (P := fun _ t => Supplies s t) (fun front m rest hsplit t ht => ?_) (.refl h)
  have hm := (hsaved m (by simp [hsplit])).mono ht.le
  refine .discard (ht.spec (append_supplies ht.supplied b .move ?_ ?_))
  · exact fun r hr => List.mem_singleton.1 hr ▸ hm.1
  · rintro _ ⟨⟩
    exact hm.2

theorem isVirtual_of_ofResult? {type : ValueType} {r : Register}
    (h : (Location.ofResult? type).bind (·.register?) = some r) : r.isVirtual = false := by
  unfold Location.ofResult? at h
  split at h
  · cases h
  · obtain rfl := Option.some.inj h
    rfl

theorem call_supplies (h : s.Supplied) (b : BlockId) (method : Member) (args : List NodeId) (type : ValueType) :
    Spec (call b method args type) s (fun l t => Supplies s t ∧ l.HandedOut t.graph.registers) fun _ => True := by
  refine .bind (Q := fun (sources : List Register) t => s = t ∧ ∀ r ∈ sources, r.Below s.graph.registers) ?_ ?_
  · refine .mapM (P := fun _ (sources : List Register) t => s = t ∧ ∀ r ∈ sources, r.Below s.graph.registers) ?_
      ⟨rfl, by simp⟩
    rintro _ arg _ - sources _ ⟨rfl, hsources⟩
    refine (registerOf_supplies h arg).mono ?_ fun _ he => he
    rintro r _ ⟨rfl, hr⟩
    refine ⟨rfl, fun r' hr' => ?_⟩
    rcases List.mem_append.1 hr' with hr' | hr'
    · exact hsources r' hr'
    · rwa [List.mem_singleton.1 hr']
  rintro sources _ ⟨rfl, hsources⟩
  refine .bind (passArguments_supplies h b fun pair hpair => ?_) fun saved t ht => ?_
  · obtain ⟨hsource, hlocation⟩ := mem_located hpair
    exact ⟨hsources _ hsource, hlocation⟩
  have hphysical : ∀ r ∈ (Location.ofResult? type).bind (·.register?), r.isVirtual = false :=
    fun r hr => isVirtual_of_ofResult? hr
  generalize (Location.ofResult? type).bind (·.register?) = result at hphysical ⊢
  refine .bind (append_supplies ht.1.supplied b _ ?_ ?_) fun id u hu => ?_
  · intro r hr
    obtain ⟨m, hm, rfl⟩ := List.mem_map.1 hr
    exact (ht.2 m hm).2
  · exact fun r hr => Register.below_of_physical (hphysical r hr) _
  -- What follows the call is the same with and without a result.
  have hrest : ∀ (l : Lowered) v, Supplies u v ∧ l.HandedOut v.graph.registers → Spec (do
      saved.forM fun m => discard <| append b .move [m.source] (some m.target)
      modify fun s => { s with stats := s.stats.addCall }
      return l) v (fun l t => Supplies s t ∧ l.HandedOut t.graph.registers) fun _ => True := by
    intro l v hv
    have hsaved : ∀ m ∈ saved, m.Below v.graph.registers := fun m hm => (ht.2 m hm).mono (hu.le.trans hv.1.le)
    refine .bind (restore_supplies hv.1.supplied b hsaved) fun _ w hw => ?_
    have hall := ht.1.trans (hu.trans (hv.1.trans hw))
    exact .modify_bind (.pure ⟨⟨hall.le, hw.supplied.graph, hw.supplied.lowered⟩, hv.2.mono hw.le⟩)
  cases result with
  | none =>
    exact .bind (Q := fun l v => Supplies u v ∧ Lowered.HandedOut v.graph.registers l)
      (.pure ⟨.refl hu.supplied, fun _ hr => nomatch hr⟩) hrest
  | some r =>
    refine .bind (value_supplies hu.supplied b .move fun r' hr' => ?_) hrest
    rw [List.mem_singleton.1 hr']
    exact Register.below_of_physical (hphysical r rfl) _

/-! ## Nodes -/

theorem emit_supplies (h : s.Supplied) (node : Ssa.Node) :
    Spec (emit node) s (fun l t => Supplies s t ∧ l.HandedOut t.graph.registers) fun _ => True := by
  obtain ⟨b, type, op⟩ := node
  -- Nodes that only take a register.
  have hfresh : Spec (do return ⟨none, some (← newRegister)⟩) s
      (fun l t => Supplies s t ∧ Lowered.HandedOut t.graph.registers l) fun _ => True := by
    refine .bind (newRegister_supplies h) fun r t ht => .pure ⟨ht.1, ?_⟩
    rintro _ ⟨⟩
    exact ht.2
  cases op with
  | param index => exact param_supplies h b index
  | undefined slot => exact hfresh
  | merge slot args => exact hfresh
  | intConst n => exact value_supplies h b _ (by simp)
  | nullConst => exact value_supplies h b _ (by simp)
  | stringConst text =>
    refine .bind (dataLabel_supplies h text) fun label t ht => ?_
    exact (value_supplies ht.supplied b _ (by simp)).mono (fun _ u hu => ⟨ht.trans hu.1, hu.2⟩) fun _ he => he
  | arith op kind lhs rhs =>
    refine registerOf_bind_supplies h lhs fun l hl => registerOf_bind_supplies h rhs fun r hr => ?_
    exact value_supplies h b _ (by simp [hl, hr])
  | negate v => exact registerOf_bind_supplies h v fun r hr => value_supplies h b _ (by simp [hr])
  | getStatic field => exact value_supplies h b _ (by simp)
  | putStatic field v => exact registerOf_bind_supplies h v fun r hr => effect_supplies h b _ (by simp [hr])
  | arrayLoad base offset =>
    refine registerOf_bind_supplies h base fun l hl => registerOf_bind_supplies h offset fun r hr => ?_
    exact value_supplies h b _ (by simp [hl, hr])
  | arrayStore base offset v =>
    refine registerOf_bind_supplies h base fun l hl => registerOf_bind_supplies h offset fun r hr => ?_
    exact registerOf_bind_supplies h v fun r' hr' => effect_supplies h b _ (by simp [hl, hr, hr'])
  | call kind method args => exact call_supplies h b method args type
  | branch condition lhs rhs taken fallthrough =>
    refine registerOf_bind_supplies h lhs fun l hl => registerOf_bind_supplies h rhs fun r hr => ?_
    exact effect_supplies h b _ (by simp [hl, hr])
  | goto target => exact effect_supplies h b _ (by simp)
  | switch v default cases => exact registerOf_bind_supplies h v fun r hr => effect_supplies h b _ (by simp [hr])
  | ret v =>
    cases v with
    | none => exact effect_supplies h b _ (by simp)
    | some v =>
      have hresult : ∀ n, Register.result.Below n := Register.below_of_physical rfl
      refine registerOf_bind_supplies h v fun r hr => ?_
      refine .bind (.discard (append_supplies h b .move (by simp [hr]) (by simp [hresult]))) fun _ t ht => ?_
      exact (effect_supplies ht.supplied b _ (by simp [hresult])).mono (fun _ u hu => ⟨ht.trans hu.1, hu.2⟩)
        fun _ he => he
  | raise v => exact registerOf_bind_supplies h v fun r hr => effect_supplies h b _ (by simp [hr])

theorem lowerResolved_supplies (h : s.Supplied) (depth : Nat) (id : NodeId) :
    Spec (lowerResolved depth id) s (fun _ t => Supplies s t) fun _ => True := by
  induction depth generalizing s id with
  | zero => exact .throw trivial
  | succ depth ih =>
    unfold lowerResolved
    refine .get_bind ?_
    split
    · exact .pure (.refl h)
    refine .bind (Q := fun _ t => s = t) (.lift (fun _ _ => rfl) fun _ _ => trivial) ?_
    rintro node _ rfl
    refine .bind (.forM (P := fun _ t => Supplies s t) (fun _ o _ _ t ht => ?_) (.refl h)) fun _ t ht => ?_
    · exact ht.spec (ih ht.supplied o)
    refine .bind (emit_supplies ht.supplied node) fun l u hu => .modify ⟨ht.le.trans hu.1.le, hu.1.supplied.graph, ?_⟩
    intro k l' hl'
    rw [Std.TreeMap.getElem?_insert] at hl'
    split at hl'
    · obtain rfl := Option.some.inj hl'
      exact hu.2
    · exact hu.1.supplied.lowered k l' hl'

theorem lower_supplies (h : s.Supplied) (id : NodeId) :
    Spec (lower id) s (fun _ t => Supplies s t) fun _ => True := by
  refine .get_bind (.bind (lowerResolved_supplies h _ _) fun _ t ht => .get_bind ?_)
  split
  · exact .pure ht
  · exact .throw trivial

theorem lowerAll_supplies (h : s.Supplied) : Spec lowerAll s (fun _ t => Supplies s t) fun _ => True := by
  refine .get_bind (.bind (Q := fun _ t => s = t) (.lift (fun _ _ => rfl) fun _ _ => trivial) ?_)
  rintro _ _ rfl
  refine .forM (P := fun _ t => Supplies s t) (fun _ b _ _ t ht => .get_bind ?_) (.refl h)
  refine .bind (Q := fun _ u => t = u) (.lift (fun _ _ => rfl) fun _ _ => trivial) ?_
  rintro block _ rfl
  refine .forM (P := fun _ u => Supplies s u) (fun _ id _ _ u hu => .discard ?_) ht
  exact hu.spec (lower_supplies hu.supplied id)

/-! ## Merges -/

theorem mergeMoves_supplies (h : s.Supplied) (b : BlockId) (preds : Nat) (id : NodeId) :
    Spec (mergeMoves b preds id) s
      (fun row t => Supplies s t ∧ ∀ m, some m ∈ row → m.source ≠ m.target ∧ m.Below t.graph.registers)
      fun _ => True := by
  refine .get_bind (.bind (Q := fun _ t => s = t) (.lift (fun _ _ => rfl) fun _ _ => trivial) ?_)
  rintro node _ rfl
  cases node.op.merge? with
  | none => exact .pure ⟨.refl h, by simp⟩
  | some merge =>
    dsimp only
    split
    · exact .stop_bind (.throw trivial)
    refine registerOf_bind_supplies h id fun target htarget => ?_
    refine .mapM (P := fun _ row t => Supplies s t ∧
      ∀ m, some m ∈ row → m.source ≠ m.target ∧ Move.Below t.graph.registers m) ?_ ⟨.refl h, by simp⟩
    rintro _ arg _ - row t ⟨ht, hrow⟩
    refine .bind (.discard (lower_supplies ht.supplied arg)) fun _ u hu => ?_
    refine registerOf_bind_supplies hu.supplied arg fun source hsource => .pure ⟨ht.trans hu, fun m hm => ?_⟩
    rcases List.mem_append.1 hm with hm | hm
    · exact ⟨(hrow m hm).1, (hrow m hm).2.mono hu.le⟩
    · have hmove := List.mem_singleton.1 hm
      split at hmove
      · cases hmove
      · next hne =>
        obtain rfl := Option.some.inj hmove
        exact ⟨hne, hsource, htarget.mono (ht.trans hu).le⟩

theorem allMoves_supplies (h : s.Supplied) (b : BlockId) (preds : Nat) (ids : List NodeId) :
    Spec (ids.mapM (mergeMoves b preds)) s
      (fun rows t => Supplies s t ∧
        ∀ row ∈ rows, ∀ m, some m ∈ row → m.source ≠ m.target ∧ m.Below t.graph.registers) fun _ => True := by
  refine .mapM (P := fun _ (rows : List (List (Option Move))) t => Supplies s t ∧
    ∀ row ∈ rows, ∀ m, some m ∈ row → m.source ≠ m.target ∧ m.Below t.graph.registers) ?_ ⟨.refl h, by simp⟩
  rintro _ id _ - rows t ⟨ht, hrows⟩
  refine (mergeMoves_supplies ht.supplied b preds id).mono (fun row u hu => ⟨ht.trans hu.1, ?_⟩) fun _ he => he
  intro row' hrow' m hm
  rcases List.mem_append.1 hrow' with hrow' | hrow'
  · exact ⟨(hrows row' hrow' m hm).1, (hrows row' hrow' m hm).2.mono hu.1.le⟩
  · rw [List.mem_singleton.1 hrow'] at hm
    exact hu.2 m hm

/-- Every move of an edge is one of a merge. -/
theorem forall_byPredecessor {P : Move → Prop} {rows : List (List (Option Move))}
    (h : ∀ row ∈ rows, ∀ m, some m ∈ row → P m) (preds : List BlockId) :
    ∀ entry ∈ byPredecessor preds rows, ∀ m ∈ entry.2, P m := by
  intro entry hentry m hm
  obtain ⟨⟨p, k⟩, -, rfl⟩ := List.mem_map.1 hentry
  obtain ⟨row, hrow, hjoin⟩ := List.mem_filterMap.1 hm
  exact h row hrow m (List.mem_of_getElem? (Option.join_eq_some_iff.1 hjoin))

theorem placeMoves_supplies (h : s.Supplied) {entry : BlockId × List Move}
    (hmoves : ∀ m ∈ entry.2, m.Below s.graph.registers) :
    Spec (placeMoves entry) s (fun _ t => Supplies s t) fun _ => True := by
  have hle : s.graph.registers ≤ (s.graph.insertMoves entry.1 entry.2).2.registers := le_sequence _ _
  have hplace : Supplies s
      { s with
        graph := (s.graph.insertMoves entry.1 entry.2).2
        stats := s.stats.addEdgeMoves (s.graph.insertMoves entry.1 entry.2).1 } :=
    ⟨hle, supplied_insertMoves h.graph entry.1 hmoves, fun id l hl => (h.lowered id l hl).mono hle⟩
  rcases insertMoves_cases entry.1 entry.2 s with hok | ⟨e, herror⟩
  · exact .intro_ok hok hplace
  · exact .intro_error herror trivial

theorem forM_placeMoves_supplies (h : s.Supplied) {entries : List (BlockId × List Move)}
    (hentries : ∀ entry ∈ entries, ∀ m ∈ entry.2, m.Below s.graph.registers) :
    Spec (entries.forM placeMoves) s (fun _ t => Supplies s t) fun _ => True := by
  refine .forM (P := fun _ t => Supplies s t) (fun front entry rest hsplit t ht => ?_) (.refl h)
  have hmoves := hentries entry (by simp [hsplit])
  exact ht.spec (placeMoves_supplies ht.supplied fun m hm => (hmoves m hm).mono ht.le)

theorem resolveBlock_supplies (h : s.Supplied) (b : BlockId) :
    Spec (resolveBlock b) s (fun _ t => Supplies s t) fun _ => True := by
  refine .get_bind (.bind (Q := fun _ t => s = t) (.lift (fun _ _ => rfl) fun _ _ => trivial) ?_)
  rintro merges _ rfl
  split
  · exact .pure (.refl h)
  refine .bind (Q := fun _ t => s = t) (.lift (fun _ _ => rfl) fun _ _ => trivial) ?_
  rintro block _ rfl
  refine .bind (allMoves_supplies h b _ _) fun rows t ht => ?_
  change Spec ((byPredecessor _ rows).forM placeMoves) t _ _
  have hentries := forall_byPredecessor ht.2 block.preds
  apply ht.1.spec
  exact forM_placeMoves_supplies ht.1.supplied fun entry hentry m hm => (hentries entry hentry m hm).2

theorem forM_resolveBlock_supplies (h : s.Supplied) (bs : List BlockId) :
    Spec (bs.forM resolveBlock) s (fun _ t => Supplies s t) fun _ => True := by
  refine .forM (P := fun _ t => Supplies s t) (fun _ b _ _ t ht => ?_) (.refl h)
  exact ht.spec (resolveBlock_supplies ht.supplied b)

end LowerM

/-! ## Moves put at the end of a block -/

open LowerM

/-- The lowering that starts in a state comes to put moves at the end of a block, when the graph looks in some way: all
nodes are lowered, and so are the edges into the blocks ahead of the next one and from the predecessors ahead of this
one. -/
inductive Inserts (s : LowerState) : Graph → BlockId → List Move → Prop where
  | mk {s₀ s₁ s₂ t : LowerState} {front rest : List BlockId} {b p : BlockId} {rows : List (List (Option Move))}
    {before after : List (BlockId × List Move)} {moves : List Move} :
    lowerAll s = .ok ⟨⟩ s₀ → s₀.graph.order = front ++ b :: rest → front.forM resolveBlock s₀ = .ok ⟨⟩ s₁ →
    (s₁.graph.mergesOf b).mapM (mergeMoves b (s₁.graph.preds b).length) s₁ = .ok rows s₂ →
    byPredecessor (s₁.graph.preds b) rows = before ++ (p, moves) :: after → before.forM placeMoves s₂ = .ok ⟨⟩ t →
    Inserts s t.graph p moves

section Inserts

variable {s t : LowerState} {g : Graph} {b p : BlockId} {moves : List Move}

theorem Inserts.supplied (h : Inserts s g p moves) (hs : s.Supplied) :
    g.Supplied ∧ ∀ m ∈ moves, m.source ≠ m.target ∧ m.Below g.registers := by
  cases h with
  | @mk _ s₁ _ _ _ _ b _ _ _ _ _ hall _ hfront hrows hsplit hbefore =>
    have h₀ := (lowerAll_supplies hs).of_ok hall
    have h₁ := (forM_resolveBlock_supplies h₀.supplied _).of_ok hfront
    obtain ⟨h₂, hmoves⟩ := (allMoves_supplies h₁.supplied _ _ _).of_ok hrows
    have hentries := forall_byPredecessor hmoves (s₁.graph.preds b)
    rw [hsplit, List.forall_mem_append, List.forall_mem_cons] at hentries
    obtain ⟨hfirst, hhere, -⟩ := hentries
    have ht := (forM_placeMoves_supplies h₂.supplied fun e he m hm => (hfirst e he m hm).2).of_ok hbefore
    exact ⟨ht.supplied.graph, fun m hm => ⟨(hhere m hm).1, (hhere m hm).2.mono ht.le⟩⟩

/-- A loop that ends well has come to each of its steps. -/
theorem exists_of_forM_eq_ok {α : Type} {f : α → LowerM PUnit} {front rest : List α} {x : α}
    (h : (front ++ x :: rest).forM f s = .ok ⟨⟩ t) :
    ∃ u v, front.forM f s = .ok ⟨⟩ u ∧ f x u = .ok ⟨⟩ v := by
  induction front generalizing s with
  | nil =>
    obtain ⟨v, hx, -⟩ := Pass.forM_cons_eq_ok.1 h
    exact ⟨s, v, Pass.forM_nil_eq_ok.2 rfl, hx⟩
  | cons y front ih =>
    obtain ⟨s', hy, h⟩ := Pass.forM_cons_eq_ok.1 h
    obtain ⟨u, v, hfront, hx⟩ := ih h
    exact ⟨u, v, Pass.forM_cons_eq_ok.2 ⟨s', hy, hfront⟩, hx⟩

/-- Every edge into a block with merges is given its moves. -/
theorem exists_inserts {data : Array DataEntry} (h : LowerM.run s = .ok data t) (hb : b ∈ s.graph.order)
    (hmerges : s.graph.mergesOf b ≠ []) (hp : p ∈ s.graph.preds b) : ∃ g moves, Inserts s g p moves := by
  obtain ⟨_, s₀, hall, h⟩ := Pass.bind_eq_ok.1 h
  obtain ⟨_, t₀, hresolve, -⟩ := Pass.bind_eq_ok.1 h
  obtain ⟨_, _, hget, hresolve⟩ := Pass.bind_eq_ok.1 hresolve
  obtain ⟨rfl, rfl⟩ := Pass.get_eq_ok.1 hget
  obtain ⟨_, _, hlift, hresolve⟩ := Pass.bind_eq_ok.1 hresolve
  obtain ⟨-, rfl⟩ := Pass.lift_eq_ok.1 hlift
  have hnodes₀ : s.graph.SameNodes s₀.graph := (leads_lowerAll.of_ok hall).nodes
  obtain ⟨front, rest, hsplit⟩ := List.append_of_mem hb
  rw [hnodes₀.order_eq, hsplit] at hresolve
  obtain ⟨s₁, v, hfront, hblock⟩ := exists_of_forM_eq_ok hresolve
  have hnodes₁ : s₀.graph.SameNodes s₁.graph := by
    have hleads : Pass.Leads Adds (front.forM resolveBlock) := Pass.Leads.forM _ fun b _ => by
      rw [← run_resolveBlockScript]
      exact (keeps_resolveBlockScript b).leads_run
    exact (hleads.of_ok hfront).nodes
  have hnodes := hnodes₀.trans hnodes₁
  obtain ⟨_, _, hget, hblock⟩ := Pass.bind_eq_ok.1 hblock
  obtain ⟨rfl, rfl⟩ := Pass.get_eq_ok.1 hget
  rw [← hnodes.mergesOf_eq] at hmerges
  rw [← hnodes.preds_eq] at hp
  obtain ⟨merges, _, hlift, hblock⟩ := Pass.bind_eq_ok.1 hblock
  obtain ⟨hget, rfl⟩ := Pass.lift_eq_ok.1 hlift
  obtain rfl := Ssa.getMerges_eq_ok hget
  rw [if_neg (mt List.isEmpty_iff.1 hmerges)] at hblock
  obtain ⟨block, _, hlift, hblock⟩ := Pass.bind_eq_ok.1 hblock
  obtain ⟨hget, rfl⟩ := Pass.lift_eq_ok.1 hlift
  rw [← Graph.preds_eq (Graph.getBlock_eq_ok.1 hget)] at hblock
  obtain ⟨rows, s₂, hrows, hplace⟩ := Pass.bind_eq_ok.1 hblock
  obtain ⟨moves, hmem⟩ : ∃ moves, (p, moves) ∈ byPredecessor (s₁.graph.preds b) rows := by
    obtain ⟨k, hk⟩ := List.mem_iff_getElem?.1 hp
    refine ⟨_, List.mem_map.2 ⟨(p, k), ?_, rfl⟩⟩
    exact List.mem_zipIdx_iff_getElem?.2 hk
  obtain ⟨before, after, hentries⟩ := List.append_of_mem hmem
  rw [hentries] at hplace
  obtain ⟨u, _, hbefore, -⟩ := exists_of_forM_eq_ok hplace
  exact ⟨u.graph, moves, .mk hall (hnodes₀.order_eq.trans hsplit) hfront hrows hentries hbefore⟩

end Inserts

end Machine

end Destack
