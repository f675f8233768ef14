import Destack.Proofs.Graph.ControlFlow
import Destack.Proofs.Ssa.Form
import Destack.Proofs.Ssa.Reducible

/-!
# Why nodes cannot be built

Nodes are built over a graph in which control finds a block wherever it goes (`Graph.Closed`), also when blocks that
nothing leads to have been taken away, and each block is built after those that its frame comes from. So the pass finds
every block and node that it looks for. Where it fails, it refuses the method for its instructions, its constants or
its stack (`Error.IsRefusal`), or the graph is not reducible (`blocks_spec`).
-/

namespace Destack

/-- Errors about what a method asks for: an instruction, a constant, a descriptor, a local slot or the stack. -/
def Error.IsRefusal : Error → Prop
  | .unsupported .. | .missingConstant .. | .unexpectedConstant .. | .invalidDescriptor .. | .invalidLocal ..
  | .stackUnderflow .. | .stackMismatch .. => True
  | _ => False

/-! ## Where control finds a block -/

namespace Graph

variable {g g' : Graph} {code : List Instruction} {addr : BlockId → Nat} {b t : BlockId} {i : Instruction}

/-- Blocks start at the targets of an instruction, and behind it if it is a conditional branch. -/
structure Finds (g : Graph) (i : Instruction) : Prop where
  target : ∀ target ∈ i.jumpTargets, ∃ t, g.blockAtTarget? target = some t
  next : i.category = .conditionalBranch → ∃ t, g.blockAtTarget? i.next = some t

/-- Control finds a block from every instruction. -/
def Closed (g : Graph) : Prop :=
  ∀ b, ∀ i ∈ g.instructionsOf b, g.Finds i

/-- An instruction that passes control on to the next one looks for no block. -/
theorem finds_of_category_other (h : i.category = .other) : g.Finds i := by
  refine ⟨fun target htarget => ?_, fun hcat => by simp [h] at hcat⟩
  have := Instruction.category_of_jumpTargets_ne_nil (List.ne_nil_of_mem htarget)
  simp [h] at this

theorem blockAtTarget?_eq_some {target : Int} (h : g.blockAtTarget? target = some t) :
    ∃ a : Nat, target = a ∧ g.blockAt? a = some t := by
  cases target with
  | ofNat a => exact ⟨a, rfl, h⟩
  | negSucc _ => cases h

theorem mem_dropLast_or_getLast? {is : List Instruction} (hi : i ∈ is) : i ∈ is.dropLast ∨ is.getLast? = some i := by
  rcases getLast?_or_adjacent hi with hlast | ⟨hinner, -⟩
  · exact Or.inr hlast
  · exact Or.inl hinner

/-- In a graph over code it is enough to look at the ends of blocks. -/
theorem Laid.closed (h : Laid code addr g) (hlast : ∀ b block last, g.block? b = some block →
    block.instructions.getLast? = some last → g.Finds last) : g.Closed := by
  intro b i hi
  obtain ⟨block, hb⟩ := hasBlock_iff.1 (hasBlock_of_mem_instructionsOf hi)
  rw [instructionsOf_eq hb] at hi
  rcases mem_dropLast_or_getLast? hi with hinner | hend
  · exact finds_of_category_other (h.category_inner hb i hinner)
  · exact hlast b block i hb hend

theorem closed_ofInstructions (hcode : Contiguous 0 code) (h : ofInstructions code = .ok g) : g.Closed := by
  obtain ⟨⟨addr, hlaid⟩, -⟩ := laid_ofInstructions hcode h
  obtain ⟨addr', hout⟩ := outlined_ofInstructions hcode h
  refine hlaid.closed fun b block last hb hlast => ?_
  have hbody : g.bodyOf b = block.instructions.map Instruction.unmarked := by simp [bodyOf, hb]
  have hend : (g.bodyOf b).getLast? = some last.unmarked := by rw [hbody, List.getLast?_map, hlast]; rfl
  refine ⟨fun target htarget => ?_, fun hcat => ?_⟩
  · refine hout.target_found last.unmarked (hlaid.mem_code hb last (List.mem_of_getLast? hlast)) target ?_
    rwa [Instruction.unmarked_jumpTargets]
  · obtain ⟨next, us, hexits, -, hnext⟩ := hout.exits b (hasBlock_iff.2 ⟨block, hb⟩)
    rw [hend] at hexits
    have hcat' : last.unmarked.category = .conditionalBranch := hcat
    obtain ⟨n, rfl⟩ : ∃ n, next = some n := by
      cases hexits with
      | falls _ hn | branches _ hn _ => exact ⟨_, hn⟩
      | jumps hc _ | ends hc => rw [hcat'] at hc; simp at hc
    obtain ⟨j, hj, haddr⟩ := hnext n rfl
    refine ⟨n, (hlaid.blockAt?_iff.2 ?_ : g.blockAt? last.next = some n)⟩
    obtain ⟨nblock, hn⟩ := hasBlock_iff.1 (Outlined.hasBlock_of_mem (List.mem_of_head? hj))
    refine ⟨nblock, hn, ?_⟩
    simp only [bodyOf, hn, Option.map_some, Option.getD_some, List.head?_map, Option.map_eq_some_iff] at hj
    obtain ⟨k, hk, rfl⟩ := hj
    rw [Block.start?, hk, Option.map_some, ← Instruction.unmarked_address, haddr, endOf_eq_of_getLast? hend,
      Instruction.unmarked_next]

/-- The blocks that the analysis leaves have their instructions and successors. -/
theorem exists_block_of_analyze {summary : FlowSummary} (ha : g.analyze = .ok (summary, g')) {block' : Block}
    (hb : g'.block? b = some block') :
    ∃ block, g.block? b = some block ∧ block.instructions = block'.instructions ∧ block.succs = block'.succs := by
  obtain ⟨g₁, hmarks, hdom⟩ := analyze_eq_ok ha
  obtain ⟨block₂, hb₂, hview₂⟩ := hdom.keeps.symm.exists_block hb
  obtain ⟨-, block₁, hb₁, rfl⟩ := block?_prune_eq_some hb₂
  obtain ⟨block, hb₀, hview⟩ := hmarks.keeps.symm.exists_block hb₁
  refine ⟨block, hb₀, ?_, ?_⟩
  · exact (congrArg Block.instructions hview :).trans (congrArg Block.instructions hview₂ :)
  · exact (congrArg Block.succs hview :).trans (congrArg Block.succs hview₂ :)

theorem instructionsOf_analyze {summary : FlowSummary} (ha : g.analyze = .ok (summary, g'))
    (hb : g'.hasBlock b = true) : g'.instructionsOf b = g.instructionsOf b := by
  obtain ⟨block', hblock'⟩ := hasBlock_iff.1 hb
  obtain ⟨block, hblock, hinstr, -⟩ := exists_block_of_analyze ha hblock'
  rw [instructionsOf_eq hblock', instructionsOf_eq hblock, hinstr]

/-- Taking away blocks that nothing leads to leaves no instruction without a block to go to. -/
theorem Closed.analyze {summary : FlowSummary} (hclosed : g.Closed) (h : Laid code addr g) (h' : Laid code addr g')
    (ha : g.analyze = .ok (summary, g')) : g'.Closed := by
  -- A block that was found and is a successor is found again.
  have hfound : ∀ {b : BlockId} {block' : Block} {target : Int}, g'.block? b = some block' →
      (∀ t, g.blockAtTarget? target = some t → t ∈ block'.succs) → (∃ t, g.blockAtTarget? target = some t) →
      ∃ t, g'.blockAtTarget? target = some t := by
    rintro b block' target hb hsucc ⟨t, ht⟩
    obtain ⟨tblock', htb⟩ := hasBlock_iff.1 (h'.linked.succ_mem hb (hsucc t ht))
    obtain ⟨a, rfl, hat⟩ := blockAtTarget?_eq_some ht
    obtain ⟨tblock, htb₀, hstart⟩ := h.blockAt?_iff.1 hat
    obtain ⟨tblock₀, htb₁, hinstr, -⟩ := exists_block_of_analyze ha htb
    obtain rfl : tblock₀ = tblock := Option.some.inj (htb₁.symm.trans htb₀)
    refine ⟨t, (h'.blockAt?_iff.2 ⟨tblock', htb, ?_⟩ : g'.blockAt? a = some t)⟩
    rw [Block.start?, ← hinstr]
    exact hstart
  refine h'.closed fun b block' last hb hlast => ?_
  obtain ⟨block, hb₀, hinstr, hsuccs⟩ := exists_block_of_analyze ha hb
  have hlast₀ : block.instructions.getLast? = some last := by rw [hinstr, hlast]
  have hfinds : g.Finds last := by
    refine hclosed b last ?_
    rw [instructionsOf_eq hb₀]
    exact List.mem_of_getLast? hlast₀
  refine ⟨fun target htarget => hfound hb ?_ (hfinds.target target htarget), fun hcat =>
    hfound hb ?_ (hfinds.next hcat)⟩
  · exact fun t ht => hsuccs ▸ h.jump_target hb₀ hlast₀ target htarget ht
  · exact fun t ht => hsuccs ▸ h.branch_next hb₀ hlast₀ hcat ht

theorem Keeps.preds_eq (h : Keeps textOf g g') (b : BlockId) : g'.preds b = g.preds b := by
  have hview : (g'.block? b).map Block.preds = (g.block? b).map Block.preds := h.comp (·.2.1) b
  rw [preds, preds, hview]

theorem Finds.congr (h : g.Finds i) (hstarts : g'.starts = g.starts) : g'.Finds i := by
  refine ⟨fun target htarget => ?_, fun hcat => ?_⟩
  · simpa only [blockAtTarget?_congr hstarts] using h.target target htarget
  · simpa only [blockAtTarget?_congr hstarts] using h.next hcat

end Graph

/-! ## Steps that only refuse -/

namespace Ssa

variable {α β : Type} {c : Context} {i : Instruction} {s : BuildState}

/-- The same blocks are there and found, and the same one is under construction. -/
structure Stays (s t : BuildState) : Prop where
  starts_eq : t.graph.starts = s.graph.starts
  hasBlock_eq : ∀ b, t.graph.hasBlock b = s.graph.hasBlock b
  block_eq : t.block = s.block

namespace Stays

variable {t u : BuildState}

theorem refl (s : BuildState) : Stays s s :=
  ⟨rfl, fun _ => rfl, rfl⟩

theorem trans (h : Stays s t) (h' : Stays t u) : Stays s u :=
  ⟨h'.starts_eq.trans h.starts_eq, fun b => (h'.hasBlock_eq b).trans (h.hasBlock_eq b), h'.block_eq.trans h.block_eq⟩

theorem hasBlock (h : Stays s t) (hb : s.graph.hasBlock s.block = true) : t.graph.hasBlock t.block = true := by
  rw [h.block_eq, h.hasBlock_eq, hb]

theorem spec {p : BuildM α} (h : Stays s t) (hp : Pass.Spec p t (fun _ u => Stays t u) Error.IsRefusal) :
    Pass.Spec p t (fun _ u => Stays s u) Error.IsRefusal :=
  hp.mono (fun _ _ hu => h.trans hu) fun _ he => he

end Stays

/-- A step of the pass that can only refuse the method, as long as the block under construction is there. -/
def Mild (p : BuildM α) : Prop :=
  ∀ s, s.graph.hasBlock s.block = true → Pass.Spec p s (fun _ t => Stays s t) Error.IsRefusal

namespace Mild

variable {p : BuildM α}

theorem pure (a : α) : Mild (pure a : BuildM α) :=
  fun s _ => Pass.Spec.pure (.refl s)

theorem throw {e : Error} (h : e.IsRefusal) : Mild (throw e : BuildM α) :=
  fun _ _ => Pass.Spec.throw h

theorem bind {f : α → BuildM β} (h : Mild p) (hf : ∀ a, Mild (f a)) : Mild (p >>= f) :=
  fun s hs => Pass.Spec.bind (h s hs) fun a t ht => ht.spec (hf a t (ht.hasBlock hs))

theorem get_bind {f : BuildState → BuildM β} (h : ∀ s, Mild (f s)) : Mild (get >>= f) :=
  fun s hs => Pass.Spec.get_bind (h s s hs)

theorem modify {f : BuildState → BuildState} (h : ∀ s, Stays s (f s)) : Mild (modify f : BuildM PUnit) :=
  fun s _ => Pass.Spec.modify (h s)

theorem lift {x : Except Error α} (h : ∀ e, x = .error e → e.IsRefusal) : Mild (Pass.lift x : BuildM α) :=
  fun s _ => Pass.Spec.lift (fun _ _ => .refl s) h

theorem discard (h : Mild p) : Mild (discard p) :=
  fun s hs => Pass.Spec.discard (h s hs)

end Mild

theorem emitWith_stays (hs : s.graph.hasBlock s.block = true) (type : ValueType) (make : NodeId → Op)
    {E : Error → Prop} : Pass.Spec (BuildM.emitWith type make) s (fun _ t => Stays s t) E := by
  refine Pass.Spec.intro_ok (After.emitWith_eq_ok.2 ⟨hs, rfl, rfl⟩) ⟨rfl, fun b => ?_, rfl⟩
  exact Graph.hasBlock_modifyBlock ..

theorem mild_emit (type : ValueType) (op : Op) : Mild (BuildM.emit type op) :=
  fun _ hs => emitWith_stays hs type _

theorem mild_push (id : NodeId) : Mild (BuildM.push id) :=
  Mild.modify fun _ => ⟨rfl, fun _ => rfl, rfl⟩

theorem mild_emitPush (type : ValueType) (op : Op) : Mild (BuildM.emitPush type op) :=
  (mild_emit type op).bind mild_push

theorem mild_pop (i : Instruction) : Mild (BuildM.pop i) := by
  refine Mild.get_bind fun s => ?_
  cases s.frame.stack with
  | nil => exact Mild.throw trivial
  | cons id rest => exact Mild.bind (.modify fun _ => ⟨rfl, fun _ => rfl, rfl⟩) fun _ => .pure id

theorem mild_readLocal (i : Instruction) (slot : Nat) : Mild (BuildM.readLocal i slot) := by
  refine Mild.get_bind fun s => ?_
  cases s.frame.locals[slot]? with
  | none => exact Mild.throw trivial
  | some id => exact Mild.pure id

theorem mild_writeLocal (i : Instruction) (slot : Nat) (id : NodeId) : Mild (BuildM.writeLocal i slot id) := by
  refine Mild.get_bind fun s => ?_
  split
  · exact Mild.modify fun _ => ⟨rfl, fun _ => rfl, rfl⟩
  · exact Mild.throw trivial

/-! ## Constants and descriptors -/

theorem isRefusal_of_entry {pool : ConstantPool} {index : Nat} {e : Error} (h : pool.entry index = .error e) :
    e.IsRefusal := by
  unfold ConstantPool.entry at h
  split at h
  · cases h
  · cases h
    trivial

/-- What is made of an entry of the pool refuses nothing but the entry. -/
theorem isRefusal_of_entry_bind {pool : ConstantPool} {index : Nat} {f : Constant → Except Error α} {e : Error}
    (hf : ∀ entry e, f entry = .error e → e.IsRefusal) (h : (pool.entry index >>= f) = .error e) : e.IsRefusal := by
  cases hentry : pool.entry index with
  | error e' =>
    rw [hentry] at h
    cases h
    exact isRefusal_of_entry hentry
  | ok entry =>
    rw [hentry] at h
    exact hf entry e h

theorem isRefusal_of_field {pool : ConstantPool} {index : Nat} {e : Error} (h : pool.field index = .error e) :
    e.IsRefusal := by
  refine isRefusal_of_entry_bind (fun entry e he => ?_) h
  cases entry <;> cases he <;> trivial

theorem isRefusal_of_method {pool : ConstantPool} {index : Nat} {e : Error} (h : pool.method index = .error e) :
    e.IsRefusal := by
  refine isRefusal_of_entry_bind (fun entry e he => ?_) h
  cases entry <;> cases he <;> trivial

theorem isRefusal_of_methodType {text : String} {e : Error} (h : MethodType.ofDescriptor text = .error e) :
    e.IsRefusal := by
  unfold MethodType.ofDescriptor at h
  split at h
  · cases h
  · cases h
    trivial

theorem isRefusal_of_valueType {text : String} {e : Error} (h : ValueType.ofDescriptor text = .error e) :
    e.IsRefusal := by
  unfold ValueType.ofDescriptor at h
  split at h
  · cases h
  · cases h
    trivial

/-! ## Instructions -/

theorem mild_pushConstant (c : Context) (index : Nat) : Mild (BuildM.pushConstant c index) := by
  refine (Mild.lift fun _ he => isRefusal_of_entry he).bind fun entry => ?_
  cases entry with
  | int value => exact mild_emitPush _ _
  | string value => exact mild_emitPush _ _
  | className | field | method => exact Mild.throw trivial

theorem mild_elementAddress (opcode : Opcode) (array index : NodeId) :
    Mild (BuildM.elementAddress opcode array index) := by
  refine (mild_emit _ _).bind fun header => (mild_emit _ _).bind fun base => ?_
  exact (mild_emit _ _).bind fun scale => (mild_emit _ _).bind fun offset => .pure (base, offset)

theorem mild_arrayLoad (i : Instruction) (type : ValueType) : Mild (BuildM.arrayLoad i type) := by
  refine (mild_pop i).bind fun index => (mild_pop i).bind fun array => ?_
  exact (mild_elementAddress _ array index).bind fun _ => mild_emitPush _ _

theorem mild_arrayStore (i : Instruction) : Mild (BuildM.arrayStore i) := by
  refine (mild_pop i).bind fun value => (mild_pop i).bind fun index => (mild_pop i).bind fun array => ?_
  exact (mild_elementAddress _ array index).bind fun _ => (mild_emit _ _).discard

theorem mild_call (c : Context) (i : Instruction) (kind : CallKind) (index : Nat) :
    Mild (BuildM.call c i kind index) := by
  refine (Mild.lift fun _ he => isRefusal_of_method he).bind fun method => ?_
  refine (Mild.lift fun _ he => isRefusal_of_methodType he).bind fun type => Mild.get_bind fun s => ?_
  dsimp only
  generalize type.arity + (if kind = .special then 1 else 0) = count
  have hrest : Mild (do
      modify fun s' => { s' with frame := { s'.frame with stack := s.frame.stack.drop count } }
      let id ← BuildM.emit type.result.onStack (.call kind method (s.frame.stack.take count).reverse)
      if type.returnsValue then BuildM.push id) := by
    refine Mild.bind (.modify fun _ => ⟨rfl, fun _ => rfl, rfl⟩) fun _ => Mild.bind (mild_emit _ _) fun id => ?_
    split
    · exact mild_push id
    · exact Mild.pure _
  split
  · exact Mild.bind (.throw trivial) fun _ => hrest
  · exact hrest

/-- What follows a mild step goes on where the same blocks are found. -/
theorem Mild.bind_spec {p : BuildM α} {f : α → BuildM β} (h : Mild p) (hs : s.graph.hasBlock s.block = true)
    (hf : ∀ a t, Stays s t → Pass.Spec (f a) t (fun _ u => Stays t u) Error.IsRefusal) :
    Pass.Spec (p >>= f) s (fun _ t => Stays s t) Error.IsRefusal :=
  Pass.Spec.bind (h s hs) fun a t ht => ht.spec (hf a t ht)

/-- A block that is found is found without a change. -/
theorem targetBlock_bind {target : Int} {f : BlockId → BuildM β} {Q : β → BuildState → Prop} {E : Error → Prop}
    (h : ∃ t, s.graph.blockAtTarget? target = some t) (hf : ∀ t, Pass.Spec (f t) s Q E) :
    Pass.Spec (BuildM.targetBlock i target >>= f) s Q E := by
  obtain ⟨t, ht⟩ := h
  refine Pass.Spec.bind (Q := fun _ t' => t' = s) ?_ fun a _ heq => heq ▸ hf a
  exact Pass.Spec.get_bind (Pass.Spec.lift (fun _ _ => rfl) fun _ he => by
    rw [Graph.targetBlock_eq_ok.2 ht] at he
    cases he)

theorem jumpTarget_bind {f : Int → BuildM β}
    (hf : ∀ target ∈ i.jumpTargets, Pass.Spec (f target) s (fun _ t => Stays s t) Error.IsRefusal) :
    Pass.Spec (BuildM.jumpTarget i >>= f) s (fun _ t => Stays s t) Error.IsRefusal := by
  unfold BuildM.jumpTarget
  cases htargets : i.jumpTargets with
  | nil => exact Pass.Spec.stop_bind (Pass.Spec.throw trivial)
  | cons target rest =>
    exact Pass.Spec.bind (Q := fun a t => a = target ∧ t = s) (Pass.Spec.pure ⟨rfl, rfl⟩) fun a t h => by
      obtain ⟨rfl, rfl⟩ := h
      exact hf a (by simp [htargets])

theorem branch_spec {action : Action} (haction : i.action? = some action) (hcat : action.category = .conditionalBranch)
    (hs : s.graph.hasBlock s.block = true) (h : s.graph.Finds i) (condition : Condition) (lhs rhs : NodeId) :
    Pass.Spec (BuildM.branch i condition lhs rhs) s (fun _ t => Stays s t) Error.IsRefusal := by
  refine jumpTarget_bind fun target htarget => targetBlock_bind (h.target target htarget) fun taken => ?_
  have hbranch := (Instruction.category_of_action? haction (List.ne_nil_of_mem htarget)).trans hcat
  exact targetBlock_bind (h.next hbranch) fun fallthrough => (mild_emit _ _).discard s hs

theorem switch_spec (hs : s.graph.hasBlock s.block = true) (h : s.graph.Finds i) :
    Pass.Spec (BuildM.switch i) s (fun _ t => Stays s t) Error.IsRefusal := by
  refine (mild_pop i).bind_spec hs fun value t ht => ?_
  cases htable : i.switchTable? with
  | none => exact Pass.Spec.throw trivial
  | some table =>
    replace h : ∀ offset ∈ table.default :: table.cases.map (·.2),
        ∃ b, t.graph.blockAtTarget? (i.address + offset) = some b := by
      intro offset hoffset
      refine (h.congr ht.starts_eq).target _ ?_
      rw [Instruction.jumpTargets_of_switchTable? htable]
      exact List.mem_map_of_mem hoffset
    refine targetBlock_bind (h _ List.mem_cons_self) fun default => ?_
    refine Pass.Spec.bind (Q := fun _ t' => t' = t) (Pass.Spec.mapM (P := fun _ _ t' => t' = t) ?_ rfl) ?_
    · rintro front ⟨key, offset⟩ rest hsplit ys t' rfl
      refine targetBlock_bind (h offset ?_) fun _ => Pass.Spec.pure rfl
      simp [hsplit]
    · rintro cases t' rfl
      exact (mild_emit _ _).discard t' (ht.hasBlock hs)

/-- An action of an instruction that finds its blocks only refuses. -/
theorem perform_spec {action : Action} (haction : i.action? = some action)
    (hs : s.graph.hasBlock s.block = true) (h : s.graph.Finds i) :
    Pass.Spec (BuildM.perform c i action) s (fun _ t => Stays s t) Error.IsRefusal := by
  have hpop := mild_pop i
  cases action with
  | nop => exact Mild.pure _ s hs
  | pushNull | pushInt => exact mild_emitPush _ _ s hs
  | pushConstant index => exact mild_pushConstant c index s hs
  | load slot => exact (mild_readLocal i slot).bind mild_push s hs
  | store slot => exact hpop.bind (mild_writeLocal i slot) s hs
  | arrayLoadInt | arrayLoadReference => exact mild_arrayLoad i _ s hs
  | arrayStore => exact mild_arrayStore i s hs
  | pop => exact hpop.discard s hs
  | dup => exact hpop.bind (fun top => (mild_push top).bind fun _ => mild_push top) s hs
  | swap => exact hpop.bind (fun a => hpop.bind fun b => (mild_push a).bind fun _ => mild_push b) s hs
  | arith op => exact hpop.bind (fun rhs => hpop.bind fun lhs => mild_emitPush _ _) s hs
  | negate => exact hpop.bind (fun value => mild_emitPush _ _) s hs
  | increment slot amount =>
    refine (mild_readLocal i slot).bind (fun lhs => (mild_emit _ _).bind fun rhs => ?_) s hs
    exact (mild_emit _ _).bind (mild_writeLocal i slot)
  | branchZero condition =>
    refine hpop.bind_spec hs fun lhs t ht => (mild_emit _ _).bind_spec (ht.hasBlock hs) fun rhs t' ht' => ?_
    exact branch_spec haction rfl ((ht.trans ht').hasBlock hs) (h.congr (ht.trans ht').starts_eq) condition lhs rhs
  | branchPair condition =>
    refine hpop.bind_spec hs fun rhs t ht => hpop.bind_spec (ht.hasBlock hs) fun lhs t' ht' => ?_
    exact branch_spec haction rfl ((ht.trans ht').hasBlock hs) (h.congr (ht.trans ht').starts_eq) condition lhs rhs
  | branchNull condition =>
    refine hpop.bind_spec hs fun lhs t ht => (mild_emit _ _).bind_spec (ht.hasBlock hs) fun rhs t' ht' => ?_
    exact branch_spec haction rfl ((ht.trans ht').hasBlock hs) (h.congr (ht.trans ht').starts_eq) condition lhs rhs
  | jump =>
    refine jumpTarget_bind fun target htarget => targetBlock_bind (h.target target htarget) fun t => ?_
    exact (mild_emit _ _).discard s hs
  | switch => exact switch_spec hs h
  | returnValue => exact hpop.bind (fun value => (mild_emit _ _).discard) s hs
  | returnVoid => exact (mild_emit _ _).discard s hs
  | raise => exact hpop.bind (fun value => (mild_emit _ _).discard) s hs
  | getStatic index =>
    refine (Mild.lift fun _ he => isRefusal_of_field he).bind (fun field => ?_) s hs
    exact (Mild.lift fun _ he => isRefusal_of_valueType he).bind fun type => mild_emitPush _ _
  | putStatic index =>
    refine (Mild.lift fun _ he => isRefusal_of_field he).bind (fun field => ?_) s hs
    exact hpop.bind fun value => (mild_emit _ _).discard
  | call kind index => exact mild_call c i kind index s hs

theorem instruction_spec (hs : s.graph.hasBlock s.block = true) (h : s.graph.Finds i) :
    Pass.Spec (BuildM.instruction c i) s (fun _ t => Stays s t) Error.IsRefusal := by
  unfold BuildM.instruction
  cases haction : i.action? with
  | none => exact Pass.Spec.throw trivial
  | some action => exact perform_spec haction hs h

theorem instructions_spec {is : List Instruction} (hs : s.graph.hasBlock s.block = true)
    (h : ∀ i ∈ is, s.graph.Finds i) :
    Pass.Spec (is.forM (BuildM.instruction c)) s (fun _ t => Stays s t) Error.IsRefusal := by
  refine Pass.Spec.forM (P := fun _ t => Stays s t) ?_ (.refl s)
  intro front i rest hsplit t ht
  exact ht.spec (instruction_spec (ht.hasBlock hs) ((h i (by simp [hsplit])).congr ht.starts_eq))

/-! ## Frames at the start of a block -/

section Entry

variable {E : Error → Prop}

/-! The frame of the entry is set up without fail. -/

theorem pushUndefined_stays (hs : s.graph.hasBlock s.block = true) :
    Pass.Spec BuildM.pushUndefined s (fun _ t => Stays s t) E :=
  .get_bind (.bind (emitWith_stays hs _ _) fun _ _ ht => .modify (ht.trans ⟨rfl, fun _ => rfl, rfl⟩))

theorem pushParam_stays (hs : s.graph.hasBlock s.block = true) (index : Nat) (type : ValueType) :
    Pass.Spec (BuildM.pushParam index type) s (fun _ t => Stays s t) E := by
  refine .bind (emitWith_stays hs _ _) fun id t ht => .modify_bind ?_
  have hpushed := ht.trans (u := { t with frame := { t.frame with locals := t.frame.locals.push id } })
    ⟨rfl, fun _ => rfl, rfl⟩
  split
  · exact (pushUndefined_stays (hpushed.hasBlock hs)).mono (fun _ _ hu => hpushed.trans hu) fun _ he => he
  · exact .pure hpushed

theorem pushUndefineds_stays (hs : s.graph.hasBlock s.block = true) (count : Nat) :
    Pass.Spec (BuildM.pushUndefineds count) s (fun _ t => Stays s t) E := by
  induction count generalizing s with
  | zero => exact .pure (.refl s)
  | succ count ih =>
    refine .bind (pushUndefined_stays hs) fun _ t ht => ?_
    exact (ih (ht.hasBlock hs)).mono (fun _ _ hu => ht.trans hu) fun _ he => he

theorem enterEntry_stays (hs : s.graph.hasBlock s.block = true) (c : Context) (frameSize : Nat) :
    Pass.Spec (BuildM.enterEntry c frameSize) s (fun _ t => Stays s t) E := by
  refine .bind (Q := fun _ t => Stays s t) (.forM (P := fun _ t => Stays s t) ?_ (.refl s)) fun _ t ht => .get_bind ?_
  · intro _ formal _ _ t ht
    exact (pushParam_stays (ht.hasBlock hs) _ _).mono (fun _ _ hu => ht.trans hu) fun _ he => he
  · exact (pushUndefineds_stays (ht.hasBlock hs) _).mono (fun _ _ hu => ht.trans hu) fun _ he => he

end Entry

/-- The state has the block under construction and all nodes below a number, under their own numbers. -/
structure HasNodes (n : NodeId) (s : BuildState) : Prop where
  block : s.graph.hasBlock s.block = true
  le_size : n ≤ s.graph.nodes.size
  aliases_eq : s.graph.aliases = ∅

variable {n : NodeId}

theorem exists_mergeType {g : Graph} (haliases : g.aliases = ∅) {ids : List NodeId}
    (h : ∀ id ∈ ids, id < g.nodes.size) : ∃ type, BuildM.mergeType g ids = .ok type := by
  induction ids with
  | nil => exact ⟨.void, rfl⟩
  | cons id ids ih =>
    obtain ⟨node, hnode⟩ : ∃ node, g.node? id = some node :=
      ⟨_, Array.getElem?_eq_getElem (h id List.mem_cons_self)⟩
    have hget : g.getResolved id = .ok node := by
      have hresolve : g.resolve id = id := by
        rw [Graph.resolve, haliases]
        rfl
      rw [Graph.getResolved, hresolve, Graph.getNode, hnode]
    unfold BuildM.mergeType
    rw [hget]
    dsimp only
    split
    · exact ih fun id' hid' => h id' (List.mem_cons_of_mem id hid')
    · exact ⟨_, rfl⟩

theorem makeMerge_spec {slot : Slot} {incoming : List (Option NodeId)} (hs : HasNodes n s)
    (h : ∀ id, some id ∈ incoming → id < n) :
    Pass.Spec (BuildM.makeMerge slot incoming) s (fun _ => HasNodes n) Error.IsRefusal := by
  obtain ⟨type, htype⟩ : ∃ type, BuildM.mergeType s.graph (incoming.filterMap id) = .ok type :=
    exists_mergeType hs.aliases_eq fun id hid => Nat.lt_of_lt_of_le (h id (by simpa using hid)) hs.le_size
  have hemits :=
    (emitWith_stays hs.block type fun me => .merge slot (incoming.map (·.getD me))).of_ok_imp
      (E := Error.IsRefusal) fun id t hemit ht => And.intro hemit ht
  refine Pass.Spec.get_bind (Pass.Spec.lift_bind htype (Pass.Spec.bind hemits fun id t ht => ?_))
  have hgraph := ((After.refl _).emitWith ht.1).2.graph_eq
  refine Pass.Spec.modify_bind (Pass.Spec.pure ⟨ht.2.hasBlock hs.block, ?_, ?_⟩)
  · rw [hgraph, Graph.size_nodes_emitted]
    exact Nat.le_add_right_of_le hs.le_size
  · rw [hgraph, Graph.emitted_eq]
    exact hs.aliases_eq

theorem mergeSlot_spec {isHead : Bool} {sources : List (Option Frame)} {slot : Slot} (hs : HasNodes n s)
    (h : ∀ f, some f ∈ sources → ∀ id ∈ f.ids, id < n) :
    Pass.Spec (BuildM.mergeSlot isHead sources slot) s (fun _ => HasNodes n) Error.IsRefusal := by
  unfold BuildM.mergeSlot
  dsimp only
  split
  · exact Pass.Spec.pure hs
  · refine makeMerge_spec hs fun id hid => ?_
    obtain ⟨source, hsource, hslot⟩ := List.mem_map.1 hid
    obtain ⟨f, rfl, hslot⟩ := Option.bind_eq_some_iff.1 hslot
    exact h f hsource id (Frame.mem_ids_iff.2 ⟨slot, hslot⟩)

theorem mergeSlots_spec {isHead : Bool} {sources : List (Option Frame)} {slots : List Nat} {at' : Nat → Slot}
    (hs : HasNodes n s) (h : ∀ f, some f ∈ sources → ∀ id ∈ f.ids, id < n) :
    Pass.Spec (slots.mapM fun k => BuildM.mergeSlot isHead sources (at' k)) s (fun _ => HasNodes n) Error.IsRefusal :=
  Pass.Spec.mapM (P := fun _ _ => HasNodes n) (fun _ _ _ _ _ _ ht => mergeSlot_spec ht h) hs

/-- A block comes after a predecessor, and after all of them if it heads no loop. -/
structure Follows (g : Graph) (front : List BlockId) (b : BlockId) : Prop where
  one : ∃ p ∈ g.preds b, p ∈ front
  all : g.isHeadAt b = false → ∀ p ∈ g.preds b, p ∈ front

variable {front : List BlockId} {b : BlockId} {frameSize : Nat}

/-- A block that is there is looked up without a change. -/
theorem blockAt_bind {f : Block → BuildM β} {Q : β → BuildState → Prop} {E : Error → Prop} {block : Block}
    (hb : s.graph.block? b = some block) (hf : Pass.Spec (f block) s Q E) :
    Pass.Spec (BuildM.blockAt b >>= f) s Q E := by
  refine Pass.Spec.bind (Q := fun a t => block = a ∧ s = t) (.intro_ok (blockAt_eq_ok.2 ⟨hb, rfl⟩) ⟨rfl, rfl⟩) ?_
  rintro _ _ ⟨rfl, rfl⟩
  exact hf

/-- The frames at the end of blocks are found where those that are built are there. -/
theorem exitOf_eq (hbuilt : ∀ p, s.built.contains p = true ↔ p ∈ front)
    (hhas : ∀ p ∈ front, ∃ block, s.graph.block? p = some block) (p : BlockId) :
    s.exitOf p = .ok (if p ∈ front then some (s.graph.exitOf p) else none) := by
  unfold BuildState.exitOf
  by_cases hp : p ∈ front
  · obtain ⟨block, hblock⟩ := hhas p hp
    rw [if_pos ((hbuilt p).2 hp), if_pos hp, Graph.getBlock_eq_ok.2 hblock, Graph.exitOf, hblock]
    rfl
  · rw [if_neg fun h => hp ((hbuilt p).1 h), if_neg hp]
    rfl

/-- A block that follows its predecessors is entered, if they leave the stack equally deep. -/
theorem enterJoin_spec (hfollows : Follows s.graph front b) (hbuilt : ∀ p, s.built.contains p = true ↔ p ∈ front)
    (hhas : ∀ p ∈ front, ∃ block, s.graph.block? p = some block) (hs : HasNodes n s) (hb : s.graph.hasBlock b = true)
    (hids : ∀ p ∈ front, ∀ id ∈ (s.graph.exitOf p).ids, id < n) :
    Pass.Spec (BuildM.enterJoin frameSize b (s.graph.preds b)) s (fun _ _ => True) Error.IsRefusal := by
  obtain ⟨block, hblock⟩ := Graph.hasBlock_iff.1 hb
  have hisHead : s.graph.isHeadAt b = block.isHead := by rw [Graph.isHeadAt, hblock, Option.map_some, Option.getD_some]
  have hsources : (s.graph.preds b).mapM s.exitOf = .ok (sourcesOf s.graph front (s.graph.preds b)) :=
    mapM_eq_ok_map fun p _ => exitOf_eq hbuilt hhas p
  refine blockAt_bind hblock (Pass.Spec.get_bind (Pass.Spec.lift_bind hsources ?_))
  dsimp only
  rw [← hisHead]
  have hknown : ∀ f, some f ∈ sourcesOf s.graph front (s.graph.preds b) → ∀ id ∈ f.ids, id < n := by
    intro f hf
    obtain ⟨p, -, hp⟩ := List.mem_map.1 hf
    split at hp
    · next hfront =>
      obtain rfl := Option.some.inj hp
      exact hids p hfront
    · cases hp
  split
  · next hmissing =>
    rw [Bool.and_eq_true, Bool.not_eq_true', List.any_eq_true] at hmissing
    obtain ⟨hhead, source, hsource, hnone⟩ := hmissing
    obtain ⟨p, hp, rfl⟩ := List.mem_map.1 hsource
    rw [if_pos (hfollows.all hhead p hp)] at hnone
    cases hnone
  · obtain ⟨p, hp, hfront⟩ := hfollows.one
    have hmem : s.graph.exitOf p ∈ (sourcesOf s.graph front (s.graph.preds b)).filterMap id :=
      List.mem_filterMap.2 ⟨some (s.graph.exitOf p), List.mem_map.2 ⟨p, hp, if_pos hfront⟩, rfl⟩
    obtain ⟨first, hfirst⟩ := Option.isSome_iff_exists.1 (List.isSome_head?.2 (List.ne_nil_of_mem hmem))
    rw [hfirst]
    dsimp only
    split
    · exact Pass.Spec.throw trivial
    · refine Pass.Spec.bind (mergeSlots_spec hs hknown) fun locals t ht => ?_
      exact Pass.Spec.bind (mergeSlots_spec ht hknown) fun stack t' _ => Pass.Spec.modify trivial

theorem enter_spec (hfollows : b ≠ Graph.entry → Follows s.graph front b)
    (hbuilt : ∀ p, s.built.contains p = true ↔ p ∈ front)
    (hhas : ∀ p ∈ front, ∃ block, s.graph.block? p = some block) (hb : s.graph.hasBlock b = true)
    (hsize : n ≤ s.graph.nodes.size) (haliases : s.graph.aliases = ∅)
    (hids : ∀ p ∈ front, ∀ id ∈ (s.graph.exitOf p).ids, id < n) :
    Pass.Spec (BuildM.enter c frameSize b) s (fun _ _ => True) Error.IsRefusal := by
  refine Pass.Spec.modify_bind ?_
  split
  · exact (enterEntry_stays hb c frameSize).mono (fun _ _ _ => trivial) fun _ he => he
  · next hne =>
    replace hfollows := hfollows hne
    have hjoin : Pass.Spec (BuildM.enterJoin frameSize b (s.graph.preds b))
        { s with block := b, frame := Frame.empty } (fun _ _ => True) Error.IsRefusal :=
      enterJoin_spec (s := { s with block := b, frame := Frame.empty })
        hfollows hbuilt hhas ⟨hb, hsize, haliases⟩ hb hids
    obtain ⟨block, hblock⟩ := Graph.hasBlock_iff.1 hb
    refine blockAt_bind hblock ?_
    rw [← Graph.preds_eq hblock]
    obtain ⟨q, hq, hfront⟩ := hfollows.one
    match hpreds : s.graph.preds b with
    | [] => simp [hpreds] at hq
    | [p] =>
      simp only [hpreds, List.mem_singleton] at hq
      subst hq
      have hexit := (exitOf_eq hbuilt hhas q).trans (by rw [if_pos hfront])
      exact Pass.Spec.get_bind (Pass.Spec.lift_bind hexit (Pass.Spec.modify trivial))
    | _ :: _ :: _ =>
      rw [hpreds] at hjoin
      exact hjoin

/-! ## Blocks -/

theorem checkDepths_spec (hb : s.graph.hasBlock b = true) :
    Pass.Spec (BuildM.checkDepths b) s (fun _ t => s = t) Error.IsRefusal := by
  obtain ⟨block, hblock⟩ := Graph.hasBlock_iff.1 hb
  refine blockAt_bind hblock (Pass.Spec.get_bind (Pass.Spec.forM (P := fun _ t => s = t) ?_ rfl))
  rintro front succ rest - _ rfl
  cases s.entryDepth[succ]? with
  | none => exact Pass.Spec.pure rfl
  | some expected =>
    dsimp only
    split
    · exact Pass.Spec.pure rfl
    · exact Pass.Spec.throw trivial

variable {g₀ : Graph} {done : List BlockId} {seg : BlockId → Segment}

theorem Progress.starts_eq (h : Progress c frameSize g₀ done seg s) : s.graph.starts = g₀.starts := by
  rw [h.eq_with_blocks]

theorem Progress.aliases_eq (h : Progress c frameSize g₀ done seg s) : s.graph.aliases = g₀.aliases := by
  rw [h.eq_with_blocks]

/-- The frames that built blocks leave hold nodes that are there. -/
theorem Progress.lt_of_mem_exit (h : Progress c frameSize g₀ done seg s) :
    ∀ p ∈ done, ∀ id ∈ (s.graph.exitOf p).ids, id < s.graph.nodes.size := by
  intro p hp id hid
  rw [h.construction.exitOf_eq hp] at hid
  have hlt := (h.construction.lt_of_mem_ids p hp).2 id hid
  exact Nat.lt_of_lt_of_le hlt (Nat.le_trans (seg p).body_le_stop (h.construction.stop_le p hp))

/-- What is left to do when the instructions of a block are built. -/
theorem closeBlock_spec (hb : s.graph.hasBlock b = true) :
    Pass.Spec (do
      BuildM.checkDepths b
      let s ← get
      let graph ← Pass.lift (s.graph.editBlock b fun block => { block with exit := s.frame })
      set { s with graph, built := s.built.insert b }) s (fun _ _ => True) Error.IsRefusal := by
  refine Pass.Spec.bind (checkDepths_spec hb) ?_
  rintro _ _ rfl
  exact Pass.Spec.get_bind (Pass.Spec.lift_bind (Graph.editBlock_of_hasBlock _ hb) (Pass.Spec.intro_ok rfl trivial))

/-- A block that has been entered is under construction and holds its instructions. -/
theorem Progress.exists_entered (h : Progress c frameSize g₀ done seg s) (hb : g₀.hasBlock b = true) {t : BuildState}
    (hok : BuildM.enter c frameSize b s = .ok () t) :
    t.block = b ∧ ∃ block, t.graph.block? b = some block ∧ block.instructions = g₀.instructionsOf b := by
  obtain ⟨heads, f, -, hafter⟩ := enter_ok h.built_iff h.exists_block hok
  obtain ⟨block, hblock⟩ := Graph.hasBlock_iff.1 ((h.keeps.hasBlock_eq b).trans hb)
  refine ⟨hafter.block_eq, ?_⟩
  rw [hafter.graph_eq, Graph.block?_emitted, if_pos rfl, ← h.keeps.instructionsOf_eq, Graph.instructionsOf_eq hblock]
  change ∃ tblock, (s.graph.block? b).map _ = some tblock ∧ _
  rw [hblock]
  exact ⟨_, rfl, rfl⟩

/-- A block that follows its predecessors in a closed graph is built, unless the method is refused. -/
theorem block_spec (h : Progress c frameSize g₀ done seg s) (hclosed : g₀.Closed) (haliases : g₀.aliases = ∅)
    (hb : g₀.hasBlock b = true) (hfollows : b ≠ Graph.entry → Follows g₀ done b) :
    Pass.Spec (BuildM.block c frameSize b) s (fun _ _ => True) Error.IsRefusal := by
  replace hfollows : b ≠ Graph.entry → Follows s.graph done b := by
    refine fun hb => ⟨?_, ?_⟩
    · rw [h.keeps.preds_eq]
      exact (hfollows hb).one
    · rw [h.keeps.preds_eq, h.isHeadAt_eq]
      exact (hfollows hb).all
  have henter : Pass.Spec (BuildM.enter c frameSize b) s (fun _ t => BuildM.enter c frameSize b s = .ok () t)
      Error.IsRefusal :=
    (enter_spec hfollows h.built_iff h.exists_block ((h.keeps.hasBlock_eq b).trans hb) (Nat.le_refl _)
      (h.aliases_eq.trans haliases) h.lt_of_mem_exit).of_ok_imp fun _ _ hok _ => hok
  refine Pass.Spec.bind henter fun _ t hok => Pass.Spec.modify_bind ?_
  obtain ⟨heads, f, -, hafter⟩ := enter_ok h.built_iff h.exists_block hok
  have hstarts : t.graph.starts = g₀.starts := by
    rw [hafter.graph_eq, Graph.emitted_starts]
    exact h.starts_eq
  obtain ⟨hself, tblock, htblock, hinstr⟩ := h.exists_entered hb hok
  have hhas : t.graph.hasBlock b = true := Graph.hasBlock_iff.2 ⟨tblock, htblock⟩
  have hown : t.graph.hasBlock t.block = true := by rw [hself, hhas]
  have hfinds : ∀ i ∈ tblock.instructions, t.graph.Finds i := by
    intro i hi
    rw [hinstr] at hi
    exact (hclosed b i hi).congr hstarts
  refine blockAt_bind htblock (Pass.Spec.bind (instructions_spec hown hfinds) fun _ u hu => ?_)
  have hhasu : u.graph.hasBlock b = true := by rw [hu.hasBlock_eq, hhas]
  obtain ⟨ublock, hublock⟩ := Graph.hasBlock_iff.1 hhasu
  dsimp only
  split
  · refine blockAt_bind hublock ?_
    split
    · refine Pass.Spec.bind ((mild_emit _ _).discard u (hu.hasBlock hown)) fun _ v hv => ?_
      exact closeBlock_spec (by rw [hv.hasBlock_eq, hhasu])
    · exact closeBlock_spec hhasu
  · exact closeBlock_spec hhasu

/-! ## The whole pass -/

open Destack.Graph (Analyzed)

/-- In an order, a block follows those that its frame comes from. -/
theorem follows_of_compute {rank : BlockId → Nat} (hg : Analyzed g₀ rank) {order front rest : List BlockId}
    (horder : Order.compute g₀ = .ok order) (hsplit : order = front ++ b :: rest) (hb : b ≠ Graph.entry) :
    Follows g₀ front b := by
  obtain ⟨-, hnodup, hmem, hbefore⟩ := Order.compute_spec hg.ranked.rooted horder
  have hfront : ∀ p ∈ g₀.preds b, g₀.isBackEdge p b = false → p ∈ front := by
    intro p hp hback
    have hlt := (hbefore hp hback).idxOf_lt hnodup
    rw [hsplit] at hlt hnodup
    have hb : b ∉ front := fun hin => (List.nodup_append.1 hnodup).2.2 b hin b List.mem_cons_self rfl
    rw [List.idxOf_append_of_notMem hb, List.idxOf_cons_self, Nat.add_zero] at hlt
    by_contra hp
    rw [List.idxOf_append_of_notMem hp] at hlt
    omega
  obtain ⟨p, hp, hback⟩ := Order.exists_pred_not_isBackEdge hg ((hmem b).1 (by simp [hsplit])) hb
  refine ⟨⟨p, hp, hfront p hp hback⟩, fun hhead p hp => hfront p hp ?_⟩
  rw [Graph.isHeadAt] at hhead
  rw [Graph.isBackEdge, hhead, Bool.false_and]

/-- Building fails only by refusing the method, or because the graph is not reducible. -/
theorem blocks_spec {rank : BlockId → Nat} (hg : Analyzed g₀ rank) (hclosed : g₀.Closed) (hfresh : g₀.Fresh)
    (c : Context) (frameSize : Nat) (stats : Statistics) :
    Pass.Spec (BuildM.blocks c frameSize) { graph := g₀, stats } (fun _ _ => True) fun e =>
      e.IsRefusal ∨ ¬ g₀.Reducible ∧ ∃ unreached, 0 < unreached ∧ unreached < g₀.blockCount ∧
        e = .layout (.irreducible unreached g₀.blockCount) := by
  have hvalid := hg.ranked.rooted.validate hfresh.order_eq
  refine Pass.Spec.get_bind (Pass.Spec.lift_bind hvalid (Pass.Spec.get_bind ?_))
  dsimp only
  rcases Order.compute_eq_ok_or hg.ranked.rooted with ⟨order, horder⟩ | ⟨unreached, hpos, hlt, herror⟩
  · obtain ⟨-, hnodup, hmem, -⟩ := Order.compute_spec hg.ranked.rooted horder
    refine Pass.Spec.lift_bind horder (Pass.Spec.bind (Q := fun _ _ => True) ?_ fun _ _ _ => Pass.Spec.modify trivial)
    refine Pass.Spec.mono
      (Pass.Spec.forM (P := fun done (t : BuildState) => ∃ seg, Progress c frameSize g₀ done seg t) ?_
        ⟨_, progress_start hfresh stats⟩) (fun _ _ _ => trivial) (fun _ => Or.inl)
    rintro front b rest hsplit t ⟨seg, hprog⟩
    have hfollows := follows_of_compute hg horder hsplit
    have hhas : g₀.hasBlock b = true := (hmem b).1 (by simp [hsplit])
    refine (block_spec hprog hclosed hfresh.aliases_eq hhas hfollows).of_ok_imp fun _ t' hok _ => ?_
    have hb : b ∉ front := by
      rw [hsplit] at hnodup
      exact fun hin => (List.nodup_append.1 hnodup).2.2 b hin b List.mem_cons_self rfl
    obtain ⟨sg, hstep⟩ := hprog.block hb (by rw [hprog.keeps.hasBlock_eq, hhas]) hok
    exact ⟨_, hstep⟩
  · refine Pass.Spec.lift_bind_error herror (Or.inr ⟨fun hred => ?_, unreached, hpos, hlt, rfl⟩)
    obtain ⟨order, hok⟩ := (Order.exists_compute_iff hg).2 hred
    rw [herror] at hok
    cases hok

end Ssa

end Destack
