import Destack.Proofs.Failures
import Destack.Proofs.Machine.Terminators
import Destack.Proofs.Ssa.Growth

/-!
# The wide prefix

The compiler looks through a wide prefix, whatever opcode stands behind it. Before a form that has a wide one, operands
take two bytes each; before any other opcode they are read as if there were no prefix, so that the opcode itself is the
first of them (`Instruction.LooksThrough`). What leaves the method may then stand in the middle of a block, as the
graph goes by the prefix. A prefix names no targets, so opcodes that lead to a block are refused, and so are those that
the compiler does not know (`Ssa.instruction_refused`).
-/

namespace Destack

namespace Effect

/-- Whether an effect leads to blocks that the operands name. -/
def leads : Effect → Bool
  | .branchZero _ | .branchPair _ | .branchNull _ | .jump | .switch => true
  | _ => false

/-- Operands that are taken from the stack before a target is looked for. -/
def tested : Effect → Nat
  | .branchPair _ => 2
  | .branchZero _ | .branchNull _ | .switch => 1
  | _ => 0

/-- What an effect that has a local slot among its operands does, given that slot and an amount. -/
def onSlot? : Effect → Nat → Int → Option Action
  | .load none, slot, _ => some (.load slot)
  | .store none, slot, _ => some (.store slot)
  | .increment, slot, amount => some (.increment slot amount)
  | _, _, _ => none

theorem onSlot?_eq_some {effect : Effect} {slot : Nat} {amount : Int} {action : Action}
    (h : effect.onSlot? slot amount = some action) :
    effect = .load none ∧ action = .load slot ∨ effect = .store none ∧ action = .store slot ∨
      effect = .increment ∧ action = .increment slot amount := by
  unfold onSlot? at h
  split at h
  · exact Or.inl ⟨rfl, (Option.some.inj h).symm⟩
  · exact Or.inr (Or.inl ⟨rfl, (Option.some.inj h).symm⟩)
  · exact Or.inr (Or.inr ⟨rfl, (Option.some.inj h).symm⟩)
  · cases h

end Effect

namespace Opcode

/-- The forms that have a wide one are those with a local slot among their operands. -/
theorem mem_wideForms_iff {op : Opcode} {effect : Effect} (h : op.effect? = some effect) (slot : Nat) (amount : Int) :
    op ∈ StackCode.wideForms ↔ ∃ action, effect.onSlot? slot amount = some action := by
  have hall : ∀ k : Fin 256, (Opcode.effect? (UInt8.ofFin k)).all (fun e =>
      UInt8.ofFin k ∈ StackCode.wideForms ↔ e = .load none ∨ e = .store none ∨ e = .increment) = true := by
    decide +kernel
  have hop := hall op.toFin
  rw [show UInt8.ofFin op.toFin = op from rfl, h] at hop
  have hiff : op ∈ StackCode.wideForms ↔ effect = .load none ∨ effect = .store none ∨ effect = .increment :=
    of_decide_eq_true hop
  rw [hiff]
  constructor
  · rintro (rfl | rfl | rfl) <;> exact ⟨_, rfl⟩
  · rintro ⟨action, haction⟩
    exact (Effect.onSlot?_eq_some haction).imp And.left (Or.imp And.left And.left)

end Opcode

namespace Instruction

variable {i j : Instruction} {effect : Effect}

/-! ## Operands behind a prefix -/

/-- An instruction whose opcode has an effect has no prefix. -/
theorem isWide_of_effect? (h : j.opcode.effect? = some effect) : j.isWide = false := by
  refine Bool.eq_false_iff.2 fun hw => ?_
  have hnone : j.opcode.effect? = none := by
    rw [isWide_iff.1 hw]
    exact Opcode.effect?_wide
  rw [hnone] at h
  cases h

theorem effectiveOpcode_of_effect? (h : j.opcode.effect? = some effect) : j.effectiveOpcode = j.opcode := by
  rw [effectiveOpcode, isWide_of_effect? h, if_neg Bool.false_ne_true]

/-- A form that has a wide one acts on the slot and the amount in its operands. -/
theorem action?_eq_onSlot? (h : i.effectiveOpcode.effect? = some effect)
    (hform : i.effectiveOpcode ∈ StackCode.wideForms) : i.action? = effect.onSlot? i.localIndex i.increment := by
  obtain ⟨action, haction⟩ := (Opcode.mem_wideForms_iff h i.localIndex i.increment).1 hform
  rw [action?, h, Option.map_some, haction, Option.some.injEq]
  rcases Effect.onSlot?_eq_some haction with ⟨rfl, rfl⟩ | ⟨rfl, rfl⟩ | ⟨rfl, rfl⟩ <;> rfl

/-- An effect without a slot among its operands reads them in the same place with and without a prefix. -/
theorem act_congr (hoperands : j.operands = i.operands) (h : effect.onSlot? 0 0 = none) :
    j.act effect = i.act effect := by
  have hbyte : ∀ pos, j.byteAt pos = i.byteAt pos := by
    intro pos
    rw [byteAt, byteAt, hoperands]
  have hhalf : ∀ pos, j.halfAt pos = i.halfAt pos := by
    intro pos
    rw [halfAt, halfAt, hbyte, hbyte]
  cases effect with
  | load slot | store slot =>
    cases slot with
    | none => cases h
    | some slot => rfl
  | increment => cases h
  | pushByte => exact congrArg (fun b : Nat => Action.pushInt (Int.bmod b 256)) (hbyte 0)
  | pushShort => exact congrArg (fun h : Nat => Action.pushInt (Int.bmod h 65536)) (hhalf 0)
  | pushConstant => rw [act, act, hbyte]
  | pushConstantWide | getStatic | putStatic | call => rw [act, act, hhalf]
  | _ => rfl

end Instruction

/-- An action of two instructions is the same step of the construction, errors included. -/
def Ssa.PerformedAlike (i j : Instruction) (action : Action) : Prop :=
  ∀ c : Ssa.Context, Ssa.BuildM.perform c i action = Ssa.BuildM.perform c j action

namespace Instruction

/-- An instruction with a wide prefix acts as the opcode behind the prefix, which leads to no block. -/
structure LooksThrough (i : Instruction) (effect : Effect) : Prop where
  effect?_eq : i.effectiveOpcode.effect? = some effect
  leads_eq : effect.leads = false
  /-- A form that has a wide one does to the slot in the next two bytes, by the amount in the two after them, what it
  does otherwise to the slot in one byte, by the amount in one byte. -/
  widened : i.effectiveOpcode ∈ StackCode.wideForms →
    i.action? = effect.onSlot? (i.halfAt 1) (i.signedHalfAt 3) ∧
      ∀ j : Instruction, j.opcode = i.effectiveOpcode →
        j.action? = effect.onSlot? (j.byteAt 0) (j.signedByteAt 1) ∧
        (j.address = i.address → ∀ slot amount action, effect.onSlot? slot amount = some action →
          Ssa.PerformedAlike i j action)
  /-- Any other opcode has the operands of the prefix for its own. -/
  misread : i.effectiveOpcode ∉ StackCode.wideForms →
    ∀ j : Instruction, j.opcode = i.effectiveOpcode → j.operands = i.operands → j.action? = i.action?

/-- A wide prefix before an opcode that leads to a block or that the compiler does not know. -/
def WideRefused (i : Instruction) : Prop :=
  i.isWide = true ∧ ∀ effect ∈ i.effectiveOpcode.effect?, effect.leads = true

instance (i : Instruction) : Decidable i.WideRefused :=
  inferInstanceAs (Decidable (_ ∧ _))

/-- The error of a prefix that is refused while the operand stack has a depth: operands are taken first. -/
def wideRefusal (i : Instruction) (depth : Nat) : Error :=
  let effect := i.effectiveOpcode.effect?
  if depth < (effect.map Effect.tested).getD 0 then .stackUnderflow i.address
  else .unsupported (if effect = some .switch then i.opcode else i.effectiveOpcode) i.address

end Instruction

namespace Ssa

section Translation

variable {c : Context} {at? : Int → Option BlockId} {i j : Instruction} {is : List Instruction} {n : NodeId}
  {action : Action} {effect : Effect} {f f' : Frame} {ns : List Cell}

/-- What is done to a slot does not depend on where the instruction has it from. -/
theorem performedAlike_of_onSlot? {slot : Nat} {amount : Int} (h : effect.onSlot? slot amount = some action)
    (haddress : j.address = i.address) (hopcode : i.effectiveOpcode = j.effectiveOpcode) :
    PerformedAlike i j action := by
  intro c
  rcases Effect.onSlot?_eq_some h with ⟨-, rfl⟩ | ⟨-, rfl⟩ | ⟨-, rfl⟩
  · simp only [BuildM.perform, BuildM.readLocal, haddress]
  · simp only [BuildM.perform, BuildM.pop, BuildM.writeLocal, haddress]
  · simp only [BuildM.perform, BuildM.readLocal, BuildM.writeLocal, haddress, hopcode]

/-- What was translated behind a prefix leads to no block. -/
theorem Translates.leads_eq_false (h : Translates c at? i n (i.act effect) f ns f') (hw : i.isWide = true) :
    effect.leads = false := by
  have hnone : ∀ {target : Int} {rest : List Int}, i.jumpTargets ≠ target :: rest := by
    simp [Instruction.jumpTargets_of_isWide hw]
  cases effect with
  | branchZero => cases h with | branchZero hjump => exact absurd hjump hnone
  | branchPair => cases h with | branchPair hjump => exact absurd hjump hnone
  | branchNull => cases h with | branchNull hjump => exact absurd hjump hnone
  | jump => cases h with | jump hjump => exact absurd hjump hnone
  | switch => cases h with | switch htable => cases (Instruction.switchTable?_of_isWide hw).symm.trans htable
  | _ => rfl

/-- Each of the instructions was translated. -/
theorem TranslatesAll.exists_translates (h : TranslatesAll c at? n is f ns f') (hi : i ∈ is) :
    ∃ action n₁ f₁ ns₁ f₂, i.action? = some action ∧ Translates c at? i n₁ action f₁ ns₁ f₂ := by
  induction h with
  | nil => cases hi
  | cons haction htrans _ ih =>
    rcases List.mem_cons.1 hi with rfl | hi
    · exact ⟨_, _, _, _, _, haction, htrans⟩
    · exact ih hi

/-- The compiler looks through each prefix that it translates. -/
theorem Translates.looksThrough (h : Translates c at? i n action f ns f') (haction : i.action? = some action)
    (hw : i.isWide = true) : ∃ effect, i.LooksThrough effect := by
  obtain ⟨effect, heffect, rfl⟩ := Option.map_eq_some_iff.1 haction
  refine ⟨effect, heffect, h.leads_eq_false hw, fun hform => ⟨?_, fun j hj => ?_⟩, fun hform j hj hoperands => ?_⟩
  · rw [Instruction.action?_eq_onSlot? heffect hform, Instruction.localIndex, Instruction.increment, hw, if_pos rfl,
      if_pos rfl]
  · have hj' := Instruction.effectiveOpcode_of_effect? (hj ▸ heffect)
    have hopcode : i.effectiveOpcode = j.effectiveOpcode := hj.symm.trans hj'.symm
    refine ⟨?_, fun haddress slot amount action hslot => performedAlike_of_onSlot? hslot haddress hopcode⟩
    rw [hopcode] at heffect hform
    rw [Instruction.action?_eq_onSlot? heffect hform, Instruction.localIndex, Instruction.increment,
      Instruction.isWide_of_effect? (hj' ▸ heffect), if_neg Bool.false_ne_true, if_neg Bool.false_ne_true]
  · have hnone : effect.onSlot? 0 0 = none := by
      refine Option.eq_none_iff_forall_ne_some.2 fun slotted hslot => hform ?_
      exact (Opcode.mem_wideForms_iff heffect 0 0).2 ⟨slotted, hslot⟩
    rw [haction, ← Instruction.act_congr hoperands hnone, Instruction.action?,
      Instruction.effectiveOpcode_of_effect? (hj ▸ heffect), hj, heffect, Option.map_some]

end Translation

/-! ## Blocks that hold a translation -/

/-- The nodes of a block hold the translation of its instructions, one after the other. -/
def Translated (c : Context) (g : Graph) (b : BlockId) : Prop :=
  ∃ n f body f', TranslatesAll c g.blockAtTarget? n (g.instructionsOf b) f body f' ∧
    ∀ k cell, body[k]? = some cell → n + k ∈ nodesOf g b ∧ g.node? (n + k) = some (cell.nodeIn b)

section Nodes

variable {c : Context} {frameSize : Nat} {g g' : Graph} {seg : BlockId → Segment} {b : BlockId}

/-- Eliding merges takes nothing away from the translation. -/
theorem Elided.translated (he : Elided g g') (h : Form c frameSize g seg) (hb : g.hasBlock b = true) :
    Translated c g' b := by
  have hstarts : g'.blockAtTarget? = g.blockAtTarget? :=
    funext (Graph.blockAtTarget?_congr ((congrArg Graph.starts he.rest_eq).trans rfl))
  refine ⟨(seg b).first + (seg b).heads.length, (seg b).enter, (seg b).body, (seg b).exit, ?_, fun k cell hcell => ?_⟩
  · rw [hstarts, he.keeps_text.instructionsOf_eq]
    exact h.body hb
  · have hrest : ((seg b).body ++ (seg b).tail)[k]? = some cell := by
      rw [List.getElem?_append_left (List.getElem?_eq_some_iff.1 hcell).1, hcell]
    obtain ⟨hlisted, hnode, hmerge⟩ := h.rest_facts hb hrest
    refine ⟨he.mem_nodesOf_iff.2 ⟨hlisted, he.isAliased_eq_false hnode hmerge⟩, ?_⟩
    rw [he.node?_eq, hnode]

theorem Translated.congr (h : Translated c g b) (hs : Graph.SameNodes g g') : Translated c g' b := by
  obtain ⟨n, f, body, f', hbody, hnodes⟩ := h
  have hstarts : g'.blockAtTarget? = g.blockAtTarget? :=
    funext (Graph.blockAtTarget?_congr ((congrArg Graph.starts hs.eq_with_code).trans rfl))
  refine ⟨n, f, body, f', ?_, fun k cell hcell => ?_⟩
  · rw [hstarts, hs.textOf.instructionsOf_eq]
    exact hbody
  · rw [hs.nodesOf_eq, hs.node?_eq]
    exact hnodes k cell hcell

end Nodes

/-! ## Refusals -/

section Refusals

variable {c : Context} {i : Instruction} {s : BuildState} {β : Type} {Q : β → BuildState → Prop} {E : Error → Prop}

theorem pop_bind {f : NodeId → BuildM β} (hnil : s.frame.depth = 0 → E (.stackUnderflow i.address))
    (hcons : ∀ id t, s.frame.depth = t.frame.depth + 1 → Stays s t → Pass.Spec (f id) t Q E) :
    Pass.Spec (BuildM.pop i >>= f) s Q E := by
  refine Pass.Spec.bind (Q := fun _ t => s.frame.depth = t.frame.depth + 1 ∧ Stays s t) (Pass.Spec.get_bind ?_)
    fun id t ht => hcons id t ht.1 ht.2
  dsimp only
  cases hstack : s.frame.stack with
  | nil => exact Pass.Spec.throw (hnil (by rw [Frame.depth, hstack]; rfl))
  | cons id rest =>
    refine Pass.Spec.modify_bind (Pass.Spec.pure ⟨?_, rfl, fun _ => rfl, rfl⟩)
    rw [Frame.depth, hstack]
    rfl

theorem emit_bind {type : ValueType} {op : Op} {f : NodeId → BuildM β} (hs : s.graph.hasBlock s.block = true)
    (h : ∀ id t, Pass.Spec (f id) t Q E) : Pass.Spec (BuildM.emit type op >>= f) s Q E :=
  Pass.Spec.bind (Q := fun _ _ => True) (.intro_ok (After.emitWith_eq_ok.2 ⟨hs, rfl, rfl⟩) trivial) fun id t _ => h id t

/-- There is no target to be had from a prefix. -/
theorem jumpTarget_bind_error {f : Int → BuildM β} (hw : i.isWide = true)
    (h : E (.unsupported i.effectiveOpcode i.address)) : Pass.Spec (BuildM.jumpTarget i >>= f) s Q E := by
  unfold BuildM.jumpTarget
  rw [Instruction.jumpTargets_of_isWide hw]
  exact Pass.Spec.stop_bind (Pass.Spec.throw h)

/-- A refused prefix stops the construction of a block with its error, whatever the frame holds. -/
theorem instruction_refused (hs : s.graph.hasBlock s.block = true) (h : i.WideRefused) :
    Pass.Spec (BuildM.instruction c i) s (fun _ _ => False) (· = i.wideRefusal s.frame.depth) := by
  obtain ⟨hw, hleads⟩ := h
  unfold BuildM.instruction Instruction.action? Instruction.wideRefusal
  cases heffect : i.effectiveOpcode.effect? with
  | none => exact Pass.Spec.throw (by simp)
  | some effect =>
    have hleads : effect.leads = true := hleads effect heffect
    cases effect with
    | jump => exact jumpTarget_bind_error hw (by simp [Effect.tested])
    | branchZero condition | branchNull condition =>
      refine pop_bind (by simp +contextual [Effect.tested]) fun lhs t hdepth ht => ?_
      exact emit_bind (ht.hasBlock hs) fun rhs t' => jumpTarget_bind_error hw (by simp [Effect.tested, hdepth])
    | branchPair condition =>
      refine pop_bind (by simp +contextual [Effect.tested]) fun rhs t hdepth _ => ?_
      refine pop_bind (by simp +contextual [Effect.tested, hdepth]) fun lhs t' hdepth' _ => ?_
      exact jumpTarget_bind_error hw (by simp [Effect.tested, hdepth, hdepth'])
    | switch =>
      refine pop_bind (by simp +contextual [Effect.tested]) fun value t hdepth _ => ?_
      rw [Instruction.switchTable?_of_isWide hw]
      exact Pass.Spec.throw (by simp [Effect.tested, hdepth])
    | _ => cases hleads

end Refusals

/-- The construction of nodes as far as an instruction: the blocks ahead of its block, and the instructions ahead of it
in the block. -/
def BuildM.upTo (c : Context) (frameSize : Nat) (front : List BlockId) (b : BlockId) (ahead : List Instruction) :
    BuildM Unit := do
  front.forM (block c frameSize)
  enter c frameSize b
  modify fun s => { s with entryDepth := s.entryDepth.insert b s.frame.depth }
  ahead.forM (instruction c)

section Passes

variable {c : Context} {frameSize : Nat} {g : Graph} {front rest : List BlockId} {b : BlockId}
  {ahead behind : List Instruction} {i : Instruction} {stats : Statistics} {t : BuildState}

/-- The construction of nodes ends at a refused instruction that it comes to. -/
theorem blocks_refused {rank : BlockId → Nat} (hg : Graph.Analyzed g rank) (hfresh : g.Fresh)
    (horder : Order.compute g = .ok (front ++ b :: rest)) (his : g.instructionsOf b = ahead ++ i :: behind)
    (hrun : BuildM.upTo c frameSize front b ahead { graph := g, stats } = .ok () t) (h : i.WideRefused) :
    Pass.Spec (BuildM.blocks c frameSize) { graph := g, stats } (fun _ _ => False)
      (· = i.wideRefusal t.frame.depth) := by
  obtain ⟨_, t₁, hfront, hrun⟩ := Pass.bind_eq_ok.1 hrun
  obtain ⟨_, t₂, henter, hrun⟩ := Pass.bind_eq_ok.1 hrun
  obtain ⟨_, _, hmod, hahead⟩ := Pass.bind_eq_ok.1 hrun
  obtain rfl := Pass.modify_eq_ok.1 hmod
  obtain ⟨-, hnodup, hmem, -⟩ := Order.compute_spec hg.ranked.rooted horder
  obtain ⟨seg, hprog⟩ := (progress_start hfresh stats).forM_block (List.nodup_append.1 hnodup).1
    (fun p hp => (hmem p).1 (List.mem_append_left _ hp)) hfront
  have hvalid := hg.ranked.rooted.validate hfresh.order_eq
  refine Pass.Spec.get_bind (Pass.Spec.lift_bind hvalid (Pass.Spec.get_bind (Pass.Spec.lift_bind horder ?_)))
  refine Pass.Spec.stop_bind (Pass.Spec.forM_stop hfront ?_)
  -- In the block the pass gets as far as the instruction.
  refine Pass.Spec.bind (Q := fun _ r => r = t₂) (Pass.Spec.intro_ok henter rfl) fun _ r heq => ?_
  subst heq
  obtain ⟨hself, block, hblock, hinstr⟩ := hprog.exists_entered ((hmem b).1 (by simp)) henter
  refine Pass.Spec.modify_bind (blockAt_bind hblock ?_)
  dsimp only
  rw [hinstr, his]
  have hgrown : Grows 0 _ t := (Pass.Leads.forM ahead fun i _ => leads_instruction c i).of_ok hahead
  have hown : t.graph.hasBlock t.block = true := by
    obtain ⟨cells, hgraph, -, hsame, -⟩ := hgrown
    rw [hgraph, hsame, (keeps_outline_emitted _ _ _).hasBlock_eq]
    change r.graph.hasBlock r.block = true
    rw [hself]
    exact Graph.hasBlock_iff.2 ⟨block, hblock⟩
  exact Pass.Spec.stop_bind (Pass.Spec.forM_stop hahead (instruction_refused hown h))

end Passes

end Ssa

/-! ## Compilations -/

open Ssa (Translated BuildM)

section Compilations

variable {table : OperandTable} {pool : ConstantPool} {m : Method} {labelPrefix : String} {c : Compiled}
  {s s' : Statistics} {b : BlockId} {i : Instruction}

theorem OperandTable.standard_wide : OperandTable.standard Opcode.wide = some .dynamic := by decide +kernel

/-- A wide prefix that is measured has an opcode and two bytes behind it, and an increment has two more. -/
theorem Instruction.size_of_isWide {bytes : List UInt8} {code : List Instruction}
    (h : Instruction.decode table bytes = .ok code) (htable : table Opcode.wide = some .dynamic) (hi : i ∈ code)
    (hw : i.isWide = true) : i.operands.size = if i.effectiveOpcode = Opcode.iinc then 5 else 3 := by
  have hop : i.opcode = Opcode.wide := Instruction.isWide_iff.1 hw
  have hmeasures : i.MeasuresItself := by
    have hfits : i.Fits table := (Instruction.decode_eq_ok_iff.1 h).1.2 i hi
    unfold Instruction.Fits at hfits
    rwa [hop, htable] at hfits
  cases hmeasures with
  | tableswitch hswitch => exact absurd (hop.symm.trans hswitch) (by decide)
  | lookupswitch hswitch => exact absurd (hop.symm.trans hswitch) (by decide)
  | wide _ hsize => exact hsize

/-- The text of the blocks that control reaches stays as it is laid out. -/
theorem instructionsOf_compiled {st : Stages} (hst : st.Succeed table pool m labelPrefix c)
    (hb : st.laid.Reaches b) : c.graph.instructionsOf b = st.laid.instructionsOf b := by
  obtain ⟨hrooted, horder⟩ := Graph.rooted_ofInstructions hst.layout
  obtain ⟨flow, g, rank, hanalyze, -, hhas, -⟩ := Graph.analyze_rooted hrooted horder
  obtain ⟨rfl, rfl⟩ := Prod.mk.inj (Except.ok.inj (hst.analyze.symm.trans hanalyze))
  obtain ⟨piece, fresh, s₀, hlast⟩ := Machine.exists_lastStage hst
  rw [hst.graph_eq, hlast.finished.nodes.textOf.instructionsOf_eq, (Ssa.keeps_text_cleaned hst).instructionsOf_eq]
  exact Graph.instructionsOf_analyze hst.analyze ((hhas b).2 hb)

/-- In compiled code each block holds the translation of its instructions. -/
theorem compiled_translated {st : Stages} (hst : st.Succeed table pool m labelPrefix c) :
    ∃ type, MethodType.ofDescriptor m.descriptor = .ok type ∧
      ∀ b, c.graph.hasBlock b = true → Translated ⟨pool, m.isStatic, type⟩ c.graph b ∧
        ∀ i ∈ c.graph.instructionsOf b, i.unmarked ∈ st.code := by
  obtain ⟨type, addr, seg, htype, hprepared, helided⟩ := Ssa.exists_elided hst
  obtain ⟨piece, fresh, s₀, hlast⟩ := Machine.exists_lastStage hst
  have hsame := hlast.finished.nodes
  rw [hst.graph_eq]
  refine ⟨type, htype, fun b hb => ?_⟩
  have hb' : (Ssa.patched st.built.graph).hasBlock b = true := by
    rw [← helided.keeps_text.hasBlock_eq, ← hsame.hasBlock_eq, hb]
  refine ⟨(helided.translated hprepared.form hb').congr hsame, fun i hi => ?_⟩
  rw [hsame.textOf.instructionsOf_eq, helided.keeps_text.instructionsOf_eq] at hi
  exact hprepared.laid.unmarked_mem hi

/-- The compiler looks through the prefixes in compiled code. -/
theorem compiled_looksThrough (h : compile .standard pool m labelPrefix s = .ok c s')
    (hi : i ∈ c.graph.instructionsOf b) (hw : i.isWide = true) :
    i.operands.size = (if i.effectiveOpcode = Opcode.iinc then 5 else 3) ∧ (∃ effect, i.LooksThrough effect) ∧
      ∃ type, MethodType.ofDescriptor m.descriptor = .ok type ∧ Translated ⟨pool, m.isStatic, type⟩ c.graph b := by
  obtain ⟨st, hst⟩ := compile_eq_ok h
  obtain ⟨type, htype, hblocks⟩ := compiled_translated hst
  obtain ⟨htranslated, hcode⟩ := hblocks b (Graph.hasBlock_of_mem_instructionsOf hi)
  obtain ⟨n, f, body, f', hbody, -⟩ := id htranslated
  obtain ⟨action, _, _, _, _, haction, htranslates⟩ := hbody.exists_translates hi
  have hsize := Instruction.size_of_isWide hst.decode OperandTable.standard_wide (hcode i hi) hw
  exact ⟨hsize, htranslates.looksThrough haction hw, type, htype, htranslated⟩

/-- The instruction at a place in a block, with the depth of the operand stack when the construction of nodes comes
to it. -/
def comesTo? (table : OperandTable) (pool : ConstantPool) (m : Method) (s : Statistics) (b : BlockId) (k : Nat) :
    Option (Instruction × Nat) := do
  let code ← (Instruction.decode table m.code).toOption
  let laid ← (Graph.ofInstructions code).toOption
  let (flow, g) ← laid.analyze.toOption
  let type ← (MethodType.ofDescriptor m.descriptor).toOption
  let order ← (Ssa.Order.compute g).toOption
  let i ← (g.instructionsOf b)[k]?
  match BuildM.upTo ⟨pool, m.isStatic, type⟩ (Ssa.frameSize m type) (order.take (order.idxOf b)) b
    ((g.instructionsOf b).take k) { graph := g, stats := s.laidOut laid flow } with
  | .ok _ t => some (i, t.frame.depth)
  | .error .. => none

theorem take_append_cons_drop {α : Type} {xs : List α} {x : α} {k : Nat} (h : xs[k]? = some x) :
    xs = xs.take k ++ x :: xs.drop (k + 1) := by
  obtain ⟨hk, rfl⟩ := List.getElem?_eq_some_iff.1 h
  rw [List.getElem_cons_drop, List.take_append_drop]

/-- What the construction has gone through when it comes to an instruction. -/
theorem comesTo?_eq_some {k d : Nat} (h : comesTo? table pool m s b k = some (i, d)) :
    ∃ code laid flow g type order t, Instruction.decode table m.code = .ok code ∧
      Graph.ofInstructions code = .ok laid ∧ laid.analyze = .ok (flow, g) ∧
      MethodType.ofDescriptor m.descriptor = .ok type ∧ Ssa.Order.compute g = .ok order ∧
      (g.instructionsOf b)[k]? = some i ∧ t.frame.depth = d ∧
      BuildM.upTo ⟨pool, m.isStatic, type⟩ (Ssa.frameSize m type) (order.take (order.idxOf b)) b
        ((g.instructionsOf b).take k) { graph := g, stats := s.laidOut laid flow } = .ok () t := by
  simp only [comesTo?, Option.bind_eq_bind, Option.bind_eq_some_iff, toOption_eq_some] at h
  obtain ⟨code, hdecode, laid, hlayout, ⟨flow, g⟩, hflow, type, htype, order, horder, j, hj, h⟩ := h
  split at h
  · next t hrun =>
    obtain ⟨rfl, rfl⟩ := Prod.mk.inj (Option.some.inj h)
    exact ⟨code, laid, flow, g, type, order, t, hdecode, hlayout, hflow, htype, horder, hj, rfl, hrun⟩
  · cases h

/-- A compilation that comes to a refused prefix fails with its error. -/
theorem compile_refused {k d : Nat} (h : comesTo? table pool m s b k = some (i, d)) (hi : i.WideRefused) :
    ∃ s', compile table pool m labelPrefix s = .error (i.wideRefusal d) s' := by
  obtain ⟨code, laid, flow, g, type, order, t, hdecode, hlayout, hflow, htype, horder, hplace, rfl, hrun⟩ :=
    comesTo?_eq_some h
  obtain ⟨_, _, rank, hflow', hanalyzed, -, hfresh, -⟩ := analyze_decoded hdecode hlayout
  obtain ⟨rfl, rfl⟩ := Prod.mk.inj (Except.ok.inj (hflow.symm.trans hflow'))
  obtain ⟨-, -, hmem, -⟩ := Ssa.Order.compute_spec hanalyzed.ranked.rooted horder
  have hb : b ∈ order := (hmem b).2 (Graph.hasBlock_of_mem_instructionsOf (List.mem_of_getElem? hplace))
  rw [take_append_cons_drop (show order[order.idxOf b]? = some b by simp [hb])] at horder
  have hblocks := Ssa.blocks_refused hanalyzed hfresh horder (take_append_cons_drop hplace) hrun hi
  have hspec : Pass.Spec (compile table pool m labelPrefix) s (fun _ _ => False) (· = i.wideRefusal t.frame.depth) := by
    refine Pass.Spec.lift_bind hdecode (Pass.Spec.lift_bind hlayout (Pass.Spec.modify_bind ?_))
    refine Pass.Spec.lift_bind hflow (Pass.Spec.modify_bind (Pass.Spec.stop_bind (Pass.Spec.focus ?_)))
    exact Pass.Spec.stop_bind (Pass.Spec.lift_bind htype (Pass.Spec.discard (Pass.Spec.focus hblocks)))
  obtain ⟨e, s', herror, he⟩ := hspec.exists_error
  rw [he] at herror
  exact ⟨s', herror⟩

theorem Instruction.WideRefused.not_looksThrough {effect : Effect} (h : i.WideRefused) : ¬ i.LooksThrough effect := by
  intro hlooks
  have hleads := h.2 effect hlooks.effect?_eq
  rw [hlooks.leads_eq] at hleads
  cases hleads

end Compilations

/-- The compiler looks through the wide prefix. In compiled code a prefix stands before opcodes that the compiler knows
and that lead to no block: the forms that have a wide one are translated like those without a prefix, for a slot and an
amount of two bytes, and all others have the operands of the prefix for their own. Before any other opcode, in a block
that control reaches, a prefix makes the compilation fail, and with the error of that prefix if the construction of
nodes comes to it. -/
theorem wide_prefix_is_looked_through (pool : ConstantPool) (m : Method) (labelPrefix : String) (s : Statistics) :
    (∀ c s', compile .standard pool m labelPrefix s = .ok c s' → ∀ b, ∀ i ∈ c.graph.instructionsOf b,
      i.isWide = true → i.operands.size = (if i.effectiveOpcode = Opcode.iinc then 5 else 3) ∧
        (∃ effect, i.LooksThrough effect) ∧
        ∃ type, MethodType.ofDescriptor m.descriptor = .ok type ∧
          Translated ⟨pool, m.isStatic, type⟩ c.graph b) ∧
    (∀ code laid b, Instruction.decode .standard m.code = .ok code → Graph.ofInstructions code = .ok laid →
      laid.Reaches b → ∀ i ∈ laid.instructionsOf b, i.WideRefused →
        ∃ e s', compile .standard pool m labelPrefix s = .error e s') ∧
    ∀ b k i d, comesTo? .standard pool m s b k = some (i, d) → i.WideRefused →
      ∃ s', compile .standard pool m labelPrefix s = .error (i.wideRefusal d) s' := by
  refine ⟨fun c s' h b i hi hw => compiled_looksThrough h hi hw, ?_, ?_⟩
  · intro code laid b hdecode hlayout hb i hi hrefused
    cases hcompile : compile .standard pool m labelPrefix s with
    | error e s' => exact ⟨e, s', rfl⟩
    | ok c s' =>
      obtain ⟨st, hst⟩ := compile_eq_ok hcompile
      obtain rfl := Except.ok.inj (hst.decode.symm.trans hdecode)
      obtain rfl := Except.ok.inj (hst.layout.symm.trans hlayout)
      rw [← instructionsOf_compiled hst hb] at hi
      obtain ⟨-, ⟨effect, hlooks⟩, -⟩ := compiled_looksThrough hcompile hi hrefused.1
      exact absurd hlooks hrefused.not_looksThrough
  · exact fun b k i d hcomes hrefused => compile_refused hcomes hrefused

/-- A wide prefix before a branch, with one operand on the stack. -/
def wideBranch : Method where
  owner := "Wide"
  name := "branch"
  descriptor := "(I)V"
  isStatic := true
  maxLocals := 1
  code := [
    0x1a,                          --  0  load slot 0
    0xc4, 0x99, 0x00, 0x04,        --  1  wide, on to 5 if it is zero
    0xb1]                          --  5  return

theorem comesTo?_wideBranch :
    comesTo? .standard .empty wideBranch {} 0 1 = some (⟨1, 0xc4, #[0x99, 0x00, 0x04], false⟩, 1) := by
  simp only [comesTo?, Graph.ofInstructions, Layout.partition_eq]
  decide +kernel

/-- The increment of `countDown` is wide, and the branch of `wideBranch` is refused with its opcode. -/
theorem countDown_and_wideBranch_looked_through :
    (∃ (c : Compiled) (s : Statistics), compile .standard .empty Machine.countDown "Count_down" {} = .ok c s ∧
      ∃ i ∈ c.graph.instructionsOf 1, i.isWide = true ∧ i.effectiveOpcode ∈ StackCode.wideForms ∧
        i.operands.size = (if i.effectiveOpcode = Opcode.iinc then 5 else 3) ∧ (∃ effect, i.LooksThrough effect) ∧
        ∃ type, MethodType.ofDescriptor Machine.countDown.descriptor = .ok type ∧
          Translated ⟨.empty, true, type⟩ c.graph 1) ∧
    (∃ code laid, Instruction.decode .standard wideBranch.code = .ok code ∧ Graph.ofInstructions code = .ok laid ∧
      laid.Reaches Graph.entry ∧ (∃ i ∈ laid.instructionsOf Graph.entry, i.WideRefused) ∧
      ∃ e s', compile .standard .empty wideBranch "Wide_branch" {} = .error e s') ∧
    ∃ s', compile .standard .empty wideBranch "Wide_branch" {} = .error (.unsupported 0x99 1) s' := by
  have hcomes := comesTo?_wideBranch
  have hrefused : Instruction.WideRefused ⟨1, 0xc4, #[0x99, 0x00, 0x04], false⟩ := by decide +kernel
  refine ⟨?_, ?_, ?_⟩
  · obtain ⟨c, s, hcompile, hp⟩ := exists_of_compilesWith Machine.compilesWith_countDown
    obtain ⟨hids, hany, hwide⟩ := of_decide_eq_true hp
    obtain ⟨i, hi, hw⟩ := List.any_eq_true.1 hany
    have hfits := hwide 1 (by simp [hids]) i hi hw
    exact ⟨c, s, hcompile, i, hi, hw, hfits,
      (wide_prefix_is_looked_through .empty Machine.countDown "Count_down" {}).1 c s hcompile 1 i hi hw⟩
  · obtain ⟨code, laid, flow, g, -, -, -, hdecode, hlayout, hflow, -, -, hplace, -, -⟩ := comesTo?_eq_some hcomes
    have hi := List.mem_of_getElem? hplace
    rw [Graph.instructionsOf_analyze hflow (Graph.hasBlock_of_mem_instructionsOf hi)] at hi
    have hreach : laid.Reaches Graph.entry := ⟨_, .start⟩
    exact ⟨code, laid, hdecode, hlayout, hreach, ⟨_, hi, hrefused⟩,
      (wide_prefix_is_looked_through .empty wideBranch "Wide_branch" {}).2.1 code laid Graph.entry hdecode hlayout
        hreach _ hi hrefused⟩
  · have herror : Instruction.wideRefusal ⟨1, 0xc4, #[0x99, 0x00, 0x04], false⟩ 1 = .unsupported 0x99 1 := by
      decide +kernel
    rw [← herror]
    exact (wide_prefix_is_looked_through .empty wideBranch "Wide_branch" {}).2.2 0 1 _ 1 hcomes hrefused

/-- A wide push and a wide return ahead of a return. -/
def wideReturn : Method where
  owner := "Wide"
  name := "return"
  descriptor := "()I"
  isStatic := true
  maxLocals := 0
  code := [
    0xc4, 0x10, 0x00, 0x00,        --  0  wide, push a byte
    0xc4, 0xac, 0x00, 0x00,        --  4  wide, return it
    0x03, 0xac]                    --  8  return 0

theorem compilesWith_wideReturn : compilesWith .standard .empty wideReturn "Wide_return" (fun c =>
    decide (c.graph.blockIds = [0] ∧
      (c.graph.instructionsOf 0).map (fun i => (i.isWide, i.effectiveOpcode)) =
        [(true, 0x10), (true, 0xac), (false, 0x03), (false, 0xac)] ∧
      (c.graph.codeOf 0).map (fun i => i.op) = [.loadConst 16, .move, .ret, .loadConst 0, .move, .ret])) = true := by
  simp only [compilesWith, compile, Graph.ofInstructions, Layout.partition_eq]
  decide +kernel

/-- The push of `wideReturn` takes the byte of its own opcode for the operand, and its first return stands in the middle
of the block. -/
theorem wideReturn_compiles :
    ∃ (c : Compiled) (s : Statistics), compile .standard .empty wideReturn "Wide_return" {} = .ok c s ∧
      c.graph.blockIds = [0] ∧
      (c.graph.instructionsOf 0).map (fun i => (i.isWide, i.effectiveOpcode)) =
        [(true, 0x10), (true, 0xac), (false, 0x03), (false, 0xac)] ∧
      (c.graph.codeOf 0).map (fun i => i.op) = [.loadConst 16, .move, .ret, .loadConst 0, .move, .ret] ∧
      (0x10 : Opcode) ∉ StackCode.wideForms ∧ (0xac : Opcode) ∉ StackCode.wideForms := by
  obtain ⟨c, s, hcompile, hp⟩ := exists_of_compilesWith compilesWith_wideReturn
  obtain ⟨hids, htext, hcode⟩ := of_decide_eq_true hp
  exact ⟨c, s, hcompile, hids, htext, hcode, by decide, by decide⟩

end Destack
