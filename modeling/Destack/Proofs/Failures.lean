import Destack.Proofs.Encoding
import Destack.Proofs.Machine.Runs
import Destack.Proofs.Ssa.Errors

/-!
# How a compilation fails

A compilation ends without a result when the code cannot be decoded or has no graph, when the method is refused, or
when its control flow is not reducible (`Fails`). No stage meets something that an earlier one should have ruled out,
and nothing fails behind the construction of nodes.
-/

namespace Destack

open Destack.Graph (Analyzed)

/-- The ways in which a compilation can end without a result. -/
inductive Fails (table : OperandTable) (m : Method) : Error → Prop
  | decoding {e : Error} : Instruction.decode table m.code = .error e → Fails table m e
  | layout {code : List Instruction} {e : Error} : Instruction.decode table m.code = .ok code →
    Graph.ofInstructions code = .error e → Fails table m e
  | irreducible {code : List Instruction} {laid : Graph} {unreached total : Nat} :
    Instruction.decode table m.code = .ok code → Graph.ofInstructions code = .ok laid → ¬ laid.Reducible →
    0 < unreached → unreached < total → Fails table m (.layout (.irreducible unreached total))
  | refusal {e : Error} : e.IsRefusal → Fails table m e

variable {table : OperandTable} {pool : ConstantPool} {m : Method} {labelPrefix : String} {code : List Instruction}
  {laid analysed : Graph} {flow : FlowSummary} {stats : Statistics} {w : Work} {e : Error}

/-! ## Stages -/

/-- The graph of decoded instructions is analysed, and nodes can be built over what is left of it. -/
theorem analyze_decoded (hdecode : Instruction.decode table m.code = .ok code)
    (hlayout : Graph.ofInstructions code = .ok laid) :
    ∃ flow analysed rank, laid.analyze = .ok (flow, analysed) ∧ Analyzed analysed rank ∧ analysed.Closed ∧
      analysed.Fresh ∧ (analysed.Reducible ↔ laid.Reducible) := by
  have hcode := Instruction.decode_contiguous hdecode
  obtain ⟨hrooted, horder⟩ := Graph.rooted_ofInstructions hlayout
  obtain ⟨flow, analysed, rank, hok, hanalyzed, -, hsuccs⟩ := Graph.analyze_rooted hrooted horder
  obtain ⟨⟨addr, hlaid⟩, hfresh⟩ := Graph.laid_ofInstructions hcode hlayout
  have hfresh' := Graph.fresh_analyze hfresh hok
  have hvalid := hanalyzed.ranked.rooted.validate hfresh'.order_eq
  have hlaid' := Graph.laid_analyze hlaid hok hvalid
  have hclosed := (Graph.closed_ofInstructions hcode hlayout).analyze hlaid hlaid' hok
  exact ⟨flow, analysed, rank, hok, hanalyzed, hclosed, hfresh', Graph.reducible_congr hsuccs⟩

/-- The construction of nodes fails only by refusing the method, or because control flow is not reducible. -/
theorem build_spec {rank : BlockId → Nat} (hanalyzed : Analyzed analysed rank) (hclosed : analysed.Closed)
    (hfresh : analysed.Fresh) (pool : ConstantPool) (m : Method) (stats : Statistics) :
    Pass.Spec (Ssa.build pool m) { graph := analysed, stats } (fun _ _ => True) fun e =>
      e.IsRefusal ∨ ¬ analysed.Reducible ∧ ∃ unreached total, 0 < unreached ∧ unreached < total ∧
        e = .layout (.irreducible unreached total) := by
  refine Pass.Spec.bind (Q := fun _ w => w = { graph := analysed, stats }) ?_ ?_
  · exact Pass.Spec.lift (fun _ _ => rfl) fun _ he => Or.inl (Ssa.isRefusal_of_methodType he)
  · rintro type _ rfl
    refine Pass.Spec.discard (Pass.Spec.focus ?_)
    refine (Ssa.blocks_spec hanalyzed hclosed hfresh _ _ _).mono (fun _ _ _ => trivial) ?_
    rintro e (hrefusal | ⟨hred, unreached, hpos, hlt, rfl⟩)
    · exact Or.inl hrefusal
    · exact Or.inr ⟨hred, unreached, _, hpos, hlt, rfl⟩

/-- Nodes that were built are cleaned of merges and lowered. -/
theorem clean_and_lower (hdecode : Instruction.decode table m.code = .ok code)
    (hlayout : Graph.ofInstructions code = .ok laid) (hflow : laid.analyze = .ok (flow, analysed))
    (hbuild : Ssa.build pool m { graph := analysed, stats } = .ok () w) (labelPrefix : String) :
    ∃ summary w', Ssa.cleanMerges w = .ok summary w' ∧ ∃ data s,
      Machine.LowerM.run { graph := w'.graph, stats := w'.stats, labelPrefix } = .ok data s := by
  obtain ⟨type, addr, seg, -, hprepared⟩ := Ssa.prepared_patched hdecode hlayout hflow hbuild
  obtain ⟨summary, w', hclean, helided⟩ := Ssa.elided_cleaned hprepared
  have hcode := Machine.carries_nil_of_elided hprepared helided
  obtain ⟨data, s, hrun, -⟩ :=
    (Machine.run_spec (helided.orderly hprepared).toScheduled hcode w'.stats labelPrefix).exists_ok
  exact ⟨summary, w', hclean, data, s, hrun⟩

/-- The stages behind the construction of nodes never fail. -/
theorem clean_and_lower_spec (hdecode : Instruction.decode table m.code = .ok code)
    (hlayout : Graph.ofInstructions code = .ok laid) (hflow : laid.analyze = .ok (flow, analysed))
    (hbuild : Ssa.build pool m { graph := analysed, stats } = .ok () w) (labelPrefix : String) (E : Error → Prop) :
    Pass.Spec (do discard Ssa.cleanMerges; Machine.lowering labelPrefix Machine.LowerM.run) w (fun _ _ => True) E := by
  obtain ⟨summary, w', hclean, data, s, hrun⟩ := clean_and_lower hdecode hlayout hflow hbuild labelPrefix
  refine Pass.Spec.bind (Q := fun _ t => t = w') (Pass.Spec.discard (.intro_ok hclean rfl)) ?_
  rintro _ _ rfl
  exact Pass.Spec.focus (.intro_ok hrun trivial)

/-! ## The whole compilation -/

theorem compile_spec (table : OperandTable) (pool : ConstantPool) (m : Method) (labelPrefix : String)
    (s : Statistics) : Pass.Spec (compile table pool m labelPrefix) s (fun _ _ => True) (Fails table m) := by
  cases hdecode : Instruction.decode table m.code with
  | error e => exact Pass.Spec.lift_bind_error hdecode (.decoding hdecode)
  | ok code =>
    refine Pass.Spec.lift_bind hdecode ?_
    cases hlayout : Graph.ofInstructions code with
    | error e => exact Pass.Spec.lift_bind_error rfl (.layout hdecode hlayout)
    | ok laid =>
      obtain ⟨flow, analysed, rank, hflow, hanalyzed, hclosed, hfresh, hred⟩ := analyze_decoded hdecode hlayout
      have hbuild : ∀ stats, Pass.Spec (Ssa.build pool m) { graph := analysed, stats }
          (fun _ w => Ssa.build pool m { graph := analysed, stats } = .ok () w) (Fails table m) := by
        intro stats
        refine ((build_spec hanalyzed hclosed hfresh pool m stats).mono (fun _ _ h => h) ?_).of_ok_imp
          fun _ _ hok _ => hok
        rintro e (hrefusal | ⟨hnot, unreached, total, hpos, hlt, rfl⟩)
        · exact .refusal hrefusal
        · exact .irreducible hdecode hlayout (fun h => hnot (hred.2 h)) hpos hlt
      refine Pass.Spec.lift_bind rfl (Pass.Spec.modify_bind (Pass.Spec.lift_bind hflow (Pass.Spec.modify_bind ?_)))
      refine Pass.Spec.bind (Q := fun _ _ => True) (Pass.Spec.focus ?_) fun _ _ _ =>
        Pass.Spec.modify_bind (Pass.Spec.pure trivial)
      refine Pass.Spec.bind (hbuild _) fun _ w hbuilt => ?_
      exact clean_and_lower_spec hdecode hlayout hflow hbuilt labelPrefix _

/-- A compilation that fails has counted nothing, or it stops within the construction of nodes. -/
theorem compile_eq_error {s s' : Statistics} (h : compile table pool m labelPrefix s = .error e s') :
    s' = s ∨ ∃ code laid flow analysed w, Instruction.decode table m.code = .ok code ∧
      Graph.ofInstructions code = .ok laid ∧ laid.analyze = .ok (flow, analysed) ∧
      Ssa.build pool m { graph := analysed, stats := s.laidOut laid flow } = .error e w ∧ s' = w.stats := by
  rcases Pass.bind_eq_error.1 h with hlift | ⟨code, _, hlift, h⟩
  · exact Or.inl (Pass.lift_eq_error.1 hlift).2.symm
  obtain ⟨hdecode, rfl⟩ := Pass.lift_eq_ok.1 hlift
  rcases Pass.bind_eq_error.1 h with hlift | ⟨laid, _, hlift, h⟩
  · exact Or.inl (Pass.lift_eq_error.1 hlift).2.symm
  obtain ⟨hlayout, rfl⟩ := Pass.lift_eq_ok.1 hlift
  obtain ⟨flow, analysed, -, hflow, -⟩ := analyze_decoded hdecode hlayout
  rcases Pass.bind_eq_error.1 h with hcount | ⟨_, s₁, hcount, h⟩
  · cases hcount
  obtain rfl := Pass.modify_eq_ok.1 hcount
  rcases Pass.bind_eq_error.1 h with hlift | ⟨_, _, hlift, h⟩
  · cases hflow.symm.trans (Pass.lift_eq_error.1 hlift).1
  obtain ⟨hflow', rfl⟩ := Pass.lift_eq_ok.1 hlift
  obtain rfl := Except.ok.inj (hflow.symm.trans hflow')
  rcases Pass.bind_eq_error.1 h with hcount | ⟨_, s₂, hcount, h⟩
  · cases hcount
  obtain rfl := Pass.modify_eq_ok.1 hcount
  refine Or.inr ⟨code, laid, flow, analysed, ?_⟩
  rcases Pass.bind_eq_error.1 h with hfocus | ⟨_, s₃, hfocus, h⟩
  · obtain ⟨w, hwork, rfl⟩ := Pass.focus_eq_error.1 hfocus
    rcases Pass.bind_eq_error.1 hwork with hbuild | ⟨_, built, hbuild, hwork⟩
    · exact ⟨w, hdecode, hlayout, hflow, hbuild, rfl⟩
    · exact ((clean_and_lower_spec hdecode hlayout hflow hbuild labelPrefix fun _ => False).of_error hwork).elim
  · rcases Pass.bind_eq_error.1 h with hcount | ⟨_, _, -, h⟩
    · cases hcount
    · cases h

/-- No error is about something that the compilation itself lost: a block, a node, an instruction or a register. -/
theorem Fails.not_internal (h : Fails table m e) :
    (∀ b, e ≠ .unknownBlock b) ∧ (∀ fault, e ≠ .lowering fault) ∧ ∀ what, e ≠ .absent what := by
  cases h with
  | decoding hdecode =>
    obtain ⟨a, opcode, is, rfl | rfl, -⟩ := Instruction.decode_eq_error hdecode <;> simp
  | layout hdecode hlayout =>
    rcases Graph.ofInstructions_eq_error (Instruction.decode_contiguous hdecode) hlayout with
      ⟨-, rfl⟩ | ⟨i, -, target, -, rfl, -⟩ | ⟨last, -, -, rfl⟩ <;> simp
  | irreducible => simp
  | refusal hrefusal => refine ⟨?_, ?_, ?_⟩ <;> rintro _ rfl <;> exact hrefusal

/-- Only the layout finds that control goes where no instruction is. -/
theorem Fails.layout_of_flow (h : Fails table m e)
    (he : (∃ a target, e = .invalidJump a target) ∨ ∃ a, e = .fallsOffEnd a) :
    ∃ code, Instruction.decode table m.code = .ok code ∧ Graph.ofInstructions code = .error e := by
  cases h with
  | decoding hdecode => obtain ⟨a, opcode, is, rfl | rfl, -⟩ := Instruction.decode_eq_error hdecode <;> simp at he
  | layout hdecode hlayout => exact ⟨_, hdecode, hlayout⟩
  | irreducible => simp at he
  | refusal hrefusal => rcases he with ⟨a, target, rfl⟩ | ⟨a, rfl⟩ <;> exact hrefusal.elim

/-- The layout is at fault only if there is no code, or if control flow is not reducible. -/
theorem Fails.layout_fault {fault : LayoutFault} (h : Fails table m (.layout fault)) :
    fault = .noInstructions ∧ m.code = [] ∨
      (∃ unreached total, 0 < unreached ∧ unreached < total ∧ fault = .irreducible unreached total) ∧
      ∃ code laid, Instruction.decode table m.code = .ok code ∧ Graph.ofInstructions code = .ok laid ∧
        ¬ laid.Reducible := by
  cases h with
  | decoding hdecode =>
    obtain ⟨a, opcode, is, herr | herr, -⟩ := Instruction.decode_eq_error hdecode <;> cases herr
  | layout hdecode hlayout =>
    rcases Graph.ofInstructions_eq_error (Instruction.decode_contiguous hdecode) hlayout with
      ⟨rfl, herr⟩ | ⟨i, -, target, -, herr, -⟩ | ⟨last, -, -, herr⟩ <;> cases herr
    exact Or.inl ⟨rfl, (Instruction.decode_eq_ok_iff.1 hdecode).2.symm⟩
  | irreducible hdecode hlayout hred hpos hlt =>
    exact Or.inr ⟨⟨_, _, hpos, hlt, rfl⟩, _, _, hdecode, hlayout, hred⟩
  | refusal hrefusal => exact hrefusal.elim

/-- A compilation fails over nothing that it put together itself. Every look-up of a block, a node, an instruction or a
register finds what it looks for: none of the errors for that is ever the result. Only the layout finds jumps without a
target and code that runs out, and the blocks are at fault only if there is no code or if control flow is not reducible,
when some of them are built and some are not. Fewer than `65535` slots of parameters are counted without loss. What is
laid out is analysed; then the construction of nodes can refuse the method, and when it has ended well, so do the stages
behind it. -/
theorem compile_has_no_internal_errors (table : OperandTable) (pool : ConstantPool) (m : Method) (labelPrefix : String)
    (s : Statistics) :
    (∀ e s', compile table pool m labelPrefix s = .error e s' →
      ((∀ b, e ≠ .unknownBlock b) ∧ (∀ fault, e ≠ .lowering fault) ∧ ∀ what, e ≠ .absent what) ∧
      (((∃ a target, e = .invalidJump a target) ∨ ∃ a, e = .fallsOffEnd a) →
        ∃ code, Instruction.decode table m.code = .ok code ∧ Graph.ofInstructions code = .error e) ∧
      ∀ fault, e = .layout fault →
        fault = .noInstructions ∧ m.code = [] ∨
        (∃ unreached total, 0 < unreached ∧ unreached < total ∧ fault = .irreducible unreached total) ∧
          ∃ code laid, Instruction.decode table m.code = .ok code ∧ Graph.ofInstructions code = .ok laid ∧
            ¬ laid.Reducible) ∧
    (∀ type, MethodType.ofDescriptor m.descriptor = .ok type → (type.params.map (·.slots)).sum < 65535 →
      Ssa.frameSize m type = max m.maxLocals ((type.params.map (·.slots)).sum + if m.isStatic then 0 else 1)) ∧
    ∀ code laid, Instruction.decode table m.code = .ok code → Graph.ofInstructions code = .ok laid →
      (∃ flow analysed, laid.analyze = .ok (flow, analysed)) ∧
      ∀ flow analysed stats, laid.analyze = .ok (flow, analysed) →
        (∀ e w, Ssa.build pool m { graph := analysed, stats } = .error e w →
          e.IsRefusal ∨ ¬ laid.Reducible ∧ ∃ unreached total, 0 < unreached ∧ unreached < total ∧
            e = .layout (.irreducible unreached total)) ∧
        ∀ w, Ssa.build pool m { graph := analysed, stats } = .ok () w →
          ∃ summary w', Ssa.cleanMerges w = .ok summary w' ∧
            ∃ data s, Machine.LowerM.run { graph := w'.graph, stats := w'.stats, labelPrefix } = .ok data s := by
  refine ⟨fun e s' h => ?_, fun type _ hfew => Ssa.frameSize_eq (hfew.trans (by decide)),
    fun code laid hdecode hlayout => ?_⟩
  · have hfails := (compile_spec table pool m labelPrefix s).of_error h
    exact ⟨hfails.not_internal, hfails.layout_of_flow, fun fault he => (he ▸ hfails).layout_fault⟩
  obtain ⟨_, _, rank, hok, hanalyzed, hclosed, hfresh, hred⟩ := analyze_decoded hdecode hlayout
  refine ⟨⟨_, _, hok⟩, fun flow analysed stats hflow => ⟨fun e w h => ?_, fun w h => ?_⟩⟩
  · rw [hflow] at hok
    obtain ⟨rfl, rfl⟩ := Prod.mk.inj (Except.ok.inj hok)
    exact ((build_spec hanalyzed hclosed hfresh pool m stats).of_error h).imp_right fun hnot =>
      ⟨hred.not.1 hnot.1, hnot.2⟩
  · exact clean_and_lower hdecode hlayout hflow h labelPrefix

/-- Two blocks that lead to each other, both of which a branch leads to. -/
def crossing : Method where
  owner := "Cross"
  name := "over"
  descriptor := "(I)V"
  isStatic := true
  maxLocals := 1
  code := [
    0x1a, 0x99, 0x00, 0x06,        --  0  load slot 0, on to 7 if it is zero
    0xa7, 0x00, 0x03,              --  4  on to 7
    0xa7, 0xff, 0xfd]              --  7  back to 4

/-- Whether a compilation fails over the arrangement of the blocks. -/
def failsInLayout (table : OperandTable) (pool : ConstantPool) (m : Method) (labelPrefix : String) : Bool :=
  match compile table pool m labelPrefix {} with
  | .error (.layout _) _ => true
  | _ => false

theorem failsInLayout_crossing : failsInLayout .standard .empty crossing "Cross_over" = true := by
  simp only [failsInLayout, compile, Graph.ofInstructions, Layout.partition_eq]
  decide +kernel

theorem crossing_compile_has_no_internal_errors :
    (∃ fault s, compile .standard .empty crossing "Cross_over" {} = .error (.layout fault) s ∧
      ∃ code laid, Instruction.decode .standard crossing.code = .ok code ∧ Graph.ofInstructions code = .ok laid ∧
        ¬ laid.Reducible) ∧
    ∃ analysed stats w, Ssa.build .empty sumTo { graph := analysed, stats } = .ok () w ∧
      ∃ summary w', Ssa.cleanMerges w = .ok summary w' := by
  constructor
  · have h := failsInLayout_crossing
    unfold failsInLayout at h
    split at h
    · next fault s hfail =>
      obtain ⟨-, -, hfault⟩ := (compile_has_no_internal_errors _ _ _ _ _).1 _ _ hfail
      rcases hfault fault rfl with ⟨-, hnil⟩ | ⟨-, hirreducible⟩
      · cases hnil
      · exact ⟨fault, s, hfail, hirreducible⟩
    · cases h
  · obtain ⟨c, s, hcompile⟩ := exists_of_compiles compiles_sumTo
    obtain ⟨st, hst⟩ := compile_eq_ok hcompile
    obtain ⟨summary, w', hclean, -⟩ := (((compile_has_no_internal_errors .standard .empty sumTo "Sum_upTo" {}).2.2
      st.code st.laid hst.decode hst.layout).2 st.flow st.analysed st.stats hst.analyze).2 st.built hst.build
    exact ⟨st.analysed, st.stats, st.built, hst.build, summary, w', hclean⟩

end Destack
