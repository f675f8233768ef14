import Destack.Method
import Destack.Proofs.Graph.Layout
import Destack.Proofs.Pass

/-!
# The stages of a compilation

A compilation that ends well is a sequence of stages that each end well (`compile_eq_ok`).
-/

namespace Destack

/-- What the stages of a compilation leave, one after the other. -/
structure Stages where
  code : List Instruction
  laid : Graph
  flow : FlowSummary
  analysed : Graph
  /-- Statistics at the start of the translation to nodes. -/
  stats : Statistics
  built : Work
  merges : Ssa.MergeSummary
  cleaned : Work
  lowered : Machine.LowerState

/-- The stages of a compilation all end well. -/
structure Stages.Succeed (st : Stages) (table : OperandTable) (pool : ConstantPool) (m : Method)
    (labelPrefix : String) (c : Compiled) : Prop where
  decode : Instruction.decode table m.code = .ok st.code
  layout : Graph.ofInstructions st.code = .ok st.laid
  analyze : st.laid.analyze = .ok (st.flow, st.analysed)
  build : Ssa.build pool m { graph := st.analysed, stats := st.stats } = .ok () st.built
  clean : Ssa.cleanMerges st.built = .ok st.merges st.cleaned
  lower : Machine.LowerM.run { graph := st.cleaned.graph, stats := st.cleaned.stats, labelPrefix } =
    .ok c.data st.lowered
  graph_eq : c.graph = st.lowered.graph
  labelPrefix_eq : c.labelPrefix = labelPrefix

/-- The statistics when the blocks of a method are laid out and analysed. -/
def Statistics.laidOut (s : Statistics) (laid : Graph) (flow : FlowSummary) : Statistics :=
  ((s.addBlocksBuilt laid.blockCount).addBlocksPruned flow.pruned).addLoopHeads flow.loopHeads

/-- Taking a compilation apart, with what is counted at its start and at its end. -/
theorem compile_eq_ok_stats {table : OperandTable} {pool : ConstantPool} {m : Method} {labelPrefix : String}
    {c : Compiled} {s s' : Statistics} (h : compile table pool m labelPrefix s = .ok c s') :
    ∃ st : Stages, st.Succeed table pool m labelPrefix c ∧ st.stats = s.laidOut st.laid st.flow ∧
      s' = st.lowered.stats.addMethod m.qualifiedName c.size := by
  obtain ⟨code, _, hlift, h⟩ := Pass.bind_eq_ok.1 h
  obtain ⟨hdecode, rfl⟩ := Pass.lift_eq_ok.1 hlift
  obtain ⟨laid, _, hlift, h⟩ := Pass.bind_eq_ok.1 h
  obtain ⟨hlayout, rfl⟩ := Pass.lift_eq_ok.1 hlift
  obtain ⟨_, s₁, hcount, h⟩ := Pass.bind_eq_ok.1 h
  obtain rfl := Pass.modify_eq_ok.1 hcount
  obtain ⟨⟨flow, analysed⟩, _, hlift, h⟩ := Pass.bind_eq_ok.1 h
  obtain ⟨hflow, rfl⟩ := Pass.lift_eq_ok.1 hlift
  obtain ⟨_, s₂, hcount, h⟩ := Pass.bind_eq_ok.1 h
  obtain rfl := Pass.modify_eq_ok.1 hcount
  obtain ⟨⟨⟨data, _⟩, lowered⟩, s₃, hfocus, h⟩ := Pass.bind_eq_ok.1 h
  obtain ⟨hwork, rfl⟩ := Pass.focus_eq_ok.1 hfocus
  obtain ⟨_, built, hbuild, hwork⟩ := Pass.bind_eq_ok.1 hwork
  obtain ⟨_, cleaned, hclean, hwork⟩ := Pass.bind_eq_ok.1 hwork
  obtain ⟨merges, hclean⟩ := Pass.discard_eq_ok.1 hclean
  obtain ⟨hlower, rfl⟩ := Pass.focus_eq_ok.1 hwork
  obtain ⟨_, _, hcount, h⟩ := Pass.bind_eq_ok.1 h
  obtain rfl := Pass.modify_eq_ok.1 hcount
  obtain ⟨rfl, rfl⟩ := Pass.pure_eq_ok.1 h
  exact ⟨⟨code, laid, flow, analysed, _, built, merges, cleaned, _⟩,
    ⟨hdecode, hlayout, hflow, hbuild, hclean, hlower, rfl, rfl⟩, rfl, rfl⟩

/-- Taking a compilation apart. -/
theorem compile_eq_ok {table : OperandTable} {pool : ConstantPool} {m : Method} {labelPrefix : String} {c : Compiled}
    {s s' : Statistics} (h : compile table pool m labelPrefix s = .ok c s') :
    ∃ st : Stages, st.Succeed table pool m labelPrefix c := by
  obtain ⟨st, hst, -⟩ := compile_eq_ok_stats h
  exact ⟨st, hst⟩

/-- Whether a compilation ends well. -/
def compiles (table : OperandTable) (pool : ConstantPool) (m : Method) (labelPrefix : String) : Bool :=
  match compile table pool m labelPrefix {} with
  | .ok .. => true
  | .error .. => false

theorem exists_of_compiles {table : OperandTable} {pool : ConstantPool} {m : Method} {labelPrefix : String}
    (h : compiles table pool m labelPrefix = true) :
    ∃ c s, compile table pool m labelPrefix {} = .ok c s := by
  unfold compiles at h
  split at h
  · next c s hc => exact ⟨c, s, hc⟩
  · cases h

/-- Whether a method compiles to something with a property. -/
def compilesWith (table : OperandTable) (pool : ConstantPool) (m : Method) (labelPrefix : String)
    (p : Compiled → Bool) : Bool :=
  match compile table pool m labelPrefix {} with
  | .ok c _ => p c
  | .error .. => false

theorem exists_of_compilesWith {table : OperandTable} {pool : ConstantPool} {m : Method} {labelPrefix : String}
    {p : Compiled → Bool} (h : compilesWith table pool m labelPrefix p = true) :
    ∃ c s, compile table pool m labelPrefix {} = .ok c s ∧ p c = true := by
  unfold compilesWith at h
  split at h
  · next c s hcompile => exact ⟨c, s, hcompile, h⟩
  · cases h

/-! ## A loop -/

/-- The sum of the numbers up to the argument: one slot counts down and the other one collects. -/
def sumTo : Method where
  owner := "Sum"
  name := "upTo"
  descriptor := "(I)I"
  isStatic := true
  maxLocals := 2
  code := [
    0x03, 0x3c,                    --  0  push 0, store it in slot 1
    0x1a, 0x99, 0x00, 0x0d,        --  2  load slot 0, leave to 16 if it is zero
    0x1b, 0x1a, 0x60, 0x3c,        --  6  add slot 0 to slot 1
    0x84, 0x00, 0xff,              -- 10  count slot 0 down
    0xa7, 0xff, 0xf5,              -- 13  back to 2
    0x1b, 0xac]                    -- 16  return slot 1

theorem compiles_sumTo : compiles .standard .empty sumTo "Sum_upTo" = true := by
  simp only [compiles, compile, Graph.ofInstructions, Layout.partition_eq]
  decide +kernel

end Destack
