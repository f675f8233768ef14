import Destack.Proofs.Failures
import Destack.Proofs.Machine.Additions
import Destack.Proofs.Ssa.CleanUp
import Destack.Proofs.Ssa.Growth
import Destack.Proofs.Ssa.MergeSlots

/-!
# Arguments of merges

From the moment it is made, a merge has an argument for each predecessor of its block (`Graph.FullMerges`). When the
merges are cleaned up, each argument is the node that the predecessor leaves in the slot, and merges are there for
exactly the slots that need one (`Ssa.MergesFit`).
-/

namespace Destack

/-! ## As many arguments as predecessors -/

/-- Every merge that was made has an argument for each predecessor of its block. -/
def Graph.FullMerges (g : Graph) : Prop :=
  ∀ id node slot args, g.node? id = some node → node.op = .merge slot args →
    args.length = (g.preds node.block).length

theorem Graph.Fresh.fullMerges {g : Graph} (h : g.Fresh) : g.FullMerges := by
  intro id node slot args hnode
  rw [Graph.node?, h.nodes_eq] at hnode
  cases hnode

namespace Ssa

theorem Builds.fullMerges {s t : BuildState} (h : Builds s t) (hs : s.graph.FullMerges) : t.graph.FullMerges := by
  intro id node slot args hnode hop
  obtain ⟨new, hnodes, -, harity⟩ := h.exists_nodes
  rw [preds_eq_of_outline h.keeps]
  rw [Graph.node?, ← Array.getElem?_toList, hnodes, List.getElem?_append] at hnode
  split at hnode
  · exact hs id node slot args (by rwa [Graph.node?, ← Array.getElem?_toList]) hop
  · exact harity node (List.mem_of_getElem? hnode) slot args hop

theorem Cleans.fullMerges {w w' : Work} (h : Cleans w w') (hw : w.graph.FullMerges) : w'.graph.FullMerges := by
  intro id node slot args hnode hop
  have hskeleton := h.node?_eq id
  rw [hnode, Option.map_some] at hskeleton
  obtain ⟨old, hold, hsame⟩ := Option.map_eq_some_iff.1 hskeleton.symm
  have hpreds : w'.graph.preds old.block = w.graph.preds old.block :=
    congrArg (Option.getD · []) (h.keeps.comp (·.preds) old.block)
  unfold Node.skeleton at hsame
  rw [hop] at hsame
  cases hold' : old.op with
  | merge slot' args' =>
    rw [hold'] at hsame
    simp only [Prod.mk.injEq] at hsame
    rw [← hsame.1, hpreds, ← hw id old slot' args' hold hold']
    exact hsame.2.2.2.symm
  | _ =>
    rw [hold'] at hsame
    simp at hsame

end Ssa

theorem Machine.AddsBut.fullMerges {n : Nat} {s t : Machine.LowerState} (h : Machine.AddsBut n s t)
    (hs : s.graph.FullMerges) : t.graph.FullMerges := by
  intro id node slot args hnode hop
  rw [h.nodes.preds_eq]
  exact hs id node slot args (h.nodes.node?_eq id ▸ hnode) hop

namespace Ssa

/-! ## From the first node to the last instruction -/

section Moments

variable {table : OperandTable} {pool : ConstantPool} {m : Method} {labelPrefix : String} {code : List Instruction}
  {laid analysed : Graph} {flow : FlowSummary} {stats : Statistics} {w : Work}

/-- The graphs between the steps of the passes over an analysed graph: a step for every instruction that is translated,
every merge that is made, patched or redirected, and every node and edge that is lowered (`run_blocksScript`,
`run_cleanScript`, `run_runScript`). -/
inductive Moment (pool : ConstantPool) (m : Method) (labelPrefix : String) (analysed : Graph) (stats : Statistics) :
    Graph → Prop where
  | building {type : MethodType} {s : BuildState} : MethodType.ofDescriptor m.descriptor = .ok type →
    (blocksScript ⟨pool, m.isStatic, type⟩ (frameSize m type)).Visits { graph := analysed, stats } s →
    Moment pool m labelPrefix analysed stats s.graph
  | cleaning {w v : Work} : build pool m { graph := analysed, stats } = .ok () w → cleanScript.Visits w v →
    Moment pool m labelPrefix analysed stats v.graph
  | lowering {w w' : Work} {summary : MergeSummary} {u : Machine.LowerState} :
    build pool m { graph := analysed, stats } = .ok () w → cleanMerges w = .ok summary w' →
    Machine.LowerM.runScript.Visits { graph := w'.graph, stats := w'.stats, labelPrefix } u →
    Moment pool m labelPrefix analysed stats u.graph

theorem Moment.fullMerges (hfresh : analysed.Fresh) {g : Graph} (h : Moment pool m labelPrefix analysed stats g) :
    g.FullMerges := by
  have hbuilt : ∀ {w}, build pool m { graph := analysed, stats } = .ok () w → w.graph.FullMerges := by
    intro w hbuild
    have hextends : Extends { graph := analysed, stats } w := (leads_build pool m).of_ok hbuild
    exact Builds.fullMerges hextends hfresh.fullMerges
  cases h with
  | building _ hvisits => exact (keeps_blocksScript _ _ _ _ hvisits).fullMerges hfresh.fullMerges
  | cleaning hbuild hvisits => exact (keeps_cleanScript _ _ hvisits).fullMerges (hbuilt hbuild)
  | lowering hbuild hclean hvisits =>
    have hcleaned := (leads_cleanMerges.of_ok hclean).fullMerges (hbuilt hbuild)
    exact (Machine.LowerM.keeps_runScript _ _ hvisits).fullMerges hcleaned

/-- Merges have an argument for each predecessor all the time. When they are cleaned up the arguments are what the
predecessors leave, and there are merges for exactly the slots that need one, as long as sixteen bits number these. -/
theorem merge_arguments_are_exit_values (hdecode : Instruction.decode table m.code = .ok code)
    (hlayout : Graph.ofInstructions code = .ok laid) (hflow : laid.analyze = .ok (flow, analysed))
    (hbuild : build pool m { graph := analysed, stats } = .ok () w) :
    (∀ labelPrefix g, Moment pool m labelPrefix analysed stats g → g.FullMerges) ∧
      ∃ type summary w', MethodType.ofDescriptor m.descriptor = .ok type ∧ cleanMerges w = .ok summary w' ∧
        (Bounded m type → MergesFit (frameSize m type) w'.graph) := by
  obtain ⟨_, _, rank, hok, hanalyzed, -, hfresh, -⟩ := analyze_decoded hdecode hlayout
  rw [hflow] at hok
  obtain ⟨rfl, rfl⟩ := Prod.mk.inj (Except.ok.inj hok)
  refine ⟨fun labelPrefix g hg => hg.fullMerges hfresh, ?_⟩
  obtain ⟨type, addr, seg, htype, hlaid, -, hvalid, hresult⟩ := result_of_build hdecode hlayout hflow hbuild
  have hprepared := prepared_of_result hdecode htype hlaid hfresh hvalid hresult
  obtain ⟨summary, w', hclean, helided⟩ := elided_cleaned hprepared
  have hextends : Extends { graph := analysed, stats } w := (leads_build pool m).of_ok hbuild
  have hheads : ∀ b, w.graph.isHeadAt b = true → 2 ≤ (w.graph.preds b).length := by
    intro b hhead
    have hsame : w.graph.isHeadAt b = analysed.isHeadAt b :=
      congrArg (Option.getD · false) (hextends.keeps.comp (·.isHead) b)
    rw [preds_eq_of_outline hextends.keeps]
    exact hanalyzed.ranked.two_le_length_preds (hsame.symm.trans hhead)
  refine ⟨type, summary, w', htype, hclean, fun hbounded => ?_⟩
  have hloss := hprepared.lossless hdecode hbounded
  exact (mergesFit_patched hresult hprepared.form hloss hheads).of_elided helided

theorem sumTo_merge_arguments_are_exit_values :
    ∃ (st : Stages) (c : Compiled) (type : MethodType), st.Succeed .standard .empty sumTo "Sum_upTo" c ∧
      MethodType.ofDescriptor sumTo.descriptor = .ok type ∧ Bounded sumTo type ∧
      (∀ labelPrefix g, Moment .empty sumTo labelPrefix st.analysed st.stats g → g.FullMerges) ∧
      MergesFit (frameSize sumTo type) st.cleaned.graph := by
  obtain ⟨c, s, hcompile⟩ := exists_of_compiles compiles_sumTo
  obtain ⟨st, hst⟩ := compile_eq_ok hcompile
  obtain ⟨hfull, type, summary, w', htype, hclean, hfit⟩ :=
    merge_arguments_are_exit_values hst.decode hst.layout hst.analyze hst.build
  obtain ⟨-, rfl⟩ := EStateM.Result.ok.inj (hst.clean.symm.trans hclean)
  have hbounded := bounded_sumTo htype
  exact ⟨st, c, type, hst, htype, hbounded, hfull, hfit hbounded⟩

end Moments

end Ssa

end Destack
