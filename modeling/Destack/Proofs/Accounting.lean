import Destack.Proofs.Failures
import Destack.Proofs.Graph.LoopHeads
import Destack.Proofs.Machine.Additions
import Destack.Proofs.Ssa.NodeCounts

/-!
# What a session counts

Every stage of a compilation counts what it makes. When the compilation ends well, the counts have risen by what is
found in its graph (`Raises`), although merges were elided and blocks pruned on the way. When it fails, it fails before
anything of its code is counted (`Unfinished`). Over all methods of a session the counts fit together, and the largest
method is the first one of its size.
-/

namespace Destack

open Ssa (aliasedCount kinds listedMerges mergeCount)

/-- Register instructions as they are placed in the blocks. -/
def Compiled.listing (c : Compiled) : List Machine.Instr :=
  c.graph.blockIds.flatMap c.graph.codeOf

/-- Blocks that were built and not pruned. -/
def Statistics.blocksLeft (s : Statistics) : Int :=
  s.blocksBuilt - s.blocksPruned

/-- Statistics before and after a compilation that ends well. -/
structure Raises (c : Compiled) (s s' : Statistics) : Prop where
  methods : s'.methods = s.methods + 1
  nodes : s'.nodes = s.nodes + c.graph.nodes.size
  nodeKinds : ∀ kind, s'.nodeKinds.entry kind = s.nodeKinds.entry kind + (kinds c.graph).count kind
  mergesCreated : s'.mergesCreated = s.mergesCreated + mergeCount c.graph
  mergesElided : s'.mergesElided = s.mergesElided + aliasedCount c.graph
  /-- Only merges are elided. -/
  aliased : ∀ id, c.graph.isAliased id = true → (c.graph.merge? id).isSome = true
  /-- Merges that were made and not elided are listed. -/
  listed : aliasedCount c.graph + (listedMerges c.graph).length = mergeCount c.graph
  blocksLeft : s'.blocksLeft = s.blocksLeft + c.graph.blockCount
  loopHeads : s'.loopHeads = s.loopHeads + c.graph.loopHeadCount
  calls : s'.calls = s.calls + c.listing.countP (·.isCall)
  instructions : s'.instructions = s.instructions + c.listing.length

/-- Statistics before and after a compilation that fails. -/
structure Unfinished (s s' : Statistics) : Prop where
  methods : s'.methods = s.methods
  mergesElided : s'.mergesElided = s.mergesElided
  instructions : s'.instructions = s.instructions
  edgeMoves : s'.edgeMoves = s.edgeMoves
  calls : s'.calls = s.calls
  largestSize : s'.largestSize = s.largestSize
  largestName : s'.largestName = s.largestName

/-! ## A compilation that ends well -/

theorem Graph.analyze_counts {g g' : Graph} {flow : FlowSummary} (h : g.analyze = .ok (flow, g')) :
    flow.pruned + g'.blockCount = g.blockCount ∧ flow.loopHeads = g'.loopHeadCount := by
  obtain ⟨-, rfl, rfl⟩ := Graph.analyze_eq h
  exact ⟨pruned_add_blockCount g, rfl⟩

/-- The size of what was compiled is the number of instructions in its blocks. -/
theorem Compiled.length_listing {c : Compiled} {code : BlockId → List Machine.Instr} (h : c.graph.Carries code) :
    c.listing.length = c.size := by
  rw [listing, List.length_flatMap, ← Graph.map_fst_blockList, List.map_map, size, List.sum_eq_foldr]
  refine congrArg (List.foldr (· + ·) 0) (List.map_congr_left fun ⟨b, block⟩ he => ?_)
  have hblock := Graph.mem_blockList.1 he
  have hlength := congrArg List.length (h b block hblock)
  rw [List.length_map, List.length_map, Array.length_toList] at hlength
  rw [Function.comp_apply, h.codeOf_eq (Graph.hasBlock_iff.2 ⟨block, hblock⟩)]
  exact hlength.symm

namespace Stages.Succeed

variable {st : Stages} {table : OperandTable} {pool : ConstantPool} {m : Method} {labelPrefix : String} {c : Compiled}

theorem extends_built (h : st.Succeed table pool m labelPrefix c) :
    Ssa.Extends { graph := st.analysed, stats := st.stats } st.built :=
  (Ssa.leads_build pool m).of_ok h.build

theorem cleans (h : st.Succeed table pool m labelPrefix c) : Ssa.Cleans st.built st.cleaned :=
  Ssa.leads_cleanMerges.of_ok h.clean

theorem adds (h : st.Succeed table pool m labelPrefix c) :
    Machine.Adds { graph := st.cleaned.graph, stats := st.cleaned.stats, labelPrefix } st.lowered :=
  Machine.LowerM.leads_run.of_ok h.lower

theorem sameNodes (h : st.Succeed table pool m labelPrefix c) : st.cleaned.graph.SameNodes c.graph :=
  h.graph_eq ▸ h.adds.nodes

/-- The blocks that the analysis leaves stay, and so do the heads of loops among them. -/
theorem keeps_isHead (h : st.Succeed table pool m labelPrefix c) : Graph.Keeps (·.isHead) st.analysed c.graph := by
  have hbuilt : Graph.Keeps (·.isHead) st.analysed st.built.graph := h.extends_built.keeps.comp (·.isHead)
  have hcleaned : Graph.Keeps (·.isHead) st.built.graph st.cleaned.graph := h.cleans.keeps.comp (·.isHead)
  exact (hbuilt.trans hcleaned).trans (h.sameNodes.keeps.comp (·.isHead))

/-- Every merge was elided or is still listed. -/
theorem aliased_add_listed (h : st.Succeed table pool m labelPrefix c) :
    aliasedCount c.graph + (listedMerges c.graph).length = mergeCount c.graph := by
  obtain ⟨type, addr, seg, htype, hlaid, hfresh, hvalid, hresult⟩ :=
    Ssa.result_of_build h.decode h.layout h.analyze h.build
  have hprepared := Ssa.prepared_of_result h.decode htype hlaid hfresh hvalid hresult
  obtain ⟨summary, w, hclean, helided⟩ := Ssa.elided_cleaned hprepared
  cases h.clean.symm.trans hclean
  have hlisted : listedMerges c.graph = listedMerges st.cleaned.graph := by
    rw [listedMerges, h.sameNodes.keeps.blockIds_eq]
    exact List.flatMap_congr fun b _ => h.sameNodes.mergesOf_eq b
  rw [hlisted, h.sameNodes.eq_with_code]
  exact helided.aliased_add_listed hresult hprepared.form

theorem isSome_merge? (h : st.Succeed table pool m labelPrefix c) {id : NodeId} (hid : c.graph.isAliased id = true) :
    (c.graph.merge? id).isSome = true := by
  obtain ⟨_, _, _, -, -, helided⟩ := Ssa.exists_elided h
  rw [h.sameNodes.eq_with_code] at hid
  obtain ⟨t, ht⟩ := Ssa.isAliased_iff.1 hid
  obtain ⟨a, b, hmerge, -⟩ := helided.target ht
  rw [h.sameNodes.merge?_eq, helided.merge?_eq]
  exact (Ssa.mem_mergesOf.1 hmerge).2

/-- What is counted up to the clean-up of merges is found in the graph at the end. -/
theorem stats_cleaned (h : st.Succeed table pool m labelPrefix c) :
    st.cleaned.stats = (st.stats.addNodes c.graph).addMergesElided (aliasedCount c.graph) := by
  obtain ⟨type, addr, seg, -, -, hfresh, -⟩ := Ssa.result_of_build h.decode h.layout h.analyze h.build
  obtain ⟨_, _, _, -, hprepared, -⟩ := Ssa.exists_elided h
  have hnodes : st.stats.addNodes c.graph = st.stats.addNodes st.built.graph := by
    rw [← h.cleans.addNodes_eq, h.sameNodes.eq_with_code]
    rfl
  have haliased : aliasedCount c.graph = aliasedCount st.cleaned.graph := by
    rw [h.sameNodes.eq_with_code]
    rfl
  rw [hprepared.stats_cleaned h.clean, h.extends_built.stats_eq hfresh.nodes_eq, hnodes, haliased]

/-- The lowering counts the calls that it writes. -/
theorem calls_lowered (h : st.Succeed table pool m labelPrefix c) :
    st.lowered.stats.calls = st.cleaned.stats.calls + c.listing.countP (·.isCall) ∧ c.listing.length = c.size := by
  obtain ⟨_, _, _, -, hprepared, helided⟩ := Ssa.exists_elided h
  have hnil := Machine.carries_nil_of_elided hprepared helided
  obtain ⟨code, hcode, hcalls⟩ := h.adds.calls (.of_carries_nil hnil) _ hnil
  have hlisting : c.listing = c.graph.blockIds.flatMap code := by
    refine List.flatMap_congr fun b hb => ?_
    rw [h.graph_eq] at hb ⊢
    exact hcode.codeOf_eq (Graph.mem_blockIds.1 hb)
  rw [← h.graph_eq] at hcode hcalls
  refine ⟨?_, Compiled.length_listing hcode⟩
  have hnone : st.cleaned.graph.callsIn (fun _ => []) = 0 := by
    simp [Graph.callsIn]
  have hall : c.graph.callsIn code = c.listing.countP (·.isCall) := by
    rw [Graph.callsIn, hlisting]
  dsimp only at hcalls
  omega

/-- Something is placed in the entry. -/
theorem size_pos (h : st.Succeed table pool m labelPrefix c) : 0 < c.size := by
  obtain ⟨piece, fresh, s₀, hlast⟩ := Machine.exists_lastStage h
  have hentry := hlast.orderly.entry
  have hcode := hlast.finished.code.codeOf_eq ((hlast.finished.nodes.hasBlock_eq _).trans hentry)
  have hne := hlast.finished.flatMap_code_ne_nil (fun id hid => hlast.orderly.toScheduled.mem_schedule hid)
    (hlast.orderly.leads hentry)
  rw [← h.calls_lowered.2, List.length_pos_iff]
  intro hnil
  have hempty := List.flatMap_eq_nil_iff.1 hnil Graph.entry (Graph.mem_blockIds.2 ?_)
  · rw [h.graph_eq, hcode] at hempty
    have hlength := (Machine.perm_insertAhead _ _).length_eq.symm.trans (congrArg List.length hempty)
    rw [List.length_append, List.length_nil] at hlength
    exact hne (List.length_eq_zero_iff.1 (Nat.eq_zero_of_add_eq_zero_right hlength))
  · rw [h.sameNodes.hasBlock_eq, hentry]

end Stages.Succeed

/-! ## Statistics -/

namespace Statistics

variable {s : Statistics}

/-- The counts of a session fit together. -/
structure Consistent (s : Statistics) : Prop where
  /-- Each kind of node has one entry. -/
  sorted : s.nodeKinds.Sorted
  nodes_eq : s.nodes = s.nodeKinds.total
  pruned_le : s.blocksPruned ≤ s.blocksBuilt
  elided_le : s.mergesElided ≤ s.mergesCreated

theorem Consistent.laidOut (h : s.Consistent) {laid : Graph} {flow : FlowSummary}
    (hflow : flow.pruned ≤ laid.blockCount) : (s.laidOut laid flow).Consistent :=
  ⟨h.sorted, h.nodes_eq, Nat.add_le_add h.pruned_le hflow, h.elided_le⟩

theorem Consistent.addOps (h : s.Consistent) (ops : List Ssa.Op) : (s.addOps ops).Consistent := by
  rw [addOps_eq]
  refine ⟨h.sorted.bumpAll _, ?_, h.pruned_le, Nat.le_add_right_of_le h.elided_le⟩
  rw [Tally.total_bumpAll, List.length_map, h.nodes_eq]

theorem addMethod_eq (s : Statistics) (name : String) (size : Nat) :
    s.addMethod name size =
      { s with
        methods := s.methods + 1
        instructions := s.instructions + size
        largestSize := if s.largestSize < size then size else s.largestSize
        largestName := if s.largestSize < size then name else s.largestName } := by
  unfold addMethod
  dsimp only
  split <;> rfl

/-- The largest method is the first one of its size, among methods with their names and sizes. -/
def Records (s : Statistics) (methods : List (String × Nat)) : Prop :=
  methods = [] ∧ s.largestName = "" ∧ s.largestSize = 0 ∨
    ∃ front rest, methods = front ++ (s.largestName, s.largestSize) :: rest ∧
      (∀ m ∈ front, m.2 < s.largestSize) ∧ ∀ m ∈ rest, m.2 ≤ s.largestSize

theorem Records.le {methods : List (String × Nat)} (h : s.Records methods) : ∀ m ∈ methods, m.2 ≤ s.largestSize := by
  intro m hm
  rcases h with ⟨rfl, -⟩ | ⟨front, rest, rfl, hfront, hrest⟩
  · cases hm
  · rcases List.mem_append.1 hm with hm | hm
    · exact Nat.le_of_lt (hfront m hm)
    · rcases List.mem_cons.1 hm with rfl | hm
      · exact Nat.le_refl _
      · exact hrest m hm

theorem Records.addMethod {methods : List (String × Nat)} (h : s.Records methods) (name : String) {size : Nat}
    (hpos : 0 < size) : (s.addMethod name size).Records (methods ++ [(name, size)]) := by
  rw [addMethod_eq]
  right
  dsimp only
  by_cases hlt : s.largestSize < size
  · rw [if_pos hlt, if_pos hlt]
    exact ⟨methods, [], rfl, fun m hm => Nat.lt_of_le_of_lt (h.le m hm) hlt, by simp⟩
  · rw [if_neg hlt, if_neg hlt]
    rcases h with ⟨-, -, hzero⟩ | ⟨front, rest, rfl, hfront, hrest⟩
    · omega
    · refine ⟨front, rest ++ [(name, size)], by simp, hfront, fun m hm => ?_⟩
      rcases List.mem_append.1 hm with hm | hm
      · exact hrest m hm
      · rw [List.mem_singleton.1 hm]
        exact Nat.le_of_not_lt hlt

end Statistics

/-! ## One method -/

section Method

variable {table : OperandTable} {pool : ConstantPool} {m : Method} {labelPrefix : String} {c : Compiled} {e : Error}
  {s s' : Statistics} {methods : List (String × Nat)}

/-- The statistics after a method was compiled, put together from what is found in its graph. -/
def Statistics.compiled (s : Statistics) (m : Method) (c : Compiled) (laid : Graph) (flow : FlowSummary)
    (moves : Nat) : Statistics :=
  Statistics.addMethod
    { ((s.laidOut laid flow).addNodes c.graph).addMergesElided (aliasedCount c.graph) with
      edgeMoves := moves
      calls := s.calls + c.listing.countP (·.isCall) } m.qualifiedName c.listing.length

theorem compile_counts (h : compile table pool m labelPrefix s = .ok c s') :
    ∃ st : Stages, st.Succeed table pool m labelPrefix c ∧
      s' = s.compiled m c st.laid st.flow st.lowered.stats.edgeMoves := by
  obtain ⟨st, hst, hstats, rfl⟩ := compile_eq_ok_stats h
  obtain ⟨hcalls, hlength⟩ := hst.calls_lowered
  refine ⟨st, hst, ?_⟩
  rw [hst.adds.stats_eq, hcalls, hst.stats_cleaned, hstats, ← hlength]
  rfl

theorem raises_of_compile (h : compile table pool m labelPrefix s = .ok c s') (hs : s.Consistent) : Raises c s s' := by
  obtain ⟨st, hst, rfl⟩ := compile_counts h
  obtain ⟨hpruned, hheads⟩ := Graph.analyze_counts hst.analyze
  rw [← hst.keeps_isHead.blockCount_eq] at hpruned
  rw [← hst.keeps_isHead.loopHeadCount_eq] at hheads
  rw [Statistics.compiled, Statistics.addMethod_eq]
  constructor
  case nodeKinds => exact hs.sorted.entry_bumpAll (kinds c.graph)
  case aliased => exact fun id hid => hst.isSome_merge? hid
  case listed => exact hst.aliased_add_listed
  case blocksLeft =>
    change ((s.blocksBuilt + st.laid.blockCount : Nat) : Int) - ((s.blocksPruned + st.flow.pruned : Nat) : Int) =
      s.blocksBuilt - s.blocksPruned + c.graph.blockCount
    omega
  case loopHeads => exact congrArg (s.loopHeads + ·) hheads
  all_goals rfl

theorem consistent_of_compile (h : compile table pool m labelPrefix s = .ok c s') (hs : s.Consistent) :
    s'.Consistent := by
  obtain ⟨st, hst, rfl⟩ := compile_counts h
  obtain ⟨hpruned, -⟩ := Graph.analyze_counts hst.analyze
  have hlisted := hst.aliased_add_listed
  have hlaid : (s.laidOut st.laid st.flow).Consistent := hs.laidOut (by omega)
  have hnodes := hlaid.addOps (c.graph.nodes.toList.map (·.op))
  rw [Statistics.addOps_nodes] at hnodes
  rw [Statistics.compiled, Statistics.addMethod_eq]
  refine ⟨hnodes.sorted, hnodes.nodes_eq, hnodes.pruned_le, ?_⟩
  exact Nat.add_le_add hs.elided_le (by omega)

theorem records_of_compile (h : compile table pool m labelPrefix s = .ok c s') (hs : s.Records methods) :
    s'.Records (methods ++ [(m.qualifiedName, c.listing.length)]) := by
  obtain ⟨st, hst, rfl⟩ := compile_counts h
  have hpos : 0 < c.listing.length := by
    rw [hst.calls_lowered.2]
    exact hst.size_pos
  unfold Statistics.compiled
  refine .addMethod ?_ _ hpos
  exact hs

/-- A method that fails is counted up to the nodes that were built. -/
theorem compile_error_counts (h : compile table pool m labelPrefix s = .error e s') :
    s' = s ∨ ∃ laid flow ops, flow.pruned ≤ laid.blockCount ∧ s' = (s.laidOut laid flow).addOps ops := by
  rcases compile_eq_error h with rfl | ⟨code, laid, flow, analysed, w, -, -, hflow, hbuild, rfl⟩
  · exact Or.inl rfl
  · obtain ⟨new, -, hstats, -⟩ := ((Ssa.leads_build pool m).of_error hbuild).exists_nodes
    obtain ⟨hpruned, -⟩ := Graph.analyze_counts hflow
    exact Or.inr ⟨laid, flow, new.map (·.op), by omega, hstats⟩

theorem unfinished_of_compile (h : compile table pool m labelPrefix s = .error e s') : Unfinished s s' := by
  rcases compile_error_counts h with rfl | ⟨laid, flow, ops, -, rfl⟩
  · exact ⟨rfl, rfl, rfl, rfl, rfl, rfl, rfl⟩
  · rw [Statistics.addOps_eq]
    exact ⟨rfl, rfl, rfl, rfl, rfl, rfl, rfl⟩

theorem consistent_of_compile_error (h : compile table pool m labelPrefix s = .error e s') (hs : s.Consistent) :
    s'.Consistent := by
  rcases compile_error_counts h with rfl | ⟨laid, flow, ops, hflow, rfl⟩
  · exact hs
  · exact (hs.laidOut hflow).addOps ops

theorem Unfinished.records (h : Unfinished s s') (hs : s.Records methods) : s'.Records methods := by
  unfold Statistics.Records at hs ⊢
  rwa [h.largestName, h.largestSize]

end Method

/-! ## A session -/

/-- A method to compile, with all that goes into it. -/
structure Request where
  table : OperandTable
  pool : ConstantPool
  method : Method
  labelPrefix : String

/-- A compilation within a session. -/
structure Call where
  request : Request
  before : Statistics
  outcome : Except Error Compiled
  after : Statistics

def Request.call (r : Request) (s : Statistics) : Call :=
  match compile r.table r.pool r.method r.labelPrefix s with
  | .ok c s' => ⟨r, s, .ok c, s'⟩
  | .error e s' => ⟨r, s, .error e, s'⟩

/-- Compiles one method after the other, whatever becomes of them. -/
def session (s : Statistics) : List Request → List Call
  | [] => []
  | r :: rs => r.call s :: session (r.call s).after rs

/-- The statistics at the end of a session. -/
def statisticsAfter (s : Statistics) (rs : List Request) : Statistics :=
  rs.foldl (fun s r => (r.call s).after) s

namespace Call

/-- Name and size of a method that was compiled. -/
def compiled? (call : Call) : Option (String × Nat) :=
  match call.outcome with
  | .ok c => some (call.request.method.qualifiedName, c.listing.length)
  | .error _ => none

/-- The statistics account for what became of a method. -/
def Accounted (call : Call) : Prop :=
  match call.outcome with
  | .ok c => Raises c call.before call.after
  | .error _ => Unfinished call.before call.after

end Call

/-- One call counts what it makes, and the counts fit together afterwards. -/
theorem Request.accounted_call (r : Request) {s : Statistics} {methods : List (String × Nat)} (hs : s.Consistent)
    (hrecords : s.Records methods) :
    (r.call s).Accounted ∧ (r.call s).after.Consistent ∧
      (r.call s).after.Records (methods ++ (r.call s).compiled?.toList) := by
  unfold Request.call
  split
  · next c s' h =>
    exact ⟨raises_of_compile h hs, consistent_of_compile h hs, records_of_compile h hrecords⟩
  · next e s' h =>
    have hunfinished := unfinished_of_compile h
    refine ⟨hunfinished, consistent_of_compile_error h hs, ?_⟩
    rw [show Call.compiled? ⟨r, s, .error e, s'⟩ = none from rfl, Option.toList_none, List.append_nil]
    exact hunfinished.records hrecords

theorem accounted_session (rs : List Request) {s : Statistics} {methods : List (String × Nat)} (hs : s.Consistent)
    (hrecords : s.Records methods) :
    (∀ call ∈ session s rs, call.Accounted) ∧ (statisticsAfter s rs).Consistent ∧
      (statisticsAfter s rs).Records (methods ++ (session s rs).filterMap (·.compiled?)) := by
  induction rs generalizing s methods with
  | nil =>
    refine ⟨by simp [session], hs, ?_⟩
    rw [session, List.filterMap_nil, List.append_nil]
    exact hrecords
  | cons r rs ih =>
    obtain ⟨hcall, hconsistent, hafter⟩ := r.accounted_call hs hrecords
    obtain ⟨hcalls, hconsistent, hafter⟩ := ih hconsistent hafter
    refine ⟨?_, hconsistent, ?_⟩
    · intro call hmem
      rcases List.mem_cons.1 hmem with rfl | hmem
      · exact hcall
      · exact hcalls call hmem
    · rw [List.append_assoc, List.filterMap_eq_flatMap_toList] at hafter
      rw [session, List.filterMap_eq_flatMap_toList, List.flatMap_cons]
      exact hafter

theorem map_request_session (s : Statistics) (rs : List Request) : (session s rs).map (·.request) = rs := by
  induction rs generalizing s with
  | nil => rfl
  | cons r rs ih =>
    have hrequest : (r.call s).request = r := by
      unfold Request.call
      split <;> rfl
    rw [session, List.map_cons, ih, hrequest]

/-- A session accounts for the graphs of the methods that are compiled in it, in whatever order methods are compiled
and fail. Every method that is compiled raises the counts by what is in its graph, and one that fails leaves alone what
is counted behind the construction of nodes. The counts fit together after every call, and the largest method is the
first one of the largest size. -/
theorem session_accounts_for_graphs (rs : List Request) :
    (session {} rs).map (·.request) = rs ∧ (∀ call ∈ session {} rs, call.Accounted) ∧
      (statisticsAfter {} rs).Consistent ∧
      (statisticsAfter {} rs).Records ((session {} rs).filterMap (·.compiled?)) := by
  have hconsistent : Statistics.Consistent {} := ⟨List.Pairwise.nil, rfl, Nat.le_refl 0, Nat.le_refl 0⟩
  have hrecords : Statistics.Records {} [] := Or.inl ⟨rfl, rfl, rfl⟩
  exact ⟨map_request_session _ _, accounted_session rs hconsistent hrecords⟩

/-- Takes more from the stack than there is, when a node was already built. -/
def drained : Method where
  owner := "Drain"
  name := "all"
  descriptor := "()V"
  isStatic := true
  maxLocals := 0
  code := [
    0x03, 0x57, 0x57,              --  0  push 0, pop it and pop again
    0xb1]                          --  3  return

/-- A method that fails between two that are compiled. -/
def mixedRequests : List Request :=
  [⟨.standard, .empty, Ssa.keepFirst, "Keep_first"⟩, ⟨.standard, .empty, drained, "Drain_all"⟩,
    ⟨.standard, .empty, sumTo, "Sum_upTo"⟩]

theorem compiled?_mixedRequests :
    (session {} mixedRequests).map (·.compiled?) = [some ("Keep.first(II)I", 12), none, some ("Sum.upTo(I)I", 15)] := by
  simp only [session, mixedRequests, Request.call, compile, Graph.ofInstructions, Layout.partition_eq]
  decide +kernel

theorem mixedRequests_session_accounts_for_graphs :
    ∃ keep drain sum, session {} mixedRequests = [keep, drain, sum] ∧ keep.compiled? = some ("Keep.first(II)I", 12) ∧
      drain.compiled? = none ∧ sum.compiled? = some ("Sum.upTo(I)I", 15) ∧
      keep.Accounted ∧ drain.Accounted ∧ sum.Accounted ∧ (statisticsAfter {} mixedRequests).Consistent ∧
      (statisticsAfter {} mixedRequests).Records [("Keep.first(II)I", 12), ("Sum.upTo(I)I", 15)] := by
  obtain ⟨-, haccounted, hconsistent, hrecords⟩ := session_accounts_for_graphs mixedRequests
  have hcompiled := compiled?_mixedRequests
  obtain ⟨keep, drain, sum, hsession⟩ : ∃ keep drain sum, session {} mixedRequests = [keep, drain, sum] :=
    ⟨_, _, _, rfl⟩
  rw [hsession] at haccounted hrecords hcompiled
  simp only [List.map_cons, List.map_nil, List.cons.injEq, and_true] at hcompiled
  obtain ⟨hkeep, hdrain, hsum⟩ := hcompiled
  simp only [List.filterMap_cons, hkeep, hdrain, hsum, List.filterMap_nil] at hrecords
  exact ⟨keep, drain, sum, hsession, hkeep, hdrain, hsum, haccounted keep (by simp), haccounted drain (by simp),
    haccounted sum (by simp), hconsistent, hrecords⟩

end Destack
