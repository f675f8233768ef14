import Destack.Proofs.Steps
import Destack.Proofs.Ssa.Form

/-!
# Cleaning up in steps

The clean-up of merges, with a step for every merge whose arguments are set, for every merge that is redirected and
for every list of nodes that gets shorter. No step changes how many arguments a merge has (`Cleans`).
-/

namespace Destack.Ssa

open Pass (Leads Script)

/-! ## The pass as a script -/

/-- Sets the arguments of one merge. -/
def patchStep (exits : List Frame) (patched : Nat) (id : NodeId) : Script Work Nat :=
  .single (modifyGet fun w =>
    let acc := Merge.patchMerge exits (patched, w.graph) id
    (acc.1, { w with graph := acc.2 }))

/-- Sets the arguments of the merges of a block that is the head of a loop. -/
def patchScript (patched : Nat) (b : BlockId) : Script Work Nat :=
  .step get fun w =>
    if w.graph.isHeadAt b then .fold (patchStep (exitsInto w.graph b)) patched (w.graph.mergesOf b)
    else .done patched

/-- Redirects one merge if it is trivial. -/
def redirectStep (gone : List NodeId) (id : NodeId) : Script Work (List NodeId) :=
  .single (modifyGet fun w =>
    let acc := Merge.redirect (gone, w.graph) id
    (acc.1, { w with graph := acc.2 }))

/-- Takes nodes off the list of a block. -/
def trim (b : BlockId) (gone : List NodeId) (w : Work) : Work where
  graph := w.graph.modifyBlock b fun block =>
    { block with nodes := block.nodes.filter (!(Std.TreeSet.ofList gone).contains ·) }
  stats := w.stats.addMergesElided gone.length

/-- Redirects the trivial merges of a block, one by one, and takes them off its list. -/
def elideScript (elided : Nat) (b : BlockId) : Script Work Nat :=
  .step get fun w =>
    (Script.fold redirectStep [] (w.graph.mergesOf b)).andThen fun gone =>
      .single (modifyGet fun w => (elided + gone.length, trim b gone w))

/-- Passes over all blocks until one takes nothing away. -/
def elideAllScript : Nat → Script Work Nat
  | 0 => .done 0
  | fuel + 1 =>
    .step get fun w =>
      (Script.fold elideScript 0 w.graph.order).andThen fun elided =>
        if elided = 0 then .done 0
        else (elideAllScript fuel).andThen fun rest => .done (elided + rest)

/-- The whole clean-up. -/
def cleanScript : Script Work MergeSummary :=
  .step get fun w =>
    .step (Pass.lift w.graph.validate) fun _ =>
      .step get fun w =>
        (Script.fold patchScript 0 w.graph.order).andThen fun patched =>
          .step get fun w =>
            (elideAllScript (w.graph.nodes.size + 1)).andThen fun elided => .done { patched, elided }

theorem run_patchScript (acc : Nat × Graph) (stats : Statistics) (b : BlockId) :
    (patchScript acc.1 b).run { graph := acc.2, stats } =
      .ok (Merge.headPatched acc b).1 { graph := (Merge.headPatched acc b).2, stats } := by
  obtain ⟨patched, g⟩ := acc
  unfold patchScript Merge.headPatched
  refine Pass.bind_eq_ok.2 ⟨_, _, Pass.get_eq_ok.2 ⟨rfl, rfl⟩, ?_⟩
  dsimp only
  split
  · let state (acc : Nat × Graph) : Work := { graph := acc.2, stats }
    exact Script.run_fold Prod.fst state (fun _ _ => rfl) (patched, g) _
  · rfl

theorem run_elideScript (r : Merge.Round) (b : BlockId) :
    (elideScript r.elided b).run r.work = .ok (Merge.blockElided r b).elided (Merge.blockElided r b).work := by
  refine Pass.bind_eq_ok.2 ⟨_, _, Pass.get_eq_ok.2 ⟨rfl, rfl⟩, ?_⟩
  rw [Script.run_andThen]
  let state (acc : List NodeId × Graph) : Work := { graph := acc.2, stats := r.work.stats }
  exact Pass.bind_eq_ok.2 ⟨_, _, Script.run_fold Prod.fst state (fun _ _ => rfl) ([], r.work.graph) _, rfl⟩

theorem run_elideAllScript (fuel : Nat) (w : Work) :
    (elideAllScript fuel).run w = .ok (Merge.allElided fuel w).elided (Merge.allElided fuel w).work := by
  induction fuel generalizing w with
  | zero => rfl
  | succ fuel ih =>
    refine Pass.bind_eq_ok.2 ⟨_, _, Pass.get_eq_ok.2 ⟨rfl, rfl⟩, ?_⟩
    rw [Script.run_andThen]
    refine Pass.bind_eq_ok.2 ⟨_, _, Script.run_fold Merge.Round.elided Merge.Round.work run_elideScript ⟨0, w⟩ _, ?_⟩
    rw [← Merge.onceElided]
    unfold Merge.allElided
    dsimp only
    split
    · next hzero => rw [hzero]; rfl
    · rw [Script.run_andThen]
      exact Pass.bind_eq_ok.2 ⟨_, _, ih _, rfl⟩

/-- A clean-up that ends well is the run of the script. -/
theorem run_cleanScript {w w' : Work} {summary : MergeSummary} (h : cleanMerges w = .ok summary w') :
    cleanScript.run w = .ok summary w' := by
  obtain ⟨hvalid, hpatched, helided, rfl⟩ := cleanMerges_eq_ok h
  let state (acc : Nat × Graph) : Work := { graph := acc.2, stats := w.stats }
  have hpatch := Script.run_fold Prod.fst state (fun acc => run_patchScript acc w.stats) (0, w.graph) w.graph.order
  refine Pass.bind_eq_ok.2 ⟨_, _, Pass.get_eq_ok.2 ⟨rfl, rfl⟩, ?_⟩
  refine Pass.bind_eq_ok.2 ⟨_, _, Pass.lift_eq_ok.2 ⟨hvalid, rfl⟩, ?_⟩
  refine Pass.bind_eq_ok.2 ⟨_, _, Pass.get_eq_ok.2 ⟨rfl, rfl⟩, ?_⟩
  rw [Script.run_andThen]
  refine Pass.bind_eq_ok.2 ⟨_, _, hpatch, Pass.bind_eq_ok.2 ⟨_, _, Pass.get_eq_ok.2 ⟨rfl, rfl⟩, ?_⟩⟩
  rw [Script.run_andThen]
  refine Pass.bind_eq_ok.2 ⟨_, _, run_elideAllScript _ _, Pass.pure_eq_ok.2 ⟨?_, rfl⟩⟩
  obtain ⟨patched, elided⟩ := summary
  obtain rfl : patched = _ := hpatched
  obtain rfl : elided = _ := helided
  rfl

/-! ## What stays -/

/-- A node apart from the arguments of a merge, of which only the number is kept. -/
def Node.skeleton (node : Node) : BlockId × ValueType × Op × Nat :=
  match node.op with
  | .merge slot args => (node.block, node.type, .merge slot [], args.length)
  | op => (node.block, node.type, op, 0)

/-- A later state of the work: merges keep their block, their slot and the number of their arguments, other nodes stay
as they are, and of the blocks only the lists of nodes change. -/
structure Cleans (w w' : Work) : Prop where
  keeps : Graph.Keeps (fun block => { block with nodes := #[] }) w.graph w'.graph
  node?_eq : ∀ id, (w'.graph.node? id).map Node.skeleton = (w.graph.node? id).map Node.skeleton
  stats_eq : w'.stats = { w.stats with mergesElided := w'.stats.mergesElided }

namespace Cleans

instance : Std.Refl Cleans :=
  ⟨fun _ => ⟨Graph.Keeps.refl _ _, fun _ => rfl, rfl⟩⟩

instance : IsTrans Work Cleans := by
  refine ⟨fun w w' w'' h h' => ⟨h.keeps.trans h'.keeps, fun id => (h'.node?_eq id).trans (h.node?_eq id), ?_⟩⟩
  rw [h'.stats_eq, h.stats_eq]

end Cleans

theorem skeleton_patchNode (exits : List Frame) (node : Node) :
    (patchNode exits node).skeleton = node.skeleton := by
  unfold patchNode
  split
  · next slot args hop => simp [Node.skeleton, hop, length_patchArgs]
  · rfl

theorem keeps_patchStep (exits : List Frame) (patched : Nat) (id : NodeId) :
    (patchStep exits patched id).Keeps Cleans := by
  refine .single (Leads.modifyGet fun w => ⟨?_, fun k => ?_, rfl⟩)
  · dsimp only
    rw [patchMerge_eq]
    exact Graph.Keeps.refl _ w.graph
  · rw [node?_patchMerge]
    split
    · rw [Option.map_map]
      exact congrArg (Option.map · _) (funext fun node => skeleton_patchNode exits node)
    · rfl

theorem keeps_patchScript (patched : Nat) (b : BlockId) : (patchScript patched b).Keeps Cleans := by
  refine .get_step fun w => ?_
  split
  · exact .fold _ _ fun patched id _ => keeps_patchStep _ patched id
  · exact .done _

theorem keeps_redirectStep (gone : List NodeId) (id : NodeId) : (redirectStep gone id).Keeps Cleans := by
  refine .single (Leads.modifyGet fun w => ?_)
  dsimp only
  unfold Merge.redirect
  dsimp only
  split
  · exact ⟨Graph.Keeps.refl _ w.graph, fun _ => rfl, rfl⟩
  · exact Std.Refl.refl w

theorem keeps_elideScript (elided : Nat) (b : BlockId) : (elideScript elided b).Keeps Cleans := by
  refine .get_step fun w => Script.Keeps.andThen (.fold _ _ fun gone id _ => keeps_redirectStep gone id) fun gone => ?_
  exact .single (Leads.modifyGet fun w => ⟨Graph.Keeps.modifyBlock _ _ fun _ => rfl, fun _ => rfl, rfl⟩)

theorem keeps_elideAllScript (fuel : Nat) : (elideAllScript fuel).Keeps Cleans := by
  induction fuel with
  | zero => exact .done 0
  | succ fuel ih =>
    have hround : ∀ bs, (Script.fold elideScript 0 bs).Keeps Cleans := fun bs =>
      .fold _ _ fun elided b _ => keeps_elideScript elided b
    refine .get_step fun w => Script.Keeps.andThen (hround _) fun elided => ?_
    split
    · exact .done 0
    · exact ih.andThen fun rest => .done _

/-- No step of the clean-up changes what a merge stands for, or how many arguments it has. -/
theorem keeps_cleanScript : cleanScript.Keeps Cleans := by
  refine .get_step fun _ => .step (Leads.lift _) fun _ => .get_step fun w => ?_
  refine Script.Keeps.andThen (.fold _ _ fun patched b _ => keeps_patchScript patched b) fun patched => ?_
  exact .get_step fun w => (keeps_elideAllScript _).andThen fun elided => .done _

/-- A clean-up that fails leaves the work as it was. -/
theorem cleanMerges_eq_error {w w' : Work} {e : Error} (h : cleanMerges w = .error e w') : w = w' := by
  rcases Pass.bind_eq_error.1 h with hget | ⟨_, _, hget, h⟩
  · cases hget
  obtain ⟨rfl, rfl⟩ := Pass.get_eq_ok.1 hget
  rcases Pass.bind_eq_error.1 h with hlift | ⟨_, _, hlift, h⟩
  · exact (Pass.lift_eq_error.1 hlift).2
  obtain ⟨-, rfl⟩ := Pass.lift_eq_ok.1 hlift
  rcases Pass.bind_eq_error.1 h with hget | ⟨_, _, hget, h⟩
  · cases hget
  obtain ⟨rfl, rfl⟩ := Pass.get_eq_ok.1 hget
  rcases Pass.bind_eq_error.1 h with hlift | ⟨_, _, hlift, h⟩
  · exact (Pass.lift_eq_error.1 hlift).2
  obtain ⟨-, rfl⟩ := Pass.lift_eq_ok.1 hlift
  rcases Pass.bind_eq_error.1 h with hlift | ⟨_, _, hlift, h⟩
  · exact (Pass.lift_eq_error.1 hlift).2
  obtain ⟨-, rfl⟩ := Pass.lift_eq_ok.1 hlift
  rcases Pass.bind_eq_error.1 h with hset | ⟨_, _, -, h⟩
  · cases hset
  · cases h

theorem leads_cleanMerges : Leads Cleans cleanMerges := by
  refine Leads.intro (fun w summary w' h => ?_) fun w e w' h => ?_
  · exact keeps_cleanScript.leads_run.of_ok (run_cleanScript h)
  · rw [cleanMerges_eq_error h]
    exact Std.Refl.refl w'

end Destack.Ssa
