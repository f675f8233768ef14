import Destack.Proofs.Ssa.Evaluation
import Destack.Proofs.Ssa.Frames

/-!
# Running cells

A block whose nodes are numbered one after the other runs like the list of its cells (`runNodes_eq_runCells`), in
parts: merges are passed over, plain cells are evaluated, and a control cell says where to go on.
-/

namespace Destack.Ssa

/-- Neither a merge nor in control. -/
def Cell.IsPlain (cell : Cell) : Prop :=
  cell.2.isMerge = false ∧ cell.2.isControl = false

variable (W : World) (read : Reader W) (inputs : Inputs W.Value)

/-- Runs cells numbered from a number on. -/
def runCells : NodeId → List Cell → Env W → Exec W (Env W × BlockId)
  | _, [], _ => throw .stuck
  | n, cell :: cells, ρ =>
    if cell.2.isMerge then runCells (n + 1) cells ρ
    else if cell.2.isControl then do return (ρ, ← follow W (read ρ) cell.2)
    else do runCells (n + 1) cells (ρ.set n (← eval W inputs (read ρ) cell.2))

/-- Evaluates plain cells numbered from a number on. -/
def evalCells : NodeId → List Cell → Env W → Exec W (Env W)
  | _, [], ρ => pure ρ
  | n, cell :: cells, ρ => do evalCells (n + 1) cells (ρ.set n (← eval W inputs (read ρ) cell.2))

variable {W read inputs}

theorem runNodes_eq_runCells {g : Graph} {b : BlockId} {n : NodeId} {cells : List Cell}
    (h : ∀ {k : Nat} {cell : Cell}, cells[k]? = some cell → g.node? (n + k) = some (cell.nodeIn b)) (ρ : Env W) :
    runNodes W read g inputs (List.range' n cells.length) ρ = runCells W read inputs n cells ρ := by
  induction cells generalizing n ρ with
  | nil => rfl
  | cons cell cells ih =>
    have hfirst : g.node? n = some (cell.nodeIn b) := h (k := 0) rfl
    have hrest : ∀ {k : Nat} {cell : Cell}, cells[k]? = some cell → g.node? (n + 1 + k) = some (cell.nodeIn b) := by
      intro k cell hk
      rw [Nat.add_assoc, Nat.add_comm 1]
      exact h (k := k + 1) hk
    simp only [List.length_cons, List.range'_succ, runNodes, runCells, hfirst, ih hrest]
    rfl

theorem runCells_of_isMerge {n : NodeId} {cells rest : List Cell} (h : ∀ cell ∈ cells, cell.2.isMerge = true)
    (ρ : Env W) :
    runCells W read inputs n (cells ++ rest) ρ = runCells W read inputs (n + cells.length) rest ρ := by
  induction cells generalizing n with
  | nil => rfl
  | cons cell cells ih =>
    have hfirst := h cell (by simp)
    rw [List.cons_append, runCells, if_pos hfirst, ih fun c hc => h c (by simp [hc]), List.length_cons, Nat.add_assoc,
      Nat.add_comm 1]

theorem runCells_of_isPlain {n : NodeId} {cells rest : List Cell} (h : ∀ cell ∈ cells, cell.IsPlain) (ρ : Env W) :
    runCells W read inputs n (cells ++ rest) ρ =
      evalCells W read inputs n cells ρ >>= runCells W read inputs (n + cells.length) rest := by
  induction cells generalizing n ρ with
  | nil => simp [evalCells]
  | cons cell cells ih =>
    obtain ⟨hmerge, hcontrol⟩ := h cell (by simp)
    rw [List.cons_append, runCells, evalCells, hmerge, hcontrol, bind_assoc]
    refine bind_congr fun v => ?_
    rw [ih fun c hc => h c (by simp [hc]), List.length_cons, Nat.add_assoc, Nat.add_comm 1]

theorem evalCells_append (n : NodeId) (cells rest : List Cell) (ρ : Env W) :
    evalCells W read inputs n (cells ++ rest) ρ =
      evalCells W read inputs n cells ρ >>= evalCells W read inputs (n + cells.length) rest := by
  induction cells generalizing n ρ with
  | nil => simp [evalCells]
  | cons cell cells ih =>
    simp only [List.cons_append, evalCells, bind_assoc, ih, List.length_cons, Nat.add_assoc, Nat.add_comm 1]

/-- A control cell leads to one of its targets. -/
theorem follow_mem_targets {get : NodeId → Option W.Value} {op : Op} :
    Exec.Yields (fun t => t ∈ op.targets) (follow W get op) := by
  cases op with
  | branch condition lhs rhs taken fallthrough =>
    exact .of_bind fun l => .of_bind fun r => .pure (W.choose_mem condition l r taken fallthrough)
  | goto target => exact .pure List.mem_cons_self
  | switch value default cases =>
    exact .of_bind fun v => .pure (W.select_mem v default cases)
  | ret value =>
    cases value with
    | none => exact .throw _
    | some value => exact .of_bind fun v => .throw _
  | raise value => exact .of_bind fun v => .throw _
  | _ => exact .throw _

/-- A run of cells goes on at a target of one of them. -/
theorem runCells_mem_targets {n : NodeId} {cells : List Cell} {ρ : Env W} :
    Exec.Yields (fun r => ∃ cell ∈ cells, r.2 ∈ cell.2.targets) (runCells W read inputs n cells ρ) := by
  induction cells generalizing n ρ with
  | nil => exact .throw _
  | cons cell cells ih =>
    have hlift : ∀ m ρ', Exec.Yields (fun r => ∃ c ∈ cell :: cells, r.2 ∈ c.2.targets)
        (runCells W read inputs m cells ρ') :=
      fun m ρ' => ih.mono fun r ⟨c, hc, ht⟩ => ⟨c, List.mem_cons_of_mem _ hc, ht⟩
    unfold runCells
    split
    · exact hlift _ _
    · split
      · exact follow_mem_targets.bind fun t ht => .pure ⟨cell, List.mem_cons_self, ht⟩
      · exact .of_bind fun v => hlift _ _

end Destack.Ssa
