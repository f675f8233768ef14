import Destack.Graph.Basic
import Destack.Statistics

/-!
# Passes

A pass is a computation that changes a state as it goes and may be refused. A refused pass leaves the state as it was
when the cause was found, not as it was at the start. The passes that follow the flow analysis all work on the
graph of a method and on the statistics of the session.
-/

namespace Destack

/-- A computation on a state that keeps its changes when it fails. -/
abbrev Pass (σ : Type) := EStateM Error σ

namespace Pass

/-- Continues with a result that was computed without the state. -/
def lift {σ α : Type} : Except Error α → Pass σ α
  | .ok a => pure a
  | .error e => throw e

/-- Runs a pass on a larger state, of which the given state is a part. -/
def focus {σ τ α : Type} (enlarge : σ → τ) (restrict : τ → σ) (p : Pass τ α) : Pass σ (α × τ) := fun s =>
  match p (enlarge s) with
  | .ok a t => .ok (a, t) (restrict t)
  | .error e t => .error e (restrict t)

end Pass

/-- What the passes over a method change. -/
structure Work where
  graph : Graph := Graph.empty
  stats : Statistics := {}

end Destack
