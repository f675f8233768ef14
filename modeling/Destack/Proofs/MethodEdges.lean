import Destack.Proofs.Graph.Edits
import Destack.Proofs.Machine.Runs

/-!
# Edges in the graphs of methods

No stage of a compilation after the analysis touches an edge, so the graph of a compiled method is as consistent as
that of its code (`rooted_compiled`). From there, from the graph of code or from the one without blocks, edges stay
consistent whatever calls follow, and a refused edge leaves no trace.
-/

namespace Destack

open Destack.Graph

theorem rooted_compiled {table : OperandTable} {pool : ConstantPool} {m : Method} {labelPrefix : String} {c : Compiled}
    {s s' : Statistics} (h : compile table pool m labelPrefix s = .ok c s') : Rooted c.graph := by
  obtain ⟨st, hst⟩ := compile_eq_ok h
  obtain ⟨piece, fresh, s₀, hlast⟩ := Machine.exists_lastStage hst
  have hanalysed := (rooted_ofInstructions hst.layout).1.analyze hst.analyze
  rw [hst.graph_eq]
  exact hanalysed.of_keeps ((Ssa.keeps_text_cleaned hst).trans hlast.finished.nodes.textOf)

/-- Graphs that a program can hold: those that calls start from, and those of compiled methods. -/
inductive Held : Graph → Prop where
  | origin {g : Graph} : Origin g → Held g
  | compiled {table : OperandTable} {pool : ConstantPool} {m : Method} {labelPrefix : String} {c : Compiled}
      {s s' : Statistics} : compile table pool m labelPrefix s = .ok c s' → Held c.graph

theorem Held.rootable {g : Graph} (h : Held g) : Rootable g := by
  cases h with
  | origin hg => exact hg.rootable
  | compiled hc => exact (rooted_compiled hc).rootable

/-- Successors and predecessors agree after any calls that add blocks and edges, none of them to the entry, and analyse
the graph. An edge that is refused leaves the graph as it was. -/
theorem edges_stay_consistent {g : Graph} (h : Held g) {edits : List Edit} (hprune : .prune ∉ edits)
    (hentry : g.SparesEntry edits) :
    Linked (g.after edits) ∧ ∀ source target e g', edge source target (g.after edits) = .error e g' →
      g' = g.after edits ∧ ((g.after edits).hasBlock source = false ∨ (g.after edits).hasBlock target = false) :=
  ⟨(h.rootable.after hprune hentry).linked, fun _ _ _ _ => edge_eq_error⟩

/-- A graph that is put together, analysed and put together further, and one that is taken up after its compilation. -/
theorem edges_stay_consistent_later_on :
    Linked (Graph.empty.after [.addBlock, .addBlock, .addBlock, .addEdge 0 1, .addEdge 1 1, .addEdge 2 1, .addEdge 7 1,
      .analyze, .addBlock, .addEdge 1 2, .analyze]) ∧
    ∃ c s, compile .standard .empty sumTo "Sum_upTo" {} = .ok c s ∧
      Linked (c.graph.after [.addBlock, .addEdge 0 1, .analyze]) := by
  constructor
  · refine (edges_stay_consistent (.origin .empty) (by decide) (sparesEntry_of_not_mem fun source => ?_)).1
    simp [entry]
  · obtain ⟨c, s, hc⟩ := exists_of_compiles compiles_sumTo
    refine ⟨c, s, hc, (edges_stay_consistent (.compiled hc) (by decide) (sparesEntry_of_not_mem fun source => ?_)).1⟩
    simp [entry]

end Destack
