import Destack.Proofs.Ssa.Elision
import Destack.Proofs.Stages

/-!
# Definitions come before uses

In the graph of a method whose merges were cleaned up, what an operand is read as is listed in exactly one place. That
place comes before the use: earlier in the same block, or in a block that strictly dominates it. An argument of a merge
is used at the end of the predecessor that it belongs to.
-/

namespace Destack.Ssa

/-- The node at a position of a block's list. -/
def nodeAt? (g : Graph) (place : BlockId × Nat) : Option NodeId :=
  (nodesOf g place.1)[place.2]?

/-- Every operand is read as a node that is listed once, before its use. -/
structure Strict (g : Graph) : Prop where
  listed_once : ∀ {b : BlockId} {i : Nat} {id : NodeId}, nodeAt? g (b, i) = some id →
    ∃ node, g.node? id = some node ∧ ∀ o ∈ node.op.operands, ∃! place, nodeAt? g place = some (g.resolve o)
  operand_before : ∀ {b : BlockId} {i : Nat} {id : NodeId} {node : Node}, nodeAt? g (b, i) = some id →
    g.node? id = some node → node.op.isMerge = false → ∀ o ∈ node.op.operands,
    (∃ j < i, nodeAt? g (b, j) = some (g.resolve o)) ∨
      ∃ a j, g.Dominates a b ∧ a ≠ b ∧ nodeAt? g (a, j) = some (g.resolve o)
  argument_before : ∀ {b : BlockId} {i : Nat} {id : NodeId} {slot : Slot} {args : List NodeId},
    nodeAt? g (b, i) = some id → g.merge? id = some (slot, args) →
    args.length = (g.preds b).length ∧ ∀ {k : Nat} {o : NodeId} {p : BlockId}, args[k]? = some o →
      (g.preds b)[k]? = some p → ∃ a j, g.Dominates a p ∧ nodeAt? g (a, j) = some (g.resolve o)

theorem exists_nodeAt? {g : Graph} {b : BlockId} {id : NodeId} (h : id ∈ nodesOf g b) :
    ∃ i, nodeAt? g (b, i) = some id :=
  List.mem_iff_getElem?.1 h

theorem mem_of_nodeAt? {g : Graph} {place : BlockId × Nat} {id : NodeId} (h : nodeAt? g place = some id) :
    id ∈ nodesOf g place.1 :=
  List.mem_of_getElem? h

section Elided

variable {c : Context} {frameSize : Nat} {g g' : Graph} {seg : BlockId → Segment} {b : BlockId} {id : NodeId}

/-- Lists of nodes are in ascending order. -/
theorem Elided.lt_iff (he : Elided g g') (h : Form c frameSize g seg) {i j : Nat} {x y : NodeId}
    (hx : nodeAt? g' (b, i) = some x) (hy : nodeAt? g' (b, j) = some y) : x < y ↔ i < j := by
  have hb := Form.hasBlock_of_mem_nodesOf (he.mem_nodesOf_iff.1 (mem_of_nodeAt? hx)).1
  have hsorted : (nodesOf g' b).Pairwise (· < ·) := by
    rw [he.nodesOf_eq, h.nodesOf_eq hb]
    exact List.Pairwise.filter _ List.pairwise_lt_range'
  obtain ⟨hi, rfl⟩ := List.getElem?_eq_some_iff.1 hx
  obtain ⟨hj, rfl⟩ := List.getElem?_eq_some_iff.1 hy
  rw [List.pairwise_iff_getElem] at hsorted
  constructor
  · intro hlt
    by_contra hle
    rcases Nat.lt_or_eq_of_le (Nat.le_of_not_lt hle) with hji | rfl
    · exact absurd (hsorted j i hj hi hji) (Nat.lt_asymm hlt)
    · exact absurd hlt (Nat.lt_irrefl _)
  · exact hsorted i j hi hj

theorem Elided.place_unique (he : Elided g g') (h : Form c frameSize g seg) {place place' : BlockId × Nat}
    (hplace : nodeAt? g' place = some id) (hplace' : nodeAt? g' place' = some id) : place = place' := by
  obtain ⟨a, i⟩ := place
  obtain ⟨b, j⟩ := place'
  have ha := (he.mem_nodesOf_iff.1 (mem_of_nodeAt? hplace)).1
  obtain rfl := h.block_unique ha (he.mem_nodesOf_iff.1 (mem_of_nodeAt? hplace')).1
  have hij := mt (he.lt_iff h hplace hplace').2 (lt_irrefl id)
  have hji := mt (he.lt_iff h hplace' hplace).2 (lt_irrefl id)
  rw [Nat.le_antisymm (Nat.le_of_not_lt hji) (Nat.le_of_not_lt hij)]

/-- What an available node is read as stands in a list. -/
theorem Elided.exists_nodeAt? (he : Elided g g') (h : Form c frameSize g seg) {o : NodeId} (ho : Available g b o) :
    ∃ a i, g'.Dominates a b ∧ nodeAt? g' (a, i) = some (g'.resolve o) := by
  obtain ⟨a, ha, hdom⟩ := he.available_resolve h ho
  have hlisted := he.mem_nodesOf_iff.2 ⟨ha, isAliased_resolve (he.falling h) o⟩
  obtain ⟨i, hi⟩ := Ssa.exists_nodeAt? hlisted
  exact ⟨a, i, he.dominates_iff.2 hdom, hi⟩

theorem Elided.strict (he : Elided g g') (h : Form c frameSize g seg) (hentry : g.hasBlock Graph.entry = true) :
    Strict g' := by
  have hargument : ∀ {b : BlockId} {i : Nat} {id : NodeId} {slot : Slot} {args : List NodeId},
      nodeAt? g' (b, i) = some id → g'.merge? id = some (slot, args) →
      args.length = (g'.preds b).length ∧ ∀ {k : Nat} {o : NodeId} {p : BlockId}, args[k]? = some o →
        (g'.preds b)[k]? = some p → Available g p o := by
    intro b i id slot args hid hmerge
    rw [he.merge?_eq] at hmerge
    rw [he.preds_eq]
    have hid : id ∈ g.mergesOf b :=
      mem_mergesOf.2 ⟨(he.mem_nodesOf_iff.1 (mem_of_nodeAt? hid)).1, by rw [hmerge]; rfl⟩
    obtain ⟨slot', args', hmerge', hlength, -⟩ := h.exists_merge hid
    cases hmerge.symm.trans hmerge'
    exact ⟨hlength, fun ho hp => h.argument_available hentry hid hmerge ho hp⟩
  have hoperand : ∀ {b : BlockId} {i : Nat} {id o : NodeId} {node : Node}, nodeAt? g' (b, i) = some id →
      g'.node? id = some node → node.op.isMerge = false → o ∈ node.op.operands → Available g b o ∧ o < id := by
    intro b i id o node hid hnode hmerge ho
    rw [he.node?_eq] at hnode
    exact h.operand_available hentry (he.mem_nodesOf_iff.1 (mem_of_nodeAt? hid)).1 hnode hmerge ho
  refine ⟨?_, ?_, ?_⟩
  · intro b i id hid
    obtain ⟨j, cell, -, -, hnode⟩ := h.exists_cell (he.mem_nodesOf_iff.1 (mem_of_nodeAt? hid)).1
    rw [← he.node?_eq] at hnode
    refine ⟨_, hnode, fun o ho => ?_⟩
    have havailable : ∃ b, Available g b o := by
      cases hop : cell.2 with
      | merge slot args =>
        have hmerge : g'.merge? id = some (slot, args) := by
          rw [Graph.merge?, hnode]
          exact congrArg Op.merge? hop
        change o ∈ cell.2.operands at ho
        rw [hop] at ho
        obtain ⟨hlength, hargs⟩ := hargument hid hmerge
        obtain ⟨k, hk⟩ := List.mem_iff_getElem?.1 ho
        obtain ⟨hlt, -⟩ := List.getElem?_eq_some_iff.1 hk
        exact ⟨_, hargs hk (List.getElem?_eq_getElem (hlength ▸ hlt))⟩
      | _ => exact ⟨b, (hoperand hid hnode (by change cell.2.isMerge = false; rw [hop]; rfl) ho).1⟩
    obtain ⟨b', havailable⟩ := havailable
    obtain ⟨a, j, -, hplace⟩ := he.exists_nodeAt? h havailable
    exact ⟨(a, j), hplace, fun place hplace' => he.place_unique h hplace' hplace⟩
  · intro b i id node hid hnode hmerge o ho
    obtain ⟨havailable, hlt⟩ := hoperand hid hnode hmerge ho
    obtain ⟨a, j, hdom, hplace⟩ := he.exists_nodeAt? h havailable
    by_cases hab : a = b
    · subst hab
      refine Or.inl ⟨j, (he.lt_iff h hplace hid).1 ?_, hplace⟩
      exact (resolve_le (he.falling h) o).trans_lt hlt
    · exact Or.inr ⟨a, j, hdom, hab, hplace⟩
  · intro b i id slot args hid hmerge
    obtain ⟨hlength, hargs⟩ := hargument hid hmerge
    exact ⟨hlength, fun ho hp => he.exists_nodeAt? h (hargs ho hp)⟩

end Elided

/-- The nodes of a compilation that ends well are prepared when its merges are patched, and then merges are elided. -/
theorem exists_elided {st : Stages} {table : OperandTable} {pool : ConstantPool} {m : Method} {labelPrefix : String}
    {c : Compiled} (hst : st.Succeed table pool m labelPrefix c) :
    ∃ type addr seg, MethodType.ofDescriptor m.descriptor = .ok type ∧
      Prepared ⟨pool, m.isStatic, type⟩ (frameSize m type) st.code addr (patched st.built.graph) seg ∧
      Elided (patched st.built.graph) st.cleaned.graph := by
  obtain ⟨type, addr, seg, htype, hprepared⟩ := prepared_patched hst.decode hst.layout hst.analyze hst.build
  obtain ⟨summary, w, hclean, helided⟩ := elided_cleaned hprepared
  cases hst.clean.symm.trans hclean
  exact ⟨type, addr, seg, htype, hprepared, helided⟩

/-- The blocks that the analysis leaves keep their text up to the lowering. -/
theorem keeps_text_cleaned {st : Stages} {table : OperandTable} {pool : ConstantPool} {m : Method}
    {labelPrefix : String} {c : Compiled} (hst : st.Succeed table pool m labelPrefix c) :
    Graph.Keeps Graph.textOf st.analysed st.cleaned.graph := by
  obtain ⟨_, _, _, -, -, -, -, hresult⟩ := result_of_build hst.decode hst.layout hst.analyze hst.build
  obtain ⟨_, _, _, -, -, helided⟩ := exists_elided hst
  have hpatched : Graph.Keeps Graph.textOf st.built.graph (patched st.built.graph) := fun b => by rw [block?_patched]
  exact (hresult.keeps.trans hpatched).trans helided.keeps_text

/-- In every method that compiles, definitions come before uses once the merges are cleaned up. -/
theorem operands_defined_before_use {table : OperandTable} {pool : ConstantPool} {m : Method} {labelPrefix : String}
    {c : Compiled} {s s' : Statistics} (h : compile table pool m labelPrefix s = .ok c s') :
    ∃ st : Stages, st.Succeed table pool m labelPrefix c ∧ Strict st.cleaned.graph := by
  obtain ⟨st, hst⟩ := compile_eq_ok h
  obtain ⟨type, addr, seg, -, hprepared⟩ := prepared_patched hst.decode hst.layout hst.analyze hst.build
  obtain ⟨summary, w, hclean, helided⟩ := elided_cleaned hprepared
  cases hst.clean.symm.trans hclean
  exact ⟨st, hst, helided.strict hprepared.form hprepared.entry⟩

/-- In the loop of `sumTo` definitions come before uses. -/
theorem sumTo_operands_defined_before_use :
    ∃ (c : Compiled) (s : Statistics), compile .standard .empty sumTo "Sum_upTo" {} = .ok c s ∧
      ∃ st : Stages, st.Succeed .standard .empty sumTo "Sum_upTo" c ∧ Strict st.cleaned.graph := by
  obtain ⟨c, s, hcompile⟩ := exists_of_compiles compiles_sumTo
  exact ⟨c, s, hcompile, operands_defined_before_use hcompile⟩

end Destack.Ssa
