import Destack.Proofs.Ssa.Elision
import Destack.Proofs.Ssa.Progress
import Destack.Proofs.Ssa.Runs

/-!
# Runs without the elided merges

A merge that was elided still has, as long as it can be read, the value of the node that it is read as: that node is
listed in a block that strictly dominates the merge's own one, so it does not run again before the merge does
(`Faithful`). With the elided merges dropped and operands read through the aliases, nodes run as they did before.
-/

namespace Destack.Ssa

section Before

variable (W : World) (read : Reader W) (g : Graph) (inputs : Inputs W.Value)

/-- Runs listed nodes, merges apart, none of which is in control. -/
def evalNodes : List NodeId → Env W → Exec W (Env W)
  | [], ρ => pure ρ
  | id :: ids, ρ =>
    match g.node? id with
    | none => throw .stuck
    | some node =>
      if node.op.isMerge then evalNodes ids ρ
      else do evalNodes ids (ρ.set id (← eval W inputs (read ρ) node.op))

end Before

section Nodes

variable {W : World} {inputs : Inputs W.Value} {get get' : NodeId → Option W.Value} {op : Op}

theorem mapM_congr {ids : List NodeId} (h : ∀ id ∈ ids, get' id = get id) : ids.mapM get' = ids.mapM get := by
  induction ids with
  | nil => rfl
  | cons id ids ih =>
    rw [List.mapM_cons, List.mapM_cons, h id List.mem_cons_self, ih fun k hk => h k (List.mem_cons_of_mem _ hk)]

/-- A node depends on the values of its operands only. -/
theorem eval_congr (h : ∀ o ∈ op.operands, get' o = get o) : eval W inputs get' op = eval W inputs get op := by
  cases op with
  | call kind method args =>
    have hargs : args.mapM get' = args.mapM get := mapM_congr h
    simp only [eval, hargs]
  | _ => simp_all [eval, Op.operands]

theorem follow_congr (h : ∀ o ∈ op.operands, get' o = get o) : follow W get' op = follow W get op := by
  cases op with
  | ret value => cases value <;> simp_all [follow, Op.operands]
  | _ => simp_all [follow, Op.operands]

end Nodes

/-! ## Values of elided merges -/

variable {c : Context} {frameSize : Nat} {g g' : Graph} {seg : BlockId → Segment} {a b t : BlockId} {id o : NodeId}
  {W : World} {inputs : Inputs W.Value} {ρ σ : Env W}

/-- What an elided merge is read as is not listed in a block that the merge's own one dominates. -/
theorem Redirected.resolve_not_mem (hr : Redirected g g') (h : Form c frameSize g seg)
    (hid : g'.isAliased id = true) (ha : id ∈ nodesOf g a) (hdom : g.Dominates a b) :
    g'.resolve id ∉ nodesOf g b := by
  intro hb
  obtain ⟨t, ht⟩ := isAliased_iff.1 hid
  obtain ⟨a', k, hmerge, hlisted, hdom', hne⟩ := hr.target ht
  obtain rfl := h.block_unique ha (mem_mergesOf.1 hmerge).1
  rw [resolve_of_alias (hr.falling h) ht] at hb
  obtain ⟨k, hk, hdom''⟩ := hr.available_resolve h ⟨a', hlisted, .refl g a'⟩
  obtain rfl := h.block_unique hk hb
  -- The three blocks dominate each other in a circle.
  have hreach := h.reaches (Form.hasBlock_of_mem_nodesOf hlisted)
  exact hne (hdom'.antisymm hreach (hdom.trans hdom''))

/-- Elided merges that can be read in a block have the values of the nodes that they are read as. -/
def Faithful (g g' : Graph) (b : BlockId) (ρ : Env W) : Prop :=
  ∀ id a, g'.isAliased id = true → id ∈ nodesOf g a → g.Dominates a b → ρ id = ρ (g'.resolve id)

/-- Two environments have the same values for nodes that were not elided, and in the first one elided merges have the
values of the nodes that they are read as. -/
structure Alike (g g' : Graph) (b : BlockId) (ρ σ : Env W) : Prop where
  faithful : Faithful g g' b ρ
  same : ∀ id, g'.isAliased id = false → σ id = ρ id

section Faithful

theorem Faithful.read (hf : Faithful g g' b ρ) (hr : Redirected g g') (h : Form c frameSize g seg)
    (ho : Available g b o) : ρ o = ρ (g'.resolve o) := by
  obtain ⟨a, ha, hdom⟩ := ho
  cases halias : g'.isAliased o with
  | true => exact hf o a halias ha hdom
  | false => rw [resolve_eq_self (hr.falling h) halias]

theorem Faithful.set (hf : Faithful g g' b ρ) (hr : Redirected g g') (h : Form c frameSize g seg)
    (hid : id ∈ nodesOf g b) (halias : g'.isAliased id = false) (v : W.Value) : Faithful g g' b (ρ.set id v) := by
  intro k a hk ha hdom
  have hne : k ≠ id := by
    rintro rfl
    cases halias.symm.trans hk
  have hne' : g'.resolve k ≠ id := fun e => hr.resolve_not_mem h hk ha hdom (e ▸ hid)
  rw [Env.set_of_ne _ _ hne, Env.set_of_ne _ _ hne']
  exact hf k a hk ha hdom

theorem merged_of_not_mem {read : Reader W} {p : Point W} (h : id ∉ g.mergesOf p.block) :
    p.merged read g id = p.env id :=
  if_neg h

/-- The value that a merge takes over an edge. -/
theorem Form.merged_merge (h : Form c frameSize g seg) (ht : t ∈ g.succs b) (hid : id ∈ g.mergesOf t)
    (read : Reader W) :
    ∃ slot args o, g.merge? id = some (slot, args) ∧ o ∈ args ∧ o ∈ (seg b).exit.ids ∧ g.argFrom? t b id = some o ∧
      (Point.mk (some b) t ρ).merged read g id = read ρ o := by
  obtain ⟨slot, args, hmerge, -, -, hexit⟩ := h.exists_merge hid
  obtain ⟨k, hk⟩ := List.mem_iff_getElem?.1 (h.linked.mem_succs_iff.1 ht)
  obtain ⟨o, ho, hslot⟩ := hexit hk
  have harg : g.argFrom? t b id = some o := by simp [Graph.argFrom?, hmerge, h.linked.idxOf?_preds hk, ho]
  refine ⟨slot, args, o, hmerge, List.mem_of_getElem? ho, Frame.mem_ids_iff.2 ⟨slot, hslot⟩, harg, ?_⟩
  exact (if_pos hid).trans (by simp [harg])

theorem Faithful.merged (hf : Faithful g g' b ρ) (hr : Redirected g g') (h : Form c frameSize g seg)
    (hentry : g.hasBlock Graph.entry = true) (ht : t ∈ g.succs b) :
    Faithful g g' t ((Point.mk (some b) t ρ).merged direct g) := by
  intro id a hid ha hdom
  have hresolve : (Point.mk (some b) t ρ).merged direct g (g'.resolve id) = ρ (g'.resolve id) :=
    merged_of_not_mem fun hmem => hr.resolve_not_mem h hid ha hdom (mem_mergesOf.1 hmem).1
  rw [hresolve]
  by_cases hat : a = t
  · subst hat
    obtain ⟨k, hk⟩ := isAliased_iff.1 hid
    obtain ⟨-, a', hmerge, -⟩ := hr.target hk
    obtain rfl := h.block_unique ha (mem_mergesOf.1 hmerge).1
    obtain ⟨slot, args, o, hargs, ho, hexit, -, hmerged⟩ := h.merged_merge ht hmerge direct
    have hb := h.linked.hasBlock_source ht
    calc
      _ = ρ o := hmerged
      _ = ρ (g'.resolve o) := hf.read hr h (h.available_exit hentry hb hexit)
      _ = ρ (g'.resolve id) := by rw [hr.arguments hid hargs o ho]
  · rw [merged_of_not_mem fun hmem => hat (h.block_unique ha (mem_mergesOf.1 hmem).1)]
    exact hf id a hid ha (hdom.pred hat ht)

theorem Alike.read (ha : Alike g g' b ρ σ) (hr : Redirected g g') (h : Form c frameSize g seg)
    (ho : Available g b o) : g'.read σ o = ρ o := by
  rw [Graph.read, ha.same _ (isAliased_resolve (hr.falling h) o), ha.faithful.read hr h ho]

theorem Alike.set (ha : Alike g g' b ρ σ) (hr : Redirected g g') (h : Form c frameSize g seg)
    (hid : id ∈ nodesOf g b) (halias : g'.isAliased id = false) (v : W.Value) :
    Alike g g' b (ρ.set id v) (σ.set id v) := by
  refine ⟨ha.faithful.set hr h hid halias v, fun k hk => ?_⟩
  unfold Env.set
  split
  · rfl
  · exact ha.same k hk

/-- An edge hands the same values over in both runs. -/
theorem Elided.alike_merged (he : Elided g g') (h : Form c frameSize g seg) (hentry : g.hasBlock Graph.entry = true)
    (ha : Alike g g' b ρ σ) (ht : t ∈ g.succs b) :
    Alike g g' t ((Point.mk (some b) t ρ).merged direct g) ((Point.mk (some b) t σ).merged g'.read g') := by
  refine ⟨ha.faithful.merged he.toRedirected h hentry ht, fun id hid => ?_⟩
  by_cases hmem : id ∈ g.mergesOf t
  · obtain ⟨slot, args, o, -, -, hexit, harg, hmerged⟩ := h.merged_merge ht hmem direct
    have harg' : g'.argFrom? t b id = some o := by
      rw [← harg, Graph.argFrom?, Graph.argFrom?, he.merge?_eq, he.preds_eq]
    have havailable := h.available_exit hentry (h.linked.hasBlock_source ht) hexit
    calc
      _ = g'.read σ o := (if_pos (he.mem_mergesOf_iff.2 ⟨hmem, hid⟩)).trans (by simp [harg'])
      _ = ρ o := ha.read he.toRedirected h havailable
      _ = _ := hmerged.symm
  · have hmem' : id ∉ g'.mergesOf t := fun hmem' => hmem (he.mem_mergesOf_iff.1 hmem').1
    have hold : (Point.mk (some b) t ρ).merged direct g id = ρ id := merged_of_not_mem hmem
    rw [hold]
    exact (merged_of_not_mem hmem').trans (ha.same id hid)

end Faithful

/-! ## Blocks -/

/-- Cells of a block do the same with both ways to look operands up. -/
theorem Redirected.runCells_refines (hr : Redirected g g') (h : Form c frameSize g seg)
    (hentry : g.hasBlock Graph.entry = true) {n : NodeId} {cells : List Cell}
    (hcells : ∀ {k : Nat} {cell : Cell}, cells[k]? = some cell →
      n + k ∈ nodesOf g b ∧ g.node? (n + k) = some (cell.nodeIn b) ∧ cell.2.isMerge = false)
    (ha : Alike g g' b ρ σ) :
    Exec.Refines (fun r r' => r'.2 = r.2 ∧ Alike g g' b r.1 r'.1) (runCells W direct inputs n cells ρ)
      (runCells W g'.read inputs n cells σ) := by
  induction cells generalizing n ρ σ with
  | nil => exact .stuck
  | cons cell cells ih =>
    obtain ⟨hlisted, hnode, hmerge⟩ := @hcells 0 cell rfl
    rw [Nat.add_zero] at hlisted hnode
    have hread : ∀ o ∈ cell.2.operands, g'.read σ o = direct ρ o := fun o ho =>
      ha.read hr h (h.operand_available hentry hlisted hnode hmerge ho).1
    have halias := hr.isAliased_eq_false hnode hmerge
    rw [runCells, runCells, hmerge]
    cases hcontrol : cell.2.isControl with
    | true =>
      simp only [Bool.false_eq_true, if_false, if_true]
      rw [follow_congr hread]
      exact .bind (.refl _) fun next next' hnext => .pure ⟨hnext.symm, ha⟩
    | false =>
      simp only [Bool.false_eq_true, if_false]
      rw [eval_congr hread]
      refine .bind (.refl _) ?_
      rintro v _ rfl
      refine ih (fun {k cell'} hk => ?_) (ha.set hr h hlisted halias v)
      rw [Nat.add_assoc, Nat.add_comm 1]
      exact @hcells (k + 1) cell' hk

theorem runNodes_filter {read : Reader W} {ids : List NodeId} {gone : NodeId → Bool}
    (h : ∀ id ∈ ids, gone id = true → (g.merge? id).isSome = true) (ρ : Env W) :
    runNodes W read g inputs (ids.filter fun id => !gone id) ρ = runNodes W read g inputs ids ρ := by
  induction ids generalizing ρ with
  | nil => rfl
  | cons id ids ih =>
    have ih := @ih fun k hk => h k (List.mem_cons_of_mem _ hk)
    cases hgone : gone id with
    | false => simp only [List.filter_cons, hgone, Bool.not_false, if_true, runNodes, ih]
    | true =>
      -- A node taken off the list is a merge, and merges are passed over.
      have hmerge := h id List.mem_cons_self hgone
      rw [List.filter_cons, hgone, Bool.not_true, if_neg Bool.false_ne_true, ih]
      cases hnode : g.node? id with
      | none => simp [Graph.merge?, hnode] at hmerge
      | some node =>
        rw [isSome_merge?_iff hnode] at hmerge
        simp only [runNodes, hnode, hmerge, if_true]

theorem Elided.runNodes_eq (he : Elided g g') {read : Reader W} (ids : List NodeId) (ρ : Env W) :
    runNodes W read g' inputs ids ρ = runNodes W read g inputs ids ρ := by
  induction ids generalizing ρ with
  | nil => rfl
  | cons id ids ih => simp only [runNodes, he.node?_eq, ih]

/-- Without the elided merges a block runs like the whole list. -/
theorem Elided.runBlock_eq (he : Elided g g') (read : Reader W) (b : BlockId) (ρ : Env W) :
    runBlock W read g' inputs b ρ = runBlock W read g inputs b ρ := by
  unfold runBlock
  rw [he.block?_eq]
  cases g.block? b with
  | none => rfl
  | some block =>
    simp only [Option.map_some, Exec.need_some, pure_bind, he.runNodes_eq, trimmed, Array.toList_filter]
    apply runNodes_filter
    intro id _ halias
    obtain ⟨k, hk⟩ := isAliased_iff.1 halias
    obtain ⟨_, _, hmem, -⟩ := he.target hk
    exact (mem_mergesOf.1 hmem).2

/-! ## Steps from block to block -/

/-- Two runs leave the same block for the same successor, or both are at the start. -/
inductive Parallel (g g' : Graph) : Point W → Point W → Prop where
  | start : Parallel g g' (Point.start W) (Point.start W)
  | edge {b t : BlockId} {ρ σ : Env W} : t ∈ g.succs b → Alike g g' b ρ σ →
    Parallel g g' ⟨some b, t, ρ⟩ ⟨some b, t, σ⟩

theorem merged_start (read : Reader W) (g : Graph) : (Point.start W).merged read g = Env.empty := by
  funext id
  unfold Point.merged
  split <;> rfl

theorem Form.cell_facts (h : Form c frameSize g seg) (hb : g.hasBlock b = true) {k : Nat} {cell : Cell}
    (hcell : (seg b).cells[k]? = some cell) :
    (seg b).first + k ∈ nodesOf g b ∧ g.node? ((seg b).first + k) = some (cell.nodeIn b) := by
  refine ⟨(h.mem_nodesOf_iff hb).2 ⟨Nat.le_add_right _ _, ?_⟩, h.table hb hcell⟩
  exact Nat.add_lt_add_left (List.getElem?_eq_some_iff.1 hcell).1 _

/-- The cells after those in front. -/
theorem Form.rest_facts (h : Form c frameSize g seg) (hb : g.hasBlock b = true) {k : Nat} {cell : Cell}
    (hcell : ((seg b).body ++ (seg b).tail)[k]? = some cell) :
    (seg b).first + (seg b).heads.length + k ∈ nodesOf g b ∧
      g.node? ((seg b).first + (seg b).heads.length + k) = some (cell.nodeIn b) ∧ cell.2.isMerge = false := by
  have hplace : (seg b).cells[(seg b).heads.length + k]? = some cell := by
    rw [Segment.cells, List.append_assoc, List.getElem?_append_right (Nat.le_add_right _ _), Nat.add_sub_cancel_left,
      hcell]
  obtain ⟨hlisted, hnode⟩ := h.cell_facts hb hplace
  rw [← Nat.add_assoc] at hlisted hnode
  exact ⟨hlisted, hnode, h.isMerge_rest hb _ (List.mem_of_getElem? hcell)⟩

/-- Cells of a block lead both runs to the same next block. -/
theorem Prepared.leave_refines {code : List Instruction} {addr : BlockId → Nat}
    (h : Prepared c frameSize code addr g seg) (hr : Redirected g g') (hb : g.hasBlock b = true) {n : NodeId}
    {cells : List Cell} (hsub : cells ⊆ (seg b).cells)
    (hcells : ∀ {k : Nat} {cell : Cell}, cells[k]? = some cell →
      n + k ∈ nodesOf g b ∧ g.node? (n + k) = some (cell.nodeIn b) ∧ cell.2.isMerge = false)
    (ha : Alike g g' b ρ σ) :
    Exec.Refines (Parallel g g')
      (do let (ρ', next) ← runCells W direct inputs n cells ρ
          return ⟨some b, next, ρ'⟩)
      (do let (σ', next) ← runCells W g'.read inputs n cells σ
          return ⟨some b, next, σ'⟩) := by
  obtain ⟨block, hblock⟩ := Graph.hasBlock_iff.1 hb
  refine .bind ((hr.runCells_refines h.form h.entry hcells ha).and_left runCells_mem_targets) ?_
  rintro ⟨ρ', next⟩ ⟨σ', next'⟩ ⟨⟨cell, hcell, ht⟩, hnext, ha'⟩
  obtain rfl : next' = next := hnext
  refine .pure (.edge ?_ ha')
  rw [Graph.succs_eq hblock]
  exact h.form.target_mem_succs h.laid hblock (hsub hcell) ht

/-- A step of a run is a step of the run without the elided merges. -/
theorem Prepared.step_refines {code : List Instruction} {addr : BlockId → Nat}
    (h : Prepared c frameSize code addr g seg) (he : Elided g g') {p q : Point W} (hp : Parallel g g' p q) :
    Exec.Refines (Parallel g g') (step W direct g inputs p) (step W g'.read g' inputs q) := by
  rw [step_eq_runBlock, step_eq_runBlock, he.runBlock_eq]
  cases hp with
  | start =>
    rw [merged_start, merged_start]
    change Exec.Refines _ (runBlock _ _ _ _ Graph.entry _ >>= _) (runBlock _ _ _ _ Graph.entry _ >>= _)
    rw [h.form.runBlock_entry h.entry, h.form.runBlock_entry h.entry]
    refine h.leave_refines he.toRedirected h.entry (List.Subset.refl _) (fun hcell => ?_) ?_
    · obtain ⟨hlisted, hnode⟩ := h.form.cell_facts h.entry hcell
      exact ⟨hlisted, hnode, h.form.isMerge_entry h.entry _ (List.mem_of_getElem? hcell)⟩
    · exact ⟨fun _ _ _ _ _ => rfl, fun _ _ => rfl⟩
  | @edge b t ρ σ ht ha =>
    have hb := h.form.linked.hasBlock_target ht
    change Exec.Refines _ (runBlock _ _ _ _ t _ >>= _) (runBlock _ _ _ _ t _ >>= _)
    rw [h.form.runBlock_of_mem_succs ht, h.form.runBlock_of_mem_succs ht]
    have hcells : (seg t).cells = (seg t).heads ++ ((seg t).body ++ (seg t).tail) := List.append_assoc ..
    refine h.leave_refines he.toRedirected hb ?_ (fun hcell => ?_) (he.alike_merged h.form h.entry ha ht)
    · rw [hcells]
      exact List.subset_append_right _ _
    · exact h.form.rest_facts hb hcell

/-! ## What is read -/

/-- All that a block reads when it is entered has the value of the node that it is read as without the elided merges:
the arguments of its merges, and the operands of each of its other nodes after the nodes before that one. -/
structure ReadsAlike (g g' : Graph) (inputs : Inputs W.Value) (p : Point W) : Prop where
  argument : ∀ {b : BlockId} {id o : NodeId}, p.pred = some b → id ∈ g.mergesOf p.block →
    g.argFrom? p.block b id = some o → ∃ v, p.env o = some v ∧ p.env (g'.resolve o) = some v
  operand : ∀ {front rest : List NodeId} {id o : NodeId} {node : Node}, nodesOf g p.block = front ++ id :: rest →
    g.node? id = some node → node.op.isMerge = false → o ∈ node.op.operands →
    Exec.Yields (fun ρ => ∃ v, ρ o = some v ∧ ρ (g'.resolve o) = some v)
      (evalNodes W g.read g inputs front (p.merged g.read g))

/-- Operands of the cells of a block. -/
theorem Redirected.evalNodes_reads (hr : Redirected g g') (h : Form c frameSize g seg)
    (hentry : g.hasBlock Graph.entry = true) {n : NodeId} {cells : List Cell} {ids : List NodeId}
    (hcells : ∀ {k : Nat} {cell : Cell}, cells[k]? = some cell →
      n + k ∈ nodesOf g b ∧ g.node? (n + k) = some (cell.nodeIn b) ∧ cell.2.isMerge = false)
    (hfed : Fed ids n cells) (hρ : ∀ id ∈ ids, (ρ id).isSome = true) (hf : Faithful g g' b ρ) {k : Nat} {cell : Cell}
    (hcell : cells[k]? = some cell) (ho : o ∈ cell.2.operands) :
    Exec.Yields (fun ρ' => ∃ v, ρ' o = some v ∧ ρ' (g'.resolve o) = some v)
      (evalNodes W direct g inputs (List.range' n k) ρ) := by
  induction cells generalizing n ids ρ k with
  | nil => cases hcell
  | cons first cells ih =>
    cases k with
    | zero =>
      obtain rfl := Option.some.inj hcell
      obtain ⟨hlisted, hnode, hmerge⟩ := @hcells 0 first rfl
      obtain ⟨v, hv⟩ := Option.isSome_iff_exists.1 (hρ o (hfed.1 o ho))
      have hread := hf.read hr h (h.operand_available hentry hlisted hnode hmerge ho).1
      exact .pure ⟨v, hv, hread ▸ hv⟩
    | succ k =>
      obtain ⟨hlisted, hnode, hmerge⟩ := @hcells 0 first rfl
      rw [Nat.add_zero] at hlisted hnode
      have halias := hr.isAliased_eq_false hnode hmerge
      simp only [List.range'_succ, evalNodes, hnode, show (first.nodeIn b).op.isMerge = false from hmerge]
      refine .of_bind fun v => ih (fun {k cell'} hk => ?_) hfed.2 (fun id hid => ?_)
        (hf.set hr h hlisted halias v) hcell
      · rw [Nat.add_assoc, Nat.add_comm 1]
        exact @hcells (k + 1) cell' hk
      · by_cases he : id = n
        · rw [he, Env.set_self]
          rfl
        · rw [Env.set_of_ne _ _ he]
          apply hρ
          split at hid
          · exact (List.mem_cons.1 hid).resolve_left he
          · exact hid

theorem evalNodes_of_isMerge {read : Reader W} {n k : Nat}
    (h : ∀ j < k, ∃ node, g.node? (n + j) = some node ∧ node.op.isMerge = true) (ids : List NodeId) (ρ : Env W) :
    evalNodes W read g inputs (List.range' n k ++ ids) ρ = evalNodes W read g inputs ids ρ := by
  induction k generalizing n with
  | zero => rfl
  | succ k ih =>
    obtain ⟨node, hnode, hmerge⟩ := h 0 (Nat.succ_pos k)
    rw [Nat.add_zero] at hnode
    simp only [List.range'_succ, List.cons_append, evalNodes, hnode, hmerge, if_true]
    apply ih
    intro j hj
    rw [Nat.add_assoc, Nat.add_comm 1]
    exact h (j + 1) (Nat.succ_lt_succ hj)

/-- A node in the list of a block and the nodes before it. -/
theorem Form.split_nodesOf (h : Form c frameSize g seg) {front rest : List NodeId} {node : Node}
    (hlist : nodesOf g b = front ++ id :: rest) (hnode : g.node? id = some node) :
    ∃ k cell, front = List.range' (seg b).first k ∧ id = (seg b).first + k ∧ (seg b).cells[k]? = some cell ∧
      node = cell.nodeIn b := by
  have hlisted : id ∈ nodesOf g b := by simp [hlist]
  obtain ⟨k, cell, rfl, hcell, hnode'⟩ := h.exists_cell hlisted
  rw [h.nodesOf_eq (hasBlock_of_mem_nodesOf hlisted)] at hlist
  obtain ⟨k', -, hfront, hrest⟩ := List.range'_eq_append_iff.1 hlist
  obtain ⟨hid, -⟩ := List.range'_eq_cons_iff.1 hrest.symm
  obtain rfl : k' = k := by
    rw [Nat.mul_one] at hid
    exact Nat.add_left_cancel hid
  exact ⟨k', cell, hfront, rfl, hcell, Option.some.inj (hnode.symm.trans hnode')⟩

section Reads

variable {code : List Instruction} {addr : BlockId → Nat}

theorem Prepared.argument_alike (h : Prepared c frameSize code addr g seg) (hr : Redirected g g') (ht : t ∈ g.succs b)
    (hρ : ∀ id ∈ (g.exitOf b).ids, (ρ id).isSome = true) (hf : Faithful g g' b ρ) (hid : id ∈ g.mergesOf t)
    (harg : g.argFrom? t b id = some o) : ∃ v, ρ o = some v ∧ ρ (g'.resolve o) = some v := by
  have hb := h.form.linked.hasBlock_source ht
  obtain ⟨_, _, o', -, -, hexit, harg', -⟩ := h.form.merged_merge (ρ := ρ) ht hid direct
  obtain rfl := Option.some.inj (harg.symm.trans harg')
  obtain ⟨v, hv⟩ := Option.isSome_iff_exists.1 (hρ o (by rwa [h.form.exitOf_eq hb]))
  have hread := hf.read hr h.form (h.form.available_exit h.entry hb hexit)
  exact ⟨v, hv, hread.symm.trans hv⟩

theorem Prepared.operand_alike_start (h : Prepared c frameSize code addr g seg) (hr : Redirected g g')
    {front rest : List NodeId} {node : Node} (hlist : nodesOf g Graph.entry = front ++ id :: rest)
    (hnode : g.node? id = some node) (ho : o ∈ node.op.operands) :
    Exec.Yields (fun ρ => ∃ v, ρ o = some v ∧ ρ (g'.resolve o) = some v)
      (evalNodes W direct g inputs front ((Point.start W).merged direct g)) := by
  obtain ⟨k, cell, rfl, -, hcell, rfl⟩ := h.form.split_nodesOf hlist hnode
  have hfaithful : Faithful g g' Graph.entry (Env.empty : Env W) := fun _ _ _ _ _ => rfl
  rw [merged_start]
  refine hr.evalNodes_reads h.form h.entry (fun hcell => ?_) (h.form.fed_entry h.entry).1 (by simp) hfaithful hcell ho
  obtain ⟨hlisted, hnode⟩ := h.form.cell_facts h.entry hcell
  exact ⟨hlisted, hnode, h.form.isMerge_entry h.entry _ (List.mem_of_getElem? hcell)⟩

theorem Prepared.operand_alike_edge (h : Prepared c frameSize code addr g seg) (hr : Redirected g g')
    (ht : t ∈ g.succs b) (hρ : ∀ id ∈ (g.exitOf b).ids, (ρ id).isSome = true) (hf : Faithful g g' b ρ)
    {front rest : List NodeId} {node : Node} (hlist : nodesOf g t = front ++ id :: rest)
    (hnode : g.node? id = some node) (hmerge : node.op.isMerge = false) (ho : o ∈ node.op.operands) :
    Exec.Yields (fun ρ => ∃ v, ρ o = some v ∧ ρ (g'.resolve o) = some v)
      (evalNodes W direct g inputs front ((Point.mk (some b) t ρ).merged direct g)) := by
  obtain ⟨k, cell, rfl, -, hcell, rfl⟩ := h.form.split_nodesOf hlist hnode
  have hb := h.form.linked.hasBlock_target ht
  have hne := h.form.ne_entry (h.form.linked.mem_succs_iff.1 ht)
  have hcells : (seg t).cells = (seg t).heads ++ ((seg t).body ++ (seg t).tail) := List.append_assoc ..
  have hmerges : ∀ j < (seg t).heads.length, ∃ node, g.node? ((seg t).first + j) = some node ∧
      node.op.isMerge = true := by
    intro j hj
    have hhead := List.getElem?_eq_getElem hj
    obtain ⟨type, slot, args, heq, -⟩ := h.form.heads hb hne hhead
    have hplace : (seg t).cells[j]? = some (type, .merge slot args) := by
      rw [hcells, List.getElem?_append_left hj, hhead, heq]
    exact ⟨_, h.form.table hb hplace, rfl⟩
  -- The node comes after the merges.
  obtain ⟨j, rfl⟩ : ∃ j, k = (seg t).heads.length + j := by
    refine Nat.exists_eq_add_of_le (Nat.le_of_not_lt fun hlt => ?_)
    obtain ⟨node, hnode', hmerge'⟩ := hmerges k hlt
    cases (h.form.table hb hcell).symm.trans hnode'
    cases hmerge.symm.trans hmerge'
  rw [hcells, List.getElem?_append_right (Nat.le_add_right _ _), Nat.add_sub_cancel_left] at hcell
  rw [← List.range'_append_1, evalNodes_of_isMerge hmerges]
  exact hr.evalNodes_reads h.form h.entry (fun hcell => h.form.rest_facts hb hcell) (h.form.fed hb).1
    (h.form.enter_isSome ht hρ) (hf.merged hr h.form h.entry ht) hcell ho

/-- All that is read in a run has the value of the node that it is read as. -/
theorem Prepared.readsAlike (h : Prepared c frameSize code addr g seg) (hr : Redirected g g') {p q : Point W}
    (hp : Settled g p) (hpq : Parallel g g' p q) : ReadsAlike g g' inputs p := by
  have hread : (g.read : Reader W) = direct := read_of_aliases_empty h.aliases_eq
  cases hpq with
  | start =>
    refine ⟨fun hpred => (nomatch hpred), fun hlist hnode _ ho => ?_⟩
    rw [hread]
    exact h.operand_alike_start hr hlist hnode ho
  | edge ht ha =>
    cases hp with
    | edge _ hρ =>
      refine ⟨fun hpred hid harg => ?_, fun hlist hnode hmerge ho => ?_⟩
      · obtain rfl := Option.some.inj hpred
        exact h.argument_alike hr ht hρ ha.faithful hid harg
      · rw [hread]
        exact h.operand_alike_edge hr ht hρ ha.faithful hlist hnode hmerge ho

end Reads

/-! ## Whole runs -/

/-- Two runs are about to enter the same block from the same one, with the same values of nodes that were not elided. -/
structure Alongside (g' : Graph) (p q : Point W) : Prop where
  pred_eq : q.pred = p.pred
  block_eq : q.block = p.block
  env_eq : ∀ id, g'.isAliased id = false → q.env id = p.env id

theorem Parallel.alongside {p q : Point W} (h : Parallel g g' p q) : Alongside g' p q := by
  cases h with
  | start => exact ⟨rfl, rfl, fun _ _ => rfl⟩
  | edge _ ha => exact ⟨rfl, rfl, ha.same⟩

/-- Eliding merges keeps the meaning of a method that was built. In every world and for all inputs, and after any
number of blocks, all that is read has the value of the node that it is read as, and the nodes without the elided
merges, with operands read through the aliases, have done the same to their surroundings and ended in the same way, or
are about to enter the same block with the same values; neither run is ever stuck. -/
theorem elision_keeps_runs {table : OperandTable} {pool : ConstantPool} {m : Method} {code : List Instruction}
    {laid analysed : Graph} {flow : FlowSummary} {stats : Statistics} {w : Work}
    (hdecode : Instruction.decode table m.code = .ok code) (hlayout : Graph.ofInstructions code = .ok laid)
    (hflow : laid.analyze = .ok (flow, analysed)) (hbuild : build pool m { graph := analysed, stats } = .ok () w) :
    ∃ summary w', cleanMerges w = .ok summary w' ∧ ∀ (W : World) (inputs : Inputs W.Value) (n : Nat),
      let g := patched w.graph
      let g' := w'.graph
      Exec.Yields (ReadsAlike g g' inputs) (run W g.read g inputs n) ∧
        Exec.Agree (Alongside g') (run W g.read g inputs n) (run W g'.read g' inputs n) := by
  obtain ⟨type, addr, seg, -, h⟩ := prepared_patched hdecode hlayout hflow hbuild
  obtain ⟨summary, w', hclean, he⟩ := elided_cleaned h
  refine ⟨summary, w', hclean, fun W inputs n => ?_⟩
  intro g g'
  have hread : (g.read : Reader W) = direct := read_of_aliases_empty h.aliases_eq
  have hsafe : Exec.Safe (Settled g) (run W g.read g inputs n) := by
    rw [hread]
    exact .iterate (fun p hp => h.step_safe hp) n .start
  have hrefines : Exec.Refines (Parallel g g') (run W g.read g inputs n) (run W g'.read g' inputs n) := by
    rw [hread]
    exact .iterate (fun p q hpq => h.step_refines he hpq) n .start
  have hagree := hrefines.agree hsafe
  refine ⟨?_, hagree.mono fun p q hpq => hpq.alongside⟩
  intro events p events' hp
  obtain ⟨q, hpq⟩ := hagree.yields_left events p events' hp
  exact h.readsAlike he.toRedirected (hsafe.yields events p events' hp) hpq

/-! ## A loop that keeps a value -/

/-- Counts the second argument down and returns the first one. -/
def keepFirst : Method where
  owner := "Keep"
  name := "first"
  descriptor := "(II)I"
  isStatic := true
  maxLocals := 2
  code := [
    0x1b, 0x99, 0x00, 0x09,        --  0  load slot 1, leave to 10 if it is zero
    0x84, 0x01, 0xff,              --  4  count slot 1 down
    0xa7, 0xff, 0xf9,              --  7  back to 0
    0x1a, 0xac]                    -- 10  return slot 0

/-- The number of merges elided from a method, if it gets that far. -/
def elidedCount? (table : OperandTable) (pool : ConstantPool) (m : Method) : Option Nat := do
  let code ← (Instruction.decode table m.code).toOption
  let laid ← (Graph.ofInstructions code).toOption
  let (_, analysed) ← laid.analyze.toOption
  match build pool m { graph := analysed, stats := {} } with
  | .ok () w =>
    match cleanMerges w with
    | .ok summary _ => some summary.elided
    | .error .. => none
  | .error .. => none

theorem exists_of_elidedCount? {table : OperandTable} {pool : ConstantPool} {m : Method} {k : Nat}
    (h : elidedCount? table pool m = some k) :
    ∃ code laid flow analysed w summary w', Instruction.decode table m.code = .ok code ∧
      Graph.ofInstructions code = .ok laid ∧ laid.analyze = .ok (flow, analysed) ∧
      build pool m { graph := analysed, stats := {} } = .ok () w ∧ cleanMerges w = .ok summary w' ∧
      summary.elided = k := by
  obtain ⟨code, hcode, h⟩ := Option.bind_eq_some_iff.1 h
  obtain ⟨laid, hlaid, h⟩ := Option.bind_eq_some_iff.1 h
  obtain ⟨⟨flow, analysed⟩, hflow, h⟩ := Option.bind_eq_some_iff.1 h
  dsimp only at h
  split at h
  · next w hbuild =>
    split at h
    · next summary w' hclean =>
      exact ⟨code, laid, flow, analysed, w, summary, w', toOption_eq_some.1 hcode, toOption_eq_some.1 hlaid,
        toOption_eq_some.1 hflow, hbuild, hclean, Option.some.inj h⟩
    · cases h
  · cases h

theorem elidedCount?_keepFirst : elidedCount? .standard .empty keepFirst = some 1 := by
  simp only [elidedCount?, Graph.ofInstructions, Layout.partition_eq]
  decide +kernel

/-- The merge of the first argument of `keepFirst` is elided, and the loop runs as before. -/
theorem keepFirst_elision_keeps_runs :
    ∃ code laid flow analysed w summary w', Instruction.decode .standard keepFirst.code = .ok code ∧
      Graph.ofInstructions code = .ok laid ∧ laid.analyze = .ok (flow, analysed) ∧
      build .empty keepFirst { graph := analysed, stats := {} } = .ok () w ∧ cleanMerges w = .ok summary w' ∧
      summary.elided = 1 ∧ ∀ (W : World) (inputs : Inputs W.Value) (n : Nat),
        let g := patched w.graph
        let g' := w'.graph
        Exec.Yields (ReadsAlike g g' inputs) (run W g.read g inputs n) ∧
          Exec.Agree (Alongside g') (run W g.read g inputs n) (run W g'.read g' inputs n) := by
  obtain ⟨code, laid, flow, analysed, w, summary, w', hdecode, hlayout, hflow, hbuild, hclean, hcount⟩ :=
    exists_of_elidedCount? elidedCount?_keepFirst
  obtain ⟨summary', w'', hclean', hruns⟩ := elision_keeps_runs hdecode hlayout hflow hbuild
  cases hclean.symm.trans hclean'
  exact ⟨code, laid, flow, analysed, w, summary, w', hdecode, hlayout, hflow, hbuild, hclean, hcount, hruns⟩

end Destack.Ssa
