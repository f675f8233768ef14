import Destack.Proofs.Machine.Execution
import Destack.Proofs.Machine.Lowering

/-!
# Running the code of a block

While a block runs, registers hold the values of all nodes that are still to be read (`Ssa.LiveIn`), and of those that
the block has got to. So the code of the block does what its nodes do, and the moves ahead of the jump at its end do not
bear on where the jump leads if they write nothing that it reads (`Finished.runNodes_refines`).
-/

namespace Destack

namespace Ssa

/-! ## Nodes that are still read -/

/-- A node is read on some way on from the start of a block, before it gets another value. -/
inductive LiveIn (g : Graph) : BlockId → NodeId → Prop where
  | operand {b : BlockId} {id o : NodeId} {node : Node} : id ∈ nodesOf g b → g.node? id = some node →
    node.op.isMerge = false → o ∈ node.op.operands → g.resolve o ∉ nodesOf g b → LiveIn g b (g.resolve o)
  | argument {b t : BlockId} {id o : NodeId} : t ∈ g.succs b → id ∈ g.mergesOf t → g.argFrom? t b id = some o →
    g.resolve o ∉ nodesOf g b → LiveIn g b (g.resolve o)
  | through {b t : BlockId} {id : NodeId} : t ∈ g.succs b → LiveIn g t id → id ∉ nodesOf g b → LiveIn g b id

/-- What is still read after some nodes of a block, or has just got its value there. -/
def Held (g : Graph) (b : BlockId) (front : List NodeId) (id : NodeId) : Prop :=
  LiveIn g b id ∨ id ∈ g.mergesOf b ∨ id ∈ front

section Live

variable {g : Graph} {b t : BlockId} {id o : NodeId}

theorem Scheduled.exists_argument (hs : Scheduled g) (ht : t ∈ g.succs b) (hid : id ∈ g.mergesOf t) :
    ∃ o, g.argFrom? t b id = some o ∧ g.resolve o ∈ schedule g := by
  obtain ⟨slot, args, hmerge, hlength, hargs⟩ := hs.argument hid
  obtain ⟨k, hk⟩ := List.mem_iff_getElem?.1 (hs.linked.mem_succs_iff.1 ht)
  have hlt := (List.getElem?_eq_some_iff.1 hk).1
  rw [← hlength] at hlt
  refine ⟨args[k], ?_, (hargs _ (List.getElem_mem hlt)).1⟩
  simp [Graph.argFrom?, hmerge, hs.linked.idxOf?_preds hk, List.getElem?_eq_getElem hlt]

theorem LiveIn.not_mem (h : LiveIn g b id) : id ∉ nodesOf g b := by
  cases h with
  | operand _ _ _ _ hnot => exact hnot
  | argument _ _ _ hnot => exact hnot
  | through _ _ hnot => exact hnot

theorem LiveIn.mem_schedule (h : LiveIn g b id) (hs : Scheduled g) : id ∈ schedule g := by
  induction h with
  | operand hid hnode hmerge ho _ => exact (hs.operand hid hnode hmerge ho).2.1
  | argument ht hid harg _ =>
    obtain ⟨o, ho, hmem⟩ := hs.exists_argument ht hid
    obtain rfl := Option.some.inj (harg.symm.trans ho)
    exact hmem
  | through _ _ _ ih => exact ih

theorem Held.mem_schedule {front rest : List NodeId} (h : Held g b front id) (hs : Scheduled g)
    (hlist : nodesOf g b = front ++ rest) : id ∈ schedule g := by
  rcases h with h | h | h
  · exact h.mem_schedule hs
  · exact (Ssa.mem_schedule hs.mem_order).2 ⟨b, (mem_mergesOf.1 h).1⟩
  · exact (Ssa.mem_schedule hs.mem_order).2 ⟨b, by simp [hlist, h]⟩

/-- What is read from a block on was held at the end of the block before. -/
theorem LiveIn.held (h : LiveIn g t id) (ht : t ∈ g.succs b) : Held g b (nodesOf g b) id := by
  by_cases hid : id ∈ nodesOf g b
  · exact Or.inr (Or.inr hid)
  · exact Or.inl (.through ht h hid)

/-- What a merge takes over an edge was held at the end of the block before. -/
theorem held_argument (ht : t ∈ g.succs b) (hid : id ∈ g.mergesOf t) (ho : g.argFrom? t b id = some o) :
    Held g b (nodesOf g b) (g.resolve o) := by
  by_cases hmem : g.resolve o ∈ nodesOf g b
  · exact Or.inr (Or.inr hmem)
  · exact Or.inl (.argument ht hid ho hmem)

/-- What a node reads is held when its turn comes. -/
theorem Scheduled.held_operand (hs : Scheduled g) {front rest : List NodeId} (hlist : nodesOf g b = front ++ id :: rest)
    {node : Node} (hnode : g.node? id = some node) (hmerge : node.op.isMerge = false) (ho : o ∈ node.op.operands) :
    Held g b front (g.resolve o) := by
  have hid : id ∈ nodesOf g b := by simp [hlist]
  by_cases hmem : g.resolve o ∈ nodesOf g b
  · -- The nodes of a block are in ascending order.
    have hlt := (hs.operand hid hnode hmerge ho).1
    have hsorted := hs.sorted_nodesOf b
    rw [hlist, List.pairwise_append, List.pairwise_cons] at hsorted
    rw [hlist] at hmem
    rcases List.mem_append.1 hmem with hmem | hmem
    · exact Or.inr (Or.inr hmem)
    · rcases List.mem_cons.1 hmem with heq | hmem
      · exact absurd (heq ▸ hlt) (Nat.lt_irrefl id)
      · exact absurd hlt (Nat.lt_asymm (hsorted.2.1.1 _ hmem))
  · exact Or.inl (.operand hid hnode hmerge ho hmem)

end Live

end Ssa

namespace Machine

open Ssa (nodesOf schedule Scheduled Orderly LiveIn Held LeadsOut)

/-! ## Registers of a finished lowering -/

namespace Finished

variable {g : Graph} {piece : NodeId → Piece} {fresh : BlockId × BlockId → Nat} {s : LowerState} {id o k : NodeId}
  {r : Register}

theorem register_eq (h : Finished g piece fresh s) (hid : id ∈ schedule g) (hr : s.register? id = some r) :
    ∃ k, (piece id).first ≤ k ∧ k < (piece id).next ∧ r = .virtual k := by
  obtain ⟨node, -, hemits⟩ := h.emits id hid
  exact hemits.register_eq.2 r hr

/-- Registers are handed out in the order of lowering. -/
theorem next_le (h : Finished g piece fresh s) (hs : Scheduled g) (hid : id ∈ schedule g) (hk : k ∈ schedule g)
    (hlt : id < k) : (piece id).next ≤ (piece k).first := by
  let R (a b : NodeId) : Prop :=
    (a < b → (piece a).next ≤ (piece b).first) ∧ (b < a → (piece b).next ≤ (piece a).first)
  have hpairs : (schedule g).Pairwise R :=
    (h.spaced.and hs.sorted).imp fun {a b} hab => ⟨fun _ => hab.1, fun hba => absurd hab.2 (Nat.lt_asymm hba)⟩
  have : Std.Symm R := ⟨fun _ _ hab => ⟨hab.2, hab.1⟩⟩
  exact (hpairs.forall hid hk (Nat.ne_of_lt hlt)).1 hlt

/-- No register has two uses: that of a node is not among those handed out for another one. -/
theorem register_apart (h : Finished g piece fresh s) (hs : Scheduled g) (hid : id ∈ schedule g) (hk : k ∈ schedule g)
    (hne : id ≠ k) (hr : s.register? id = some r) :
    ∃ j, (j < (piece k).first ∨ (piece k).next ≤ j) ∧ r = .virtual j := by
  obtain ⟨j, hle, hlt, rfl⟩ := h.register_eq hid hr
  refine ⟨j, ?_, rfl⟩
  rcases Nat.lt_or_gt_of_ne hne with hik | hki
  · exact Or.inl (hlt.trans_le (h.next_le hs hid hk hik))
  · exact Or.inr ((h.next_le hs hk hid hki).trans hle)

theorem register_ne (h : Finished g piece fresh s) (hs : Scheduled g) (hid : id ∈ schedule g) (hk : k ∈ schedule g)
    (hne : id ≠ k) {r' : Register} (hr : s.register? id = some r) (hr' : s.register? k = some r') : r ≠ r' := by
  obtain ⟨j, hj, rfl⟩ := h.register_apart hs hid hk hne hr
  obtain ⟨j', hle, hlt, rfl⟩ := h.register_eq hk hr'
  rw [Ne, Register.virtual_inj]
  omega

/-- A node has the register of the one that it is read as. -/
theorem register_resolve (h : Finished g piece fresh s) (hs : Scheduled g) (ho : g.resolve o ∈ schedule g) :
    s.register? (g.resolve o) = s.register? o := by
  obtain ⟨b, hb⟩ := (Ssa.mem_schedule hs.mem_order).1 ho
  rw [LowerState.register?, LowerState.register?, LowerState.lowered?, LowerState.lowered?, h.nodes.resolve_eq,
    h.nodes.resolve_eq, (hs.node hb).1]

end Finished

/-! ## Nodes of a block -/

section Nodes

variable {W : World} {m : Setting W} {inputs : Inputs W.Value} {g : Graph} {piece : NodeId → Piece}
  {fresh : BlockId × BlockId → Nat} {s : LowerState} {b : BlockId} {ρ : Ssa.Env W} {st st' : State W.Value}

/-- A state is ready to run nodes of a block: registers hold what is still read, and nodes that read their surroundings
find it there. -/
structure Ready (g : Graph) (s : LowerState) (m : Setting W) (inputs : Inputs W.Value) (b : BlockId)
    (front ids : List NodeId) (ρ : Ssa.Env W) (st : State W.Value) : Prop where
  holds : Holds s.register? ρ st (Held g b front)
  finds : ∀ id ∈ ids, ∀ node, g.node? id = some node → Finds inputs m st (s.register? id) node.op
  outgoing : st.outgoing = []

/-- What a node finds in its surroundings is not touched by the nodes before it. -/
theorem Finds.of_computes {op op' : Ssa.Op} {r r' : Option Register} {n next : Nat} {v : W.Value}
    (h : Finds inputs m st r op) (hcomputes : Computes op' r' n next st v st')
    (hseed : op.isSeed = true → op'.isSeed = true)
    (hr : ∀ d ∈ r, ∃ j, (j < n ∨ next ≤ j) ∧ d = .virtual j) : Finds inputs m st' r op := by
  cases op with
  | param index =>
    unfold Finds at h ⊢
    dsimp only at h ⊢
    split
    · next source hloc =>
      rw [hloc] at h
      rw [hcomputes.physical (hseed rfl) source (Location.isVirtual_of_ofIndex hloc)]
      exact h
    · next offset hloc =>
      rw [hloc] at h
      exact h
  | undefined slot =>
    intro d hd
    obtain ⟨j, hj, rfl⟩ := hr d hd
    rw [hcomputes.kept j hj]
    exact h _ hd
  | _ => trivial

namespace Finished

variable {front rest : List NodeId} {id : NodeId}

/-- The registers of what a node reads hold the values. -/
theorem holds_operands (h : Finished g piece fresh s) (hs : Scheduled g) (hlist : nodesOf g b = front ++ id :: rest)
    {node : Ssa.Node} (hnode : g.node? id = some node) (hmerge : node.op.isMerge = false)
    (hholds : Holds s.register? ρ st (Held g b front)) :
    Holds s.register? (g.read ρ) st (· ∈ node.op.operands) := by
  intro o r v ho hr hv
  have hheld := hs.held_operand hlist hnode hmerge ho
  refine hholds (g.resolve o) r v hheld ?_ hv
  rw [h.register_resolve hs (hheld.mem_schedule hs hlist), hr]

/-- A node that is not in control leaves a state ready for the next one. -/
theorem ready_of_computes (h : Finished g piece fresh s) (hg : Orderly g) (hlist : nodesOf g b = front ++ id :: rest)
    {node : Ssa.Node} (hnode : g.node? id = some node) (hready : Ready g s m inputs b front (id :: rest) ρ st)
    {v : W.Value}
    (hcomputes : Computes node.op (s.register? id) (piece id).first (piece id).next st v st') :
    Ready g s m inputs b (front ++ [id]) rest (ρ.set id v) st' := by
  have hs := hg.toScheduled
  have hid : id ∈ schedule g := (Ssa.mem_schedule hs.mem_order).2 ⟨b, by simp [hlist]⟩
  have hfirst := hg.seeds_first b
  rw [hlist, List.pairwise_append, List.pairwise_cons] at hfirst
  have hsorted := hs.sorted_nodesOf b
  rw [hlist, List.pairwise_append, List.pairwise_cons] at hsorted
  refine ⟨fun o r w ho hr hw => ?_, fun k hk node' hnode' => ?_, hcomputes.outgoing⟩
  · by_cases heq : o = id
    · subst heq
      rw [Ssa.Env.set_self] at hw
      exact (hcomputes.value r hr).trans (Option.some.inj hw)
    · have hheld : Held g b front o := by
        rcases ho with ho | ho | ho
        · exact Or.inl ho
        · exact Or.inr (Or.inl ho)
        · rcases List.mem_append.1 ho with ho | ho
          · exact Or.inr (Or.inr ho)
          · exact absurd (List.mem_singleton.1 ho) heq
      obtain ⟨j, hj, rfl⟩ := h.register_apart hs (hheld.mem_schedule hs hlist) hid heq hr
      rw [Ssa.Env.set_of_ne _ _ heq] at hw
      rw [hcomputes.kept j hj]
      exact hready.holds o _ w hheld hr hw
  · have hk' : k ∈ schedule g := (Ssa.mem_schedule hs.mem_order).2 ⟨b, by simp [hlist, hk]⟩
    refine (hready.finds k (List.mem_cons_of_mem _ hk) node' hnode').of_computes hcomputes (fun hseed => ?_) ?_
    · obtain ⟨node'', hnode'', hseed'⟩ := hfirst.2.1.1 k hk ⟨node', hnode', hseed⟩
      obtain rfl := Option.some.inj (hnode.symm.trans hnode'')
      exact hseed'
    · intro d hd
      exact h.register_apart hs hk' hid (Nat.ne_of_gt (hsorted.2.1.1 k hk)) hd

/-- Nodes that come to one in control have instructions. -/
theorem flatMap_code_ne_nil (h : Finished g piece fresh s) {ids : List NodeId} (hids : ∀ id ∈ ids, id ∈ schedule g)
    (hleads : LeadsOut g ids) : (ids.flatMap fun id => (piece id).code) ≠ [] := by
  induction ids with
  | nil => exact hleads.elim
  | cons id ids ih =>
    obtain ⟨node, hnode, hlead⟩ := hleads
    obtain ⟨node', hnode', hemits⟩ := h.emits id (hids id List.mem_cons_self)
    obtain rfl := Option.some.inj (hnode.symm.trans hnode')
    rw [List.flatMap_cons]
    cases hcontrol : node.op.isControl with
    | true =>
      refine List.append_ne_nil_of_left_ne_nil ?_ _
      by_cases htargets : node.op.targets = []
      · obtain ⟨code, last, hcode, -⟩ := hemits.exists_last hcontrol htargets
        simp [hcode]
      · obtain ⟨j, hcode, -⟩ := hemits.exists_jump hcontrol htargets
        simp [hcode]
    | false =>
      rw [hcontrol, if_neg Bool.false_ne_true] at hlead
      exact List.append_ne_nil_of_right_ne_nil _ (ih (fun k hk => hids k (List.mem_cons_of_mem _ hk)) hlead)

end Finished

/-- Nodes and code leave a block for the same successor, with what the nodes computed in the registers before the moves
at the end. -/
structure Leaves (g : Graph) (s : LowerState) (b : BlockId) (moves : List Move) (x : Ssa.Env W × BlockId)
    (y : State W.Value × BlockId) : Prop where
  next_eq : y.2 = x.2
  mem_succs : x.2 ∈ g.succs b
  exists_state : ∃ st : State W.Value, y.1 = { st with regs := runMoves moves st.regs } ∧ st.outgoing = [] ∧
    Holds s.register? x.1 st (Held g b (nodesOf g b))

/-- The control node of a block does not read what moves ahead of it write, or there is just one block to lead to. -/
def Undisturbed (s : LowerState) (moves : List Move) (op : Ssa.Op) : Prop :=
  (∀ o ∈ op.operands, ∀ r, s.register? o = some r → r ∉ moves.map (·.target)) ∨ ∃ t, ∀ t' ∈ op.targets, t' = t

/-- A control node at the end of a block and the jump that it became, with moves ahead. -/
theorem Finished.jump_refines (h : Finished g piece fresh s) (hg : Orderly g) {front : List NodeId} {id : NodeId}
    (hlist : nodesOf g b = front ++ [id]) {node : Ssa.Node} (hnode : g.node? id = some node)
    (hcontrol : node.op.isControl = true) (htargets : node.op.targets ≠ [])
    (hready : Ready g s m inputs b front [id] ρ st) {moves : List Move} (hmoves : Undisturbed s moves node.op) :
    Exec.Refines (Leaves g s b moves) (do return (ρ, ← Ssa.follow W (g.read ρ) node.op))
      (runCode W m (insertAhead (piece id).code (moves.map Move.instr)) st) := by
  have hs := hg.toScheduled
  have hid : id ∈ nodesOf g b := by simp [hlist]
  obtain ⟨node', hnode', hemits⟩ := h.emits id ((Ssa.mem_schedule hs.mem_order).2 ⟨b, hid⟩)
  obtain rfl := Option.some.inj (hnode.symm.trans hnode')
  have hmerge := Ssa.Op.isMerge_of_isControl hcontrol
  obtain ⟨j, hcode, hjump⟩ := hemits.exists_jump hcontrol htargets
  have hj : j.op.isControl = true := by cases hop : j.op <;> simp_all [Op.isControl, Op.isJump]
  have hrun : runCode W m (insertAhead (piece id).code (moves.map Move.instr)) st = (do
      let next ← follow W { st with regs := runMoves moves st.regs } j
      return ({ st with regs := runMoves moves st.regs }, next)) := by
    have hahead : insertAhead [j] (moves.map Move.instr) = moves.map Move.instr ++ [j] := @insertAhead_jump [] _ _ hjump
    rw [hcode, hahead, runCode_append, executeAll_moves, pure_bind, runCode, if_pos hj]
    intro i hi
    obtain ⟨move, -, rfl⟩ := List.mem_map.1 hi
    rfl
  have hsame : Holds s.register? (g.read ρ) { st with regs := runMoves moves st.regs } (· ∈ node.op.operands) ∨
      ∃ t, ∀ t' ∈ node.op.targets, t' = t := by
    refine hmoves.imp_left fun hnot o r v ho hr hv => ?_
    exact (runMoves_of_not_mem (hnot o ho r hr)).trans
      (h.holds_operands hs hlist hnode hmerge hready.holds o r v ho hr hv)
  rw [hrun]
  refine .bind ((hemits.follow_refines hcontrol htargets hcode hsame).and_left Ssa.follow_mem_targets) ?_
  rintro t _ ⟨ht, rfl⟩
  refine .pure ⟨rfl, hg.target hid hnode ht, st, rfl, hready.outgoing, fun o r v ho hr hv => ?_⟩
  -- A control node has no register.
  refine hready.holds o r v ?_ hr hv
  rcases ho with ho | ho | ho
  · exact Or.inl ho
  · exact Or.inr (Or.inl ho)
  · rw [hlist] at ho
    rcases List.mem_append.1 ho with ho | ho
    · exact Or.inr (Or.inr ho)
    · obtain rfl := List.mem_singleton.1 ho
      rw [hemits.register_eq_none hcontrol] at hr
      cases hr

/-- Operands are in registers handed out earlier. -/
theorem Finished.register_below (h : Finished g piece fresh s) (hs : Scheduled g) {id o : NodeId} {r : Register}
    (hid : id ∈ nodesOf g b) {node : Ssa.Node} (hnode : g.node? id = some node) (hmerge : node.op.isMerge = false)
    (ho : o ∈ node.op.operands) (hr : s.register? o = some r) : ∃ k < (piece id).first, r = .virtual k := by
  obtain ⟨hlt, hmem, -⟩ := hs.operand hid hnode hmerge ho
  rw [← h.register_resolve hs hmem] at hr
  obtain ⟨k, -, hk, rfl⟩ := h.register_eq hmem hr
  exact ⟨k, hk.trans_le (h.next_le hs hmem ((Ssa.mem_schedule hs.mem_order).2 ⟨b, hid⟩) hlt), rfl⟩

/-- The code of a block does what its nodes do, and then the moves ahead of the jump. -/
theorem Finished.runNodes_refines (h : Finished g piece fresh s) (hg : Orderly g) (hdata : m.data = s.data)
    {moves : List Move} {front ids : List NodeId} (hlist : nodesOf g b = front ++ ids) (hleads : LeadsOut g ids)
    (hready : Ready g s m inputs b front ids ρ st)
    (hmoves : ∀ id ∈ ids, ∀ node, g.node? id = some node → node.op.isControl = true → Undisturbed s moves node.op) :
    Exec.Refines (Leaves g s b moves) (Ssa.runNodes W g.read g inputs ids ρ)
      (runCode W m (insertAhead (ids.flatMap fun id => (piece id).code) (moves.map Move.instr)) st) := by
  have hs := hg.toScheduled
  induction ids generalizing front ρ st with
  | nil => exact hleads.elim
  | cons id ids ih =>
    have hsched : ∀ k ∈ id :: ids, k ∈ schedule g := by
      intro k hk
      exact (Ssa.mem_schedule hs.mem_order).2 ⟨b, by rw [hlist]; exact List.mem_append_right _ hk⟩
    have hlist' : nodesOf g b = front ++ [id] ++ ids := by simp [hlist]
    obtain ⟨node, hnode, hlead⟩ := hleads
    obtain ⟨node', hnode', hemits⟩ := h.emits id (hsched id List.mem_cons_self)
    obtain rfl := Option.some.inj (hnode.symm.trans hnode')
    have ih := fun {ρ st} hlead => @ih ρ st (front ++ [id]) hlist' hlead
    have hmoves' : ∀ k ∈ ids, ∀ node, g.node? k = some node → node.op.isControl = true → Undisturbed s moves node.op :=
      fun k hk => hmoves k (List.mem_cons_of_mem _ hk)
    rw [List.flatMap_cons]
    simp only [Ssa.runNodes, hnode]
    cases hmerge : node.op.isMerge with
    | true =>
      -- A merge got its value on the edge.
      have hcontrol : node.op.isControl = false := by
        by_contra hcontrol
        cases hmerge.symm.trans (Ssa.Op.isMerge_of_isControl (Bool.of_not_eq_false hcontrol))
      rw [hcontrol, if_neg Bool.false_ne_true] at hlead
      rw [if_pos rfl, hemits.code_merge hmerge, List.nil_append]
      refine ih hlead ⟨fun o r v ho => hready.holds o r v ?_, ?_, hready.outgoing⟩ hmoves'
      · rcases ho with ho | ho | ho
        · exact Or.inl ho
        · exact Or.inr (Or.inl ho)
        · rcases List.mem_append.1 ho with ho | ho
          · exact Or.inr (Or.inr ho)
          · obtain rfl := List.mem_singleton.1 ho
            refine Or.inr (Or.inl (Ssa.mem_mergesOf.2 ⟨by simp [hlist], ?_⟩))
            rw [Ssa.isSome_merge?_iff hnode, hmerge]
      · exact fun k hk => hready.finds k (List.mem_cons_of_mem _ hk)
    | false =>
      have hholds := h.holds_operands hs hlist hnode hmerge hready.holds
      rw [if_neg Bool.false_ne_true]
      cases hcontrol : node.op.isControl with
      | true =>
        rw [hcontrol, if_pos rfl] at hlead
        rw [if_pos rfl]
        by_cases htargets : node.op.targets = []
        · obtain ⟨code, last, hcode, hjump⟩ := hemits.exists_last hcontrol htargets
          obtain ⟨rest', hrest⟩ := @insertAhead_of_isJump code last hjump
            (ids.flatMap fun id => (piece id).code) (moves.map Move.instr)
          rw [hcode, hrest, ← hcode, ← bind_pure (runCode W m _ st)]
          refine .bind (R := fun _ _ => False) (hemits.runCode_halt hcontrol htargets hholds rest') ?_
          exact fun _ _ hfalse => hfalse.elim
        · obtain rfl := hlead htargets
          rw [List.flatMap_nil, List.append_nil]
          exact h.jump_refines hg hlist hnode hcontrol htargets hready
            (hmoves id List.mem_cons_self node hnode hcontrol)
      | false =>
        rw [hcontrol, if_neg Bool.false_ne_true] at hlead
        have hne := h.flatMap_code_ne_nil (fun k hk => hsched k (List.mem_cons_of_mem _ hk)) hlead
        rw [insertAhead_append hne, runCode_append fun i hi => hemits.isControl_eq_false hcontrol hi]
        refine .bind (hemits.executeAll_refines hcontrol hmerge hholds ?_ ?_ hready.outgoing ?_) ?_
        · exact fun o ho r hr => h.register_below (b := b) hs (by simp [hlist]) hnode hmerge ho hr
        · exact hready.finds id List.mem_cons_self node hnode
        · intro entry hentry
          rw [hdata]
          exact h.labelled.find?_eq hentry
        · exact fun v st' hcomputes => ih hlead (h.ready_of_computes hg hlist hnode hready hcomputes) hmoves'

end Nodes

end Machine

end Destack
