import Destack.Proofs.Machine.BlockRuns
import Destack.Proofs.Ssa.ElidedRuns
import Destack.Proofs.Ssa.Strict

/-!
# Runs of lowered code

The moves of an edge give the merges of its target their values and change no other register of a node
(`Finished.runMoves_edge`). So when moves for one successor of a block touch nothing that is read on the way to another
one (`IsolatedAt`), register code does what the nodes do, block by block (`Finished.step_refines`).
-/

namespace Destack

namespace Ssa

/-- Over an edge, a merge takes the value of another node. -/
def Overwrites (g : Graph) (e : BlockId × BlockId) (id : NodeId) : Prop :=
  id ∈ g.mergesOf e.2 ∧ ∃ o, g.argFrom? e.2 e.1 id = some o ∧ g.resolve o ≠ id

/-- A node is read on the way over an edge: by a merge, or further on before it gets another value. -/
def ReadOver (g : Graph) (e : BlockId × BlockId) (k : NodeId) : Prop :=
  LiveIn g e.2 k ∨ ∃ id o, id ∈ g.mergesOf e.2 ∧ g.argFrom? e.2 e.1 id = some o ∧ g.resolve o = k

end Ssa

namespace Machine

open Ssa (nodesOf schedule Scheduled Orderly LiveIn Held Overwrites ReadOver)

/-! ## Moves of an edge -/

/-- The moves of an edge, one after the other. -/
def edgeSequence (g : Graph) (s : LowerState) (fresh : BlockId × BlockId → Nat) (e : BlockId × BlockId) : List Move :=
  (sequence (fresh e) (edgeMoves g s.register? e)).1

namespace Finished

variable {g : Graph} {piece : NodeId → Piece} {fresh : BlockId × BlockId → Nat} {s : LowerState} {id o k : NodeId}
  {e : BlockId × BlockId} {r r' : Register} {V : Type}

theorem mem_edges (hs : Scheduled g) {b t : BlockId} : (b, t) ∈ edges g ↔ t ∈ g.succs b := by
  rw [hs.linked.mem_succs_iff, edges, List.mem_flatMap]
  constructor
  · rintro ⟨k, -, hmem⟩
    obtain ⟨p, hp, heq⟩ := List.mem_map.1 hmem
    cases heq
    exact hp
  · intro hb
    have ht := hs.linked.hasBlock_target (hs.linked.mem_succs_iff.2 hb)
    exact ⟨t, (hs.mem_order t).2 ht, List.mem_map.2 ⟨b, hb, rfl⟩⟩

theorem nodup_edges (hs : Scheduled g) : (edges g).Nodup := by
  rw [edges, List.nodup_flatMap]
  constructor
  · exact fun b _ => (hs.linked.preds_nodup b).map fun _ _ h => congrArg Prod.fst h
  · refine hs.nodup_order.imp fun {a b} hne e ha hb => hne ?_
    obtain ⟨p, -, rfl⟩ := List.mem_map.1 ha
    obtain ⟨p', -, heq⟩ := List.mem_map.1 hb
    exact (congrArg Prod.snd heq).symm

theorem mem_schedule_of_mem_mergesOf (hs : Scheduled g) {b : BlockId} (hid : id ∈ g.mergesOf b) : id ∈ schedule g :=
  hs.mem_schedule (Ssa.mem_mergesOf.1 hid).1

theorem moveTo?_eq_some {reg? : NodeId → Option Register} {move : Move} (h : moveTo? reg? id o = some move) :
    reg? o = some move.source ∧ reg? id = some move.target ∧ move.source ≠ move.target := by
  obtain ⟨source, hsource, h⟩ := Option.bind_eq_some_iff.1 h
  obtain ⟨target, htarget, h⟩ := Option.bind_eq_some_iff.1 h
  split at h
  · cases h
  · next hne =>
    obtain rfl := Option.some.inj h
    exact ⟨hsource, htarget, hne⟩

/-- What the moves of an edge are. -/
theorem mem_edgeMoves {reg? : NodeId → Option Register} {move : Move} (h : move ∈ edgeMoves g reg? e) :
    ∃ id o, id ∈ g.mergesOf e.2 ∧ g.argFrom? e.2 e.1 id = some o ∧ reg? o = some move.source ∧
      reg? id = some move.target ∧ move.source ≠ move.target := by
  obtain ⟨id, hid, hmove⟩ := List.mem_filterMap.1 h
  obtain ⟨o, ho, hmove⟩ := Option.bind_eq_some_iff.1 hmove
  exact ⟨id, o, hid, ho, moveTo?_eq_some hmove⟩

/-- Moves of an edge write different registers. -/
theorem nodup_targets (h : Finished g piece fresh s) (hs : Scheduled g) (e : BlockId × BlockId) :
    ((edgeMoves g s.register? e).map (·.target)).Nodup := by
  have hnodup : (g.mergesOf e.2).Nodup := by
    refine List.Pairwise.imp Nat.ne_of_lt ?_
    rw [Graph.mergesOf_eq_filter]
    exact (hs.sorted_nodesOf e.2).filter _
  rw [List.Nodup, List.pairwise_map, edgeMoves, List.pairwise_filterMap]
  refine hnodup.imp_of_mem fun {a b} ha hb hne move hmove move' hmove' => ?_
  obtain ⟨o, -, hmove⟩ := Option.bind_eq_some_iff.1 hmove
  obtain ⟨o', -, hmove'⟩ := Option.bind_eq_some_iff.1 hmove'
  exact h.register_ne hs (mem_schedule_of_mem_mergesOf hs ha) (mem_schedule_of_mem_mergesOf hs hb) hne
    (moveTo?_eq_some hmove).2.1 (moveTo?_eq_some hmove').2.1

/-- Registers of nodes come before the temporary ones of an edge. -/
theorem below_fresh (h : Finished g piece fresh s) (he : e ∈ edges g) (hid : id ∈ schedule g)
    (hr : s.register? id = some r) : r.Below (fresh e) := by
  obtain ⟨k, -, hk, rfl⟩ := h.register_eq hid hr
  exact Register.below_virtual (hk.trans_le (h.fresh_le e he id hid))

/-- The register of an argument of a merge. -/
theorem register_argument (h : Finished g piece fresh s) (hs : Scheduled g) (hid : id ∈ g.mergesOf e.2)
    (ho : g.argFrom? e.2 e.1 id = some o) : g.resolve o ∈ schedule g ∧ ∃ r, s.register? o = some r := by
  obtain ⟨slot, args, hmerge, -, hargs⟩ := hs.argument hid
  have hmem : o ∈ args := by
    simp only [Graph.argFrom?, hmerge, Option.bind_eq_bind, Option.bind_some] at ho
    obtain ⟨k, -, hk⟩ := Option.bind_eq_some_iff.1 ho
    exact List.mem_of_getElem? hk
  obtain ⟨hmem, node, hnode, hyields⟩ := hargs o hmem
  obtain ⟨node', hnode', hemits⟩ := h.emits _ hmem
  obtain rfl := Option.some.inj (hnode.symm.trans hnode')
  rw [← hemits.isSome_register, h.register_resolve hs hmem] at hyields
  exact ⟨hmem, Option.isSome_iff_exists.1 hyields⟩

/-- The moves of an edge give the merges of its target the values of their arguments, and change no register of another
node. -/
theorem runMoves_edge (h : Finished g piece fresh s) (hs : Scheduled g) (he : e ∈ edges g) (regs : Register → V) :
    (∀ id o r r', id ∈ g.mergesOf e.2 → g.argFrom? e.2 e.1 id = some o → s.register? id = some r →
      s.register? o = some r' → runMoves (edgeSequence g s fresh e) regs r = regs r') ∧
    ∀ id r, id ∈ schedule g → id ∉ g.mergesOf e.2 → s.register? id = some r →
      runMoves (edgeSequence g s fresh e) regs r = regs r := by
  have hbelow : ∀ move ∈ edgeMoves g s.register? e, move.source.Below (fresh e) ∧ move.target.Below (fresh e) := by
    intro move hmove
    obtain ⟨id, o, hid, ho, hsource, htarget, -⟩ := mem_edgeMoves hmove
    have hmem := (h.register_argument hs hid ho).1
    refine ⟨h.below_fresh he hmem ?_, h.below_fresh he (mem_schedule_of_mem_mergesOf hs hid) htarget⟩
    rw [h.register_resolve hs hmem, hsource]
  -- A register that is written is that of a merge.
  have hwritten : ∀ {k r}, k ∈ schedule g → s.register? k = some r →
      r ∈ (edgeMoves g s.register? e).map (·.target) →
      ∃ move ∈ edgeMoves g s.register? e, move.target = r ∧ k ∈ g.mergesOf e.2 ∧
        ∃ o, g.argFrom? e.2 e.1 k = some o ∧ s.register? o = some move.source := by
    intro k r hk hr hmem
    obtain ⟨move, hmove, rfl⟩ := List.mem_map.1 hmem
    obtain ⟨id, o, hid, ho, hsource, htarget, -⟩ := mem_edgeMoves hmove
    obtain rfl : id = k := by
      by_contra hne
      exact h.register_ne hs (mem_schedule_of_mem_mergesOf hs hid) hk hne htarget hr rfl
    exact ⟨move, hmove, rfl, hid, o, ho, hsource⟩
  obtain ⟨hmoved, hkept⟩ := runMoves_sequence (h.nodup_targets hs e) hbelow regs
  constructor
  · intro id o r r' hid ho hr hr'
    have hmem := mem_schedule_of_mem_mergesOf hs hid
    by_cases heq : r' = r
    · -- No move is needed, and no other one writes the register.
      subst heq
      refine hkept r' (fun hwrite => ?_) (h.below_fresh he hmem hr)
      obtain ⟨move, hmove, rfl, -, o', ho', hsource⟩ := hwritten hmem hr hwrite
      obtain rfl := Option.some.inj (ho.symm.trans ho')
      obtain ⟨_, _, -, -, -, -, hne⟩ := mem_edgeMoves hmove
      exact hne (Option.some.inj (hsource.symm.trans hr'))
    · refine hmoved ⟨r', r⟩ (List.mem_filterMap.2 ⟨id, hid, ?_⟩)
      simp [ho, moveTo?, hr, hr', heq]
  · intro id r hid hnot hr
    refine hkept r (fun hwrite => ?_) (h.below_fresh he hid hr)
    obtain ⟨_, _, _, hmerge, -⟩ := hwritten hid hr hwrite
    exact hnot hmerge

/-- The moves of an edge do not change the register of a node that they do not overwrite. -/
theorem runMoves_kept (h : Finished g piece fresh s) (hs : Scheduled g) (he : e ∈ edges g) (hid : id ∈ schedule g)
    (hnot : ¬ Overwrites g e id) (hr : s.register? id = some r) (regs : Register → V) :
    runMoves (edgeSequence g s fresh e) regs r = regs r := by
  by_cases hmerge : id ∈ g.mergesOf e.2
  · obtain ⟨o, ho, hmem⟩ := hs.exists_argument ((mem_edges hs).1 he) hmerge
    have hself : g.resolve o = id := by
      by_contra hne
      exact hnot ⟨hmerge, o, ho, hne⟩
    have hro : s.register? o = some r := by rw [← h.register_resolve hs hmem, hself, hr]
    exact (h.runMoves_edge hs he regs).1 id o r r hmerge ho hr hro
  · exact (h.runMoves_edge hs he regs).2 id r hid hmerge hr

/-- The moves of some edges do not change the register of a node that none of them overwrites. -/
theorem runMoves_edges (h : Finished g piece fresh s) (hs : Scheduled g) {es : List (BlockId × BlockId)}
    (hes : ∀ e ∈ es, e ∈ edges g) (hid : id ∈ schedule g) (hnot : ∀ e ∈ es, ¬ Overwrites g e id)
    (hr : s.register? id = some r) (regs : Register → V) :
    runMoves (es.flatMap (edgeSequence g s fresh)) regs r = regs r := by
  induction es generalizing regs with
  | nil => rfl
  | cons e es ih =>
    rw [List.flatMap_cons, runMoves_append, ih (fun e he => hes e (List.mem_cons_of_mem _ he))
      (fun e he => hnot e (List.mem_cons_of_mem _ he))]
    exact h.runMoves_kept hs (hes e List.mem_cons_self) hid (hnot e List.mem_cons_self) hr regs

/-- The moves of an edge write the register of a node exactly if they overwrite the node. -/
theorem mem_targets_iff (h : Finished g piece fresh s) (hs : Scheduled g) (he : e ∈ edges g) (hid : id ∈ schedule g)
    (hr : s.register? id = some r) : r ∈ (edgeSequence g s fresh e).map (·.target) ↔ Overwrites g e id := by
  constructor
  · intro hmem
    obtain ⟨move, hmove, rfl⟩ := List.mem_map.1 hmem
    obtain ⟨m, hm, hcases⟩ := mem_sequence hmove
    have htarget : move.target = m.target := by
      rcases hcases with ⟨k, hk, -, rfl⟩ | rfl | ⟨k, -, rfl⟩
      · exact (h.below_fresh he hid hr k hk rfl).elim
      · rfl
      · rfl
    obtain ⟨k, o, hk, ho, hsource, hk', hne⟩ := mem_edgeMoves hm
    rw [htarget] at hr
    obtain rfl : k = id := by
      by_contra hne
      exact h.register_ne hs (mem_schedule_of_mem_mergesOf hs hk) hid hne hk' hr rfl
    refine ⟨hk, o, ho, fun hself => hne (Option.some.inj ?_)⟩
    rw [← hsource, ← hr, ← h.register_resolve hs (h.register_argument hs hk ho).1, hself]
  · rintro ⟨hmerge, o, ho, hne⟩
    obtain ⟨hmem, r', hr'⟩ := h.register_argument hs hmerge ho
    have hne : r' ≠ r := h.register_ne hs hmem hid hne (by rw [h.register_resolve hs hmem, hr']) hr
    have hmove : (⟨r', r⟩ : Move) ∈ edgeMoves g s.register? e := by
      refine List.mem_filterMap.2 ⟨id, hmerge, ?_⟩
      simp [ho, moveTo?, hr, hr', hne]
    rw [edgeSequence, sequence, List.map_append, map_target_stage]
    exact List.mem_append_right _ (List.mem_map.2 ⟨_, hmove, rfl⟩)

variable {b t : BlockId}

/-- Moves for edges that leave a block, among them the one that is taken. If those for the others overwrite nothing that
is read over this one, it is as if only the moves of this one had run. -/
theorem runMoves_apart (h : Finished g piece fresh s) (hs : Scheduled g) {es : List (BlockId × BlockId)}
    (hes : ∀ e ∈ es, e ∈ edges g ∧ e.1 = b) (hnodup : es.Nodup) (ht : (b, t) ∈ es)
    (hapart : ∀ e ∈ es, e.2 ≠ t → ∀ k, Overwrites g e k → ¬ ReadOver g (b, t) k)
    (hid : LiveIn g t id ∨ id ∈ g.mergesOf t) (hr : s.register? id = some r) (regs : Register → V) :
    runMoves (es.flatMap (edgeSequence g s fresh)) regs r = runMoves (edgeSequence g s fresh (b, t)) regs r := by
  have hedge := (hes _ ht).1
  rcases hid with hlive | hmerge
  · -- What is read further on is overwritten by none of the edges.
    have hmem := hlive.mem_schedule hs
    have hother : ∀ {e}, e ∈ es → ¬ Overwrites g e id := by
      intro e he hover
      by_cases het : e.2 = t
      · exact hlive.not_mem (Ssa.mem_mergesOf.1 (het ▸ hover.1)).1
      · exact hapart e he het id hover (Or.inl hlive)
    rw [h.runMoves_edges hs (fun e he => (hes e he).1) hmem (fun e he => hother he) hr,
      h.runMoves_kept hs hedge hmem (hother ht) hr]
  · have hmem := mem_schedule_of_mem_mergesOf hs hmerge
    obtain ⟨front, rest, rfl⟩ := List.append_of_mem ht
    rw [List.nodup_append, List.nodup_cons] at hnodup
    -- Other edges of the block lead to other blocks.
    have hfront : ∀ e ∈ front, e.2 ≠ t := by
      intro e he heq
      refine hnodup.2.2 e he (b, t) List.mem_cons_self ?_
      rw [← (hes e (by simp [he])).2, ← heq]
    have hrest : ∀ e ∈ rest, e.2 ≠ t := by
      intro e he heq
      refine hnodup.2.1.1 ?_
      rw [← (hes e (by simp [he])).2, ← heq]
      exact he
    have hother : ∀ {e : BlockId × BlockId}, e.2 ≠ t → ¬ Overwrites g e id := fun hne hover =>
      hne (hs.block_unique (Ssa.mem_mergesOf.1 hover.1).1 (Ssa.mem_mergesOf.1 hmerge).1)
    have hedges : ∀ e ∈ front, e ∈ edges g := fun e he => (hes e (by simp [he])).1
    rw [List.flatMap_append, List.flatMap_cons, runMoves_append, runMoves_append,
      h.runMoves_edges hs (fun e he => (hes e (by simp [he])).1) hmem (fun e he => hother (hrest e he)) hr]
    by_cases hover : Overwrites g (b, t) id
    · obtain ⟨-, o, ho, -⟩ := hover
      obtain ⟨hread, r', hr'⟩ := h.register_argument (e := (b, t)) hs hmerge ho
      have hro : s.register? (g.resolve o) = some r' := (h.register_resolve hs hread).trans hr'
      have hkept : ∀ e ∈ front, ¬ Overwrites g e (g.resolve o) := fun e he hk =>
        hapart e (by simp [he]) (hfront e he) _ hk (Or.inr ⟨_, o, hmerge, ho, rfl⟩)
      have hvalue := fun regs : Register → V => (h.runMoves_edge hs hedge regs).1 _ o r r' hmerge ho hr hr'
      rw [hvalue, hvalue, h.runMoves_edges hs hedges hread hkept hro]
    · rw [h.runMoves_kept hs hedge hmem hover hr, h.runMoves_kept hs hedge hmem hover hr,
        h.runMoves_edges hs hedges hmem (fun e he => hother (hfront e he)) hr]

variable {W : World} {ρ : Ssa.Env W} {st : State W.Value}

/-- After the moves registers hold what is read from the next block on. -/
theorem holds_edge (h : Finished g piece fresh s) (hs : Scheduled g) {es : List (BlockId × BlockId)}
    (hes : ∀ e ∈ es, e ∈ edges g ∧ e.1 = b) (hnodup : es.Nodup) (ht : (b, t) ∈ es)
    (hapart : ∀ e ∈ es, e.2 ≠ t → ∀ k, Overwrites g e k → ¬ ReadOver g (b, t) k)
    (hholds : Holds s.register? ρ st (Held g b (nodesOf g b))) :
    Holds s.register? ((⟨some b, t, ρ⟩ : Ssa.Point W).merged g.read g)
      { st with regs := runMoves (es.flatMap (edgeSequence g s fresh)) st.regs } (Held g t []) := by
  have hedge := (hes _ ht).1
  have hsucc := (mem_edges hs).1 hedge
  intro k r v hk hr hv
  rcases hk with hlive | hmerge | hk
  · -- What is read further on was held in the block that is left.
    have hother : k ∉ g.mergesOf t := fun hmerge => hlive.not_mem (Ssa.mem_mergesOf.1 hmerge).1
    have hv : ρ k = some v := (if_neg hother).symm.trans hv
    calc
      _ = runMoves (edgeSequence g s fresh (b, t)) st.regs r :=
        h.runMoves_apart hs hes hnodup ht hapart (Or.inl hlive) hr _
      _ = st.regs r := (h.runMoves_edge hs hedge st.regs).2 k r (hlive.mem_schedule hs) hother hr
      _ = v := hholds k r v (hlive.held hsucc) hr hv
  · obtain ⟨o, ho, hmem⟩ := hs.exists_argument hsucc hmerge
    obtain ⟨r', hr'⟩ := (@register_argument g piece fresh s k o (b, t) h hs hmerge ho).2
    have hro : s.register? (g.resolve o) = some r' := (h.register_resolve hs hmem).trans hr'
    have hv : ρ (g.resolve o) = some v := by
      refine Eq.trans ?_ hv
      exact ((if_pos hmerge).trans (by rw [Option.bind_some, ho, Option.bind_some]; rfl)).symm
    calc
      _ = runMoves (edgeSequence g s fresh (b, t)) st.regs r :=
        h.runMoves_apart hs hes hnodup ht hapart (Or.inr hmerge) hr _
      _ = st.regs r' := (h.runMoves_edge hs hedge st.regs).1 k o r r' hmerge ho hr hr'
      _ = v := hholds _ r' v (Ssa.held_argument hsucc hmerge ho) hro hv
  · cases hk

end Finished

/-! ## Moves for other edges -/

/-- If a block has several successors, the merges of one of them are not read by its jump, nor on the way over
another one before they get new values. -/
structure IsolatedAt (g : Graph) (b : BlockId) : Prop where
  jump : ∀ {t t' : BlockId} {id k o : NodeId} {node : Ssa.Node}, t ∈ g.succs b → t' ∈ g.succs b → t ≠ t' →
    k ∈ g.mergesOf t → id ∈ nodesOf g b → g.node? id = some node → node.op.isControl = true →
    o ∈ node.op.operands → g.resolve o ≠ k
  argument : ∀ {t t' : BlockId} {id k o : NodeId}, t ∈ g.succs b → t' ∈ g.succs b → t ≠ t' → k ∈ g.mergesOf t →
    id ∈ g.mergesOf t' → g.argFrom? t' b id = some o → g.resolve o ≠ k
  live : ∀ {t t' : BlockId} {k : NodeId}, t ∈ g.succs b → t' ∈ g.succs b → t ≠ t' → k ∈ g.mergesOf t →
    ¬ LiveIn g t' k

/-- Blocks that are left for one with merges have no other successor. -/
def Unshared (g : Graph) : Prop :=
  ∀ b ∈ g.order, g.mergesOf b ≠ [] → ∀ p ∈ g.preds b, g.succs p = [b]

instance : DecidablePred Unshared := fun g =>
  inferInstanceAs (Decidable (∀ b ∈ g.order, g.mergesOf b ≠ [] → ∀ p ∈ g.preds b, g.succs p = [b]))

theorem unshared_iff {g g' : Graph} (h : g.SameNodes g') : Unshared g' ↔ Unshared g := by
  simp only [Unshared, h.order_eq, h.mergesOf_eq, h.preds_eq, h.succs_eq]

theorem Unshared.isolatedAt {g : Graph} (hu : Unshared g) (hs : Scheduled g) (b : BlockId) : IsolatedAt g b := by
  have hfalse : ∀ {t t' : BlockId} {k : NodeId}, t ∈ g.succs b → t' ∈ g.succs b → t ≠ t' → k ∈ g.mergesOf t →
      False := by
    intro t t' k ht ht' hne hk
    have horder := (hs.mem_order t).2 (hs.linked.hasBlock_target ht)
    rw [hu t horder (List.ne_nil_of_mem hk) b (hs.linked.mem_succs_iff.1 ht)] at ht'
    exact hne (List.mem_singleton.1 ht').symm
  exact ⟨fun ht ht' hne hk _ _ _ _ => (hfalse ht ht' hne hk).elim, fun ht ht' hne hk _ _ => (hfalse ht ht' hne hk).elim,
    fun ht ht' hne hk => (hfalse ht ht' hne hk).elim⟩

section Steps

variable {W : World} {m : Setting W} {inputs : Inputs W.Value} {g : Graph} {piece : NodeId → Piece}
  {fresh : BlockId × BlockId → Nat} {s : LowerState} {p : Ssa.Point W} {q : Point W} {b t : BlockId}

/-- The edges that leave a block. -/
def edgesFrom (g : Graph) (b : BlockId) : List (BlockId × BlockId) :=
  (edges g).filter (·.1 = b)

/-- Register code is about to enter the block that the nodes are, and ready to run it. -/
structure Tracks (g : Graph) (s : LowerState) (m : Setting W) (inputs : Inputs W.Value) (p : Ssa.Point W)
    (q : Point W) : Prop where
  block_eq : q.block = p.block
  hasBlock : g.hasBlock p.block = true
  ready : Ready g s m inputs p.block [] (nodesOf g p.block) (p.merged g.read g) q.state

/-- A block that an edge leads to reads nothing of what is there when the method is entered. -/
theorem Tracks.of_holds (hg : Orderly g) (ht : t ∈ g.succs b) {ρ : Ssa.Env W} {st : State W.Value}
    (hholds : Holds s.register? ((⟨some b, t, ρ⟩ : Ssa.Point W).merged g.read g) st (Held g t []))
    (hout : st.outgoing = []) : Tracks g s m inputs ⟨some b, t, ρ⟩ ⟨t, st⟩ := by
  refine ⟨rfl, hg.linked.hasBlock_target ht, hholds, fun id hid node hnode => ?_, hout⟩
  have hseed : node.op.isSeed = false := by
    by_contra hseed
    exact hg.seed hid ⟨node, hnode, Bool.of_not_eq_false hseed⟩ ht
  cases hop : node.op with
  | param => cases (hop ▸ hseed : Ssa.Op.isSeed (.param _) = false)
  | undefined => cases (hop ▸ hseed : Ssa.Op.isSeed (.undefined _) = false)
  | _ => trivial

/-- The moves at the end of a block do not bear on its jump. -/
theorem Finished.undisturbed (h : Finished g piece fresh s) (hg : Orderly g) (hi : IsolatedAt g b) {id : NodeId}
    (hid : id ∈ nodesOf g b) {node : Ssa.Node} (hnode : g.node? id = some node) (hcontrol : node.op.isControl = true) :
    Undisturbed s ((edgesFrom g b).flatMap (edgeSequence g s fresh)) node.op := by
  have hs := hg.toScheduled
  by_cases hseveral : ∃ t t', t ∈ g.succs b ∧ t' ∈ g.succs b ∧ t ≠ t'
  · left
    intro o ho r hr hmem
    rw [List.map_flatMap] at hmem
    obtain ⟨e, he, hwritten⟩ := List.mem_flatMap.1 hmem
    obtain ⟨hedge, heb⟩ := List.mem_filter.1 he
    obtain rfl : e.1 = b := of_decide_eq_true heb
    have hread := (hs.operand hid hnode (Ssa.Op.isMerge_of_isControl hcontrol) ho).2.1
    have hr : s.register? (g.resolve o) = some r := (h.register_resolve hs hread).trans hr
    obtain ⟨hk, -⟩ := (h.mem_targets_iff hs hedge hread hr).1 hwritten
    obtain ⟨t', ht', hne⟩ : ∃ t' ∈ g.succs e.1, e.2 ≠ t' := by
      obtain ⟨t, t', ht, ht', hne⟩ := hseveral
      by_cases het : e.2 = t
      · exact ⟨t', ht', het ▸ hne⟩
      · exact ⟨t, ht, het⟩
    exact hi.jump ((mem_edges hs).1 hedge) ht' hne hk hid hnode hcontrol ho rfl
  · right
    by_cases htargets : node.op.targets = []
    · exact ⟨b, by simp [htargets]⟩
    · obtain ⟨t, ht⟩ := List.exists_mem_of_ne_nil _ htargets
      refine ⟨t, fun t' ht' => ?_⟩
      by_contra hne
      exact hseveral ⟨t', t, hg.target hid hnode ht', hg.target hid hnode ht, hne⟩

theorem step_eq_runNodes (hb : g.hasBlock p.block = true) : Ssa.step W g.read g inputs p = (do
    let (ρ, next) ← Ssa.runNodes W g.read g inputs (nodesOf g p.block) (p.merged g.read g)
    return ⟨some p.block, next, ρ⟩) := by
  obtain ⟨block, hblock⟩ := Graph.hasBlock_iff.1 hb
  have hnodes : nodesOf g p.block = block.nodes.toList := by rw [nodesOf, hblock]; rfl
  rw [Ssa.step, hblock, Exec.need_some, pure_bind, hnodes]

/-- Block by block, register code does what the nodes do. -/
theorem Finished.step_refines (h : Finished g piece fresh s) (hg : Orderly g) (hi : IsolatedAt g p.block)
    (hdata : m.data = s.data) (hpq : Tracks g s m inputs p q) :
    Exec.Refines (Tracks g s m inputs) (Ssa.step W g.read g inputs p) (step W m s.graph q) := by
  have hs := hg.toScheduled
  obtain ⟨b, st⟩ := q
  obtain ⟨rfl, hb, hready⟩ := hpq
  have hcode : s.graph.codeOf p.block = insertAhead ((nodesOf g p.block).flatMap fun id => (piece id).code)
      (((edgesFrom g p.block).flatMap (edgeSequence g s fresh)).map Move.instr) := by
    rw [h.code.codeOf_eq (by rw [h.nodes.hasBlock_eq, hb]), List.map_flatMap]
    rfl
  rw [step_eq_runNodes hb, step]
  dsimp only
  rw [hcode]
  refine .bind (h.runNodes_refines hg hdata (show nodesOf g p.block = [] ++ nodesOf g p.block from rfl) (hg.leads hb)
    hready fun id hid node hnode hcontrol => h.undisturbed hg hi hid hnode hcontrol) ?_
  rintro ⟨ρ, t⟩ ⟨_, _⟩ ⟨rfl, ht, st', rfl, hout, hholds⟩
  refine .pure (.of_holds hg ht (h.holds_edge hs ?_ ?_ ?_ ?_ hholds) hout)
  · exact fun e he => (List.mem_filter.1 he).imp_right of_decide_eq_true
  · exact (nodup_edges hs).filter _
  · exact List.mem_filter.2 ⟨(mem_edges hs).2 ht, decide_eq_true rfl⟩
  · rintro e he hne k ⟨hk, -⟩ hread
    obtain ⟨he, heb⟩ := List.mem_filter.1 he
    have hsucc := (mem_edges hs).1 he
    rw [of_decide_eq_true heb] at hsucc
    rcases hread with hlive | ⟨id, o, hid, ho, heq⟩
    · exact hi.live hsucc ht hne hk hlive
    · exact hi.argument hsucc ht hne hk hid ho heq

/-! ## Whole runs -/

/-- Where register code starts: parameters are where the convention puts them, and the registers of undefined nodes hold
the undefined values. -/
structure Started (g : Graph) (s : LowerState) (inputs : Inputs W.Value) (m : Setting W) (st : State W.Value) :
    Prop where
  data_eq : m.data = s.data
  param : ∀ index, match Location.ofIndex index with
    | .register r => st.regs r = inputs.arg index
    | .stack offset => m.incoming offset = inputs.arg index
  undefined : ∀ id ∈ schedule g, ∀ node slot r, g.node? id = some node → node.op = .undefined slot →
    s.register? id = some r → st.regs r = inputs.unset slot
  outgoing : st.outgoing = []

theorem Started.tracks {st : State W.Value} (h : Started g s inputs m st) (hs : Scheduled g) :
    Tracks g s m inputs (.start W) ⟨Graph.entry, st⟩ := by
  refine ⟨rfl, hs.entry, fun o r v _ _ hv => ?_, fun id hid node hnode => ?_, h.outgoing⟩
  · rw [Ssa.merged_start] at hv
    cases hv
  · cases hop : node.op with
    | param index => exact h.param index
    | undefined slot =>
      intro r hr
      exact h.undefined id ((Ssa.mem_schedule hs.mem_order).2 ⟨_, hid⟩) node slot r hnode hop hr
    | _ => trivial

/-- Whatever the inputs are, there is a place to start from. -/
theorem Finished.exists_started (h : Finished g piece fresh s) (hs : Scheduled g) (inputs : Inputs W.Value) :
    ∃ (m : Setting W) (st : State W.Value), Started g s inputs m st := by
  classical
  let incoming (z : Int) : W.Value :=
    if hz : ∃ index, Location.ofIndex index = .stack z then inputs.arg hz.choose else inputs.arg 0
  let regs (r : Register) : W.Value :=
    if hr : ∃ index, Location.ofIndex index = .register r then inputs.arg hr.choose
    else if hu : ∃ slot, ∃ id ∈ schedule g, ∃ node, g.node? id = some node ∧ node.op = .undefined slot ∧
        s.register? id = some r then
      inputs.unset hu.choose
    else inputs.arg 0
  refine ⟨⟨incoming, s.data, fun _ => regs⟩, ⟨regs, []⟩, rfl, fun index => ?_, ?_, rfl⟩
  · cases hloc : Location.ofIndex index with
    | register r =>
      have hr : ∃ index, Location.ofIndex index = .register r := ⟨index, hloc⟩
      have heq : hr.choose = index := Location.ofIndex_injective (hr.choose_spec.trans hloc.symm)
      exact (dif_pos hr).trans (by rw [heq])
    | stack offset =>
      have hz : ∃ index, Location.ofIndex index = .stack offset := ⟨index, hloc⟩
      have heq : hz.choose = index := Location.ofIndex_injective (hz.choose_spec.trans hloc.symm)
      exact (dif_pos hz).trans (by rw [heq])
  · intro id hid node slot r hnode hop hr
    have hnot : ¬ ∃ index, Location.ofIndex index = .register r := by
      rintro ⟨index, hloc⟩
      obtain ⟨k, -, -, rfl⟩ := h.register_eq hid hr
      exact Register.ne_virtual (Location.isVirtual_of_ofIndex hloc) k rfl
    have hu : ∃ slot, ∃ id ∈ schedule g, ∃ node, g.node? id = some node ∧ node.op = .undefined slot ∧
        s.register? id = some r := ⟨slot, id, hid, node, hnode, hop, hr⟩
    have heq : hu.choose = slot := by
      obtain ⟨id', hid', node', hnode', hop', hr'⟩ := hu.choose_spec
      obtain rfl : id' = id := by
        by_contra hne
        exact h.register_ne hs hid' hid hne hr' hr rfl
      rw [Option.some.inj (hnode'.symm.trans hnode), hop] at hop'
      exact (Ssa.Op.undefined.inj hop').symm
    exact ((dif_neg hnot).trans (dif_pos hu)).trans (by rw [heq])

/-- For any number of blocks, register code does what the nodes do. -/
theorem Finished.run_refines (h : Finished g piece fresh s) (hg : Orderly g) (hi : ∀ b, IsolatedAt g b)
    {st : State W.Value} (hst : Started g s inputs m st) (n : Nat) :
    Exec.Refines (Tracks g s m inputs) (Ssa.run W g.read g inputs n) (run W m s.graph st n) :=
  .iterate (fun p _ hpq => h.step_refines hg (hi p.block) hst.data_eq hpq) n (hst.tracks hg.toScheduled)

end Steps

/-- The last stage of a compilation: the nodes that it gets are in order, defined before they are used and never stuck,
first all of them are lowered, and then the merges become moves. -/
structure LastStage (st : Stages) (labelPrefix : String) (piece : NodeId → Piece) (fresh : BlockId × BlockId → Nat)
    (s₀ : LowerState) : Prop where
  orderly : Orderly st.cleaned.graph
  strict : Ssa.Strict st.cleaned.graph
  mergesOf_entry : st.cleaned.graph.mergesOf Graph.entry = []
  registers_eq : st.cleaned.graph.registers = 0
  safe : ∀ (W : World) (inputs : Inputs W.Value) (n : Nat),
    Exec.Safe (fun _ => True) (Ssa.run W st.cleaned.graph.read st.cleaned.graph inputs n)
  lowerAll : LowerM.lowerAll { graph := st.cleaned.graph, stats := st.cleaned.stats, labelPrefix } = .ok () s₀
  lowers : Lowers st.cleaned.graph (schedule st.cleaned.graph) piece s₀
  register?_eq : st.lowered.register? = s₀.register?
  finished : Finished st.cleaned.graph piece fresh st.lowered

/-- There is no register code before the lowering. -/
theorem carries_nil_of_elided {context : Ssa.Context} {frameSize : Nat} {code : List Instruction} {addr : BlockId → Nat}
    {g g' : Graph} {seg : BlockId → Ssa.Segment} (h : Ssa.Prepared context frameSize code addr g seg)
    (helided : Ssa.Elided g g') : g'.Carries fun _ => [] := by
  refine Graph.carries_nil fun b block hb => ?_
  rw [helided.block?_eq] at hb
  obtain ⟨block', hb', rfl⟩ := Option.map_eq_some_iff.1 hb
  exact (h.code_eq hb' :)

theorem exists_lastStage {st : Stages} {table : OperandTable} {pool : ConstantPool} {m : Method} {labelPrefix : String}
    {c : Compiled} (hst : st.Succeed table pool m labelPrefix c) :
    ∃ piece fresh s₀, LastStage st labelPrefix piece fresh s₀ := by
  obtain ⟨type, addr, seg, -, hprepared, helided⟩ := Ssa.exists_elided hst
  have hg := helided.orderly hprepared
  have hcode := carries_nil_of_elided hprepared helided
  obtain ⟨_, s₀, hall, hrest⟩ := Pass.bind_eq_ok.1 hst.lower
  obtain ⟨piece, hl⟩ := (lowerAll_spec (E := fun _ => True) hg.toScheduled
    (lowers_nil hcode st.cleaned.stats labelPrefix)).of_ok hall
  obtain ⟨-, hregister, fresh, hfinished⟩ := (finish_spec (E := fun _ => True) hg.toScheduled hl).of_ok hrest
  refine ⟨piece, fresh, s₀, hg, helided.strict hprepared.form hprepared.entry, ?_, ?_, fun W inputs n => ?_, hall, hl,
    hregister, hfinished⟩
  · refine List.eq_nil_iff_forall_not_mem.2 fun id hid => ?_
    obtain ⟨slot, args, -, -, hne, -⟩ := hprepared.form.exists_merge (helided.mem_mergesOf_iff.1 hid).1
    exact hne rfl
  · exact (congrArg Graph.registers helided.rest_eq).trans hprepared.registers_eq
  have hsafe : Exec.Safe (Ssa.Settled (Ssa.patched st.built.graph))
      (Ssa.run W Ssa.direct (Ssa.patched st.built.graph) inputs n) :=
    .iterate (fun p hp => hprepared.step_safe hp) n .start
  have hrefines : Exec.Refines (Ssa.Parallel (Ssa.patched st.built.graph) st.cleaned.graph)
      (Ssa.run W Ssa.direct (Ssa.patched st.built.graph) inputs n)
      (Ssa.run W st.cleaned.graph.read st.cleaned.graph inputs n) :=
    .iterate (fun p q hpq => hprepared.step_refines helided hpq) n .start
  exact .of_agree (hrefines.agree hsafe)

/-- Lowering keeps the meaning of a method in which blocks that are left for one with merges have no other successor. In
every world, for all inputs and after any number of blocks, the register code has done the same to its surroundings as
the nodes and ended in the same way, or it is about to enter the same block, with what is still read in the registers;
neither run is ever stuck. -/
theorem lowering_keeps_runs {table : OperandTable} {pool : ConstantPool} {m : Method} {labelPrefix : String}
    {c : Compiled} {s s' : Statistics} (h : compile table pool m labelPrefix s = .ok c s') :
    ∃ st : Stages, st.Succeed table pool m labelPrefix c ∧ (Unshared st.cleaned.graph →
      ∀ (W : World) (inputs : Inputs W.Value) (setting : Setting W) (start : State W.Value),
        Started st.cleaned.graph st.lowered inputs setting start → ∀ n,
          Exec.Agree (Tracks st.cleaned.graph st.lowered setting inputs)
            (Ssa.run W st.cleaned.graph.read st.cleaned.graph inputs n) (run W setting c.graph start n)) := by
  obtain ⟨st, hst⟩ := compile_eq_ok h
  obtain ⟨piece, fresh, s₀, hlast⟩ := exists_lastStage hst
  refine ⟨st, hst, fun hunshared W inputs setting start hstart n => ?_⟩
  have hisolated := hunshared.isolatedAt hlast.orderly.toScheduled
  rw [hst.graph_eq]
  exact (hlast.finished.run_refines hlast.orderly hisolated hstart n).agree (hlast.safe W inputs n)

/-- Whether a method compiles and blocks that are left for one with merges have no other successor. -/
def compilesUnshared (table : OperandTable) (pool : ConstantPool) (m : Method) (labelPrefix : String) : Bool :=
  match compile table pool m labelPrefix {} with
  | .ok c _ => decide (Unshared c.graph)
  | .error .. => false

theorem compilesUnshared_sumTo : compilesUnshared .standard .empty sumTo "Sum_upTo" = true := by
  simp only [compilesUnshared, compile, Graph.ofInstructions, Layout.partition_eq]
  decide +kernel

/-- The loop of `sumTo` runs the same in registers, from a place to start that is there for all inputs. -/
theorem sumTo_lowering_keeps_runs :
    ∃ (c : Compiled) (s : Statistics), compile .standard .empty sumTo "Sum_upTo" {} = .ok c s ∧
      ∃ st : Stages, st.Succeed .standard .empty sumTo "Sum_upTo" c ∧ Unshared st.cleaned.graph ∧
        ∀ (W : World) (inputs : Inputs W.Value), ∃ (setting : Setting W) (start : State W.Value),
          Started st.cleaned.graph st.lowered inputs setting start ∧ ∀ n,
            Exec.Agree (Tracks st.cleaned.graph st.lowered setting inputs)
              (Ssa.run W st.cleaned.graph.read st.cleaned.graph inputs n) (run W setting c.graph start n) := by
  have hcompiles := compilesUnshared_sumTo
  unfold compilesUnshared at hcompiles
  split at hcompiles
  · next c s hcompile =>
    obtain ⟨st, hst, hruns⟩ := lowering_keeps_runs hcompile
    obtain ⟨piece, fresh, s₀, hlast⟩ := exists_lastStage hst
    have hunshared : Unshared st.cleaned.graph := by
      rw [← unshared_iff hlast.finished.nodes, ← hst.graph_eq]
      exact of_decide_eq_true hcompiles
    refine ⟨c, s, hcompile, st, hst, hunshared, fun W inputs => ?_⟩
    obtain ⟨setting, start, hstart⟩ := hlast.finished.exists_started hlast.orderly.toScheduled inputs
    exact ⟨setting, start, hstart, hruns hunshared W inputs setting start hstart⟩
  · cases hcompiles

end Machine

end Destack
