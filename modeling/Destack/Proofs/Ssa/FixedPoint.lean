import Destack.Proofs.Ssa.ElidedRuns

/-!
# The end of elision

A round takes nothing away exactly if no merge that is listed is trivial (`Stable`), and then it changes nothing. Any
other round adds an alias for each merge that it takes away, so there are at most as many rounds as nodes: the pass
ends as repeating rounds without a bound does (`Merge.Repeats`). What it leaves does not change any more.
-/

namespace Destack.Ssa

variable {g g' : Graph} {id : NodeId} {b : BlockId}

/-! ## Rounds that take nothing away -/

/-- No merge that is listed is trivial. -/
def Stable (g : Graph) : Prop :=
  ∀ b ∈ g.order, ∀ id ∈ g.mergesOf b, Merge.singleValue? g id = none

/-- Two graphs in which everything can be found in the same way. -/
structure SameContents (g g' : Graph) : Prop where
  block?_eq : ∀ b, g'.block? b = g.block? b
  rest_eq : g' = { g with blocks := g'.blocks }

namespace SameContents

theorem refl (g : Graph) : SameContents g g :=
  ⟨fun _ => rfl, rfl⟩

theorem trans {g'' : Graph} (h : SameContents g g') (h' : SameContents g' g'') : SameContents g g'' := by
  refine ⟨fun b => (h'.block?_eq b).trans (h.block?_eq b), ?_⟩
  rw [h'.rest_eq, h.rest_eq]

theorem mergesOf_eq (h : SameContents g g') (b : BlockId) : g'.mergesOf b = g.mergesOf b := by
  have hmerge : ∀ id, g'.merge? id = g.merge? id := fun id => by
    rw [h.rest_eq]
    rfl
  rw [Graph.mergesOf, h.block?_eq, Graph.mergesOf]
  simp only [hmerge]

theorem singleValue?_eq (h : SameContents g g') (id : NodeId) : Merge.singleValue? g' id = Merge.singleValue? g id := by
  rw [h.rest_eq]
  rfl

theorem stable_iff (h : SameContents g g') : Stable g' ↔ Stable g := by
  have horder : g'.order = g.order := by rw [h.rest_eq]
  simp only [Stable, horder, h.mergesOf_eq, h.singleValue?_eq]

end SameContents

/-- Steps that each change nothing. -/
theorem foldl_eq_self {α β : Type} {f : β → α → β} {y : β} {xs : List α} (h : ∀ x ∈ xs, f y x = y) :
    xs.foldl f y = y := by
  induction xs with
  | nil => rfl
  | cons x xs ih =>
    obtain ⟨hx, hxs⟩ := List.forall_mem_cons.1 h
    rw [List.foldl_cons, hx]
    exact ih hxs

theorem length_le_foldl_redirect (ids gone : List NodeId) (g : Graph) :
    gone.length ≤ (ids.foldl Merge.redirect (gone, g)).1.length := by
  induction ids generalizing gone g with
  | nil => exact Nat.le_refl _
  | cons id ids ih =>
    rw [List.foldl_cons, Merge.redirect]
    split
    · exact Nat.le_of_succ_le (ih (id :: gone) _)
    · exact ih gone g

/-- No merge is redirected exactly if none is trivial. -/
theorem foldl_redirect_eq_iff {ids : List NodeId} (gone : List NodeId) :
    (ids.foldl Merge.redirect (gone, g)).1.length = gone.length ↔ ∀ id ∈ ids, Merge.singleValue? g id = none := by
  induction ids with
  | nil => simp
  | cons id ids ih =>
    rw [List.foldl_cons, Merge.redirect, List.forall_mem_cons, ← ih]
    cases hv : Merge.singleValue? g id with
    | none => simp
    | some v =>
      have hle := length_le_foldl_redirect ids (id :: gone) (g.addAlias id v)
      simp only [List.length_cons] at hle ⊢
      constructor
      · omega
      · rintro ⟨⟨⟩, -⟩

theorem foldl_redirect_of_stable {ids gone : List NodeId} (h : ∀ id ∈ ids, Merge.singleValue? g id = none) :
    ids.foldl Merge.redirect (gone, g) = (gone, g) :=
  foldl_eq_self fun id hid => by rw [Merge.redirect, h id hid]

section Rounds

variable {r : Merge.Round}

theorem elided_le_blockElided (r : Merge.Round) (b : BlockId) : r.elided ≤ (Merge.blockElided r b).elided :=
  Nat.le_add_right _ _

theorem blockElided_eq_iff : (Merge.blockElided r b).elided = r.elided ↔
    ∀ id ∈ r.work.graph.mergesOf b, Merge.singleValue? r.work.graph id = none := by
  rw [← foldl_redirect_eq_iff [], List.length_nil]
  change r.elided + _ = r.elided ↔ _
  omega

/-- Nothing changes in a block without trivial merges. -/
theorem sameContents_blockElided (h : ∀ id ∈ r.work.graph.mergesOf b, Merge.singleValue? r.work.graph id = none) :
    SameContents r.work.graph (Merge.blockElided r b).work.graph ∧
      (Merge.blockElided r b).work.stats = r.work.stats := by
  have hkeep : (fun block : Block => { block with nodes := block.nodes.filter fun id =>
      !(Std.TreeSet.ofList ([] : List NodeId)).contains id }) = id := by
    funext block
    rw [Array.filter_eq_self.2 fun id _ => by simp]
    rfl
  unfold Merge.blockElided
  rw [foldl_redirect_of_stable h]
  refine ⟨⟨fun k => ?_, rfl⟩, rfl⟩
  dsimp only
  rw [hkeep, Graph.block?_modifyBlock]
  split
  · next hk => rw [hk, Option.map_id_fun, id]
  · rfl

theorem foldl_blockElided_le (r : Merge.Round) (bs : List BlockId) :
    r.elided ≤ (bs.foldl Merge.blockElided r).elided := by
  induction bs generalizing r with
  | nil => exact Nat.le_refl _
  | cons b bs ih => exact Nat.le_trans (elided_le_blockElided r b) (ih _)

/-- What a round without effect comes to. -/
theorem foldl_blockElided_eq_iff {bs : List BlockId} : (bs.foldl Merge.blockElided r).elided = r.elided ↔
    ∀ b ∈ bs, ∀ id ∈ r.work.graph.mergesOf b, Merge.singleValue? r.work.graph id = none := by
  induction bs generalizing r with
  | nil => simp
  | cons b bs ih =>
    have hle := elided_le_blockElided r b
    have hle' := foldl_blockElided_le (Merge.blockElided r b) bs
    rw [List.foldl_cons, List.forall_mem_cons, ← blockElided_eq_iff]
    constructor
    · intro h
      have hfirst : (Merge.blockElided r b).elided = r.elided := by omega
      refine ⟨hfirst, fun k hk id hid => ?_⟩
      have hsame := (sameContents_blockElided (blockElided_eq_iff.1 hfirst)).1
      rw [← hsame.singleValue?_eq]
      exact ih.1 (h.trans hfirst.symm) k hk id (hsame.mergesOf_eq k ▸ hid)
    · rintro ⟨hfirst, hrest⟩
      have hsame := (sameContents_blockElided (blockElided_eq_iff.1 hfirst)).1
      refine (ih.2 fun k hk id hid => ?_).trans hfirst
      rw [hsame.singleValue?_eq]
      exact hrest k hk id (hsame.mergesOf_eq k ▸ hid)

theorem sameContents_foldl_blockElided {bs : List BlockId}
    (h : ∀ b ∈ bs, ∀ id ∈ r.work.graph.mergesOf b, Merge.singleValue? r.work.graph id = none) :
    SameContents r.work.graph (bs.foldl Merge.blockElided r).work.graph ∧
      (bs.foldl Merge.blockElided r).work.stats = r.work.stats := by
  induction bs generalizing r with
  | nil => exact ⟨.refl _, rfl⟩
  | cons b bs ih =>
    obtain ⟨hb, hbs⟩ := List.forall_mem_cons.1 h
    obtain ⟨hsame, hstats⟩ := sameContents_blockElided hb
    obtain ⟨hsame', hstats'⟩ := @ih (Merge.blockElided r b) fun k hk id hid => by
      rw [hsame.singleValue?_eq]
      exact hbs k hk id (hsame.mergesOf_eq k ▸ hid)
    exact ⟨hsame.trans hsame', hstats'.trans hstats⟩

variable {w : Work}

theorem onceElided_eq_zero_iff : (Merge.onceElided w).elided = 0 ↔ Stable w.graph :=
  foldl_blockElided_eq_iff

theorem sameContents_onceElided (h : Stable w.graph) :
    SameContents w.graph (Merge.onceElided w).work.graph ∧ (Merge.onceElided w).work.stats = w.stats :=
  sameContents_foldl_blockElided (r := ⟨0, w⟩) h

end Rounds

/-! ## Rounds that take merges away -/

/-- Rounds one after the other, up to the first that takes nothing away. -/
inductive Merge.Repeats : Work → Merge.Round → Prop where
  | stop {w : Work} {round : Merge.Round} : Merge.elideOnce w = .ok round → round.elided = 0 → Repeats w round
  | again {w : Work} {round rest : Merge.Round} : Merge.elideOnce w = .ok round → round.elided ≠ 0 →
    Repeats round.work rest → Repeats w { rest with elided := round.elided + rest.elided }

/-- Repeating rounds ends with a graph that is stable. -/
theorem Merge.Repeats.stable {w : Work} {r : Merge.Round} (h : Merge.Repeats w r) : Stable r.work.graph := by
  induction h with
  | stop hround hzero =>
    obtain rfl := Merge.elideOnce_eq_ok hround
    have hstable := onceElided_eq_zero_iff.1 hzero
    exact (sameContents_onceElided hstable).1.stable_iff.2 hstable
  | again _ _ _ ih => exact ih

/-- Every merge taken away has an alias and was counted. -/
structure Counted (w : Work) (r : Merge.Round) : Prop where
  size_aliases : r.work.graph.aliases.size = w.graph.aliases.size + r.elided
  stats_eq : r.work.stats = w.stats.addMergesElided r.elided

namespace Counted

variable {w : Work} {r : Merge.Round}

theorem start (w : Work) : Counted w ⟨0, w⟩ :=
  ⟨rfl, rfl⟩

theorem trans {r' : Merge.Round} (h : Counted w r) (h' : Counted r.work r') :
    Counted w { r' with elided := r.elided + r'.elided } := by
  refine ⟨?_, ?_⟩
  · have hsize := h.size_aliases
    have hsize' := h'.size_aliases
    dsimp only
    omega
  · dsimp only
    rw [h'.stats_eq, h.stats_eq]
    simp only [Statistics.addMergesElided, Nat.add_assoc]

end Counted

theorem size_aliases_foldl_redirect {ids : List NodeId} (gone : List NodeId) (hnodup : ids.Nodup)
    (hids : ∀ id ∈ ids, g.isAliased id = false) :
    (ids.foldl Merge.redirect (gone, g)).2.aliases.size + gone.length =
      g.aliases.size + (ids.foldl Merge.redirect (gone, g)).1.length := by
  induction ids generalizing gone g with
  | nil => rfl
  | cons id ids ih =>
    obtain ⟨hid, hnodup⟩ := List.nodup_cons.1 hnodup
    obtain ⟨hfresh, hids⟩ := List.forall_mem_cons.1 hids
    rw [List.foldl_cons, Merge.redirect]
    cases hv : Merge.singleValue? g id with
    | none => exact ih gone hnodup hids
    | some v =>
      have hsize : (g.addAlias id v).aliases.size = g.aliases.size + 1 := by
        unfold Graph.isAliased at hfresh
        rw [Graph.addAlias, Std.TreeMap.size_insert, hfresh]
        exact if_neg Bool.false_ne_true
      have hnext := @ih (g.addAlias id v) (id :: gone) hnodup fun k hk => by
        have hne : k ≠ id := fun e => hid (e ▸ hk)
        rw [isAliased_eq_false_iff, getElem?_addAlias, if_neg hne]
        exact isAliased_eq_false_iff.1 (hids k hk)
      rw [hsize, List.length_cons] at hnext
      dsimp only
      omega

section Passes

variable {c : Context} {frameSize : Nat} {seg : BlockId → Segment} {w : Work}

theorem Counted.blockElided {r : Merge.Round} (h : Counted w r) (hform : Form c frameSize g seg)
    (he : Elided g r.work.graph) (b : BlockId) : Counted w (Merge.blockElided r b) := by
  have hsize := size_aliases_foldl_redirect [] (he.nodup_mergesOf hform b) fun id hid =>
    (he.mem_mergesOf_iff.1 hid).2
  refine ⟨?_, ?_⟩
  · change ((r.work.graph.mergesOf b).foldl Merge.redirect ([], r.work.graph)).2.aliases.size =
      _ + (r.elided + ((r.work.graph.mergesOf b).foldl Merge.redirect ([], r.work.graph)).1.length)
    have hold := h.size_aliases
    rw [List.length_nil] at hsize
    omega
  · change r.work.stats.addMergesElided _ = w.stats.addMergesElided (r.elided + _)
    rw [h.stats_eq]
    simp only [Statistics.addMergesElided, Nat.add_assoc]

theorem counted_onceElided (hform : Form c frameSize g seg) (hentry : g.hasBlock Graph.entry = true)
    (he : Elided g w.graph) : Counted w (Merge.onceElided w) := by
  have hfold : ∀ (bs : List BlockId) {r : Merge.Round}, Counted w r → Elided g r.work.graph →
      Counted w (bs.foldl Merge.blockElided r) := by
    intro bs
    induction bs with
    | nil => exact fun h _ => h
    | cons b bs ih => exact fun h he => ih (h.blockElided hform he b) (elided_blockElided hform hentry he b)
  exact hfold _ (.start w) he

/-- Nodes that another one stands for. -/
def aliasedCount (g : Graph) : Nat :=
  (List.range g.nodes.size).countP g.isAliased

/-- Every alias is one of a node. -/
theorem Elided.size_aliases_eq (hform : Form c frameSize g seg) (he : Elided g g') :
    g'.aliases.size = aliasedCount g' := by
  rw [← Std.TreeMap.length_keys, aliasedCount, List.countP_eq_length_filter]
  refine List.Perm.length_eq ?_
  refine (List.perm_ext_iff_of_nodup Std.TreeMap.nodup_keys (List.Nodup.filter _ List.nodup_range)).2 fun id => ?_
  rw [Std.TreeMap.mem_keys, List.mem_filter, Std.TreeMap.mem_iff_contains]
  refine ⟨fun hid => ⟨?_, hid⟩, fun hid => hid.2⟩
  obtain ⟨t, ht⟩ := isAliased_iff.1 hid
  obtain ⟨a, b, hmerge, -⟩ := he.target ht
  obtain ⟨j, cell, -, -, hnode⟩ := hform.exists_cell (mem_mergesOf.1 hmerge).1
  rw [← he.node?_eq] at hnode
  exact List.mem_range.2 (Array.getElem?_eq_some_iff.1 hnode).1

/-- There are no more aliases than nodes. -/
theorem Elided.size_aliases_le (hform : Form c frameSize g seg) (he : Elided g g') :
    g'.aliases.size ≤ g.nodes.size := by
  have hnodes : g'.nodes = g.nodes := by rw [he.rest_eq]
  have hle := List.countP_le_length (p := g'.isAliased) (l := List.range g'.nodes.size)
  rw [List.length_range, hnodes] at hle
  rwa [he.size_aliases_eq hform, aliasedCount, hnodes]

/-- The bound on the number of rounds is never reached. -/
theorem repeats_allElided (hform : Form c frameSize g seg) (hentry : g.hasBlock Graph.entry = true) {fuel : Nat}
    (he : Elided g w.graph) (hfuel : g.nodes.size < w.graph.aliases.size + fuel) :
    Merge.Repeats w (Merge.allElided fuel w) := by
  induction fuel generalizing w with
  | zero =>
    have hle := he.size_aliases_le hform
    omega
  | succ fuel ih =>
    have hround := (he.furnished hform.furnished).elideOnce_eq.1
    unfold Merge.allElided
    dsimp only
    split
    · next hzero => exact .stop hround hzero
    · next hsome =>
      have hsize := (counted_onceElided hform hentry he).size_aliases
      exact .again hround hsome (ih (elided_onceElided hform hentry he) (by omega))

theorem counted_allElided (hform : Form c frameSize g seg) (hentry : g.hasBlock Graph.entry = true) {fuel : Nat}
    (he : Elided g w.graph) : Counted w (Merge.allElided fuel w) := by
  induction fuel generalizing w with
  | zero => exact .start w
  | succ fuel ih =>
    have hround := counted_onceElided hform hentry he
    unfold Merge.allElided
    dsimp only
    split
    · exact hround
    · exact hround.trans (ih (elided_onceElided hform hentry he))

end Passes

/-! ## Merges that stay -/

/-- A merge that has no single value has no other argument than itself, or two that differ. -/
theorem onlyValue?_eq_none {me : NodeId} {known : Option NodeId} {args : List NodeId}
    (h : Merge.onlyValue? me known args = none) (hknown : ∀ k ∈ known, k ≠ me) :
    (known = none ∧ ∀ o ∈ args, o = me) ∨
      ∃ a a', (a ∈ known ∨ a ∈ args) ∧ a' ∈ args ∧ a ≠ me ∧ a' ≠ me ∧ a ≠ a' := by
  fun_induction Merge.onlyValue? me known args with
  | case1 known => exact Or.inl ⟨h, by simp⟩
  | case2 known args ih =>
    rcases ih h hknown with ⟨hnone, hargs⟩ | ⟨a, a', ha, ha', hrest⟩
    · exact Or.inl ⟨hnone, by simpa using hargs⟩
    · exact Or.inr ⟨a, a', ha.imp_right (List.mem_cons_of_mem _), List.mem_cons_of_mem _ ha', hrest⟩
  | case3 arg args hne ih =>
    rcases ih h (by simpa using hne) with ⟨hnone, -⟩ | ⟨a, a', ha, ha', hrest⟩
    · cases hnone
    · refine Or.inr ⟨a, a', Or.inr ?_, List.mem_cons_of_mem _ ha', hrest⟩
      rcases ha with ha | ha
      · rw [Option.some.inj ha]
        exact List.mem_cons_self
      · exact List.mem_cons_of_mem _ ha
  | case4 args arg hne ih =>
    rcases ih h hknown with ⟨hnone, -⟩ | ⟨a, a', ha, ha', hrest⟩
    · cases hnone
    · exact Or.inr ⟨a, a', ha.imp_right (List.mem_cons_of_mem _), List.mem_cons_of_mem _ ha', hrest⟩
  | case5 arg args hne v hv => exact Or.inr ⟨v, arg, Or.inl rfl, List.mem_cons_self, hknown v rfl, hne, hv⟩

section Stay

variable {c : Context} {frameSize : Nat} {seg : BlockId → Segment} {slot : Slot} {args : List NodeId}

/-- A merge has an argument from a block that was built before its own one. -/
theorem Form.exists_earlier_argument (hform : Form c frameSize g seg) (hid : id ∈ g.mergesOf b)
    (hmerge : g.merge? id = some (slot, args)) : ∃ a ∈ args, a < id := by
  have hlisted := (mem_mergesOf.1 hid).1
  have hb := Form.hasBlock_of_mem_nodesOf hlisted
  obtain ⟨slot', args', hmerge', -, hne, hargs⟩ := hform.exists_merge hid
  cases hmerge.symm.trans hmerge'
  obtain ⟨front, rest, hsplit⟩ := List.append_of_mem ((hform.mem_order b).2 hb)
  obtain ⟨p, hp, hfront⟩ := hform.earlier_pred hsplit hne
  obtain ⟨k, hk⟩ := List.mem_iff_getElem?.1 hp
  obtain ⟨a, ha, hexit⟩ := hargs hk
  have hpb := (edge_facts hform.linked hform.entry_not_mem hp).1
  have hlt := hform.exit_lt hpb a (Frame.mem_ids_iff.2 ⟨slot, hexit⟩)
  have hle : (seg p).first + (seg p).heads.length + (seg p).body.length ≤ id := calc
    _ ≤ (seg p).stop := (seg p).body_le_stop
    _ ≤ (seg b).first := hform.prior hsplit p hfront
    _ ≤ id := ((hform.mem_nodesOf_iff hb).1 hlisted).1
  exact ⟨a, List.mem_of_getElem? ha, Nat.lt_of_lt_of_le hlt hle⟩

/-- In a stable graph, a merge that is listed takes two nodes at least. -/
theorem Elided.exists_distinct (he : Elided g g') (hform : Form c frameSize g seg) (hstable : Stable g')
    (hid : id ∈ g'.mergesOf b) :
    ∃ slot args, g'.merge? id = some (slot, args) ∧ ∃ a ∈ args, ∃ a' ∈ args,
      g'.resolve a ≠ id ∧ g'.resolve a' ≠ id ∧ g'.resolve a ≠ g'.resolve a' := by
  obtain ⟨hmem, -⟩ := he.mem_mergesOf_iff.1 hid
  obtain ⟨slot, args, hmerge, -⟩ := hform.exists_merge hmem
  have hb := (hform.mem_order b).2 (Form.hasBlock_of_mem_nodesOf (mem_mergesOf.1 hmem).1)
  have horder : g'.order = g.order := by rw [he.rest_eq]
  have hnone := hstable b (horder ▸ hb) id hid
  refine ⟨slot, args, (he.merge?_eq id).trans hmerge, ?_⟩
  rw [Merge.singleValue?, he.merge?_eq, hmerge] at hnone
  rcases onlyValue?_eq_none hnone (by simp) with ⟨-, hself⟩ | ⟨v, v', hv, hv', hne, hne', hdiff⟩
  · obtain ⟨a, ha, hlt⟩ := hform.exists_earlier_argument hmem hmerge
    have hle := resolve_le (he.falling hform) a
    rw [hself _ (List.mem_map_of_mem ha)] at hle
    exact absurd hlt (Nat.not_lt.2 hle)
  · obtain ⟨a, ha, rfl⟩ := List.mem_map.1 (hv.resolve_left (by simp))
    obtain ⟨a', ha', rfl⟩ := List.mem_map.1 hv'
    exact ⟨a, ha, a', ha', hne, hne', hdiff⟩

end Stay

/-! ## A second clean-up -/

theorem patchArgs_map_some (args : List NodeId) : Merge.patchArgs args (args.map some) = args := by
  induction args with
  | nil => rfl
  | cons arg args ih => rw [List.map_cons, Merge.patchArgs, ih, Option.getD_some]

theorem changes_self (args : List NodeId) : Merge.changes args args = 0 := by
  induction args with
  | nil => rfl
  | cons arg args ih => simpa [Merge.changes] using ih

theorem patchMerge_of_fit {exits : List Frame} {count : Nat} {slot : Slot} {args : List NodeId}
    (hmerge : g.merge? id = some (slot, args))
    (hargs : args.map some = exits.map (·.slot? slot)) :
    Merge.patchMerge exits (count, g) id = (count, g) := by
  have hnodes : (g.nodes.modify id fun node => { node with op := .merge slot args }) = g.nodes := by
    refine Array.ext_getElem? fun k => ?_
    rw [Array.getElem?_modify]
    split
    · next hk =>
      subst hk
      cases hnode : g.nodes[id]? with
      | none => rfl
      | some node =>
        obtain ⟨b, type, op⟩ := node
        rw [Graph.merge?, Graph.node?, hnode, Option.bind_some] at hmerge
        cases op with
        | merge slot' args' =>
          cases hmerge
          rfl
        | _ => cases hmerge
    · rfl
  unfold Merge.patchMerge
  dsimp only
  rw [hmerge]
  dsimp only
  rw [← hargs, patchArgs_map_some, changes_self, hnodes, Nat.add_zero]

/-- Every merge that is listed has the arguments that its predecessors leave. -/
def Fitting (g : Graph) : Prop :=
  ∀ b, ∀ id ∈ g.mergesOf b, ∀ slot args, g.merge? id = some (slot, args) →
    args.map some = (g.preds b).map fun p => (g.exitOf p).slot? slot

theorem headPatched_of_fitting (h : Fitting g) (count : Nat) (b : BlockId) :
    Merge.headPatched (count, g) b = (count, g) := by
  unfold Merge.headPatched
  split
  · refine foldl_eq_self fun id hid => ?_
    obtain ⟨⟨slot, args⟩, hmerge⟩ := Option.isSome_iff_exists.1 (mem_mergesOf.1 hid).2
    refine patchMerge_of_fit hmerge ((h b id hid slot args hmerge).trans ?_)
    rw [exitsInto, List.map_map]
    rfl
  · rfl

theorem patched_of_fitting (h : Fitting g) : g.order.foldl Merge.headPatched (0, g) = (0, g) :=
  List.foldl_fixed' (headPatched_of_fitting h 0) g.order

/-- Cleaning up what is stable changes nothing. -/
theorem cleanMerges_again {w : Work} (hvalid : w.graph.validate = .ok ()) (hfurnished : Furnished w.graph)
    (hfit : Fitting w.graph) (hstable : Stable w.graph) :
    ∃ w', cleanMerges w = .ok ⟨0, 0⟩ w' ∧ SameContents w.graph w'.graph ∧ w'.stats = w.stats := by
  have hpatched := patched_of_fitting hfit
  have hzero := onceElided_eq_zero_iff.2 hstable
  have hrounds : rounds w = Merge.onceElided w := by
    rw [rounds, patched, hpatched]
    exact if_pos hzero
  refine ⟨(Merge.onceElided w).work, ?_, sameContents_onceElided hstable⟩
  rw [cleanMerges_eq hvalid hfurnished, hpatched, hrounds, hzero]

section CleanedUp

variable {c : Context} {frameSize : Nat} {seg : BlockId → Segment}

theorem Elided.validate (he : Elided g g') (hform : Form c frameSize g seg) (hentry : g.hasBlock Graph.entry = true) :
    g'.validate = .ok () := by
  have horder : g'.order = g.order := by rw [he.rest_eq]
  apply (hform.linked.of_keeps he.keeps_text).validate
  · rwa [he.keeps_text.hasBlock_eq]
  · intro b hb
    rw [he.keeps_text.hasBlock_eq]
    exact (hform.mem_order b).1 (horder ▸ hb)

theorem Elided.fitting (he : Elided g g') (hform : Form c frameSize g seg) : Fitting g' := by
  intro b id hid slot args hmerge
  have hexit : ∀ p, g'.exitOf p = g.exitOf p := by
    intro p
    rw [Graph.exitOf, he.block?_eq, Option.map_map]
    rfl
  rw [he.preds_eq]
  simp only [hexit]
  exact hform.args_eq (he.mem_mergesOf_iff.1 hid).1 (he.merge?_eq id ▸ hmerge)

/-- What a clean-up leaves is clean. -/
structure CleanedUp (w w' : Work) : Prop where
  /-- Aliases lead from merges that were listed to nodes with lower numbers. -/
  falling : ∀ {id t : NodeId}, w'.graph.aliases[id]? = some t →
    t < id ∧ ∃ b, id ∈ nodesOf w.graph b ∧ (w'.graph.merge? id).isSome = true
  /-- Following aliases ends at the node that is read, which has none. -/
  ends : ∀ id, Ends w'.graph.aliases id (w'.graph.resolve id) ∧ w'.graph.isAliased (w'.graph.resolve id) = false
  /-- The merges with an alias are taken off the lists of nodes, and the blocks are otherwise as before. -/
  block?_eq : ∀ b, w'.graph.block? b = (w.graph.block? b).map (trimmed w'.graph)
  distinct : ∀ b, ∀ id ∈ w'.graph.mergesOf b, ∃ slot args, w'.graph.merge? id = some (slot, args) ∧
    ∃ a ∈ args, ∃ a' ∈ args, w'.graph.resolve a ≠ id ∧ w'.graph.resolve a' ≠ id ∧
      w'.graph.resolve a ≠ w'.graph.resolve a'
  again : ∃ w'', cleanMerges w' = .ok ⟨0, 0⟩ w'' ∧ SameContents w'.graph w''.graph ∧ w''.stats = w'.stats

variable {table : OperandTable} {pool : ConstantPool} {m : Method} {code : List Instruction} {laid analysed : Graph}
  {flow : FlowSummary} {stats : Statistics} {w : Work}

/-- Rounds of elision that are repeated until one takes nothing away come to an end, and what they leave is clean. -/
theorem elision_reaches_fixed_point (hdecode : Instruction.decode table m.code = .ok code)
    (hlayout : Graph.ofInstructions code = .ok laid) (hflow : laid.analyze = .ok (flow, analysed))
    (hbuild : build pool m { graph := analysed, stats } = .ok () w) :
    w.graph.aliases = ∅ ∧ ∃ summary w', cleanMerges w = .ok summary w' ∧
      w.graph.order.foldlM Merge.patchHead (0, w.graph) = .ok (summary.patched, patched w.graph) ∧
      Merge.Repeats { w with graph := patched w.graph } ⟨summary.elided, w'⟩ ∧ CleanedUp w w' := by
  obtain ⟨type, addr, seg, -, h⟩ := prepared_patched hdecode hlayout hflow hbuild
  have helided := elided_rounds h
  have hrepeats : Merge.Repeats { w with graph := patched w.graph } (rounds w) := by
    apply repeats_allElided h.form h.entry (.of_aliases_eq h.aliases_eq)
    omega
  have hstable := hrepeats.stable
  have hfalling := helided.falling h.form
  refine ⟨?_, _, _, cleanMerges_eq h.validate h.furnished, h.furnished.foldlM_patchHead_eq.1, hrepeats, ?_⟩
  · rw [← h.aliases_eq, patched_eq]
  constructor
  case falling =>
    intro id t hid
    obtain ⟨a, b, hmerge, -⟩ := helided.target hid
    obtain ⟨hlisted, hmerge⟩ := mem_mergesOf.1 hmerge
    refine ⟨hfalling id t hid, b, ?_, helided.merge?_eq id ▸ hmerge⟩
    rwa [nodesOf, block?_patched] at hlisted
  case ends => exact fun id => ⟨ends_resolve hfalling id, isAliased_resolve hfalling id⟩
  case block?_eq =>
    intro b
    rw [helided.block?_eq, block?_patched]
  case distinct => exact fun b id hid => helided.exists_distinct h.form hstable hid
  case again =>
    exact cleanMerges_again (helided.validate h.form h.entry) (helided.furnished h.form.furnished)
      (helided.fitting h.form) hstable

/-- One merge of `keepFirst` is elided, and a second clean-up finds nothing left to do. -/
theorem keepFirst_elision_reaches_fixed_point :
    ∃ code laid flow analysed w summary w', Instruction.decode .standard keepFirst.code = .ok code ∧
      Graph.ofInstructions code = .ok laid ∧ laid.analyze = .ok (flow, analysed) ∧
      build .empty keepFirst { graph := analysed, stats := {} } = .ok () w ∧ w.graph.aliases = ∅ ∧
      cleanMerges w = .ok summary w' ∧ summary.elided = 1 ∧
      Merge.Repeats { w with graph := patched w.graph } ⟨1, w'⟩ ∧ CleanedUp w w' := by
  obtain ⟨code, laid, flow, analysed, w, summary, w', hdecode, hlayout, hflow, hbuild, hclean, hcount⟩ :=
    exists_of_elidedCount? elidedCount?_keepFirst
  obtain ⟨haliases, summary', w'', hclean', -, hrepeats, hcleaned⟩ :=
    elision_reaches_fixed_point hdecode hlayout hflow hbuild
  cases hclean.symm.trans hclean'
  rw [hcount] at hrepeats
  exact ⟨code, laid, flow, analysed, w, summary, w', hdecode, hlayout, hflow, hbuild, haliases, hclean, hcount,
    hrepeats, hcleaned⟩

end CleanedUp

end Destack.Ssa
