import Destack.Proofs.Ssa.Availability

/-!
# Elided merges

A merge is redirected to a node in a block that strictly dominates its own one, so aliases never run in a circle. All
arguments of a merge that was redirected are read as the node that the merge is read as (`Redirected.arguments`).
Nothing else changes but the lists of nodes, which lose the merges that were redirected (`elided_cleaned`).
-/

namespace Destack.Ssa

/-! ## Chains of aliases -/

section Chains

variable {aliases : Std.TreeMap NodeId NodeId} {id t r r' : NodeId}

/-- Every alias leads to a node with a lower number. -/
def Falling (aliases : Std.TreeMap NodeId NodeId) : Prop :=
  ∀ id t : NodeId, aliases[id]? = some t → t < id

/-- Following aliases from a node ends at another one. -/
inductive Ends (aliases : Std.TreeMap NodeId NodeId) : NodeId → NodeId → Prop where
  | here {id : NodeId} : aliases[id]? = none → Ends aliases id id
  | next {id t r : NodeId} : aliases[id]? = some t → Ends aliases t r → Ends aliases id r

theorem Ends.unique (h : Ends aliases id r) (h' : Ends aliases id r') : r = r' := by
  induction h with
  | here hnone =>
    cases h' with
    | here => rfl
    | next hsome => cases hnone.symm.trans hsome
  | next hsome _ ih =>
    cases h' with
    | here hnone => cases hnone.symm.trans hsome
    | next hsome' h' =>
      obtain rfl := Option.some.inj (hsome.symm.trans hsome')
      exact ih h'

theorem Ends.getElem?_eq_none (h : Ends aliases id r) : aliases[r]? = none := by
  induction h with
  | here hnone => exact hnone
  | next _ _ ih => exact ih

theorem countP_le_lt {ids : List NodeId} (hid : id ∈ ids) (ht : t < id) :
    ids.countP (· ≤ t) < ids.countP (· ≤ id) := by
  obtain ⟨front, rest, rfl⟩ := List.append_of_mem hid
  have hle : ∀ ids : List NodeId, ids.countP (· ≤ t) ≤ ids.countP (· ≤ id) := fun ids =>
    List.countP_mono_left fun x _ hx => by
      simp only [decide_eq_true_eq] at hx ⊢
      exact hx.trans ht.le
  have hfront := hle front
  have hrest := hle rest
  simp only [List.countP_append, List.countP_cons, Nat.not_le.2 ht, decide_false, le_refl, decide_true]
  simp only [Bool.false_eq_true, if_false, if_true]
  omega

/-- There are enough steps if there is one for each alias of a node that is not above this one. -/
theorem ends_resolveWith (h : Falling aliases) {fuel : Nat} (hfuel : aliases.keys.countP (· ≤ id) ≤ fuel) :
    Ends aliases id (Graph.resolveWith aliases fuel id) := by
  induction fuel generalizing id with
  | zero =>
    refine .here (Std.TreeMap.getElem?_eq_none fun hmem => ?_)
    have := List.countP_eq_zero.1 (Nat.le_zero.1 hfuel) id (Std.TreeMap.mem_keys.2 hmem)
    simp at this
  | succ fuel ih =>
    unfold Graph.resolveWith
    cases hnext : aliases[id]? with
    | none => exact .here hnext
    | some t =>
      have hmem : id ∈ aliases := Std.TreeMap.mem_iff_isSome_getElem?.2 (by rw [hnext]; rfl)
      have hlt := countP_le_lt (Std.TreeMap.mem_keys.2 hmem) (h _ _ hnext)
      exact .next hnext (ih (Nat.le_of_lt_succ (hlt.trans_le hfuel)))

variable {g : Graph}

theorem ends_resolve (h : Falling g.aliases) (id : NodeId) : Ends g.aliases id (g.resolve id) :=
  ends_resolveWith h (List.countP_le_length.trans_eq Std.TreeMap.length_keys)

theorem isAliased_eq_false_iff : g.isAliased id = false ↔ g.aliases[id]? = none := by
  unfold Graph.isAliased
  rw [Std.TreeMap.contains_eq_isSome_getElem?, Option.isSome_eq_false_iff, Option.isNone_iff_eq_none]

theorem isAliased_iff : g.isAliased id = true ↔ ∃ t, g.aliases[id]? = some t := by
  unfold Graph.isAliased
  rw [Std.TreeMap.contains_eq_isSome_getElem?, Option.isSome_iff_exists]

theorem resolve_of_alias (h : Falling g.aliases) (hid : g.aliases[id]? = some t) : g.resolve id = g.resolve t :=
  (ends_resolve h id).unique (.next hid (ends_resolve h t))

theorem resolve_eq_self (h : Falling g.aliases) (hid : g.isAliased id = false) : g.resolve id = id :=
  (ends_resolve h id).unique (.here (isAliased_eq_false_iff.1 hid))

theorem isAliased_resolve (h : Falling g.aliases) (id : NodeId) : g.isAliased (g.resolve id) = false :=
  isAliased_eq_false_iff.2 (ends_resolve h id).getElem?_eq_none

theorem resolve_le (h : Falling g.aliases) (id : NodeId) : g.resolve id ≤ id := by
  have hends := ends_resolve h id
  generalize g.resolve id = r at hends
  induction hends with
  | here => exact le_refl _
  | next hid _ ih => exact ih.trans (h _ _ hid).le

theorem getElem?_addAlias (g : Graph) (id t k : NodeId) :
    (g.addAlias id t).aliases[k]? = if k = id then some t else g.aliases[k]? := by
  unfold Graph.addAlias
  simp only [Std.TreeMap.getElem?_insert, Graph.compare_eq_iff, eq_comm (a := id)]

theorem Falling.addAlias (h : Falling g.aliases) (ht : t < id) : Falling (g.addAlias id t).aliases := by
  intro k r hk
  rw [getElem?_addAlias] at hk
  split at hk
  · next e =>
    obtain rfl := Option.some.inj hk
    exact e ▸ ht
  · exact h _ _ hk

/-- A new alias changes what is read as its source. -/
theorem resolve_addAlias (h : Falling g.aliases) (ht : t < id) (hid : g.isAliased id = false)
    (htarget : g.isAliased t = false) (k : NodeId) :
    (g.addAlias id t).resolve k = if g.resolve k = id then t else g.resolve k := by
  have h' := h.addAlias ht
  have hnone : ∀ {k}, k ≠ id → g.aliases[k]? = none → Ends (g.addAlias id t).aliases k k := fun hk hkn =>
    .here (by rw [getElem?_addAlias, if_neg hk, hkn])
  have hends := ends_resolve h k
  refine (ends_resolve h' k).unique ?_
  generalize g.resolve k = r at hends
  induction hends with
  | @here k hk =>
    split
    · next e =>
      subst e
      exact .next (by rw [getElem?_addAlias, if_pos rfl]) (hnone ht.ne (isAliased_eq_false_iff.1 htarget))
    · next e => exact hnone e hk
  | @next k _ _ hk _ ih =>
    refine .next ?_ ih
    rw [getElem?_addAlias, if_neg, hk]
    rintro rfl
    cases (isAliased_eq_false_iff.1 hid).symm.trans hk

end Chains

/-! ## Redirections -/

/-- Merges of a graph were redirected, and lists of nodes may have changed. -/
structure Redirected (g g' : Graph) : Prop where
  rest_eq : g' = { g with blocks := g'.blocks, aliases := g'.aliases }
  /-- The node that a merge is redirected to is listed in a block that strictly dominates that of the merge. -/
  target : ∀ {id t : NodeId}, g'.aliases[id]? = some t →
    ∃ a b, id ∈ g.mergesOf b ∧ t ∈ nodesOf g a ∧ g.Dominates a b ∧ a ≠ b
  arguments : ∀ {id : NodeId} {slot : Slot} {args : List NodeId}, g'.isAliased id = true →
    g.merge? id = some (slot, args) → ∀ o ∈ args, g'.resolve o = g'.resolve id

/-- A merge that can only have one value has no other arguments than that and itself. -/
theorem onlyValue?_eq_some {me v : NodeId} {known : Option NodeId} {args : List NodeId}
    (h : Merge.onlyValue? me known args = some v) (hknown : ∀ k ∈ known, k ≠ me) :
    v ≠ me ∧ (v ∈ known ∨ v ∈ args) ∧ (∀ k ∈ known, k = v) ∧ ∀ o ∈ args, o = me ∨ o = v := by
  fun_induction Merge.onlyValue? me known args with
  | case1 known =>
    subst h
    exact ⟨hknown v rfl, Or.inl rfl, by simp, by simp⟩
  | case2 known args ih =>
    obtain ⟨hne, hmem, heq, hargs⟩ := ih h hknown
    exact ⟨hne, hmem.imp_right (List.mem_cons_of_mem _), heq, by simpa using hargs⟩
  | case3 arg args hne' ih =>
    obtain ⟨hne, hmem, heq, hargs⟩ := ih h (by simpa using hne')
    obtain rfl := heq arg rfl
    exact ⟨hne, by simp, by simp, by simpa using hargs⟩
  | case4 args arg hne' ih =>
    obtain ⟨hne, hmem, heq, hargs⟩ := ih h hknown
    obtain rfl := heq arg rfl
    exact ⟨hne, by simp, by simp, by simpa using hargs⟩
  | case5 => cases h

namespace Redirected

variable {c : Context} {frameSize : Nat} {g g' : Graph} {seg : BlockId → Segment} {b : BlockId} {id o v : NodeId}

theorem falling (hr : Redirected g g') (h : Form c frameSize g seg) : Falling g'.aliases := by
  intro id t hid
  obtain ⟨a, b, hmerge, ht, hdom, hne⟩ := hr.target hid
  exact h.lt_of_dominates hdom hne ht (mem_mergesOf.1 hmerge).1

theorem node?_eq (hr : Redirected g g') (id : NodeId) : g'.node? id = g.node? id := by
  rw [hr.rest_eq]
  rfl

theorem merge?_eq (hr : Redirected g g') (id : NodeId) : g'.merge? id = g.merge? id := by
  rw [Graph.merge?, hr.node?_eq, Graph.merge?]

/-- Only merges are elided. -/
theorem isAliased_eq_false (hr : Redirected g g') {node : Node} (hnode : g.node? id = some node)
    (hmerge : node.op.isMerge = false) : g'.isAliased id = false := by
  by_contra hnot
  obtain ⟨k, hk⟩ := isAliased_iff.1 (Bool.of_not_eq_false hnot)
  obtain ⟨_, _, hmem, -⟩ := hr.target hk
  have := (mem_mergesOf.1 hmem).2
  rw [isSome_merge?_iff hnode] at this
  cases hmerge.symm.trans this

/-- The node that is read for another one is available where that one is. -/
theorem available_resolve (hr : Redirected g g') (h : Form c frameSize g seg) (ho : Available g b o) :
    Available g b (g'.resolve o) := by
  have hends := ends_resolve (hr.falling h) o
  generalize g'.resolve o = r at hends
  induction hends with
  | here => exact ho
  | next hid _ ih =>
    obtain ⟨a, k, hmerge, ht, hdom, -⟩ := hr.target hid
    obtain ⟨k', hk', hdom'⟩ := ho
    obtain rfl := h.block_unique hk' (mem_mergesOf.1 hmerge).1
    exact ih ⟨a, ht, hdom.trans hdom'⟩

/-- What a trivial merge is read as is listed in a block that strictly dominates the merge's own one. -/
theorem strictly_dominates (hr : Redirected g g') (h : Form c frameSize g seg)
    (hentry : g.hasBlock Graph.entry = true) (hid : id ∈ g.mergesOf b) {slot : Slot} {args : List NodeId}
    (hmerge : g.merge? id = some (slot, args)) (hargs : ∀ o ∈ args, g'.resolve o = id ∨ g'.resolve o = v) :
    ∃ a, v ∈ nodesOf g a ∧ g.Dominates a b ∧ a ≠ b := by
  have hlisted := (mem_mergesOf.1 hid).1
  obtain ⟨slot', args', hmerge', -, hne, hexit⟩ := h.exists_merge hid
  cases hmerge.symm.trans hmerge'
  -- A path is at `v`'s block before it comes to the merge's block for the first time.
  have hbefore : ∀ cs, g.Path b cs → ∃ a ∈ cs, v ∈ nodesOf g a ∧ a ≠ b := by
    intro cs hcs
    obtain ⟨as, has, hnot, hsuffix⟩ := hcs.exists_first hcs.mem
    cases has with
    | start => exact absurd rfl hne
    | @step u _ _ hu hsucc =>
      obtain ⟨k, hk⟩ := List.mem_iff_getElem?.1 (h.linked.mem_succs_iff.1 hsucc)
      obtain ⟨o, ho, -⟩ := hexit hk
      obtain ⟨a, ha, hdom⟩ := hr.available_resolve h (h.argument_available hentry hid hmerge ho hk)
      have hin : a ∈ as := hdom as hu
      have hab : a ≠ b := fun e => hnot (e ▸ hin)
      rcases hargs o (List.mem_of_getElem? ho) with heq | heq
      · exact absurd (h.block_unique (heq ▸ ha) hlisted) hab
      · exact ⟨a, hsuffix.subset (List.mem_cons_of_mem _ hin), heq ▸ ha, hab⟩
  obtain ⟨cs, hcs⟩ := h.reaches (Form.hasBlock_of_mem_nodesOf hlisted)
  obtain ⟨a, -, hva, hab⟩ := hbefore cs hcs
  refine ⟨a, hva, fun ds hds => ?_, hab⟩
  obtain ⟨a', ha', hva', -⟩ := hbefore ds hds
  rwa [h.block_unique hva hva']

/-- Redirecting one more trivial merge. -/
theorem addAlias (hr : Redirected g g') (h : Form c frameSize g seg) (hentry : g.hasBlock Graph.entry = true)
    (hid : id ∈ g.mergesOf b) (hfresh : g'.isAliased id = false) (hv : Merge.singleValue? g' id = some v) :
    Redirected g (g'.addAlias id v) := by
  have hfalling := hr.falling h
  unfold Merge.singleValue? at hv
  rw [hr.merge?_eq] at hv
  obtain ⟨⟨slot, args⟩, hmerge⟩ := Option.isSome_iff_exists.1 (mem_mergesOf.1 hid).2
  rw [hmerge] at hv
  obtain ⟨hne, hmem, -, hargs⟩ := onlyValue?_eq_some hv (by simp)
  simp only [Option.not_mem_none, false_or, List.mem_map] at hmem
  obtain ⟨o, -, rfl⟩ := hmem
  have hargs : ∀ k ∈ args, g'.resolve k = id ∨ g'.resolve k = g'.resolve o := fun k hk =>
    hargs _ (List.mem_map_of_mem hk)
  obtain ⟨a, ha, hdom, hab⟩ := hr.strictly_dominates h hentry hid hmerge hargs
  have hlt := h.lt_of_dominates hdom hab ha (mem_mergesOf.1 hid).1
  have hresolve := resolve_addAlias hfalling hlt hfresh (isAliased_resolve hfalling o)
  refine ⟨?_, ?_, ?_⟩
  · conv_lhs => rw [hr.rest_eq]
    rfl
  · intro k t hk
    rw [getElem?_addAlias] at hk
    split at hk
    · next e =>
      obtain rfl := Option.some.inj hk
      exact ⟨a, b, e ▸ hid, ha, hdom, hab⟩
    · exact hr.target hk
  · intro k slot' args' hk hmerge' x hx
    rw [hresolve, hresolve]
    by_cases hkid : k = id
    · subst hkid
      cases hmerge.symm.trans hmerge'
      rw [resolve_eq_self hfalling hfresh, if_pos rfl]
      rcases hargs x hx with e | e
      · rw [if_pos e]
      · rw [e, if_neg hne]
    · obtain ⟨t, ht⟩ := isAliased_iff.1 hk
      rw [getElem?_addAlias, if_neg hkid] at ht
      rw [hr.arguments (isAliased_iff.2 ⟨t, ht⟩) hmerge' x hx]

end Redirected

/-! ## Lists of nodes -/

/-- A block without the nodes that were redirected. -/
def trimmed (g : Graph) (block : Block) : Block :=
  { block with nodes := block.nodes.filter fun id => !g.isAliased id }

/-- Merges of a graph were redirected and taken off the lists of nodes. -/
structure Elided (g g' : Graph) : Prop extends Redirected g g' where
  block?_eq : ∀ b, g'.block? b = (g.block? b).map (trimmed g')

namespace Elided

variable {c : Context} {frameSize : Nat} {g g' : Graph} {seg : BlockId → Segment} {b : BlockId} {id : NodeId}

theorem of_aliases_eq (h : g.aliases = ∅) : Elided g g := by
  have hnot : ∀ id, g.isAliased id = false := by simp [Graph.isAliased, h]
  have htrimmed : trimmed g = id := by
    funext block
    rw [trimmed, Array.filter_eq_self.2 (by simp [hnot])]
    rfl
  refine ⟨⟨rfl, by simp [h], fun hid => by simp [hnot] at hid⟩, fun b => ?_⟩
  rw [htrimmed, Option.map_id_fun, id]

theorem keeps_text (h : Elided g g') : Graph.Keeps Graph.textOf g g' := by
  intro b
  rw [h.block?_eq, Option.map_map]
  rfl

theorem nodesOf_eq (h : Elided g g') (b : BlockId) :
    nodesOf g' b = (nodesOf g b).filter fun id => !g'.isAliased id := by
  rw [nodesOf, h.block?_eq, nodesOf]
  cases g.block? b with
  | none => rfl
  | some block => simp [trimmed]

theorem mem_nodesOf_iff (h : Elided g g') : id ∈ nodesOf g' b ↔ id ∈ nodesOf g b ∧ g'.isAliased id = false := by
  simp [h.nodesOf_eq]

theorem mem_mergesOf_iff (h : Elided g g') : id ∈ g'.mergesOf b ↔ id ∈ g.mergesOf b ∧ g'.isAliased id = false := by
  rw [mem_mergesOf, mem_mergesOf, h.mem_nodesOf_iff, h.merge?_eq, and_right_comm]

theorem nodup_mergesOf (h : Elided g g') (hform : Form c frameSize g seg) (b : BlockId) : (g'.mergesOf b).Nodup := by
  rw [Graph.mergesOf_eq_filter, h.nodesOf_eq]
  refine List.Nodup.filter _ (List.Nodup.filter _ ?_)
  by_cases hhas : g.hasBlock b = true
  · rw [hform.nodesOf_eq hhas]
    exact List.nodup_range'
  · rw [nodesOf, Graph.hasBlock_eq_false_iff.1 (Bool.not_eq_true _ ▸ hhas)]
    exact List.nodup_nil

theorem preds_eq (h : Elided g g') (b : BlockId) : g'.preds b = g.preds b := by
  simp only [Graph.preds, h.block?_eq, Option.map_map]
  rfl

theorem succs_eq (h : Elided g g') (b : BlockId) : g'.succs b = g.succs b := by
  simp only [Graph.succs, h.block?_eq, Option.map_map]
  rfl

theorem dominates_iff (h : Elided g g') {a b : BlockId} : g'.Dominates a b ↔ g.Dominates a b :=
  Graph.dominates_congr fun b _ => h.succs_eq b

end Elided

section Passes

variable {c : Context} {frameSize : Nat} {g : Graph} {seg : BlockId → Segment} {b : BlockId}

/-- What redirecting some merges of a block does. -/
theorem foldl_redirect (h : Form c frameSize g seg) (hentry : g.hasBlock Graph.entry = true) {ids gone : List NodeId}
    {g' : Graph} (hr : Redirected g g') (hnodup : ids.Nodup)
    (hids : ∀ id ∈ ids, id ∈ g.mergesOf b ∧ g'.isAliased id = false) :
    ∃ new, (ids.foldl Merge.redirect (gone, g')).1 = new ++ gone ∧ new ⊆ ids ∧
      Redirected g (ids.foldl Merge.redirect (gone, g')).2 ∧
      (ids.foldl Merge.redirect (gone, g')).2.blocks = g'.blocks ∧
      ∀ k, (ids.foldl Merge.redirect (gone, g')).2.isAliased k = (decide (k ∈ new) || g'.isAliased k) := by
  induction ids generalizing gone g' with
  | nil => exact ⟨[], rfl, List.Subset.refl _, hr, rfl, by simp⟩
  | cons id ids ih =>
    obtain ⟨hid, hnodup⟩ := List.nodup_cons.1 hnodup
    obtain ⟨hmerge, hfresh⟩ := hids id List.mem_cons_self
    have hids : ∀ k ∈ ids, k ∈ g.mergesOf b ∧ g'.isAliased k = false := fun k hk =>
      hids k (List.mem_cons_of_mem _ hk)
    rw [List.foldl_cons, Merge.redirect]
    cases hv : Merge.singleValue? g' id with
    | none =>
      obtain ⟨new, hgone, hsub, hr, hblocks, halias⟩ := @ih gone g' hr hnodup hids
      exact ⟨new, hgone, List.subset_cons_of_subset _ hsub, hr, hblocks, halias⟩
    | some v =>
      have hnew : ∀ k, (g'.addAlias id v).isAliased k = (decide (k = id) || g'.isAliased k) := by
        intro k
        unfold Graph.isAliased
        rw [Std.TreeMap.contains_eq_isSome_getElem?, getElem?_addAlias, Std.TreeMap.contains_eq_isSome_getElem?]
        split
        · next e => simp [e]
        · next e => simp [e]
      have hids : ∀ k ∈ ids, k ∈ g.mergesOf b ∧ (g'.addAlias id v).isAliased k = false := by
        intro k hk
        have hne : k ≠ id := fun e => hid (e ▸ hk)
        simp [hnew, hids k hk, hne]
      obtain ⟨new, hgone, hsub, hr, hblocks, halias⟩ :=
        @ih (id :: gone) _ (hr.addAlias h hentry hmerge hfresh hv) hnodup hids
      refine ⟨new ++ [id], by simpa using hgone, ?_, hr, hblocks, fun k => ?_⟩
      · refine List.append_subset.2 ⟨List.subset_cons_of_subset _ hsub, ?_⟩
        exact List.cons_subset.2 ⟨List.mem_cons_self, List.nil_subset _⟩
      · rw [halias, hnew]
        simp [Bool.or_assoc]

theorem elided_blockElided (h : Form c frameSize g seg) (hentry : g.hasBlock Graph.entry = true) {r : Merge.Round}
    (he : Elided g r.work.graph) (b : BlockId) : Elided g (Merge.blockElided r b).work.graph := by
  generalize hg' : r.work.graph = g' at he
  obtain ⟨new, hgone, hsub, hr, hblocks, halias⟩ :=
    @foldl_redirect _ _ _ _ b h hentry (g'.mergesOf b) [] g' he.toRedirected (he.nodup_mergesOf h b)
      fun id hid => he.mem_mergesOf_iff.1 hid
  rw [List.append_nil] at hgone
  have hgraph : (Merge.blockElided r b).work.graph =
      ((g'.mergesOf b).foldl Merge.redirect ([], g')).2.modifyBlock b fun block =>
        { block with nodes := block.nodes.filter fun id => !(Std.TreeSet.ofList new).contains id } := by
    rw [← hgone, ← hg']
    rfl
  rw [hgraph]
  generalize ((g'.mergesOf b).foldl Merge.redirect ([], g')).2 = g'' at hr hblocks halias
  have hlook : ∀ k, g''.block? k = g'.block? k := fun k => by simp only [Graph.block?, hblocks]
  have halias' : ∀ f, (g''.modifyBlock b f).isAliased = g''.isAliased := fun f => rfl
  refine ⟨⟨?_, hr.target, hr.arguments⟩, fun k => ?_⟩
  · conv_lhs => rw [hr.rest_eq]
    rfl
  · rw [Graph.block?_modifyBlock, hlook, hlook, he.block?_eq, he.block?_eq]
    split
    · next e =>
      subst e
      rw [Option.map_map]
      refine Option.map_congr fun block hb => ?_
      simp only [Function.comp, trimmed, Array.filter_filter, halias', halias]
      congr 2
      funext id
      simp
    · next e =>
      refine Option.map_congr fun block hb => ?_
      simp only [trimmed, halias', halias]
      congr 1
      apply Array.ext'
      rw [Array.toList_filter, Array.toList_filter]
      refine List.filter_congr fun id hid => ?_
      -- The merges that were redirected are listed in the other block.
      have hnew : id ∉ new := by
        intro hnew
        have hother := (mem_mergesOf.1 (he.mem_mergesOf_iff.1 (hsub hnew)).1).1
        have hlisted : id ∈ nodesOf g k := by simpa [nodesOf, hb] using hid
        exact e (h.block_unique hlisted hother)
      simp [hnew]

theorem elided_onceElided (h : Form c frameSize g seg) (hentry : g.hasBlock Graph.entry = true) {w : Work}
    (he : Elided g w.graph) : Elided g (Merge.onceElided w).work.graph := by
  have hfold : ∀ (bs : List BlockId) {r : Merge.Round}, Elided g r.work.graph →
      Elided g (bs.foldl Merge.blockElided r).work.graph := by
    intro bs
    induction bs with
    | nil => exact fun he => he
    | cons b bs ih => exact fun he => ih (elided_blockElided h hentry he b)
  exact hfold _ he

theorem elided_allElided (h : Form c frameSize g seg) (hentry : g.hasBlock Graph.entry = true) {fuel : Nat} {w : Work}
    (he : Elided g w.graph) : Elided g (Merge.allElided fuel w).work.graph := by
  induction fuel generalizing w with
  | zero => exact he
  | succ fuel ih =>
    have hround := elided_onceElided h hentry he
    unfold Merge.allElided
    dsimp only
    split
    · exact hround
    · exact ih hround

variable {code : List Instruction} {addr : BlockId → Nat} {w : Work}

theorem Prepared.validate (h : Prepared c frameSize code addr (patched w.graph) seg) : w.graph.validate = .ok () := by
  have hpatched := h.form.linked.validate h.entry fun b hb => (h.form.mem_order b).1 hb
  rw [patched_eq] at hpatched
  exact hpatched

theorem Form.furnished (h : Form c frameSize g seg) : Furnished g := by
  refine ⟨fun b hb => (h.mem_order b).1 hb, fun hp => ?_, fun hid => ?_⟩
  · exact h.linked.hasBlock_source (h.linked.mem_succs_iff.2 hp)
  · obtain ⟨_, cell, -, -, hnode⟩ := h.exists_cell hid
    exact (Array.getElem?_eq_some_iff.1 hnode).1

theorem Elided.furnished {g' : Graph} (he : Elided g g') (h : Furnished g) : Furnished g' := by
  have hnodes : ∀ b, nodesOf g' b ⊆ nodesOf g b := by
    intro b
    rw [he.nodesOf_eq]
    exact List.filter_subset_self _
  exact h.congr (by rw [he.rest_eq]) he.keeps_text.hasBlock_eq he.preds_eq hnodes (by rw [he.rest_eq])

theorem Prepared.furnished (h : Prepared c frameSize code addr (patched w.graph) seg) : Furnished w.graph :=
  h.form.furnished.of_patched

theorem elided_rounds (h : Prepared c frameSize code addr (patched w.graph) seg) :
    Elided (patched w.graph) (rounds w).work.graph :=
  elided_allElided h.form h.entry (.of_aliases_eq h.aliases_eq)

/-- Cleaning up elides merges of the patched graph. -/
theorem elided_cleaned (h : Prepared c frameSize code addr (patched w.graph) seg) :
    ∃ summary w', cleanMerges w = .ok summary w' ∧ Elided (patched w.graph) w'.graph :=
  ⟨_, _, cleanMerges_eq h.validate h.furnished, elided_rounds h⟩

end Passes

end Destack.Ssa
