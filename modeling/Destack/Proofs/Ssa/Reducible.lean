import Destack.Proofs.Graph.Analysis
import Destack.Proofs.Ssa.Order
import Destack.Proofs.Stages

/-!
# The order is found just for reducible graphs

In an accepted order every block comes after the predecessors that it waited for (`Ordered`). So the edges that are not
taken to lead back make no cycle, and an analysis with a flaw leaves such a cycle. On the other hand, if the dominators
are true, then the block of lowest rank that was not placed waits for nothing, so all blocks are placed.
-/

namespace Destack.Ssa.Order

open Destack.Graph (Linked entry)
open scoped List

variable {g : Graph} {rank : BlockId → Nat}

/-! ## What comes before a block -/

/-- Each of the blocks, last one first, comes after its predecessors but those on back edges. -/
def Ordered (g : Graph) : List BlockId → Prop
  | [] => True
  | b :: placed => (∀ p ∈ g.preds b, g.isBackEdge p b = false → p ∈ placed) ∧ Ordered g placed

theorem Ordered.before {placed : List BlockId} (h : Ordered g placed) {p b : BlockId} (hb : b ∈ placed)
    (hp : p ∈ g.preds b) (hback : g.isBackEdge p b = false) : Graph.Before placed.reverse p b := by
  induction placed with
  | nil => cases hb
  | cons c placed ih =>
    rw [List.reverse_cons]
    rcases List.mem_cons.1 hb with rfl | hb
    · exact Graph.before_append (List.mem_reverse.2 (h.1 p hp hback)) (List.mem_singleton_self b)
    · exact (ih h.2 hb).mono (List.sublist_append_left _ _)

theorem preds_entry (hentry : ∀ {b block}, g.block? b = some block → entry ∉ block.succs) (hg : Linked g) :
    g.preds entry = [] := by
  rw [List.eq_nil_iff_forall_not_mem]
  intro p hp
  obtain ⟨block, hb⟩ := Graph.hasBlock_iff.1 (hg.hasBlock_source (hg.mem_succs_iff.2 hp))
  refine hentry hb ?_
  rw [← Graph.succs_eq hb]
  exact hg.mem_succs_iff.2 hp

/-- A block that is free comes after the predecessors that it waited for. -/
theorem Between.preds_placed (hg : Linked g) (hentry : ∀ {b block}, g.block? b = some block → entry ∉ block.succs)
    {placed : List BlockId} {w : Walk} (h : Between g placed w) {b p : BlockId} (hb : b ∈ w.ready)
    (hp : p ∈ g.preds b) (hback : g.isBackEdge p b = false) : p ∈ placed := by
  have hmem : b ∈ placed ++ w.ready := List.mem_append_right _ hb
  obtain ⟨block, hblock⟩ := Graph.hasBlock_iff.1 (h.hasBlock b hmem)
  by_cases hne : b = entry
  · subst hne
    rw [preds_entry hentry hg] at hp
    cases hp
  · have hzero := h.free b hmem hne
    rw [h.waits_eq hblock, Option.some.injEq, pending, List.countP_eq_zero] at hzero
    rw [Graph.preds_eq hblock] at hp
    have := hzero p hp
    simpa [hback] using this

theorem Ordered.sweep (hg : Linked g) (hentry : ∀ {b block}, g.block? b = some block → entry ∉ block.succs)
    (fuel : Nat) {placed : List BlockId} {w : Walk} (h : Between g placed w) (ho : Ordered g placed) :
    Ordered g (sweep g fuel w placed).reverse := by
  induction fuel generalizing placed w with
  | zero =>
    unfold Order.sweep
    rwa [List.reverse_reverse]
  | succ fuel ih =>
    obtain ⟨waits, ready⟩ := w
    cases ready with
    | nil =>
      unfold Order.sweep
      rwa [List.reverse_reverse]
    | cons b ready =>
      exact ih (h.place hg hentry) ⟨fun p hp hback => h.preds_placed hg hentry List.mem_cons_self hp hback, ho⟩

theorem sweep_append (fuel : Nat) (w : Walk) (placed : List BlockId) :
    ∃ rest, sweep g fuel w placed = placed.reverse ++ rest := by
  induction fuel generalizing placed w with
  | zero => exact ⟨[], by simp [sweep]⟩
  | succ fuel ih =>
    obtain ⟨waits, ready⟩ := w
    cases ready with
    | nil => exact ⟨[], by simp [sweep]⟩
    | cons b ready =>
      obtain ⟨rest, hrest⟩ := ih ((g.succs b).foldl (Walk.release g b) ⟨waits, ready⟩) (b :: placed)
      exact ⟨b :: rest, by simpa [sweep] using hrest⟩

/-! ## Blocks that wait for nothing are free -/

/-- The blocks that wait for nothing are free, while the successors in `todo` of the last block placed have not been
told of it. -/
def Told (g : Graph) (b : BlockId) (placed todo : List BlockId) (w : Walk) : Prop :=
  ∀ (t : BlockId) (block : Block), g.block? t = some block → t ≠ entry →
    pending g (if t ∈ todo then placed else b :: placed) t block.preds = 0 → t ∈ b :: placed ++ w.ready

theorem ready_subset_release {b t : BlockId} {w : Walk} : w.ready ⊆ (w.release g b t).ready := by
  unfold Walk.release
  split
  · exact fun _ h => h
  · split
    · exact fun _ h => h
    · dsimp only
      split
      · exact List.subset_append_left _ _
      · exact fun _ h => h

theorem ready_subset_foldl {b : BlockId} {w : Walk} {todo : List BlockId} :
    w.ready ⊆ (todo.foldl (Walk.release g b) w).ready := by
  induction todo generalizing w with
  | nil => exact fun _ h => h
  | cons t todo ih => exact fun k hk => ih (ready_subset_release hk)

theorem Told.release (hg : Linked g) {b t : BlockId} {placed todo : List BlockId} {w : Walk} {block target : Block}
    (h : Told g b placed (t :: todo) w) (hs : Sound g b placed (t :: todo) w) (hb : g.block? b = some block)
    (ht : g.block? t = some target) (hmem : t ∈ block.succs) (htodo : t ∉ todo) :
    Told g b placed todo (w.release g b t) := by
  have hkeep : ∀ {k : BlockId}, k ∈ b :: placed ++ w.ready → k ∈ b :: placed ++ (w.release g b t).ready := by
    intro k hk
    rcases List.mem_append.1 hk with hk | hk
    · exact List.mem_append_left _ hk
    · exact List.mem_append_right _ (ready_subset_release hk)
  intro k kblock hk hne hzero
  by_cases hkt : k = t
  · subst hkt
    obtain rfl := Option.some.inj (ht.symm.trans hk)
    rw [if_neg htodo] at hzero
    by_cases hback : g.isBackEdge b k = true
    · refine hkeep (h k _ hk hne ?_)
      rw [if_pos List.mem_cons_self, ← pending_cons_of_isBackEdge hback]
      exact hzero
    · -- The last predecessor that the block waited for sets it free.
      have hback : g.isBackEdge b k = false := by simpa using hback
      have hwaits := hs.waits_self hk
      rw [hs.pending_eq hg hb hk hmem hback, hzero] at hwaits
      unfold Walk.release
      simp [hback, hwaits]
  · refine hkeep (h k _ hk hne ?_)
    simpa [hkt] using hzero

theorem Told.foldl_release (hg : Linked g) {b : BlockId} {placed todo : List BlockId} {w : Walk} {block : Block}
    (hb : g.block? b = some block) (hentry : entry ∉ block.succs) (hsub : ∀ t ∈ todo, t ∈ block.succs)
    (htodo : todo.Nodup) (h : Told g b placed todo w) (hs : Sound g b placed todo w) :
    Told g b placed [] (todo.foldl (Walk.release g b) w) := by
  induction todo generalizing w with
  | nil => exact h
  | cons t todo ih =>
    obtain ⟨hnot, htodo⟩ := List.nodup_cons.1 htodo
    have hmem : t ∈ block.succs := hsub t List.mem_cons_self
    obtain ⟨target, ht⟩ := Graph.hasBlock_iff.1 (hg.succ_mem hb hmem)
    have hne : t ≠ entry := fun e => hentry (e ▸ hmem)
    exact ih (fun k hk => hsub k (List.mem_cons_of_mem t hk)) htodo (h.release hg hs hb ht hmem hnot)
      (hs.release hg hb ht hmem hne hnot)

/-- Between two blocks, the entry and all blocks that wait for nothing are placed or free. -/
structure Complete (g : Graph) (placed : List BlockId) (w : Walk) : Prop where
  entry_mem : entry ∈ placed ++ w.ready
  free : ∀ {t : BlockId} {block : Block}, g.block? t = some block → t ≠ entry → pending g placed t block.preds = 0 →
    t ∈ placed ++ w.ready

theorem Complete.place (hg : Linked g) (hentry : ∀ {b block}, g.block? b = some block → entry ∉ block.succs)
    {placed ready : List BlockId} {waits : Std.TreeMap BlockId Nat} {b : BlockId}
    (hw : Between g placed ⟨waits, b :: ready⟩) (h : Complete g placed ⟨waits, b :: ready⟩) :
    Complete g (b :: placed) ((g.succs b).foldl (Walk.release g b) ⟨waits, ready⟩) := by
  obtain ⟨block, hb⟩ := Graph.hasBlock_iff.1 (hw.hasBlock b (by simp))
  have hperm : (b :: placed ++ ready).Perm (placed ++ b :: ready) := List.perm_middle.symm
  have htold : Told g b placed block.succs ⟨waits, ready⟩ := by
    intro t tblock ht hne hzero
    refine hperm.mem_iff.2 (h.free ht hne ?_)
    split at hzero
    · exact hzero
    · next hnot => rwa [pending_cons_of_not_mem fun hp => hnot ((hg.mem_iff hb ht).2 hp)] at hzero
  rw [Graph.succs_eq hb]
  have hend := htold.foldl_release hg hb (hentry hb) (fun t ht => ht) (hg.nodup_succs hb) (hw.sound hg hb)
  refine ⟨?_, fun ht hne hzero => hend _ _ ht hne (by simpa using hzero)⟩
  have := hperm.mem_iff.2 h.entry_mem
  rcases List.mem_append.1 this with hmem | hmem
  · exact List.mem_append_left _ hmem
  · exact List.mem_append_right _ (ready_subset_foldl hmem)

/-- If every block waits for blocks of lower rank only, the walk places all blocks. -/
theorem Complete.sweep (hg : Linked g) (hentry : ∀ {b block}, g.block? b = some block → entry ∉ block.succs)
    (hrank : ∀ {p b : BlockId}, p ∈ g.preds b → g.isBackEdge p b = false → rank p < rank b) (fuel : Nat)
    {placed : List BlockId} {w : Walk} (hw : Between g placed w) (h : Complete g placed w)
    (hfuel : g.blockCount < fuel + placed.length) : ∀ b, g.hasBlock b = true → b ∈ sweep g fuel w placed := by
  induction fuel generalizing placed w with
  | zero =>
    have hsub : placed ⊆ g.blockIds := fun b hb =>
      Graph.mem_blockIds.2 (hw.hasBlock b (List.mem_append_left _ hb))
    have := (List.subperm_of_subset (List.nodup_append.1 hw.nodup).1 hsub).length_le
    rw [Graph.length_blockIds] at this
    omega
  | succ fuel ih =>
    obtain ⟨waits, ready⟩ := w
    cases ready with
    | nil =>
      intro b hb
      unfold Order.sweep
      rw [List.mem_reverse]
      induction hn : rank b using Nat.strong_induction_on generalizing b with
      | _ n ihn =>
        obtain ⟨block, hblock⟩ := Graph.hasBlock_iff.1 hb
        by_cases hne : b = entry
        · rw [hne]
          simpa using h.entry_mem
        · have hzero : pending g placed b block.preds = 0 := by
            rw [pending, List.countP_eq_zero]
            intro p hp hwait
            simp only [Bool.and_eq_true, Bool.not_eq_true', List.contains_eq_mem, decide_eq_false_iff_not] at hwait
            rw [← Graph.preds_eq hblock] at hp
            have hlt := hrank hp hwait.1
            exact hwait.2 (ihn (rank p) (hn ▸ hlt) p (hg.hasBlock_source (hg.mem_succs_iff.2 hp)) rfl)
          simpa using h.free hblock hne hzero
    | cons b ready =>
      refine ih (hw.place hg hentry) (h.place hg hentry hw) ?_
      rw [List.length_cons]
      omega

theorem complete_start (hwait : ∀ {b : BlockId}, g.hasBlock b = true → b ≠ entry →
    ∃ p ∈ g.preds b, g.isBackEdge p b = false) : Complete g [] ⟨waits g, [entry]⟩ := by
  refine ⟨List.mem_singleton_self _, fun {t block} ht hne hzero => ?_⟩
  obtain ⟨p, hp, hback⟩ := hwait (Graph.hasBlock_iff.2 ⟨block, ht⟩) hne
  rw [pending, List.countP_eq_zero] at hzero
  rw [Graph.preds_eq ht] at hp
  simpa [hback] using hzero p hp

/-! ## Analysed graphs -/

open Destack.Graph (Analyzed Exact Flawed)

/-- The walk starts with the entry. -/
theorem head?_swept (g : Graph) : (swept g).head? = some entry := by
  obtain ⟨rest, hrest⟩ := sweep_append (g := g) g.blockCount
    ((g.succs entry).foldl (Walk.release g entry) ⟨waits g, []⟩) [entry]
  have hcons : swept g = entry :: rest := by
    simpa [swept, sweep] using hrest
  rw [hcons]
  rfl

/-- An accepted order starts with the entry, holds each block once, and has each block after the predecessors that are
not on back edges. -/
theorem compute_spec (hg : Graph.Rooted g) {order : List BlockId} (h : compute g = .ok order) :
    order.head? = some entry ∧ order.Nodup ∧ (∀ b, b ∈ order ↔ g.hasBlock b = true) ∧
      ∀ {p b : BlockId}, p ∈ g.preds b → g.isBackEdge p b = false → Graph.Before order p b := by
  obtain ⟨hnodup, hmem⟩ := compute_ok hg.linked hg.entry_not_mem hg.hasBlock_entry h
  rw [compute_eq hg.linked hg.entry_not_mem hg.hasBlock_entry] at h
  split at h
  · obtain rfl := Except.ok.inj h
    have hstart := between_start hg.hasBlock_entry
    refine ⟨head?_swept g, hnodup, hmem, fun {p b} hp hback => ?_⟩
    · have hordered := Ordered.sweep hg.linked hg.entry_not_mem (g.blockCount + 1) hstart trivial
      have hb : b ∈ swept g := (hmem b).2 (hg.linked.hasBlock_target (hg.linked.mem_succs_iff.2 hp))
      have := hordered.before (List.mem_reverse.2 hb) hp hback
      rwa [List.reverse_reverse] at this
  · cases h

/-- Every block but the entry has a predecessor that is not on a back edge. -/
theorem exists_pred_not_isBackEdge (hg : Analyzed g rank) {b : BlockId} (hb : g.hasBlock b = true) (hne : b ≠ entry) :
    ∃ p ∈ g.preds b, g.isBackEdge p b = false := by
  rcases Relation.ReflTransGen.cases_tail (hg.ranked.reach hb) with heq | ⟨u, -, hu⟩
  · exact absurd heq hne
  · refine ⟨u, hg.ranked.rooted.linked.mem_succs_iff.1 hu.1, ?_⟩
    rw [Bool.eq_false_iff]
    intro hback
    have hle := hg.rank_le (hg.ranked.rooted.linked.hasBlock_source hu.1) (Bool.and_eq_true_iff.1 hback).2
    exact Nat.lt_irrefl _ (Nat.lt_of_lt_of_le hu.2 hle)

/-- If the dominators are true, an order is found. -/
theorem exists_compute_of_exact (hg : Analyzed g rank) (hexact : Exact g rank) : ∃ order, compute g = .ok order := by
  have hrooted := hg.ranked.rooted
  have hraise : ∀ {p b : BlockId}, p ∈ g.preds b → g.isBackEdge p b = false → rank p < rank b := by
    intro p b hp hback
    have hb := hrooted.linked.mem_succs_iff.2 hp
    by_contra hle
    rw [Bool.eq_false_iff] at hback
    exact hback ((hexact.isBackEdge_iff hg.ranked hb).2 ((hexact.dominates_iff_rank hb).2 (by omega)))
  have hstart := between_start hrooted.hasBlock_entry
  have hall := (complete_start (exists_pred_not_isBackEdge hg)).sweep hrooted.linked hrooted.entry_not_mem hraise
    (g.blockCount + 1) hstart
    (by simp)
  obtain ⟨-, hnodup, hhas⟩ := hstart.walk hrooted.linked hrooted.entry_not_mem (g.blockCount + 1)
  have hperm : (swept g).Perm g.blockIds := by
    refine (List.perm_ext_iff_of_nodup hnodup g.nodup_blockIds).2 fun b => ?_
    rw [Graph.mem_blockIds]
    exact ⟨hhas b, hall b⟩
  refine ⟨_, (compute_eq hrooted.linked hrooted.entry_not_mem hrooted.hasBlock_entry).trans (if_pos ?_)⟩
  rw [hperm.length_eq, Graph.length_blockIds]

/-- In a flawed analysis, edges that are not taken to lead back make a cycle, so no order is found. -/
theorem compute_of_flawed (hg : Analyzed g rank) (hflaw : Flawed g rank) {order : List BlockId} :
    compute g ≠ .ok order := by
  intro hok
  obtain ⟨-, hnodup, -, hbefore⟩ := compute_spec hg.ranked.rooted hok
  obtain ⟨u, v, hv, hle, hnot, -⟩ := hflaw
  have hlinked := hg.ranked.rooted.linked
  have hlt : ∀ {a b : BlockId}, b ∈ g.succs a → g.dominates b a = false → order.idxOf a < order.idxOf b := by
    intro a b hb hdom
    refine (hbefore (hlinked.mem_succs_iff.1 hb) ?_).idxOf_lt hnodup
    unfold Graph.isBackEdge
    rw [hdom, Bool.and_false]
  have hchain : ∀ {a b : BlockId}, Relation.ReflTransGen (g.Raises rank) a b → order.idxOf a ≤ order.idxOf b := by
    intro a b hab
    induction hab with
    | refl => exact Nat.le_refl _
    | @tail x y _ hxy ih =>
      refine ih.trans (Nat.le_of_lt (hlt hxy.1 ?_))
      rw [Bool.eq_false_iff]
      intro hdom
      have := hg.rank_le (hlinked.hasBlock_source hxy.1) hdom
      have := hxy.2
      omega
  have := hchain (hg.ranked.retreat hv hle)
  have := hlt hv hnot
  omega

/-- An order is found just for reducible graphs. -/
theorem exists_compute_iff (hg : Analyzed g rank) : (∃ order, compute g = .ok order) ↔ g.Reducible := by
  rw [hg.reducible_iff]
  constructor
  · rintro ⟨order, hok⟩
    exact hg.exact_or_flawed.resolve_right fun hflaw => compute_of_flawed hg hflaw hok
  · exact exists_compute_of_exact hg

/-- The only way to fail is to find the graph irreducible. Then some blocks are not placed, and some are. -/
theorem compute_eq_ok_or (hg : Graph.Rooted g) : (∃ order, compute g = .ok order) ∨
    ∃ unreached, 0 < unreached ∧ unreached < g.blockCount ∧
      compute g = .error (.layout (.irreducible unreached g.blockCount)) := by
  obtain ⟨-, hnodup, hhas⟩ := (between_start hg.hasBlock_entry).walk hg.linked hg.entry_not_mem (g.blockCount + 1)
  have hle : (swept g).length ≤ g.blockCount := by
    rw [← Graph.length_blockIds]
    exact (List.subperm_of_subset hnodup fun b hb => Graph.mem_blockIds.2 (hhas b hb)).length_le
  have hpos : 0 < (swept g).length :=
    List.length_pos_of_mem (List.mem_of_head? (head?_swept g))
  rw [compute_eq hg.linked hg.entry_not_mem hg.hasBlock_entry]
  split
  · exact Or.inl ⟨_, rfl⟩
  · exact Or.inr ⟨_, by omega, by omega, rfl⟩

/-- For the graph of any instructions the analysis succeeds, and then an order is found just if what paths lead to is
reducible; otherwise the layout is at fault. An order that is found starts with the entry, lists every block once, and
has each block after all its predecessors but those that it dominates. -/
theorem order_found_iff_reducible {is : List Instruction} {laid : Graph} (h : Graph.ofInstructions is = .ok laid) :
    ∃ summary g, laid.analyze = .ok (summary, g) ∧ (∀ b, g.hasBlock b = true ↔ laid.Reaches b) ∧
      ((∃ order, compute g = .ok order) ↔ laid.Reducible) ∧
      (¬ laid.Reducible → ∃ fault, compute g = .error (.layout fault)) ∧
      ∀ order, compute g = .ok order →
        order.head? = some entry ∧ order.Nodup ∧ (∀ b, b ∈ order ↔ g.hasBlock b = true) ∧
        ∀ p b, p ∈ g.preds b → ¬ laid.Dominates b p → Graph.Before order p b := by
  obtain ⟨hrooted, horder⟩ := Graph.rooted_ofInstructions h
  obtain ⟨summary, g, rank, hok, han, hhas, hsuccs⟩ := Graph.analyze_rooted hrooted horder
  have hiff : (∃ order, compute g = .ok order) ↔ laid.Reducible :=
    (exists_compute_iff han).trans (Graph.reducible_congr hsuccs)
  refine ⟨summary, g, hok, hhas, hiff, fun hirr => ?_, fun order horder => ?_⟩
  · rcases compute_eq_ok_or han.ranked.rooted with hfound | ⟨unreached, -, -, herror⟩
    · exact absurd (hiff.1 hfound) hirr
    · exact ⟨_, herror⟩
  · obtain ⟨hhead, hnodup, hmem, hbefore⟩ := compute_spec han.ranked.rooted horder
    have hexact := han.reducible_iff.1 ((exists_compute_iff han).1 ⟨order, horder⟩)
    refine ⟨hhead, hnodup, hmem, fun p b hp hdom => hbefore hp ?_⟩
    have hb := han.ranked.rooted.linked.mem_succs_iff.2 hp
    rw [Bool.eq_false_iff, Ne, hexact.isBackEdge_iff han.ranked hb, Graph.dominates_congr hsuccs]
    exact hdom

theorem sumTo_order_found_iff_reducible :
    ∃ (is : List Instruction) (laid : Graph), Graph.ofInstructions is = .ok laid ∧
      ∃ summary g, laid.analyze = .ok (summary, g) ∧ ((∃ order, compute g = .ok order) ↔ laid.Reducible) := by
  obtain ⟨c, s, hcompile⟩ := exists_of_compiles compiles_sumTo
  obtain ⟨st, hst⟩ := compile_eq_ok hcompile
  obtain ⟨summary, g, hok, -, hiff, -⟩ := order_found_iff_reducible hst.layout
  exact ⟨st.code, st.laid, hst.layout, summary, g, hok, hiff⟩

end Destack.Ssa.Order
