import Destack.Proofs.Graph.Edges
import Destack.Ssa.Order

/-!
# The order visits every block once

The walk over the blocks keeps count of the predecessors that a block still waits for. A block is set free when that
count comes to zero, which happens once since a block that is free waits for nothing. So the walk finds every block that
it sets free (`Between.walk`), and an order that is accepted holds each block of the graph exactly once (`compute_ok`).
-/

namespace Destack.Ssa.Order

open Destack.Graph (Linked entry)

variable {g : Graph}

/-- Predecessors that a block waits for while some blocks have been placed. -/
def pending (g : Graph) (placed : List BlockId) (t : BlockId) (preds : List BlockId) : Nat :=
  preds.countP fun p => !g.isBackEdge p t && !placed.contains p

theorem pending_cons_of_not_mem {placed preds : List BlockId} {b t : BlockId} (h : b ∉ preds) :
    pending g (b :: placed) t preds = pending g placed t preds := by
  refine List.countP_congr fun p hp => ?_
  have : p ≠ b := fun e => h (e ▸ hp)
  simp [this]

theorem pending_cons_of_isBackEdge {placed preds : List BlockId} {b t : BlockId} (h : g.isBackEdge b t = true) :
    pending g (b :: placed) t preds = pending g placed t preds := by
  refine List.countP_congr fun p _ => ?_
  by_cases hp : p = b
  · simp [hp, h]
  · simp [hp]

theorem pending_cons_of_mem {placed preds : List BlockId} {b t : BlockId} (hpreds : preds.Nodup) (hb : b ∈ preds)
    (hback : g.isBackEdge b t = false) (hplaced : b ∉ placed) :
    pending g placed t preds = pending g (b :: placed) t preds + 1 := by
  induction preds with
  | nil => cases hb
  | cons p preds ih =>
    obtain ⟨hp, hpreds⟩ := List.nodup_cons.1 hpreds
    by_cases hpb : p = b
    · subst hpb
      have hrest : pending g (p :: placed) t preds = pending g placed t preds := pending_cons_of_not_mem hp
      unfold pending at hrest ⊢
      rw [List.countP_cons, List.countP_cons, hrest]
      simp [hback, hplaced]
    · have hb' : b ∈ preds := (List.mem_cons.1 hb).resolve_left (Ne.symm hpb)
      have hrest := ih hpreds hb'
      unfold pending at hrest ⊢
      rw [List.countP_cons, List.countP_cons, hrest]
      simp [hpb]
      omega

/-- What holds of the walk while the successors in `todo` of the last block placed have not been told of it. -/
structure Sound (g : Graph) (b : BlockId) (placed todo : List BlockId) (w : Walk) : Prop where
  nodup : (b :: placed ++ w.ready).Nodup
  hasBlock : ∀ t ∈ b :: placed ++ w.ready, g.hasBlock t = true
  waits_eq : ∀ {t : BlockId} {block : Block}, g.block? t = some block →
    w.waits[t]? = some (pending g (if t ∈ todo then placed else b :: placed) t block.preds)
  free : ∀ t ∈ b :: placed ++ w.ready, t ≠ entry → w.waits[t]? = some 0

namespace Sound

variable {b t : BlockId} {placed todo : List BlockId} {w : Walk} {block target : Block}

/-- A block that an edge forward leads to waits for the source until it is told. -/
theorem pending_eq (hg : Linked g) (h : Sound g b placed todo w) (hb : g.block? b = some block)
    (ht : g.block? t = some target) (hmem : t ∈ block.succs) (hback : g.isBackEdge b t = false) :
    pending g placed t target.preds = pending g (b :: placed) t target.preds + 1 := by
  refine pending_cons_of_mem (hg.nodup_preds ht) ((hg.mem_iff hb ht).1 hmem) hback fun hin => ?_
  exact (List.nodup_cons.1 h.nodup).1 (List.mem_append_left _ hin)

theorem waits_self (h : Sound g b placed (t :: todo) w) (ht : g.block? t = some target) :
    w.waits[t]? = some (pending g placed t target.preds) := by
  rw [h.waits_eq ht, if_pos List.mem_cons_self]

theorem waits_of_ne (h : Sound g b placed (t :: todo) w) {k : BlockId} (hk : k ≠ t) (ht : g.block? k = some target) :
    w.waits[k]? = some (pending g (if k ∈ todo then placed else b :: placed) k target.preds) := by
  rw [h.waits_eq ht]
  simp [hk]

/-- An edge that closes a loop is not waited for. -/
theorem skip (h : Sound g b placed (t :: todo) w) (htodo : t ∉ todo) (hback : g.isBackEdge b t = true) :
    Sound g b placed todo w := by
  refine ⟨h.nodup, h.hasBlock, fun {k kblock} hkb => ?_, h.free⟩
  by_cases hk : k = t
  · subst hk
    rw [h.waits_self hkb, if_neg htodo, pending_cons_of_isBackEdge hback]
  · exact h.waits_of_ne hk hkb

/-- A block that is not free is told. -/
theorem tell (h : Sound g b placed (t :: todo) w) (ht : g.block? t = some target) (htodo : t ∉ todo)
    (hnew : t ∉ b :: placed ++ w.ready) :
    Sound g b placed todo { w with waits := w.waits.insert t (pending g (b :: placed) t target.preds) } := by
  refine ⟨h.nodup, h.hasBlock, fun {k kblock} hkb => ?_, fun k hk hke => ?_⟩
  · simp only [Std.TreeMap.getElem?_insert, Graph.compare_eq_iff]
    by_cases hk : t = k
    · subst hk
      obtain rfl := Option.some.inj (ht.symm.trans hkb)
      rw [if_pos rfl, if_neg htodo]
    · rw [if_neg hk]
      exact h.waits_of_ne (Ne.symm hk) hkb
  · have hne : t ≠ k := fun e => hnew (e ▸ hk)
    simp only [Std.TreeMap.getElem?_insert, Graph.compare_eq_iff, if_neg hne]
    exact h.free k hk hke

/-- A block that waits for nothing is set free. -/
theorem setFree (h : Sound g b placed todo w) (ht : g.hasBlock t = true) (hnew : t ∉ b :: placed ++ w.ready)
    (hzero : w.waits[t]? = some 0) : Sound g b placed todo { w with ready := w.ready ++ [t] } := by
  have hsplit : ∀ k ∈ b :: placed ++ (w.ready ++ [t]), k ∈ b :: placed ++ w.ready ∨ k = t := by
    intro k hk
    rwa [← List.append_assoc, List.mem_append, List.mem_singleton] at hk
  refine ⟨?_, fun k hk => ?_, h.waits_eq, fun k hk hke => ?_⟩
  · rw [← List.append_assoc]
    exact List.Nodup.append h.nodup (List.nodup_singleton t) (by simpa using hnew)
  · rcases hsplit k hk with hk | rfl
    · exact h.hasBlock k hk
    · exact ht
  · rcases hsplit k hk with hk | rfl
    · exact h.free k hk hke
    · exact hzero

theorem release (hg : Linked g) (h : Sound g b placed (t :: todo) w) (hb : g.block? b = some block)
    (ht : g.block? t = some target) (hmem : t ∈ block.succs) (hentry : t ≠ entry) (htodo : t ∉ todo) :
    Sound g b placed todo (w.release g b t) := by
  unfold Walk.release
  by_cases hback : g.isBackEdge b t = true
  · rw [if_pos hback]
    exact h.skip htodo hback
  · have hcount := h.pending_eq hg hb ht hmem (by simpa using hback)
    -- A block that is free waits for nothing, but this one still waited for `b`.
    have hnew : t ∉ b :: placed ++ w.ready := by
      intro hin
      have := h.free t hin hentry
      rw [h.waits_self ht, hcount] at this
      simp at this
    have htold := h.tell ht htodo hnew
    rw [if_neg hback, h.waits_self ht]
    simp only [hcount, Nat.add_sub_cancel]
    split
    · next hzero =>
      refine htold.setFree (Graph.hasBlock_iff.2 ⟨target, ht⟩) hnew ?_
      rw [Std.TreeMap.getElem?_insert_self, hzero]
    · exact htold

theorem foldl_release (hg : Linked g) (hb : g.block? b = some block) (hentry : entry ∉ block.succs)
    (hsub : ∀ t ∈ todo, t ∈ block.succs) (htodo : todo.Nodup) (h : Sound g b placed todo w) :
    Sound g b placed [] (todo.foldl (Walk.release g b) w) := by
  induction todo generalizing w with
  | nil => exact h
  | cons t todo ih =>
    obtain ⟨hnot, htodo⟩ := List.nodup_cons.1 htodo
    have hmem : t ∈ block.succs := hsub t List.mem_cons_self
    obtain ⟨target, ht⟩ := Graph.hasBlock_iff.1 (hg.succ_mem hb hmem)
    have hne : t ≠ entry := fun e => hentry (e ▸ hmem)
    exact ih (fun k hk => hsub k (List.mem_cons_of_mem t hk)) htodo (h.release hg hb ht hmem hne hnot)

end Sound

/-- What holds of the walk between two blocks. -/
structure Between (g : Graph) (placed : List BlockId) (w : Walk) : Prop where
  nodup : (placed ++ w.ready).Nodup
  hasBlock : ∀ t ∈ placed ++ w.ready, g.hasBlock t = true
  waits_eq : ∀ {t : BlockId} {block : Block}, g.block? t = some block →
    w.waits[t]? = some (pending g placed t block.preds)
  free : ∀ t ∈ placed ++ w.ready, t ≠ entry → w.waits[t]? = some 0

/-- A block is placed before its successors are told. -/
theorem Between.sound {placed ready : List BlockId} {waits : Std.TreeMap BlockId Nat} {b : BlockId} {block : Block}
    (hg : Linked g) (h : Between g placed ⟨waits, b :: ready⟩) (hb : g.block? b = some block) :
    Sound g b placed block.succs ⟨waits, ready⟩ := by
  have hperm : (b :: placed ++ ready).Perm (placed ++ b :: ready) := List.perm_middle.symm
  refine ⟨hperm.nodup_iff.2 h.nodup, fun t ht => h.hasBlock t (hperm.mem_iff.1 ht), fun {t tblock} ht => ?_,
    fun t ht => h.free t (hperm.mem_iff.1 ht)⟩
  rw [h.waits_eq ht]
  split
  · rfl
  · next hnot => rw [pending_cons_of_not_mem fun hp => hnot ((hg.mem_iff hb ht).2 hp)]

/-- Placing a block keeps the walk sound. -/
theorem Between.place (hg : Linked g) (hentry : ∀ {b block}, g.block? b = some block → entry ∉ block.succs)
    {placed ready : List BlockId} {waits : Std.TreeMap BlockId Nat} {b : BlockId}
    (h : Between g placed ⟨waits, b :: ready⟩) :
    Between g (b :: placed) ((g.succs b).foldl (Walk.release g b) ⟨waits, ready⟩) := by
  obtain ⟨block, hb⟩ := Graph.hasBlock_iff.1 (h.hasBlock b (by simp))
  rw [Graph.succs_eq hb]
  have hend := (h.sound hg hb).foldl_release hg hb (hentry hb) (fun t ht => ht) (hg.nodup_succs hb)
  exact ⟨hend.nodup, hend.hasBlock, fun ht => by simpa using hend.waits_eq ht, hend.free⟩

/-- What the walk places, whether or not all blocks that are set free are there. -/
def sweep (g : Graph) : Nat → Walk → List BlockId → List BlockId
  | 0, _, placed => placed.reverse
  | fuel + 1, w, placed =>
    match w.ready with
    | [] => placed.reverse
    | b :: ready => sweep g fuel ((g.succs b).foldl (Walk.release g b) { w with ready }) (b :: placed)

/-- The walk finds all blocks that are set free, and places blocks of the graph, none of them twice. -/
theorem Between.walk (hg : Linked g) (hentry : ∀ {b block}, g.block? b = some block → entry ∉ block.succs)
    (fuel : Nat) {placed : List BlockId} {w : Walk} (h : Between g placed w) :
    walk g fuel w placed = .ok (sweep g fuel w placed) ∧ (sweep g fuel w placed).Nodup ∧
      ∀ b ∈ sweep g fuel w placed, g.hasBlock b = true := by
  have hstop : placed.reverse.Nodup ∧ ∀ b ∈ placed.reverse, g.hasBlock b = true := by
    refine ⟨List.nodup_reverse.2 (List.nodup_append.1 h.nodup).1, fun b hb => h.hasBlock b ?_⟩
    exact List.mem_append_left _ (List.mem_reverse.1 hb)
  induction fuel generalizing placed w with
  | zero => exact ⟨rfl, hstop⟩
  | succ fuel ih =>
    obtain ⟨waits, ready⟩ := w
    cases ready with
    | nil => exact ⟨rfl, hstop⟩
    | cons b ready =>
      have hnext := h.place hg hentry
      obtain ⟨block, hget, hb⟩ := Graph.exists_getBlock (h.hasBlock b (by simp))
      obtain ⟨hwalk, hsweep⟩ := ih hnext
        ⟨List.nodup_reverse.2 (List.nodup_append.1 hnext.nodup).1, fun k hk => hnext.hasBlock k
          (List.mem_append_left _ (List.mem_reverse.1 hk))⟩
      refine ⟨?_, hsweep⟩
      rw [Order.walk, sweep]
      dsimp only
      rw [hget, ← hwalk, Graph.succs_eq hb]
      rfl

theorem between_start (hentry : g.hasBlock entry = true) : Between g [] ⟨waits g, [entry]⟩ := by
  refine ⟨List.nodup_singleton entry, ?_, ?_, ?_⟩
  · intro t ht
    obtain rfl := List.mem_singleton.1 ht
    exact hentry
  · intro t block ht
    unfold Graph.block? at ht
    simp [waits, ht, pending]
  · intro t ht hne
    exact absurd (List.mem_singleton.1 ht) hne

/-- The blocks that the whole walk places. -/
def swept (g : Graph) : List BlockId :=
  sweep g (g.blockCount + 1) ⟨waits g, [entry]⟩ []

/-- The order is what the walk places, if it places as many blocks as there are. -/
theorem compute_eq (hg : Linked g) (hentry : ∀ {b block}, g.block? b = some block → entry ∉ block.succs)
    (he : g.hasBlock entry = true) :
    compute g = if (swept g).length = g.blockCount then .ok (swept g)
      else .error (.layout (.irreducible (g.blockCount - (swept g).length) g.blockCount)) := by
  unfold compute
  dsimp only
  rw [((between_start he).walk hg hentry (g.blockCount + 1)).1]
  rfl

/-- An accepted order holds each block of the graph once. -/
theorem compute_ok (hg : Linked g) (hentry : ∀ {b block}, g.block? b = some block → entry ∉ block.succs)
    (he : g.hasBlock entry = true) {order : List BlockId} (h : compute g = .ok order) :
    order.Nodup ∧ ∀ b, b ∈ order ↔ g.hasBlock b = true := by
  obtain ⟨-, hnodup, hhas⟩ := (between_start he).walk hg hentry (g.blockCount + 1)
  rw [compute_eq hg hentry he] at h
  split at h
  · next hlen =>
    obtain rfl := Except.ok.inj h
    have hsub : swept g ⊆ g.blockIds := fun b hb => Graph.mem_blockIds.2 (hhas b hb)
    have hperm := (List.subperm_of_subset hnodup hsub).perm_of_length_le
      (by rw [Graph.length_blockIds]; exact hlen.ge)
    exact ⟨hnodup, fun b => hperm.mem_iff.trans Graph.mem_blockIds⟩
  · cases h

end Destack.Ssa.Order
