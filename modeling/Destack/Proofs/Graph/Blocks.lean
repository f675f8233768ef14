import Mathlib.Tactic
import Std.Data.TreeMap.Lemmas
import Destack.Graph.Basic

/-!
# Looking at the blocks of a graph

Proofs look at the blocks of a graph through `block?` alone: each operation on a graph says here what it does to that
view. Operations that leave a part of every block as it was are compared by `Keeps`.
-/

namespace Destack.Graph

variable {g : Graph} {b k : BlockId}

theorem compare_eq_iff {a b : Nat} : compare a b = .eq ↔ a = b :=
  Std.LawfulEqOrd.compare_eq_iff_eq

@[simp] theorem block?_modifyBlock (g : Graph) (b k : BlockId) (f : Block → Block) :
    (g.modifyBlock b f).block? k = if k = b then (g.block? b).map f else g.block? k := by
  unfold modifyBlock block?
  simp only [Std.TreeMap.getElem?_modify, compare_eq_iff, eq_comm (a := b)]

@[simp] theorem block?_mapBlocks (g : Graph) (f : Block → Block) (b : BlockId) :
    (g.mapBlocks f).block? b = (g.block? b).map f := by
  unfold mapBlocks block?
  simp only [Std.TreeMap.getElem?_map]

theorem hasBlock_iff : g.hasBlock b = true ↔ ∃ block, g.block? b = some block := by
  unfold hasBlock block?
  rw [Std.TreeMap.contains_eq_isSome_getElem?, Option.isSome_iff_exists]

theorem hasBlock_eq_false_iff : g.hasBlock b = false ↔ g.block? b = none := by
  unfold hasBlock block?
  rw [Std.TreeMap.contains_eq_isSome_getElem?, Option.isSome_eq_false_iff, Option.isNone_iff_eq_none]

@[simp] theorem hasBlock_modifyBlock (g : Graph) (b k : BlockId) (f : Block → Block) :
    (g.modifyBlock b f).hasBlock k = g.hasBlock k :=
  Std.TreeMap.contains_modify

theorem getBlock_eq_ok {block : Block} : g.getBlock b = .ok block ↔ g.block? b = some block := by
  unfold getBlock
  cases g.block? b <;> simp

theorem exists_getBlock (h : g.hasBlock b = true) : ∃ block, g.getBlock b = .ok block ∧ g.block? b = some block := by
  obtain ⟨block, hb⟩ := hasBlock_iff.1 h
  exact ⟨block, getBlock_eq_ok.2 hb, hb⟩

theorem editBlock_eq_ok {g' : Graph} {f : Block → Block} :
    g.editBlock b f = .ok g' ↔ g.hasBlock b = true ∧ g.modifyBlock b f = g' := by
  unfold editBlock
  cases g.hasBlock b <;> simp

theorem editBlock_of_hasBlock (f : Block → Block) (h : g.hasBlock b = true) :
    g.editBlock b f = .ok (g.modifyBlock b f) :=
  editBlock_eq_ok.2 ⟨h, rfl⟩

theorem mem_blockList {block : Block} : (b, block) ∈ g.blockList ↔ g.block? b = some block :=
  Std.TreeMap.mem_toList_iff_getElem?_eq_some

theorem mem_blockIds : b ∈ g.blockIds ↔ g.hasBlock b = true :=
  Std.TreeMap.mem_keys.trans Std.TreeMap.mem_iff_contains

theorem pairwise_blockIds (g : Graph) : g.blockIds.Pairwise (· < ·) := by
  have h := Std.TreeMap.ordered_keys (t := g.blocks)
  exact h.imp fun h => Nat.compare_eq_lt.1 h

theorem nodup_blockIds (g : Graph) : g.blockIds.Nodup :=
  (pairwise_blockIds g).imp fun h => Nat.ne_of_lt h

theorem length_blockIds (g : Graph) : g.blockIds.length = g.blockCount :=
  Std.TreeMap.length_keys

theorem map_fst_blockList (g : Graph) : g.blockList.map Prod.fst = g.blockIds :=
  Std.TreeMap.map_fst_toList_eq_keys

theorem blockIds_eq_range {n : Nat} (h : ∀ b, g.hasBlock b = true ↔ b < n) : g.blockIds = List.range n := by
  refine (pairwise_blockIds g).eq_of_mem_iff List.pairwise_lt_range fun b => ?_
  rw [mem_blockIds, h, List.mem_range]

/-- The next number read off the list of numbers. In this form that of a given graph can be evaluated. -/
theorem nextBlock_eq_getLast? (g : Graph) : g.nextBlock = (g.blockIds.getLast?.map (· + 1)).getD 0 := by
  unfold nextBlock blockIds
  rw [Std.TreeMap.maxKey?_eq_getLast?_keys]
  cases g.blocks.keys.getLast? <;> rfl

/-- The next number is above those of all blocks. -/
theorem lt_nextBlock (h : g.hasBlock b = true) : b < g.nextBlock := by
  have hmem : b ∈ g.blocks := Std.TreeMap.mem_iff_contains.2 h
  unfold nextBlock
  cases hmax : g.blocks.maxKey? with
  | none =>
    rw [Std.TreeMap.maxKey?_eq_none_iff, Std.TreeMap.isEmpty_eq_false_iff_exists_mem.2 ⟨b, hmem⟩] at hmax
    cases hmax
  | some m =>
    have hle := (Std.TreeMap.maxKey?_eq_some_iff_mem_and_forall.1 hmax).2 b hmem
    rw [Nat.isLE_compare] at hle
    exact Nat.lt_succ_of_le hle

/-- The number below the next one is that of a block. -/
theorem hasBlock_of_nextBlock_eq (h : g.nextBlock = b + 1) : g.hasBlock b = true := by
  unfold nextBlock at h
  cases hmax : g.blocks.maxKey? with
  | none => simp [hmax] at h
  | some m =>
    obtain rfl : m = b := by simpa [hmax] using h
    exact Std.TreeMap.mem_iff_contains.1 (Std.TreeMap.maxKey?_eq_some_iff_mem_and_forall.1 hmax).1

theorem nextBlock_eq {n : Nat} (h : ∀ b, g.hasBlock b = true ↔ b < n) : g.nextBlock = n := by
  apply Nat.le_antisymm
  · cases hnext : g.nextBlock with
    | zero => exact Nat.zero_le n
    | succ b => exact (h b).1 (hasBlock_of_nextBlock_eq hnext)
  · by_contra hlt
    exact Nat.lt_irrefl _ (lt_nextBlock ((h g.nextBlock).2 (Nat.lt_of_not_le hlt)))

theorem block?_nextBlock (g : Graph) : g.block? g.nextBlock = none := by
  rw [← hasBlock_eq_false_iff, Bool.eq_false_iff]
  exact fun h => Nat.lt_irrefl _ (lt_nextBlock h)

theorem succs_eq {block : Block} (h : g.block? b = some block) : g.succs b = block.succs := by
  simp [succs, h]

theorem preds_eq {block : Block} (h : g.block? b = some block) : g.preds b = block.preds := by
  simp [preds, h]

/-! ## Fields that an operation on the blocks leaves alone -/

@[simp] theorem modifyBlock_starts (g : Graph) (b : BlockId) (f : Block → Block) :
    (g.modifyBlock b f).starts = g.starts := rfl
@[simp] theorem modifyBlock_nodes (g : Graph) (b : BlockId) (f : Block → Block) :
    (g.modifyBlock b f).nodes = g.nodes := rfl
@[simp] theorem modifyBlock_aliases (g : Graph) (b : BlockId) (f : Block → Block) :
    (g.modifyBlock b f).aliases = g.aliases := rfl
@[simp] theorem modifyBlock_instrs (g : Graph) (b : BlockId) (f : Block → Block) :
    (g.modifyBlock b f).instrs = g.instrs := rfl
@[simp] theorem modifyBlock_order (g : Graph) (b : BlockId) (f : Block → Block) :
    (g.modifyBlock b f).order = g.order := rfl
@[simp] theorem modifyBlock_registers (g : Graph) (b : BlockId) (f : Block → Block) :
    (g.modifyBlock b f).registers = g.registers := rfl

/-! ## Parts of blocks that stay the same -/

/-- Two graphs have the same blocks as far as a view of blocks shows. -/
def Keeps {γ : Type} (view : Block → γ) (g g' : Graph) : Prop :=
  ∀ b, (g'.block? b).map view = (g.block? b).map view

namespace Keeps

variable {γ δ : Type} {view : Block → γ} {g g' g'' : Graph}

theorem refl (view : Block → γ) (g : Graph) : Keeps view g g :=
  fun _ => rfl

theorem trans (h : Keeps view g g') (h' : Keeps view g' g'') : Keeps view g g'' :=
  fun b => (h' b).trans (h b)

theorem symm (h : Keeps view g g') : Keeps view g' g :=
  fun b => (h b).symm

/-- What shows in a view shows in a wider one. -/
theorem comp (h : Keeps view g g') (f : γ → δ) : Keeps (fun block => f (view block)) g g' := by
  intro b
  have := congrArg (Option.map f) (h b)
  simpa only [Option.map_map, Function.comp_def] using this

theorem modifyBlock (g : Graph) (b : BlockId) {f : Block → Block} (hf : ∀ block, view (f block) = view block) :
    Keeps view g (g.modifyBlock b f) := by
  intro k
  rw [block?_modifyBlock]
  split
  · next h =>
    subst h
    simp [Option.map_map, Function.comp_def, hf]
  · rfl

theorem mapBlocks (g : Graph) {f : Block → Block} (hf : ∀ block, view (f block) = view block) :
    Keeps view g (g.mapBlocks f) := by
  intro k
  simp [Option.map_map, Function.comp_def, hf]

/-- The block in the other graph. -/
theorem exists_block (h : Keeps view g g') {b : BlockId} {block : Block} (hb : g.block? b = some block) :
    ∃ block', g'.block? b = some block' ∧ view block' = view block := by
  have := h b
  rw [hb, Option.map_some, Option.map_eq_some_iff] at this
  exact this

theorem hasBlock_eq (h : Keeps view g g') (b : BlockId) : g'.hasBlock b = g.hasBlock b := by
  rw [Bool.eq_iff_iff, hasBlock_iff, hasBlock_iff]
  constructor
  · rintro ⟨block, hb⟩
    obtain ⟨block', hb', -⟩ := h.symm.exists_block hb
    exact ⟨block', hb'⟩
  · rintro ⟨block, hb⟩
    obtain ⟨block', hb', -⟩ := h.exists_block hb
    exact ⟨block', hb'⟩

end Keeps

end Destack.Graph
