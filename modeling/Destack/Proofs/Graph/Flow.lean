import Destack.Proofs.Graph.Layout
import Destack.Proofs.Graph.Traversal

/-!
# What flow analysis leaves alone

Apart from taking away blocks, the analysis only changes its own marks (`SameText`). A graph over code stays one, as
long as no block that is left refers to one that was taken away (`laid_analyze`), which `validate` finds out.
-/

namespace Destack.Graph

/-! ## Changes of marks -/

/-- A block without the marks of the analysis. -/
def unanalyzed (block : Block) : Block :=
  { block with
    isHead := false, isTail := false, visited := false, active := false, loopIndex := none, dominator := none
    awaited := 0, backEdges := 0 }

/-- Two graphs differ at most in marks of the analysis. -/
structure SameText (g g' : Graph) : Prop where
  keeps : Keeps unanalyzed g g'
  eq_with_blocks : g' = { g with blocks := g'.blocks, loops := g'.loops }

namespace SameText

variable {g g' g'' : Graph}

theorem refl (g : Graph) : SameText g g :=
  ⟨Keeps.refl _ g, rfl⟩

theorem trans (h : SameText g g') (h' : SameText g' g'') : SameText g g'' := by
  refine ⟨h.keeps.trans h'.keeps, ?_⟩
  rw [h'.eq_with_blocks, h.eq_with_blocks]

theorem modifyBlock (g : Graph) (b : BlockId) {f : Block → Block}
    (hf : ∀ block, unanalyzed (f block) = unanalyzed block) : SameText g (g.modifyBlock b f) :=
  ⟨Keeps.modifyBlock g b hf, rfl⟩

theorem mapBlocks (g : Graph) {f : Block → Block} (hf : ∀ block, unanalyzed (f block) = unanalyzed block) :
    SameText g (g.mapBlocks f) :=
  ⟨Keeps.mapBlocks g hf, rfl⟩

theorem setLoops (g : Graph) (n : Nat) : SameText g { g with loops := n } :=
  ⟨Keeps.refl _ g, rfl⟩

/-- Steps that only change marks do so in any number. -/
theorem foldl {α : Type} {f : Graph → α → Graph} (hf : ∀ g a, SameText g (f g a)) (g : Graph) (as : List α) :
    SameText g (as.foldl f g) := by
  induction as generalizing g with
  | nil => exact refl g
  | cons a as ih => exact (hf g a).trans (ih (f g a))

theorem starts_eq (h : SameText g g') : g'.starts = g.starts :=
  (congrArg Graph.starts h.eq_with_blocks).trans rfl

end SameText

theorem clearFlow_sameText (g : Graph) : SameText g g.clearFlow :=
  SameText.mapBlocks g fun _ => rfl

theorem closeLoop_sameText (g : Graph) (head : BlockId) (tail : Option BlockId) :
    SameText g (g.closeLoop head tail) := by
  have hcount : SameText g (if ((g.block? head).map (·.loopIndex.isNone)).getD false
      then { g with loops := g.loops + 1 } else g) := by
    split
    · exact SameText.setLoops g _
    · exact SameText.refl g
  unfold closeLoop
  cases tail with
  | none => exact hcount.trans (SameText.modifyBlock _ head fun _ => rfl)
  | some t =>
    refine hcount.trans (SameText.trans (SameText.modifyBlock _ head ?_) (SameText.modifyBlock _ t ?_))
    · exact fun _ => rfl
    · exact fun _ => rfl

theorem seeEdge_sameText (g : Graph) (source target : BlockId) : SameText g (g.seeEdge source target) :=
  SameText.modifyBlock g target fun _ => rfl

theorem clearDominators_sameText (g : Graph) : SameText g g.clearDominators :=
  SameText.mapBlocks g fun _ => rfl

namespace Traversal

/-- A traversal only changes marks if it does no more when it arrives at a block or leaves one. -/
theorem visit_sameText {w : Traversal} (harrive : ∀ pred b g, SameText g (w.arrive pred b g).2)
    (hleave : ∀ b g, SameText g (w.leave b g)) (depth : Nat) (b : BlockId) (pred : Option BlockId) (g : Graph) :
    SameText g (w.visit depth b pred g) := by
  induction depth generalizing b pred g with
  | zero => exact SameText.refl g
  | succ depth ih =>
    have hfirst := harrive pred b g
    cases h : w.arrive pred b g with
    | mk go g₁ =>
      rw [h] at hfirst
      cases go with
      | false =>
        rw [visit_pass depth h]
        exact hfirst
      | true =>
        rw [visit_enter depth h]
        exact hfirst.trans ((SameText.foldl (fun g t => ih t (some b) g) _ _).trans (hleave b _))

theorem visit_loops_sameText (depth : Nat) (b : BlockId) (pred : Option BlockId) (g : Graph) :
    SameText g (loops.visit depth b pred g) := by
  refine visit_sameText (fun pred b g => ?_) (fun b g => ?_) depth b pred g
  · unfold loops
    dsimp only
    split
    · exact SameText.refl g
    · split
      · exact closeLoop_sameText g b pred
      · split
        · exact SameText.refl g
        · exact SameText.modifyBlock g b fun _ => rfl
  · unfold loops
    exact SameText.modifyBlock g b fun _ => rfl

theorem visit_dominators_sameText (depth : Nat) (b : BlockId) (pred : Option BlockId) (g : Graph) :
    SameText g (dominators.visit depth b pred g) := by
  refine visit_sameText (fun pred b g => ?_) (fun b g => SameText.refl g) depth b pred g
  cases pred with
  | none => exact SameText.refl g
  | some p => exact seeEdge_sameText g p b

end Traversal

theorem findDominators_sameText (g : Graph) : SameText g g.findDominators :=
  (clearDominators_sameText g).trans (Traversal.visit_dominators_sameText _ _ _ _)

/-! ## Graphs over code -/

/-- Blocks are found by the addresses that they start at, and no two blocks have an address in common. -/
structure Charted (g : Graph) : Prop where
  blockAt?_iff : ∀ {a : Nat} {t : BlockId},
    g.blockAt? a = some t ↔ ∃ block, g.block? t = some block ∧ block.start? = some a
  eq_of_address : ∀ {b b' : BlockId} {block block' : Block}, g.block? b = some block → g.block? b' = some block' →
    ∀ i ∈ block.instructions, ∀ j ∈ block'.instructions, i.address = j.address → b = b'

theorem Laid.charted {code : List Instruction} {addr : BlockId → Nat} {g : Graph} (h : Laid code addr g) : Charted g :=
  ⟨h.blockAt?_iff, h.eq_of_address⟩

/-- In a part of a graph blocks are found by their addresses, if it finds exactly the blocks it has. -/
theorem Charted.restrict {g g' : Graph} (h : Charted g)
    (hold : ∀ {b : BlockId} {block' : Block}, g'.block? b = some block' →
      ∃ block, g.block? b = some block ∧ block.instructions = block'.instructions)
    (hat : ∀ {a : Nat} {t : BlockId}, g'.blockAt? a = some t ↔ g.blockAt? a = some t ∧ g'.hasBlock t = true) :
    Charted g' := by
  constructor
  case blockAt?_iff =>
    intro a t
    rw [hat, h.blockAt?_iff, hasBlock_iff]
    constructor
    · rintro ⟨⟨block₀, ht₀, ha⟩, block, ht⟩
      obtain ⟨_, hb₀, hi⟩ := hold ht
      obtain rfl := Option.some.inj (ht₀.symm.trans hb₀)
      exact ⟨block, ht, by rw [← ha, Block.start?, Block.start?, hi]⟩
    · rintro ⟨block, ht, ha⟩
      obtain ⟨block₀, hb₀, hi⟩ := hold ht
      exact ⟨⟨block₀, hb₀, by rw [← ha, Block.start?, Block.start?, hi]⟩, block, ht⟩
  case eq_of_address =>
    intro b b' block block' hb hb' i hi j hj
    obtain ⟨_, hb₀, hinstr⟩ := hold hb
    obtain ⟨_, hb₀', hinstr'⟩ := hold hb'
    exact h.eq_of_address hb₀ hb₀' i (hinstr ▸ hi) j (hinstr' ▸ hj)

theorem Charted.of_sameText {g g' : Graph} (h : Charted g) (hs : SameText g g') : Charted g' := by
  refine h.restrict ?_ ?_
  · intro b block hb
    obtain ⟨block₀, hb₀, hview⟩ := hs.keeps.symm.exists_block hb
    exact ⟨block₀, hb₀, (congrArg Block.instructions hview :)⟩
  · intro a t
    rw [hs.keeps.hasBlock_eq, blockAt?, hs.starts_eq]
    refine ⟨fun ht => ⟨ht, ?_⟩, And.left⟩
    obtain ⟨block, hb, -⟩ := h.blockAt?_iff.1 ht
    exact hasBlock_iff.2 ⟨block, hb⟩

/-- A part of a graph over code is one, if it is linked and finds exactly the blocks it has. -/
theorem Laid.restrict {code : List Instruction} {addr : BlockId → Nat} {g g' : Graph} (h : Laid code addr g)
    (hlinked : Linked g')
    (hold : ∀ {b : BlockId} {block' : Block}, g'.block? b = some block' →
      ∃ block, g.block? b = some block ∧ block.instructions = block'.instructions ∧ block.succs = block'.succs)
    (hat : ∀ {a : Nat} {t : BlockId}, g'.blockAt? a = some t ↔ g.blockAt? a = some t ∧ g'.hasBlock t = true) :
    Laid code addr g' := by
  have htarget : ∀ {target : Int} {t : BlockId}, g'.blockAtTarget? target = some t →
      g.blockAtTarget? target = some t := by
    intro target t ht
    cases target with
    | ofNat a => exact (hat.1 ht).1
    | negSucc a => cases ht
  have hcharted : Charted g' := h.charted.restrict (fun hb => (hold hb).imp fun _ h => ⟨h.1, h.2.1⟩) hat
  constructor
  case linked => exact hlinked
  case addr_entry => exact h.addr_entry
  case contiguous =>
    intro b block hb
    obtain ⟨_, hb₀, hi, -⟩ := hold hb
    exact hi ▸ h.contiguous hb₀
  case mem_code =>
    intro b block hb
    obtain ⟨_, hb₀, hi, -⟩ := hold hb
    exact hi ▸ h.mem_code hb₀
  case category_inner =>
    intro b block hb
    obtain ⟨_, hb₀, hi, -⟩ := hold hb
    exact hi ▸ h.category_inner hb₀
  case ne_nil =>
    intro b block hb
    obtain ⟨_, hb₀, hi, -⟩ := hold hb
    exact hi ▸ h.ne_nil hb₀
  case blockAt?_iff => exact hcharted.blockAt?_iff
  case eq_of_address => exact hcharted.eq_of_address
  case entry_not_mem =>
    intro b block hb
    obtain ⟨_, hb₀, -, hs⟩ := hold hb
    exact hs ▸ h.entry_not_mem hb₀
  case falls =>
    intro b block hb hcat
    obtain ⟨_, hb₀, hi, hs⟩ := hold hb
    obtain ⟨t, hsuccs, ht⟩ := h.falls hb₀ (hi ▸ hcat)
    rw [hs] at hsuccs
    rw [hi] at ht
    exact ⟨t, hsuccs, hat.2 ⟨ht, hlinked.succ_mem hb (hsuccs ▸ List.mem_singleton_self t)⟩⟩
  case branch_next =>
    intro b t block last hb hlast hcat ht
    obtain ⟨_, hb₀, hi, hs⟩ := hold hb
    exact hs ▸ h.branch_next hb₀ (hi ▸ hlast) hcat (hat.1 ht).1
  case jump_target =>
    intro b t block last hb hlast target hmem ht
    obtain ⟨_, hb₀, hi, hs⟩ := hold hb
    exact hs ▸ h.jump_target hb₀ (hi ▸ hlast) target hmem (htarget ht)
  case succ_source =>
    intro b t block last hb hlast hcat ht
    have hhas := hlinked.succ_mem hb ht
    obtain ⟨_, hb₀, hi, hs⟩ := hold hb
    rcases h.succ_source hb₀ (hi ▸ hlast) hcat (hs ▸ ht) with ⟨target, hmem, hat'⟩ | ⟨hbranch, hnext⟩
    · refine Or.inl ⟨target, hmem, ?_⟩
      cases target with
      | ofNat a => exact hat.2 ⟨hat', hhas⟩
      | negSucc a => cases hat'
    · exact Or.inr ⟨hbranch, hat.2 ⟨hnext, hhas⟩⟩

/-- The part of a block that the layout made. -/
def textOf (block : Block) : List Instruction × List BlockId × List BlockId :=
  (block.instructions, block.preds, block.succs)

theorem Keeps.old_text {g g' : Graph} (h : Keeps textOf g g') {b : BlockId} {block' : Block}
    (hb : g'.block? b = some block') :
    ∃ block, g.block? b = some block ∧ block.instructions = block'.instructions ∧ block.preds = block'.preds ∧
      block.succs = block'.succs := by
  obtain ⟨block, hb', hview⟩ := h.symm.exists_block hb
  obtain ⟨hi, hedges⟩ := Prod.mk.inj hview
  exact ⟨block, hb', hi, Prod.mk.inj hedges⟩

theorem Linked.of_keeps {g g' : Graph} (h : Linked g) (hk : Keeps textOf g g') : Linked g' := by
  constructor
  case mem_iff =>
    intro b t block target hb ht
    obtain ⟨_, hb₀, -, -, hsuccs⟩ := hk.old_text hb
    obtain ⟨_, ht₀, -, hpreds, -⟩ := hk.old_text ht
    exact hsuccs ▸ hpreds ▸ h.mem_iff hb₀ ht₀
  case nodup_succs =>
    intro b block hb
    obtain ⟨_, hb₀, -, -, hsuccs⟩ := hk.old_text hb
    exact hsuccs ▸ h.nodup_succs hb₀
  case nodup_preds =>
    intro b block hb
    obtain ⟨_, hb₀, -, hpreds, -⟩ := hk.old_text hb
    exact hpreds ▸ h.nodup_preds hb₀
  case succ_mem =>
    intro b t block hb ht
    obtain ⟨_, hb₀, -, -, hsuccs⟩ := hk.old_text hb
    rw [hk.hasBlock_eq]
    exact h.succ_mem hb₀ (hsuccs ▸ ht)
  case pred_mem =>
    intro b t block hb ht
    obtain ⟨_, hb₀, -, hpreds, -⟩ := hk.old_text hb
    rw [hk.hasBlock_eq]
    exact h.pred_mem hb₀ (hpreds ▸ ht)

/-- A graph with the same text is laid out over the same code. -/
theorem Laid.of_keeps {code : List Instruction} {addr : BlockId → Nat} {g g' : Graph} (h : Laid code addr g)
    (hk : Keeps textOf g g') (hstarts : g'.starts = g.starts) : Laid code addr g' := by
  refine h.restrict (h.linked.of_keeps hk) ?_ ?_
  · intro b block' hb
    obtain ⟨block, hb₀, hi, -, hsuccs⟩ := hk.old_text hb
    exact ⟨block, hb₀, hi, hsuccs⟩
  · intro a t
    rw [hk.hasBlock_eq, blockAt?, hstarts]
    refine ⟨fun ht => ⟨ht, ?_⟩, And.left⟩
    obtain ⟨block, hb, -⟩ := h.blockAt?_iff.1 ht
    exact hasBlock_iff.2 ⟨block, hb⟩

theorem Laid.of_sameText {code : List Instruction} {addr : BlockId → Nat} {g g' : Graph} (h : Laid code addr g)
    (hs : SameText g g') : Laid code addr g' :=
  h.of_keeps (hs.keeps.comp textOf) hs.starts_eq

/-! ## Pruning -/

theorem getElem?_foldl_erase (is : List Instruction) (starts : Std.TreeMap Nat BlockId) {a : Nat} {t : BlockId} :
    (is.foldl (fun starts i => starts.erase i.address) starts)[a]? = some t ↔
      starts[a]? = some t ∧ ∀ i ∈ is, i.address ≠ a := by
  induction is generalizing starts with
  | nil => simp
  | cons i is ih =>
    rw [List.foldl_cons, ih, Std.TreeMap.getElem?_erase, List.forall_mem_cons]
    simp only [compare_eq_iff]
    split
    · next h => simp [h]
    · next h => simp [h]

theorem block?_eraseBlock (g : Graph) (b k : BlockId) :
    (g.eraseBlock b).block? k = if k = b then none else g.block? k := by
  unfold eraseBlock
  cases hb : g.block? b with
  | none =>
    by_cases hk : k = b
    · simp [hk, hb]
    · simp [hk]
  | some block =>
    unfold block?
    simp only [Std.TreeMap.getElem?_erase, compare_eq_iff, eq_comm (a := b)]

theorem blockAt?_eraseBlock (g : Graph) (b : BlockId) {a : Nat} {t : BlockId} :
    (g.eraseBlock b).blockAt? a = some t ↔
      g.blockAt? a = some t ∧ ∀ block, g.block? b = some block → ∀ i ∈ block.instructions, i.address ≠ a := by
  unfold eraseBlock
  cases hb : g.block? b with
  | none => simp
  | some block =>
    unfold blockAt?
    simp only [getElem?_foldl_erase, Option.some.injEq, forall_eq']

theorem block?_foldl_eraseBlock (g : Graph) (dead : List BlockId) (k : BlockId) :
    (dead.foldl eraseBlock g).block? k = if k ∈ dead then none else g.block? k := by
  induction dead generalizing g with
  | nil => simp
  | cons b dead ih =>
    rw [List.foldl_cons, ih, block?_eraseBlock]
    by_cases hk : k = b
    · simp [hk]
    · simp [hk]

theorem blockAt?_foldl_eraseBlock (g : Graph) (dead : List BlockId) {a : Nat} {t : BlockId} :
    (dead.foldl eraseBlock g).blockAt? a = some t ↔
      g.blockAt? a = some t ∧
        ∀ b ∈ dead, ∀ block, g.block? b = some block → ∀ i ∈ block.instructions, i.address ≠ a := by
  induction dead generalizing g with
  | nil => simp
  | cons b dead ih =>
    rw [List.foldl_cons, ih, blockAt?_eraseBlock, and_assoc, List.forall_mem_cons]
    refine and_congr_right fun _ => and_congr_right fun hb => ?_
    constructor
    · intro h k hk block hblock
      by_cases hkb : k = b
      · exact hb block (hkb ▸ hblock)
      · exact h k hk block (by rw [block?_eraseBlock, if_neg hkb, hblock])
    · intro h k hk block hblock
      rw [block?_eraseBlock] at hblock
      split at hblock
      · cases hblock
      · exact h k hk block hblock

theorem foldl_eraseBlock_eq (g : Graph) (dead : List BlockId) :
    dead.foldl eraseBlock g =
      { g with blocks := (dead.foldl eraseBlock g).blocks, starts := (dead.foldl eraseBlock g).starts } := by
  induction dead generalizing g with
  | nil => rfl
  | cons b dead ih =>
    rw [List.foldl_cons, ih]
    have : g.eraseBlock b =
        { g with blocks := (g.eraseBlock b).blocks, starts := (g.eraseBlock b).starts } := by
      unfold eraseBlock
      split <;> rfl
    rw [this]

/-- The blocks that pruning takes away. -/
def dead (g : Graph) : List BlockId :=
  (g.blockList.filter fun (_, block) => !block.visited).map (·.1)

theorem mem_dead {g : Graph} {b : BlockId} : b ∈ g.dead ↔ ∃ block, g.block? b = some block ∧ block.visited = false := by
  unfold dead
  simp only [List.mem_map, List.mem_filter, Prod.exists, mem_blockList]
  constructor
  · rintro ⟨k, block, ⟨hb, hv⟩, rfl⟩
    exact ⟨block, hb, by simpa using hv⟩
  · rintro ⟨block, hb, hv⟩
    exact ⟨b, block, ⟨hb, by simp [hv]⟩, rfl⟩

theorem survives_iff {g : Graph} {b : BlockId} : g.survives b = true ↔ b ∉ g.dead := by
  rw [mem_dead]
  unfold survives
  cases g.block? b with
  | none => simp
  | some block => simp

/-- Pruning keeps the blocks that were reached and forgets the other ones as predecessors. -/
theorem block?_prune (g : Graph) (b : BlockId) :
    g.prune.2.block? b =
      if b ∈ g.dead then none
      else (g.block? b).map fun block => { block with preds := block.preds.filter g.survives } := by
  have hprune : g.prune.2 = if g.dead.isEmpty then g
      else (g.dead.foldl eraseBlock g).mapBlocks fun b => { b with preds := b.preds.filter g.survives } := by
    unfold prune dead
    dsimp only
    split <;> rfl
  rw [hprune]
  split
  · next hempty =>
    have hnil : g.dead = [] := by simpa using hempty
    have hall : ∀ xs : List BlockId, xs.filter g.survives = xs := fun xs =>
      List.filter_eq_self.2 fun x _ => survives_iff.2 (by simp [hnil])
    simp [hnil, hall]
  · rw [block?_mapBlocks, block?_foldl_eraseBlock]
    split <;> rfl

theorem blockAt?_prune (g : Graph) {a : Nat} {t : BlockId} :
    g.prune.2.blockAt? a = some t ↔
      g.blockAt? a = some t ∧
        ∀ b ∈ g.dead, ∀ block, g.block? b = some block → ∀ i ∈ block.instructions, i.address ≠ a := by
  unfold prune
  dsimp only
  split
  · next hempty =>
    have hnil : g.dead = [] := by simpa [dead] using hempty
    simp [hnil]
  · exact blockAt?_foldl_eraseBlock g g.dead

theorem prune_eq (g : Graph) :
    g.prune.2 = { g with blocks := g.prune.2.blocks, starts := g.prune.2.starts } := by
  unfold prune
  dsimp only
  split
  · rfl
  · rw [mapBlocks, foldl_eraseBlock_eq]

theorem block?_prune_eq_some {g : Graph} {b : BlockId} {block : Block} (hb : g.prune.2.block? b = some block) :
    b ∉ g.dead ∧
      ∃ block₀, g.block? b = some block₀ ∧ block = { block₀ with preds := block₀.preds.filter g.survives } := by
  rw [block?_prune] at hb
  split at hb
  · cases hb
  · next hdead =>
    obtain ⟨block₀, hb₀, rfl⟩ := Option.map_eq_some_iff.1 hb
    exact ⟨hdead, block₀, hb₀, rfl⟩

theorem Linked.prune {g : Graph} (h : Linked g)
    (hclosed : ∀ {b : BlockId} {block : Block}, g.prune.2.block? b = some block → ∀ t ∈ block.succs,
      g.prune.2.hasBlock t = true) : Linked g.prune.2 := by
  constructor
  case mem_iff =>
    intro b t block target hb ht
    obtain ⟨hdead, block₀, hb₀, rfl⟩ := block?_prune_eq_some hb
    obtain ⟨-, target₀, ht₀, rfl⟩ := block?_prune_eq_some ht
    simp only [List.mem_filter, survives_iff.2 hdead, and_true]
    exact h.mem_iff hb₀ ht₀
  case nodup_succs =>
    intro b block hb
    obtain ⟨-, block₀, hb₀, rfl⟩ := block?_prune_eq_some hb
    exact (h.nodup_succs hb₀ :)
  case nodup_preds =>
    intro b block hb
    obtain ⟨-, block₀, hb₀, rfl⟩ := block?_prune_eq_some hb
    exact (h.nodup_preds hb₀).filter _
  case succ_mem =>
    intro b t block hb ht
    exact hclosed hb t ht
  case pred_mem =>
    intro b t block hb ht
    obtain ⟨-, block₀, hb₀, rfl⟩ := block?_prune_eq_some hb
    obtain ⟨ht, hsurvives⟩ := List.mem_filter.1 ht
    obtain ⟨target, htarget⟩ := hasBlock_iff.1 (h.pred_mem hb₀ ht)
    rw [hasBlock_iff, block?_prune, if_neg (survives_iff.1 hsurvives), htarget]
    exact ⟨_, rfl⟩

/-- Pruning forgets just the addresses of the blocks that it takes away. -/
theorem Charted.blockAt?_prune {g : Graph} (h : Charted g) {a : Nat} {t : BlockId} :
    g.prune.2.blockAt? a = some t ↔ g.blockAt? a = some t ∧ g.prune.2.hasBlock t = true := by
  rw [Graph.blockAt?_prune, hasBlock_iff]
  refine and_congr_right fun ht => ?_
  obtain ⟨block, hb, ha⟩ := h.blockAt?_iff.1 ht
  obtain ⟨i, hi, rfl⟩ := Option.map_eq_some_iff.1 ha
  constructor
  · intro hdead
    have : t ∉ g.dead := fun hmem => hdead t hmem block hb i (List.mem_of_head? hi) rfl
    rw [block?_prune, if_neg this, hb]
    exact ⟨_, rfl⟩
  · rintro ⟨block', hb'⟩ k hk kblock hkb j hj haddr
    obtain rfl := h.eq_of_address hb hkb i (List.mem_of_head? hi) j hj haddr.symm
    rw [block?_prune, if_pos hk] at hb'
    cases hb'

/-- Pruning a graph over code leaves a graph over code, if no block left refers to one taken away. -/
theorem Laid.prune {code : List Instruction} {addr : BlockId → Nat} {g : Graph} (h : Laid code addr g)
    (hclosed : ∀ {b : BlockId} {block : Block}, g.prune.2.block? b = some block → ∀ t ∈ block.succs,
      g.prune.2.hasBlock t = true) : Laid code addr g.prune.2 := by
  refine h.restrict (h.linked.prune hclosed) ?_ ?_
  · intro b block' hb
    obtain ⟨-, block, hb₀, rfl⟩ := block?_prune_eq_some hb
    exact ⟨block, hb₀, rfl, rfl⟩
  · exact h.charted.blockAt?_prune

/-! ## The whole analysis -/

theorem validate_eq_ok {g : Graph} : g.validate = .ok () ↔ ∀ b ∈ g.references, g.hasBlock b = true := by
  unfold validate
  split
  · next b hb =>
    have hmem := List.mem_of_find?_eq_some hb
    have hnot := List.find?_some hb
    simp only [reduceCtorEq, false_iff]
    intro h
    simp [h b hmem] at hnot
  · next hnone =>
    simpa using hnone

theorem Linked.validate {g : Graph} (h : Linked g) (hentry : g.hasBlock entry = true)
    (horder : ∀ b ∈ g.order, g.hasBlock b = true) : g.validate = .ok () := by
  rw [validate_eq_ok]
  intro b hb
  simp only [references, List.cons_append, List.mem_cons, List.mem_append, List.mem_flatMap, Prod.exists,
    mem_blockList] at hb
  rcases hb with rfl | ⟨k, block, hk, hb | hb⟩ | hb
  · exact hentry
  · exact h.succ_mem hk hb
  · exact h.pred_mem hk hb
  · exact horder b hb

theorem hasBlock_entry_of_validate {g : Graph} (h : g.validate = .ok ()) : g.hasBlock entry = true :=
  validate_eq_ok.1 h entry (by simp [references])

theorem hasBlock_succ_of_validate {g : Graph} (h : g.validate = .ok ()) {b t : BlockId} {block : Block}
    (hb : g.block? b = some block) (ht : t ∈ block.succs) : g.hasBlock t = true := by
  refine validate_eq_ok.1 h t ?_
  unfold references
  refine List.mem_append_left _ (List.mem_cons_of_mem _ (List.mem_flatMap.2 ⟨(b, block), ?_, ?_⟩))
  · exact mem_blockList.2 hb
  · exact List.mem_append_left _ ht

theorem Fresh.of_sameText {g g' : Graph} (h : Fresh g) (hs : SameText g g') : Fresh g' := by
  have hblock : ∀ {b : BlockId} {block : Block}, g'.block? b = some block → block.nodes = #[] ∧ block.code = #[] := by
    intro b block hb
    obtain ⟨block₀, hb₀, hview⟩ := hs.keeps.symm.exists_block hb
    have hn : block₀.nodes = block.nodes := (congrArg Block.nodes hview :)
    have hc : block₀.code = block.code := (congrArg Block.code hview :)
    exact ⟨hn ▸ h.block_nodes hb₀, hc ▸ h.block_code hb₀⟩
  rw [hs.eq_with_blocks] at hblock ⊢
  exact ⟨h.nodes_eq, h.aliases_eq, h.instrs_eq, h.order_eq, h.registers_eq, fun hb => (hblock hb).1,
    fun hb => (hblock hb).2⟩

theorem Fresh.prune {g : Graph} (h : Fresh g) : Fresh g.prune.2 := by
  have hblock : ∀ {b : BlockId} {block : Block}, g.prune.2.block? b = some block →
      block.nodes = #[] ∧ block.code = #[] := by
    intro b block hb
    obtain ⟨-, block₀, hb₀, rfl⟩ := block?_prune_eq_some hb
    exact ⟨(h.block_nodes hb₀ :), (h.block_code hb₀ :)⟩
  rw [prune_eq] at hblock ⊢
  exact ⟨h.nodes_eq, h.aliases_eq, h.instrs_eq, h.order_eq, h.registers_eq, fun hb => (hblock hb).1,
    fun hb => (hblock hb).2⟩

/-- An analysis that ends well is made of the marks of the two walks. -/
theorem analyze_eq {g g' : Graph} {summary : FlowSummary} (h : g.analyze = .ok (summary, g')) :
    g.validate = .ok () ∧ summary = ⟨g'.loopHeadCount, g.clearFlow.findLoops.prune.1⟩ ∧
      g' = g.clearFlow.findLoops.prune.2.findDominators := by
  unfold analyze at h
  obtain ⟨⟨⟩, hvalid, h⟩ := except_bind_eq_ok.1 h
  obtain ⟨g₁, hg₁, h⟩ := except_bind_eq_ok.1 h
  obtain ⟨g₂, hg₂, h⟩ := except_bind_eq_ok.1 h
  obtain rfl : g₁ = g.clearFlow.findLoops := Traversal.searchLoopsFrom_eq_ok hg₁
  obtain ⟨rfl, rfl⟩ := Prod.mk.inj (except_pure_eq_ok.1 h)
  exact ⟨hvalid, rfl, Traversal.walkDominatorsFrom_eq_ok hg₂⟩

theorem analyze_eq_ok {g g' : Graph} {summary : FlowSummary} (h : g.analyze = .ok (summary, g')) :
    ∃ g₁, SameText g g₁ ∧ SameText g₁.prune.2 g' := by
  obtain ⟨-, -, rfl⟩ := analyze_eq h
  refine ⟨g.clearFlow.findLoops, (clearFlow_sameText g).trans (Traversal.visit_loops_sameText _ _ _ _), ?_⟩
  exact findDominators_sameText _

/-- An analysed graph over code is one, if it is valid. -/
theorem laid_analyze {code : List Instruction} {addr : BlockId → Nat} {g g' : Graph} {summary : FlowSummary}
    (h : Laid code addr g) (ha : g.analyze = .ok (summary, g')) (hv : g'.validate = .ok ()) : Laid code addr g' := by
  obtain ⟨g₁, hmarks, hdom⟩ := analyze_eq_ok ha
  refine ((h.of_sameText hmarks).prune ?_).of_sameText hdom
  intro b block hb t ht
  obtain ⟨block', hb', hview⟩ := hdom.keeps.exists_block hb
  have hsuccs : block'.succs = block.succs := (congrArg Block.succs hview :)
  rw [← hdom.keeps.hasBlock_eq]
  exact hasBlock_succ_of_validate hv hb' (hsuccs ▸ ht)

theorem fresh_analyze {g g' : Graph} {summary : FlowSummary} (h : Fresh g) (ha : g.analyze = .ok (summary, g')) :
    Fresh g' := by
  obtain ⟨g₁, hmarks, hdom⟩ := analyze_eq_ok ha
  exact (h.of_sameText hmarks).prune.of_sameText hdom

end Destack.Graph
