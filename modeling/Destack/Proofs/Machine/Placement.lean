import Destack.Proofs.Graph.LoopSearch
import Destack.Proofs.Machine.Code

/-!
# Places of instructions

Blocks hold their instructions by number. As long as no number stands in two places (`Graph.PlacedOnce`), taking the
instructions out of the table block by block and numbering them anew gives new names to those that are placed and
leaves all else as it was (`Graph.Compacts`): afterwards the numbers, read block by block, count up from zero, and every
line of the table carries its own position.
-/

namespace Destack

theorem Machine.perm_insertBeforeJump (g : Graph) (code ids : Array InstrId) :
    (insertBeforeJump g code ids).toList.Perm (code.toList ++ ids.toList) := by
  unfold insertBeforeJump
  split
  · next last hlast =>
    split
    · have hcode : code.toList = code.pop.toList ++ [last] := by
        rw [← Array.getLast?_toList] at hlast
        rw [Array.toList_pop, List.dropLast_append_getLast? last hlast]
      rw [Array.toList_push, Array.toList_append, hcode, List.append_assoc, List.append_assoc]
      exact List.perm_append_comm.append_left _
    · rw [Array.toList_append]
  · next hlast =>
    rw [Array.back?_eq_none_iff.1 hlast]
    exact List.Perm.refl _

namespace Graph

variable {g g' : Graph} {b : BlockId}

/-! ## Numbers block by block -/

/-- The numbers of the instructions of a block. -/
def numbersOf (g : Graph) (b : BlockId) : List InstrId :=
  ((g.block? b).map (·.code.toList)).getD []

theorem numbersOf_eq {block : Block} (h : g.block? b = some block) : g.numbersOf b = block.code.toList := by
  rw [numbersOf, h, Option.map_some, Option.getD_some]

theorem numbersOf_modifyBlock_self {block : Block} (h : g.block? b = some block) (f : Block → Block) :
    (g.modifyBlock b f).numbersOf b = (f block).code.toList :=
  numbersOf_eq (by rw [block?_modifyBlock, if_pos rfl, h, Option.map_some])

theorem numbersOf_modifyBlock_of_ne (g : Graph) {k : BlockId} (hk : k ≠ b) (f : Block → Block) :
    (g.modifyBlock b f).numbersOf k = g.numbersOf k := by
  rw [numbersOf, block?_modifyBlock, if_neg hk, numbersOf]

theorem placed_eq (g : Graph) : g.placed = g.blockIds.flatMap g.numbersOf := by
  rw [placed, ← map_fst_blockList, List.flatMap_map]
  exact List.flatMap_congr fun entry he => (numbersOf_eq (mem_blockList.1 he)).symm

/-- Lists that get longer at one key make a longer list in all. -/
theorem perm_flatMap_update {α : Type} {keys : List BlockId} (hkeys : keys.Nodup) (hb : b ∈ keys)
    {f f' : BlockId → List α} {xs : List α} (hself : (f' b).Perm (f b ++ xs)) (hother : ∀ k, k ≠ b → f' k = f k) :
    (keys.flatMap f').Perm (keys.flatMap f ++ xs) := by
  obtain ⟨front, rest, rfl⟩ := List.append_of_mem hb
  rw [List.nodup_append] at hkeys
  have hfront : front.flatMap f' = front.flatMap f :=
    List.flatMap_congr fun k hk => hother k fun e => hkeys.2.2 k hk b List.mem_cons_self e
  have hrest : rest.flatMap f' = rest.flatMap f :=
    List.flatMap_congr fun k hk => hother k fun e => (List.nodup_cons.1 hkeys.2.1).1 (e ▸ hk)
  simp only [List.flatMap_append, List.flatMap_cons, hfront, hrest, List.append_assoc]
  refine List.Perm.append_left _ ((hself.append_right _).trans ?_)
  rw [List.append_assoc]
  exact List.perm_append_comm.append_left _

/-! ## Instructions at the end of a block -/

/-- New instructions get the next numbers and stand at the end of a block. -/
structure Appends (b : BlockId) (is : List Machine.Instr) (g g' : Graph) : Prop where
  nodes : SameNodes g g'
  instrs_eq : g'.instrs.toList = g.instrs.toList ++ Machine.numbered g.instrs.size is
  numbers_eq : ∀ k, g'.numbersOf k =
    if k = b then g.numbersOf k ++ List.range' g.instrs.size is.length else g.numbersOf k

namespace Appends

variable {g'' : Graph} {is js : List Machine.Instr}

theorem of_instrs_eq (hnodes : SameNodes g g') (hinstrs : g'.instrs = g.instrs)
    (hnumbers : ∀ k, g'.numbersOf k = g.numbersOf k) : Appends b [] g g' := by
  refine ⟨hnodes, by rw [hinstrs, Machine.numbered, List.mapIdx_nil, List.append_nil], fun k => ?_⟩
  rw [hnumbers, List.length_nil, List.range'_zero, List.append_nil, ite_self]

theorem refl (b : BlockId) (g : Graph) : Appends b [] g g :=
  of_instrs_eq (.refl g) rfl fun _ => rfl

theorem table_eq (h : Appends b is g g') : g'.table = g.table ++ is := by
  rw [table, h.instrs_eq, List.map_append, Machine.map_instr_numbered, table]

theorem size_eq (h : Appends b is g g') : g'.instrs.size = g.instrs.size + is.length := by
  rw [← length_table, h.table_eq, List.length_append, length_table]

theorem trans (h : Appends b is g g') (h' : Appends b js g' g'') : Appends b (is ++ js) g g'' := by
  refine ⟨h.nodes.trans h'.nodes, ?_, fun k => ?_⟩
  · rw [h'.instrs_eq, h.instrs_eq, h.size_eq, Machine.numbered_append, List.append_assoc]
  rw [h'.numbers_eq, h.numbers_eq, h.size_eq, List.length_append]
  split
  · rw [List.append_assoc, ← List.range'_append_1]
  · rfl

theorem withInstr (hb : g.hasBlock b = true) (i : Machine.Instr) : Appends b [i] g (g.withInstr b i) := by
  obtain ⟨block, hblock⟩ := hasBlock_iff.1 hb
  refine ⟨g.sameNodes_withInstr b i, Array.toList_push, fun k => ?_⟩
  split
  · next hk =>
    have hself : (g.withInstr b i).numbersOf b = (block.code.push g.instrs.size).toList :=
      numbersOf_modifyBlock_self (g := { g with instrs := g.instrs.push ⟨g.instrs.size, i⟩ }) hblock _
    rw [hk, hself, numbersOf_eq hblock, Array.toList_push]
    rfl
  · next hk => exact numbersOf_modifyBlock_of_ne _ hk _

/-- Numbers keep their instructions. -/
theorem instr?_mono (h : Appends b is g g') {id : InstrId} {i : Machine.Instr} (hid : g.instr? id = some i) :
    g'.instr? id = some i := by
  rw [instr?_eq] at hid ⊢
  rw [h.table_eq, List.getElem?_append_left (List.getElem?_eq_some_iff.1 hid).1, hid]

/-- The new numbers are those of the new instructions. -/
theorem map_instr? (h : Appends b is g g') : (List.range' g.instrs.size is.length).map g'.instr? = is.map some := by
  have htable : g'.table = g.table ++ is ++ [] := by
    rw [List.append_nil, h.table_eq]
  have hmap := map_instr?_range' htable
  rwa [length_table, Array.toList_range'] at hmap

theorem carries (h : Appends b is g g') {code : BlockId → List Machine.Instr} (hcode : g.Carries code) :
    g'.Carries fun k => if k = b then code k ++ is else code k := by
  intro k block' hk
  obtain ⟨block, hblock⟩ := hasBlock_iff.1 (h.nodes.hasBlock_eq k ▸ hasBlock_iff.2 ⟨block', hk⟩)
  have hold : (g.numbersOf k).map g'.instr? = (code k).map some := by
    rw [numbersOf_eq hblock]
    exact map_instr?_mono (fun _ _ => h.instr?_mono) (hcode k block hblock)
  rw [← numbersOf_eq hk, h.numbers_eq]
  dsimp only
  split
  · rw [List.map_append, hold, h.map_instr?, List.map_append]
  · exact hold

end Appends

/-! ## Instructions in one place -/

/-- No instruction stands in two places, and those that are placed are in the table. -/
structure PlacedOnce (g : Graph) : Prop where
  nodup : g.placed.Nodup
  lt : ∀ id : Nat, id ∈ g.placed → id < g.instrs.size

namespace PlacedOnce

theorem of_carries_nil (h : g.Carries fun _ => []) : g.PlacedOnce := by
  have hnil : g.placed = [] := by
    rw [placed, List.flatMap_eq_nil_iff]
    rintro ⟨b, block⟩ he
    exact List.map_eq_nil_iff.1 (h b block (mem_blockList.1 he))
  exact ⟨hnil ▸ List.nodup_nil, fun id hid => absurd (hnil ▸ hid) List.not_mem_nil⟩

/-- The next numbers are given to new instructions, which are put into a block if it is there. -/
theorem place (h : g.PlacedOnce) {n : Nat} (hblocks : g'.blockIds = g.blockIds)
    (hsize : g'.instrs.size = g.instrs.size + n)
    (hself : g.hasBlock b = true → (g'.numbersOf b).Perm (g.numbersOf b ++ List.range' g.instrs.size n))
    (hother : ∀ k, k ≠ b → g'.numbersOf k = g.numbersOf k) : g'.PlacedOnce := by
  cases hb : g.hasBlock b with
  | true =>
    have hperm : g'.placed.Perm (g.placed ++ List.range' g.instrs.size n) := by
      rw [placed_eq, placed_eq, hblocks]
      exact perm_flatMap_update (nodup_blockIds g) (mem_blockIds.2 hb) (hself hb) hother
    constructor
    · refine hperm.nodup_iff.2 (List.nodup_append.2 ⟨h.nodup, List.nodup_range', fun id hid id' hid' e => ?_⟩)
      exact Nat.not_lt.2 (List.mem_range'_1.1 hid').1 (e ▸ h.lt id hid)
    · intro id hid
      rcases List.mem_append.1 (hperm.mem_iff.1 hid) with hid | hid
      · have := h.lt id hid
        omega
      · rw [List.mem_range'_1] at hid
        omega
  | false =>
    have hplaced : g'.placed = g.placed := by
      rw [placed_eq, placed_eq, hblocks]
      refine List.flatMap_congr fun k hk => hother k fun e => ?_
      rw [e, mem_blockIds, hb] at hk
      exact Bool.false_ne_true hk
    refine ⟨hplaced ▸ h.nodup, fun id hid => ?_⟩
    have := h.lt id (hplaced ▸ hid)
    omega

theorem appends {is : List Machine.Instr} (h : g.PlacedOnce) (hg : Appends b is g g') : g'.PlacedOnce := by
  refine h.place (b := b) hg.nodes.keeps.blockIds_eq hg.size_eq (fun _ => ?_) fun k hk => ?_
  · rw [hg.numbers_eq, if_pos rfl]
  · rw [hg.numbers_eq, if_neg hk]

theorem insertMoves (h : g.PlacedOnce) (p : BlockId) (moves : List Machine.Move) :
    (g.insertMoves p moves).2.PlacedOnce := by
  have hnumbers : ∀ {block : Block}, g.block? p = some block → ∃ g', (g.insertMoves p moves).2.numbersOf p =
      (Machine.insertBeforeJump g' block.code
        (.range' g.instrs.size (Machine.sequence g.registers moves).1.length)).toList :=
    fun hblock => ⟨_, numbersOf_modifyBlock_self hblock _⟩
  refine h.place (b := p) (n := (Machine.sequence g.registers moves).1.length)
    (g.sameNodes_insertMoves p moves).keeps.blockIds_eq ?_ (fun hp => ?_) fun k hk => ?_
  · rw [← length_table, table_insertMoves, List.length_append, length_table, Machine.moveCode, List.length_map]
  · obtain ⟨block, hblock⟩ := hasBlock_iff.1 hp
    obtain ⟨g', hself⟩ := hnumbers hblock
    rw [hself, numbersOf_eq hblock, ← Array.toList_range']
    exact Machine.perm_insertBeforeJump g' _ _
  · exact numbersOf_modifyBlock_of_ne _ hk _

end PlacedOnce

/-! ## Taking the instructions out of the table -/

/-- The blocks and the table after the instructions of one more block are numbered. -/
def renumberNext (acc : Std.TreeMap BlockId Block × Renumbering) (entry : BlockId × Block) :
    Std.TreeMap BlockId Block × Renumbering :=
  (acc.1.insert entry.1 (acc.2.block entry.2).1, (acc.2.block entry.2).2)

/-- The blocks and the table after the instructions of some blocks are numbered. -/
def renumberUpTo (g : Graph) (entries : List (BlockId × Block)) : Std.TreeMap BlockId Block × Renumbering :=
  entries.foldl renumberNext (g.blocks, { old := g.instrs.map some })

theorem renumber_eq (g : Graph) :
    g.renumber = { g with
      blocks := (g.renumberUpTo g.blockList).1, instrs := (g.renumberUpTo g.blockList).2.lines } := rfl

/-- Instructions that have been taken out stand in the new table in the order in which they were taken, each under its
position. All others are still where they were. -/
structure Renumbering.Took (g : Graph) (taken : List InstrId) (s : Renumbering) : Prop where
  old : ∀ id : Nat, id ∉ taken → s.old[id]? = (g.line? id).map some
  size_eq : s.lines.size = taken.length
  lines : ∀ k id : Nat, taken[k]? = some id → s.lines[k]? = (g.instr? id).map (Machine.Line.mk k)

namespace Renumbering.Took

variable {taken ids : List InstrId} {s : Renumbering}

theorem nil (g : Graph) : Took g [] { old := g.instrs.map some } :=
  ⟨fun _ _ => Array.getElem?_map, rfl, fun k id hk => by simp at hk⟩

/-- An instruction that is still there gets the next number. -/
theorem take (h : Took g taken s) {id : Nat} (hnew : id ∉ taken) (hid : id < g.instrs.size) :
    (s.take id).1 = taken.length ∧ Took g (taken ++ [id]) (s.take id).2 := by
  have hline : g.line? id = some g.instrs[id] := Array.getElem?_eq_getElem hid
  have htake : s.take id =
      (s.lines.size, ⟨s.old.setIfInBounds id none, s.lines.push ⟨s.lines.size, g.instrs[id].instr⟩⟩) := by
    rw [Renumbering.take, h.old id hnew, hline, Option.map_some, Option.join_some]
  rw [htake]
  refine ⟨h.size_eq, fun id' hid' => ?_, ?_, fun k id' hk => ?_⟩
  · rw [List.mem_append, List.mem_singleton, not_or] at hid'
    rw [Array.getElem?_setIfInBounds_ne (Ne.symm hid'.2), h.old id' hid'.1]
  · rw [Array.size_push, h.size_eq, List.length_append, List.length_singleton]
  · rw [Array.getElem?_push, h.size_eq]
    split
    · next hlast =>
      rw [hlast, List.getElem?_concat_length] at hk
      rw [← Option.some.inj hk, instr?_eq_some_getElem hid, Option.map_some, hlast]
    · next hlast =>
      have hlt : k < taken.length := by
        have := (List.getElem?_eq_some_iff.1 hk).1
        rw [List.length_append, List.length_singleton] at this
        omega
      rw [List.getElem?_append_left hlt] at hk
      exact h.lines k id' hk

/-- Instructions that are still there get consecutive numbers. -/
theorem takeAll (h : Took g taken s) (hnew : (taken ++ ids).Nodup) (hids : ∀ id : Nat, id ∈ ids → id < g.instrs.size) :
    (s.takeAll ids).1 = List.range' taken.length ids.length ∧ Took g (taken ++ ids) (s.takeAll ids).2 := by
  induction ids generalizing taken s with
  | nil =>
    rw [List.append_nil]
    exact ⟨rfl, h⟩
  | cons id ids ih =>
    obtain ⟨hid, hids⟩ := List.forall_mem_cons.1 hids
    have happend : taken ++ id :: ids = taken ++ [id] ++ ids := by rw [List.append_assoc, List.singleton_append]
    have hne : id ∉ taken := fun hmem => (List.nodup_append.1 hnew).2.2 id hmem id List.mem_cons_self rfl
    obtain ⟨hnumber, htook⟩ := h.take hne hid
    obtain ⟨hnumbers, hall⟩ := ih htook (happend ▸ hnew) hids
    refine ⟨?_, happend ▸ hall⟩
    rw [Renumbering.takeAll]
    dsimp only
    rw [hnumber, hnumbers, List.length_append, List.length_singleton, List.length_cons, List.range'_succ]

end Renumbering.Took

section Renumber

variable {entries front rest : List (BlockId × Block)} {blocks : Std.TreeMap BlockId Block} {s : Renumbering}
  {block : Block}

theorem getElem?_foldl_renumberNext (hb : b ∉ entries.map (·.1)) :
    (entries.foldl renumberNext (blocks, s)).1[b]? = blocks[b]? := by
  induction entries generalizing blocks s with
  | nil => rfl
  | cons entry entries ih =>
    rw [List.map_cons, List.mem_cons, not_or] at hb
    rw [List.foldl_cons, renumberNext, ih hb.2, Std.TreeMap.getElem?_insert]
    simp only [compare_eq_iff, if_neg (Ne.symm hb.1)]

/-- A block is renumbered when those before it are. -/
theorem block?_renumber (hsplit : g.blockList = front ++ (b, block) :: rest) :
    g.renumber.block? b = some ((g.renumberUpTo front).2.block block).1 := by
  have hnodup : (g.blockList.map (·.1)).Nodup := by
    have := nodup_blockIds g
    rwa [← map_fst_blockList] at this
  rw [hsplit, List.map_append, List.map_cons] at hnodup
  have hrest : b ∉ rest.map (·.1) := (List.nodup_cons.1 (List.nodup_append.1 hnodup).2.1).1
  rw [renumber_eq, block?]
  dsimp only
  rw [hsplit, renumberUpTo, List.foldl_append, List.foldl_cons, ← renumberUpTo]
  generalize g.renumberUpTo front = acc
  rw [renumberNext, getElem?_foldl_renumberNext hrest, Std.TreeMap.getElem?_insert_self]

theorem hasBlock_renumber (g : Graph) (b : BlockId) : g.renumber.hasBlock b = g.hasBlock b := by
  cases hb : g.hasBlock b with
  | true =>
    obtain ⟨block, hblock⟩ := hasBlock_iff.1 hb
    obtain ⟨front, rest, hsplit⟩ := List.append_of_mem (mem_blockList.2 hblock)
    exact hasBlock_iff.2 ⟨_, block?_renumber hsplit⟩
  | false =>
    rw [hasBlock_eq_false_iff] at hb ⊢
    rw [renumber_eq, block?, renumberUpTo, getElem?_foldl_renumberNext]
    · exact hb
    · intro hmem
      obtain ⟨⟨b, block⟩, hentry, rfl⟩ := List.mem_map.1 hmem
      cases hb.symm.trans (mem_blockList.1 hentry)

theorem sameNodes_renumber (g : Graph) : SameNodes g g.renumber := by
  refine ⟨fun b => ?_, rfl⟩
  cases hb : g.block? b with
  | none =>
    rw [← hasBlock_eq_false_iff, ← hasBlock_renumber, hasBlock_eq_false_iff] at hb
    rw [hb]
  | some block =>
    obtain ⟨front, rest, hsplit⟩ := List.append_of_mem (mem_blockList.2 hb)
    rw [block?_renumber hsplit]
    rfl

end Renumber

namespace PlacedOnce

variable {front rest : List (BlockId × Block)} {entry : BlockId × Block}

/-- The instructions of a block are all there when those of the blocks before it have been taken out. -/
theorem takeAll (h : g.PlacedOnce) (hsplit : g.blockList = front ++ entry :: rest) {s : Renumbering}
    (htook : s.Took g (front.flatMap (·.2.code.toList))) :
    (s.takeAll entry.2.code.toList).1 =
      List.range' (front.flatMap (·.2.code.toList)).length entry.2.code.toList.length ∧
    (s.takeAll entry.2.code.toList).2.Took g ((front ++ [entry]).flatMap (·.2.code.toList)) := by
  have hplaced : g.placed = (front ++ [entry]).flatMap (·.2.code.toList) ++ rest.flatMap (·.2.code.toList) := by
    rw [placed, hsplit, ← List.flatMap_append, List.append_assoc, List.singleton_append]
  have hnodup := (List.nodup_append.1 (hplaced ▸ h.nodup)).1
  rw [List.flatMap_append, List.flatMap_singleton] at hplaced hnodup ⊢
  refine htook.takeAll hnodup fun id hid => h.lt id ?_
  rw [hplaced]
  exact List.mem_append_left _ (List.mem_append_right _ hid)

/-- After some of the blocks it is their instructions that have been taken out. -/
theorem took_renumberUpTo (h : g.PlacedOnce) (hsplit : g.blockList = front ++ rest) :
    (g.renumberUpTo front).2.Took g (front.flatMap (·.2.code.toList)) := by
  induction front using List.reverseRecOn generalizing rest with
  | nil => exact .nil g
  | append_singleton front entry ih =>
    rw [List.append_assoc, List.singleton_append] at hsplit
    rw [renumberUpTo, List.foldl_append, List.foldl_cons, List.foldl_nil, ← renumberUpTo]
    exact (h.takeAll hsplit (ih hsplit)).2

end PlacedOnce

/-! ## Numbers by position -/

/-- The instructions of a graph that are placed get new numbers, and the others are dropped. -/
structure Compacts (number : InstrId → Option InstrId) (g g' : Graph) : Prop where
  nodes : SameNodes g g'
  registers_eq : g'.registers = g.registers
  /-- Exactly the instructions that are placed have a new number. -/
  placed : ∀ id, (∃ k, number id = some k) ↔ id ∈ g.placed
  /-- The new numbers are those of the new table. -/
  table : ∀ k : Nat, (∃ id, number id = some k) ↔ k < g'.instrs.size
  injective : ∀ {id id' k}, number id = some k → number id' = some k → id = id'
  instr : ∀ {id k}, number id = some k → g'.instr? k = g.instr? id
  /-- Every block has its instructions in the order in which it had them. -/
  numbersOf : ∀ b, (g'.numbersOf b).map some = (g.numbersOf b).map number
  codeOf_eq : ∀ b, g'.codeOf b = g.codeOf b

/-- Every line of the table carries its position as its number. -/
def NumbersLines (g : Graph) : Prop :=
  ∀ (k : Nat) line, g.line? k = some line → line.id = k

theorem idxOf?_eq_some_iff_of_nodup {l : List Nat} (h : l.Nodup) {a k : Nat} :
    l.idxOf? a = some k ↔ l[k]? = some a := by
  rw [List.idxOf?_eq_some_iff, List.getElem?_eq_some_iff]
  constructor
  · rintro ⟨hlt, ha, -⟩
    exact ⟨hlt, ha⟩
  · rintro ⟨hlt, rfl⟩
    exact ⟨hlt, rfl, fun j hj => (h.getElem_inj_iff).not.2 (Nat.ne_of_lt hj)⟩

/-- Nothing is lost where all numbers are in the table. -/
theorem map_some_filterMap_instr? {ids : List InstrId} (h : ∀ id ∈ ids, id < g.instrs.size) :
    (ids.filterMap g.instr?).map some = ids.map g.instr? := by
  induction ids with
  | nil => rfl
  | cons id ids ih =>
    obtain ⟨hid, hids⟩ := List.forall_mem_cons.1 h
    have hinstr := instr?_eq_some_getElem hid
    rw [List.filterMap_cons_some hinstr, List.map_cons, List.map_cons, ih hids, hinstr]

/-- Lists of old and new numbers are lists of the same instructions. -/
theorem map_instr?_of_numbers {number : InstrId → Option InstrId} {ids ids' : List InstrId}
    (hinstr : ∀ {id k}, number id = some k → g'.instr? k = g.instr? id) (h : ids'.map some = ids.map number) :
    ids'.map g'.instr? = ids.map g.instr? := by
  induction ids generalizing ids' with
  | nil => rw [List.map_eq_nil_iff.1 h, List.map_nil, List.map_nil]
  | cons id ids ih =>
    cases ids' with
    | nil => cases h
    | cons k ids' =>
      obtain ⟨hk, hids⟩ := List.cons.inj h
      rw [List.map_cons, List.map_cons, hinstr hk.symm, ih hids]

namespace PlacedOnce

theorem took_renumber (h : g.PlacedOnce) : (g.renumberUpTo g.blockList).2.Took g g.placed :=
  h.took_renumberUpTo (List.append_nil _).symm

theorem size_renumber (h : g.PlacedOnce) : g.renumber.instrs.size = g.placed.length :=
  h.took_renumber.size_eq

theorem line?_renumber (h : g.PlacedOnce) {id k : InstrId} (hk : g.placed[k]? = some id) :
    g.renumber.line? k = (g.instr? id).map (Machine.Line.mk k) :=
  h.took_renumber.lines k id hk

theorem instr?_renumber (h : g.PlacedOnce) {id k : InstrId} (hk : g.placed[k]? = some id) :
    g.renumber.instr? k = g.instr? id := by
  rw [instr?, h.line?_renumber hk, Option.map_map]
  exact Option.map_id'

theorem numbersLines_renumber (h : g.PlacedOnce) : g.renumber.NumbersLines := by
  intro k line hline
  have hlt : k < g.placed.length := h.size_renumber ▸ (Array.getElem?_eq_some_iff.1 hline).1
  rw [h.line?_renumber (List.getElem?_eq_getElem hlt)] at hline
  obtain ⟨i, -, rfl⟩ := Option.map_eq_some_iff.1 hline
  rfl

/-- A block's instructions get their positions in the method as numbers. -/
theorem numbersOf_renumber (h : g.PlacedOnce) (b : BlockId) :
    (g.renumber.numbersOf b).map some = (g.numbersOf b).map g.placed.idxOf? := by
  cases hb : g.block? b with
  | none =>
    have hrenumber := hb
    rw [← hasBlock_eq_false_iff, ← hasBlock_renumber, hasBlock_eq_false_iff] at hrenumber
    rw [numbersOf, numbersOf, hb, hrenumber]
    rfl
  | some block =>
    obtain ⟨front, rest, hsplit⟩ := List.append_of_mem (mem_blockList.2 hb)
    have hplaced : g.placed =
        front.flatMap (·.2.code.toList) ++ (block.code.toList ++ rest.flatMap (·.2.code.toList)) := by
      rw [placed, hsplit, List.flatMap_append, List.flatMap_cons]
    have hposition : ∀ k id, block.code.toList[k]? = some id →
        g.placed[(front.flatMap (·.2.code.toList)).length + k]? = some id := by
      intro k id hk
      rw [hplaced, List.getElem?_append_right (Nat.le_add_right _ k), Nat.add_sub_cancel_left,
        List.getElem?_append_left (List.getElem?_eq_some_iff.1 hk).1, hk]
    have hcode : g.renumber.numbersOf b =
        List.range' (front.flatMap (·.2.code.toList)).length block.code.toList.length := by
      rw [numbersOf_eq (block?_renumber hsplit)]
      exact (h.takeAll hsplit (h.took_renumberUpTo hsplit)).1
    rw [hcode, numbersOf_eq hb]
    apply List.ext_getElem
    · simp
    · intro k hk hk'
      rw [List.getElem_map, List.getElem_map, List.getElem_range', Nat.one_mul]
      exact ((idxOf?_eq_some_iff_of_nodup h.nodup).2 (hposition k _ (List.getElem?_eq_getElem _))).symm

/-- The numbers, read block by block, count up from zero. -/
theorem placed_renumber (h : g.PlacedOnce) : g.renumber.placed = List.range g.renumber.instrs.size := by
  have hnumbers : g.renumber.placed.map some = g.placed.map g.placed.idxOf? := by
    rw [placed_eq, g.sameNodes_renumber.keeps.blockIds_eq, List.map_flatMap]
    conv => rhs; arg 2; rw [placed_eq]
    rw [List.map_flatMap]
    exact List.flatMap_congr fun b _ => h.numbersOf_renumber b
  have hrange : g.placed.map g.placed.idxOf? = (List.range g.placed.length).map some := by
    apply List.ext_getElem
    · simp
    · intro k hk hk'
      rw [List.getElem_map, List.getElem_map, List.getElem_range]
      exact (idxOf?_eq_some_iff_of_nodup h.nodup).2 (List.getElem?_eq_getElem _)
  rw [h.size_renumber]
  exact List.map_injective_iff.2 (Option.some_injective _) (hnumbers.trans hrange)

theorem renumber (h : g.PlacedOnce) : g.renumber.PlacedOnce :=
  ⟨h.placed_renumber ▸ List.nodup_range, fun _ hid => List.mem_range.1 (h.placed_renumber ▸ hid)⟩

/-- Each block has the instructions that it had. -/
theorem map_instr?_numbersOf_renumber (h : g.PlacedOnce) (b : BlockId) :
    (g.renumber.numbersOf b).map g.renumber.instr? = (g.numbersOf b).map g.instr? :=
  map_instr?_of_numbers (fun hid => h.instr?_renumber ((idxOf?_eq_some_iff_of_nodup h.nodup).1 hid))
    (h.numbersOf_renumber b)

/-- Numbering by position keeps what is placed and drops the rest. -/
theorem compacts_renumber (h : g.PlacedOnce) : Compacts g.placed.idxOf? g g.renumber where
  nodes := g.sameNodes_renumber
  registers_eq := rfl
  placed id := by
    simp only [idxOf?_eq_some_iff_of_nodup h.nodup]
    exact List.mem_iff_getElem?.symm
  table k := by
    simp only [idxOf?_eq_some_iff_of_nodup h.nodup]
    rw [h.size_renumber, ← Option.isSome_iff_exists, isSome_getElem?]
  injective hid hid' := by
    rw [idxOf?_eq_some_iff_of_nodup h.nodup] at hid hid'
    exact Option.some.inj (hid.symm.trans hid')
  instr hid := h.instr?_renumber ((idxOf?_eq_some_iff_of_nodup h.nodup).1 hid)
  numbersOf := h.numbersOf_renumber
  codeOf_eq b := by
    have hcode := congrArg (List.filterMap id) (h.map_instr?_numbersOf_renumber b)
    rwa [List.filterMap_map, List.filterMap_map] at hcode

/-- Numbering the instructions by position leaves the code of the blocks alone. -/
theorem carries_renumber (h : g.PlacedOnce) {code : BlockId → List Machine.Instr} (hcode : g.Carries code) :
    g.renumber.Carries code := by
  intro b block' hb
  obtain ⟨block, hblock⟩ := hasBlock_iff.1 (hasBlock_renumber g b ▸ hasBlock_iff.2 ⟨block', hb⟩)
  rw [← numbersOf_eq hb, h.map_instr?_numbersOf_renumber, numbersOf_eq hblock]
  exact hcode b block hblock

end PlacedOnce

end Graph

end Destack
