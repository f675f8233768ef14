import Destack.Machine.EdgeMoves
import Destack.Proofs.Graph.Flow
import Destack.Proofs.Machine.Evaluation
import Destack.Proofs.Ssa.Patching

/-!
# Register instructions of a graph

Proofs look at the register instructions of a graph as lists of instructions, one for each block (`Graph.Carries`):
each operation on a graph says here what it does to these lists. All that such operations leave as it was is compared
by `Graph.SameNodes`.
-/

namespace Destack.Graph

/-! ## What register instructions leave alone -/

/-- A block without its register instructions. -/
def uncoded (block : Block) : Block :=
  { block with code := #[] }

/-- Two graphs differ at most in register instructions and in the number of registers handed out. -/
structure SameNodes (g g' : Graph) : Prop where
  keeps : Keeps uncoded g g'
  eq_with_code : g' = { g with blocks := g'.blocks, instrs := g'.instrs, registers := g'.registers }

namespace SameNodes

variable {g g' g'' : Graph}

theorem refl (g : Graph) : SameNodes g g :=
  ⟨Keeps.refl _ g, rfl⟩

theorem trans (h : SameNodes g g') (h' : SameNodes g' g'') : SameNodes g g'' := by
  refine ⟨h.keeps.trans h'.keeps, ?_⟩
  rw [h'.eq_with_code, h.eq_with_code]

theorem node?_eq (h : SameNodes g g') (id : NodeId) : g'.node? id = g.node? id := by
  rw [h.eq_with_code]
  rfl

theorem nodes_eq (h : SameNodes g g') : g'.nodes = g.nodes := by
  rw [h.eq_with_code]

theorem resolve_eq (h : SameNodes g g') (id : NodeId) : g'.resolve id = g.resolve id := by
  rw [h.eq_with_code]
  rfl

theorem merge?_eq (h : SameNodes g g') (id : NodeId) : g'.merge? id = g.merge? id := by
  rw [merge?, merge?, h.node?_eq]

theorem order_eq (h : SameNodes g g') : g'.order = g.order := by
  rw [h.eq_with_code]

theorem hasBlock_eq (h : SameNodes g g') (b : BlockId) : g'.hasBlock b = g.hasBlock b :=
  h.keeps.hasBlock_eq b

theorem preds_eq (h : SameNodes g g') (b : BlockId) : g'.preds b = g.preds b := by
  have := (h.keeps.comp (·.preds)) b
  rw [preds, preds]
  exact congrArg (Option.getD · []) this

theorem succs_eq (h : SameNodes g g') (b : BlockId) : g'.succs b = g.succs b := by
  have := (h.keeps.comp (·.succs)) b
  rw [succs, succs]
  exact congrArg (Option.getD · []) this

theorem nodesOf_eq (h : SameNodes g g') (b : BlockId) : Ssa.nodesOf g' b = Ssa.nodesOf g b := by
  have := (h.keeps.comp (·.nodes.toList)) b
  rw [Ssa.nodesOf, Ssa.nodesOf]
  exact congrArg (Option.getD · []) this

theorem mergesOf_eq (h : SameNodes g g') (b : BlockId) : g'.mergesOf b = g.mergesOf b := by
  rw [mergesOf_eq_filter, mergesOf_eq_filter, h.nodesOf_eq]
  exact List.filter_congr fun id _ => by rw [h.merge?_eq]

theorem textOf (h : SameNodes g g') : Keeps textOf g g' :=
  h.keeps.comp Graph.textOf

end SameNodes

/-! ## Code of the blocks -/

/-- The blocks of a graph carry code. -/
def Carries (g : Graph) (code : BlockId → List Machine.Instr) : Prop :=
  ∀ b block, g.block? b = some block → block.code.toList.map g.instr? = (code b).map some

variable {g g' : Graph} {code : BlockId → List Machine.Instr} {b : BlockId}

theorem Carries.codeOf_eq (h : g.Carries code) (hb : g.hasBlock b = true) : g.codeOf b = code b := by
  obtain ⟨block, hblock⟩ := hasBlock_iff.1 hb
  have hcode := congrArg (List.filterMap id) (h b block hblock)
  rw [List.filterMap_map, List.filterMap_map] at hcode
  rw [codeOf, hblock, Option.map_some, Option.getD_some]
  exact hcode.trans (by simp)

theorem Carries.congr {code' : BlockId → List Machine.Instr} (h : g.Carries code)
    (hcode : ∀ b, g.hasBlock b = true → code' b = code b) : g.Carries code' := by
  intro b block hb
  rw [hcode b (hasBlock_iff.2 ⟨block, hb⟩)]
  exact h b block hb

/-- Without any instructions the code of every block is empty. -/
theorem carries_nil (h : ∀ b block, g.block? b = some block → block.code = #[]) : g.Carries fun _ => [] := by
  intro b block hb
  rw [h b block hb]
  rfl

/-- Numbers keep their instructions when more are made. -/
theorem map_instr?_mono {ids : List InstrId} {is : List Machine.Instr}
    (hmono : ∀ id i, g.instr? id = some i → g'.instr? id = some i) (h : ids.map g.instr? = is.map some) :
    ids.map g'.instr? = is.map some := by
  induction ids generalizing is with
  | nil => cases is with
    | nil => rfl
    | cons i is => cases h
  | cons id ids ih => cases is with
    | nil => cases h
    | cons i is =>
      obtain ⟨hid, hids⟩ := List.cons.inj h
      exact congrArg₂ List.cons (hmono id i hid) (ih hids)

/-- The instructions of the table, without the numbers that they carry. -/
def table (g : Graph) : List Machine.Instr :=
  g.instrs.toList.map (·.instr)

theorem instr?_eq (g : Graph) (id : InstrId) : g.instr? id = g.table[id]? := by
  rw [instr?, line?, table, List.getElem?_map, Array.getElem?_toList]

theorem length_table (g : Graph) : g.table.length = g.instrs.size := by
  rw [table, List.length_map, Array.length_toList]

theorem instr?_eq_some_getElem {id : Nat} (h : id < g.instrs.size) : g.instr? id = some g.instrs[id].instr := by
  rw [instr?, line?, Array.getElem?_eq_getElem h, Option.map_some]

/-- Consecutive numbers of instructions that stand one after the other in the table. -/
theorem map_instr?_range' {front is back : List Machine.Instr} (h : g.table = front ++ is ++ back) :
    (Array.range' front.length is.length).toList.map g.instr? = is.map some := by
  have hinstr : ∀ id, g.instr? id = (front ++ is ++ back)[id]? := by
    intro id
    rw [instr?_eq, h]
  apply List.ext_getElem
  · simp
  · intro k hk hk'
    have hlt : k < is.length := by simpa using hk'
    simp [hinstr, List.getElem?_append, hlt]

/-! ## Appending an instruction -/

/-- The graph with an instruction at the end of a block, if it has the block. -/
def withInstr (g : Graph) (b : BlockId) (i : Machine.Instr) : Graph :=
  (g.newInstr i).2.modifyBlock b fun block => { block with code := block.code.push g.instrs.size }

theorem appendInstr_eq (hb : g.hasBlock b = true) (i : Machine.Instr) :
    g.appendInstr b i = .ok (g.instrs.size, g.withInstr b i) := by
  have hedit := editBlock_of_hasBlock (g := (g.newInstr i).2)
    (fun block => { block with code := block.code.push g.instrs.size }) hb
  exact except_bind_eq_ok.2 ⟨_, hedit, rfl⟩

theorem sameNodes_withInstr (g : Graph) (b : BlockId) (i : Machine.Instr) : SameNodes g (g.withInstr b i) := by
  refine ⟨fun k => ?_, rfl⟩
  change (({ g with instrs := g.instrs.push ⟨g.instrs.size, i⟩ }.modifyBlock b _).block? k).map uncoded = _
  rw [block?_modifyBlock]
  split
  · next hkb =>
    rw [Option.map_map, hkb]
    rfl
  · rfl

theorem table_withInstr (g : Graph) (b : BlockId) (i : Machine.Instr) : (g.withInstr b i).table = g.table ++ [i] := by
  change (g.instrs.push ⟨g.instrs.size, i⟩).toList.map (·.instr) = _
  rw [Array.toList_push, List.map_append, List.map_singleton, table]

theorem sameNodes_newRegister (g : Graph) : SameNodes g g.newRegister.2 :=
  ⟨Keeps.refl _ g, rfl⟩

theorem Carries.newRegister (h : g.Carries code) : g.newRegister.2.Carries code :=
  h

end Destack.Graph

namespace Destack.Machine

/-! ## Numbers of new instructions -/

theorem map_instr_numbered (n : InstrId) (is : List Instr) : (numbered n is).map (·.instr) = is := by
  apply List.ext_getElem
  · simp [numbered]
  · intro k hk hk'
    simp [numbered]

theorem numbered_append (n : InstrId) (is js : List Instr) :
    numbered n (is ++ js) = numbered n is ++ numbered (n + is.length) js := by
  rw [numbered, numbered, numbered, List.mapIdx_append]
  simp only [Nat.add_comm, Nat.add_left_comm]

theorem length_numbered (n : InstrId) (is : List Instr) : (numbered n is).length = is.length :=
  List.length_mapIdx

/-! ## Moves ahead of a jump -/

/-- Code with other instructions put ahead of its last one if that is a jump, and at the end otherwise. -/
def insertAhead (code is : List Instr) : List Instr :=
  match code.getLast? with
  | some last => if last.op.isJump then code.dropLast ++ (is ++ [last]) else code ++ is
  | none => is

theorem insertAhead_nil (code : List Instr) : insertAhead code [] = code := by
  unfold insertAhead
  split
  · next last hlast =>
    split
    · rw [List.nil_append]
      exact List.dropLast_append_getLast? last hlast
    · exact List.append_nil code
  · next hlast => exact (List.getLast?_eq_none_iff.1 hlast).symm

theorem insertAhead_jump {code is : List Instr} {last : Instr} (h : last.op.isJump = true) :
    insertAhead (code ++ [last]) is = code ++ (is ++ [last]) := by
  simp [insertAhead, h]

theorem insertAhead_append {front code is : List Instr} (h : code ≠ []) :
    insertAhead (front ++ code) is = front ++ insertAhead code is := by
  obtain ⟨code, last, rfl⟩ := (List.eq_nil_or_concat' code).resolve_left h
  unfold insertAhead
  rw [← List.append_assoc, List.getLast?_concat, List.getLast?_concat]
  dsimp only
  split <;> simp [List.append_assoc]

/-- Code up to an instruction that is no jump stays where it is. -/
theorem insertAhead_of_isJump {front : List Instr} {last : Instr} (h : last.op.isJump = false)
    (rest is : List Instr) : ∃ rest', insertAhead (front ++ [last] ++ rest) is = front ++ [last] ++ rest' := by
  by_cases hrest : rest = []
  · exact ⟨is, by simp [hrest, insertAhead, h]⟩
  · exact ⟨_, insertAhead_append hrest⟩

/-- Instructions that are not jumps are put in one after the other. -/
theorem insertAhead_insertAhead {code is js : List Instr} (h : ∀ i ∈ is, i.op.isJump = false) :
    insertAhead (insertAhead code is) js = insertAhead code (is ++ js) := by
  -- Code that does not end with a jump gets them at the end.
  have hend : ∀ {code : List Instr}, (∀ last, code.getLast? = some last → last.op.isJump = false) →
      ∀ js, insertAhead code js = code ++ js := by
    intro code hlast js
    unfold insertAhead
    split
    · next last hl => rw [hlast last hl, if_neg Bool.false_ne_true]
    · next hl => rw [List.getLast?_eq_none_iff.1 hl, List.nil_append]
  rcases List.eq_nil_or_concat' code with rfl | ⟨front, last, rfl⟩
  · exact (hend (fun last hlast => h last (List.mem_of_getLast? hlast)) js)
  · cases hjump : last.op.isJump with
    | true => rw [insertAhead_jump hjump, insertAhead_jump hjump, ← List.append_assoc, insertAhead_jump hjump]; simp
    | false =>
      have hlast : ∀ l, (front ++ [last]).getLast? = some l → l.op.isJump = false := by
        intro l hl
        rw [List.getLast?_concat] at hl
        rwa [← Option.some.inj hl]
      rw [hend hlast, hend hlast, hend, List.append_assoc]
      intro l hl
      rw [List.getLast?_append] at hl
      cases his : is.getLast? with
      | none =>
        rw [his] at hl
        exact hlast l hl
      | some i =>
        rw [his] at hl
        obtain rfl := Option.some.inj hl
        exact h _ (List.mem_of_getLast? his)

/-- The instructions of moves that happen at once, with temporary registers from a number on. -/
def moveCode (fresh : Nat) (moves : List Move) : List Instr :=
  (sequence fresh moves).1.map Move.instr

theorem le_stage (targets : List Register) (n : Nat) (moves : List Move) : n ≤ (stage targets n moves).2.2 := by
  induction moves generalizing n with
  | nil => exact Nat.le_refl n
  | cons m moves ih =>
    rw [stage]
    split
    · exact (Nat.le_succ n).trans (ih (n + 1))
    · exact ih n

theorem le_sequence (n : Nat) (moves : List Move) : n ≤ (sequence n moves).2 :=
  le_stage _ n moves

theorem map_insertBeforeJump {g : Graph} {code ids : Array InstrId} {is js : List Instr}
    (hcode : code.toList.map g.instr? = is.map some) (hids : ids.toList.map g.instr? = js.map some) :
    (insertBeforeJump g code ids).toList.map g.instr? = (insertAhead is js).map some := by
  have hlast : code.back?.map g.instr? = is.getLast?.map some := by
    rw [← Array.getLast?_toList, ← List.getLast?_map, hcode, List.getLast?_map]
  unfold insertBeforeJump insertAhead
  cases hback : code.back? with
  | none =>
    rw [hback] at hlast
    have : is.getLast? = none := by simpa using hlast.symm
    rw [this]
    exact hids
  | some id =>
    rw [hback, Option.map_some] at hlast
    obtain ⟨last, hl, hid⟩ := Option.map_eq_some_iff.1 hlast.symm
    rw [hl]
    dsimp only
    rw [← hid, Option.map_some, Option.getD_some]
    split
    · simp only [Array.toList_push, Array.toList_append, Array.toList_pop, List.map_append, List.map_dropLast, hcode,
        hids, List.map_singleton, ← hid, List.append_assoc]
    · simp only [Array.toList_append, List.map_append, hcode, hids]

end Destack.Machine

namespace Destack.Graph

variable {g : Graph} {code : BlockId → List Machine.Instr}

theorem sameNodes_insertMoves (g : Graph) (p : BlockId) (moves : List Machine.Move) :
    SameNodes g (g.insertMoves p moves).2 := by
  refine ⟨fun k => ?_, rfl⟩
  change ((Graph.modifyBlock _ p _).block? k).map uncoded = _
  rw [block?_modifyBlock]
  split
  · next hkp =>
    rw [Option.map_map, hkp]
    rfl
  · rfl

theorem instrs_insertMoves (g : Graph) (p : BlockId) (moves : List Machine.Move) :
    (g.insertMoves p moves).2.instrs.toList =
      g.instrs.toList ++ Machine.numbered g.instrs.size (Machine.moveCode g.registers moves) :=
  Array.toList_append.trans rfl

theorem table_insertMoves (g : Graph) (p : BlockId) (moves : List Machine.Move) :
    (g.insertMoves p moves).2.table = g.table ++ Machine.moveCode g.registers moves := by
  rw [table, instrs_insertMoves, List.map_append, Machine.map_instr_numbered, table]

/-- The numbers under which moves are put into a block. -/
theorem map_instr?_insertMoves (g : Graph) (p : BlockId) (moves : List Machine.Move) :
    (Array.range' g.instrs.size (Machine.sequence g.registers moves).1.length).toList.map
      (g.insertMoves p moves).2.instr? = (Machine.moveCode g.registers moves).map some := by
  have htable : (g.insertMoves p moves).2.table = g.table ++ Machine.moveCode g.registers moves ++ [] := by
    rw [List.append_nil, table_insertMoves]
  have := map_instr?_range' htable
  rwa [length_table, Machine.moveCode, List.length_map] at this

theorem Carries.insertMoves (h : g.Carries code) (p : BlockId) (moves : List Machine.Move) :
    (g.insertMoves p moves).2.Carries fun k =>
      if k = p then Machine.insertAhead (code k) (Machine.moveCode g.registers moves) else code k := by
  have hmono : ∀ id j, g.instr? id = some j → (g.insertMoves p moves).2.instr? id = some j := by
    intro id j hid
    rw [instr?_eq] at hid
    rw [instr?_eq, table_insertMoves, List.getElem?_append_left (List.getElem?_eq_some_iff.1 hid).1, hid]
  intro k block hk
  change (Graph.modifyBlock _ p _).block? k = some block at hk
  rw [block?_modifyBlock] at hk
  dsimp only
  split at hk
  · next hkp =>
    obtain ⟨old, hold, rfl⟩ := Option.map_eq_some_iff.1 hk
    rw [if_pos hkp, hkp]
    exact Machine.map_insertBeforeJump (map_instr?_mono hmono (h p old hold)) (map_instr?_insertMoves g p moves)
  · next hkp =>
    rw [if_neg hkp]
    exact map_instr?_mono hmono (h k block hk)

end Destack.Graph
