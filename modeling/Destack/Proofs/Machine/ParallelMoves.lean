import Destack.Proofs.Machine.Supply

/-!
# Moves at the end of a block

The moves of an edge become instructions at the end of its source (`Graph.insertMoves`). They stand together, ahead of
the jump if the block ends with one, and running them has the effect of all moves at once. The only registers written
besides the destinations are handed out for it, and nothing that was there before uses them, since the graph hands out
every virtual register that is used (`Graph.Supplied`).
-/

namespace Destack

namespace Machine

variable {g g' : Graph} {n : Nat} {moves : List Move} {r : Register}

/-- Registers that are neither a destination nor handed out for the moves keep what they hold. -/
theorem runMoves_sequence_of_not_mem {V : Type} (regs : Register → V) (htarget : r ∉ moves.map (·.target))
    (hfresh : ∀ k, n ≤ k → k < (sequence n moves).2 → r ≠ .virtual k) :
    runMoves (sequence n moves).1 regs r = regs r := by
  apply runMoves_of_not_mem
  intro hmem
  rcases mem_map_target_sequence hmem with h | ⟨k, hk, hlt, rfl⟩
  · exact htarget h
  · exact hfresh k hk hlt rfl

/-! ## Instructions put into a block -/

/-- Numbers of instructions that are put into a block stand together: ahead of the last instruction if that is a jump,
and at the end otherwise. -/
def PutAhead (g : Graph) (ids code code' : List InstrId) : Prop :=
  ∃ front back, code = front ++ back ∧ code' = front ++ ids ++ back ∧
    ((∃ last i, back = [last] ∧ g.instr? last = some i ∧ i.op.isJump = true) ∨
      back = [] ∧ ∀ last i, code.getLast? = some last → g.instr? last = some i → i.op.isJump = false)

theorem putAhead_insertBeforeJump (code ids : Array InstrId) :
    PutAhead g ids.toList code.toList (insertBeforeJump g code ids).toList := by
  unfold insertBeforeJump
  cases hlast : code.back? with
  | none =>
    have hcode : code = #[] := by simpa using hlast
    exact ⟨[], [], by simp [hcode], by simp, Or.inr ⟨rfl, by simp [hcode]⟩⟩
  | some last =>
    have hgetLast : code.toList.getLast? = some last := by rw [Array.getLast?_toList, hlast]
    dsimp only
    split
    · next hjump =>
      refine ⟨code.toList.dropLast, [last], ?_, by simp, Or.inl ?_⟩
      · exact (List.dropLast_append_getLast? last hgetLast).symm
      · cases hinstr : g.instr? last with
        | none => simp [hinstr] at hjump
        | some i => exact ⟨last, i, rfl, hinstr, by simpa [hinstr] using hjump⟩
    · next hjump =>
      refine ⟨code.toList, [], by simp, by simp, Or.inr ⟨rfl, fun last' i hlast' hinstr => ?_⟩⟩
      obtain rfl := Option.some.inj (hgetLast.symm.trans hlast')
      simpa [hinstr] using hjump

/-- Moves added to the table do not make a jump of what was none. -/
theorem PutAhead.congr {ids code code' : List InstrId} (h : PutAhead g' ids code code') {is : List Instr}
    (htable : g'.table = g.table ++ is) (his : ∀ i ∈ is, i.op.isJump = false) :
    PutAhead g ids code code' := by
  have hinstr : ∀ id, g'.instr? id = (g.table ++ is)[id]? := by
    intro id
    rw [Graph.instr?_eq, htable]
  have hold : ∀ {id i}, g.instr? id = some i → g'.instr? id = some i := by
    intro id i hid
    rw [Graph.instr?_eq] at hid
    rw [hinstr, List.getElem?_append_left (List.getElem?_eq_some_iff.1 hid).1]
    exact hid
  obtain ⟨front, back, hcode, hcode', hback⟩ := h
  refine ⟨front, back, hcode, hcode', ?_⟩
  rcases hback with ⟨last, i, hback, hlast, hjump⟩ | ⟨hback, hlast⟩
  · refine Or.inl ⟨last, i, hback, ?_, hjump⟩
    rw [hinstr, List.getElem?_append] at hlast
    split at hlast
    · rwa [Graph.instr?_eq]
    · rw [his i (List.mem_of_getElem? hlast)] at hjump
      cases hjump
  · exact Or.inr ⟨hback, fun last i hl hi => hlast last i hl (hold hi)⟩

/-! ## All moves at once -/

/-- Moves carried out one after the other amount to others at once: from any state, every destination gets what its
source held, and no other register changes apart from virtual ones with numbers in a range. -/
def CarriesOut (moves sequence : List Move) (first next : Nat) : Prop :=
  ∀ (W : World) (m : Setting W) (s : State W.Value), ∃ regs,
    executeAll W m (sequence.map Move.instr) s = pure { s with regs } ∧
    (∀ move ∈ moves, regs move.target = s.regs move.source) ∧
    ∀ r, r ∉ moves.map (·.target) → (∀ k, first ≤ k → k < next → r ≠ .virtual k) → regs r = s.regs r

theorem carriesOut_sequence (hnodup : (moves.map (·.target)).Nodup)
    (hbelow : ∀ m ∈ moves, m.Below n) :
    CarriesOut moves (sequence n moves).1 n (sequence n moves).2 := by
  intro W m s
  refine ⟨_, executeAll_moves _ s, (runMoves_sequence hnodup hbelow s.regs).1, ?_⟩
  exact fun r => runMoves_sequence_of_not_mem s.regs

/-- A graph with moves put at the end of a block that happen one after the other, as others would at once. -/
structure AssignsAtOnce (g : Graph) (p : BlockId) (moves sequence : List Move) (g' : Graph) : Prop where
  carriesOut : CarriesOut moves sequence g.registers g'.registers
  /-- The moves are added to the table of instructions, under the next numbers. -/
  instrs_eq : g'.instrs.toList = g.instrs.toList ++ numbered g.instrs.size (sequence.map Move.instr)
  /-- In the block they stand together, and the other instructions stay as they are. -/
  code : ∀ block, g.block? p = some block → ∃ code ids, g'.block? p = some { block with code } ∧
    ids.map g'.instr? = (sequence.map Move.instr).map some ∧ PutAhead g ids block.code.toList code.toList
  /-- Nothing else is touched. -/
  block?_eq : ∀ b, b ≠ p → g'.block? b = g.block? b
  eq_with_code : g' = { g with blocks := g'.blocks, instrs := g'.instrs, registers := g'.registers }
  /-- Registers handed out for the moves are used nowhere else. -/
  fresh : ∀ k, g.registers ≤ k → k < g'.registers →
    (∀ i ∈ g.table, .virtual k ∉ i.registers) ∧ ∀ m ∈ moves, m.source ≠ .virtual k ∧ m.target ≠ .virtual k
  supplied : g'.Supplied

theorem assignsAtOnce_insertMoves (hg : g.Supplied) (p : BlockId) (hnodup : (moves.map (·.target)).Nodup)
    (hbelow : ∀ m ∈ moves, m.Below g.registers) :
    AssignsAtOnce g p moves (sequence g.registers moves).1 (g.insertMoves p moves).2 := by
  constructor
  case carriesOut => exact carriesOut_sequence hnodup hbelow
  case instrs_eq => exact Graph.instrs_insertMoves g p moves
  case code =>
    intro block hblock
    refine ⟨_, _, (Graph.block?_modifyBlock ..).trans ((if_pos rfl).trans (congrArg _ hblock)),
      Graph.map_instr?_insertMoves g p moves, ?_⟩
    refine PutAhead.congr (putAhead_insertBeforeJump block.code _) (Graph.table_insertMoves g p moves) fun i hi => ?_
    obtain ⟨move, -, rfl⟩ := List.mem_map.1 hi
    rfl
  case block?_eq => exact fun b hb => (Graph.block?_modifyBlock ..).trans (if_neg hb)
  case eq_with_code =>
    rfl
  case fresh =>
    intro k hk _
    refine ⟨fun i hi hmem => hg i hi _ hmem k hk rfl, fun m hm => ?_⟩
    exact ⟨(hbelow m hm).1 k hk, (hbelow m hm).2 k hk⟩
  case supplied => exact supplied_insertMoves hg p hbelow

/-- The moves of an edge, however they hang together, are put into its source as moves that happen as if at once, as
long as no two have one destination. That their registers are handed out is so whenever moves are put into a block: in
the lowering of any graph without instructions every edge into a block with merges gets its moves in such a way. -/
theorem moves_happen_at_once :
    (∀ (g : Graph) (p : BlockId) (moves : List Move), g.Supplied → (moves.map (·.target)).Nodup →
      (∀ m ∈ moves, m.Below g.registers) → ∃ sequence, (g.insertMoves p moves).1 = sequence.length ∧
        AssignsAtOnce g p moves sequence (g.insertMoves p moves).2) ∧
    ∀ s : LowerState, s.graph.instrs = #[] → s.lowered = ∅ →
      (∀ g p moves, Inserts s g p moves → g.Supplied ∧ ∀ m ∈ moves, m.source ≠ m.target ∧ m.Below g.registers) ∧
      ∀ data t, LowerM.run s = .ok data t → ∀ b ∈ s.graph.order, s.graph.mergesOf b ≠ [] → ∀ p ∈ s.graph.preds b,
        ∃ g moves, Inserts s g p moves := by
  refine ⟨fun g p moves hg hnodup hbelow => ⟨_, rfl, assignsAtOnce_insertMoves hg p hnodup hbelow⟩, ?_⟩
  intro s hinstrs hlowered
  have hs : s.Supplied := by
    refine ⟨fun i hi => ?_, fun id l hl => ?_⟩
    · rw [Graph.table, hinstrs] at hi
      cases hi
    · rw [hlowered, Std.TreeMap.getElem?_emptyc] at hl
      cases hl
  exact ⟨fun g p moves h => h.supplied hs, fun data t h b hb hmerges p hp => exists_inserts h hb hmerges hp⟩

/-- A block that ends with a jump, with three registers handed out. -/
def jumpingBlock : Graph where
  blocks := (∅ : Std.TreeMap BlockId Block).insert 0 { succs := [1], code := #[0] }
  instrs := #[⟨0, ⟨.jump 1, [], none⟩⟩]
  registers := 3

/-- Two registers change places while one of them is copied to a third. -/
def swapAndCopy : List Move :=
  [⟨.virtual 0, .virtual 1⟩, ⟨.virtual 1, .virtual 0⟩, ⟨.virtual 0, .virtual 2⟩]

/-- A block that hands a number to a merge in the next one, before it is lowered. -/
def handingOver : LowerState where
  graph := {
    blocks := ((∅ : Std.TreeMap BlockId Block).insert 0 { succs := [1], nodes := #[0, 1] }).insert 1
      { preds := [0], nodes := #[2, 3] }
    nodes := #[⟨0, .int, .intConst 1⟩, ⟨0, .void, .goto 1⟩, ⟨1, .int, .merge (.localVar 0) [0]⟩,
      ⟨1, .void, .ret (some 2)⟩]
    order := [0, 1] }
  stats := {}
  labelPrefix := "Hand_over"

/-- Whether a lowering ends well. -/
def lowers (s : LowerState) : Bool :=
  match LowerM.run s with
  | .ok .. => true
  | .error .. => false

theorem lowers_handingOver : lowers handingOver = true := by
  decide +kernel

theorem swapAndCopy_happens_at_once :
    (∃ sequence, (jumpingBlock.insertMoves 0 swapAndCopy).1 = sequence.length ∧
      AssignsAtOnce jumpingBlock 0 swapAndCopy sequence (jumpingBlock.insertMoves 0 swapAndCopy).2) ∧
    ∃ g moves, Inserts handingOver g 0 moves ∧ g.Supplied ∧
      ∀ m ∈ moves, m.source ≠ m.target ∧ m.Below g.registers := by
  constructor
  · have hlt : ∀ {k : Nat}, k < 3 → (Register.virtual k).Below jumpingBlock.registers := Register.below_virtual
    refine moves_happen_at_once.1 _ 0 _ (fun i hi r hr => ?_) (by decide) fun m hm => ?_
    · obtain rfl : i = ⟨.jump 1, [], none⟩ := by simpa [jumpingBlock, Graph.table] using hi
      cases hr
    · simp only [swapAndCopy, List.mem_cons, List.not_mem_nil, or_false] at hm
      rcases hm with rfl | rfl | rfl
      · exact ⟨hlt (by decide), hlt (by decide)⟩
      · exact ⟨hlt (by decide), hlt (by decide)⟩
      · exact ⟨hlt (by decide), hlt (by decide)⟩
  · have hlowers := lowers_handingOver
    unfold lowers at hlowers
    split at hlowers
    · next data t hrun =>
      obtain ⟨hsupplied, hinserts⟩ := moves_happen_at_once.2 handingOver rfl rfl
      have hmerges : handingOver.graph.mergesOf 1 ≠ [] := by decide +kernel
      have hpred : 0 ∈ handingOver.graph.preds 1 := by decide +kernel
      obtain ⟨g, moves, h⟩ := hinserts data t hrun 1 (by decide) hmerges 0 hpred
      exact ⟨g, moves, h, hsupplied g 0 moves h⟩
    · cases hlowers

end Machine

end Destack
