import Destack.Proofs.Machine.Runs

/-!
# Moves for several edges

All moves of the edges that leave a block stand ahead of its one jump, so that they run whichever way the jump leads.
Among the registers of nodes those of an edge write exactly the ones of merges that take another value there
(`Finished.mem_targets_iff`). Where no such merge is read by the jump, or over another edge, each edge is as if only its
own moves had run (`compile_edge_moves`). Otherwise the jump or the other edge gets the wrong value, as in `countPast`.
-/

namespace Destack

namespace Ssa

/-- The jump of a block reads a node. -/
def ReadByJump (g : Graph) (b : BlockId) (k : NodeId) : Prop :=
  ∃ id ∈ nodesOf g b, ∃ node, g.node? id = some node ∧ node.op.isControl = true ∧
    ∃ o ∈ node.op.operands, g.resolve o = k

/-- Edges to other successors overwrite nothing that is read over an edge. -/
def Apart (g : Graph) (e : BlockId × BlockId) : Prop :=
  ∀ t ∈ g.succs e.1, t ≠ e.2 → ∀ k, Overwrites g (e.1, t) k → ¬ ReadOver g e k

end Ssa

namespace Machine

open Ssa (nodesOf schedule Scheduled Orderly LiveIn Overwrites ReadOver ReadByJump Apart)

/-- All moves at the end of a block, one edge after the other. -/
def exitMoves (g : Graph) (s : LowerState) (fresh : BlockId × BlockId → Nat) (b : BlockId) : List Move :=
  (edgesFrom g b).flatMap (edgeSequence g s fresh)

/-- What the moves of an edge do, and what is left of it among the moves of the other edges. -/
structure MovesOver (g : Graph) (s : LowerState) (fresh : BlockId × BlockId → Nat) (b t : BlockId) : Prop where
  writes : ∀ {k : NodeId} {r : Register}, k ∈ schedule g → s.register? k = some r →
    (r ∈ (edgeSequence g s fresh (b, t)).map (·.target) ↔ Overwrites g (b, t) k)
  value : ∀ {V : Type} (regs : Register → V) {id o : NodeId} {r r' : Register}, id ∈ g.mergesOf t →
    g.argFrom? t b id = some o → s.register? id = some r → s.register? o = some r' →
    runMoves (edgeSequence g s fresh (b, t)) regs r = regs r'
  /-- What the jump reads is as before, if no edge overwrites it. -/
  jump : ∀ {V : Type} (regs : Register → V) {k : NodeId} {r : Register}, ReadByJump g b k → s.register? k = some r →
    (∀ t' ∈ g.succs b, ¬ Overwrites g (b, t') k) → runMoves (exitMoves g s fresh b) regs r = regs r
  /-- It is as if only the moves of the edge had run, if the other edges overwrite nothing that is read over it. -/
  alone : Apart g (b, t) → ∀ {V : Type} (regs : Register → V) {k : NodeId} {r : Register},
    LiveIn g t k ∨ k ∈ g.mergesOf t → s.register? k = some r →
    runMoves (exitMoves g s fresh b) regs r = runMoves (edgeSequence g s fresh (b, t)) regs r

theorem Finished.movesOver {g : Graph} {piece : NodeId → Piece} {fresh : BlockId × BlockId → Nat} {s : LowerState}
    (h : Finished g piece fresh s) (hs : Scheduled g) {b t : BlockId} (ht : t ∈ g.succs b) :
    MovesOver g s fresh b t := by
  have he := (mem_edges hs).2 ht
  have hes : ∀ e ∈ edgesFrom g b, e ∈ edges g ∧ e.1 = b :=
    fun e he => (List.mem_filter.1 he).imp_right of_decide_eq_true
  refine ⟨fun hk hr => h.mem_targets_iff hs he hk hr, fun regs => (h.runMoves_edge hs he regs).1 _ _ _ _, ?_, ?_⟩
  · rintro V regs k r ⟨id, hid, node, hnode, hcontrol, o, ho, rfl⟩ hr hnot
    have hread := (hs.operand hid hnode (Ssa.Op.isMerge_of_isControl hcontrol) ho).2.1
    refine h.runMoves_edges hs (fun e he => (hes e he).1) hread (fun e he => ?_) hr regs
    obtain ⟨hedge, rfl⟩ := hes e he
    exact hnot e.2 ((mem_edges hs).1 hedge)
  · intro hapart V regs k r hk hr
    refine h.runMoves_apart hs hes ((nodup_edges hs).filter _) ?_ (fun e he hne => ?_) hk hr regs
    · exact List.mem_filter.2 ⟨he, decide_eq_true rfl⟩
    · obtain ⟨hedge, rfl⟩ := hes e he
      exact hapart e.2 ((mem_edges hs).1 hedge) hne

/-- In every method that compiles, the code of a block is what its nodes emit, with the moves of all its edges ahead of
the jump. Registers that break cycles of moves are handed out after those of the nodes. Moves of an edge write the
registers of merges that take another value there and of no other node, and it is as if they were alone where no such
merge is read by the jump or over another edge. -/
theorem compile_edge_moves {table : OperandTable} {pool : ConstantPool} {m : Method} {labelPrefix : String}
    {c : Compiled} {s s' : Statistics} (h : compile table pool m labelPrefix s = .ok c s') :
    ∃ (st : Stages) (piece : NodeId → Piece) (fresh : BlockId × BlockId → Nat),
      st.Succeed table pool m labelPrefix c ∧
      (∀ id ∈ schedule st.cleaned.graph, ∃ node, st.cleaned.graph.node? id = some node ∧
        Emits st.lowered.register? st.lowered.data node.type node.op (piece id).first (piece id).code
          (st.lowered.register? id) (piece id).next) ∧
      (∀ e ∈ edges st.cleaned.graph, ∀ id ∈ schedule st.cleaned.graph, (piece id).next ≤ fresh e) ∧
      (∀ b, st.cleaned.graph.hasBlock b = true → c.graph.codeOf b =
        insertAhead ((nodesOf st.cleaned.graph b).flatMap fun id => (piece id).code)
          ((exitMoves st.cleaned.graph st.lowered fresh b).map Move.instr)) ∧
      ∀ b, ∀ t ∈ st.cleaned.graph.succs b, MovesOver st.cleaned.graph st.lowered fresh b t := by
  obtain ⟨st, hst⟩ := compile_eq_ok h
  obtain ⟨piece, fresh, s₀, hlast⟩ := exists_lastStage hst
  refine ⟨st, piece, fresh, hst, hlast.finished.emits, hlast.finished.fresh_le, fun b hb => ?_,
    fun b t ht => hlast.finished.movesOver hlast.orderly.toScheduled ht⟩
  rw [hst.graph_eq, hlast.finished.code.codeOf_eq (by rw [hlast.finished.nodes.hasBlock_eq, hb]), exitMoves,
    List.map_flatMap]
  rfl

/-! ## Edges that are apart -/

/-- One of two constants, where one edge leads straight from the test to the end. -/
def pick : Method where
  owner := "Main"
  name := "pick"
  descriptor := "(I)I"
  isStatic := true
  maxLocals := 2
  code := [
    0x04, 0x3c,                    --  0  push 1, store it in slot 1
    0x1a, 0x99, 0x00, 0x05,        --  2  load slot 0, on to 8 if it is zero
    0x05, 0x3c,                    --  6  push 2, store it in slot 1
    0x1b, 0xac]                    --  8  return slot 1

/-- A block reads none of the values of a node, and all its successors list the node. -/
def Skips (g : Graph) (b : BlockId) (k : NodeId) : Prop :=
  (∀ id ∈ nodesOf g b, ∀ node ∈ g.node? id, ∀ o ∈ node.op.operands, g.resolve o ≠ k) ∧
    ∀ t ∈ g.succs b, k ∈ nodesOf g t ∧ ∀ id ∈ g.mergesOf t, ∀ o ∈ g.argFrom? t b id, g.resolve o ≠ k

theorem Skips.not_liveIn {g : Graph} {b : BlockId} {k : NodeId} (h : Skips g b k) : ¬ LiveIn g b k := by
  intro hlive
  cases hlive with
  | operand hid hnode _ ho _ => exact h.1 _ hid _ hnode _ ho rfl
  | argument ht hid ho _ => exact (h.2 _ ht).2 _ hid _ ho rfl
  | through ht hlive _ => exact hlive.not_mem (h.2 _ ht).1

/-- The entry leads to a block without merges and to one with a merge that takes another value there, which the first
one skips. -/
def Crosses (g : Graph) : Prop :=
  g.succs 0 = [1, 2] ∧ g.mergesOf 1 = [] ∧ g.mergesOf 2 ≠ [] ∧
    ∀ k ∈ g.mergesOf 2, Skips g 1 k ∧ ∃ o ∈ g.argFrom? 2 0 k, g.resolve o ≠ k

instance : DecidablePred Crosses := fun g => by
  unfold Crosses Skips
  infer_instance

theorem crosses_iff {g g' : Graph} (h : g.SameNodes g') : Crosses g' ↔ Crosses g := by
  simp only [Crosses, Skips, Graph.argFrom?, h.succs_eq, h.mergesOf_eq, h.nodesOf_eq, h.node?_eq, h.merge?_eq,
    h.preds_eq, h.resolve_eq]

theorem Crosses.apart {g : Graph} (h : Crosses g) : (∃ k, Overwrites g (0, 2) k) ∧ Apart g (0, 1) := by
  obtain ⟨hsuccs, hnone, hsome, hskips⟩ := h
  constructor
  · obtain ⟨k, hk⟩ := List.exists_mem_of_ne_nil _ hsome
    obtain ⟨o, ho, hne⟩ := (hskips k hk).2
    exact ⟨k, hk, o, ho, hne⟩
  · rintro t ht hne k ⟨hk, -⟩ (hlive | ⟨id, o, hid, -⟩)
    · rw [hsuccs] at ht
      obtain rfl : t = 2 := by simpa [show t ≠ 1 from hne] using ht
      exact (hskips k hk).1.not_liveIn hlive
    · rw [show g.mergesOf ((0, 1) : BlockId × BlockId).2 = [] from hnone] at hid
      cases hid

theorem compilesWith_pick :
    compilesWith .standard .empty pick "Main_pick" (fun c => decide (Crosses c.graph)) = true := by
  simp only [compilesWith, compile, Graph.ofInstructions, Layout.partition_eq]
  decide +kernel

/-- In `pick` a merge is overwritten ahead of a branch, and the other edge is apart from that. -/
theorem pick_edge_moves :
    ∃ (c : Compiled) (s : Statistics), compile .standard .empty pick "Main_pick" {} = .ok c s ∧
      ∃ (st : Stages) (piece : NodeId → Piece) (fresh : BlockId × BlockId → Nat),
        st.Succeed .standard .empty pick "Main_pick" c ∧
        (∀ id ∈ schedule st.cleaned.graph, ∃ node, st.cleaned.graph.node? id = some node ∧
          Emits st.lowered.register? st.lowered.data node.type node.op (piece id).first (piece id).code
            (st.lowered.register? id) (piece id).next) ∧
        (∀ e ∈ edges st.cleaned.graph, ∀ id ∈ schedule st.cleaned.graph, (piece id).next ≤ fresh e) ∧
        (∀ b, st.cleaned.graph.hasBlock b = true → c.graph.codeOf b =
          insertAhead ((nodesOf st.cleaned.graph b).flatMap fun id => (piece id).code)
            ((exitMoves st.cleaned.graph st.lowered fresh b).map Move.instr)) ∧
        (∀ b, ∀ t ∈ st.cleaned.graph.succs b, MovesOver st.cleaned.graph st.lowered fresh b t) ∧
        (∃ k, Overwrites st.cleaned.graph (0, 2) k) ∧ Apart st.cleaned.graph (0, 1) := by
  obtain ⟨c, s, hcompile, hcrosses⟩ := exists_of_compilesWith compilesWith_pick
  obtain ⟨st, piece, fresh, hst, hemits, hfresh, hcode, hmoves⟩ := compile_edge_moves hcompile
  refine ⟨c, s, hcompile, st, piece, fresh, hst, hemits, hfresh, hcode, hmoves, Crosses.apart ?_⟩
  obtain ⟨piece, fresh, s₀, hlast⟩ := exists_lastStage hst
  rw [← crosses_iff hlast.finished.nodes, ← hst.graph_eq]
  exact of_decide_eq_true hcrosses

/-! ## A loop that tests what it has counted -/

/-- Counts up until the number before the last count is no longer below the argument: the test reads the count that the
next round overwrites. -/
def countPast : Method where
  owner := "Main"
  name := "m"
  descriptor := "(I)I"
  isStatic := true
  maxLocals := 2
  code := [
    0x03, 0x3c,                    --  0  push 0, store it in slot 1
    0x1b, 0x84, 0x01, 0x01,        --  2  load slot 1, then count it up
    0x1a, 0xa1, 0xff, 0xfb,        --  6  back to 2 while what was loaded is below slot 0
    0x1b, 0xac]                    -- 10  return slot 1

/-- Integers with sums and comparisons, and no surroundings. -/
def integers : World where
  Value := Int
  int := fun n => n
  literal := fun _ => 0
  arith := fun op a b => if op = .add then some (a + b) else none
  negate := fun a => -a
  address := fun a b => a + b
  compare := fun condition a b => if condition = .lt then a < b else a = b
  answer := fun _ => none

/-- The integer that a run returns, if it does. -/
def returned? {α : Type} (x : Exec integers α) : Option Int :=
  match x [] with
  | .error (.returned v) _ => v
  | _ => none

/-- What stack code returns for an argument. -/
def stackResult? (m : Method) (arg : Int) : Option Int :=
  match Instruction.decode .standard m.code with
  | .ok code =>
    let first := StackCode.start ⟨fun _ => arg, fun _ => (0 : Int)⟩ [.int] m.maxLocals
    returned? (StackCode.run integers .empty code 100 first)
  | .error _ => none

/-- What register code returns for an argument. -/
def registerResult? (c : Compiled) (arg : Int) : Option Int :=
  returned? (run integers ⟨fun _ => arg, c.data, fun _ _ => (0 : Int)⟩ c.graph ⟨fun _ => arg, []⟩ 100)

/-- The move for another round stands ahead of the test, which reads what it overwrites. -/
def testsOverwritten (c : Compiled) : Bool :=
  c.graph.succs 1 = [2, 1] ∧
    (c.graph.codeOf 1).drop 2 =
      [Move.instr ⟨.virtual 5, .virtual 3⟩, ⟨.branch .lt 1 2, [.virtual 3, .virtual 0], none⟩] ∧
    registerResult? c 1 = some 1

theorem compilesWith_countPast : compilesWith .standard .empty countPast "Main_m" testsOverwritten = true := by
  simp only [compilesWith, compile, Graph.ofInstructions, Layout.partition_eq]
  decide +kernel

/-- Edges of `countPast` are not apart from the jump: the block of its loop has two successors, and the last instruction
ahead of its branch is a move for one of them into a register that the branch reads. So for the argument one registers
lead to another result than the stack. -/
theorem countPast_overwrites_test :
    ∃ (c : Compiled) (s : Statistics), compile .standard .empty countPast "Main_m" {} = .ok c s ∧
      c.graph.succs 1 = [2, 1] ∧
      (c.graph.codeOf 1).drop 2 =
        [Move.instr ⟨.virtual 5, .virtual 3⟩, ⟨.branch .lt 1 2, [.virtual 3, .virtual 0], none⟩] ∧
      registerResult? c 1 = some 1 ∧ stackResult? countPast 1 = some 2 := by
  obtain ⟨c, s, hcompile, htests⟩ := exists_of_compilesWith compilesWith_countPast
  obtain ⟨hsuccs, hcode, hresult⟩ := of_decide_eq_true htests
  exact ⟨c, s, hcompile, hsuccs, hcode, hresult, by decide +kernel⟩

end Machine

end Destack
