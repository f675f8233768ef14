import Destack.Proofs.Machine.Assignment

/-!
# How blocks end

Control leaves a block at its end and nowhere else, and it goes to the successors of the block (`ClosesTo`). This is so
for the cells that instructions are translated to (`Form.closesTo`), for the nodes that are left when merges are elided
(`Elided.closesTo`), and for the register code of these nodes with the moves of the edges ahead of the jump
(`Finished.closesTo`). A wide prefix before an opcode that has no wide form would hide how the instruction leaves, so
prefixes have to fit.
-/

namespace Destack

/-- The last of a list is in control and leads to some blocks, and nothing before it is in control. -/
def ClosesTo {α : Type} (control : α → Bool) (targets : α → List BlockId) (succs : List BlockId) (xs : List α) :
    Prop :=
  ∃ front last, xs = front ++ [last] ∧ (∀ x ∈ front, control x = false) ∧ control last = true ∧
    ∀ t, t ∈ targets last ↔ t ∈ succs

namespace ClosesTo

variable {α : Type} {control : α → Bool} {targets : α → List BlockId} {succs : List BlockId} {xs ys : List α}

theorem append_left (h : ClosesTo control targets succs xs) (hys : ∀ y ∈ ys, control y = false) :
    ClosesTo control targets succs (ys ++ xs) := by
  obtain ⟨front, last, rfl, hfront, hlast⟩ := h
  refine ⟨ys ++ front, last, (List.append_assoc ..).symm, fun x hx => ?_, hlast⟩
  exact (List.mem_append.1 hx).elim (hys x) (hfront x)

/-- What is not in control may be left out. -/
theorem filter (h : ClosesTo control targets succs xs) {keep : α → Bool}
    (hkeep : ∀ x ∈ xs, control x = true → keep x = true) : ClosesTo control targets succs (xs.filter keep) := by
  obtain ⟨front, last, rfl, hfront, hlast, htargets⟩ := h
  refine ⟨front.filter keep, last, ?_, fun x hx => hfront x (List.mem_filter.1 hx).1, hlast, htargets⟩
  rw [List.filter_append, List.filter_cons_of_pos (hkeep last (by simp) hlast), List.filter_nil]

end ClosesTo

namespace Ssa

/-! ## Cells -/

section Cells

variable {c : Context} {at? : Int → Option BlockId} {i : Instruction} {is : List Instruction} {n : NodeId}
  {action : Action} {f f' : Frame} {ns tail : List Cell} {t : BlockId} {succs : List BlockId}

/-- Cells end in the one that is in control. -/
abbrev CellsCloseTo (succs : List BlockId) (cells : List Cell) : Prop :=
  ClosesTo (fun cell : Cell => cell.2.isControl) (fun cell => cell.2.targets) succs cells

theorem Op.isControl_of_mem_targets {op : Op} (h : t ∈ op.targets) : op.isControl = true := by
  cases op <;> first | rfl | cases h

theorem mem_of_leadsTo_branch {target : Int} {rest : List Int} {taken fallthrough : BlockId}
    (hcat : i.category = .conditionalBranch) (hjump : i.jumpTargets = target :: rest)
    (htaken : at? target = some taken) (hnext : at? i.next = some fallthrough) (h : LeadsTo at? i t) :
    t ∈ [taken, fallthrough] := by
  have hone := hjump.symm.trans (Instruction.jumpTargets_eq_branchTarget (Or.inl hcat))
  obtain ⟨rfl, rfl⟩ := List.cons.inj hone
  rcases h with ⟨target, htarget, ht⟩ | ⟨-, ht⟩
  · rw [hjump, List.mem_singleton] at htarget
    rw [htarget, htaken] at ht
    simp [Option.some.inj ht]
  · rw [hnext] at ht
    simp [Option.some.inj ht]

/-- What an instruction leads to is named by one of its cells. -/
theorem Translates.exists_target (h : Translates c at? i n action f ns f') (hcat : i.category = action.category)
    (ht : LeadsTo at? i t) : ∃ cell ∈ ns, t ∈ cell.2.targets := by
  have hjumps : i.category = .conditionalBranch ∨ i.category = .goto ∨ i.category = .subroutine ∨
      i.category = .switch := by
    rcases ht with ⟨target, htarget, -⟩ | ⟨hbranch, -⟩
    · exact Instruction.category_of_jumpTargets_ne_nil (List.ne_nil_of_mem htarget)
    · exact Or.inl hbranch
  cases h with
  | branchZero hjump htaken hnext =>
    refine ⟨_, List.mem_cons_of_mem _ (List.mem_singleton_self _), ?_⟩
    exact mem_of_leadsTo_branch hcat hjump htaken hnext ht
  | branchPair hjump htaken hnext =>
    refine ⟨_, List.mem_singleton_self _, ?_⟩
    exact mem_of_leadsTo_branch hcat hjump htaken hnext ht
  | branchNull hjump htaken hnext =>
    refine ⟨_, List.mem_cons_of_mem _ (List.mem_singleton_self _), ?_⟩
    exact mem_of_leadsTo_branch hcat hjump htaken hnext ht
  | jump hjump htarget =>
    have hone := hjump.symm.trans (Instruction.jumpTargets_eq_branchTarget (Or.inr hcat))
    obtain ⟨rfl, rfl⟩ := List.cons.inj hone
    rcases ht with ⟨target, hmem, ht⟩ | ⟨hbranch, -⟩
    · rw [hjump, List.mem_singleton] at hmem
      rw [hmem, htarget] at ht
      exact ⟨_, List.mem_singleton_self _, by simp [Op.targets, Option.some.inj ht]⟩
    · cases hcat.symm.trans hbranch
  | switch htable hdefault hcases =>
    rcases ht with ⟨target, hmem, ht⟩ | ⟨hbranch, -⟩
    · refine ⟨_, List.mem_singleton_self _, ?_⟩
      rw [Instruction.jumpTargets_of_switchTable? htable] at hmem
      obtain ⟨offset, hoffset, rfl⟩ := List.mem_map.1 hmem
      rcases List.mem_cons.1 hoffset with rfl | hoffset
      · rw [hdefault] at ht
        simp [Op.targets, Option.some.inj ht]
      · obtain ⟨source, hsource, rfl⟩ := List.mem_map.1 hoffset
        obtain ⟨case, hcase, -, hat⟩ := Machine.mem_of_forall₂ hcases hsource
        rw [hat] at ht
        exact List.mem_cons_of_mem _ (List.mem_map.2 ⟨case, hcase, Option.some.inj ht⟩)
    · cases hcat.symm.trans hbranch
  | _ => simp [hcat, Action.category] at hjumps

/-- An instruction that transfers control ends in a cell that leads where it does. -/
theorem Translates.closesTo (h : Translates c at? i n action f ns f') (haction : i.action? = some action)
    (hcat : i.category = action.category) (hother : i.category ≠ .other) (hsuccs : ∀ t, LeadsTo at? i t ↔ t ∈ succs) :
    CellsCloseTo succs ns := by
  obtain ⟨front, cell, rfl, hfront, hcontrol⟩ := h.exists_control (hcat ▸ hother)
  refine ⟨front, cell, rfl, hfront, hcontrol, fun t => ?_⟩
  rw [← hsuccs]
  constructor
  · exact h.leadsTo haction (by simp)
  · intro ht
    obtain ⟨cell', hcell', ht'⟩ := h.exists_target hcat ht
    rcases List.mem_append.1 hcell' with hmem | hmem
    · cases (hfront cell' hmem).symm.trans (Op.isControl_of_mem_targets ht')
    · rwa [List.mem_singleton.1 hmem] at ht'

/-- Instructions of which only the last one transfers control, and a jump if it does not. -/
theorem TranslatesAll.closesTo (h : TranslatesAll c at? n is f ns f') (hwide : ∀ i ∈ is, i.WideFits)
    (hinner : ∀ i ∈ is.dropLast, i.category = .other)
    (hfall : (∀ last, is.getLast? = some last → last.category = .other) →
      ∃ t, tail = [(.void, .goto t)] ∧ succs = [t])
    (hclose : ∀ last, is.getLast? = some last → last.category ≠ .other →
      tail = [] ∧ ∀ t, LeadsTo at? last t ↔ t ∈ succs) : CellsCloseTo succs (ns ++ tail) := by
  induction h with
  | nil =>
    obtain ⟨t, rfl, rfl⟩ := hfall fun last hlast => by cases hlast
    exact ⟨[], _, rfl, by simp, rfl, fun _ => Iff.rfl⟩
  | @cons n i is action f f₁ f' ns ns' haction htrans hrest ih =>
    have hcat := (hwide i List.mem_cons_self).category_eq haction
    cases hrest with
    | nil =>
      rw [List.append_nil]
      by_cases hother : i.category = .other
      · obtain ⟨t, rfl, rfl⟩ := hfall fun last hlast => Option.some.inj hlast ▸ hother
        refine ⟨ns, _, rfl, fun cell hcell => ?_, rfl, fun _ => Iff.rfl⟩
        exact (isPlain_of_translates htrans (hcat ▸ hother) cell hcell).2
      · obtain ⟨rfl, hsuccs⟩ := hclose i rfl hother
        rw [List.append_nil]
        exact htrans.closesTo haction hcat hother hsuccs
    | cons haction' htrans' hrest' =>
      have hother : action.category = .other := hcat ▸ hinner i (by simp)
      rw [List.append_assoc]
      refine (ih ?_ ?_ ?_ ?_).append_left fun cell hcell => (isPlain_of_translates htrans hother cell hcell).2
      · exact fun k hk => hwide k (List.mem_cons_of_mem _ hk)
      · exact fun k hk => hinner k (List.mem_cons_of_mem _ hk)
      · exact fun hothers => hfall fun last hlast => hothers last (by rwa [List.getLast?_cons_cons] at hlast)
      · exact fun last hlast => hclose last (by rwa [List.getLast?_cons_cons])

end Cells

/-! ## Nodes -/

/-- Whether there is a node with a number and it is in control. -/
def controlAt (g : Graph) (id : NodeId) : Bool :=
  ((g.node? id).map (·.op.isControl)).getD false

/-- Blocks that the node with a number leads to. -/
def targetsAt (g : Graph) (id : NodeId) : List BlockId :=
  ((g.node? id).map (·.op.targets)).getD []

section Nodes

variable {c : Context} {frameSize : Nat} {code : List Instruction} {addr : BlockId → Nat} {g g' : Graph}
  {seg : BlockId → Segment} {b : BlockId}

theorem Form.closesTo (h : Form c frameSize g seg) (hlaid : g.Laid code addr) (hb : g.hasBlock b = true)
    (hwide : ∀ i ∈ g.instructionsOf b, i.WideFits) : CellsCloseTo (g.succs b) (seg b).cells := by
  obtain ⟨block, hblock⟩ := Graph.hasBlock_iff.1 hb
  have hbody := h.body hb
  have htail := h.tail_eq hb
  rw [tailOf, Graph.instructionsOf_eq hblock, Graph.succs_eq hblock] at htail
  rw [Graph.instructionsOf_eq hblock] at hbody hwide
  rw [Segment.cells, List.append_assoc, Graph.succs_eq hblock]
  refine ClosesTo.append_left ?_ (h.isControl_heads hb)
  apply hbody.closesTo hwide (hlaid.category_inner hblock)
  · intro hlast
    obtain ⟨t, hsuccs, -⟩ := hlaid.falls hblock hlast
    refine ⟨t, htail.trans ?_, hsuccs⟩
    cases hl : block.instructions.getLast? with
    | none => simp [hsuccs]
    | some last => simp [hsuccs, hlast last hl, Category.endsBlock]
  · intro last hlast hother
    refine ⟨?_, fun t => ⟨?_, hlaid.succ_source hblock hlast hother⟩⟩
    · rw [htail, hlast]
      cases hcat : last.category with
      | other => exact absurd hcat hother
      | _ => simp [hcat, Category.endsBlock]
    · rintro (⟨target, hjump, htarget⟩ | ⟨hcat, hnext⟩)
      · exact hlaid.jump_target hblock hlast target hjump htarget
      · exact hlaid.branch_next hblock hlast hcat hnext

theorem controlAt_eq {id : NodeId} {node : Node} (h : g.node? id = some node) : controlAt g id = node.op.isControl := by
  simp [controlAt, h]

theorem targetsAt_eq {id : NodeId} {node : Node} (h : g.node? id = some node) : targetsAt g id = node.op.targets := by
  simp [targetsAt, h]

/-- Nodes end like the cells that they are. -/
theorem closesTo_range' {n : NodeId} {cells : List Cell} {succs : List BlockId} (h : CellsCloseTo succs cells)
    (hcells : ∀ {k : Nat} {cell : Cell}, cells[k]? = some cell → g.node? (n + k) = some (cell.nodeIn b)) :
    ClosesTo (controlAt g) (targetsAt g) succs (List.range' n cells.length) := by
  obtain ⟨front, last, rfl, hfront, hcontrol, htargets⟩ := h
  have hlast : g.node? (n + front.length) = some (last.nodeIn b) := hcells List.getElem?_concat_length
  refine ⟨List.range' n front.length, n + front.length, ?_, fun id hid => ?_, ?_, fun t => ?_⟩
  · rw [List.length_append, List.length_singleton, List.range'_1_concat]
  · obtain ⟨k, hk, rfl⟩ := List.mem_range'.1 hid
    have hget : (front ++ [last])[k]? = some front[k] := by
      rw [List.getElem?_append_left hk, List.getElem?_eq_getElem hk]
    have hnode := hcells hget
    rw [Nat.one_mul, controlAt_eq hnode]
    exact hfront _ (List.getElem_mem hk)
  · rw [controlAt_eq hlast]
    exact hcontrol
  · rw [targetsAt_eq hlast]
    exact htargets t

/-- The nodes that are left when merges are elided. -/
theorem Elided.closesTo (he : Elided g g') (h : Prepared c frameSize code addr g seg) (hb : g.hasBlock b = true)
    (hwide : ∀ i ∈ g.instructionsOf b, i.WideFits) :
    ClosesTo (controlAt g') (targetsAt g') (g'.succs b) (nodesOf g' b) := by
  have hcells := h.form.closesTo h.laid hb hwide
  rw [he.nodesOf_eq, h.form.nodesOf_eq hb, he.succs_eq]
  refine (closesTo_range' (b := b) hcells fun hcell => ?_).filter fun id _ hcontrol => ?_
  · rw [he.node?_eq]
    exact h.form.table hb hcell
  · -- A node in control is no merge.
    cases hnode : g.node? id with
    | none => simp [controlAt, he.node?_eq, hnode] at hcontrol
    | some node =>
      rw [controlAt_eq (he.node?_eq id ▸ hnode)] at hcontrol
      rw [he.isAliased_eq_false hnode (Op.isMerge_of_isControl hcontrol), Bool.not_false]

end Nodes

end Ssa

namespace Graph.SameNodes

variable {g g' : Graph}

theorem controlAt_eq (h : SameNodes g g') : Ssa.controlAt g' = Ssa.controlAt g := by
  funext id
  rw [Ssa.controlAt, Ssa.controlAt, h.node?_eq]

theorem targetsAt_eq (h : SameNodes g g') : Ssa.targetsAt g' = Ssa.targetsAt g := by
  funext id
  rw [Ssa.targetsAt, Ssa.targetsAt, h.node?_eq]

end Graph.SameNodes

/-! ## Register code -/

namespace Machine

open Ssa (nodesOf controlAt targetsAt Orderly)

/-- Register code ends in the instruction that is in control. -/
abbrev CodeClosesTo (succs : List BlockId) (code : List Instr) : Prop :=
  ClosesTo (fun i : Instr => i.op.isControl) (fun i => i.op.targets) succs code

/-- A node in control becomes code that ends in control and leads where the node does. -/
theorem Emits.closesTo {reg? : NodeId → Option Register} {data : Array DataEntry} {type : ValueType} {op : Ssa.Op}
    {n next : Nat} {is : List Instr} {r : Option Register} (h : Emits reg? data type op n is r next)
    (hcontrol : op.isControl = true) : CodeClosesTo op.targets is := by
  cases h with
  | retValue => exact ⟨[_], _, rfl, by simp [Op.isControl, Op.isJump], rfl, fun _ => Iff.rfl⟩
  | branch | goto | switch | retVoid | raise => exact ⟨[], _, rfl, by simp, rfl, fun _ => Iff.rfl⟩
  | _ => cases hcontrol

namespace Finished

variable {g : Graph} {piece : NodeId → Piece} {fresh : BlockId × BlockId → Nat} {s : LowerState} {b : BlockId}

/-- A block that leads nowhere has no moves at its end. -/
theorem edgesFrom_eq_nil (hg : Orderly g) (h : g.succs b = []) : edgesFrom g b = [] := by
  refine List.eq_nil_iff_forall_not_mem.2 fun e he => ?_
  have := ((mem_edgesFrom hg.toScheduled).1 he).2
  simp [h] at this

/-- The code of a block ends like its nodes, also with the moves of the edges. -/
theorem closesTo (h : Finished g piece fresh s) (hg : Orderly g) (hb : g.hasBlock b = true)
    (hnodes : ClosesTo (controlAt g) (targetsAt g) (g.succs b) (nodesOf g b)) :
    CodeClosesTo (g.succs b) (s.graph.codeOf b) := by
  obtain ⟨ids, id, hlist, hids, hcontrol, htargets⟩ := hnodes
  have hemits : ∀ k ∈ nodesOf g b, ∃ node, g.node? k = some node ∧ Emits s.register? s.data node.type node.op
      (piece k).first (piece k).code (s.register? k) (piece k).next :=
    fun k hk => h.emits k (hg.mem_schedule hk)
  have hfront : ∀ i ∈ ids.flatMap fun k => (piece k).code, i.op.isControl = false := by
    intro i hi
    obtain ⟨k, hk, hi⟩ := List.mem_flatMap.1 hi
    obtain ⟨node, hnode, hpiece⟩ := hemits k (by simp [hlist, hk])
    exact hpiece.isControl_eq_false ((Ssa.controlAt_eq hnode).symm.trans (hids k hk)) hi
  obtain ⟨node, hnode, hpiece⟩ := hemits id (by simp [hlist])
  rw [Ssa.controlAt_eq hnode] at hcontrol
  rw [Ssa.targetsAt_eq hnode] at htargets
  obtain ⟨front, last, hcode, hfront', hlast, hleads⟩ := hpiece.closesTo hcontrol
  rw [h.codeOf_eq hb, hlist, List.flatMap_append, List.flatMap_singleton, hcode, insertAhead_append (by simp)]
  refine ClosesTo.append_left ?_ hfront
  by_cases hnone : node.op.targets = []
  · -- Where a run ends there is nothing to move.
    have hsuccs : g.succs b = [] := by
      refine List.eq_nil_iff_forall_not_mem.2 fun t ht => ?_
      rw [← htargets, hnone] at ht
      cases ht
    rw [edgesFrom_eq_nil hg hsuccs, List.flatMap_nil, insertAhead_nil]
    exact ⟨front, last, rfl, hfront', hlast, fun t => (hleads t).trans (htargets t)⟩
  · obtain ⟨j, hj, hjump⟩ := hpiece.exists_jump hcontrol hnone
    obtain ⟨rfl, rfl⟩ : front = [] ∧ last = j := by simpa using List.append_eq_singleton_iff.1 (hcode.symm.trans hj)
    rw [insertAhead_jump hjump, List.nil_append]
    refine ⟨_, last, rfl, fun i hi => ?_, hlast, fun t => (hleads t).trans (htargets t)⟩
    obtain ⟨e, -, hi⟩ := List.mem_flatMap.1 hi
    obtain ⟨move, -, rfl⟩ := List.mem_map.1 hi
    rfl

end Finished

/-- In compiled code control leaves a block by its last instruction and by no other, with the moves of the edges ahead,
and that instruction names exactly the successors of the block. The same holds of its nodes. A wide prefix has to stand
before a form that has one. -/
theorem blocks_end_in_control {table : OperandTable} {pool : ConstantPool} {m : Method} {labelPrefix : String}
    {c : Compiled} {s s' : Statistics} (h : compile table pool m labelPrefix s = .ok c s') {b : BlockId}
    (hb : c.graph.hasBlock b = true) (hwide : ∀ i ∈ c.graph.instructionsOf b, i.WideFits) :
    CodeClosesTo (c.graph.succs b) (c.graph.codeOf b) ∧
      ClosesTo (controlAt c.graph) (targetsAt c.graph) (c.graph.succs b) (nodesOf c.graph b) := by
  obtain ⟨st, hst⟩ := compile_eq_ok h
  obtain ⟨type, addr, seg, -, hprepared, helided⟩ := Ssa.exists_elided hst
  obtain ⟨piece, fresh, s₀, hlast⟩ := exists_lastStage hst
  have hsame := hlast.finished.nodes
  rw [hst.graph_eq] at hb hwide ⊢
  rw [hsame.hasBlock_eq] at hb
  rw [hsame.textOf.instructionsOf_eq, helided.keeps_text.instructionsOf_eq] at hwide
  have hnodes := helided.closesTo hprepared (helided.keeps_text.hasBlock_eq b ▸ hb) hwide
  rw [hsame.succs_eq, hsame.nodesOf_eq, hsame.controlAt_eq, hsame.targetsAt_eq]
  exact ⟨hlast.finished.closesTo hlast.orderly hb hnodes, hnodes⟩

/-- Counts the argument down to zero, with a wide increment that a branch leads back to. -/
def countDown : Method where
  owner := "Count"
  name := "down"
  descriptor := "(I)I"
  isStatic := true
  maxLocals := 1
  code := [
    0xc4, 0x84, 0x00, 0x00, 0xff, 0xff,  --  0  count slot 0 down
    0x1a, 0x9a, 0xff, 0xf9,              --  6  load slot 0, back to 0 unless it is zero
    0x1a, 0xac]                          -- 10  return slot 0

theorem compilesWith_countDown : compilesWith .standard .empty countDown "Count_down" (fun c =>
    decide (c.graph.blockIds = [0, 1, 2] ∧ (c.graph.instructionsOf 1).any (·.isWide) = true ∧
      ∀ b ∈ c.graph.blockIds, ∀ i ∈ c.graph.instructionsOf b, i.WideFits)) = true := by
  simp only [compilesWith, compile, Graph.ofInstructions, Layout.partition_eq]
  decide +kernel

/-- The entry of `countDown` is empty, and moves stand ahead of its jump and ahead of the branch back. -/
theorem countDown_blocks_end_in_control :
    ∃ (c : Compiled) (s : Statistics), compile .standard .empty countDown "Count_down" {} = .ok c s ∧
      c.graph.blockIds = [0, 1, 2] ∧ (c.graph.instructionsOf 1).any (·.isWide) = true ∧
      ∀ b ∈ c.graph.blockIds, c.graph.hasBlock b = true ∧ (∀ i ∈ c.graph.instructionsOf b, i.WideFits) ∧
        CodeClosesTo (c.graph.succs b) (c.graph.codeOf b) ∧
        ClosesTo (controlAt c.graph) (targetsAt c.graph) (c.graph.succs b) (nodesOf c.graph b) := by
  obtain ⟨c, s, hcompile, hp⟩ := exists_of_compilesWith compilesWith_countDown
  obtain ⟨hids, hany, hwide⟩ := of_decide_eq_true hp
  refine ⟨c, s, hcompile, hids, hany, fun b hb => ?_⟩
  have hhas : c.graph.hasBlock b = true := Graph.mem_blockIds.1 hb
  exact ⟨hhas, hwide b hb, blocks_end_in_control hcompile hhas (hwide b hb)⟩

end Machine

end Destack
