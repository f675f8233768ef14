import Destack.Proofs.Graph.Flow
import Destack.Proofs.Ssa.Entry
import Destack.Proofs.Ssa.Order

/-!
# The nodes of a method

The nodes of a block are numbered one after the other. They start with the nodes made for the frame at its start,
then come the translations of its instructions, and at the end a jump if no instruction leads on. The pass builds all
blocks in this way, each after the blocks before it in the order (`blocks_ok`).
-/

namespace Destack

namespace Graph

/-- The frame that a block leaves. -/
def exitOf (g : Graph) (b : BlockId) : Frame :=
  ((g.block? b).map (·.exit)).getD Frame.empty

def instructionsOf (g : Graph) (b : BlockId) : List Instruction :=
  ((g.block? b).map (·.instructions)).getD []

theorem instructionsOf_eq {g : Graph} {b : BlockId} {block : Block} (h : g.block? b = some block) :
    g.instructionsOf b = block.instructions := by
  simp [instructionsOf, h]

theorem hasBlock_of_mem_instructionsOf {g : Graph} {b : BlockId} {i : Instruction} (h : i ∈ g.instructionsOf b) :
    g.hasBlock b = true := by
  by_contra hnot
  rw [instructionsOf, hasBlock_eq_false_iff.1 (Bool.not_eq_true _ ▸ hnot)] at h
  cases h

/-- The instructions of a graph over code are those of the code. -/
theorem Laid.unmarked_mem {g : Graph} {code : List Instruction} {addr : BlockId → Nat} (h : Laid code addr g)
    {b : BlockId} {i : Instruction} (hi : i ∈ g.instructionsOf b) : i.unmarked ∈ code := by
  obtain ⟨block, hb⟩ := hasBlock_iff.1 (hasBlock_of_mem_instructionsOf hi)
  rw [instructionsOf_eq hb] at hi
  exact h.mem_code hb i hi

theorem Keeps.instructionsOf_eq {g g' : Graph} (h : Keeps textOf g g') (b : BlockId) :
    g'.instructionsOf b = g.instructionsOf b := by
  have hview : (g'.block? b).map Block.instructions = (g.block? b).map Block.instructions := h.comp Prod.fst b
  rw [instructionsOf, instructionsOf, hview]

def isHeadAt (g : Graph) (b : BlockId) : Bool :=
  ((g.block? b).map (·.isHead)).getD false

end Graph

namespace Ssa

/-- The nodes of a block, in the parts in which they were made, with the frames between. -/
structure Segment where
  first : NodeId
  heads : List Cell
  enter : Frame
  body : List Cell
  exit : Frame
  tail : List Cell

namespace Segment

def cells (sg : Segment) : List Cell :=
  sg.heads ++ sg.body ++ sg.tail

/-- The number after the last node. -/
def stop (sg : Segment) : NodeId :=
  sg.first + sg.cells.length

theorem body_le_stop (sg : Segment) : sg.first + sg.heads.length + sg.body.length ≤ sg.stop := by
  simp only [stop, cells, List.length_append]
  lia

end Segment

/-- Exit frames of predecessors, of which those in a list are known. -/
def sourcesOf (g : Graph) (front : List BlockId) (preds : List BlockId) : List (Option Frame) :=
  preds.map fun p => if p ∈ front then some (g.exitOf p) else none

/-- The frame at the start of a block that is built after some others, and the cells made for it from a number on. -/
inductive Enters (c : Context) (frameSize : Nat) (g : Graph) (front : List BlockId) (b : BlockId) (n : NodeId) :
    List Cell → Frame → Prop where
  | entry : b = Graph.entry →
    Enters c frameSize g front b n (seedCells c.formals frameSize)
      (seedFrame n (seedCells c.formals frameSize).length)
  | single {p : BlockId} : b ≠ Graph.entry → g.preds b = [p] → p ∈ front →
    Enters c frameSize g front b n [] (g.exitOf p)
  | join {cells : List Cell} {f : Frame} : b ≠ Graph.entry → 2 ≤ (g.preds b).length →
    Joins (g.isHeadAt b) (sourcesOf g front (g.preds b)) frameSize n cells f →
    Enters c frameSize g front b n cells f

/-- The jump at the end of a block whose instructions do not lead on. -/
def tailOf (g : Graph) (b : BlockId) : List Cell :=
  if ((g.instructionsOf b).getLast?.map (·.category.endsBlock)).getD false then []
  else
    match g.succs b with
    | next :: _ => [(.void, .goto next)]
    | [] => []

/-- A block was built after some others. -/
structure Built (c : Context) (frameSize : Nat) (g : Graph) (front : List BlockId) (b : BlockId) (sg : Segment) :
    Prop where
  listed : ∃ block, g.block? b = some block ∧ block.nodes.toList = List.range' sg.first sg.cells.length
  exit_eq : g.exitOf b = sg.exit
  table : ∀ {k : Nat} {cell : Cell}, sg.cells[k]? = some cell → g.node? (sg.first + k) = some (cell.nodeIn b)
  enters : Enters c frameSize g front b sg.first sg.heads sg.enter
  body : TranslatesAll c g.blockAtTarget? (sg.first + sg.heads.length) (g.instructionsOf b) sg.enter sg.body sg.exit
  tail_eq : sg.tail = tailOf g b

theorem Enters.mono {c : Context} {frameSize : Nat} {g g' : Graph} {front : List BlockId} {b : BlockId} {n : NodeId}
    {cells : List Cell} {f : Frame} (h : Enters c frameSize g front b n cells f)
    (hpreds : g'.preds b = g.preds b) (hhead : g'.isHeadAt b = g.isHeadAt b)
    (hexit : ∀ p ∈ front, g'.exitOf p = g.exitOf p) : Enters c frameSize g' front b n cells f := by
  cases h with
  | entry hb => exact .entry hb
  | single hb hp hmem =>
    rw [← hexit _ hmem]
    exact .single hb (hpreds.trans hp) hmem
  | join hb hlen hjoin =>
    have hsources : sourcesOf g front (g.preds b) = sourcesOf g' front (g'.preds b) := by
      unfold sourcesOf
      rw [hpreds]
      refine List.map_congr_left fun p _ => ?_
      split
      · next hmem => rw [hexit p hmem]
      · rfl
    rw [hsources, ← hhead] at hjoin
    exact .join hb (hpreds ▸ hlen) hjoin

/-- A block stays built as long as it, the blocks before it and its nodes stay as they are. -/
theorem Built.mono {c : Context} {frameSize : Nat} {g g' : Graph} {front : List BlockId} {b : BlockId} {sg : Segment}
    (h : Built c frameSize g front b sg) (hblock : ∀ k, k ∈ front ∨ k = b → g'.block? k = g.block? k)
    (hstarts : g'.starts = g.starts) (hnodes : ∀ {id node}, g.node? id = some node → g'.node? id = some node) :
    Built c frameSize g' front b sg := by
  have hself := hblock b (Or.inr rfl)
  have hinstr : g'.instructionsOf b = g.instructionsOf b := by unfold Graph.instructionsOf; rw [hself]
  constructor
  case listed =>
    rw [hself]
    exact h.listed
  case exit_eq => rw [← h.exit_eq, Graph.exitOf, Graph.exitOf, hself]
  case table => exact fun hk => hnodes (h.table hk)
  case enters =>
    refine h.enters.mono ?_ ?_ fun p hp => ?_
    · rw [Graph.preds, Graph.preds, hself]
    · rw [Graph.isHeadAt, Graph.isHeadAt, hself]
    · rw [Graph.exitOf, Graph.exitOf, hblock p (Or.inl hp)]
  case body =>
    have hat : g'.blockAtTarget? = g.blockAtTarget? := funext fun x => Graph.blockAtTarget?_congr hstarts x
    rw [hinstr, hat]
    exact h.body
  case tail_eq => rw [h.tail_eq, tailOf, tailOf, hinstr, Graph.succs, Graph.succs, hself]

/-- Blocks that have been built in order. -/
structure Construction (c : Context) (frameSize : Nat) (g : Graph) (done : List BlockId) (seg : BlockId → Segment) :
    Prop where
  nodup : done.Nodup
  built : ∀ {front rest : List BlockId} {b : BlockId}, done = front ++ b :: rest →
    Built c frameSize g front b (seg b)
  prior : ∀ {front rest : List BlockId} {b : BlockId}, done = front ++ b :: rest →
    ∀ p ∈ front, (seg p).stop ≤ (seg b).first
  /-- The stack is as deep at the end of an edge as at its start, if the end was entered first. -/
  depths : ∀ {front rest : List BlockId} {b : BlockId}, done = front ++ b :: rest →
    ∀ t ∈ g.succs b, t ∈ front ∨ t = b → (seg b).exit.depth = (seg t).enter.depth
  stop_le : ∀ b ∈ done, (seg b).stop ≤ g.nodes.size
  /-- Every node is one of a block. -/
  covered : ∀ id < g.nodes.size, ∃ b ∈ done, (seg b).first ≤ id ∧ id < (seg b).stop

/-! ## One block -/

section Block

variable {c : Context} {frameSize : Nat} {s t s' : BuildState} {front : List BlockId} {b : BlockId}

/-- The frames that the pass finds are the exit frames of the blocks built so far. -/
theorem sources_eq (hbuilt : ∀ p, s.built.contains p = true ↔ p ∈ front)
    (hhas : ∀ p ∈ front, ∃ block, s.graph.block? p = some block) (preds : List BlockId) :
    (preds.map fun p => if s.built.contains p then (s.graph.block? p).map (·.exit) else none) =
      sourcesOf s.graph front preds := by
  refine List.map_congr_left fun p _ => ?_
  by_cases hp : p ∈ front
  · obtain ⟨block, hblock⟩ := hhas p hp
    rw [if_pos hp, if_pos ((hbuilt p).2 hp), Graph.exitOf, hblock]
    rfl
  · rw [if_neg hp, if_neg fun h => hp ((hbuilt p).1 h)]

theorem enter_ok (hbuilt : ∀ p, s.built.contains p = true ↔ p ∈ front)
    (hhas : ∀ p ∈ front, ∃ block, s.graph.block? p = some block) (h : BuildM.enter c frameSize b s = .ok () t) :
    ∃ heads f, Enters c frameSize s.graph front b s.graph.nodes.size heads f ∧
      After { s with block := b, frame := Frame.empty } heads f t := by
  obtain ⟨_, _, hmod, h⟩ := Pass.bind_eq_ok.1 h
  obtain rfl := Pass.modify_eq_ok.1 hmod
  split at h
  · next hb => exact ⟨_, _, .entry hb, enterEntry_ok rfl h⟩
  · next hb =>
    obtain ⟨block, _, hget, h⟩ := Pass.bind_eq_ok.1 h
    obtain ⟨hblock, rfl⟩ := blockAt_eq_ok.1 hget
    have hself : s.graph.preds b = block.preds := Graph.preds_eq hblock
    have hstart : After { s with block := b, frame := Frame.empty } [] Frame.empty
        { s with block := b, frame := Frame.empty } := After.refl _
    match hpreds : block.preds with
    | [] =>
      simp only [hpreds] at h
      exact (Pass.throw_eq_ok.1 h).elim
    | [p] =>
      simp only [hpreds] at h
      obtain ⟨_, _, hget, h⟩ := Pass.bind_eq_ok.1 h
      obtain ⟨rfl, rfl⟩ := Pass.get_eq_ok.1 hget
      obtain ⟨exit, _, hlift, h⟩ := Pass.bind_eq_ok.1 h
      obtain ⟨hexit, rfl⟩ := Pass.lift_eq_ok.1 hlift
      have hexit := exitOf_eq_ok hexit
      cases exit with
      | none => exact (Pass.throw_eq_ok.1 h).elim
      | some f =>
        obtain rfl := Pass.modify_eq_ok.1 h
        split at hexit
        · next hp =>
          have hf : s.graph.exitOf p = f := by rw [Graph.exitOf, ← hexit, Option.getD_some]
          refine ⟨[], f, ?_, rfl, rfl, rfl, rfl, rfl⟩
          rw [← hf]
          exact .single hb (hself.trans hpreds) ((hbuilt p).1 hp)
        · cases hexit
    | p :: q :: rest =>
      simp only [hpreds] at h
      obtain ⟨cells, f, hjoin, hafter⟩ := enterJoin_ok hstart h
      refine ⟨cells, f, .join hb (by simp [hself, hpreds]) ?_, hafter⟩
      rw [← sources_eq hbuilt hhas, hself, hpreds]
      exact hjoin

theorem checkDepths_ok {u : Unit} (h : BuildM.checkDepths b s = .ok u s') :
    s = s' ∧ ∀ t ∈ s.graph.succs b, ∀ d, s.entryDepth[t]? = some d → s.frame.depth = d := by
  obtain ⟨block, _, hget, h⟩ := Pass.bind_eq_ok.1 h
  obtain ⟨hblock, rfl⟩ := blockAt_eq_ok.1 hget
  obtain ⟨_, _, hget, h⟩ := Pass.bind_eq_ok.1 h
  obtain ⟨rfl, rfl⟩ := Pass.get_eq_ok.1 hget
  rw [Graph.succs_eq hblock]
  refine Pass.forM_check (fun {succ r r'} hone => ?_) h
  cases hd : s.entryDepth[succ]? with
  | none =>
    simp only [hd] at hone
    exact ⟨(Pass.pure_eq_ok.1 hone).2, by simp⟩
  | some expected =>
    simp only [hd] at hone
    split at hone
    · next heq => exact ⟨(Pass.pure_eq_ok.1 hone).2, by simpa using heq⟩
    · exact (Pass.throw_eq_ok.1 hone).elim

/-- The jump at the end of a block is emitted before the rest of the pass. -/
theorem emitTail_ok {f : Frame} {cells : List Cell} {rest : BuildM Unit} (ht : After s cells f t)
    (h : (if !((s.graph.instructionsOf s.block).getLast?.map (·.category.endsBlock)).getD false then do
        match (← BuildM.blockAt s.block).succs with
        | next :: _ => do
          discard <| BuildM.emit .void (.goto next)
          rest
        | [] => rest
      else rest : BuildM Unit) t = .ok () s') :
    ∃ t', After s (cells ++ tailOf s.graph s.block) f t' ∧ rest t' = .ok () s' := by
  unfold tailOf
  cases hends : ((s.graph.instructionsOf s.block).getLast?.map (·.category.endsBlock)).getD false with
  | true =>
    simp only [hends, Bool.not_true, Bool.false_eq_true, if_false] at h
    exact ⟨t, by simpa using ht, h⟩
  | false =>
    simp only [hends, Bool.not_false, if_true] at h
    obtain ⟨block, _, hget, h⟩ := Pass.bind_eq_ok.1 h
    obtain ⟨hblock, rfl⟩ := blockAt_eq_ok.1 hget
    have hsuccs : block.succs = s.graph.succs s.block := by
      rw [← Graph.succs_eq hblock, ht.graph_eq, Graph.succs, Graph.succs, Graph.block?_emitted, if_pos rfl]
      cases s.graph.block? s.block <;> rfl
    rw [hsuccs] at h
    cases hsucc : s.graph.succs s.block with
    | nil =>
      simp only [hsucc] at h
      exact ⟨t, by simpa using ht, h⟩
    | cons next more =>
      simp only [hsucc] at h
      obtain ⟨_, t', hemit, h⟩ := Pass.bind_eq_ok.1 h
      obtain ⟨id, hemit⟩ := Pass.discard_eq_ok.1 hemit
      exact ⟨t', by simpa using (ht.emit hemit).2, h⟩

/-- What building a block after some others does: it emits the nodes of a segment and records the frame and the
depths. -/
structure AddsBlock (c : Context) (frameSize : Nat) (front : List BlockId) (b : BlockId) (sg : Segment)
    (s s' : BuildState) : Prop where
  first_eq : sg.first = s.graph.nodes.size
  enters : Enters c frameSize s.graph front b sg.first sg.heads sg.enter
  body : TranslatesAll c s.graph.blockAtTarget? (sg.first + sg.heads.length) (s.graph.instructionsOf b) sg.enter
    sg.body sg.exit
  tail_eq : sg.tail = tailOf s.graph b
  graph_eq : s'.graph = (s.graph.emitted b sg.cells).modifyBlock b fun block => { block with exit := sg.exit }
  built_eq : s'.built = s.built.insert b
  entryDepth_eq : s'.entryDepth = s.entryDepth.insert b sg.enter.depth
  depths : ∀ t ∈ s.graph.succs b, ∀ d, s'.entryDepth[t]? = some d → sg.exit.depth = d

theorem block_ok (hbuilt : ∀ p, s.built.contains p = true ↔ p ∈ front)
    (hhas : ∀ p ∈ front, ∃ block, s.graph.block? p = some block) (h : BuildM.block c frameSize b s = .ok () s') :
    ∃ sg, AddsBlock c frameSize front b sg s s' := by
  obtain ⟨_, t₁, henter, h⟩ := Pass.bind_eq_ok.1 h
  obtain ⟨heads, f, henters, h₁⟩ := enter_ok hbuilt hhas henter
  obtain ⟨_, _, hmod, h⟩ := Pass.bind_eq_ok.1 h
  obtain rfl := Pass.modify_eq_ok.1 hmod
  obtain ⟨block, _, hget, h⟩ := Pass.bind_eq_ok.1 h
  obtain ⟨hblock, rfl⟩ := blockAt_eq_ok.1 hget
  -- The depth was recorded in between, so the pass goes on from a state that has it.
  let s₁ : BuildState :=
    { s with block := b, frame := Frame.empty, entryDepth := s.entryDepth.insert b f.depth }
  have h₂ : After s₁ heads f { t₁ with entryDepth := t₁.entryDepth.insert b t₁.frame.depth } :=
    ⟨h₁.graph_eq, h₁.frame_eq, h₁.block_eq, h₁.built_eq, by rw [h₁.entryDepth_eq, h₁.frame_eq]⟩
  have hinstr : block.instructions = s.graph.instructionsOf b := by
    rw [← Graph.instructionsOf_eq hblock, h₁.graph_eq, Graph.instructionsOf, Graph.instructionsOf, Graph.block?_emitted,
      if_pos rfl]
    cases s.graph.block? b <;> rfl
  dsimp only at h
  rw [hinstr] at h
  obtain ⟨_, t₂, hbody, h⟩ := Pass.bind_eq_ok.1 h
  obtain ⟨body, exit, htrans, h₃⟩ := instructions_ok h₂ hbody
  obtain ⟨t₃, h₄, h⟩ := emitTail_ok h₃ h
  obtain ⟨_, _, hcheck, h⟩ := Pass.bind_eq_ok.1 h
  obtain ⟨rfl, hdepths⟩ := checkDepths_ok hcheck
  obtain ⟨_, _, hget, h⟩ := Pass.bind_eq_ok.1 h
  obtain ⟨rfl, rfl⟩ := Pass.get_eq_ok.1 hget
  obtain ⟨_, _, hlift, h⟩ := Pass.bind_eq_ok.1 h
  obtain ⟨hedit, rfl⟩ := Pass.lift_eq_ok.1 hlift
  obtain ⟨-, rfl⟩ := Graph.editBlock_eq_ok.1 hedit
  obtain rfl := Pass.set_eq_ok.1 h
  have hsuccs : t₃.graph.succs b = s.graph.succs b := by
    rw [h₄.graph_eq, Graph.succs, Graph.succs, Graph.block?_emitted, if_pos rfl]
    cases s.graph.block? b <;> rfl
  refine ⟨⟨s.graph.nodes.size, heads, f, body, exit, tailOf s.graph b⟩, rfl, henters, htrans, rfl, ?_, ?_,
    h₄.entryDepth_eq, ?_⟩
  · rw [h₄.graph_eq, h₄.frame_eq]
    rfl
  · rw [h₄.built_eq]
  · rw [← hsuccs, ← h₄.frame_eq]
    exact hdepths

namespace AddsBlock

variable {sg : Segment} {block : Block} (h : AddsBlock c frameSize front b sg s s')
include h

theorem starts_eq : s'.graph.starts = s.graph.starts := by
  rw [h.graph_eq, Graph.modifyBlock_starts, Graph.emitted_starts]

theorem toList_nodes : s'.graph.nodes.toList = s.graph.nodes.toList ++ sg.cells.map (Cell.nodeIn b) := by
  rw [h.graph_eq, Graph.modifyBlock_nodes, Graph.toList_nodes_emitted]

theorem stop_eq : sg.stop = s'.graph.nodes.size := by
  rw [Segment.stop, h.first_eq, h.graph_eq, Graph.modifyBlock_nodes, Graph.size_nodes_emitted]

/-- Nodes made before stay. -/
theorem node?_eq {id : NodeId} {node : Node} (hid : s.graph.node? id = some node) : s'.graph.node? id = some node := by
  rw [Graph.node?, ← Array.getElem?_toList] at hid ⊢
  rw [h.toList_nodes]
  exact List.getElem?_append_left (List.getElem?_eq_some_iff.1 hid).1 ▸ hid

theorem node?_cell {k : Nat} {cell : Cell} (hk : sg.cells[k]? = some cell) :
    s'.graph.node? (sg.first + k) = some (cell.nodeIn b) := by
  rw [Graph.node?, ← Array.getElem?_toList, h.toList_nodes, h.first_eq, List.getElem?_append_right (by simp),
    List.getElem?_map]
  simp [hk]

theorem block?_of_ne {k : BlockId} (hk : k ≠ b) : s'.graph.block? k = s.graph.block? k := by
  rw [h.graph_eq, Graph.block?_modifyBlock, if_neg hk, Graph.block?_emitted, if_neg hk]

variable (hself : s.graph.block? b = some block) (hempty : block.nodes = #[])
include hself hempty

theorem block?_self : s'.graph.block? b =
    some { block with nodes := (List.range' sg.first sg.cells.length).toArray, exit := sg.exit } := by
  rw [h.graph_eq, Graph.block?_modifyBlock, Graph.block?_emitted]
  simp [hself, hempty, h.first_eq]

theorem succs_eq : s'.graph.succs b = s.graph.succs b := by
  rw [Graph.succs_eq (h.block?_self hself hempty), Graph.succs_eq hself]

theorem instructionsOf_eq : s'.graph.instructionsOf b = s.graph.instructionsOf b := by
  rw [Graph.instructionsOf_eq (h.block?_self hself hempty), Graph.instructionsOf_eq hself]

theorem isHeadAt_eq (k : BlockId) : s'.graph.isHeadAt k = s.graph.isHeadAt k := by
  by_cases hk : k = b
  · subst hk
    rw [Graph.isHeadAt, Graph.isHeadAt, h.block?_self hself hempty, hself]
    rfl
  · rw [Graph.isHeadAt, Graph.isHeadAt, h.block?_of_ne hk]

theorem keeps : Graph.Keeps Graph.textOf s.graph s'.graph := by
  intro k
  by_cases hk : k = b
  · subst hk
    rw [h.block?_self hself hempty, hself]
    rfl
  · rw [h.block?_of_ne hk]

/-- A block that was not built before is built. -/
theorem built (hb : b ∉ front) : Built c frameSize s'.graph front b sg := by
  have hblock := h.block?_self hself hempty
  constructor
  case listed => exact ⟨_, hblock, rfl⟩
  case exit_eq =>
    rw [Graph.exitOf, hblock]
    rfl
  case table => exact h.node?_cell
  case enters =>
    refine h.enters.mono ?_ (h.isHeadAt_eq hself hempty b) fun p hp => ?_
    · rw [Graph.preds_eq hblock, Graph.preds_eq hself]
    · rw [Graph.exitOf, Graph.exitOf, h.block?_of_ne fun e : p = b => hb (e ▸ hp)]
  case body =>
    rw [h.instructionsOf_eq hself hempty, funext fun x => Graph.blockAtTarget?_congr h.starts_eq x]
    exact h.body
  case tail_eq => rw [h.tail_eq, tailOf, tailOf, h.instructionsOf_eq hself hempty, h.succs_eq hself hempty]

end AddsBlock

end Block

/-! ## All blocks -/

/-- What holds of the pass when some blocks have been built. -/
structure Progress (c : Context) (frameSize : Nat) (g₀ : Graph) (done : List BlockId) (seg : BlockId → Segment)
    (s : BuildState) : Prop where
  construction : Construction c frameSize s.graph done seg
  keeps : Graph.Keeps Graph.textOf g₀ s.graph
  isHeadAt_eq : ∀ b, s.graph.isHeadAt b = g₀.isHeadAt b
  eq_with_blocks : s.graph = { g₀ with blocks := s.graph.blocks, nodes := s.graph.nodes }
  built_iff : ∀ p, s.built.contains p = true ↔ p ∈ done
  entryDepth_eq : ∀ p ∈ done, s.entryDepth[p]? = some (seg p).enter.depth
  unbuilt : ∀ {b : BlockId} {block : Block}, b ∉ done → s.graph.block? b = some block → block.nodes = #[]
  code_eq : ∀ {b : BlockId} {block : Block}, s.graph.block? b = some block → block.code = #[]

section Step

variable {c : Context} {frameSize : Nat} {g₀ : Graph} {done : List BlockId} {seg : BlockId → Segment}
  {s s' : BuildState} {b : BlockId}

theorem append_singleton_eq_append_cons {front rest : List BlockId} {k : BlockId}
    (h : done ++ [b] = front ++ k :: rest) :
    (front = done ∧ k = b ∧ rest = []) ∨ ∃ rest', done = front ++ k :: rest' ∧ rest = rest' ++ [b] := by
  rcases List.eq_nil_or_concat rest with rfl | ⟨rest', last, rfl⟩
  · obtain ⟨rfl, hb⟩ := List.append_inj' h rfl
    exact Or.inl ⟨rfl, (List.cons.inj hb).1.symm, rfl⟩
  · have h' : done ++ [b] = (front ++ k :: rest') ++ [last] := by simpa using h
    obtain ⟨rfl, hb⟩ := List.append_inj' h' rfl
    exact Or.inr ⟨rest', rfl, by rw [(List.cons.inj hb).1]; simp⟩

/-- A construction goes on with a block built after all others. -/
theorem Construction.snoc {g g' : Graph} {sg : Segment} (h : Construction c frameSize g done seg) (hb : b ∉ done)
    (hself : Built c frameSize g' done b sg) (hblock : ∀ k ∈ done, g'.block? k = g.block? k)
    (hstarts : g'.starts = g.starts) (hnodes : ∀ {id node}, g.node? id = some node → g'.node? id = some node)
    (hfirst : sg.first = g.nodes.size) (hstop : sg.stop = g'.nodes.size)
    (hdepths : ∀ t ∈ g'.succs b, t ∈ done ∨ t = b → sg.exit.depth = (Function.update seg b sg t).enter.depth) :
    Construction c frameSize g' (done ++ [b]) (Function.update seg b sg) := by
  have hold : ∀ p ∈ done, Function.update seg b sg p = seg p :=
    fun p hp => Function.update_of_ne (fun e : p = b => hb (e ▸ hp)) sg seg
  constructor
  case nodup => exact List.Nodup.append h.nodup (List.nodup_singleton b) (by simpa using hb)
  case built =>
    intro front rest k hcons
    rcases append_singleton_eq_append_cons hcons with ⟨rfl, rfl, rfl⟩ | ⟨rest', hsplit, rfl⟩
    · rw [Function.update_self]
      exact hself
    · have hmem : ∀ j, j ∈ front ∨ j = k → j ∈ done := by
        intro j hj
        rw [hsplit, List.mem_append, List.mem_cons]
        exact hj.imp_right Or.inl
      rw [hold k (hmem k (Or.inr rfl))]
      exact (h.built hsplit).mono (fun j hj => hblock j (hmem j hj)) hstarts hnodes
  case prior =>
    intro front rest k hcons p hp
    rcases append_singleton_eq_append_cons hcons with ⟨rfl, rfl, rfl⟩ | ⟨rest', hsplit, rfl⟩
    · rw [Function.update_self, hold p hp, hfirst]
      exact h.stop_le p hp
    · rw [hold k (by simp [hsplit]), hold p (by simp [hsplit, hp])]
      exact h.prior hsplit p hp
  case depths =>
    intro front rest k hcons t ht hmem
    rcases append_singleton_eq_append_cons hcons with ⟨rfl, rfl, rfl⟩ | ⟨rest', hsplit, rfl⟩
    · rw [Function.update_self]
      exact hdepths t ht hmem
    · have hk : k ∈ done := by simp [hsplit]
      have htdone : t ∈ done := by
        rcases hmem with hmem | rfl
        · simp [hsplit, hmem]
        · exact hk
      rw [hold k hk, hold t htdone]
      rw [Graph.succs, hblock k hk] at ht
      exact h.depths hsplit t ht hmem
  case stop_le =>
    intro k hk
    rcases List.mem_append.1 hk with hk | hk
    · rw [hold k hk]
      have hle : g.nodes.size ≤ g'.nodes.size := by
        rw [← hfirst, ← hstop]
        exact Nat.le_add_right _ _
      exact Nat.le_trans (h.stop_le k hk) hle
    · rw [List.mem_singleton.1 hk, Function.update_self, hstop]
  case covered =>
    intro id hid
    rcases Nat.lt_or_ge id g.nodes.size with hlt | hge
    · obtain ⟨k, hk, hseg⟩ := h.covered id hlt
      exact ⟨k, List.mem_append_left _ hk, by rwa [hold k hk]⟩
    · refine ⟨b, by simp, ?_⟩
      rw [Function.update_self, hfirst, hstop]
      exact ⟨hge, hid⟩

theorem construction_nil {g : Graph} (hnodes : g.nodes = #[]) (seg : BlockId → Segment) :
    Construction c frameSize g [] seg where
  nodup := List.nodup_nil
  built hsplit := by simp at hsplit
  prior hsplit := by simp at hsplit
  depths hsplit := by simp at hsplit
  stop_le := by simp
  covered := by simp [hnodes]

theorem progress_start (hfresh : g₀.Fresh) (stats : Statistics) :
    Progress c frameSize g₀ [] (fun _ => ⟨0, [], Frame.empty, [], Frame.empty, []⟩) { graph := g₀, stats } where
  construction := construction_nil hfresh.nodes_eq _
  keeps := Graph.Keeps.refl _ g₀
  isHeadAt_eq _ := rfl
  eq_with_blocks := rfl
  built_iff := by simp
  entryDepth_eq := by simp
  unbuilt _ hb := hfresh.block_nodes hb
  code_eq := hfresh.block_code

theorem Progress.exists_block (h : Progress c frameSize g₀ done seg s) :
    ∀ p ∈ done, ∃ block, s.graph.block? p = some block := by
  intro p hp
  obtain ⟨front, rest, hsplit⟩ := List.append_of_mem hp
  obtain ⟨block, hblock, -⟩ := (h.construction.built hsplit).listed
  exact ⟨block, hblock⟩

/-- Building one more block. -/
theorem Progress.block (h : Progress c frameSize g₀ done seg s) (hb : b ∉ done) (hhas : s.graph.hasBlock b = true)
    (hblock : BuildM.block c frameSize b s = .ok () s') :
    ∃ sg, Progress c frameSize g₀ (done ++ [b]) (Function.update seg b sg) s' := by
  obtain ⟨sg, hstep⟩ := block_ok h.built_iff h.exists_block hblock
  obtain ⟨block, hself⟩ := Graph.hasBlock_iff.1 hhas
  have hempty := h.unbuilt hb hself
  have hdepth : ∀ p, p ∈ done ∨ p = b → s'.entryDepth[p]? = some (Function.update seg b sg p).enter.depth := by
    intro p hp
    rw [hstep.entryDepth_eq, Std.TreeMap.getElem?_insert]
    by_cases hpb : p = b
    · simp [hpb]
    · simp [Ne.symm hpb, hpb, h.entryDepth_eq p (hp.resolve_right hpb)]
  refine ⟨sg, ?_⟩
  constructor
  case construction =>
    refine h.construction.snoc hb (hstep.built hself hempty hb) (fun k hk => ?_) hstep.starts_eq hstep.node?_eq
      hstep.first_eq hstep.stop_eq fun t ht hmem => ?_
    · exact hstep.block?_of_ne fun e : k = b => hb (e ▸ hk)
    · exact hstep.depths t (hstep.succs_eq hself hempty ▸ ht) _ (hdepth t hmem)
  case keeps => exact h.keeps.trans (hstep.keeps hself hempty)
  case isHeadAt_eq => exact fun k => (hstep.isHeadAt_eq hself hempty k).trans (h.isHeadAt_eq k)
  case eq_with_blocks => rw [hstep.graph_eq, Graph.modifyBlock, Graph.emitted_eq, h.eq_with_blocks]
  case built_iff =>
    intro p
    rw [hstep.built_eq, Std.TreeSet.contains_insert, Bool.or_eq_true, h.built_iff, List.mem_append,
      List.mem_singleton]
    rw [beq_iff_eq, Graph.compare_eq_iff, or_comm, eq_comm (a := b)]
  case entryDepth_eq =>
    intro p hp
    exact hdepth p (by simpa using hp)
  case unbuilt =>
    intro k kblock hk hkb
    rw [List.mem_append, List.mem_singleton, not_or] at hk
    rw [hstep.block?_of_ne hk.2] at hkb
    exact h.unbuilt hk.1 hkb
  case code_eq =>
    intro k kblock hkb
    by_cases hk : k = b
    · subst hk
      rw [hstep.block?_self hself hempty] at hkb
      obtain rfl := Option.some.inj hkb
      exact (h.code_eq hself :)
    · rw [hstep.block?_of_ne hk] at hkb
      exact h.code_eq hkb

/-- Building a list of blocks. -/
theorem Progress.forM_block {bs : List BlockId} (h : Progress c frameSize g₀ done seg s) (hbs : (done ++ bs).Nodup)
    (hhas : ∀ b ∈ bs, g₀.hasBlock b = true) (hblocks : bs.forM (BuildM.block c frameSize) s = .ok () s') :
    ∃ seg', Progress c frameSize g₀ (done ++ bs) seg' s' := by
  induction bs generalizing done seg s with
  | nil =>
    obtain rfl := Pass.forM_nil_eq_ok.1 hblocks
    exact ⟨seg, by simpa using h⟩
  | cons b bs ih =>
    obtain ⟨t, hone, hrest⟩ := Pass.forM_cons_eq_ok.1 hblocks
    have hb : b ∉ done := fun hin => (List.nodup_append.1 hbs).2.2 b hin b List.mem_cons_self rfl
    obtain ⟨sg, hstep⟩ := h.block hb (by rw [h.keeps.hasBlock_eq]; exact hhas b List.mem_cons_self) hone
    have hassoc : done ++ b :: bs = (done ++ [b]) ++ bs := by simp
    rw [hassoc] at hbs ⊢
    exact ih hstep hbs (fun k hk => hhas k (List.mem_cons_of_mem b hk)) hrest

/-- What the pass makes of a graph: a construction in an order that holds each block once. -/
structure Result (c : Context) (frameSize : Nat) (g₀ g : Graph) (seg : BlockId → Segment) : Prop where
  construction : Construction c frameSize g g.order seg
  mem_order : ∀ b, b ∈ g.order ↔ g.hasBlock b = true
  keeps : Graph.Keeps Graph.textOf g₀ g
  starts_eq : g.starts = g₀.starts
  aliases_eq : g.aliases = g₀.aliases
  instrs_eq : g.instrs = g₀.instrs
  registers_eq : g.registers = g₀.registers
  code_eq : ∀ {b : BlockId} {block : Block}, g.block? b = some block → block.code = #[]

theorem validate_of_blocks_ok (h : BuildM.blocks c frameSize s = .ok () s') : s.graph.validate = .ok () := by
  obtain ⟨_, _, hget, h⟩ := Pass.bind_eq_ok.1 h
  obtain ⟨rfl, rfl⟩ := Pass.get_eq_ok.1 hget
  obtain ⟨_, _, hlift, -⟩ := Pass.bind_eq_ok.1 h
  exact (Pass.lift_eq_ok.1 hlift).1

theorem blocks_ok {stats : Statistics} (hlinked : g₀.Linked) (hfresh : g₀.Fresh)
    (hentry : ∀ {b block}, g₀.block? b = some block → Graph.entry ∉ block.succs)
    (h : BuildM.blocks c frameSize { graph := g₀, stats } = .ok () s') :
    ∃ seg, Result c frameSize g₀ s'.graph seg := by
  have hvalid := validate_of_blocks_ok h
  obtain ⟨_, _, hget, h⟩ := Pass.bind_eq_ok.1 h
  obtain ⟨rfl, rfl⟩ := Pass.get_eq_ok.1 hget
  obtain ⟨_, _, hlift, h⟩ := Pass.bind_eq_ok.1 h
  obtain ⟨-, rfl⟩ := Pass.lift_eq_ok.1 hlift
  obtain ⟨_, _, hget, h⟩ := Pass.bind_eq_ok.1 h
  obtain ⟨rfl, rfl⟩ := Pass.get_eq_ok.1 hget
  obtain ⟨order, _, hlift, h⟩ := Pass.bind_eq_ok.1 h
  obtain ⟨horder, rfl⟩ := Pass.lift_eq_ok.1 hlift
  obtain ⟨_, t, hblocks, h⟩ := Pass.bind_eq_ok.1 h
  obtain rfl := Pass.modify_eq_ok.1 h
  obtain ⟨hnodup, hmem⟩ := Order.compute_ok hlinked hentry (Graph.hasBlock_entry_of_validate hvalid) horder
  obtain ⟨seg, hprog⟩ := (progress_start hfresh stats).forM_block hnodup (fun b hb => (hmem b).1 hb) hblocks
  rw [List.nil_append] at hprog
  have hc := hprog.construction
  refine ⟨seg, ⟨hc.nodup, ?_, hc.prior, hc.depths, hc.stop_le, hc.covered⟩,
    ?_, hprog.keeps, ?_, ?_, ?_, ?_, hprog.code_eq⟩
  · intro front rest b hsplit
    exact (hc.built hsplit).mono (fun _ _ => rfl) rfl id
  · intro b
    have hhas : t.graph.hasBlock b = g₀.hasBlock b := hprog.keeps.hasBlock_eq b
    exact (hmem b).trans (by rw [← hhas]; rfl)
  all_goals
    dsimp only
    rw [hprog.eq_with_blocks]

end Step

end Ssa

end Destack
