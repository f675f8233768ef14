import Destack.Proofs.Graph.Layout
import Destack.Ssa.Build

/-!
# Translation of instructions

`Translates` says what each action emits and what it does to the frame, given the number of the next node. The pass
emits exactly that (`perform_ok`), so a block's nodes are a translation of its instructions (`instructions_ok`).
-/

namespace Destack

namespace Ssa

/-- A node apart from the block that it is in. -/
abbrev Cell := ValueType × Op

/-- A cell as a node of a block. -/
def Cell.nodeIn (b : BlockId) (cell : Cell) : Node :=
  ⟨b, cell.1, cell.2⟩

end Ssa

open Ssa (Cell)

/-! ## Nodes added to a block -/

namespace Graph

/-- The graph with a cell appended to a block, if the block is there. -/
def withCell (g : Graph) (b : BlockId) (cell : Cell) : Graph :=
  { g with nodes := g.nodes.push (cell.nodeIn b) }.modifyBlock b fun block =>
    { block with nodes := block.nodes.push g.nodes.size }

theorem addNodeWith_eq_ok {g g' : Graph} {b : BlockId} {type : ValueType} {make : NodeId → Ssa.Op} {id : NodeId} :
    g.addNodeWith b type make = .ok (id, g') ↔
      g.hasBlock b = true ∧ g.nodes.size = id ∧ g.withCell b (type, make g.nodes.size) = g' := by
  unfold addNodeWith
  simp only [except_bind_eq_ok, editBlock_eq_ok, except_pure_eq_ok, Prod.mk.injEq]
  constructor
  · rintro ⟨_, ⟨hb, rfl⟩, hid, rfl⟩
    exact ⟨hb, hid, rfl⟩
  · rintro ⟨hb, hid, rfl⟩
    exact ⟨_, ⟨hb, rfl⟩, hid, rfl⟩

/-- The graph with cells appended to a block. -/
def emitted (g : Graph) (b : BlockId) (cells : List Cell) : Graph :=
  cells.foldl (fun g cell => g.withCell b cell) g

@[simp] theorem emitted_nil (g : Graph) (b : BlockId) : g.emitted b [] = g := rfl

theorem emitted_append (g : Graph) (b : BlockId) (cells cells' : List Cell) :
    g.emitted b (cells ++ cells') = (g.emitted b cells).emitted b cells' := by
  simp [emitted]

theorem emitted_eq (g : Graph) (b : BlockId) (cells : List Cell) :
    g.emitted b cells = { g with blocks := (g.emitted b cells).blocks, nodes := (g.emitted b cells).nodes } := by
  induction cells generalizing g with
  | nil => rfl
  | cons cell cells ih =>
    change (g.withCell b cell).emitted b cells = _
    rw [ih]
    rfl

@[simp] theorem emitted_starts (g : Graph) (b : BlockId) (cells : List Cell) :
    (g.emitted b cells).starts = g.starts :=
  (congrArg Graph.starts (emitted_eq g b cells)).trans rfl

theorem toList_nodes_emitted (g : Graph) (b : BlockId) (cells : List Cell) :
    (g.emitted b cells).nodes.toList = g.nodes.toList ++ cells.map (Cell.nodeIn b) := by
  induction cells generalizing g with
  | nil => simp
  | cons cell cells ih =>
    change ((g.withCell b cell).emitted b cells).nodes.toList = _
    rw [ih]
    simp [withCell, modifyBlock, Cell.nodeIn]

@[simp] theorem size_nodes_emitted (g : Graph) (b : BlockId) (cells : List Cell) :
    (g.emitted b cells).nodes.size = g.nodes.size + cells.length := by
  rw [← Array.length_toList, toList_nodes_emitted]
  simp

/-- The nodes emitted have the next numbers. -/
theorem node?_emitted (g : Graph) (b : BlockId) (cells : List Cell) (k : Nat) :
    (g.emitted b cells).node? (g.nodes.size + k) = cells[k]?.map (Cell.nodeIn b) := by
  rw [node?, ← Array.getElem?_toList, toList_nodes_emitted, List.getElem?_append_right (by simp), List.getElem?_map,
    Array.length_toList, Nat.add_sub_cancel_left]

/-- A block gets the next numbers, and the other blocks stay as they are. -/
theorem block?_emitted (g : Graph) (b k : BlockId) (cells : List Cell) :
    (g.emitted b cells).block? k =
      if k = b then (g.block? b).map fun block =>
        { block with nodes := block.nodes ++ (List.range' g.nodes.size cells.length).toArray }
      else g.block? k := by
  induction cells generalizing g with
  | nil =>
    split
    · next h => simp [h]
    · rfl
  | cons cell cells ih =>
    change ((g.withCell b cell).emitted b cells).block? k = _
    rw [ih]
    have harray : ∀ xs : Array NodeId, xs.push g.nodes.size ++ (List.range' (g.nodes.size + 1) cells.length).toArray =
        xs ++ (List.range' g.nodes.size (cells.length + 1)).toArray := by
      intro xs
      apply Array.ext'
      simp [List.range'_succ]
    simp only [withCell, block?_modifyBlock]
    split
    · simp only [if_true, modifyBlock_nodes, Array.size_push, Option.map_map, Function.comp_def, harray,
        List.length_cons]
      rfl
    · rfl

end Graph

namespace Ssa

/-! ## States of the pass -/

/-- The state after cells were emitted into the current block, with the frame as it is then. -/
structure After (s : BuildState) (cells : List Cell) (f : Frame) (t : BuildState) : Prop where
  graph_eq : t.graph = s.graph.emitted s.block cells
  frame_eq : t.frame = f
  block_eq : t.block = s.block
  built_eq : t.built = s.built
  entryDepth_eq : t.entryDepth = s.entryDepth

/-- A frame with a node pushed. -/
def push (f : Frame) (id : NodeId) : Frame :=
  { f with stack := id :: f.stack }

namespace After

variable {s t t' : BuildState} {cells : List Cell} {f : Frame} {i : Instruction} {id : NodeId}

theorem refl (s : BuildState) : After s [] s.frame s :=
  ⟨rfl, rfl, rfl, rfl, rfl⟩

theorem emitWith_eq_ok {type : ValueType} {make : NodeId → Op} :
    BuildM.emitWith type make t = .ok id t' ↔ t.graph.hasBlock t.block = true ∧ t.graph.nodes.size = id ∧
      { t with
        graph := t.graph.withCell t.block (type, make id)
        stats := t.stats.addNode (make id).kind } = t' := by
  unfold BuildM.emitWith
  simp only [Pass.bind_eq_ok, Pass.get_eq_ok, Pass.lift_eq_ok, Pass.set_eq_ok, Pass.pure_eq_ok, Prod.exists,
    Graph.addNodeWith_eq_ok]
  constructor
  · rintro ⟨_, _, ⟨rfl, rfl⟩, _, _, _, ⟨⟨hb, rfl, rfl⟩, rfl⟩, _, _, rfl, rfl, rfl⟩
    exact ⟨hb, rfl, rfl⟩
  · rintro ⟨hb, rfl, rfl⟩
    exact ⟨_, _, ⟨rfl, rfl⟩, _, _, _, ⟨⟨hb, rfl, rfl⟩, rfl⟩, (), _, rfl, rfl, rfl⟩

theorem emitWith {type : ValueType} {make : NodeId → Op} (h : After s cells f t)
    (he : BuildM.emitWith type make t = .ok id t') :
    id = s.graph.nodes.size + cells.length ∧ After s (cells ++ [(type, make id)]) f t' := by
  obtain ⟨-, rfl, rfl⟩ := emitWith_eq_ok.1 he
  have hid : t.graph.nodes.size = s.graph.nodes.size + cells.length := by
    rw [h.graph_eq, Graph.size_nodes_emitted]
  refine ⟨hid, ?_, h.frame_eq, h.block_eq, h.built_eq, h.entryDepth_eq⟩
  rw [Graph.emitted_append, ← h.graph_eq, ← h.block_eq]
  rfl

theorem emit {type : ValueType} {op : Op} (h : After s cells f t) (he : BuildM.emit type op t = .ok id t') :
    id = s.graph.nodes.size + cells.length ∧ After s (cells ++ [(type, op)]) f t' :=
  h.emitWith he

theorem push (h : After s cells f t) (hp : BuildM.push id t = .ok () t') : After s cells (push f id) t' := by
  obtain rfl := Pass.modify_eq_ok.1 hp
  exact ⟨h.graph_eq, by rw [← h.frame_eq]; rfl, h.block_eq, h.built_eq, h.entryDepth_eq⟩

theorem emitPush {type : ValueType} {op : Op} (h : After s cells f t)
    (he : BuildM.emitPush type op t = .ok () t') :
    After s (cells ++ [(type, op)]) (Ssa.push f (s.graph.nodes.size + cells.length)) t' := by
  obtain ⟨id, t₁, he, hp⟩ := Pass.bind_eq_ok.1 he
  obtain ⟨rfl, h⟩ := h.emit he
  exact h.push hp

theorem pop {ls : Array NodeId} {st : List NodeId} (h : After s cells ⟨ls, st⟩ t)
    (hp : BuildM.pop i t = .ok id t') : ∃ rest, st = id :: rest ∧ After s cells ⟨ls, rest⟩ t' := by
  unfold BuildM.pop at hp
  simp only [Pass.bind_eq_ok, Pass.get_eq_ok] at hp
  obtain ⟨_, _, ⟨rfl, rfl⟩, hp⟩ := hp
  rw [h.frame_eq] at hp
  cases st with
  | nil => exact (Pass.throw_eq_ok.1 hp).elim
  | cons top rest =>
    simp only [Pass.bind_eq_ok, Pass.modify_eq_ok, Pass.pure_eq_ok] at hp
    obtain ⟨_, _, rfl, rfl, rfl⟩ := hp
    exact ⟨rest, rfl, h.graph_eq, by rw [h.frame_eq], h.block_eq, h.built_eq, h.entryDepth_eq⟩

theorem readLocal {slot : Nat} (h : After s cells f t) (hr : BuildM.readLocal i slot t = .ok id t') :
    f.locals[slot]? = some id ∧ t = t' := by
  unfold BuildM.readLocal at hr
  simp only [Pass.bind_eq_ok, Pass.get_eq_ok] at hr
  obtain ⟨_, _, ⟨rfl, rfl⟩, hr⟩ := hr
  rw [h.frame_eq] at hr
  cases hslot : f.locals[slot]? with
  | none =>
    simp only [hslot] at hr
    exact (Pass.throw_eq_ok.1 hr).elim
  | some top =>
    simp only [hslot, Pass.pure_eq_ok] at hr
    exact ⟨by rw [hr.1], hr.2⟩

theorem writeLocal {ls : Array NodeId} {st : List NodeId} {slot : Nat} (h : After s cells ⟨ls, st⟩ t)
    (hw : BuildM.writeLocal i slot id t = .ok () t') :
    slot < ls.size ∧ After s cells ⟨ls.setIfInBounds slot id, st⟩ t' := by
  unfold BuildM.writeLocal at hw
  simp only [Pass.bind_eq_ok, Pass.get_eq_ok] at hw
  obtain ⟨_, _, ⟨rfl, rfl⟩, hw⟩ := hw
  rw [h.frame_eq] at hw
  split at hw
  · next hslot =>
    obtain rfl := Pass.modify_eq_ok.1 hw
    exact ⟨hslot, h.graph_eq, by rw [h.frame_eq], h.block_eq, h.built_eq, h.entryDepth_eq⟩
  · exact (Pass.throw_eq_ok.1 hw).elim

theorem targetBlock {target : Int} {b : BlockId} (h : After s cells f t)
    (ht : BuildM.targetBlock i target t = .ok b t') : s.graph.blockAtTarget? target = some b ∧ t = t' := by
  unfold BuildM.targetBlock at ht
  simp only [Pass.bind_eq_ok, Pass.get_eq_ok, Pass.lift_eq_ok, Graph.targetBlock_eq_ok] at ht
  obtain ⟨_, _, ⟨rfl, rfl⟩, ht, rfl⟩ := ht
  refine ⟨?_, rfl⟩
  rw [← ht, h.graph_eq]
  exact (Graph.blockAtTarget?_congr (Graph.emitted_starts _ _ _) target).symm

end After

/-! ## Actions -/

/-- The cells of the address of an element, from a number on: the base comes second and the offset fourth. -/
def elementCells (opcode : Opcode) (array index n : NodeId) : List Cell :=
  [(.int, .intConst arrayHeaderSize), (.reference, .arith .add opcode array n), (.int, .intConst arrayElementSize),
    (.int, .arith .mul opcode index (n + 2))]

/-- What an action of an instruction emits, from a number on, and how it changes the frame. -/
inductive Translates (c : Context) (at? : Int → Option BlockId) (i : Instruction) (n : NodeId) :
    Action → Frame → List Cell → Frame → Prop where
  | nop {f : Frame} : Translates c at? i n .nop f [] f
  | pushNull {f : Frame} : Translates c at? i n .pushNull f [(.reference, .nullConst)] (push f n)
  | pushInt {f : Frame} {value : Int} : Translates c at? i n (.pushInt value) f [(.int, .intConst value)] (push f n)
  | pushIntLiteral {f : Frame} {index : Nat} {value : Int} : c.pool.entry index = .ok (.int value) →
    Translates c at? i n (.pushConstant index) f [(.int, .intConst value)] (push f n)
  | pushStringLiteral {f : Frame} {index : Nat} {value : String} : c.pool.entry index = .ok (.string value) →
    Translates c at? i n (.pushConstant index) f [(.reference, .stringConst value)] (push f n)
  | load {f : Frame} {slot : Nat} {id : NodeId} : f.locals[slot]? = some id →
    Translates c at? i n (.load slot) f [] (push f id)
  | store {ls : Array NodeId} {st : List NodeId} {slot : Nat} {id : NodeId} : slot < ls.size →
    Translates c at? i n (.store slot) ⟨ls, id :: st⟩ [] ⟨ls.setIfInBounds slot id, st⟩
  | arrayLoadInt {ls : Array NodeId} {st : List NodeId} {array index : NodeId} :
    Translates c at? i n .arrayLoadInt ⟨ls, index :: array :: st⟩
      (elementCells i.opcode array index n ++ [(.int, .arrayLoad (n + 1) (n + 3))]) ⟨ls, (n + 4) :: st⟩
  | arrayLoadReference {ls : Array NodeId} {st : List NodeId} {array index : NodeId} :
    Translates c at? i n .arrayLoadReference ⟨ls, index :: array :: st⟩
      (elementCells i.opcode array index n ++ [(.reference, .arrayLoad (n + 1) (n + 3))]) ⟨ls, (n + 4) :: st⟩
  | arrayStore {ls : Array NodeId} {st : List NodeId} {array index value : NodeId} :
    Translates c at? i n .arrayStore ⟨ls, value :: index :: array :: st⟩
      (elementCells i.opcode array index n ++ [(.void, .arrayStore (n + 1) (n + 3) value)]) ⟨ls, st⟩
  | pop {ls : Array NodeId} {st : List NodeId} {top : NodeId} :
    Translates c at? i n .pop ⟨ls, top :: st⟩ [] ⟨ls, st⟩
  | dup {ls : Array NodeId} {st : List NodeId} {top : NodeId} :
    Translates c at? i n .dup ⟨ls, top :: st⟩ [] ⟨ls, top :: top :: st⟩
  | swap {ls : Array NodeId} {st : List NodeId} {top below : NodeId} :
    Translates c at? i n .swap ⟨ls, top :: below :: st⟩ [] ⟨ls, below :: top :: st⟩
  | arith {ls : Array NodeId} {st : List NodeId} {op : ArithOp} {lhs rhs : NodeId} :
    Translates c at? i n (.arith op) ⟨ls, rhs :: lhs :: st⟩ [(.int, .arith op i.effectiveOpcode lhs rhs)]
      ⟨ls, n :: st⟩
  | negate {ls : Array NodeId} {st : List NodeId} {value : NodeId} :
    Translates c at? i n .negate ⟨ls, value :: st⟩ [(.int, .negate value)] ⟨ls, n :: st⟩
  | increment {ls : Array NodeId} {st : List NodeId} {slot : Nat} {amount : Int} {lhs : NodeId} :
    ls[slot]? = some lhs →
    Translates c at? i n (.increment slot amount) ⟨ls, st⟩
      [(.int, .intConst amount), (.int, .arith .add i.effectiveOpcode lhs n)] ⟨ls.setIfInBounds slot (n + 1), st⟩
  | branchZero {ls : Array NodeId} {st : List NodeId} {condition : Condition} {lhs : NodeId} {target : Int}
      {rest : List Int} {taken fallthrough : BlockId} :
    i.jumpTargets = target :: rest → at? target = some taken → at? i.next = some fallthrough →
    Translates c at? i n (.branchZero condition) ⟨ls, lhs :: st⟩
      [(.int, .intConst 0), (.void, .branch condition lhs n taken fallthrough)] ⟨ls, st⟩
  | branchPair {ls : Array NodeId} {st : List NodeId} {condition : Condition} {lhs rhs : NodeId} {target : Int}
      {rest : List Int} {taken fallthrough : BlockId} :
    i.jumpTargets = target :: rest → at? target = some taken → at? i.next = some fallthrough →
    Translates c at? i n (.branchPair condition) ⟨ls, rhs :: lhs :: st⟩
      [(.void, .branch condition lhs rhs taken fallthrough)] ⟨ls, st⟩
  | branchNull {ls : Array NodeId} {st : List NodeId} {condition : Condition} {lhs : NodeId} {target : Int}
      {rest : List Int} {taken fallthrough : BlockId} :
    i.jumpTargets = target :: rest → at? target = some taken → at? i.next = some fallthrough →
    Translates c at? i n (.branchNull condition) ⟨ls, lhs :: st⟩
      [(.reference, .nullConst), (.void, .branch condition lhs n taken fallthrough)] ⟨ls, st⟩
  | jump {f : Frame} {target : Int} {rest : List Int} {b : BlockId} :
    i.jumpTargets = target :: rest → at? target = some b → Translates c at? i n .jump f [(.void, .goto b)] f
  | switch {ls : Array NodeId} {st : List NodeId} {value : NodeId} {table : SwitchTable} {default : BlockId}
      {cases : List (Int × BlockId)} :
    i.switchTable? = some table → at? (i.address + table.default) = some default →
    List.Forall₂ (fun source case => source.1 = case.1 ∧ at? (i.address + source.2) = some case.2) table.cases cases →
    Translates c at? i n .switch ⟨ls, value :: st⟩ [(.void, .switch value default cases)] ⟨ls, st⟩
  | returnValue {ls : Array NodeId} {st : List NodeId} {value : NodeId} :
    Translates c at? i n .returnValue ⟨ls, value :: st⟩ [(.void, .ret (some value))] ⟨ls, st⟩
  | returnVoid {f : Frame} : Translates c at? i n .returnVoid f [(.void, .ret none)] f
  | raise {ls : Array NodeId} {st : List NodeId} {value : NodeId} :
    Translates c at? i n .raise ⟨ls, value :: st⟩ [(.void, .raise value)] ⟨ls, st⟩
  | getStatic {f : Frame} {index : Nat} {field : Member} {type : ValueType} :
    c.pool.field index = .ok field → ValueType.ofDescriptor field.descriptor = .ok type →
    Translates c at? i n (.getStatic index) f [(type.onStack, .getStatic field)] (push f n)
  | putStatic {ls : Array NodeId} {st : List NodeId} {index : Nat} {field : Member} {value : NodeId} :
    c.pool.field index = .ok field →
    Translates c at? i n (.putStatic index) ⟨ls, value :: st⟩ [(.void, .putStatic field value)] ⟨ls, st⟩
  | call {ls : Array NodeId} {st : List NodeId} {kind : CallKind} {index count : Nat} {method : Member}
      {type : MethodType} :
    c.pool.method index = .ok method → MethodType.ofDescriptor method.descriptor = .ok type →
    count = type.arity + (if kind = .special then 1 else 0) → count ≤ st.length →
    Translates c at? i n (.call kind index) ⟨ls, st⟩
      [(type.result.onStack, .call kind method (st.take count).reverse)]
      ⟨ls, if type.returnsValue then n :: st.drop count else st.drop count⟩

section Perform

variable {c : Context} {i : Instruction} {s t t' : BuildState} {cells : List Cell}

theorem jumpTarget_eq_ok {target : Int} (h : BuildM.jumpTarget i t = .ok target t') :
    (∃ rest, i.jumpTargets = target :: rest) ∧ t = t' := by
  unfold BuildM.jumpTarget at h
  generalize i.jumpTargets = targets at h ⊢
  cases targets with
  | nil => exact (Pass.throw_eq_ok.1 h).elim
  | cons first rest =>
    obtain ⟨rfl, rfl⟩ := Pass.pure_eq_ok.1 h
    exact ⟨⟨rest, rfl⟩, rfl⟩

theorem After.branch {f : Frame} {condition : Condition} {lhs rhs : NodeId} (hs : After s cells f t)
    (h : BuildM.branch i condition lhs rhs t = .ok () t') :
    ∃ target rest taken fallthrough, i.jumpTargets = target :: rest ∧ s.graph.blockAtTarget? target = some taken ∧
      s.graph.blockAtTarget? i.next = some fallthrough ∧
      After s (cells ++ [(.void, .branch condition lhs rhs taken fallthrough)]) f t' := by
  obtain ⟨target, _, htarget, h⟩ := Pass.bind_eq_ok.1 h
  obtain ⟨⟨rest, hrest⟩, rfl⟩ := jumpTarget_eq_ok htarget
  obtain ⟨taken, _, h₁, h⟩ := Pass.bind_eq_ok.1 h
  obtain ⟨htaken, rfl⟩ := hs.targetBlock h₁
  obtain ⟨fallthrough, _, h₂, h⟩ := Pass.bind_eq_ok.1 h
  obtain ⟨hfall, rfl⟩ := hs.targetBlock h₂
  obtain ⟨id, h⟩ := Pass.discard_eq_ok.1 h
  exact ⟨target, rest, taken, fallthrough, hrest, htaken, hfall, (hs.emit h).2⟩

theorem After.switchCases {f : Frame} {table : List (Int × Int)} {cases : List (Int × BlockId)} (hs : After s cells f t)
    (h : (table.mapM fun (key, offset) => do
      return (key, ← BuildM.targetBlock i (i.address + offset)) : BuildM (List (Int × BlockId))) t = .ok cases t') :
    List.Forall₂ (fun source case => source.1 = case.1 ∧
      s.graph.blockAtTarget? (i.address + source.2) = some case.2) table cases ∧ t = t' := by
  induction table generalizing cases with
  | nil =>
    obtain ⟨rfl, rfl⟩ := Pass.mapM_nil_eq_ok.1 h
    exact ⟨.nil, rfl⟩
  | cons source table ih =>
    obtain ⟨case, t₁, rest, hone, hrest, rfl⟩ := Pass.mapM_cons_eq_ok.1 h
    obtain ⟨b, t₂, hb, hone⟩ := Pass.bind_eq_ok.1 hone
    obtain ⟨htarget, rfl⟩ := hs.targetBlock hb
    obtain ⟨rfl, rfl⟩ := Pass.pure_eq_ok.1 hone
    obtain ⟨hcases, rfl⟩ := ih hrest
    exact ⟨.cons ⟨rfl, htarget⟩ hcases, rfl⟩

theorem After.elementAddress {f : Frame} {opcode : Opcode} {array index base offset : NodeId} (hs : After s cells f t)
    (h : BuildM.elementAddress opcode array index t = .ok (base, offset) t') :
    base = s.graph.nodes.size + cells.length + 1 ∧ offset = s.graph.nodes.size + cells.length + 3 ∧
      After s (cells ++ elementCells opcode array index (s.graph.nodes.size + cells.length)) f t' := by
  obtain ⟨header, _, h₁, h⟩ := Pass.bind_eq_ok.1 h
  obtain ⟨rfl, hs⟩ := hs.emit h₁
  obtain ⟨_, _, h₂, h⟩ := Pass.bind_eq_ok.1 h
  obtain ⟨rfl, hs⟩ := hs.emit h₂
  obtain ⟨scale, _, h₃, h⟩ := Pass.bind_eq_ok.1 h
  obtain ⟨rfl, hs⟩ := hs.emit h₃
  obtain ⟨_, _, h₄, h⟩ := Pass.bind_eq_ok.1 h
  obtain ⟨rfl, hs⟩ := hs.emit h₄
  obtain ⟨hpair, rfl⟩ := Pass.pure_eq_ok.1 h
  obtain ⟨rfl, rfl⟩ := Prod.mk.inj hpair
  simp only [List.append_assoc, List.length_append, List.length_singleton, List.cons_append, List.nil_append] at hs ⊢
  refine ⟨rfl, rfl, ?_⟩
  simpa [elementCells, Nat.add_assoc] using hs

theorem After.pushConstant {f : Frame} {index : Nat} (hs : After s cells f t)
    (h : BuildM.pushConstant c index t = .ok () t') :
    ∃ ns f', Translates c s.graph.blockAtTarget? i (s.graph.nodes.size + cells.length) (.pushConstant index) f ns f' ∧
      After s (cells ++ ns) f' t' := by
  obtain ⟨entry, _, hlift, h⟩ := Pass.bind_eq_ok.1 h
  obtain ⟨hentry, rfl⟩ := Pass.lift_eq_ok.1 hlift
  cases entry with
  | int value => exact ⟨_, _, .pushIntLiteral hentry, hs.emitPush h⟩
  | string value => exact ⟨_, _, .pushStringLiteral hentry, hs.emitPush h⟩
  | _ => exact (Pass.throw_eq_ok.1 h).elim

theorem After.call {f : Frame} {kind : CallKind} {index : Nat} (hs : After s cells f t)
    (h : BuildM.call c i kind index t = .ok () t') :
    ∃ ns f', Translates c s.graph.blockAtTarget? i (s.graph.nodes.size + cells.length) (.call kind index) f ns f' ∧
      After s (cells ++ ns) f' t' := by
  obtain ⟨ls, st⟩ := f
  obtain ⟨method, _, hlift, h⟩ := Pass.bind_eq_ok.1 h
  obtain ⟨hmethod, rfl⟩ := Pass.lift_eq_ok.1 hlift
  obtain ⟨type, _, hlift, h⟩ := Pass.bind_eq_ok.1 h
  obtain ⟨htype, rfl⟩ := Pass.lift_eq_ok.1 hlift
  obtain ⟨_, _, hget, h⟩ := Pass.bind_eq_ok.1 h
  obtain ⟨rfl, rfl⟩ := Pass.get_eq_ok.1 hget
  rw [hs.frame_eq] at h
  dsimp only at h
  generalize hcount : type.arity + (if kind = .special then 1 else 0) = count at h
  split at h
  · obtain ⟨_, _, hthrow, -⟩ := Pass.bind_eq_ok.1 h
    exact (Pass.throw_eq_ok.1 hthrow).elim
  · next hlen =>
    obtain ⟨_, t₁, hmod, h⟩ := Pass.bind_eq_ok.1 h
    obtain rfl := Pass.modify_eq_ok.1 hmod
    have hs₁ : After s cells ⟨ls, st.drop count⟩ { t with frame := { t.frame with stack := st.drop count } } :=
      ⟨hs.graph_eq, by rw [hs.frame_eq], hs.block_eq, hs.built_eq, hs.entryDepth_eq⟩
    obtain ⟨id, t₂, hemit, h⟩ := Pass.bind_eq_ok.1 h
    obtain ⟨rfl, hs₂⟩ := hs₁.emit hemit
    refine ⟨_, _, .call hmethod htype hcount.symm (Nat.le_of_not_lt hlen), ?_⟩
    split at h
    · next hvalue =>
      simp only [hvalue, if_true]
      exact hs₂.push h
    · next hvalue =>
      obtain ⟨-, rfl⟩ := Pass.pure_eq_ok.1 h
      simpa [hvalue] using hs₂

/-- The pass performs an action by emitting its translation. -/
theorem perform_ok {f : Frame} {action : Action} (hs : After s cells f t)
    (h : BuildM.perform c i action t = .ok () t') :
    ∃ ns f', Translates c s.graph.blockAtTarget? i (s.graph.nodes.size + cells.length) action f ns f' ∧
      After s (cells ++ ns) f' t' := by
  obtain ⟨ls, st⟩ := f
  cases action with
  | nop =>
    obtain ⟨-, rfl⟩ := Pass.pure_eq_ok.1 h
    exact ⟨[], _, .nop, by simpa using hs⟩
  | pushNull => exact ⟨_, _, .pushNull, hs.emitPush h⟩
  | pushInt value => exact ⟨_, _, .pushInt, hs.emitPush h⟩
  | pushConstant index => exact hs.pushConstant h
  | load slot =>
    obtain ⟨id, _, h₁, h⟩ := Pass.bind_eq_ok.1 h
    obtain ⟨hslot, rfl⟩ := hs.readLocal h₁
    exact ⟨[], _, .load hslot, by simpa using hs.push h⟩
  | store slot =>
    obtain ⟨id, _, h₁, h⟩ := Pass.bind_eq_ok.1 h
    obtain ⟨st, rfl, hs₁⟩ := hs.pop h₁
    obtain ⟨hslot, hs₂⟩ := hs₁.writeLocal h
    exact ⟨[], _, .store hslot, by simpa using hs₂⟩
  | arrayLoadInt =>
    obtain ⟨index, _, h₁, h⟩ := Pass.bind_eq_ok.1 h
    obtain ⟨st, rfl, hs₁⟩ := hs.pop h₁
    obtain ⟨array, _, h₂, h⟩ := Pass.bind_eq_ok.1 h
    obtain ⟨st, rfl, hs₂⟩ := hs₁.pop h₂
    obtain ⟨⟨base, offset⟩, _, h₃, h⟩ := Pass.bind_eq_ok.1 h
    obtain ⟨rfl, rfl, hs₃⟩ := hs₂.elementAddress h₃
    refine ⟨_, _, .arrayLoadInt, ?_⟩
    simpa [push, elementCells, Nat.add_assoc] using hs₃.emitPush h
  | arrayLoadReference =>
    obtain ⟨index, _, h₁, h⟩ := Pass.bind_eq_ok.1 h
    obtain ⟨st, rfl, hs₁⟩ := hs.pop h₁
    obtain ⟨array, _, h₂, h⟩ := Pass.bind_eq_ok.1 h
    obtain ⟨st, rfl, hs₂⟩ := hs₁.pop h₂
    obtain ⟨⟨base, offset⟩, _, h₃, h⟩ := Pass.bind_eq_ok.1 h
    obtain ⟨rfl, rfl, hs₃⟩ := hs₂.elementAddress h₃
    refine ⟨_, _, .arrayLoadReference, ?_⟩
    simpa [push, elementCells, Nat.add_assoc] using hs₃.emitPush h
  | arrayStore =>
    obtain ⟨value, _, h₀, h⟩ := Pass.bind_eq_ok.1 h
    obtain ⟨st, rfl, hs₁⟩ := hs.pop h₀
    obtain ⟨index, _, h₁, h⟩ := Pass.bind_eq_ok.1 h
    obtain ⟨st, rfl, hs₂⟩ := hs₁.pop h₁
    obtain ⟨array, _, h₂, h⟩ := Pass.bind_eq_ok.1 h
    obtain ⟨st, rfl, hs₃⟩ := hs₂.pop h₂
    obtain ⟨⟨base, offset⟩, _, h₃, h⟩ := Pass.bind_eq_ok.1 h
    obtain ⟨rfl, rfl, hs₄⟩ := hs₃.elementAddress h₃
    obtain ⟨id, h⟩ := Pass.discard_eq_ok.1 h
    refine ⟨_, _, .arrayStore, ?_⟩
    simpa using (hs₄.emit h).2
  | pop =>
    obtain ⟨id, h⟩ := Pass.discard_eq_ok.1 h
    obtain ⟨st, rfl, hs₁⟩ := hs.pop h
    exact ⟨[], _, .pop, by simpa using hs₁⟩
  | dup =>
    obtain ⟨top, _, h₁, h⟩ := Pass.bind_eq_ok.1 h
    obtain ⟨st, rfl, hs₁⟩ := hs.pop h₁
    obtain ⟨_, _, h₂, h⟩ := Pass.bind_eq_ok.1 h
    exact ⟨[], _, .dup, by simpa [push] using (hs₁.push h₂).push h⟩
  | swap =>
    obtain ⟨top, _, h₁, h⟩ := Pass.bind_eq_ok.1 h
    obtain ⟨st, rfl, hs₁⟩ := hs.pop h₁
    obtain ⟨below, _, h₂, h⟩ := Pass.bind_eq_ok.1 h
    obtain ⟨st, rfl, hs₂⟩ := hs₁.pop h₂
    obtain ⟨_, _, h₃, h⟩ := Pass.bind_eq_ok.1 h
    exact ⟨[], _, .swap, by simpa [push] using (hs₂.push h₃).push h⟩
  | arith op =>
    obtain ⟨rhs, _, h₁, h⟩ := Pass.bind_eq_ok.1 h
    obtain ⟨st, rfl, hs₁⟩ := hs.pop h₁
    obtain ⟨lhs, _, h₂, h⟩ := Pass.bind_eq_ok.1 h
    obtain ⟨st, rfl, hs₂⟩ := hs₁.pop h₂
    exact ⟨_, _, .arith, hs₂.emitPush h⟩
  | negate =>
    obtain ⟨value, _, h₁, h⟩ := Pass.bind_eq_ok.1 h
    obtain ⟨st, rfl, hs₁⟩ := hs.pop h₁
    exact ⟨_, _, .negate, hs₁.emitPush h⟩
  | increment slot amount =>
    obtain ⟨lhs, _, h₁, h⟩ := Pass.bind_eq_ok.1 h
    obtain ⟨hslot, rfl⟩ := hs.readLocal h₁
    obtain ⟨rhs, _, h₂, h⟩ := Pass.bind_eq_ok.1 h
    obtain ⟨rfl, hs₁⟩ := hs.emit h₂
    obtain ⟨sum, _, h₃, h⟩ := Pass.bind_eq_ok.1 h
    obtain ⟨rfl, hs₂⟩ := hs₁.emit h₃
    obtain ⟨-, hs₃⟩ := hs₂.writeLocal h
    refine ⟨_, _, .increment hslot, ?_⟩
    simpa [Nat.add_assoc] using hs₃
  | branchZero condition =>
    obtain ⟨lhs, _, h₁, h⟩ := Pass.bind_eq_ok.1 h
    obtain ⟨st, rfl, hs₁⟩ := hs.pop h₁
    obtain ⟨rhs, _, h₂, h⟩ := Pass.bind_eq_ok.1 h
    obtain ⟨rfl, hs₂⟩ := hs₁.emit h₂
    obtain ⟨target, rest, taken, fallthrough, htargets, htaken, hfall, hs₃⟩ := hs₂.branch h
    exact ⟨_, _, .branchZero htargets htaken hfall, by simpa using hs₃⟩
  | branchPair condition =>
    obtain ⟨rhs, _, h₁, h⟩ := Pass.bind_eq_ok.1 h
    obtain ⟨st, rfl, hs₁⟩ := hs.pop h₁
    obtain ⟨lhs, _, h₂, h⟩ := Pass.bind_eq_ok.1 h
    obtain ⟨st, rfl, hs₂⟩ := hs₁.pop h₂
    obtain ⟨target, rest, taken, fallthrough, htargets, htaken, hfall, hs₃⟩ := hs₂.branch h
    exact ⟨_, _, .branchPair htargets htaken hfall, hs₃⟩
  | branchNull condition =>
    obtain ⟨lhs, _, h₁, h⟩ := Pass.bind_eq_ok.1 h
    obtain ⟨st, rfl, hs₁⟩ := hs.pop h₁
    obtain ⟨rhs, _, h₂, h⟩ := Pass.bind_eq_ok.1 h
    obtain ⟨rfl, hs₂⟩ := hs₁.emit h₂
    obtain ⟨target, rest, taken, fallthrough, htargets, htaken, hfall, hs₃⟩ := hs₂.branch h
    exact ⟨_, _, .branchNull htargets htaken hfall, by simpa using hs₃⟩
  | jump =>
    obtain ⟨target, _, h₁, h⟩ := Pass.bind_eq_ok.1 h
    obtain ⟨⟨rest, hrest⟩, rfl⟩ := jumpTarget_eq_ok h₁
    obtain ⟨b, _, h₂, h⟩ := Pass.bind_eq_ok.1 h
    obtain ⟨hb, rfl⟩ := hs.targetBlock h₂
    obtain ⟨id, h⟩ := Pass.discard_eq_ok.1 h
    exact ⟨_, _, .jump hrest hb, (hs.emit h).2⟩
  | switch =>
    obtain ⟨value, _, h₁, h⟩ := Pass.bind_eq_ok.1 h
    obtain ⟨st, rfl, hs₁⟩ := hs.pop h₁
    cases htable : i.switchTable? with
    | none =>
      simp only [htable] at h
      exact (Pass.throw_eq_ok.1 h).elim
    | some table =>
      simp only [htable] at h
      obtain ⟨default, _, h₂, h⟩ := Pass.bind_eq_ok.1 h
      obtain ⟨hdefault, rfl⟩ := hs₁.targetBlock h₂
      obtain ⟨cases, _, h₃, h⟩ := Pass.bind_eq_ok.1 h
      obtain ⟨hcases, rfl⟩ := hs₁.switchCases h₃
      obtain ⟨id, h⟩ := Pass.discard_eq_ok.1 h
      exact ⟨_, _, .switch htable hdefault hcases, (hs₁.emit h).2⟩
  | returnValue =>
    obtain ⟨value, _, h₁, h⟩ := Pass.bind_eq_ok.1 h
    obtain ⟨st, rfl, hs₁⟩ := hs.pop h₁
    obtain ⟨id, h⟩ := Pass.discard_eq_ok.1 h
    exact ⟨_, _, .returnValue, (hs₁.emit h).2⟩
  | returnVoid =>
    obtain ⟨id, h⟩ := Pass.discard_eq_ok.1 h
    exact ⟨_, _, .returnVoid, (hs.emit h).2⟩
  | raise =>
    obtain ⟨value, _, h₁, h⟩ := Pass.bind_eq_ok.1 h
    obtain ⟨st, rfl, hs₁⟩ := hs.pop h₁
    obtain ⟨id, h⟩ := Pass.discard_eq_ok.1 h
    exact ⟨_, _, .raise, (hs₁.emit h).2⟩
  | getStatic index =>
    obtain ⟨field, _, h₁, h⟩ := Pass.bind_eq_ok.1 h
    obtain ⟨hfield, rfl⟩ := Pass.lift_eq_ok.1 h₁
    obtain ⟨type, _, h₂, h⟩ := Pass.bind_eq_ok.1 h
    obtain ⟨htype, rfl⟩ := Pass.lift_eq_ok.1 h₂
    exact ⟨_, _, .getStatic hfield htype, hs.emitPush h⟩
  | putStatic index =>
    obtain ⟨field, _, h₁, h⟩ := Pass.bind_eq_ok.1 h
    obtain ⟨hfield, rfl⟩ := Pass.lift_eq_ok.1 h₁
    obtain ⟨value, _, h₂, h⟩ := Pass.bind_eq_ok.1 h
    obtain ⟨st, rfl, hs₁⟩ := hs.pop h₂
    obtain ⟨id, h⟩ := Pass.discard_eq_ok.1 h
    exact ⟨_, _, .putStatic hfield, (hs₁.emit h).2⟩
  | call kind index => exact hs.call h

/-- What a sequence of instructions emits, from a number on, and how it changes the frame. -/
inductive TranslatesAll (c : Context) (at? : Int → Option BlockId) :
    NodeId → List Instruction → Frame → List Cell → Frame → Prop where
  | nil {n : NodeId} {f : Frame} : TranslatesAll c at? n [] f [] f
  | cons {n : NodeId} {i : Instruction} {is : List Instruction} {action : Action} {f f' f'' : Frame}
      {ns ns' : List Cell} : i.action? = some action → Translates c at? i n action f ns f' →
    TranslatesAll c at? (n + ns.length) is f' ns' f'' → TranslatesAll c at? n (i :: is) f (ns ++ ns') f''

theorem instructions_ok {f : Frame} {is : List Instruction} (hs : After s cells f t)
    (h : is.forM (BuildM.instruction c) t = .ok () t') :
    ∃ ns f', TranslatesAll c s.graph.blockAtTarget? (s.graph.nodes.size + cells.length) is f ns f' ∧
      After s (cells ++ ns) f' t' := by
  induction is generalizing cells f t with
  | nil =>
    obtain rfl := Pass.forM_nil_eq_ok.1 h
    exact ⟨[], f, .nil, by simpa using hs⟩
  | cons i is ih =>
    obtain ⟨t₁, hone, hrest⟩ := Pass.forM_cons_eq_ok.1 h
    unfold BuildM.instruction at hone
    cases haction : i.action? with
    | none =>
      simp only [haction] at hone
      exact (Pass.throw_eq_ok.1 hone).elim
    | some action =>
      simp only [haction] at hone
      obtain ⟨ns, f₁, htrans, hs₁⟩ := perform_ok hs hone
      obtain ⟨ns', f', hall, hs'⟩ := ih hs₁ hrest
      refine ⟨ns ++ ns', f', .cons haction htrans ?_, by simpa using hs'⟩
      simpa [Nat.add_assoc] using hall

end Perform

end Ssa

end Destack
