import Destack.Proofs.Steps
import Destack.Proofs.Ssa.Form

/-!
# What building adds

While a block is built, nodes are appended to it and counted, and nothing else happens to the graph and the
statistics, up to a failure as well (`Grows`). The merges among them have an argument for each predecessor of the block.
A list of blocks is built in this way one block after the other (`Builds`).
-/

namespace Destack

namespace Statistics

/-- Counts a node, and a merge also as such. -/
def addOp (s : Statistics) (op : Ssa.Op) : Statistics :=
  (if op.isMerge then s.addMergeCreated else s).addNode op.kind

/-- Counts nodes one after the other. -/
def addOps (s : Statistics) (ops : List Ssa.Op) : Statistics :=
  ops.foldl addOp s

theorem addOps_append (s : Statistics) (ops ops' : List Ssa.Op) :
    s.addOps (ops ++ ops') = (s.addOps ops).addOps ops' :=
  List.foldl_append

end Statistics

namespace Ssa

open Pass (Leads)

/-- A state later in the construction of a block whose merges have a number of arguments. -/
def Grows (arity : Nat) (s t : BuildState) : Prop :=
  ∃ cells : List Cell, t.graph = s.graph.emitted s.block cells ∧ t.stats = s.stats.addOps (cells.map (·.2)) ∧
    t.block = s.block ∧ ∀ cell ∈ cells, ∀ slot args, cell.2 = .merge slot args → args.length = arity

variable {arity : Nat} {s t : BuildState} {c : Context} {i : Instruction} {frameSize : Nat} {b : BlockId}

namespace Grows

theorem refl (arity : Nat) (s : BuildState) : Grows arity s s :=
  ⟨[], rfl, rfl, rfl, by simp⟩

theorem trans {u : BuildState} (h : Grows arity s t) (h' : Grows arity t u) : Grows arity s u := by
  obtain ⟨cells, hgraph, hstats, hblock, harity⟩ := h
  obtain ⟨cells', hgraph', hstats', hblock', harity'⟩ := h'
  refine ⟨cells ++ cells', ?_, ?_, hblock'.trans hblock, ?_⟩
  · rw [hgraph', hgraph, hblock, Graph.emitted_append]
  · rw [hstats', hstats, List.map_append, Statistics.addOps_append]
  · intro cell hcell
    rcases List.mem_append.1 hcell with hcell | hcell
    · exact harity cell hcell
    · exact harity' cell hcell

instance : Std.Refl (Grows arity) :=
  ⟨refl arity⟩

instance : IsTrans BuildState (Grows arity) :=
  ⟨fun _ _ _ => trans⟩

/-- Frames and depths may change on the way. -/
theorem of_eq (hgraph : t.graph = s.graph) (hstats : t.stats = s.stats) (hblock : t.block = s.block) :
    Grows arity s t :=
  ⟨[], hgraph, hstats, hblock, by simp⟩

end Grows

/-! ## Nodes and the operand stack -/

theorem Grows.withCell (s : BuildState) (type : ValueType) {op : Op}
    (harity : ∀ slot args, op = .merge slot args → args.length = arity) :
    Grows arity s { s with graph := s.graph.withCell s.block (type, op), stats := s.stats.addOp op } := by
  refine ⟨[(type, op)], rfl, rfl, rfl, fun cell hcell slot args hop => harity slot args ?_⟩
  rw [← hop, List.mem_singleton.1 hcell]

/-- A node goes to the block under construction, if that is there. -/
theorem emitWith_cases (type : ValueType) (make : NodeId → Op) (s : BuildState) :
    (∃ e, BuildM.emitWith type make s = .error e s) ∨ s.graph.hasBlock s.block = true := by
  cases hb : s.graph.hasBlock s.block with
  | true => exact Or.inr rfl
  | false =>
    have hnode : s.graph.addNodeWith s.block type make = .error (.absent (.block s.block)) := by
      have hnone : Graph.hasBlock
          { s.graph with nodes := s.graph.nodes.push ⟨s.block, type, make s.graph.nodes.size⟩ } s.block = false := hb
      dsimp only [Graph.addNodeWith, Graph.editBlock, bind, Except.bind]
      rw [hnone]
      rfl
    refine Or.inl ⟨.absent (.block s.block), ?_⟩
    unfold BuildM.emitWith
    rw [Pass.run_bind, Pass.run_get]
    dsimp only
    rw [hnode]
    rfl

theorem leads_emit (type : ValueType) {op : Op} (h : op.isMerge = false) :
    Leads (Grows arity) (BuildM.emit type op) := by
  have harity : ∀ slot args, op = .merge slot args → args.length = arity := by
    rintro slot args rfl
    cases h
  refine Leads.of_cases fun s => ?_
  rcases emitWith_cases type (fun _ => op) s with hfail | hb
  · exact Or.inl hfail
  · refine Or.inr ⟨_, _, After.emitWith_eq_ok.2 ⟨hb, rfl, rfl⟩, ?_⟩
    have hgrows := Grows.withCell s type harity
    rwa [Statistics.addOp, h, if_neg Bool.false_ne_true] at hgrows

theorem leads_push (id : NodeId) : Leads (Grows arity) (BuildM.push id) :=
  Leads.modify fun _ => .of_eq rfl rfl rfl

theorem leads_emitPush (type : ValueType) {op : Op} (h : op.isMerge = false) :
    Leads (Grows arity) (BuildM.emitPush type op) :=
  (leads_emit type h).bind leads_push

theorem leads_pop (i : Instruction) : Leads (Grows arity) (BuildM.pop i) := by
  refine Leads.get_bind fun s => ?_
  cases s.frame.stack with
  | nil => exact Leads.throw _
  | cons id rest => exact Leads.bind (Leads.modify fun _ => .of_eq rfl rfl rfl) fun _ => Leads.pure id

theorem leads_readLocal (i : Instruction) (slot : Nat) : Leads (Grows arity) (BuildM.readLocal i slot) := by
  refine Leads.get_bind fun s => ?_
  cases s.frame.locals[slot]? with
  | none => exact Leads.throw _
  | some id => exact Leads.pure id

theorem leads_writeLocal (i : Instruction) (slot : Nat) (id : NodeId) :
    Leads (Grows arity) (BuildM.writeLocal i slot id) := by
  refine Leads.get_bind fun s => ?_
  split
  · exact Leads.modify fun _ => .of_eq rfl rfl rfl
  · exact Leads.throw _

theorem leads_targetBlock (i : Instruction) (target : Int) : Leads (Grows arity) (BuildM.targetBlock i target) :=
  Leads.get_bind fun _ => Leads.lift _

/-! ## Instructions -/

theorem leads_jumpTarget (i : Instruction) : Leads (Grows arity) (BuildM.jumpTarget i) := by
  unfold BuildM.jumpTarget
  cases i.jumpTargets with
  | nil => exact Leads.throw _
  | cons target rest => exact Leads.pure target

theorem leads_branch (i : Instruction) (condition : Condition) (lhs rhs : NodeId) :
    Leads (Grows arity) (BuildM.branch i condition lhs rhs) := by
  refine (leads_jumpTarget i).bind fun target => (leads_targetBlock i target).bind fun taken => ?_
  exact (leads_targetBlock i i.next).bind fun _ => (leads_emit _ rfl).discard

theorem leads_switch (i : Instruction) : Leads (Grows arity) (BuildM.switch i) := by
  refine (leads_pop i).bind fun value => ?_
  split
  · exact Leads.throw _
  · next table _ =>
    refine (leads_targetBlock i _).bind fun default => Leads.bind (Leads.mapM _ fun entry _ => ?_) fun cases => ?_
    · exact (leads_targetBlock i _).bind fun _ => Leads.pure _
    · exact (leads_emit _ rfl).discard

theorem leads_pushConstant (c : Context) (index : Nat) : Leads (Grows arity) (BuildM.pushConstant c index) := by
  refine (Leads.lift _).bind fun entry => ?_
  cases entry with
  | int value => exact leads_emitPush _ rfl
  | string value => exact leads_emitPush _ rfl
  | className | field | method => exact Leads.throw _

theorem leads_elementAddress (opcode : Opcode) (array index : NodeId) :
    Leads (Grows arity) (BuildM.elementAddress opcode array index) := by
  refine (leads_emit _ rfl).bind fun header => (leads_emit _ rfl).bind fun base => ?_
  exact (leads_emit _ rfl).bind fun scale => (leads_emit _ rfl).bind fun offset => Leads.pure (base, offset)

theorem leads_arrayLoad (i : Instruction) (type : ValueType) : Leads (Grows arity) (BuildM.arrayLoad i type) := by
  refine (leads_pop i).bind fun index => (leads_pop i).bind fun array => ?_
  exact (leads_elementAddress _ array index).bind fun _ => leads_emitPush _ rfl

theorem leads_arrayStore (i : Instruction) : Leads (Grows arity) (BuildM.arrayStore i) := by
  refine (leads_pop i).bind fun value => (leads_pop i).bind fun index => (leads_pop i).bind fun array => ?_
  exact (leads_elementAddress _ array index).bind fun _ => (leads_emit _ rfl).discard

theorem leads_call (c : Context) (i : Instruction) (kind : CallKind) (index : Nat) :
    Leads (Grows arity) (BuildM.call c i kind index) := by
  refine (Leads.lift _).bind fun method => (Leads.lift _).bind fun type => Leads.get_bind fun s => ?_
  dsimp only
  generalize type.arity + (if kind = .special then 1 else 0) = count
  have hrest : Leads (Grows arity) (do
      modify fun s' => { s' with frame := { s'.frame with stack := s.frame.stack.drop count } }
      let id ← BuildM.emit type.result.onStack (.call kind method (s.frame.stack.take count).reverse)
      if type.returnsValue then BuildM.push id) := by
    refine Leads.bind (Leads.modify fun _ => .of_eq rfl rfl rfl) fun _ => (leads_emit _ rfl).bind fun id => ?_
    split
    · exact leads_push id
    · exact Leads.pure _
  split
  · exact (Leads.throw _).bind fun _ => hrest
  · exact hrest

theorem leads_perform (c : Context) (i : Instruction) (action : Action) :
    Leads (Grows arity) (BuildM.perform c i action) := by
  have hpop : Leads (Grows arity) (BuildM.pop i) := leads_pop i
  cases action with
  | nop => exact Leads.pure _
  | pushNull | pushInt => exact leads_emitPush _ rfl
  | pushConstant index => exact leads_pushConstant c index
  | load slot => exact (leads_readLocal i slot).bind leads_push
  | store slot => exact hpop.bind (leads_writeLocal i slot)
  | arrayLoadInt | arrayLoadReference => exact leads_arrayLoad i _
  | arrayStore => exact leads_arrayStore i
  | pop => exact hpop.discard
  | dup => exact hpop.bind fun top => (leads_push top).bind fun _ => leads_push top
  | swap => exact hpop.bind fun a => hpop.bind fun b => (leads_push a).bind fun _ => leads_push b
  | arith op => exact hpop.bind fun rhs => hpop.bind fun lhs => leads_emitPush _ rfl
  | negate => exact hpop.bind fun value => leads_emitPush _ rfl
  | increment slot amount =>
    refine (leads_readLocal i slot).bind fun lhs => (leads_emit _ rfl).bind fun rhs => ?_
    exact (leads_emit _ rfl).bind (leads_writeLocal i slot)
  | branchZero condition | branchNull condition =>
    exact hpop.bind fun lhs => (leads_emit _ rfl).bind fun rhs => leads_branch i condition lhs rhs
  | branchPair condition => exact hpop.bind fun rhs => hpop.bind fun lhs => leads_branch i condition lhs rhs
  | jump =>
    refine (leads_jumpTarget i).bind fun target => (leads_targetBlock i target).bind fun t => ?_
    exact (leads_emit _ rfl).discard
  | switch => exact leads_switch i
  | returnValue | raise => exact hpop.bind fun value => (leads_emit _ rfl).discard
  | returnVoid => exact (leads_emit _ rfl).discard
  | getStatic index =>
    exact (Leads.lift _).bind fun field => (Leads.lift _).bind fun type => leads_emitPush _ rfl
  | putStatic index => exact (Leads.lift _).bind fun field => hpop.bind fun value => (leads_emit _ rfl).discard
  | call kind index => exact leads_call c i kind index

theorem leads_instruction (c : Context) (i : Instruction) : Leads (Grows arity) (BuildM.instruction c i) := by
  unfold BuildM.instruction
  split
  · exact leads_perform c i _
  · exact Leads.throw _

/-! ## Frames at the start of a block -/

theorem leads_pushUndefined : Leads (Grows arity) BuildM.pushUndefined := by
  refine Leads.get_bind fun s => (leads_emit _ rfl).bind fun id => ?_
  exact Leads.modify fun _ => .of_eq rfl rfl rfl

theorem leads_pushParam (index : Nat) (type : ValueType) : Leads (Grows arity) (BuildM.pushParam index type) := by
  refine (leads_emit _ rfl).bind fun id => Leads.bind (Leads.modify fun _ => .of_eq rfl rfl rfl) fun _ => ?_
  split
  · exact leads_pushUndefined
  · exact Leads.pure _

theorem leads_pushUndefineds (n : Nat) : Leads (Grows arity) (BuildM.pushUndefineds n) := by
  induction n with
  | zero => exact Leads.pure _
  | succ n ih => exact leads_pushUndefined.bind fun _ => ih

theorem leads_enterEntry (c : Context) (frameSize : Nat) : Leads (Grows arity) (BuildM.enterEntry c frameSize) := by
  refine Leads.bind (Leads.forM _ fun formal _ => leads_pushParam formal.2 formal.1) fun _ => ?_
  exact Leads.get_bind fun s => leads_pushUndefineds _

/-- A merge has an argument for each node that may come in. -/
theorem leads_makeMerge (slot : Slot) {incoming : List (Option NodeId)} (h : incoming.length = arity) :
    Leads (Grows arity) (BuildM.makeMerge slot incoming) := by
  refine Leads.get_bind fun s => (Leads.lift _).bind fun type => Leads.bind_ok fun t => ?_
  let make (me : NodeId) : Op := .merge slot (incoming.map (·.getD me))
  rcases emitWith_cases type make t with hfail | hb
  · exact Or.inl hfail
  · refine Or.inr ⟨_, _, _, _, After.emitWith_eq_ok.2 ⟨hb, rfl, rfl⟩, rfl, ?_⟩
    have harity : ∀ slot' args, make t.graph.nodes.size = .merge slot' args → args.length = arity := by
      intro slot' args hop
      rw [← (Op.merge.inj hop).2, List.length_map, h]
    exact Grows.withCell t type harity

theorem leads_mergeSlot (isHead : Bool) {sources : List (Option Frame)} (h : sources.length = arity) (slot : Slot) :
    Leads (Grows arity) (BuildM.mergeSlot isHead sources slot) := by
  rw [mergeSlot_eq]
  split
  · exact Leads.pure _
  · exact leads_makeMerge slot (by rw [incoming, List.length_map, h])

/-! ## Blocks in steps -/

open Pass (Script)

/-- The frame where several blocks meet, slot by slot. -/
def joinScript (frameSize : Nat) (b : BlockId) (preds : List BlockId) : Script BuildState Unit :=
  .step (BuildM.blockAt b) fun block => .step get fun s => .step (Pass.lift (preds.mapM s.exitOf)) fun sources =>
    if !block.isHead && sources.any (·.isNone) then .single (throw (.layout (.joinBeforePredecessors b)))
    else
      match (sources.filterMap id).head? with
      | none => .single (throw (.layout (.headBeforePredecessors b)))
      | some first =>
        match (sources.filterMap id).find? (·.depth != first.depth) with
        | some other => .single (throw (.stackMismatch b first.depth other.depth))
        | none =>
          let fill (slots : List Slot) : Script BuildState (List NodeId) :=
            .collect (fun slot => .single (BuildM.mergeSlot block.isHead sources slot)) slots
          (fill ((List.range (low16 frameSize)).map .localVar)).andThen fun locals =>
            (fill ((List.range (low16 first.depth)).map .operand)).andThen fun stack =>
              .single (modify fun s => { s with frame := ⟨locals.toArray, stack.reverse⟩ })

theorem run_joinScript (frameSize : Nat) (b : BlockId) (preds : List BlockId) :
    (joinScript frameSize b preds).run = BuildM.enterJoin frameSize b preds := by
  unfold joinScript BuildM.enterJoin
  simp only [Script.run]
  refine bind_congr fun block => bind_congr fun s => bind_congr fun sources => ?_
  split
  · rfl
  · cases (sources.filterMap id).head? with
    | none => rfl
    | some first =>
      cases hfind : (sources.filterMap id).find? (·.depth != first.depth) with
      | some other => simp only [hfind, Script.run_single]
      | none =>
        simp only [hfind, Script.run_andThen, Script.run_collect, Script.run_single, List.mapM_map, Function.comp_def]

theorem leads_blockAt (b : BlockId) : Leads (Grows arity) (BuildM.blockAt b) :=
  Leads.get_bind fun _ => Leads.lift _

/-- The merges of a join have an argument for each predecessor. -/
theorem keeps_joinScript (frameSize : Nat) (b : BlockId) (preds : List BlockId) :
    (joinScript frameSize b preds).Keeps (Grows preds.length) := by
  refine .step (leads_blockAt b) fun block => .get_step fun s => .lift_step fun sources hsources => ?_
  have hlength : sources.length = preds.length := by
    rw [eq_map_of_mapM_eq_ok (fun p exit => exitOf_eq_ok) hsources, List.length_map]
  split
  · exact .single (Leads.throw _)
  · split
    · exact .single (Leads.throw _)
    · split
      · exact .single (Leads.throw _)
      · refine Script.Keeps.andThen (.collect _ fun slot _ => ?_) fun locals =>
          Script.Keeps.andThen (.collect _ fun slot _ => ?_) fun stack => ?_
        · exact .single (leads_mergeSlot _ hlength slot)
        · exact .single (leads_mergeSlot _ hlength slot)
        · exact .single (Leads.modify fun _ => .of_eq rfl rfl rfl)

/-- Goes on with the frame of the only predecessor. -/
def enterAfter (b p : BlockId) : BuildM Unit := do
  match ← Pass.lift ((← get).exitOf p) with
  | some exit => modify fun s => { s with frame := exit }
  | none => throw (.layout (.beforePredecessor b p))

/-- The frame at the start of a block that is under construction, given the state when it was started. -/
def enterScript (c : Context) (frameSize : Nat) (b : BlockId) (s : BuildState) : Script BuildState Unit :=
  if b = Graph.entry then .single (BuildM.enterEntry c frameSize)
  else
    .step (Pass.lift (s.graph.getBlock b)) fun block =>
      match block.preds with
      | [] => .single (throw (.layout (.noPredecessors b)))
      | [p] => .single (enterAfter b p)
      | preds => joinScript frameSize b preds

theorem run_enterScript (c : Context) (frameSize : Nat) (b : BlockId) :
    BuildM.enter c frameSize b = (do
      modify fun s => { s with block := b, frame := Frame.empty }
      let s ← get
      (enterScript c frameSize b s).run) := by
  unfold BuildM.enter enterScript
  refine congrArg (modify _ >>= ·) (funext fun _ => ?_)
  split
  · rw [Script.run_single]
    rfl
  · unfold BuildM.blockAt
    rw [bind_assoc]
    refine bind_congr fun s => bind_congr fun block => ?_
    dsimp only
    match block.preds with
    | [] => rfl
    | [p] =>
      rw [Script.run_single]
      rfl
    | p :: q :: preds => exact (run_joinScript frameSize b (p :: q :: preds)).symm

theorem keeps_enterScript (c : Context) (frameSize : Nat) (b : BlockId) (s : BuildState) :
    (enterScript c frameSize b s).Keeps (Grows (s.graph.preds b).length) := by
  unfold enterScript
  split
  · exact .single (leads_enterEntry c frameSize)
  · refine .lift_step fun block hget => ?_
    rw [Graph.preds_eq (Graph.getBlock_eq_ok.1 hget)]
    match block.preds with
    | [] => exact .single (Leads.throw _)
    | [p] =>
      refine .single (Leads.get_bind fun t => (Leads.lift _).bind fun exit => ?_)
      split
      · exact Leads.modify fun _ => .of_eq rfl rfl rfl
      · exact Leads.throw _
    | p :: q :: preds => exact keeps_joinScript frameSize b (p :: q :: preds)

/-- The end of a block, given its instructions: a jump to the next block if none of them ends it. -/
def endBlock (b : BlockId) (instructions : List Instruction) : BuildM Unit := do
  let ended := (instructions.getLast?.map (·.category.endsBlock)).getD false
  if !ended then
    match (← BuildM.blockAt b).succs with
    | next :: _ => discard <| BuildM.emit .void (.goto next)
    | [] => pure ()
  BuildM.checkDepths b

/-- Writes down what a block leaves. -/
def recordBlock (b : BlockId) : BuildM Unit := do
  let s ← get
  let graph ← Pass.lift (s.graph.editBlock b fun block => { block with exit := s.frame })
  set { s with graph, built := s.built.insert b }

/-- The nodes of a block under construction, given the state when it was started. -/
def nodesScript (c : Context) (frameSize : Nat) (b : BlockId) (s : BuildState) : Script BuildState Unit :=
  (enterScript c frameSize b s).andThen fun _ =>
    .step (modify fun s => { s with entryDepth := s.entryDepth.insert b s.frame.depth }) fun _ =>
      .step (BuildM.blockAt b) fun block =>
        (Script.forEach (fun i => .single (BuildM.instruction c i)) block.instructions).andThen fun _ =>
          .single (endBlock b block.instructions)

/-- A block: each merge at its start and each of its instructions is a step. -/
def blockScript (c : Context) (frameSize : Nat) (b : BlockId) : Script BuildState Unit :=
  .step (modify fun s => { s with block := b, frame := Frame.empty }) fun _ =>
    .step get fun s => (nodesScript c frameSize b s).andThen fun _ => .single (recordBlock b)

theorem run_blockScript (c : Context) (frameSize : Nat) (b : BlockId) :
    (blockScript c frameSize b).run = BuildM.block c frameSize b := by
  unfold BuildM.block
  rw [run_enterScript]
  simp only [blockScript, nodesScript, Script.run, Script.run_andThen, Script.run_forEach, Script.run_single,
    bind_assoc]
  refine bind_congr fun _ => bind_congr fun s => bind_congr fun _ => bind_congr fun _ => bind_congr fun block => ?_
  refine bind_congr fun _ => ?_
  unfold endBlock
  dsimp only
  split
  · simp only [bind_assoc]
    refine bind_congr fun last => ?_
    cases last.succs with
    | nil => rfl
    | cons next more => simp only [bind_assoc, recordBlock]
  · rfl

theorem leads_checkDepths (b : BlockId) : Leads (Grows arity) (BuildM.checkDepths b) := by
  refine (leads_blockAt b).bind fun block => Leads.get_bind fun s => Leads.forM _ fun succ _ => ?_
  split
  · split
    · exact Leads.pure _
    · exact Leads.throw _
  · exact Leads.pure _

theorem leads_endBlock (b : BlockId) (instructions : List Instruction) :
    Leads (Grows arity) (endBlock b instructions) := by
  have hcheck : Leads (Grows arity) (BuildM.checkDepths b) := leads_checkDepths b
  unfold endBlock
  dsimp only
  split
  · refine (leads_blockAt b).bind fun block => ?_
    split
    · exact (leads_emit _ rfl).discard.bind fun _ => hcheck
    · exact hcheck
  · exact hcheck

theorem keeps_nodesScript (c : Context) (frameSize : Nat) (b : BlockId) (s : BuildState) :
    (nodesScript c frameSize b s).Keeps (Grows (s.graph.preds b).length) := by
  refine (keeps_enterScript c frameSize b s).andThen fun _ => ?_
  refine .step (Leads.modify fun _ => .of_eq rfl rfl rfl) fun _ => ?_
  refine .step (leads_blockAt b) fun block => Script.Keeps.andThen (.forEach _ fun i _ => ?_) fun _ => ?_
  · exact .single (leads_instruction c i)
  · exact .single (leads_endBlock b _)

/-! ## All blocks -/

/-- A block without its nodes and the frame that it leaves. -/
def outline (block : Block) : Block :=
  { block with nodes := #[], exit := Frame.empty }

/-- A state later in the construction of the blocks: nodes were added and counted, and the merges among them have an
argument for each predecessor of their block. -/
structure Builds (s t : BuildState) : Prop where
  keeps : Graph.Keeps outline s.graph t.graph
  exists_nodes : ∃ new : List Node, t.graph.nodes.toList = s.graph.nodes.toList ++ new ∧
    t.stats = s.stats.addOps (new.map (·.op)) ∧
    ∀ node ∈ new, ∀ slot args, node.op = .merge slot args → args.length = (s.graph.preds node.block).length

theorem preds_eq_of_outline {g g' : Graph} (h : Graph.Keeps outline g g') (b : BlockId) : g'.preds b = g.preds b :=
  congrArg (Option.getD · []) (h.comp (·.preds) b)

namespace Builds

theorem refl (s : BuildState) : Builds s s :=
  ⟨Graph.Keeps.refl _ _, [], by simp, rfl, by simp⟩

theorem trans {u : BuildState} (h : Builds s t) (h' : Builds t u) : Builds s u := by
  obtain ⟨new, hnodes, hstats, harity⟩ := h.exists_nodes
  obtain ⟨new', hnodes', hstats', harity'⟩ := h'.exists_nodes
  refine ⟨h.keeps.trans h'.keeps, new ++ new', ?_, ?_, ?_⟩
  · rw [hnodes', hnodes, List.append_assoc]
  · rw [hstats', hstats, List.map_append, Statistics.addOps_append]
  · intro node hnode
    rcases List.mem_append.1 hnode with hnode | hnode
    · exact harity node hnode
    · rw [← preds_eq_of_outline h.keeps]
      exact harity' node hnode

instance : Std.Refl Builds :=
  ⟨refl⟩

instance : IsTrans BuildState Builds :=
  ⟨fun _ _ _ => trans⟩

theorem of_graph_eq (hgraph : t.graph = s.graph) (hstats : t.stats = s.stats) : Builds s t :=
  ⟨by rw [hgraph]; exact Graph.Keeps.refl _ _, [], by simp [hgraph], hstats, by simp⟩

end Builds

theorem keeps_outline_emitted (g : Graph) (b : BlockId) (cells : List Cell) :
    Graph.Keeps outline g (g.emitted b cells) := by
  intro k
  rw [Graph.block?_emitted]
  split
  · next h =>
    rw [h, Option.map_map]
    rfl
  · rfl

/-- What grows in a block is built, if its merges have an argument for each predecessor. -/
theorem Grows.builds (h : Grows (s.graph.preds s.block).length s t) : Builds s t := by
  obtain ⟨cells, hgraph, hstats, -, harity⟩ := h
  refine ⟨?_, cells.map (Cell.nodeIn s.block), ?_, ?_, ?_⟩
  · rw [hgraph]
    exact keeps_outline_emitted _ _ _
  · rw [hgraph, Graph.toList_nodes_emitted]
  · rw [hstats, List.map_map]
    rfl
  · intro node hnode
    obtain ⟨cell, hcell, rfl⟩ := List.mem_map.1 hnode
    exact harity cell hcell

theorem builds_recordBlock (b : BlockId) : Leads Builds (recordBlock b) := by
  refine Leads.get_lift_set fun s g hedit => ?_
  obtain ⟨-, rfl⟩ := Graph.editBlock_eq_ok.1 hedit
  exact ⟨Graph.Keeps.modifyBlock _ _ fun _ => rfl, [], by simp [Graph.modifyBlock], rfl, by simp⟩

theorem keeps_blockScript (c : Context) (frameSize : Nat) (b : BlockId) : (blockScript c frameSize b).Keeps Builds := by
  intro s u hvisits
  cases hvisits with
  | start => exact .refl s
  | fail hmod => cases hmod
  | next hmod hvisits =>
    obtain rfl := Pass.modify_eq_ok.1 hmod
    have hstart : Builds s { s with block := b, frame := Frame.empty } := .of_graph_eq rfl rfl
    cases hvisits with
    | start => exact hstart
    | fail hget => cases hget
    | next hget hvisits =>
      obtain ⟨rfl, rfl⟩ := Pass.get_eq_ok.1 hget
      have hnodes := keeps_nodesScript c frameSize b { s with block := b, frame := Frame.empty }
      rcases Script.visits_andThen hvisits with hvisits | ⟨_, t, hrun, hvisits⟩
      · exact hstart.trans (hnodes _ _ hvisits).builds
      · have hgrown := (hnodes _ _ (Script.visits_of_run_ok hrun)).builds
        exact (hstart.trans hgrown).trans (Script.Keeps.single (builds_recordBlock b) t u hvisits)

/-- The pass, with the steps of each block. -/
def blocksScript (c : Context) (frameSize : Nat) : Script BuildState Unit :=
  .step get fun s =>
    .step (Pass.lift s.graph.validate) fun _ =>
      .step get fun s =>
        .step (Pass.lift (Order.compute s.graph)) fun order =>
          (Script.forEach (blockScript c frameSize) order).andThen fun _ =>
            .single (modify fun s => { s with graph := { s.graph with order } })

theorem run_blocksScript (c : Context) (frameSize : Nat) :
    (blocksScript c frameSize).run = BuildM.blocks c frameSize := by
  simp only [blocksScript, BuildM.blocks, Script.run, Script.run_andThen, Script.run_forEach, Script.run_single,
    run_blockScript]

theorem keeps_blocksScript (c : Context) (frameSize : Nat) : (blocksScript c frameSize).Keeps Builds := by
  refine .get_step fun _ => .step (Leads.lift _) fun _ => .get_step fun _ => .step (Leads.lift _) fun order => ?_
  refine Script.Keeps.andThen (.forEach _ fun b _ => keeps_blockScript c frameSize b) fun _ => ?_
  exact .single (Leads.modify fun s => ⟨Graph.Keeps.refl _ s.graph, [], by simp, rfl, by simp⟩)

theorem leads_blocks (c : Context) (frameSize : Nat) : Leads Builds (BuildM.blocks c frameSize) := by
  rw [← run_blocksScript]
  exact (keeps_blocksScript c frameSize).leads_run

/-- The work on a method, before and after nodes were built. -/
def Extends (w w' : Work) : Prop :=
  Builds { graph := w.graph, stats := w.stats } { graph := w'.graph, stats := w'.stats }

instance : Std.Refl Extends :=
  ⟨fun _ => .refl _⟩

instance : IsTrans Work Extends :=
  ⟨fun _ _ _ => .trans⟩

theorem leads_build (pool : ConstantPool) (m : Method) : Leads Extends (build pool m) := by
  refine (Leads.lift _).bind fun type => Leads.discard ?_
  exact (leads_blocks _ _).focus fun w t h => ⟨h.keeps, h.exists_nodes⟩

end Ssa

end Destack
