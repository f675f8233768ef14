import Destack.Proofs.Machine.Accesses
import Destack.Proofs.Machine.Placement
import Destack.Proofs.Steps

/-!
# What lowering adds

Lowering adds instructions to blocks, each in one place, and leaves the nodes, the edges and most of the statistics
alone. Every call that it adds is counted, up to a failure as well (`Adds`). The pass is taken apart into steps: one for
every node that is asked for, and one for the moves of every edge.
-/

namespace Destack

def Machine.Instr.isCall (i : Machine.Instr) : Bool :=
  match i.op with
  | .call _ => true
  | _ => false

namespace Graph

/-- Calls in the code of the blocks. -/
def callsIn (g : Graph) (code : BlockId → List Machine.Instr) : Nat :=
  (g.blockIds.flatMap code).countP (·.isCall)

variable {g g' : Graph} {code : BlockId → List Machine.Instr} {b : BlockId}

theorem callsIn_congr {γ : Type} {view : Block → γ} (h : Keeps view g g') (code : BlockId → List Machine.Instr) :
    g'.callsIn code = g.callsIn code := by
  rw [callsIn, callsIn, h.blockIds_eq]

theorem callsIn_eq_of_countP_eq {code' : BlockId → List Machine.Instr}
    (h : ∀ k, (code' k).countP (·.isCall) = (code k).countP (·.isCall)) : g.callsIn code' = g.callsIn code := by
  rw [callsIn, callsIn, List.countP_flatMap, List.countP_flatMap]
  exact congrArg List.sum (List.map_congr_left fun k _ => h k)

/-- Code that gets longer in one block gets the calls of what is added. -/
theorem callsIn_update (hb : g.hasBlock b = true) {code' : BlockId → List Machine.Instr} {is : List Machine.Instr}
    (hself : (code' b).Perm (code b ++ is)) (hother : ∀ k, k ≠ b → code' k = code k) :
    g.callsIn code' = g.callsIn code + is.countP (·.isCall) := by
  have hperm := perm_flatMap_update (nodup_blockIds g) (mem_blockIds.2 hb) hself hother
  rw [callsIn, callsIn, hperm.countP_eq, List.countP_append]

end Graph

namespace Machine

open Pass (Leads Script)

/-- A later state of the lowering, in which a number of calls is still to be counted. -/
structure AddsBut (uncounted : Nat) (s t : LowerState) : Prop where
  nodes : s.graph.SameNodes t.graph
  stats_eq : t.stats = { s.stats with edgeMoves := t.stats.edgeMoves, calls := t.stats.calls }
  placed : s.graph.PlacedOnce → t.graph.PlacedOnce
  calls : s.graph.PlacedOnce → ∀ code, s.graph.Carries code → ∃ code', t.graph.Carries code' ∧
    t.stats.calls + s.graph.callsIn code + uncounted = s.stats.calls + t.graph.callsIn code'

/-- A later state of the lowering, in which all calls are counted. -/
abbrev Adds : LowerState → LowerState → Prop :=
  AddsBut 0

variable {s t u : LowerState} {b : BlockId}

namespace AddsBut

theorem refl (s : LowerState) : Adds s s :=
  ⟨.refl _, rfl, fun h => h, fun _ code hcode => ⟨code, hcode, rfl⟩⟩

theorem trans {m n : Nat} (h : AddsBut m s t) (h' : AddsBut n t u) : AddsBut (m + n) s u := by
  refine ⟨h.nodes.trans h'.nodes, ?_, fun hs => h'.placed (h.placed hs), fun hs code hcode => ?_⟩
  · rw [h'.stats_eq, h.stats_eq]
  · obtain ⟨code', hcode', hcalls⟩ := h.calls hs code hcode
    obtain ⟨code'', hcode'', hcalls'⟩ := h'.calls (h.placed hs) code' hcode'
    exact ⟨code'', hcode'', by omega⟩

instance : Std.Refl Adds :=
  ⟨refl⟩

instance : IsTrans LowerState Adds :=
  ⟨fun _ _ _ h h' => h.trans h'⟩

/-- Nothing but registers, labels or notes was added. -/
theorem of_graph (hnodes : s.graph.SameNodes t.graph) (hstats : t.stats = s.stats)
    (hplaced : s.graph.PlacedOnce → t.graph.PlacedOnce)
    (hcode : s.graph.PlacedOnce → ∀ code, s.graph.Carries code → t.graph.Carries code) : Adds s t := by
  refine ⟨hnodes, by rw [hstats], hplaced, fun hs code hc => ⟨code, hcode hs code hc, ?_⟩⟩
  rw [Graph.callsIn_congr hnodes.keeps, hstats, Nat.add_zero]

theorem withInstr (hb : s.graph.hasBlock b = true) (i : Instr) :
    AddsBut ([i].countP (·.isCall)) s { s with graph := s.graph.withInstr b i } := by
  have happends : s.graph.Appends b [i] (s.graph.withInstr b i) := .withInstr hb i
  refine ⟨happends.nodes, rfl, fun hs => hs.appends happends, fun _ code hcode => ⟨_, happends.carries hcode, ?_⟩⟩
  have hupdate : s.graph.callsIn (fun k => if k = b then code k ++ [i] else code k) =
      s.graph.callsIn code + [i].countP (·.isCall) := by
    refine Graph.callsIn_update hb ?_ fun k hk => if_neg hk
    rw [if_pos rfl]
  rw [Graph.callsIn_congr happends.nodes.keeps, hupdate]
  exact Nat.add_assoc ..

end AddsBut

namespace LowerM

/-! ## Emitting instructions -/

theorem leads_newRegister : Leads Adds newRegister :=
  Leads.modifyGet fun s => .of_graph s.graph.sameNodes_newRegister rfl (fun hs => ⟨hs.nodup, hs.lt⟩)
    fun _ _ hcode => hcode.newRegister

theorem leads_append_of {R : LowerState → LowerState → Prop} [Std.Refl R] {b : BlockId} {op : Op}
    {reads : List Register} {write : Option Register}
    (h : ∀ s, s.graph.hasBlock b = true → R s { s with graph := s.graph.withInstr b ⟨op, reads, write⟩ }) :
    Leads R (append b op reads write) := by
  refine Leads.of_cases fun s => ?_
  rcases append_cases b op reads write s with ⟨hb, hok⟩ | hfail
  · exact Or.inr ⟨_, _, hok, h s hb⟩
  · exact Or.inl hfail

theorem leads_append (b : BlockId) {op : Op} (hop : ∀ reads write, (Instr.mk op reads write).isCall = false)
    (reads : List Register) (write : Option Register) : Leads Adds (append b op reads write) := by
  refine leads_append_of fun s hb => ?_
  have hadds := AddsBut.withInstr hb ⟨op, reads, write⟩
  rwa [List.countP_singleton, hop, if_neg Bool.false_ne_true] at hadds

theorem leads_value (b : BlockId) {op : Op} (hop : ∀ reads write, (Instr.mk op reads write).isCall = false)
    (reads : List Register) : Leads Adds (value b op reads) :=
  leads_newRegister.bind fun r => (leads_append b hop reads (some r)).bind fun _ => Leads.pure _

theorem leads_effect (b : BlockId) {op : Op} (hop : ∀ reads write, (Instr.mk op reads write).isCall = false)
    (reads : List Register) : Leads Adds (effect b op reads) :=
  (leads_append b hop reads none).bind fun _ => Leads.pure _

theorem leads_registerOf (id : NodeId) : Leads Adds (registerOf id) := by
  refine Leads.get_bind fun s => ?_
  split
  · exact Leads.pure _
  · exact Leads.throw _

theorem leads_dataLabel (value : String) : Leads Adds (dataLabel value) := by
  refine Leads.get_bind fun s => ?_
  split
  · exact Leads.pure _
  · exact Leads.bind (Leads.modify fun t => .of_graph (.refl _) rfl (fun ht => ht) fun _ _ hcode => hcode) fun _ =>
      Leads.pure _

/-! ## Parameters and calls -/

theorem leads_param (b : BlockId) (index : Nat) : Leads Adds (param b index) := by
  unfold param
  split
  · exact leads_value b (fun _ _ => rfl) _
  · exact leads_value b (fun _ _ => rfl) _

theorem leads_passArgument (b : BlockId) (source : Register) (location : Location) :
    Leads Adds (passArgument b source location) := by
  cases location with
  | register r =>
    refine leads_newRegister.bind fun copy => (leads_append b (fun _ _ => rfl) _ _).discard.bind fun _ => ?_
    exact (leads_append b (fun _ _ => rfl) _ _).discard.bind fun _ => Leads.pure _
  | stack offset => exact (leads_append b (fun _ _ => rfl) _ _).discard.bind fun _ => Leads.pure _

theorem leads_passArguments (b : BlockId) (pairs : List (Register × Location)) :
    Leads Adds (pairs.filterMapM fun (source, location) => passArgument b source location) := by
  induction pairs with
  | nil =>
    rw [List.filterMapM_nil]
    exact Leads.pure _
  | cons pair pairs ih =>
    rw [List.filterMapM_cons]
    refine (leads_passArgument b pair.1 pair.2).bind fun saved => ?_
    cases saved with
    | none => exact ih
    | some move => exact ih.bind fun moves => Leads.pure _

/-- What follows the call itself: the result is moved out and registers are restored. -/
def afterCall (b : BlockId) (id : InstrId) (result : Option Register) (saved : List Move) : LowerM Lowered := do
  let lowered ← match result with
    | some r => value b .move [r]
    | none => pure ⟨some id, none⟩
  saved.forM fun m => discard <| append b .move [m.source] (some m.target)
  return lowered

theorem leads_afterCall (b : BlockId) (id : InstrId) (result : Option Register) (saved : List Move) :
    Leads Adds (afterCall b id result saved) := by
  have hrestore : Leads Adds (saved.forM fun m => discard <| append b .move [m.source] (some m.target)) :=
    Leads.forM _ fun m _ => (leads_append b (fun _ _ => rfl) _ _).discard
  unfold afterCall
  split
  · exact (leads_value b (fun _ _ => rfl) _).bind fun lowered => hrestore.bind fun _ => Leads.pure _
  · exact (Leads.pure _).bind fun lowered => hrestore.bind fun _ => Leads.pure _

/-- Nothing fails after a call. -/
theorem exists_afterCall (hb : s.graph.hasBlock b = true) (id : InstrId) (result : Option Register)
    (saved : List Move) : ∃ lowered t, afterCall b id result saved s = .ok lowered t := by
  have hspec : Pass.Spec (afterCall b id result saved) s (fun _ _ => True) fun _ => False := by
    unfold afterCall
    cases result with
    | some r =>
      refine .bind (value_spec hb .move [r]) fun lowered t ht => ?_
      exact .bind (restore_spec (ht.2.1.hasBlock_eq b ▸ hb) saved) fun _ u _ => .pure trivial
    | none =>
      refine .bind (Q := fun _ t => t = s) (.pure rfl) fun lowered t ht => ?_
      exact .bind (restore_spec (ht ▸ hb) saved) fun _ u _ => .pure trivial
  obtain ⟨lowered, t, hok, -⟩ := hspec.exists_ok
  exact ⟨lowered, t, hok⟩

/-- The call itself is counted when nothing can fail any more. -/
theorem leads_countedCall (b : BlockId) (method : Member) (result : Option Register) (saved : List Move) :
    Leads Adds (do
      let id ← append b (.call method) (saved.map (·.target)) result
      let lowered ← afterCall b id result saved
      modify fun s => { s with stats := s.stats.addCall }
      return lowered) := by
  refine Leads.bind_ok fun s => ?_
  rcases append_cases b (.call method) (saved.map (·.target)) result s with ⟨hb, hok⟩ | hfail
  · have hcall := AddsBut.withInstr hb ⟨.call method, saved.map (·.target), result⟩
    obtain ⟨lowered, t, hafter⟩ := exists_afterCall (hcall.nodes.hasBlock_eq b ▸ hb) s.graph.instrs.size result saved
    have hadds := hcall.trans ((leads_afterCall b _ result saved).of_ok hafter)
    refine Or.inr ⟨_, _, lowered, { t with stats := t.stats.addCall }, hok, ?_, hadds.nodes, ?_, hadds.placed,
      fun hs code hcode => ?_⟩
    · exact Pass.bind_eq_ok.2 ⟨lowered, t, hafter, rfl⟩
    · change Statistics.addCall t.stats = _
      rw [hadds.stats_eq]
      rfl
    · obtain ⟨code', hcode', hcalls⟩ := hadds.calls hs code hcode
      refine ⟨code', hcode', ?_⟩
      change t.stats.calls + 1 + _ + 0 = _ + t.graph.callsIn code'
      have hone : [Instr.mk (.call method) (saved.map (·.target)) result].countP (·.isCall) = 1 := rfl
      rw [hone] at hcalls
      omega
  · exact Or.inl hfail

theorem leads_call (b : BlockId) (method : Member) (args : List NodeId) (type : ValueType) :
    Leads Adds (call b method args type) := by
  unfold call
  refine (Leads.mapM _ fun arg _ => leads_registerOf arg).bind fun sources => ?_
  refine (leads_passArguments b _).bind fun saved => ?_
  have hcounted := leads_countedCall b method ((Location.ofResult? type).bind (·.register?)) saved
  unfold afterCall at hcounted
  cases hresult : (Location.ofResult? type).bind (·.register?) with
  | some r => simpa only [hresult, bind_assoc, pure_bind] using hcounted
  | none => simpa only [hresult, bind_assoc, pure_bind] using hcounted

/-! ## Nodes -/

theorem leads_emit (node : Ssa.Node) : Leads Adds (emit node) := by
  obtain ⟨b, type, op⟩ := node
  cases op with
  | param index => exact leads_param b index
  | undefined slot => exact leads_newRegister.bind fun _ => Leads.pure _
  | merge slot args => exact leads_newRegister.bind fun _ => Leads.pure _
  | intConst n => exact leads_value b (fun _ _ => rfl) _
  | nullConst => exact leads_value b (fun _ _ => rfl) _
  | stringConst text => exact (leads_dataLabel text).bind fun _ => leads_value b (fun _ _ => rfl) _
  | arith op kind lhs rhs =>
    exact (leads_registerOf lhs).bind fun _ => (leads_registerOf rhs).bind fun _ => leads_value b (fun _ _ => rfl) _
  | negate v => exact (leads_registerOf v).bind fun _ => leads_value b (fun _ _ => rfl) _
  | getStatic field => exact leads_value b (fun _ _ => rfl) _
  | putStatic field v => exact (leads_registerOf v).bind fun _ => leads_effect b (fun _ _ => rfl) _
  | arrayLoad base offset =>
    refine (leads_registerOf base).bind fun _ => (leads_registerOf offset).bind fun _ => ?_
    exact leads_value b (fun _ _ => rfl) _
  | arrayStore base offset v =>
    refine (leads_registerOf base).bind fun _ => (leads_registerOf offset).bind fun _ => ?_
    exact (leads_registerOf v).bind fun _ => leads_effect b (fun _ _ => rfl) _
  | call kind method args => exact leads_call b method args type
  | branch condition lhs rhs taken fallthrough =>
    refine (leads_registerOf lhs).bind fun _ => (leads_registerOf rhs).bind fun _ => ?_
    exact leads_effect b (fun _ _ => rfl) _
  | goto target => exact leads_effect b (fun _ _ => rfl) _
  | switch v default cases => exact (leads_registerOf v).bind fun _ => leads_effect b (fun _ _ => rfl) _
  | ret v =>
    cases v with
    | none => exact leads_effect b (fun _ _ => rfl) _
    | some v =>
      refine (leads_registerOf v).bind fun _ => (leads_append b (fun _ _ => rfl) _ _).discard.bind fun _ => ?_
      exact leads_effect b (fun _ _ => rfl) _
  | raise v => exact (leads_registerOf v).bind fun _ => leads_effect b (fun _ _ => rfl) _

theorem leads_lowerResolved (depth : Nat) (id : NodeId) : Leads Adds (lowerResolved depth id) := by
  induction depth generalizing id with
  | zero => exact Leads.throw _
  | succ depth ih =>
    unfold lowerResolved
    refine Leads.get_bind fun s => ?_
    split
    · exact Leads.pure _
    · refine (Leads.lift _).bind fun node => (Leads.forM _ fun operand _ => ih operand).bind fun _ => ?_
      exact (leads_emit node).bind fun lowered =>
        Leads.modify fun t => .of_graph (.refl _) rfl (fun ht => ht) fun _ _ hcode => hcode

theorem leads_lower (id : NodeId) : Leads Adds (lower id) := by
  refine Leads.get_bind fun s => (leads_lowerResolved _ _).bind fun _ => Leads.get_bind fun t => ?_
  split
  · exact Leads.pure _
  · exact Leads.throw _

theorem leads_mergeMoves (b : BlockId) (preds : Nat) (id : NodeId) : Leads Adds (mergeMoves b preds id) := by
  refine Leads.get_bind fun s => (Leads.lift _).bind fun node => ?_
  cases node.op.merge? with
  | none => exact Leads.pure _
  | some merge =>
    have hmoves : Leads Adds (registerOf id >>= fun target => merge.2.mapM fun arg => do
        discard (lower arg)
        let source ← registerOf arg
        return if source = target then none else some (⟨source, target⟩ : Move)) := by
      refine (leads_registerOf id).bind fun target => Leads.mapM _ fun arg _ => ?_
      exact (leads_lower arg).discard.bind fun _ => (leads_registerOf arg).bind fun source => Leads.pure _
    dsimp only
    split
    · exact (Leads.throw _).bind fun _ => hmoves
    · exact hmoves

/-! ## Merges -/

/-- Puts the moves of one edge in their place. -/
def placeMoves (entry : BlockId × List Move) : LowerM PUnit :=
  insertMoves entry.1 entry.2

theorem leads_lookUpEnd (b : BlockId) : Leads (· = ·) (lookUpEnd b) := by
  refine Leads.get_bind fun s => (Leads.lift _).bind fun block => ?_
  split
  · exact (Leads.lift _).discard
  · exact Leads.pure _

/-- Moves are put in their place, or there is no such place and nothing is changed. -/
theorem insertMoves_cases (p : BlockId) (moves : List Move) (s : LowerState) :
    insertMoves p moves s = .ok ⟨⟩
      { s with
        graph := (s.graph.insertMoves p moves).2
        stats := s.stats.addEdgeMoves (s.graph.insertMoves p moves).1 } ∨
    ∃ e, insertMoves p moves s = .error e s := by
  unfold insertMoves
  dsimp only
  split
  · rw [Pass.run_bind]
    cases hlook : lookUpEnd p s with
    | ok _ t =>
      obtain rfl := (leads_lookUpEnd p).of_ok hlook
      exact Or.inl rfl
    | error e t =>
      obtain rfl := (leads_lookUpEnd p).of_error hlook
      exact Or.inr ⟨e, rfl⟩
  · exact Or.inl rfl

theorem countP_isCall_insertAhead (code : List Instr) (fresh : Nat) (moves : List Move) :
    (insertAhead code (moveCode fresh moves)).countP (·.isCall) = code.countP (·.isCall) := by
  have hmoves : (moveCode fresh moves).countP (·.isCall) = 0 := by
    rw [List.countP_eq_zero, moveCode]
    intro i hi
    obtain ⟨m, -, rfl⟩ := List.mem_map.1 hi
    exact Bool.false_ne_true
  rw [(perm_insertAhead _ _).countP_eq, List.countP_append, hmoves, Nat.add_zero]

theorem leads_placeMoves (entry : BlockId × List Move) : Leads Adds (placeMoves entry) := by
  obtain ⟨p, moves⟩ := entry
  have hplace : ∀ s : LowerState, Adds s
      { s with
        graph := (s.graph.insertMoves p moves).2
        stats := s.stats.addEdgeMoves (s.graph.insertMoves p moves).1 } := by
    intro s
    have hnodes := s.graph.sameNodes_insertMoves p moves
    refine ⟨hnodes, rfl, fun hs => hs.insertMoves p moves, fun _ code hcode => ⟨_, hcode.insertMoves p moves, ?_⟩⟩
    change s.stats.calls + s.graph.callsIn code = s.stats.calls + _
    rw [Graph.callsIn_congr hnodes.keeps]
    refine congrArg (s.stats.calls + ·) (Graph.callsIn_eq_of_countP_eq fun k => ?_).symm
    split
    · exact countP_isCall_insertAhead _ _ _
    · rfl
  refine Leads.of_cases fun s => ?_
  rcases insertMoves_cases p moves s with hok | hfail
  · exact Or.inr ⟨_, _, hok, hplace s⟩
  · exact Or.inl hfail

theorem leads_renumber :
    Leads Adds (modify fun s : LowerState => { s with graph := s.graph.renumber } : LowerM PUnit) :=
  Leads.modify fun s => .of_graph s.graph.sameNodes_renumber rfl (fun hs => hs.renumber)
    fun hs _ hcode => hs.carries_renumber hcode

/-! ## Lowering step by step -/

/-- One step for every node that is still listed in a block. -/
def lowerBlockScript (b : BlockId) : Script LowerState PUnit :=
  .step get fun s => .step (Pass.lift (s.graph.getBlock b)) fun block =>
    Script.forEach (fun id => .single (discard (lower id))) block.nodes.toList

def lowerAllScript : Script LowerState PUnit :=
  .step get fun s => .step (Pass.lift s.graph.validate) fun _ => Script.forEach lowerBlockScript s.graph.order

/-- One step for every merge of a block and one for every edge into it. -/
def resolveBlockScript (b : BlockId) : Script LowerState PUnit :=
  .step get fun s => .step (Pass.lift (s.graph.getMerges b)) fun merges =>
    if merges.isEmpty then .done ⟨⟩ else
      .step (Pass.lift (s.graph.getBlock b)) fun block =>
        (Script.collect (fun id => .single (mergeMoves b block.preds.length id)) merges).andThen fun moves =>
          Script.forEach (fun entry => .single (placeMoves entry)) (byPredecessor block.preds moves)

def resolveMergesScript : Script LowerState PUnit :=
  .step get fun s => .step (Pass.lift s.graph.validate) fun _ => Script.forEach resolveBlockScript s.graph.order

/-- The pass, with a step for every node, every merge and every edge. -/
def runScript : Script LowerState (Array DataEntry) :=
  lowerAllScript.andThen fun _ =>
    resolveMergesScript.andThen fun _ =>
      .step (modify fun s => { s with graph := s.graph.renumber }) fun _ => .step get fun s => .done s.data

theorem run_lowerAllScript : lowerAllScript.run = lowerAll := by
  simp only [lowerAllScript, lowerBlockScript, lowerAll, Script.run, Script.run_forEach, Script.run_single]

theorem run_resolveBlockScript (b : BlockId) : (resolveBlockScript b).run = resolveBlock b := by
  rw [resolveBlockScript, resolveBlock, Script.run]
  refine bind_congr fun s => ?_
  rw [Script.run]
  refine bind_congr fun merges => ?_
  split
  · rfl
  · simp only [Script.run, Script.run_andThen, Script.run_collect, Script.run_forEach, Script.run_single]
    rfl

theorem run_resolveMergesScript : resolveMergesScript.run = resolveMerges := by
  simp only [resolveMergesScript, resolveMerges, Script.run, Script.run_forEach, run_resolveBlockScript]

theorem run_runScript : runScript.run = LowerM.run := by
  simp only [runScript, LowerM.run, Script.run_andThen, Script.run, run_lowerAllScript, run_resolveMergesScript]

theorem keeps_lowerAllScript : lowerAllScript.Keeps Adds := by
  refine .get_step fun s => .step (Leads.lift _) fun _ => .forEach _ fun b _ => .get_step fun t => ?_
  exact .step (Leads.lift _) fun block => .forEach _ fun id _ => .single (leads_lower id).discard

theorem keeps_resolveBlockScript (b : BlockId) : (resolveBlockScript b).Keeps Adds := by
  refine .get_step fun s => .step (Leads.lift _) fun merges => ?_
  split
  · exact .done _
  · refine .step (Leads.lift _) fun block =>
      Script.Keeps.andThen (.collect _ fun id _ => .single (leads_mergeMoves b _ id)) fun moves => ?_
    exact .forEach _ fun entry _ => .single (leads_placeMoves entry)

theorem keeps_resolveMergesScript : resolveMergesScript.Keeps Adds :=
  .get_step fun _ => .step (Leads.lift _) fun _ => .forEach _ fun b _ => keeps_resolveBlockScript b

theorem keeps_runScript : runScript.Keeps Adds := by
  refine keeps_lowerAllScript.andThen fun _ => keeps_resolveMergesScript.andThen fun _ => ?_
  exact .step leads_renumber fun _ => .get_step fun s => .done _

theorem leads_lowerAll : Leads Adds lowerAll := by
  rw [← run_lowerAllScript]
  exact keeps_lowerAllScript.leads_run

theorem leads_resolveMerges : Leads Adds resolveMerges := by
  rw [← run_resolveMergesScript]
  exact keeps_resolveMergesScript.leads_run

theorem leads_run : Leads Adds LowerM.run := by
  rw [← run_runScript]
  exact keeps_runScript.leads_run

end LowerM

end Machine

end Destack
