import Destack.Proofs.Ssa.Blocks
import Destack.Proofs.Ssa.Prepared

/-!
# Runs of stack code and of its nodes

Block by block, a method runs on its nodes as it runs on its instructions: the instructions of a block do what its
cells do (`instructions_agree`), and an edge hands the values of all slots over (`Holds.handover`).
-/

namespace Destack.Ssa

variable {W : World} {inputs : Inputs W.Value} {c : Context} {g : Graph} {ρ : Env W}
  {s : StackCode.State W.Value}

/-! ## Blocks -/

/-- The instructions of a block do what its cells do. Where no instruction leads on, the jump at the end does. -/
theorem instructions_agree {code is : List Instruction} {n : NodeId} {f f' : Frame} {body tail : List Cell}
    (hcode : Contiguous 0 code) (h : TranslatesAll c g.blockAtTarget? n is f body f')
    (hmem : ∀ i ∈ is, i.unmarked ∈ code) (hwide : ∀ i ∈ is, i.WideFits)
    (hinner : ∀ i ∈ is.dropLast, i.category = .other) {a : Nat}
    (hcont : Contiguous a (is.map Instruction.unmarked))
    (htail : (∀ last, is.getLast? = some last → last.category = .other) →
      ∃ t, tail = [(.void, .goto t)] ∧ g.blockAt? (endOf a is) = some t)
    (hpc : s.pc = a) (hf : Holds ρ f s.locals s.stack) (hlt : f.Below n) :
    Exec.Agree (Leaves g f') (StackCode.run W c.pool code is.length s)
      (runCells W direct inputs n (body ++ tail) ρ) := by
  induction h generalizing a s ρ with
  | nil =>
    obtain ⟨t, rfl, ht⟩ := htail (fun last hlast => by cases hlast)
    exact .pure ⟨by rw [hpc]; exact ht, hf⟩
  | @cons n i is action f f₁ f' ns ns' haction htrans hrest ih =>
    obtain ⟨effect, hmeaning, rfl, hcat⟩ := i.meaning?_of_action? (hwide i (by simp)) haction
    obtain ⟨haddr, -, hcont⟩ := hcont
    have hfetch : StackCode.fetch? code s.pc = some i.unmarked := by
      rw [hpc, ← haddr]
      exact hcode.fetch?_eq_some (hmem i (by simp))
    have hstep : StackCode.step W c.pool code s = StackCode.execute W c.pool i s effect := by
      simp only [StackCode.step, hfetch, Exec.need_some, pure_bind, Instruction.meaning?_unmarked, hmeaning,
        Instruction.execute_unmarked]
    rw [List.length_cons, StackCode.run, Exec.iterate, hstep, List.append_assoc]
    by_cases hother : effect.category = .other
    · -- The run goes on in the block.
      have hplain := isPlain_of_translates htrans ((i.category_act effect).trans hother)
      rw [runCells_of_isPlain hplain]
      refine .bind (execute_agrees htrans hother hf hlt) ?_
      rintro s' ρ' ⟨hpc', hf'⟩
      refine ih (fun j hj => hmem j (by simp [hj])) (fun j hj => hwide j (by simp [hj])) ?_ hcont ?_ hpc' hf' ?_
      · intro j hj
        cases is with
        | nil => cases hj
        | cons k is => exact hinner j (by simp [hj])
      · intro hlast
        refine htail fun last hl => ?_
        cases is with
        | nil =>
          rw [List.getLast?_singleton] at hl
          obtain rfl := Option.some.inj hl
          rw [hcat, hother]
        | cons k is => exact hlast last (by rwa [List.getLast?_cons_cons] at hl)
      · intro id hid
        rcases htrans.mem_ids hid with hid | ⟨-, hid⟩
        · exact Nat.lt_of_lt_of_le (hlt id hid) (Nat.le_add_right _ _)
        · exact hid
    · -- The instruction is the last one.
      cases is with
      | cons k is => exact absurd (hcat ▸ hinner i (by simp)) hother
      | nil =>
        cases hrest
        rw [List.length_nil, show Exec.iterate (StackCode.step W c.pool code) 0 = pure from rfl, bind_pure,
          List.nil_append]
        exact leave_agrees htrans hcat hother hf hlt tail

variable {frameSize : Nat} {seg : BlockId → Segment} {code : List Instruction} {addr : BlockId → Nat} {b t : BlockId}

/-- A block runs on its instructions as it runs on its cells, from the frame at its start on. -/
theorem Form.block_agrees (h : Form c frameSize g seg) (hlaid : g.Laid code addr) (hcode : Contiguous 0 code)
    (hwide : ∀ i ∈ code, i.WideFits) {block : Block} (hb : g.block? b = some block) (hpc : s.pc = addr b)
    (hf : Holds ρ (seg b).enter s.locals s.stack) :
    Exec.Agree (fun s' r => Leaves g (seg b).exit s' r ∧ r.2 ∈ block.succs)
      (StackCode.run W c.pool code block.instructions.length s)
      (runCells W direct inputs ((seg b).first + (seg b).heads.length) ((seg b).body ++ (seg b).tail) ρ) := by
  have hhas := Graph.hasBlock_iff.2 ⟨block, hb⟩
  have hbody := h.body hhas
  rw [Graph.instructionsOf_eq hb] at hbody
  have htail : (∀ last, block.instructions.getLast? = some last → last.category = .other) →
      ∃ t, (seg b).tail = [(.void, .goto t)] ∧ g.blockAt? (endOf (addr b) block.instructions) = some t := by
    intro hlast
    obtain ⟨t, hsuccs, ht⟩ := hlaid.falls hb hlast
    refine ⟨t, ?_, ht⟩
    rw [h.tail_eq hhas, tailOf, Graph.instructionsOf_eq hb, Graph.succs_eq hb, hsuccs]
    cases hl : block.instructions.getLast? with
    | none => rfl
    | some last => simp [hlast last hl, Category.endsBlock]
  have hagree : Exec.Agree (Leaves g (seg b).exit) _
      (runCells W direct inputs _ ((seg b).body ++ (seg b).tail) ρ) :=
    instructions_agree hcode hbody (hlaid.mem_code hb) (fun i hi => (hwide _ (hlaid.mem_code hb i hi) :))
      (hlaid.category_inner hb) (hlaid.contiguous hb) htail hpc hf (h.enter_lt hhas)
  refine (hagree.and_right runCells_mem_targets).mono ?_
  rintro s' r ⟨hleaves, cell, hcell, ht⟩
  refine ⟨hleaves, h.target_mem_succs hlaid hb ?_ ht⟩
  rw [Segment.cells, List.append_assoc]
  exact List.mem_append_right _ hcell

/-! ## Steps from block to block -/

theorem forall₂_of_getElem? {ρ ρ' : Env W} {ids ids' : List NodeId} {vs : List W.Value}
    (h : List.Forall₂ (fun id v => ρ id = some v) ids vs) (hlen : ids'.length = ids.length)
    (hk : ∀ {k : Nat} {id : NodeId}, ids'[k]? = some id → ∃ a, ids[k]? = some a ∧ ρ' id = ρ a) :
    List.Forall₂ (fun id v => ρ' id = some v) ids' vs := by
  refine List.forall₂_iff_get.2 ⟨hlen.trans h.length_eq, fun k hk₁ hk₂ => ?_⟩
  obtain ⟨a, ha, hρ⟩ := hk (List.getElem?_eq_getElem hk₁)
  obtain ⟨hk₃, rfl⟩ := List.getElem?_eq_some_iff.1 ha
  exact hρ.trans (h.get hk₃ hk₂)

/-- The values of a frame, slot by slot. -/
theorem Holds.of_slots {ρ ρ' : Env W} {f f' : Frame} {vs ws : List W.Value} (h : Holds ρ f vs ws)
    (hsize : f'.locals.size = f.locals.size) (hdepth : f'.depth = f.depth)
    (hslots : ∀ {slot : Slot} {id : NodeId}, f'.slot? slot = some id →
      ∃ a, f.slot? slot = some a ∧ ρ' id = ρ a) : Holds ρ' f' vs ws := by
  refine ⟨forall₂_of_getElem? h.locals (by simpa using hsize) fun {k id} hk => ?_, ?_⟩
  · obtain ⟨a, ha, hρ⟩ := @hslots (.localVar k) id (by simpa [Frame.slot?] using hk)
    exact ⟨a, by simpa [Frame.slot?] using ha, hρ⟩
  · -- Slots of the stack are counted from the bottom.
    rw [← List.forall₂_reverse_iff]
    refine forall₂_of_getElem? (List.forall₂_reverse_iff.2 h.stack) (by simpa [Frame.depth] using hdepth)
      fun {k id} hk => ?_
    exact @hslots (.operand k) id hk

/-- An edge hands the values of all slots over. -/
theorem Form.handover_holds (h : Form c frameSize g seg) (hloss : Lossless frameSize g seg) (hb : b ∈ g.preds t)
    {vs ws : List W.Value} (hf : Holds ρ (seg b).exit vs ws) :
    Holds ((Point.mk (some b) t ρ).merged direct g) (seg t).enter vs ws := by
  have hsucc := h.linked.mem_succs_iff.2 hb
  refine hf.of_slots ?_ (hloss.depth_eq hb).symm fun hslot => h.merged_slot hb hslot ρ
  rw [(hloss.size_locals (h.linked.hasBlock_target hsucc)).1, (hloss.size_locals (h.linked.hasBlock_source hsucc)).2]

/-- Two runs are about to enter the same block. They are at the start, or they leave a block for the same successor,
and the nodes of the frame recorded for that block have the values that the machine has in the same slots. -/
inductive Abreast (first : StackCode.State W.Value) (g : Graph) :
    BlockId × StackCode.State W.Value → Point W → Prop where
  | start : Abreast first g (Graph.entry, first) (Point.start W)
  | edge {b t : BlockId} {s : StackCode.State W.Value} {ρ : Env W} : t ∈ g.succs b → g.blockAt? s.pc = some t →
    Holds ρ (g.exitOf b) s.locals s.stack → Abreast first g (t, s) ⟨some b, t, ρ⟩

/-- What follows once the frame at the start of a block has its values. -/
theorem Form.leave_block (h : Form c frameSize g seg) (hlaid : g.Laid code addr) (hcode : Contiguous 0 code)
    (hwide : ∀ i ∈ code, i.WideFits) {block : Block} (hb : g.block? b = some block) (hpc : s.pc = addr b)
    (hf : Holds ρ (seg b).enter s.locals s.stack) (first : StackCode.State W.Value) :
    Exec.Agree (Abreast first g)
      (do let s' ← StackCode.run W c.pool code block.instructions.length s
          return (← Exec.need (g.blockAt? s'.pc), s'))
      (do let (ρ', next) ← runCells W direct inputs ((seg b).first + (seg b).heads.length)
            ((seg b).body ++ (seg b).tail) ρ
          return ⟨some b, next, ρ'⟩) := by
  refine .bind (h.block_agrees hlaid hcode hwide hb hpc hf) ?_
  rintro s' ⟨ρ', next⟩ ⟨⟨hat, hf'⟩, hnext⟩
  simp only at hat hf' hnext
  rw [hat, Exec.need_some, pure_bind]
  refine .pure (.edge (by rwa [Graph.succs_eq hb]) hat ?_)
  rwa [Graph.exitOf, hb, Option.map_some, Option.getD_some, h.exit_eq hb]

/-- A step of stack code from block to block is a step of the nodes. -/
theorem Prepared.step_agrees (h : Prepared c frameSize code addr g seg) (hfits : Fits c.formals frameSize)
    (hloss : Lossless frameSize g seg) (hwide : ∀ i ∈ code, i.WideFits) {q : BlockId × StackCode.State W.Value}
    {p : Point W} (hr : Abreast (StackCode.start inputs c.formals frameSize) g q p) :
    Exec.Agree (Abreast (StackCode.start inputs c.formals frameSize) g) (StackCode.stepBlock W c.pool code g q)
      (step W direct g inputs p) := by
  have hform := h.form
  unfold StackCode.stepBlock step
  cases hr with
  | start =>
    obtain ⟨block, hblock⟩ := Graph.hasBlock_iff.1 h.entry
    obtain ⟨ρ', hseeds, hf⟩ := @seeds_hold W inputs _ h.ne_void _ hfits (seg Graph.entry).first
      ((Point.start W).merged direct g)
    rw [← hform.entry_enter] at hf
    rw [← hform.entry_heads] at hseeds
    have hplain : ∀ cell ∈ (seg Graph.entry).heads, cell.IsPlain := by
      intro cell hcell
      rw [hform.entry_heads] at hcell
      rcases op_of_mem_seedCells hcell with ⟨index, hop⟩ | ⟨slot, hop⟩ <;>
        simp [Cell.IsPlain, hop, Op.isMerge, Op.isControl]
    rw [show (Point.start W).block = Graph.entry from rfl, hblock]
    simp only [Exec.need_some, pure_bind, hform.runNodes_eq hblock, Segment.cells, List.append_assoc,
      runCells_of_isPlain hplain, hseeds]
    exact hform.leave_block h.laid h.contiguous hwide hblock h.laid.addr_entry.symm hf _
  | @edge b t s ρ ht hat hf =>
    have hb := hform.linked.mem_succs_iff.1 ht
    obtain ⟨block, hblock⟩ := Graph.hasBlock_iff.1 (hform.linked.hasBlock_target ht)
    obtain ⟨source, hsource⟩ := Graph.hasBlock_iff.1 (hform.linked.hasBlock_source ht)
    rw [Graph.exitOf, hsource, Option.map_some, Option.getD_some, hform.exit_eq hsource] at hf
    have hmerges : ∀ cell ∈ (seg t).heads, cell.2.isMerge = true := by
      intro cell hcell
      obtain ⟨j, hj⟩ := List.mem_iff_getElem?.1 hcell
      obtain ⟨type, slot, args, rfl, -⟩ := hform.heads (hform.linked.hasBlock_target ht) (hform.ne_entry hb) hj
      rfl
    simp only [hblock, Exec.need_some, pure_bind, hform.runNodes_eq hblock, Segment.cells, List.append_assoc,
      runCells_of_isMerge hmerges]
    exact hform.leave_block h.laid h.contiguous hwide hblock (h.laid.addr_eq hat).symm
      (hform.handover_holds hloss hb hf) _

/-! ## Whole runs -/

/-- Without redirections operands are looked up as they are. -/
theorem read_of_aliases_empty (h : g.aliases = ∅) : (g.read : Reader W) = direct := by
  have hresolve : ∀ id, g.resolve id = id := by
    intro id
    simp [Graph.resolve, h, Graph.resolveWith]
  funext ρ id
  simp [Graph.read, hresolve, direct]

/-- A method runs on its nodes as it runs on its instructions. In every world and for all inputs, after any number of
blocks the two runs have done the same to their surroundings and ended in the same way, or they are about to enter the
same block with the same values in all slots; neither is ever stuck. A wide prefix has to stand before a form that has
one, and sixteen bits have to number the bytes and the slots of the method. -/
theorem nodes_run_like_instructions {table : OperandTable} {pool : ConstantPool} {m : Method} {type : MethodType}
    {code : List Instruction} {laid analysed : Graph} {flow : FlowSummary} {stats : Statistics} {w : Work}
    (hdecode : Instruction.decode table m.code = .ok code) (hwide : ∀ i ∈ code, i.WideFits)
    (hlayout : Graph.ofInstructions code = .ok laid) (hflow : laid.analyze = .ok (flow, analysed))
    (hbuild : build pool m { graph := analysed, stats } = .ok () w)
    (htype : MethodType.ofDescriptor m.descriptor = .ok type) (hbounded : Bounded m type)
    (W : World) (inputs : Inputs W.Value) (n : Nat) :
    let first := StackCode.start inputs (Context.mk pool m.isStatic type).formals (Ssa.frameSize m type)
    let g := patched w.graph
    Exec.Agree (Abreast first g) (StackCode.runBlocks W pool code g first n) (run W g.read g inputs n) := by
  obtain ⟨type', addr, seg, htype', h⟩ := prepared_patched hdecode hlayout hflow hbuild
  obtain rfl := Except.ok.inj (htype.symm.trans htype')
  intro first g
  rw [read_of_aliases_empty h.aliases_eq]
  have hloss := h.lossless hdecode hbounded
  exact .iterate (fun q p hr => h.step_agrees (hbounded.fits h.ne_void) hloss hwide hr) n .start

/-- The loop of `sumTo` runs on its nodes as it runs on its instructions. -/
theorem sumTo_nodes_run_like_instructions :
    ∃ (st : Stages) (c : Compiled) (type : MethodType), st.Succeed .standard .empty sumTo "Sum_upTo" c ∧
      (∀ i ∈ st.code, i.WideFits) ∧ MethodType.ofDescriptor sumTo.descriptor = .ok type ∧ Bounded sumTo type ∧
      ∀ (W : World) (inputs : Inputs W.Value) (n : Nat),
        let first := StackCode.start inputs (Context.mk .empty sumTo.isStatic type).formals (Ssa.frameSize sumTo type)
        let g := patched st.built.graph
        Exec.Agree (Abreast first g) (StackCode.runBlocks W .empty st.code g first n) (run W g.read g inputs n) := by
  obtain ⟨c, s, hcompile⟩ := exists_of_compiles compiles_sumTo
  obtain ⟨st, hst⟩ := compile_eq_ok hcompile
  obtain ⟨type, -, htype, -⟩ := build_eq_ok hst.build
  have hwide := wideFits_sumTo hst.decode
  have hbounded := bounded_sumTo htype
  exact ⟨st, c, type, hst, hwide, htype, hbounded,
    nodes_run_like_instructions hst.decode hwide hst.layout hst.analyze hst.build htype hbounded⟩

end Destack.Ssa
