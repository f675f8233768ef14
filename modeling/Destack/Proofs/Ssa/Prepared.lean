import Destack.Proofs.Ssa.Seeds
import Destack.Proofs.Stages

/-!
# From bytes to nodes

The stages before the register code, one after the other: a method is decoded, laid out, analysed and built, and the
arguments of its loop heads are set. What they leave is laid out like the code (`Graph.Laid`) and its nodes are in
form (`Form`). Sixteen bits number the slots of a frame and count its stack. As long as they suffice (`Bounded`) no edge
between blocks drops a slot (`Prepared.lossless`).
-/

namespace Destack

/-- Blocks have no more instructions than the code. -/
theorem Graph.Laid.length_flatMap_le {code : List Instruction} {addr : BlockId → Nat} {g : Graph}
    (h : g.Laid code addr) {bs : List BlockId} (hnodup : bs.Nodup) :
    (bs.flatMap g.instructionsOf).length ≤ code.length := by
  have hblock : ∀ {b i}, i ∈ g.instructionsOf b → ∃ block, g.block? b = some block ∧ i ∈ block.instructions := by
    intro b i hi
    obtain ⟨block, hb⟩ := Graph.hasBlock_iff.1 (Graph.hasBlock_of_mem_instructionsOf hi)
    exact ⟨block, hb, Graph.instructionsOf_eq hb ▸ hi⟩
  have haddress : ((bs.flatMap g.instructionsOf).map (·.address)).Nodup := by
    rw [List.map_flatMap, List.nodup_flatMap]
    refine ⟨fun b _ => ?_, hnodup.imp fun {b b'} hne => ?_⟩
    · cases hb : g.block? b with
      | none => simp [Graph.instructionsOf, hb]
      | some block =>
        have hlt := (h.contiguous hb).pairwise_lt
        rw [List.pairwise_map] at hlt
        rw [Graph.instructionsOf_eq hb, List.Nodup, List.pairwise_map]
        exact hlt.imp Nat.ne_of_lt
    · intro a ha ha'
      obtain ⟨i, hi, rfl⟩ := List.mem_map.1 ha
      obtain ⟨j, hj, hij⟩ := List.mem_map.1 ha'
      obtain ⟨block, hb, hi⟩ := hblock hi
      obtain ⟨block', hb', hj⟩ := hblock hj
      exact hne (h.eq_of_address hb hb' i hi j hj hij.symm)
  have hsub : (bs.flatMap g.instructionsOf).map (·.address) ⊆ code.map (·.address) := by
    intro a ha
    obtain ⟨i, hi, rfl⟩ := List.mem_map.1 ha
    obtain ⟨b, -, hi⟩ := List.mem_flatMap.1 hi
    obtain ⟨block, hb, hi⟩ := hblock hi
    exact List.mem_map.2 ⟨i.unmarked, h.mem_code hb i hi, rfl⟩
  simpa using (List.subperm_of_subset haddress hsub).length_le

namespace Ssa

variable {table : OperandTable} {pool : ConstantPool} {m : Method} {code : List Instruction} {laid analysed : Graph}
  {flow : FlowSummary} {stats : Statistics} {w : Work}

/-- What the nodes of a method rest on when the merges of its loop heads are patched. -/
structure Prepared (c : Context) (frameSize : Nat) (code : List Instruction) (addr : BlockId → Nat) (g : Graph)
    (seg : BlockId → Segment) : Prop where
  contiguous : Contiguous 0 code
  laid : g.Laid code addr
  form : Form c frameSize g seg
  entry : g.hasBlock Graph.entry = true
  ne_void : ∀ type ∈ c.formals, type ≠ .void
  aliases_eq : g.aliases = ∅
  instrs_eq : g.instrs = #[]
  registers_eq : g.registers = 0
  code_eq : ∀ {b : BlockId} {block : Block}, g.block? b = some block → block.code = #[]

theorem ne_void_formals {text : String} {type : MethodType} (h : MethodType.ofDescriptor text = .ok type)
    (pool : ConstantPool) (isStatic : Bool) : ∀ formal ∈ (Context.mk pool isStatic type).formals, formal ≠ .void := by
  have hparams := ne_void_of_ofDescriptor h
  cases isStatic with
  | true => exact hparams
  | false =>
    intro formal hformal
    rcases List.mem_cons.1 hformal with rfl | hformal
    · simp
    · exact hparams formal hformal

/-- Sixteen bits number the bytes of a method and the slots of its frame. -/
structure Bounded (m : Method) (type : MethodType) : Prop where
  code : m.code.length < 65536
  frame : max m.maxLocals ((type.params.map (·.slots)).sum + if m.isStatic then 0 else 1) < 65536

instance (m : Method) (type : MethodType) : Decidable (Bounded m type) :=
  decidable_of_iff
    (m.code.length < 65536 ∧ max m.maxLocals ((type.params.map (·.slots)).sum + if m.isStatic then 0 else 1) < 65536)
    ⟨fun h => ⟨h.1, h.2⟩, fun h => ⟨h.code, h.frame⟩⟩

theorem paramSlots_eq (type : MethodType) : type.paramSlots = low16 (type.params.map (·.slots)).sum := by
  rw [MethodType.paramSlots, List.sum_eq_foldr]

/-- The slots that are counted are all slots of the frame, if they are few enough. -/
theorem frameSize_eq {type : MethodType} (h : (type.params.map (·.slots)).sum < 65536) :
    frameSize m type = max m.maxLocals ((type.params.map (·.slots)).sum + if m.isStatic then 0 else 1) := by
  rw [frameSize, paramSlots_eq, low16_of_lt h]

theorem Bounded.frameSize_eq {type : MethodType} (h : Bounded m type) :
    frameSize m type = max m.maxLocals ((type.params.map (·.slots)).sum + if m.isStatic then 0 else 1) :=
  Ssa.frameSize_eq (Nat.lt_of_le_of_lt ((Nat.le_add_right _ _).trans (Nat.le_max_right _ _)) h.frame)

/-- The frame has room for the parameters. -/
theorem Bounded.fits {type : MethodType} (h : Bounded m type)
    (hvoid : ∀ formal ∈ (Context.mk pool m.isStatic type).formals, formal ≠ .void) :
    Fits (Context.mk pool m.isStatic type).formals (frameSize m type) := by
  refine ⟨?_, h.frameSize_eq ▸ h.frame⟩
  have hlength := length_paramCells hvoid 0 0
  have hsum : ((Context.mk pool m.isStatic type).formals.map (·.slots)).sum ≤ frameSize m type := by
    rw [h.frameSize_eq, Context.formals]
    refine le_trans (Nat.le_of_eq ?_) (Nat.le_max_right _ _)
    cases m.isStatic with
    | true => rfl
    | false => exact Nat.add_comm _ _
  unfold seedCells undefinedCells
  simp only [List.length_append, List.length_map, List.length_range', hlength]
  omega

/-- Nothing is dropped on the edges of a method whose slots and bytes sixteen bits number. -/
theorem Prepared.lossless {type : MethodType} {addr : BlockId → Nat} {g : Graph} {seg : BlockId → Segment}
    (h : Prepared ⟨pool, m.isStatic, type⟩ (frameSize m type) code addr g seg)
    (hdecode : Instruction.decode table m.code = .ok code) (hbounded : Bounded m type) :
    Lossless (frameSize m type) g seg := by
  refine h.form.lossless (hbounded.fits h.ne_void) ?_
  calc (g.order.flatMap g.instructionsOf).length
    _ ≤ code.length := h.laid.length_flatMap_le h.form.nodup_order
    _ ≤ m.code.length := Instruction.length_decode_le hdecode
    _ < 65536 := hbounded.code

theorem build_eq_ok {w w' : Work} (h : build pool m w = .ok () w') :
    ∃ type s, MethodType.ofDescriptor m.descriptor = .ok type ∧
      BuildM.blocks ⟨pool, m.isStatic, type⟩ (frameSize m type) { graph := w.graph, stats := w.stats } = .ok () s ∧
      w'.graph = s.graph := by
  obtain ⟨type, _, hlift, h⟩ := Pass.bind_eq_ok.1 h
  obtain ⟨htype, rfl⟩ := Pass.lift_eq_ok.1 hlift
  obtain ⟨⟨_, s⟩, h⟩ := Pass.discard_eq_ok.1 h
  obtain ⟨hblocks, rfl⟩ := Pass.focus_eq_ok.1 h
  exact ⟨type, s, htype, hblocks, rfl⟩

/-- Building over the analysed graph of decoded code makes a construction of all its blocks. -/
theorem result_of_build (hdecode : Instruction.decode table m.code = .ok code)
    (hlayout : Graph.ofInstructions code = .ok laid) (hflow : laid.analyze = .ok (flow, analysed))
    (hbuild : build pool m { graph := analysed, stats } = .ok () w) :
    ∃ type addr seg, MethodType.ofDescriptor m.descriptor = .ok type ∧ analysed.Laid code addr ∧ analysed.Fresh ∧
      analysed.validate = .ok () ∧ Result ⟨pool, m.isStatic, type⟩ (frameSize m type) analysed w.graph seg := by
  obtain ⟨type, s, htype, hblocks, hw⟩ := build_eq_ok hbuild
  have hvalid := validate_of_blocks_ok hblocks
  obtain ⟨⟨addr, hlaid⟩, hfresh⟩ := Graph.laid_ofInstructions (Instruction.decode_contiguous hdecode) hlayout
  replace hlaid := Graph.laid_analyze hlaid hflow hvalid
  replace hfresh := Graph.fresh_analyze hfresh hflow
  obtain ⟨seg, hresult⟩ := blocks_ok hlaid.linked hfresh hlaid.entry_not_mem hblocks
  rw [← hw] at hresult
  exact ⟨type, addr, seg, htype, hlaid, hfresh, hvalid, hresult⟩

/-- The construction of all blocks of a decoded method leaves nodes in form, once patched. -/
theorem prepared_of_result {type : MethodType} {addr : BlockId → Nat} {g : Graph} {seg : BlockId → Segment}
    (hdecode : Instruction.decode table m.code = .ok code) (htype : MethodType.ofDescriptor m.descriptor = .ok type)
    (hlaid : analysed.Laid code addr) (hfresh : analysed.Fresh) (hvalid : analysed.validate = .ok ())
    (hresult : Result ⟨pool, m.isStatic, type⟩ (frameSize m type) analysed g seg) :
    Prepared ⟨pool, m.isStatic, type⟩ (frameSize m type) code addr (patched g) fun b => patchSegment g b (seg b) := by
  have hlaid' := hlaid.of_keeps hresult.keeps hresult.starts_eq
  have hvoid := ne_void_formals htype pool m.isStatic
  have hentry : g.hasBlock Graph.entry = true := by
    rw [hresult.keeps.hasBlock_eq]
    exact Graph.hasBlock_entry_of_validate hvalid
  have hpatched := patched_eq g
  refine ⟨Instruction.decode_contiguous hdecode, ?_,
    form_patched hresult hlaid'.linked hlaid'.entry_not_mem hentry, ?_, hvoid, ?_, ?_, ?_, ?_⟩
  · refine hlaid'.of_keeps (fun b => ?_) ?_
    · rw [block?_patched]
    · exact (congrArg Graph.starts hpatched).trans rfl
  · rw [Graph.hasBlock_iff]
    simpa only [block?_patched] using Graph.hasBlock_iff.1 hentry
  · exact ((congrArg Graph.aliases hpatched).trans hresult.aliases_eq).trans hfresh.aliases_eq
  · exact ((congrArg Graph.instrs hpatched).trans hresult.instrs_eq).trans hfresh.instrs_eq
  · exact ((congrArg Graph.registers hpatched).trans hresult.registers_eq).trans hfresh.registers_eq
  · intro b block hb
    rw [block?_patched] at hb
    exact hresult.code_eq hb

/-- A method that was decoded, laid out, analysed and built has nodes in form. -/
theorem prepared_patched (hdecode : Instruction.decode table m.code = .ok code)
    (hlayout : Graph.ofInstructions code = .ok laid) (hflow : laid.analyze = .ok (flow, analysed))
    (hbuild : build pool m { graph := analysed, stats } = .ok () w) :
    ∃ type addr seg, MethodType.ofDescriptor m.descriptor = .ok type ∧
      Prepared ⟨pool, m.isStatic, type⟩ (frameSize m type) code addr (patched w.graph) seg := by
  obtain ⟨type, addr, seg, htype, hlaid, hfresh, hvalid, hresult⟩ := result_of_build hdecode hlayout hflow hbuild
  exact ⟨type, addr, _, htype, prepared_of_result hdecode htype hlaid hfresh hvalid hresult⟩

/-! ## The loop of a sum -/

theorem wideFits_sumTo (h : Instruction.decode .standard sumTo.code = .ok code) : ∀ i ∈ code, i.WideFits := by
  have hall : (Instruction.decode .standard sumTo.code).toOption.all
      (fun code => decide (∀ i ∈ code, i.WideFits)) = true := by decide +kernel
  rw [h] at hall
  exact of_decide_eq_true hall

theorem bounded_sumTo {type : MethodType} (h : MethodType.ofDescriptor sumTo.descriptor = .ok type) :
    Bounded sumTo type := by
  obtain rfl : ⟨[.int], .int⟩ = type := Except.ok.inj ((by decide +kernel :
    MethodType.ofDescriptor sumTo.descriptor = .ok ⟨[.int], .int⟩).symm.trans h)
  decide

end Ssa

end Destack
