import Destack.Proofs.Ssa.Blocks
import Destack.Proofs.Ssa.Prepared
import Destack.Proofs.Ssa.Simulation

/-!
# Runs of nodes are not stuck

In every run each operand has a value when it is looked up, and each block comes to a node that ends the run or leads
to a successor. Operands of the nodes made from instructions are in the frame or were just made
(`TranslatesAll.fed`), and every edge hands the values of the frame over, so a run is never stuck
(`Prepared.step_safe`).
-/

namespace Destack

/-- An instruction leaves in the way of its action, or a wide prefix stands before it. -/
theorem Instruction.category_other_or {action : Action} (i : Instruction) (h : i.action? = some action) :
    i.category = .other ∨ i.category = action.category := by
  obtain ⟨effect, heffect, rfl⟩ := Option.map_eq_some_iff.1 h
  rw [category_act]
  cases hw : i.isWide with
  | false =>
    simp only [effectiveOpcode, hw] at heffect
    exact Or.inr (Opcode.category_of_effect? heffect)
  | true =>
    left
    rw [category, isWide_iff.1 hw]
    exact Opcode.category_wide

namespace Ssa

/-! ## Nodes that have values -/

/-- Whether a node of a type has a value for others to use: effects and control have none, nor has a call of type
void. -/
def Op.yields (type : ValueType) : Op → Bool
  | putStatic .. | arrayStore .. | branch .. | goto .. | switch .. | ret .. | raise .. => false
  | call .. => type != .void
  | _ => true

theorem Op.yields_of_isControl {type : ValueType} {op : Op} (h : op.isControl = true) : op.yields type = false := by
  cases op <;> first | rfl | cases h

theorem Op.yields_call (type : MethodType) (kind : CallKind) (method : Member) (args : List NodeId) :
    (Op.call kind method args).yields type.result.onStack = type.returnsValue := by
  unfold Op.yields MethodType.returnsValue
  cases type.result <;> rfl

/-- The nodes that have values after cells numbered from a number on, given those before. -/
def known : List NodeId → NodeId → List Cell → List NodeId
  | ids, _, [] => ids
  | ids, n, cell :: cells => known (if cell.2.yields cell.1 then n :: ids else ids) (n + 1) cells

/-- Cells numbered from a number on whose operands have values when they run, given those before. -/
def Fed : List NodeId → NodeId → List Cell → Prop
  | _, _, [] => True
  | ids, n, cell :: cells =>
    (∀ o ∈ cell.2.operands, o ∈ ids) ∧ Fed (if cell.2.yields cell.1 then n :: ids else ids) (n + 1) cells

section Known

variable {ids ids' : List NodeId} {n : NodeId} {cells cells' : List Cell}

theorem mem_ite_cons {p : Prop} [Decidable p] {id : NodeId} (h : id ∈ ids) : id ∈ if p then n :: ids else ids := by
  split
  · exact List.mem_cons_of_mem _ h
  · exact h

theorem known_append (ids : List NodeId) (n : NodeId) (cells cells' : List Cell) :
    known ids n (cells ++ cells') = known (known ids n cells) (n + cells.length) cells' := by
  induction cells generalizing ids n with
  | nil => rfl
  | cons cell cells ih => rw [List.cons_append, known, known, ih, List.length_cons, Nat.add_assoc, Nat.add_comm 1]

theorem subset_known (ids : List NodeId) (n : NodeId) (cells : List Cell) : ids ⊆ known ids n cells := by
  induction cells generalizing ids n with
  | nil => exact List.Subset.refl ids
  | cons cell cells ih => exact List.Subset.trans (fun id hid => mem_ite_cons hid) (ih _ _)

theorem known_mono (h : ids ⊆ ids') (n : NodeId) (cells : List Cell) : known ids n cells ⊆ known ids' n cells := by
  induction cells generalizing ids ids' n with
  | nil => exact h
  | cons cell cells ih =>
    refine ih ?_ _
    split
    · exact List.cons_subset_cons _ h
    · exact h

theorem Fed.mono (h : Fed ids n cells) (hsub : ids ⊆ ids') : Fed ids' n cells := by
  induction cells generalizing ids ids' n with
  | nil => trivial
  | cons cell cells ih =>
    refine ⟨fun o ho => hsub (h.1 o ho), ih h.2 ?_⟩
    split
    · exact List.cons_subset_cons _ hsub
    · exact hsub

theorem Fed.append (h : Fed ids n cells) (h' : Fed (known ids n cells) (n + cells.length) cells') :
    Fed ids n (cells ++ cells') := by
  induction cells generalizing ids n with
  | nil => exact h'
  | cons cell cells ih =>
    refine ⟨h.1, ih h.2 ?_⟩
    rwa [List.length_cons, Nat.add_comm cells.length, ← Nat.add_assoc] at h'

variable {c : Context} {at? : Int → Option BlockId} {i : Instruction} {is : List Instruction} {action : Action}
  {f f' : Frame} {ns : List Cell}

theorem Translates.fed (h : Translates c at? i n action f ns f') : Fed f.ids n ns := by
  cases h with
  | increment hslot =>
    have hmem := Array.mem_of_getElem? hslot
    simp [Fed, Op.operands, Op.yields, Frame.ids, hmem]
  | call hmethod htype hcount hle =>
    refine ⟨fun o ho => List.mem_append_right _ ?_, trivial⟩
    simp only [Op.operands, List.mem_reverse] at ho
    exact List.mem_of_mem_take ho
  | _ => simp [Fed, elementCells, Op.operands, Op.yields, Frame.ids]

/-- What is in the frame after an instruction has a value. -/
theorem Translates.ids_subset (h : Translates c at? i n action f ns f') : f'.ids ⊆ known f.ids n ns := by
  intro id hid
  cases h with
  | load hslot =>
    rcases List.mem_append.1 hid with hid | hid
    · exact List.mem_append_left _ hid
    · rcases List.mem_cons.1 hid with rfl | hid
      · exact Frame.mem_ids_iff.2 ⟨.localVar _, hslot⟩
      · exact List.mem_append_right _ hid
  | store hslot =>
    rcases mem_ids_setIfInBounds hid with hid | rfl
    · simp only [known, Frame.ids, List.mem_append, List.mem_cons] at hid ⊢
      tauto
    · simp [known, Frame.ids]
  | increment hslot =>
    rcases mem_ids_setIfInBounds hid with hid | rfl
    · exact subset_known _ _ _ hid
    · simp [known, Op.yields]
  | call hmethod htype hcount hle =>
    rw [known, known, Op.yields_call]
    rcases List.mem_append.1 hid with hid | hid
    · exact mem_ite_cons (List.mem_append_left _ hid)
    · split at hid
      · next hreturns =>
        rw [if_pos hreturns]
        rcases List.mem_cons.1 hid with rfl | hid
        · exact List.mem_cons_self
        · exact List.mem_cons_of_mem _ (List.mem_append_right _ (List.mem_of_mem_drop hid))
      · exact mem_ite_cons (List.mem_append_right _ (List.mem_of_mem_drop hid))
  | _ =>
    simp only [known, Op.yields, Bool.false_eq_true, if_false, if_true, Frame.ids, push, List.mem_append,
      List.mem_cons, elementCells, List.cons_append, List.nil_append] at hid ⊢
    grind

theorem TranslatesAll.fed (h : TranslatesAll c at? n is f ns f') : Fed f.ids n ns ∧ f'.ids ⊆ known f.ids n ns := by
  induction h with
  | nil => exact ⟨trivial, List.Subset.refl _⟩
  | cons _ htrans _ ih =>
    refine ⟨htrans.fed.append (ih.1.mono htrans.ids_subset), ?_⟩
    rw [known_append]
    exact List.Subset.trans ih.2 (known_mono htrans.ids_subset _ _)

end Known

/-! ## Cells that lead on -/

/-- There is a control cell, and if the first one leads to another block, it is the last cell. -/
def Leads : List Cell → Prop
  | [] => False
  | cell :: cells => if cell.2.isControl then cell.2.targets ≠ [] → cells = [] else Leads cells

theorem leads_append {cells rest : List Cell} (h : ∀ cell ∈ cells, cell.2.isControl = false) :
    Leads (cells ++ rest) ↔ Leads rest := by
  induction cells with
  | nil => rfl
  | cons cell cells ih =>
    rw [List.cons_append, Leads, if_neg (by simp [h cell]), ih fun cell hcell => h cell (List.mem_cons_of_mem _ hcell)]

section Leads

variable {c : Context} {at? : Int → Option BlockId} {i : Instruction} {is : List Instruction} {n : NodeId}
  {action : Action} {f f' : Frame} {ns tail : List Cell}

/-- An instruction that transfers control ends with a control cell. -/
theorem Translates.exists_control (h : Translates c at? i n action f ns f') (hother : action.category ≠ .other) :
    ∃ front cell, ns = front ++ [cell] ∧ (∀ cell ∈ front, cell.2.isControl = false) ∧ cell.2.isControl = true := by
  cases h with
  | branchZero | branchNull => exact ⟨[_], _, rfl, by simp [Op.isControl], rfl⟩
  | branchPair | jump | switch | returnValue | returnVoid | raise => exact ⟨[], _, rfl, by simp, rfl⟩
  | _ => exact absurd rfl hother

/-- The cells of a block and the jump at its end come to a control cell. -/
theorem TranslatesAll.leads (h : TranslatesAll c at? n is f ns f')
    (hinner : ∀ i ∈ is.dropLast, i.category = .other)
    (hfall : (∀ last, is.getLast? = some last → last.category = .other) → ∃ t, tail = [(.void, .goto t)])
    (hclose : ∀ last, is.getLast? = some last → last.category ≠ .other → tail = []) : Leads (ns ++ tail) := by
  induction h with
  | nil =>
    obtain ⟨t, rfl⟩ := hfall fun last hlast => by cases hlast
    simp [Leads, Op.isControl]
  | @cons n i is action f f₁ f' ns ns' haction htrans hrest ih =>
    rw [List.append_assoc]
    have hlast : ∀ {last}, is.getLast? = some last → (i :: is).getLast? = some last := by
      intro last hlast
      rw [List.getLast?_cons, hlast]
      rfl
    by_cases hother : action.category = .other
    · have hcat : i.category = .other := (i.category_other_or haction).elim id (·.trans hother)
      rw [leads_append fun cell hcell => (isPlain_of_translates htrans hother cell hcell).2]
      apply ih
      · intro k hk
        cases is with
        | nil => cases hk
        | cons k' is => exact hinner k (List.mem_cons_of_mem _ hk)
      · intro hothers
        refine hfall fun last hl => ?_
        rw [List.getLast?_cons] at hl
        cases hend : is.getLast? with
        | none =>
          rw [hend] at hl
          exact Option.some.inj hl ▸ hcat
        | some last' =>
          rw [hend] at hl
          exact Option.some.inj hl ▸ hothers last' hend
      · exact fun last hl => hclose last (hlast hl)
    · obtain ⟨front, cell, rfl, hfront, hcontrol⟩ := htrans.exists_control hother
      rw [List.append_assoc, leads_append hfront, List.singleton_append, Leads, if_pos hcontrol]
      intro htargets
      -- Only the last instruction leads to another block.
      obtain ⟨t, ht⟩ := List.exists_mem_of_ne_nil _ htargets
      have hcat := (htrans.leadsTo haction (by simp) ht).category_ne
      cases is with
      | nil =>
        cases hrest
        exact hclose i rfl hcat
      | cons k is => exact absurd (hinner i (by simp)) hcat

end Leads

/-! ## Single nodes -/

section Nodes

variable {W : World} {inputs : Inputs W.Value} {get : NodeId → Option W.Value} {op : Op}

theorem mapM_isSome {α β : Type} {f : α → Option β} {xs : List α} (h : ∀ x ∈ xs, (f x).isSome = true) :
    (xs.mapM f).isSome = true := by
  induction xs with
  | nil => rfl
  | cons x xs ih =>
    obtain ⟨y, hy⟩ := Option.isSome_iff_exists.1 (h x List.mem_cons_self)
    obtain ⟨ys, hys⟩ := Option.isSome_iff_exists.1 (ih fun k hk => h k (List.mem_cons_of_mem _ hk))
    simp [List.mapM_cons, hy, hys]

/-- A node whose operands have values is not stuck. -/
theorem eval_safe (hget : ∀ o ∈ op.operands, (get o).isSome = true) (hmerge : op.isMerge = false)
    (hcontrol : op.isControl = false) : Exec.Safe (fun _ => True) (eval W inputs get op) := by
  cases op with
  | arith op opcode lhs rhs =>
    refine .bind (.need (hget lhs (by simp [Op.operands]))) fun l _ => ?_
    refine .bind (.need (hget rhs (by simp [Op.operands]))) fun r _ => ?_
    exact .arith op l r
  | negate value => exact .bind (.need (hget value (by simp [Op.operands]))) fun v _ => .pure trivial
  | getStatic field => exact .ask _
  | putStatic field value => exact .bind (.need (hget value (by simp [Op.operands]))) fun v _ => .ask _
  | call kind method args => exact .bind (.need (mapM_isSome hget)) fun vs _ => .ask _
  | arrayLoad base offset =>
    refine .bind (.need (hget base (by simp [Op.operands]))) fun b _ => ?_
    exact .bind (.need (hget offset (by simp [Op.operands]))) fun o _ => .ask _
  | arrayStore base offset value =>
    refine .bind (.need (hget base (by simp [Op.operands]))) fun b _ => ?_
    refine .bind (.need (hget offset (by simp [Op.operands]))) fun o _ => ?_
    exact .bind (.need (hget value (by simp [Op.operands]))) fun v _ => .ask _
  | param | undefined | intConst | nullConst | stringConst => exact .pure trivial
  | branch | goto | switch | ret | raise => cases hcontrol
  | merge => cases hmerge

/-- A control node whose operands have values ends the run or leads to one of its targets. -/
theorem follow_safe (hget : ∀ o ∈ op.operands, (get o).isSome = true) (hcontrol : op.isControl = true) :
    Exec.Safe (fun _ => op.targets ≠ []) (follow W get op) := by
  cases op with
  | branch condition lhs rhs taken fallthrough =>
    refine .bind (.need (hget lhs (by simp [Op.operands]))) fun l _ => ?_
    exact .bind (.need (hget rhs (by simp [Op.operands]))) fun r _ => .pure (by simp [Op.targets])
  | goto target => exact .pure (by simp [Op.targets])
  | switch value default cases =>
    exact .bind (.need (hget value (by simp [Op.operands]))) fun v _ => .pure (by simp [Op.targets])
  | ret value =>
    cases value with
    | none => exact .throw (by simp)
    | some value => exact .bind (.need (hget value (by simp [Op.operands]))) fun v _ => .throw (by simp)
  | raise value => exact .bind (.need (hget value (by simp [Op.operands]))) fun v _ => .throw (by simp)
  | _ => cases hcontrol

/-- Cells that are fed and come to a control cell are not stuck. -/
theorem runCells_safe {ids : List NodeId} {n : NodeId} {cells : List Cell} {ρ : Env W} (hfed : Fed ids n cells)
    (hleads : Leads cells) (hmerge : ∀ cell ∈ cells, cell.2.isMerge = false)
    (hρ : ∀ id ∈ ids, (ρ id).isSome = true) :
    Exec.Safe (fun r => ∀ id ∈ known ids n cells, (r.1 id).isSome = true) (runCells W direct inputs n cells ρ) := by
  induction cells generalizing ids n ρ with
  | nil => exact hleads.elim
  | cons cell cells ih =>
    have hget : ∀ o ∈ cell.2.operands, (direct ρ o).isSome = true := fun o ho => hρ o (hfed.1 o ho)
    rw [runCells, hmerge cell List.mem_cons_self]
    rw [Leads] at hleads
    rw [known]
    cases hcontrol : cell.2.isControl with
    | true =>
      rw [hcontrol] at hleads
      refine .bind (follow_safe hget hcontrol) fun t ht => .pure ?_
      rw [Op.yields_of_isControl hcontrol, hleads ht]
      exact hρ
    | false =>
      rw [hcontrol] at hleads
      refine .bind (eval_safe hget (hmerge cell List.mem_cons_self) hcontrol) fun v _ => ?_
      refine ih hfed.2 hleads (fun cell hcell => hmerge cell (List.mem_cons_of_mem _ hcell)) fun id hid => ?_
      by_cases he : id = n
      · rw [he, Env.set_self]
        rfl
      · rw [Env.set_of_ne _ _ he]
        apply hρ
        split at hid
        · exact (List.mem_cons.1 hid).resolve_left he
        · exact hid

end Nodes

/-! ## Blocks -/

/-- Runs the nodes of a block whose merges have their values. -/
def runBlock (W : World) (read : Reader W) (g : Graph) (inputs : Inputs W.Value) (b : BlockId) (ρ : Env W) :
    Exec W (Env W × BlockId) := do
  let block ← Exec.need (g.block? b)
  runNodes W read g inputs block.nodes.toList ρ

theorem step_eq_runBlock {W : World} (read : Reader W) (g : Graph) (inputs : Inputs W.Value) (p : Point W) :
    step W read g inputs p = (do
      let (ρ, next) ← runBlock W read g inputs p.block (p.merged read g)
      return ⟨some p.block, next, ρ⟩) := by
  simp only [step, runBlock, bind_assoc]

namespace Form

variable {c : Context} {frameSize : Nat} {g : Graph} {seg : BlockId → Segment} {code : List Instruction}
  {addr : BlockId → Nat} {b t : BlockId} {W : World} {read : Reader W} {inputs : Inputs W.Value} {ρ : Env W}

theorem leads (h : Form c frameSize g seg) (hlaid : g.Laid code addr) (hb : g.hasBlock b = true) :
    Leads ((seg b).body ++ (seg b).tail) := by
  obtain ⟨block, hblock⟩ := Graph.hasBlock_iff.1 hb
  have hbody := h.body hb
  have htail := h.tail_eq hb
  rw [tailOf, Graph.instructionsOf_eq hblock, Graph.succs_eq hblock] at htail
  rw [Graph.instructionsOf_eq hblock] at hbody
  apply hbody.leads (hlaid.category_inner hblock)
  · intro hlast
    obtain ⟨t, hsuccs, -⟩ := hlaid.falls hblock hlast
    refine ⟨t, htail.trans ?_⟩
    cases hl : block.instructions.getLast? with
    | none => simp [hsuccs]
    | some last => simp [hsuccs, hlast last hl, Category.endsBlock]
  · intro last hlast hother
    rw [htail, hlast]
    cases hcat : last.category with
    | other => exact absurd hcat hother
    | _ => simp [hcat, Category.endsBlock]

theorem isMerge_rest (h : Form c frameSize g seg) (hb : g.hasBlock b = true) :
    ∀ cell ∈ (seg b).body ++ (seg b).tail, cell.2.isMerge = false := by
  intro cell hcell
  rcases List.mem_append.1 hcell with hcell | hcell
  · exact (h.body hb).isMerge_eq_false cell hcell
  · rw [h.tail_eq hb] at hcell
    obtain ⟨next, -, rfl⟩ := mem_tailOf hcell
    rfl

/-- The cells after those in front are fed by the frame at the start, and then what is in the frame at the end has
values. -/
theorem fed (h : Form c frameSize g seg) (hb : g.hasBlock b = true) :
    Fed (seg b).enter.ids ((seg b).first + (seg b).heads.length) ((seg b).body ++ (seg b).tail) ∧
      (seg b).exit.ids ⊆ known (seg b).enter.ids ((seg b).first + (seg b).heads.length)
        ((seg b).body ++ (seg b).tail) := by
  obtain ⟨hfed, hsub⟩ := (h.body hb).fed
  rw [known_append]
  refine ⟨hfed.append ?_, List.Subset.trans hsub (subset_known _ _ _)⟩
  rw [h.tail_eq hb]
  generalize (seg b).first + (seg b).heads.length + (seg b).body.length = n
  generalize known _ _ (seg b).body = ids
  unfold tailOf
  split
  · trivial
  · split
    · exact ⟨by simp [Op.operands], trivial⟩
    · trivial

/-- The cells in front of the entry block. -/
theorem plain_seeds (h : Form c frameSize g seg) {cell : Cell} (hcell : cell ∈ (seg Graph.entry).heads) :
    cell.IsPlain ∧ cell.2.operands = [] ∧ cell.2.yields cell.1 = true := by
  rw [h.entry_heads] at hcell
  rcases op_of_mem_seedCells hcell with ⟨index, hop⟩ | ⟨slot, hop⟩ <;>
    simp [Cell.IsPlain, hop, Op.isMerge, Op.isControl, Op.operands, Op.yields]

theorem isMerge_entry (h : Form c frameSize g seg) (hentry : g.hasBlock Graph.entry = true) :
    ∀ cell ∈ (seg Graph.entry).cells, cell.2.isMerge = false := by
  intro cell hcell
  rw [Segment.cells, List.append_assoc] at hcell
  rcases List.mem_append.1 hcell with hcell | hcell
  · exact (h.plain_seeds hcell).1.1
  · exact h.isMerge_rest hentry cell hcell

/-- The first block runs all its cells. -/
theorem runBlock_entry (h : Form c frameSize g seg) (hentry : g.hasBlock Graph.entry = true) (ρ : Env W) :
    runBlock W read g inputs Graph.entry ρ =
      runCells W read inputs (seg Graph.entry).first (seg Graph.entry).cells ρ := by
  obtain ⟨block, hblock⟩ := Graph.hasBlock_iff.1 hentry
  rw [runBlock, hblock, Exec.need_some, pure_bind, h.runNodes_eq hblock]

/-- A block entered over an edge runs the cells after its merges. -/
theorem runBlock_of_mem_succs (h : Form c frameSize g seg) (ht : t ∈ g.succs b) (ρ : Env W) :
    runBlock W read g inputs t ρ =
      runCells W read inputs ((seg t).first + (seg t).heads.length) ((seg t).body ++ (seg t).tail) ρ := by
  have hhas := h.linked.hasBlock_target ht
  have hne := h.ne_entry (h.linked.mem_succs_iff.1 ht)
  obtain ⟨block, hblock⟩ := Graph.hasBlock_iff.1 hhas
  have hmerges : ∀ cell ∈ (seg t).heads, cell.2.isMerge = true := by
    intro cell hcell
    obtain ⟨j, hj⟩ := List.mem_iff_getElem?.1 hcell
    obtain ⟨type, slot, args, rfl, -⟩ := h.heads hhas hne hj
    rfl
  rw [runBlock, hblock, Exec.need_some, pure_bind, h.runNodes_eq hblock, Segment.cells, List.append_assoc,
    runCells_of_isMerge hmerges]

end Form

/-! ## Steps from block to block -/

/-- A run is at the start, or it leaves a block for a successor and all nodes in the frame at its end have values. -/
inductive Settled {W : World} (g : Graph) : Point W → Prop where
  | start : Settled g (Point.start W)
  | edge {b t : BlockId} {ρ : Env W} : t ∈ g.succs b → (∀ id ∈ (g.exitOf b).ids, (ρ id).isSome = true) →
    Settled g ⟨some b, t, ρ⟩

section Steps

variable {c : Context} {frameSize : Nat} {g : Graph} {seg : BlockId → Segment} {code : List Instruction}
  {addr : BlockId → Nat} {W : World} {inputs : Inputs W.Value}

/-- An edge hands values over to all nodes of the frame at its end. -/
theorem Form.enter_isSome (h : Form c frameSize g seg) {b t : BlockId} {ρ : Env W} (ht : t ∈ g.succs b)
    (hρ : ∀ id ∈ (g.exitOf b).ids, (ρ id).isSome = true) :
    ∀ id ∈ (seg t).enter.ids, ((Point.mk (some b) t ρ).merged direct g id).isSome = true := by
  intro id hid
  obtain ⟨slot, hslot⟩ := Frame.mem_ids_iff.1 hid
  obtain ⟨a, ha, hmerged⟩ := h.merged_slot (h.linked.mem_succs_iff.1 ht) hslot ρ
  rw [hmerged]
  apply hρ
  rw [h.exitOf_eq (h.linked.hasBlock_source ht)]
  exact Frame.mem_ids_iff.2 ⟨slot, ha⟩

/-- A run of cells of a block that ends with values for all nodes in the frame leads to the next block. -/
theorem Prepared.settled_of_runCells (h : Prepared c frameSize code addr g seg) {b : BlockId}
    (hb : g.hasBlock b = true) {ids : List NodeId} {n : NodeId} {cells : List Cell} {ρ : Env W}
    (hrun : Exec.Safe (fun r => ∀ id ∈ known ids n cells, (r.1 id).isSome = true) (runCells W direct inputs n cells ρ))
    (hcells : cells ⊆ (seg b).cells) (hexit : (seg b).exit.ids ⊆ known ids n cells) :
    Exec.Safe (Settled g) (do
      let (ρ', next) ← runCells W direct inputs n cells ρ
      return ⟨some b, next, ρ'⟩ : Exec W (Point W)) := by
  obtain ⟨block, hblock⟩ := Graph.hasBlock_iff.1 hb
  refine .bind (hrun.and_yields runCells_mem_targets) ?_
  rintro ⟨ρ', next⟩ ⟨hvalues, cell, hcell, ht⟩
  refine .pure (.edge ?_ fun id hid => hvalues id (hexit ?_))
  · rw [Graph.succs_eq hblock]
    exact h.form.target_mem_succs h.laid hblock (hcells hcell) ht
  · rwa [← h.form.exitOf_eq hb]

/-- What the first block is made of. -/
theorem Form.fed_entry (h : Form c frameSize g seg) (hentry : g.hasBlock Graph.entry = true) :
    Fed [] (seg Graph.entry).first (seg Graph.entry).cells ∧
      (seg Graph.entry).exit.ids ⊆ known [] (seg Graph.entry).first (seg Graph.entry).cells := by
  have hseeds : ∀ {cells : List Cell} (ids : List NodeId) (n : NodeId),
      (∀ cell ∈ cells, cell.2.operands = [] ∧ cell.2.yields cell.1 = true) →
      Fed ids n cells ∧ List.range' n cells.length ⊆ known ids n cells := by
    intro cells
    induction cells with
    | nil => exact fun _ _ _ => ⟨trivial, List.nil_subset _⟩
    | cons cell cells ih =>
      intro ids n hseeds
      obtain ⟨hoperands, hyields⟩ := hseeds cell List.mem_cons_self
      obtain ⟨hfed, hsub⟩ := ih (n :: ids) (n + 1) fun cell hcell => hseeds cell (List.mem_cons_of_mem _ hcell)
      simp only [Fed, known, hyields, hoperands, List.length_cons, List.range'_succ, if_true]
      refine ⟨⟨by simp, hfed⟩, List.cons_subset.2 ⟨subset_known _ _ _ List.mem_cons_self, hsub⟩⟩
  obtain ⟨hfed, hsub⟩ := hseeds [] (seg Graph.entry).first fun cell hcell => (h.plain_seeds hcell).2
  have henter : (seg Graph.entry).enter.ids ⊆ known [] (seg Graph.entry).first (seg Graph.entry).heads := by
    rw [h.entry_enter, seedFrame, Frame.ids, List.append_nil, ← h.entry_heads]
    exact hsub
  obtain ⟨hfed', hexit⟩ := h.fed hentry
  rw [Segment.cells, List.append_assoc, known_append]
  exact ⟨hfed.append (hfed'.mono henter), List.Subset.trans hexit (known_mono henter _ _)⟩

/-- From block to block, a run is not stuck. -/
theorem Prepared.step_safe (h : Prepared c frameSize code addr g seg) {p : Point W} (hp : Settled g p) :
    Exec.Safe (Settled g) (step W direct g inputs p) := by
  cases hp with
  | start =>
    rw [step_eq_runBlock, show (Point.start W).block = Graph.entry from rfl, h.form.runBlock_entry h.entry]
    obtain ⟨hfed, hexit⟩ := h.form.fed_entry h.entry
    have hmerge := h.form.isMerge_entry h.entry
    have hleads : Leads (seg Graph.entry).cells := by
      rw [Segment.cells, List.append_assoc, leads_append fun cell hcell => (h.form.plain_seeds hcell).1.2]
      exact h.form.leads h.laid h.entry
    exact h.settled_of_runCells h.entry (runCells_safe hfed hleads hmerge (by simp)) (List.Subset.refl _) hexit
  | @edge b t ρ ht hρ =>
    have hb := h.form.linked.hasBlock_target ht
    rw [step_eq_runBlock, show (Point.mk (some b) t ρ).block = t from rfl, h.form.runBlock_of_mem_succs ht]
    obtain ⟨hfed, hexit⟩ := h.form.fed hb
    have hrun := @runCells_safe W inputs _ _ _ _ hfed (h.form.leads h.laid hb) (h.form.isMerge_rest hb)
      (h.form.enter_isSome ht hρ)
    refine h.settled_of_runCells hb hrun ?_ hexit
    rw [Segment.cells, List.append_assoc]
    exact List.subset_append_right _ _

end Steps

end Ssa

end Destack
