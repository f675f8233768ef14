import Destack.Proofs.Opcodes
import Destack.Proofs.Ssa.Cells
import Destack.Proofs.Ssa.Form

/-!
# Running the blocks of a method

A block runs like its cells (`Form.step_eq`), goes on at one of its successors (`Form.target_mem_succs`), and enters
it with the values that the edge hands over (`Form.merged_slot`).
-/

namespace Destack.Ssa

/-! ## Where cells lead -/

section Leads

variable {c : Context} {at? : Int → Option BlockId} {i : Instruction} {n : NodeId} {f f' : Frame} {ns : List Cell}
  {t : BlockId}

/-- A block that an instruction leads to starts at one of its targets or after it. -/
def LeadsTo (at? : Int → Option BlockId) (i : Instruction) (t : BlockId) : Prop :=
  (∃ target ∈ i.jumpTargets, at? target = some t) ∨ (i.category = .conditionalBranch ∧ at? i.next = some t)

theorem LeadsTo.category_ne (h : LeadsTo at? i t) : i.category ≠ .other := by
  intro hother
  rcases h with ⟨target, htarget, -⟩ | ⟨hcat, -⟩
  · have := Instruction.category_of_jumpTargets_ne_nil (List.ne_nil_of_mem htarget)
    simp [hother] at this
  · simp [hother] at hcat

theorem leadsTo_branch {target : Int} {rest : List Int} {taken fallthrough : BlockId}
    (hcat : i.category = .conditionalBranch) (hjump : i.jumpTargets = target :: rest)
    (htaken : at? target = some taken) (hnext : at? i.next = some fallthrough) (ht : t ∈ [taken, fallthrough]) :
    LeadsTo at? i t := by
  rcases List.mem_cons.1 ht with rfl | ht
  · exact Or.inl ⟨target, by rw [hjump]; exact List.mem_cons_self, htaken⟩
  · rw [List.mem_singleton.1 ht]
    exact Or.inr ⟨hcat, hnext⟩

theorem Translates.leadsTo {action : Action} (haction : i.action? = some action)
    (h : Translates c at? i n action f ns f') {cell : Cell} (hcell : cell ∈ ns) (ht : t ∈ cell.2.targets) :
    LeadsTo at? i t := by
  cases h with
  | branchZero hjump htaken hnext =>
    have hcat := Instruction.category_of_action? haction (by rw [hjump]; simp)
    refine leadsTo_branch hcat hjump htaken hnext ?_
    rcases List.mem_pair.1 hcell with rfl | rfl
    · cases ht
    · exact ht
  | branchPair hjump htaken hnext =>
    have hcat := Instruction.category_of_action? haction (by rw [hjump]; simp)
    rw [List.mem_singleton.1 hcell] at ht
    exact leadsTo_branch hcat hjump htaken hnext ht
  | branchNull hjump htaken hnext =>
    have hcat := Instruction.category_of_action? haction (by rw [hjump]; simp)
    refine leadsTo_branch hcat hjump htaken hnext ?_
    rcases List.mem_pair.1 hcell with rfl | rfl
    · cases ht
    · exact ht
  | @jump _ target _ _ hjump htarget =>
    rw [List.mem_singleton.1 hcell] at ht
    rw [List.mem_singleton.1 ht]
    exact Or.inl ⟨target, by rw [hjump]; exact List.mem_cons_self, htarget⟩
  | @switch _ _ _ table _ _ htable hdefault hcases =>
    rw [List.mem_singleton.1 hcell] at ht
    refine Or.inl ?_
    rw [Instruction.jumpTargets_of_switchTable? htable]
    rcases List.mem_cons.1 ht with rfl | ht
    · exact ⟨_, by simp, hdefault⟩
    · obtain ⟨case, hcase, rfl⟩ := List.mem_map.1 ht
      obtain ⟨k, hk, rfl⟩ := List.mem_iff_getElem.1 hcase
      have hk' : k < table.cases.length := hcases.length_eq ▸ hk
      refine ⟨_, List.mem_map_of_mem (List.mem_cons_of_mem _ (List.mem_map_of_mem ?_)), (hcases.get hk' hk).2⟩
      exact List.getElem_mem hk'
  | arrayLoadInt | arrayLoadReference | arrayStore =>
    simp only [elementCells, List.cons_append, List.nil_append, List.mem_cons, List.not_mem_nil, or_false] at hcell
    rcases hcell with rfl | rfl | rfl | rfl | rfl <;> cases ht
  | increment =>
    rcases List.mem_pair.1 hcell with rfl | rfl <;> cases ht
  | nop | load | store | pop | dup | swap => cases hcell
  | _ =>
    rw [List.mem_singleton.1 hcell] at ht
    cases ht

theorem TranslatesAll.leadsTo {is : List Instruction} (h : TranslatesAll c at? n is f ns f') {cell : Cell}
    (hcell : cell ∈ ns) (ht : t ∈ cell.2.targets) : ∃ i ∈ is, LeadsTo at? i t := by
  induction h with
  | nil => cases hcell
  | cons haction htrans _ ih =>
    rcases List.mem_append.1 hcell with hcell | hcell
    · exact ⟨_, List.mem_cons_self, htrans.leadsTo haction hcell ht⟩
    · obtain ⟨i, hi, hleads⟩ := ih hcell
      exact ⟨i, List.mem_cons_of_mem _ hi, hleads⟩

end Leads

/-! ## Blocks in form -/

namespace Form

variable {c : Context} {frameSize : Nat} {g : Graph} {seg : BlockId → Segment} {b t : BlockId} {block : Block}
  {W : World} {read : Reader W} {inputs : Inputs W.Value}

theorem runNodes_eq (h : Form c frameSize g seg) (hb : g.block? b = some block) (ρ : Env W) :
    runNodes W read g inputs block.nodes.toList ρ = runCells W read inputs (seg b).first (seg b).cells ρ := by
  rw [h.listed hb]
  exact runNodes_eq_runCells (fun hk => h.table (Graph.hasBlock_iff.2 ⟨block, hb⟩) hk) ρ

/-- Nothing leads back to the entry. -/
theorem ne_entry (h : Form c frameSize g seg) (hb : b ∈ g.preds t) : t ≠ Graph.entry := by
  rintro rfl
  have hsucc := h.linked.mem_succs_iff.2 hb
  obtain ⟨block, hblock⟩ := Graph.hasBlock_iff.1 (h.linked.hasBlock_source hsucc)
  rw [Graph.succs_eq hblock] at hsucc
  exact h.entry_not_mem hblock hsucc

theorem mem_tailOf {cell : Cell} (h : cell ∈ tailOf g b) : ∃ next ∈ g.succs b, cell = (.void, .goto next) := by
  unfold tailOf at h
  split at h
  · cases h
  · split at h
    · next next rest hsuccs => exact ⟨next, by simp [hsuccs], List.mem_singleton.1 h⟩
    · cases h

/-- A node in front of the others leads nowhere. -/
theorem targets_heads (h : Form c frameSize g seg) (hb : g.block? b = some block) {cell : Cell}
    (hcell : cell ∈ (seg b).heads) : cell.2.targets = [] := by
  by_cases hentry : b = Graph.entry
  · subst hentry
    rw [h.entry_heads] at hcell
    rcases op_of_mem_seedCells hcell with ⟨index, hop⟩ | ⟨slot, hop⟩ <;> rw [hop] <;> rfl
  · obtain ⟨j, hj⟩ := List.mem_iff_getElem?.1 hcell
    obtain ⟨type, slot, args, rfl, -⟩ := h.heads (Graph.hasBlock_iff.2 ⟨block, hb⟩) hentry hj
    rfl

/-- A block leads to its successors only. -/
theorem target_mem_succs {code : List Instruction} {addr : BlockId → Nat} (h : Form c frameSize g seg)
    (hlaid : g.Laid code addr) (hb : g.block? b = some block) {cell : Cell} (hcell : cell ∈ (seg b).cells)
    (ht : t ∈ cell.2.targets) : t ∈ block.succs := by
  have hhas := Graph.hasBlock_iff.2 ⟨block, hb⟩
  rcases List.mem_append.1 hcell with hcell | hcell
  · rcases List.mem_append.1 hcell with hcell | hcell
    · rw [h.targets_heads hb hcell] at ht
      cases ht
    · obtain ⟨i, hi, hleads⟩ := (h.body hhas).leadsTo hcell ht
      rw [Graph.instructionsOf_eq hb] at hi
      -- Control leaves a block at its end only.
      obtain ⟨last, hlast⟩ := Option.ne_none_iff_exists'.1 (mt List.getLast?_eq_none_iff.1 (List.ne_nil_of_mem hi))
      have hilast : i = last := by
        obtain ⟨front, hfront⟩ := List.getLast?_eq_some_iff.1 hlast
        rw [hfront] at hi
        rcases List.mem_append.1 hi with hi | hi
        · exact absurd (hlaid.category_inner hb i (by rwa [hfront, List.dropLast_concat])) hleads.category_ne
        · exact List.mem_singleton.1 hi
      subst hilast
      rcases hleads with ⟨target, hjump, htarget⟩ | ⟨hcat, hnext⟩
      · exact hlaid.jump_target hb hlast target hjump htarget
      · exact hlaid.branch_next hb hlast hcat hnext
  · rw [h.tail_eq hhas] at hcell
    obtain ⟨next, hnext, rfl⟩ := mem_tailOf hcell
    rw [List.mem_singleton.1 ht, ← Graph.succs_eq hb]
    exact hnext

/-- The merges listed in a block are the nodes in front that are merges. -/
theorem mem_mergesOf_iff (h : Form c frameSize g seg) (hb : g.hasBlock b = true) {id : NodeId} :
    id ∈ g.mergesOf b ↔ ∃ j type slot args, id = (seg b).first + j ∧
      (seg b).heads[j]? = some (type, .merge slot args) := by
  obtain ⟨block, hblock⟩ := Graph.hasBlock_iff.1 hb
  have hnodes : nodesOf g b = List.range' (seg b).first (seg b).cells.length := by
    simp [nodesOf, hblock, h.listed hblock]
  rw [mem_mergesOf, hnodes]
  constructor
  · rintro ⟨hid, hmerge⟩
    obtain ⟨j, hj, rfl⟩ := List.mem_range'.1 hid
    rw [Nat.one_mul] at hmerge ⊢
    obtain ⟨cell, hcell⟩ : ∃ cell, (seg b).cells[j]? = some cell := ⟨_, List.getElem?_eq_getElem hj⟩
    rw [isSome_merge?_iff (h.table hb hcell)] at hmerge
    change cell.2.isMerge = true at hmerge
    -- Only the nodes in front are merges.
    have hlt : j < (seg b).heads.length := by
      by_contra hge
      have hmem : cell ∈ (seg b).body ++ (seg b).tail := by
        rw [Segment.cells, List.append_assoc, List.getElem?_append_right (Nat.le_of_not_lt hge)] at hcell
        exact List.mem_of_getElem? hcell
      rcases List.mem_append.1 hmem with hmem | hmem
      · rw [(h.body hb).isMerge_eq_false _ hmem] at hmerge
        cases hmerge
      · rw [h.tail_eq hb] at hmem
        obtain ⟨t, -, rfl⟩ := mem_tailOf hmem
        cases hmerge
    rw [Segment.cells, List.append_assoc, List.getElem?_append_left hlt] at hcell
    obtain ⟨type, op⟩ := cell
    cases op with
    | merge slot args => exact ⟨j, type, slot, args, rfl, hcell⟩
    | _ => cases hmerge
  · rintro ⟨j, type, slot, args, rfl, hj⟩
    have hcell : (seg b).cells[j]? = some (type, .merge slot args) := by
      rw [Segment.cells, List.append_assoc, List.getElem?_append_left (List.getElem?_eq_some_iff.1 hj).1, hj]
    refine ⟨?_, by rw [isSome_merge?_iff (h.table hb hcell)]; rfl⟩
    exact List.mem_range'.2 ⟨j, (List.getElem?_eq_some_iff.1 hcell).1, by rw [Nat.one_mul]⟩

/-- The argument that a merge takes from a predecessor. -/
theorem argFrom?_eq (h : Form c frameSize g seg) (hb : g.hasBlock b = true) {p : BlockId} {k j : Nat}
    {type : ValueType} {slot : Slot} {args : List NodeId} (hp : (g.preds b)[k]? = some p)
    (hj : (seg b).heads[j]? = some (type, .merge slot args)) :
    g.argFrom? b p ((seg b).first + j) = args[k]? := by
  have hcell : (seg b).cells[j]? = some (type, .merge slot args) := by
    rw [Segment.cells, List.append_assoc, List.getElem?_append_left (List.getElem?_eq_some_iff.1 hj).1, hj]
  have hmerge : g.merge? ((seg b).first + j) = some (slot, args) := by
    rw [Graph.merge?, h.table hb hcell]
    rfl
  simp [Graph.argFrom?, hmerge, h.linked.idxOf?_preds hp]

/-- The values that an edge hands over: a slot has after it the value that it had before. -/
theorem merged_slot (h : Form c frameSize g seg) {p : BlockId} (hp : p ∈ g.preds t) {slot : Slot} {id : NodeId}
    (hid : (seg t).enter.slot? slot = some id) (ρ : Env W) :
    ∃ a, (seg p).exit.slot? slot = some a ∧ (Point.mk (some p) t ρ).merged direct g id = ρ a := by
  obtain ⟨k, hk⟩ := List.mem_iff_getElem?.1 hp
  have ht := h.linked.hasBlock_target (h.linked.mem_succs_iff.2 hp)
  obtain ⟨a, ha, ⟨rfl, hlt⟩ | ⟨j, type, args, rfl, hj, hargs⟩⟩ := h.handover hk hid
  · refine ⟨a, ha, if_neg fun hmem => ?_⟩
    obtain ⟨j, _, _, _, rfl, -⟩ := (h.mem_mergesOf_iff ht).1 hmem
    exact absurd hlt (Nat.not_lt.2 (Nat.le_add_right _ _))
  · refine ⟨a, ha, ?_⟩
    have hmem := (h.mem_mergesOf_iff ht).2 ⟨j, type, slot, args, rfl, hj⟩
    simp only [Point.merged, if_pos hmem, Option.bind_some, h.argFrom?_eq ht hk hj, hargs, direct]

end Form

end Destack.Ssa
