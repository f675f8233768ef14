import Destack.Proofs.Ssa.Translation

/-!
# Frames at the start of blocks

The entry starts with a node for each local slot, numbered like the slots (`enterEntry_ok`). A block that one block
leads to starts with its frame. Where several blocks meet, each slot holds a merge or the node that all of them agree
on (`Joins`, `enterJoin_ok`); at the head of a loop each slot holds a merge.
-/

namespace Destack.Ssa

variable {s t t' : BuildState} {cells : List Cell} {n : NodeId}

/-! ## The entry -/

/-- Cells for formal parameters with their indices, the first of which goes to a given slot. -/
def paramCells : Nat → List (ValueType × Nat) → List Cell
  | _, [] => []
  | slot, (type, index) :: rest =>
    if type.slots = 2 then
      (type.onStack, .param (low16 index)) :: (.void, .undefined (low16 (slot + 1))) :: paramCells (slot + 2) rest
    else (type.onStack, .param (low16 index)) :: paramCells (slot + 1) rest

/-- Cells for local slots that nothing was stored in. -/
def undefinedCells (slot count : Nat) : List Cell :=
  (List.range' slot count).map fun k => (.void, .undefined (low16 k))

/-- Cells for the local slots at the start of a method. -/
def seedCells (formals : List ValueType) (frameSize : Nat) : List Cell :=
  let params := paramCells 0 formals.zipIdx
  params ++ undefinedCells params.length (frameSize - params.length)

theorem le_length_seedCells (formals : List ValueType) (frameSize : Nat) :
    frameSize ≤ (seedCells formals frameSize).length := by
  rw [seedCells, List.length_append, undefinedCells, List.length_map, List.length_range']
  omega

/-- The parameters fit into the frame, and sixteen bits tell its slots apart. -/
structure Fits (formals : List ValueType) (frameSize : Nat) : Prop where
  length_eq : (seedCells formals frameSize).length = frameSize
  lt : frameSize < 65536

/-- A method starts with parameters and empty slots only, and the empty ones have no type. -/
theorem eq_of_mem_seedCells {formals : List ValueType} {frameSize : Nat} {cell : Cell}
    (h : cell ∈ seedCells formals frameSize) :
    (∃ index, cell.2 = .param index) ∨ ∃ slot, cell = (.void, .undefined slot) := by
  have hparams : ∀ (slot : Nat) (params : List (ValueType × Nat)), cell ∈ paramCells slot params →
      (∃ index, cell.2 = .param index) ∨ ∃ slot, cell = (.void, .undefined slot) := by
    intro slot params hcell
    fun_induction paramCells slot params with
    | case1 => cases hcell
    | case2 slot type index rest htwo ih =>
      rcases List.mem_cons.1 hcell with rfl | hcell
      · exact Or.inl ⟨low16 index, rfl⟩
      · rcases List.mem_cons.1 hcell with rfl | hcell
        · exact Or.inr ⟨low16 (slot + 1), rfl⟩
        · exact ih hcell
    | case3 slot type index rest htwo ih =>
      rcases List.mem_cons.1 hcell with rfl | hcell
      · exact Or.inl ⟨low16 index, rfl⟩
      · exact ih hcell
  rcases List.mem_append.1 h with hcell | hcell
  · exact hparams 0 _ hcell
  · obtain ⟨k, -, rfl⟩ := List.mem_map.1 hcell
    exact Or.inr ⟨low16 k, rfl⟩

theorem op_of_mem_seedCells {formals : List ValueType} {frameSize : Nat} {cell : Cell}
    (h : cell ∈ seedCells formals frameSize) :
    (∃ index, cell.2 = .param index) ∨ ∃ slot, cell.2 = .undefined slot := by
  rcases eq_of_mem_seedCells h with hparam | ⟨slot, rfl⟩
  · exact Or.inl hparam
  · exact Or.inr ⟨slot, rfl⟩

/-- The frame whose slots hold nodes from a number on. -/
def seedFrame (n size : Nat) : Frame :=
  ⟨(List.range' n size).toArray, []⟩

theorem toArray_range'_push (n k : Nat) : (List.range' n k).toArray.push (n + k) = (List.range' n (k + 1)).toArray := by
  apply Array.ext'
  simp [List.range'_1_concat]

/-- A local slot is added together with its node. -/
theorem After.pushLocal (cell : Cell) {t₁ : BuildState}
    (h : After s cells (seedFrame s.graph.nodes.size cells.length) t) {id : NodeId}
    (he : BuildM.emit cell.1 cell.2 t = .ok id t₁)
    (hp : { t₁ with frame := { t₁.frame with locals := t₁.frame.locals.push id } } = t') :
    After s (cells ++ [cell]) (seedFrame s.graph.nodes.size (cells ++ [cell]).length) t' := by
  obtain ⟨rfl, h₁⟩ := h.emit he
  subst hp
  refine ⟨h₁.graph_eq, ?_, h₁.block_eq, h₁.built_eq, h₁.entryDepth_eq⟩
  rw [h₁.frame_eq, List.length_append, List.length_singleton]
  simp only [seedFrame, toArray_range'_push]

theorem After.pushUndefined (h : After s cells (seedFrame s.graph.nodes.size cells.length) t)
    (hp : BuildM.pushUndefined t = .ok () t') :
    After s (cells ++ [(.void, .undefined (low16 cells.length))])
      (seedFrame s.graph.nodes.size (cells ++ [((.void, .undefined (low16 cells.length)) : Cell)]).length) t' := by
  obtain ⟨_, _, hget, hp⟩ := Pass.bind_eq_ok.1 hp
  obtain ⟨rfl, rfl⟩ := Pass.get_eq_ok.1 hget
  obtain ⟨id, t₁, he, hp⟩ := Pass.bind_eq_ok.1 hp
  have hsize : t.frame.locals.size = cells.length := by simp [h.frame_eq, seedFrame]
  rw [hsize] at he
  exact h.pushLocal (.void, .undefined (low16 cells.length)) he (Pass.modify_eq_ok.1 hp)

theorem After.pushUndefineds {count : Nat} (h : After s cells (seedFrame s.graph.nodes.size cells.length) t)
    (hp : BuildM.pushUndefineds count t = .ok () t') :
    After s (cells ++ undefinedCells cells.length count)
      (seedFrame s.graph.nodes.size (cells ++ undefinedCells cells.length count).length) t' := by
  induction count generalizing cells t with
  | zero =>
    obtain ⟨-, rfl⟩ := Pass.pure_eq_ok.1 hp
    simpa [undefinedCells] using h
  | succ count ih =>
    obtain ⟨_, t₁, hone, hp⟩ := Pass.bind_eq_ok.1 hp
    have := ih (h.pushUndefined hone) hp
    simpa [undefinedCells, List.range'_succ] using this

theorem After.pushParam {type : ValueType} {index : Nat}
    (h : After s cells (seedFrame s.graph.nodes.size cells.length) t)
    (hp : BuildM.pushParam index type t = .ok () t') :
    After s (cells ++ paramCells cells.length [(type, index)])
      (seedFrame s.graph.nodes.size (cells ++ paramCells cells.length [(type, index)]).length) t' := by
  obtain ⟨id, t₁, he, hp⟩ := Pass.bind_eq_ok.1 hp
  obtain ⟨_, t₂, hmod, hp⟩ := Pass.bind_eq_ok.1 hp
  have h₁ := h.pushLocal (type.onStack, .param (low16 index)) he (Pass.modify_eq_ok.1 hmod)
  unfold paramCells
  split at hp
  · next htwo =>
    have := h₁.pushUndefined hp
    simpa [htwo, paramCells] using this
  · next htwo =>
    obtain ⟨-, rfl⟩ := Pass.pure_eq_ok.1 hp
    simpa [htwo, paramCells] using h₁

theorem paramCells_cons (slot : Nat) (param : ValueType × Nat) (rest : List (ValueType × Nat)) :
    paramCells slot (param :: rest) =
      paramCells slot [param] ++ paramCells (slot + (paramCells slot [param]).length) rest := by
  obtain ⟨type, index⟩ := param
  by_cases htwo : type.slots = 2
  · simp [paramCells, htwo]
  · simp [paramCells, htwo]

theorem After.pushParams {params : List (ValueType × Nat)}
    (h : After s cells (seedFrame s.graph.nodes.size cells.length) t)
    (hp : (params.forM fun (type, index) => BuildM.pushParam index type : BuildM Unit) t = .ok () t') :
    After s (cells ++ paramCells cells.length params)
      (seedFrame s.graph.nodes.size (cells ++ paramCells cells.length params).length) t' := by
  induction params generalizing cells t with
  | nil =>
    obtain rfl := Pass.forM_nil_eq_ok.1 hp
    simpa [paramCells] using h
  | cons param params ih =>
    obtain ⟨t₁, hone, hp⟩ := Pass.forM_cons_eq_ok.1 hp
    have h₁ := ih (h.pushParam hone) hp
    rw [List.append_assoc, List.length_append, ← paramCells_cons] at h₁
    exact h₁

/-- A method starts with its seeds. -/
theorem enterEntry_ok {c : Context} {frameSize : Nat} (hframe : s.frame = Frame.empty)
    (h : BuildM.enterEntry c frameSize s = .ok () t) :
    After s (seedCells c.formals frameSize)
      (seedFrame s.graph.nodes.size (seedCells c.formals frameSize).length) t := by
  obtain ⟨_, t₁, hparams, h⟩ := Pass.bind_eq_ok.1 h
  have hstart : After s [] (seedFrame s.graph.nodes.size ([] : List Cell).length) s := by
    have := After.refl s
    rwa [hframe] at this
  have h₁ := hstart.pushParams hparams
  obtain ⟨_, _, hget, h⟩ := Pass.bind_eq_ok.1 h
  obtain ⟨rfl, rfl⟩ := Pass.get_eq_ok.1 hget
  have hsize : t₁.frame.locals.size = (paramCells 0 c.formals.zipIdx).length := by
    rw [h₁.frame_eq]
    simp [seedFrame]
  rw [hsize] at h
  exact h₁.pushUndefineds h

/-! ## Meeting blocks -/

/-- The slots of a frame, local slots first and the stack from its bottom on. -/
def slotsOf (size depth : Nat) : List Slot :=
  (List.range size).map .localVar ++ (List.range depth).map .operand

/-- What comes into a slot from each of the exit frames known. -/
def incoming (sources : List (Option Frame)) (slot : Slot) : List (Option NodeId) :=
  sources.map fun source => source.bind (·.slot? slot)

/-- Merges made for slots from a number on, and the nodes in the slots. -/
inductive Merges (isHead : Bool) (sources : List (Option Frame)) :
    NodeId → List Slot → List Cell → List NodeId → Prop where
  | nil {n : NodeId} : Merges isHead sources n [] [] []
  | agreed {n id : NodeId} {slot : Slot} {slots : List Slot} {cells : List Cell} {ids : List NodeId} :
    isHead = false → BuildM.agreed? (incoming sources slot) = some id → Merges isHead sources n slots cells ids →
    Merges isHead sources n (slot :: slots) cells (id :: ids)
  | merge {n : NodeId} {type : ValueType} {slot : Slot} {slots : List Slot} {cells : List Cell} {ids : List NodeId} :
    (isHead = false → BuildM.agreed? (incoming sources slot) = none) →
    Merges isHead sources (n + 1) slots cells ids →
    Merges isHead sources n (slot :: slots)
      ((type, .merge slot ((incoming sources slot).map (·.getD n))) :: cells) (n :: ids)

theorem Merges.append {isHead : Bool} {sources : List (Option Frame)} {slots slots' : List Slot}
    {cells cells' : List Cell} {ids ids' : List NodeId} (h : Merges isHead sources n slots cells ids)
    (h' : Merges isHead sources (n + cells.length) slots' cells' ids') :
    Merges isHead sources n (slots ++ slots') (cells ++ cells') (ids ++ ids') := by
  induction h with
  | nil => exact h'
  | agreed hhead hagreed _ ih => exact .agreed hhead hagreed (ih h')
  | merge hnone _ ih =>
    refine .merge hnone (ih ?_)
    simpa [Nat.add_assoc, Nat.add_comm 1] using h'

theorem Merges.length_ids {isHead : Bool} {sources : List (Option Frame)} {slots : List Slot} {ids : List NodeId}
    (h : Merges isHead sources n slots cells ids) : ids.length = slots.length := by
  induction h with
  | nil => rfl
  | agreed _ _ _ ih => simp [ih]
  | merge _ _ ih => simp [ih]

theorem After.makeMerge {f : Frame} {slot : Slot} {inc : List (Option NodeId)} {id : NodeId} (h : After s cells f t)
    (hm : BuildM.makeMerge slot inc t = .ok id t') :
    id = s.graph.nodes.size + cells.length ∧
      ∃ type, After s (cells ++ [(type, .merge slot (inc.map (·.getD id)))]) f t' := by
  obtain ⟨_, _, hget, hm⟩ := Pass.bind_eq_ok.1 hm
  obtain ⟨rfl, rfl⟩ := Pass.get_eq_ok.1 hget
  obtain ⟨type, _, hlift, hm⟩ := Pass.bind_eq_ok.1 hm
  obtain ⟨-, rfl⟩ := Pass.lift_eq_ok.1 hlift
  obtain ⟨_, t₁, hemit, hm⟩ := Pass.bind_eq_ok.1 hm
  obtain ⟨_, _, hmod, hm⟩ := Pass.bind_eq_ok.1 hm
  obtain rfl := Pass.modify_eq_ok.1 hmod
  obtain ⟨rfl, rfl⟩ := Pass.pure_eq_ok.1 hm
  obtain ⟨hid, h₁⟩ := h.emitWith hemit
  exact ⟨hid, type, h₁.graph_eq, h₁.frame_eq, h₁.block_eq, h₁.built_eq, h₁.entryDepth_eq⟩

theorem mergeSlot_eq (isHead : Bool) (sources : List (Option Frame)) (slot : Slot) :
    BuildM.mergeSlot isHead sources slot =
      match (if isHead = true then none else BuildM.agreed? (incoming sources slot)) with
      | some id => pure id
      | none => BuildM.makeMerge slot (incoming sources slot) := rfl

theorem After.mergeSlots {f : Frame} {isHead : Bool} {sources : List (Option Frame)} {α : Type} (slotAt : α → Slot)
    {slots : List α} {ids : List NodeId} (h : After s cells f t)
    (hm : (slots.mapM fun k => BuildM.mergeSlot isHead sources (slotAt k) : BuildM (List NodeId)) t = .ok ids t') :
    ∃ ns, Merges isHead sources (s.graph.nodes.size + cells.length) (slots.map slotAt) ns ids ∧
      After s (cells ++ ns) f t' := by
  induction slots generalizing cells t ids with
  | nil =>
    obtain ⟨rfl, rfl⟩ := Pass.mapM_nil_eq_ok.1 hm
    exact ⟨[], .nil, by simpa using h⟩
  | cons slot slots ih =>
    obtain ⟨id, t₁, ids, hone, hrest, rfl⟩ := Pass.mapM_cons_eq_ok.1 hm
    rw [mergeSlot_eq] at hone
    cases hagreed : (if isHead = true then none else BuildM.agreed? (incoming sources (slotAt slot))) with
    | some id' =>
      rw [hagreed] at hone
      obtain ⟨rfl, rfl⟩ := Pass.pure_eq_ok.1 hone
      obtain ⟨ns, hns, h'⟩ := ih h hrest
      cases isHead with
      | true => cases hagreed
      | false => exact ⟨ns, .agreed rfl hagreed hns, h'⟩
    | none =>
      rw [hagreed] at hone
      obtain ⟨rfl, type, h₁⟩ := h.makeMerge hone
      obtain ⟨ns, hns, h'⟩ := ih h₁ hrest
      refine ⟨(type, _) :: ns, .merge (fun hhead => ?_) ?_, by simpa using h'⟩
      · simpa [hhead] using hagreed
      · simpa [Nat.add_assoc] using hns

/-- The frame where several blocks meet, given the exit frames known, and the merges made for it. -/
inductive Joins (isHead : Bool) (sources : List (Option Frame)) (frameSize : Nat) (n : NodeId) :
    List Cell → Frame → Prop where
  | mk {depth : Nat} {cells : List Cell} {locals stack : List NodeId} :
    (isHead = false → ∀ source ∈ sources, source.isSome = true) → (∃ f, some f ∈ sources) →
    (∀ f, some f ∈ sources → f.depth = depth) → locals.length = low16 frameSize → stack.length = low16 depth →
    Merges isHead sources n (slotsOf (low16 frameSize) (low16 depth)) cells (locals ++ stack) →
    Joins isHead sources frameSize n cells ⟨locals.toArray, stack.reverse⟩

theorem blockAt_eq_ok {b : BlockId} {block : Block} :
    BuildM.blockAt b s = .ok block t ↔ s.graph.block? b = some block ∧ s = t := by
  unfold BuildM.blockAt
  simp only [Pass.bind_eq_ok, Pass.get_eq_ok, Pass.lift_eq_ok, Graph.getBlock_eq_ok]
  constructor
  · rintro ⟨_, _, ⟨rfl, rfl⟩, h⟩
    exact h
  · exact fun h => ⟨_, _, ⟨rfl, rfl⟩, h⟩

theorem exitOf_eq_ok {p : BlockId} {exit : Option Frame} (h : s.exitOf p = .ok exit) :
    exit = if s.built.contains p then (s.graph.block? p).map (·.exit) else none := by
  unfold BuildState.exitOf at h
  split at h
  · next hbuilt =>
    obtain ⟨block, hb, h⟩ := except_bind_eq_ok.1 h
    rw [if_pos hbuilt, Graph.getBlock_eq_ok.1 hb]
    exact (except_pure_eq_ok.1 h).symm
  · next hbuilt =>
    rw [if_neg hbuilt]
    exact (except_pure_eq_ok.1 h).symm

theorem enterJoin_ok {frameSize : Nat} {b : BlockId} {preds : List BlockId} {f : Frame} (hs : After s [] f s)
    (h : BuildM.enterJoin frameSize b preds s = .ok () t) :
    ∃ cells f', Joins (((s.graph.block? b).map (·.isHead)).getD false)
      (preds.map fun p => if s.built.contains p then (s.graph.block? p).map (·.exit) else none)
      frameSize s.graph.nodes.size cells f' ∧ After s cells f' t := by
  obtain ⟨block, _, hget, h⟩ := Pass.bind_eq_ok.1 h
  obtain ⟨hblock, rfl⟩ := blockAt_eq_ok.1 hget
  obtain ⟨_, _, hget, h⟩ := Pass.bind_eq_ok.1 h
  obtain ⟨rfl, rfl⟩ := Pass.get_eq_ok.1 hget
  obtain ⟨sources, _, hlift, h⟩ := Pass.bind_eq_ok.1 h
  obtain ⟨hsources, rfl⟩ := Pass.lift_eq_ok.1 hlift
  rw [← eq_map_of_mapM_eq_ok (fun p exit => exitOf_eq_ok) hsources, hblock, Option.map_some, Option.getD_some]
  dsimp only at h
  generalize block.isHead = isHead at h ⊢
  split at h
  · obtain ⟨_, _, hthrow, -⟩ := Pass.bind_eq_ok.1 h
    exact (Pass.throw_eq_ok.1 hthrow).elim
  · next hknown =>
    cases hfirst : (sources.filterMap id).head? with
    | none =>
      simp only [hfirst] at h
      exact (Pass.throw_eq_ok.1 h).elim
    | some first =>
      simp only [hfirst] at h
      cases hdepths : (sources.filterMap id).find? (·.depth != first.depth) with
      | some other =>
        simp only [hdepths] at h
        exact (Pass.throw_eq_ok.1 h).elim
      | none =>
        simp only [hdepths] at h
        obtain ⟨locals, t₁, hlocals, h⟩ := Pass.bind_eq_ok.1 h
        obtain ⟨stack, t₂, hstack, h⟩ := Pass.bind_eq_ok.1 h
        obtain rfl := Pass.modify_eq_ok.1 h
        obtain ⟨ns, hns, h₁⟩ := hs.mergeSlots Slot.localVar hlocals
        obtain ⟨ns', hns', h₂⟩ := h₁.mergeSlots Slot.operand hstack
        have hmerges := hns.append (by simpa using hns')
        refine ⟨ns ++ ns', ⟨locals.toArray, stack.reverse⟩,
          @Joins.mk _ _ _ _ first.depth _ _ _ ?_ ?_ ?_ ?_ ?_ hmerges, ?_⟩
        · intro hhead source hsource
          have hnone : none ∉ sources := by simpa [hhead] using hknown
          exact Option.isSome_iff_ne_none.2 fun h => hnone (h ▸ hsource)
        · exact ⟨first, by simpa using List.mem_of_head? hfirst⟩
        · intro f hf
          have hmem : f ∈ sources.filterMap id := List.mem_filterMap.2 ⟨some f, hf, rfl⟩
          simpa using List.find?_eq_none.1 hdepths f hmem
        · simpa using hns.length_ids
        · simpa using hns'.length_ids
        · exact ⟨by simpa using h₂.graph_eq, rfl, h₂.block_eq, h₂.built_eq, h₂.entryDepth_eq⟩

end Destack.Ssa
