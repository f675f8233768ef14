import Destack.Proofs.Ssa.Entry

/-!
# Nodes in frames

Instructions keep the number of local slots and add at most one value to the stack. The nodes in the frame after an
instruction are nodes of the frame before it or nodes that it emitted, and so are the operands of what it emits.
-/

namespace Destack

theorem low16_le (n : Nat) : low16 n ≤ n :=
  Nat.mod_le n 65536

theorem low16_of_lt {n : Nat} (h : n < 65536) : low16 n = n :=
  Nat.mod_eq_of_lt h

namespace Frame

/-- The nodes in a frame. -/
def ids (f : Frame) : List NodeId :=
  f.locals.toList ++ f.stack

theorem mem_ids_iff {f : Frame} {id : NodeId} : id ∈ f.ids ↔ ∃ slot, f.slot? slot = some id := by
  unfold ids
  rw [List.mem_append, List.mem_iff_getElem?, ← List.mem_reverse, List.mem_iff_getElem?]
  constructor
  · rintro (⟨k, hk⟩ | ⟨k, hk⟩)
    · exact ⟨.localVar k, by simpa [slot?] using hk⟩
    · exact ⟨.operand k, hk⟩
  · rintro ⟨k | k, hk⟩
    · exact Or.inl ⟨k, by simpa [slot?] using hk⟩
    · exact Or.inr ⟨k, hk⟩

/-- A frame has exactly the local slots below its size and the stack slots below its depth. -/
theorem isSome_slot?_iff {f : Frame} {slot : Slot} :
    (f.slot? slot).isSome = true ↔ slot ∈ Ssa.slotsOf f.locals.size f.depth := by
  cases slot with
  | localVar k => simp [slot?, Ssa.slotsOf]
  | operand k => simp [slot?, Ssa.slotsOf, depth]

/-- A frame that is at least as large has all slots that another one has. -/
theorem isSome_slot?_mono {f f' : Frame} {slot : Slot} (hsize : f.locals.size ≤ f'.locals.size)
    (hdepth : f.depth ≤ f'.depth) (h : (f.slot? slot).isSome = true) : (f'.slot? slot).isSome = true := by
  rw [isSome_slot?_iff] at h ⊢
  unfold Ssa.slotsOf at h ⊢
  simp only [List.mem_append, List.mem_map, List.mem_range] at h ⊢
  rcases h with ⟨k, hk, hslot⟩ | ⟨k, hk, hslot⟩
  · exact Or.inl ⟨k, Nat.lt_of_lt_of_le hk hsize, hslot⟩
  · exact Or.inr ⟨k, Nat.lt_of_lt_of_le hk hdepth, hslot⟩

end Frame

namespace Ssa

theorem mem_ids_setIfInBounds {ls : Array NodeId} {st : List NodeId} {slot : Nat} {v id : NodeId}
    (h : id ∈ (Frame.mk (ls.setIfInBounds slot v) st).ids) : id ∈ (Frame.mk ls st).ids ∨ id = v := by
  unfold Frame.ids at h ⊢
  simp only [Array.toList_setIfInBounds, List.mem_append] at h ⊢
  rcases h with h | h
  · rcases List.mem_or_eq_of_mem_set h with h | h
    · exact Or.inl (Or.inl h)
    · exact Or.inr h
  · exact Or.inl (Or.inr h)

/-- Cells from a number on whose operands are among given nodes or were made from a lower number on. -/
def Closed (ids : List NodeId) (low : NodeId) : NodeId → List Cell → Prop
  | _, [] => True
  | n, cell :: rest => (∀ o ∈ cell.2.operands, o ∈ ids ∨ (low ≤ o ∧ o < n)) ∧ Closed ids low (n + 1) rest

theorem Closed.mem_operands {ids : List NodeId} {low n : NodeId} {cells : List Cell} (h : Closed ids low n cells)
    {j : Nat} {cell : Cell} (hcell : cells[j]? = some cell) {o : NodeId} (ho : o ∈ cell.2.operands) :
    o ∈ ids ∨ (low ≤ o ∧ o < n + j) := by
  induction cells generalizing n j with
  | nil => cases hcell
  | cons first rest ih =>
    cases j with
    | zero =>
      obtain rfl := Option.some.inj hcell
      exact h.1 o ho
    | succ j =>
      have := ih h.2 hcell
      rwa [Nat.add_right_comm] at this

namespace Translates

variable {c : Context} {at? : Int → Option BlockId} {i : Instruction} {n : NodeId} {action : Action} {f f' : Frame}
  {ns : List Cell}

theorem size_locals (h : Translates c at? i n action f ns f') : f'.locals.size = f.locals.size := by
  cases h <;> simp [push]

/-- An instruction leaves at most one value more than it found. -/
theorem depth_le (h : Translates c at? i n action f ns f') : f'.depth ≤ f.depth + 1 := by
  cases h with
  | call _ _ _ hle =>
    simp only [Frame.depth]
    split
    · simp
    · rw [List.length_drop]
      omega
  | _ =>
    simp only [push, Frame.depth, List.length_cons]
    omega

/-- Instructions make no merges, parameters or placeholders. -/
theorem isMerge_eq_false (h : Translates c at? i n action f ns f') : ∀ cell ∈ ns, cell.2.isMerge = false := by
  cases h <;> simp [elementCells, Op.isMerge]

theorem mem_ids (h : Translates c at? i n action f ns f') {id : NodeId} (hid : id ∈ f'.ids) :
    id ∈ f.ids ∨ (n ≤ id ∧ id < n + ns.length) := by
  cases h with
  | load hslot =>
    rcases List.mem_append.1 hid with hid | hid
    · exact Or.inl (List.mem_append_left _ hid)
    · rcases List.mem_cons.1 hid with rfl | hid
      · exact Or.inl (Frame.mem_ids_iff.2 ⟨.localVar _, hslot⟩)
      · exact Or.inl (List.mem_append_right _ hid)
  | store hslot =>
    rcases mem_ids_setIfInBounds hid with hid | rfl
    · left
      simp only [Frame.ids, List.mem_append, List.mem_cons] at hid ⊢
      tauto
    · left
      simp [Frame.ids]
  | increment hslot =>
    rcases mem_ids_setIfInBounds hid with hid | rfl
    · exact Or.inl hid
    · right
      simp
  | call hmethod htype hcount hle =>
    simp only [Frame.ids, List.mem_append] at hid ⊢
    rcases hid with hid | hid
    · exact Or.inl (Or.inl hid)
    · split at hid
      · rcases List.mem_cons.1 hid with rfl | hid
        · right
          simp
        · exact Or.inl (Or.inr (List.mem_of_mem_drop hid))
      · exact Or.inl (Or.inr (List.mem_of_mem_drop hid))
  | _ =>
    simp only [Frame.ids, push, List.mem_append, List.mem_cons, elementCells, List.length_append, List.length_cons,
      List.length_nil] at hid ⊢
    grind

/-- An operand comes from the frame or was emitted just before. -/
theorem closed (h : Translates c at? i n action f ns f') : Closed f.ids n n ns := by
  cases h with
  | increment hslot =>
    have hmem := Array.mem_of_getElem? hslot
    simp [Closed, Op.operands, Frame.ids, hmem]
  | call hmethod htype hcount hle =>
    refine ⟨fun o ho => Or.inl (List.mem_append_right _ ?_), trivial⟩
    simp only [Op.operands, List.mem_reverse] at ho
    exact List.mem_of_mem_take ho
  | _ => simp [Closed, elementCells, Op.operands, Frame.ids, Nat.add_assoc]

end Translates

theorem Closed.mono {ids ids' : List NodeId} {low low' n : NodeId} {cells : List Cell} (h : Closed ids low n cells)
    (hsub : ∀ o ∈ ids, o ∈ ids' ∨ (low' ≤ o ∧ o < n)) (hlow : low' ≤ low) : Closed ids' low' n cells := by
  induction cells generalizing n with
  | nil => trivial
  | cons cell rest ih =>
    refine ⟨fun o ho => ?_, ih h.2 fun o ho => ?_⟩
    · rcases h.1 o ho with ho | ho
      · exact hsub o ho
      · exact Or.inr ⟨Nat.le_trans hlow ho.1, ho.2⟩
    · exact (hsub o ho).imp_right fun h => ⟨h.1, Nat.lt_succ_of_lt h.2⟩

theorem Closed.append {ids : List NodeId} {low n : NodeId} {cells cells' : List Cell} (h : Closed ids low n cells)
    (h' : Closed ids low (n + cells.length) cells') : Closed ids low n (cells ++ cells') := by
  induction cells generalizing n with
  | nil => exact h'
  | cons cell rest ih =>
    refine ⟨h.1, ih h.2 ?_⟩
    rwa [List.length_cons, Nat.add_comm rest.length, ← Nat.add_assoc] at h'

namespace TranslatesAll

variable {c : Context} {at? : Int → Option BlockId} {is : List Instruction} {n : NodeId} {f f' : Frame}
  {ns : List Cell}

theorem size_locals (h : TranslatesAll c at? n is f ns f') : f'.locals.size = f.locals.size := by
  induction h with
  | nil => rfl
  | cons _ htrans _ ih => rw [ih, htrans.size_locals]

theorem depth_le (h : TranslatesAll c at? n is f ns f') : f'.depth ≤ f.depth + is.length := by
  induction h with
  | nil => exact Nat.le_refl _
  | cons _ htrans _ ih =>
    have := htrans.depth_le
    rw [List.length_cons]
    omega

theorem isMerge_eq_false (h : TranslatesAll c at? n is f ns f') : ∀ cell ∈ ns, cell.2.isMerge = false := by
  induction h with
  | nil => simp
  | cons _ htrans _ ih =>
    intro cell hcell
    rcases List.mem_append.1 hcell with hcell | hcell
    · exact htrans.isMerge_eq_false cell hcell
    · exact ih cell hcell

theorem mem_ids (h : TranslatesAll c at? n is f ns f') {id : NodeId} (hid : id ∈ f'.ids) :
    id ∈ f.ids ∨ (n ≤ id ∧ id < n + ns.length) := by
  induction h with
  | nil => exact Or.inl hid
  | cons _ htrans _ ih =>
    rw [List.length_append, ← Nat.add_assoc]
    rcases ih hid with hid | ⟨hle, hlt⟩
    · rcases htrans.mem_ids hid with hid | ⟨hle, hlt⟩
      · exact Or.inl hid
      · exact Or.inr ⟨hle, Nat.lt_add_right _ hlt⟩
    · exact Or.inr ⟨Nat.le_trans (Nat.le_add_right _ _) hle, hlt⟩

theorem closed (h : TranslatesAll c at? n is f ns f') : Closed f.ids n n ns := by
  induction h with
  | nil => trivial
  | cons _ htrans _ ih =>
    refine htrans.closed.append (ih.mono (fun o ho => ?_) (Nat.le_add_right _ _))
    exact htrans.mem_ids ho

end TranslatesAll

end Ssa

end Destack
