import Destack.Proofs.Ssa.Frames
import Destack.Proofs.Ssa.Patching

/-!
# The nodes of a method after patching

Once the arguments of loop heads are set, each edge hands the frame at its start over to the block at its end
(`Form.handover`): a slot there holds a merge whose argument for that predecessor is the node in the same slot, or it
holds that node itself. `form_patched` says that the pass leaves a graph of this form.
-/

namespace Destack.Ssa

/-! ## Merges where blocks meet -/

section Merges

variable {isHead : Bool} {sources : List (Option Frame)} {n : NodeId} {slots : List Slot} {cells : List Cell}
  {ids : List NodeId}

/-- Every cell made is a merge and stands in its slot. -/
theorem Merges.cell (h : Merges isHead sources n slots cells ids) {j : Nat} {cell : Cell}
    (hcell : cells[j]? = some cell) :
    ∃ (type : ValueType) (slot : Slot) (pos : Nat),
      cell = (type, .merge slot ((incoming sources slot).map (·.getD (n + j)))) ∧ slots[pos]? = some slot ∧
      ids[pos]? = some (n + j) := by
  induction h generalizing j with
  | nil => cases hcell
  | agreed _ _ _ ih =>
    obtain ⟨type, slot, pos, hc, hs, hi⟩ := ih hcell
    exact ⟨type, slot, pos + 1, hc, hs, hi⟩
  | merge _ _ ih =>
    cases j with
    | zero =>
      obtain rfl := Option.some.inj hcell
      exact ⟨_, _, 0, rfl, rfl, rfl⟩
    | succ j =>
      obtain ⟨type, slot, pos, hc, hs, hi⟩ := ih hcell
      rw [Nat.add_assoc, Nat.add_comm 1] at hc hi
      exact ⟨type, slot, pos + 1, hc, hs, hi⟩

/-- A slot holds what all sources agree on or a merge. -/
theorem Merges.slot (h : Merges isHead sources n slots cells ids) {pos : Nat} {slot : Slot} {id : NodeId}
    (hslot : slots[pos]? = some slot) (hid : ids[pos]? = some id) :
    (isHead = false ∧ BuildM.agreed? (incoming sources slot) = some id) ∨
      ∃ j type, id = n + j ∧ cells[j]? = some (type, .merge slot ((incoming sources slot).map (·.getD id))) := by
  induction h generalizing pos with
  | nil => cases hslot
  | agreed hhead hagreed _ ih =>
    cases pos with
    | zero =>
      obtain rfl := Option.some.inj hslot
      obtain rfl := Option.some.inj hid
      exact Or.inl ⟨hhead, hagreed⟩
    | succ pos => exact ih hslot hid
  | merge _ _ ih =>
    cases pos with
    | zero =>
      obtain rfl := Option.some.inj hslot
      obtain rfl := Option.some.inj hid
      exact Or.inr ⟨0, _, rfl, rfl⟩
    | succ pos =>
      rcases ih hslot hid with h | ⟨j, type, rfl, hcell⟩
      · exact Or.inl h
      · exact Or.inr ⟨j + 1, type, by rw [Nat.add_assoc, Nat.add_comm 1], hcell⟩

/-- Where no loop is headed, merges are made only for slots on which the sources do not agree. -/
theorem Merges.agreed?_eq_none (h : Merges isHead sources n slots cells ids) (hhead : isHead = false) {type : ValueType}
    {slot : Slot} {args : List NodeId} (hcell : (type, .merge slot args) ∈ cells) :
    BuildM.agreed? (incoming sources slot) = none := by
  induction h with
  | nil => cases hcell
  | agreed _ _ _ ih => exact ih hcell
  | merge hnone _ ih =>
    rcases List.mem_cons.1 hcell with heq | hcell
    · obtain ⟨rfl, -⟩ := Op.merge.inj (Prod.mk.inj heq).2
      exact hnone hhead
    · exact ih hcell

theorem eq_some_of_agreed? {incoming : List (Option NodeId)} {id : NodeId} (h : BuildM.agreed? incoming = some id) :
    ∀ x ∈ incoming, x = some id := by
  unfold BuildM.agreed? at h
  split at h
  · next first rest =>
    split at h
    · next hall =>
      obtain rfl := Option.some.inj h
      intro x hx
      rcases List.mem_cons.1 hx with rfl | hx
      · rfl
      · simpa using List.all_eq_true.1 hall x hx
    · cases h
  · cases h

/-- The slots of a frame made from a list of nodes. -/
theorem slot?_mk_iff {locals stack : List NodeId} {slot : Slot} {id : NodeId} :
    (Frame.mk locals.toArray stack.reverse).slot? slot = some id ↔
      ∃ pos : Nat, (slotsOf locals.length stack.length)[pos]? = some slot ∧ (locals ++ stack)[pos]? = some id := by
  unfold slotsOf
  constructor
  · intro h
    cases slot with
    | localVar k =>
      have hk : locals[k]? = some id := by simpa [Frame.slot?] using h
      have hlt := (List.getElem?_eq_some_iff.1 hk).1
      refine ⟨k, ?_, by rw [List.getElem?_append_left hlt, hk]⟩
      rw [List.getElem?_append_left (by simpa using hlt)]
      simp [hlt]
    | operand k =>
      have hk : stack[k]? = some id := by simpa [Frame.slot?] using h
      have hlt := (List.getElem?_eq_some_iff.1 hk).1
      refine ⟨locals.length + k, ?_, by rw [List.getElem?_append_right (Nat.le_add_right _ _)]; simpa using hk⟩
      rw [List.getElem?_append_right (by simp)]
      simp [hlt]
  · rintro ⟨pos, hslot, hid⟩
    rcases Nat.lt_or_ge pos locals.length with hlt | hge
    · rw [List.getElem?_append_left hlt] at hid
      rw [List.getElem?_append_left (by simpa using hlt)] at hslot
      obtain rfl : .localVar pos = slot := by simpa [hlt] using hslot
      simpa [Frame.slot?] using hid
    · rw [List.getElem?_append_right hge] at hid
      rw [List.getElem?_append_right (by simpa using hge)] at hslot
      have hlt := (List.getElem?_eq_some_iff.1 hid).1
      obtain rfl : .operand (pos - locals.length) = slot := by simpa [hlt] using hslot
      simpa [Frame.slot?] using hid

end Merges

/-! ## Frames of a construction -/

section Construction

variable {c : Context} {frameSize : Nat} {g₀ g : Graph} {done : List BlockId} {seg : BlockId → Segment}

/-- What holds of a block as soon as it holds of those before it holds of every block. -/
theorem order_induction {P : BlockId → Prop}
    (hstep : ∀ {front rest : List BlockId} {b : BlockId}, done = front ++ b :: rest → (∀ p ∈ front, P p) → P b) :
    ∀ b ∈ done, P b := by
  suffices h : ∀ front rest, done = front ++ rest → ∀ p ∈ front, P p from h done [] (by simp)
  intro front
  induction front using List.reverseRecOn with
  | nil => simp
  | append_singleton front b ih =>
    intro rest hsplit p hp
    have hsplit' : done = front ++ b :: rest := by simpa using hsplit
    rcases List.mem_append.1 hp with hp | hp
    · exact ih (b :: rest) hsplit' p hp
    · rw [List.mem_singleton.1 hp]
      exact hstep hsplit' (ih (b :: rest) hsplit')

theorem mem_sourcesOf {front preds : List BlockId} {f : Frame} (h : some f ∈ sourcesOf g front preds) :
    ∃ p ∈ preds, p ∈ front ∧ f = g.exitOf p := by
  obtain ⟨p, hp, hf⟩ := List.mem_map.1 h
  split at hf
  · next hfront => exact ⟨p, hp, hfront, (Option.some.inj hf).symm⟩
  · cases hf

theorem Construction.exitOf_eq (h : Construction c frameSize g done seg) {b : BlockId} (hb : b ∈ done) :
    g.exitOf b = (seg b).exit := by
  obtain ⟨front, rest, hsplit⟩ := List.append_of_mem hb
  exact (h.built hsplit).exit_eq

section Enters

variable {front : List BlockId} {b : BlockId} {n : NodeId} {cells : List Cell} {f : Frame}

theorem Enters.le_size_locals (h : Enters c frameSize g front b n cells f)
    (hexit : ∀ p ∈ front, low16 frameSize ≤ (g.exitOf p).locals.size) : low16 frameSize ≤ f.locals.size := by
  cases h with
  | entry => simpa [seedFrame] using (low16_le frameSize).trans (le_length_seedCells c.formals frameSize)
  | single _ _ hp => exact hexit _ hp
  | join _ _ hjoin =>
    cases hjoin with
    | mk _ _ _ hlocals => simp [hlocals]

theorem Enters.size_locals (h : Enters c frameSize g front b n cells f) (hfits : Fits c.formals frameSize)
    (hexit : ∀ p ∈ front, (g.exitOf p).locals.size = frameSize) : f.locals.size = frameSize := by
  cases h with
  | entry => simp [seedFrame, hfits.length_eq]
  | single _ _ hp => exact hexit _ hp
  | join _ _ hjoin =>
    cases hjoin with
    | mk _ _ _ hlocals => simpa [low16_of_lt hfits.lt] using hlocals

theorem Enters.depth_le (h : Enters c frameSize g front b n cells f) {d : Nat}
    (hexit : ∀ p ∈ front, (g.exitOf p).depth ≤ d) : f.depth ≤ d := by
  cases h with
  | entry => exact Nat.zero_le d
  | single _ _ hp => exact hexit _ hp
  | join _ _ hjoin =>
    cases hjoin with
    | mk _ hsome hdepth _ hstack =>
      obtain ⟨src, hsrc⟩ := hsome
      obtain ⟨p, -, hp, rfl⟩ := mem_sourcesOf hsrc
      rw [Frame.depth, List.length_reverse, hstack, ← hdepth _ hsrc]
      exact (low16_le _).trans (hexit p hp)

theorem Enters.lt_of_mem_ids (h : Enters c frameSize g front b n cells f)
    (hexit : ∀ p ∈ front, ∀ id ∈ (g.exitOf p).ids, id < n) : ∀ id ∈ f.ids, id < n + cells.length := by
  intro id hid
  cases h with
  | entry =>
    have : id ∈ List.range' n (seedCells c.formals frameSize).length := by
      simpa [seedFrame, Frame.ids] using hid
    exact (List.mem_range'_1.1 this).2
  | single _ _ hp => exact hexit _ hp id hid
  | join _ _ hjoin =>
    cases hjoin with
    | mk _ hsome _ hlocals hstack hmerges =>
      obtain ⟨slot, hslot⟩ := Frame.mem_ids_iff.1 hid
      obtain ⟨pos, hpos, hid⟩ := slot?_mk_iff.1 hslot
      rw [hlocals, hstack] at hpos
      rcases hmerges.slot hpos hid with ⟨-, hagreed⟩ | ⟨j, type, rfl, hcell⟩
      · obtain ⟨src, hsrc⟩ := hsome
        obtain ⟨p, -, hp, rfl⟩ := mem_sourcesOf hsrc
        have hin : (g.exitOf p).slot? slot = some id :=
          eq_some_of_agreed? hagreed _ (List.mem_map.2 ⟨_, hsrc, rfl⟩)
        exact Nat.lt_add_right _ (hexit p hp id (Frame.mem_ids_iff.2 ⟨slot, hin⟩))
      · exact Nat.add_lt_add_left (List.getElem?_eq_some_iff.1 hcell).1 n

end Enters

/-- All frames have the local slots that a join has. -/
theorem Construction.le_size_locals (h : Construction c frameSize g done seg) :
    ∀ b ∈ done, low16 frameSize ≤ (seg b).exit.locals.size := by
  refine order_induction fun {front rest b} hsplit ih => ?_
  have hb := h.built hsplit
  rw [hb.body.size_locals]
  exact hb.enters.le_size_locals fun p hp => by
    rw [h.exitOf_eq (by simp [hsplit, hp])]
    exact ih p hp

/-- All frames have as many local slots as the method, if these fit. -/
theorem Construction.size_locals (h : Construction c frameSize g done seg) (hfits : Fits c.formals frameSize) :
    ∀ b ∈ done, (seg b).enter.locals.size = frameSize ∧ (seg b).exit.locals.size = frameSize := by
  refine order_induction fun {front rest b} hsplit ih => ?_
  have hb := h.built hsplit
  have henter := hb.enters.size_locals hfits fun p hp => by
    rw [h.exitOf_eq (by simp [hsplit, hp]), (ih p hp).2]
  exact ⟨henter, hb.body.size_locals.trans henter⟩

/-- The stack is no deeper than the number of instructions up to there. -/
theorem Construction.depth_le (h : Construction c frameSize g done seg) :
    ∀ b ∈ done, (seg b).exit.depth ≤ (done.flatMap g.instructionsOf).length := by
  suffices hfront : ∀ front rest, done = front ++ rest →
      ∀ p ∈ front, (seg p).exit.depth ≤ (front.flatMap g.instructionsOf).length from hfront done [] (by simp)
  intro front
  induction front using List.reverseRecOn with
  | nil => simp
  | append_singleton front b ih =>
    intro rest hsplit p hp
    rw [List.append_assoc, List.singleton_append] at hsplit
    have hfront := ih _ hsplit
    rw [List.flatMap_append, List.flatMap_singleton, List.length_append]
    rcases List.mem_append.1 hp with hp | hp
    · exact (hfront p hp).trans (Nat.le_add_right _ _)
    · obtain rfl := List.mem_singleton.1 hp
      have hb := h.built hsplit
      have henter := hb.enters.depth_le fun q hq => by
        rw [h.exitOf_eq (by simp [hsplit, hq])]
        exact hfront q hq
      exact hb.body.depth_le.trans (Nat.add_le_add_right henter _)

/-- Frames hold nodes that exist when they do. -/
theorem Construction.lt_of_mem_ids (h : Construction c frameSize g done seg) :
    ∀ b ∈ done, (∀ id ∈ (seg b).enter.ids, id < (seg b).first + (seg b).heads.length) ∧
      ∀ id ∈ (seg b).exit.ids, id < (seg b).first + (seg b).heads.length + (seg b).body.length := by
  refine order_induction fun {front rest b} hsplit ih => ?_
  have hb := h.built hsplit
  have henter := hb.enters.lt_of_mem_ids fun p hp id hid => by
    rw [h.exitOf_eq (by simp [hsplit, hp])] at hid
    have hlt := (ih p hp).2 id hid
    exact Nat.lt_of_lt_of_le hlt (Nat.le_trans (seg p).body_le_stop (h.prior hsplit p hp))
  refine ⟨henter, fun id hid => ?_⟩
  rcases hb.body.mem_ids hid with hid | hid
  · exact Nat.lt_add_right _ (henter id hid)
  · exact hid.2

/-- Of two blocks in a list one comes first, unless they are the same. -/
theorem mem_front_or {done : List BlockId} {a b : BlockId} {fa ra fb rb : List BlockId} (ha : done = fa ++ a :: ra)
    (hb : done = fb ++ b :: rb) : a ∈ fb ∨ a = b ∨ b ∈ fa := by
  rcases List.append_eq_append_iff.1 (ha.symm.trans hb) with ⟨mid, rfl, hmid⟩ | ⟨mid, rfl, hmid⟩
  · cases mid with
    | nil => exact Or.inr (Or.inl (List.cons.inj hmid).1)
    | cons x mid =>
      obtain rfl := (List.cons.inj hmid).1
      exact Or.inl (by simp)
  · cases mid with
    | nil => exact Or.inr (Or.inl (List.cons.inj hmid).1.symm)
    | cons x mid =>
      obtain rfl := (List.cons.inj hmid).1
      exact Or.inr (Or.inr (by simp))

theorem pairwise_of_front {R : BlockId → BlockId → Prop}
    (h : ∀ {front rest : List BlockId} {b : BlockId}, done = front ++ b :: rest → ∀ p ∈ front, R p b) :
    done.Pairwise R := by
  rw [List.pairwise_iff_getElem]
  intro i j hi hj hij
  have hsplit : done = done.take j ++ done[j] :: done.drop (j + 1) := by
    rw [List.getElem_cons_drop, List.take_append_drop]
  exact h hsplit _ (List.mem_take_iff_getElem.2 ⟨i, by omega, rfl⟩)

/-- Where a block meets others, it keeps what sixteen bits count of the stack that its predecessors leave; elsewhere it
keeps all. -/
theorem Result.depth_cases (h : Result c frameSize g₀ g seg) (hlinked : g.Linked)
    (hentry : ∀ {b block}, g.block? b = some block → Graph.entry ∉ block.succs) {p t : BlockId}
    (hp : p ∈ g.preds t) :
    (seg t).enter.depth = (seg p).exit.depth ∨ (seg t).enter.depth = low16 (seg p).exit.depth := by
  obtain ⟨tblock, ht⟩ : ∃ block, g.block? t = some block := by
    cases ht : g.block? t with
    | none => simp [Graph.preds, ht] at hp
    | some block => exact ⟨block, rfl⟩
  have hpmem : p ∈ tblock.preds := by rwa [Graph.preds_eq ht] at hp
  obtain ⟨pblock, hpb⟩ := Graph.hasBlock_iff.1 (hlinked.pred_mem ht hpmem)
  have hsucc : t ∈ pblock.succs := (hlinked.mem_iff hpb ht).2 hpmem
  have hne : t ≠ Graph.entry := fun e => hentry hpb (e ▸ hsucc)
  obtain ⟨fp, rp, hpsplit⟩ := List.append_of_mem ((h.mem_order p).2 (Graph.hasBlock_iff.2 ⟨_, hpb⟩))
  obtain ⟨ft, rt, htsplit⟩ := List.append_of_mem ((h.mem_order t).2 (Graph.hasBlock_iff.2 ⟨_, ht⟩))
  rcases mem_front_or hpsplit htsplit with hfront | hback
  · -- The target was entered with the frame known.
    have hexit := h.construction.exitOf_eq (b := p) (by simp [hpsplit])
    have henters := (h.construction.built htsplit).enters
    generalize (seg t).heads = heads, (seg t).enter = enter, (seg t).first = n at henters
    cases henters with
    | entry he => exact absurd he hne
    | single _ hpreds _ =>
      rw [hpreds, List.mem_singleton] at hp
      exact Or.inl (by rw [← hexit, hp])
    | join _ _ hjoin =>
      cases hjoin with
      | mk _ _ hdepth _ hstack _ =>
        have hsource : some (g.exitOf p) ∈ sourcesOf g ft (g.preds t) :=
          List.mem_map.2 ⟨p, hp, by rw [if_pos hfront]⟩
        refine Or.inr ?_
        rw [← hexit, hdepth _ hsource, Frame.depth, List.length_reverse, hstack]
  · refine Or.inl (h.construction.depths hpsplit t ?_ (hback.symm.imp_right Eq.symm)).symm
    rwa [Graph.succs_eq hpb]

theorem Result.depth_le (h : Result c frameSize g₀ g seg) (hlinked : g.Linked)
    (hentry : ∀ {b block}, g.block? b = some block → Graph.entry ∉ block.succs) {p t : BlockId}
    (hp : p ∈ g.preds t) : (seg t).enter.depth ≤ (seg p).exit.depth := by
  rcases h.depth_cases hlinked hentry hp with hdepth | hdepth
  · exact Nat.le_of_eq hdepth
  · exact hdepth ▸ low16_le _

/-- A block has no more local slots than its predecessors leave. -/
theorem Result.size_le (h : Result c frameSize g₀ g seg) {p t : BlockId} (hpb : g.hasBlock p = true)
    (htb : g.hasBlock t = true) (hne : t ≠ Graph.entry) (hp : p ∈ g.preds t) :
    (seg t).enter.locals.size ≤ (seg p).exit.locals.size := by
  have hpo := (h.mem_order p).2 hpb
  obtain ⟨front, rest, hsplit⟩ := List.append_of_mem ((h.mem_order t).2 htb)
  have henters := (h.construction.built hsplit).enters
  generalize (seg t).heads = heads, (seg t).enter = enter, (seg t).first = n at henters
  cases henters with
  | entry he => exact absurd he hne
  | single _ hpreds _ =>
    rw [hpreds, List.mem_singleton] at hp
    rw [← h.construction.exitOf_eq hpo, hp]
  | join _ _ hjoin =>
    cases hjoin with
    | mk _ _ _ hlocals =>
      rw [List.size_toArray, hlocals]
      exact h.construction.le_size_locals p hpo

end Construction

/-! ## Patched segments -/

/-- What patching makes of a cell of a block. -/
def patchCell (g : Graph) (b : BlockId) (cell : Cell) : Cell :=
  (cell.1, (patchAt g b (cell.nodeIn b)).op)

theorem nodeIn_patchCell (g : Graph) (b : BlockId) (cell : Cell) :
    (patchCell g b cell).nodeIn b = patchAt g b (cell.nodeIn b) := by
  unfold patchCell Cell.nodeIn patchAt
  split
  · unfold patchNode
    dsimp only
    split <;> rfl
  · rfl

theorem patchCell_eq_self (g : Graph) (b : BlockId) {cell : Cell} (h : cell.2.isMerge = false) :
    patchCell g b cell = cell := by
  unfold patchCell patchAt
  split
  · rw [patchNode_eq_self h]
    rfl
  · rfl

theorem patchCell_merge (g : Graph) (b : BlockId) (type : ValueType) (slot : Slot) (args : List NodeId) :
    patchCell g b (type, .merge slot args) =
      (type, .merge slot (if g.isHeadAt b then
        Merge.patchArgs args ((exitsInto g b).map (·.slot? slot)) else args)) := by
  unfold patchCell patchAt
  split <;> rfl

/-- What patching makes of the segment of a block. -/
def patchSegment (g : Graph) (b : BlockId) (sg : Segment) : Segment :=
  { sg with heads := sg.heads.map (patchCell g b) }

theorem length_patchArgs (args : List NodeId) (values : List (Option NodeId)) :
    (Merge.patchArgs args values).length = args.length := by
  fun_induction Merge.patchArgs args values with
  | case1 arg args value values ih => simp [ih]
  | case2 => rfl

theorem getElem?_patchArgs {args : List NodeId} {values : List (Option NodeId)} {k : Nat} {arg v : NodeId}
    (harg : args[k]? = some arg) (hvalue : values[k]? = some (some v)) :
    (Merge.patchArgs args values)[k]? = some v := by
  fun_induction Merge.patchArgs args values generalizing k with
  | case1 first args value values ih =>
    cases k with
    | zero =>
      obtain rfl : value = some v := by simpa using hvalue
      rfl
    | succ k => exact ih harg hvalue
  | case2 args values hshort =>
    cases args with
    | nil => cases harg
    | cons arg args =>
      cases values with
      | nil => cases hvalue
      | cons value values => exact absurd rfl (hshort arg args value values rfl)

/-! ## The form -/

/-- A slot at the start of a block is handed over from the frame of its predecessor with an index. -/
def Handed (sg : Segment) (exit : Frame) (k : Nat) (slot : Slot) (id : NodeId) : Prop :=
  ∃ a, exit.slot? slot = some a ∧
    ((a = id ∧ id < sg.first) ∨
      ∃ j type args, id = sg.first + j ∧ sg.heads[j]? = some (type, .merge slot args) ∧ args[k]? = some a)

/-- No edge drops a slot of the frame that it hands over. -/
structure Lossless (frameSize : Nat) (g : Graph) (seg : BlockId → Segment) : Prop where
  size_locals : ∀ {b : BlockId}, g.hasBlock b = true →
    (seg b).enter.locals.size = frameSize ∧ (seg b).exit.locals.size = frameSize
  depth_eq : ∀ {p t : BlockId}, p ∈ g.preds t → (seg p).exit.depth = (seg t).enter.depth

/-- The graph of a method's nodes, block by block. -/
structure Form (c : Context) (frameSize : Nat) (g : Graph) (seg : BlockId → Segment) : Prop where
  linked : g.Linked
  entry_not_mem : ∀ {b : BlockId} {block : Block}, g.block? b = some block → Graph.entry ∉ block.succs
  nodup_order : g.order.Nodup
  mem_order : ∀ b, b ∈ g.order ↔ g.hasBlock b = true
  listed : ∀ {b : BlockId} {block : Block}, g.block? b = some block →
    block.nodes.toList = List.range' (seg b).first (seg b).cells.length
  exit_eq : ∀ {b : BlockId} {block : Block}, g.block? b = some block → block.exit = (seg b).exit
  table : ∀ {b : BlockId}, g.hasBlock b = true → ∀ {k : Nat} {cell : Cell}, (seg b).cells[k]? = some cell →
    g.node? ((seg b).first + k) = some (cell.nodeIn b)
  body : ∀ {b : BlockId}, g.hasBlock b = true →
    TranslatesAll c g.blockAtTarget? ((seg b).first + (seg b).heads.length) (g.instructionsOf b) (seg b).enter
      (seg b).body (seg b).exit
  tail_eq : ∀ {b : BlockId}, g.hasBlock b = true → (seg b).tail = tailOf g b
  entry_heads : (seg Graph.entry).heads = seedCells c.formals frameSize
  entry_enter : (seg Graph.entry).enter = seedFrame (seg Graph.entry).first (seedCells c.formals frameSize).length
  /-- Every node in front of the others is a merge and stands in its slot. -/
  heads : ∀ {b : BlockId}, g.hasBlock b = true → b ≠ Graph.entry → ∀ {j : Nat} {cell : Cell},
    (seg b).heads[j]? = some cell → ∃ type slot args, cell = (type, .merge slot args) ∧
      (seg b).enter.slot? slot = some ((seg b).first + j) ∧ args.length = (g.preds b).length
  handover : ∀ {t p : BlockId} {k : Nat}, (g.preds t)[k]? = some p → ∀ {slot : Slot} {id : NodeId},
    (seg t).enter.slot? slot = some id → Handed (seg t) (seg p).exit k slot id
  /-- Every block but the entry comes after one that leads to it. -/
  earlier_pred : ∀ {front rest : List BlockId} {b : BlockId}, g.order = front ++ b :: rest → b ≠ Graph.entry →
    ∃ p ∈ g.preds b, p ∈ front
  prior : ∀ {front rest : List BlockId} {b : BlockId}, g.order = front ++ b :: rest →
    ∀ p ∈ front, (seg p).stop ≤ (seg b).first
  /-- Nothing is dropped as long as sixteen bits count the local slots and the instructions. -/
  lossless : Fits c.formals frameSize → (g.order.flatMap g.instructionsOf).length < 65536 → Lossless frameSize g seg
  enter_lt : ∀ {b : BlockId}, g.hasBlock b = true → ∀ id ∈ (seg b).enter.ids,
    id < (seg b).first + (seg b).heads.length
  exit_lt : ∀ {b : BlockId}, g.hasBlock b = true → ∀ id ∈ (seg b).exit.ids,
    id < (seg b).first + (seg b).heads.length + (seg b).body.length

theorem Form.exitOf_eq {c : Context} {frameSize : Nat} {g : Graph} {seg : BlockId → Segment}
    (h : Form c frameSize g seg) {b : BlockId} (hb : g.hasBlock b = true) : g.exitOf b = (seg b).exit := by
  obtain ⟨block, hblock⟩ := Graph.hasBlock_iff.1 hb
  rw [Graph.exitOf, hblock, Option.map_some, Option.getD_some, h.exit_eq hblock]

section Patched

variable {c : Context} {frameSize : Nat} {g₀ g : Graph} {seg : BlockId → Segment}

theorem Result.split (h : Result c frameSize g₀ g seg) {b : BlockId} (hb : g.hasBlock b = true) :
    ∃ front rest, g.order = front ++ b :: rest :=
  List.append_of_mem ((h.mem_order b).2 hb)

theorem isMerge_seedCells (formals : List ValueType) (size : Nat) :
    ∀ cell ∈ seedCells formals size, cell.2.isMerge = false := by
  intro cell hcell
  rcases op_of_mem_seedCells hcell with ⟨index, hop⟩ | ⟨slot, hop⟩ <;> rw [hop] <;> rfl

theorem Result.nodesOf_eq (h : Result c frameSize g₀ g seg) {b : BlockId} (hb : g.hasBlock b = true) :
    nodesOf g b = List.range' (seg b).first (seg b).cells.length := by
  obtain ⟨front, rest, hsplit⟩ := h.split hb
  obtain ⟨block, hblock, hnodes⟩ := (h.construction.built hsplit).listed
  simp [nodesOf, hblock, hnodes]

/-- Patching changes each node with the block that lists it. -/
theorem Result.node?_patched (h : Result c frameSize g₀ g seg) {b : BlockId} (hb : g.hasBlock b = true) {id : NodeId}
    (hid : id ∈ nodesOf g b) : (patched g).node? id = (g.node? id).map (patchAt g b) := by
  refine @node?_foldl_headPatched (0, g) g.order ?_ ?_ b ((h.mem_order b).2 hb) id hid
  · intro k hk
    rw [h.nodesOf_eq ((h.mem_order k).1 hk)]
    exact List.nodup_range'
  · refine pairwise_of_front fun {front rest k} hsplit p hp => ?_
    have hle := h.construction.prior hsplit p hp
    rw [h.nodesOf_eq ((h.mem_order p).1 (by simp [hsplit, hp])), h.nodesOf_eq ((h.mem_order k).1 (by simp [hsplit]))]
    intro x hx hy
    have hx := (List.mem_range'_1.1 hx).2
    have hy := (List.mem_range'_1.1 hy).1
    exact absurd (Nat.lt_of_lt_of_le hx (Nat.le_trans hle hy)) (Nat.lt_irrefl x)

/-- Only the first nodes of a segment are changed. -/
theorem Result.cells_patchSegment (h : Result c frameSize g₀ g seg) {b : BlockId} (hb : g.hasBlock b = true) :
    (patchSegment g b (seg b)).cells = (seg b).cells.map (patchCell g b) := by
  obtain ⟨front, rest, hsplit⟩ := h.split hb
  have hbuilt := h.construction.built hsplit
  have hbody : (seg b).body.map (patchCell g b) = (seg b).body := by
    refine (List.map_congr_left fun cell hcell => ?_).trans (List.map_id' _)
    exact patchCell_eq_self g b (hbuilt.body.isMerge_eq_false cell hcell)
  have htail : (seg b).tail.map (patchCell g b) = (seg b).tail := by
    refine (List.map_congr_left fun cell hcell => ?_).trans (List.map_id' _)
    refine patchCell_eq_self g b ?_
    rw [hbuilt.tail_eq, tailOf] at hcell
    split at hcell
    · cases hcell
    · split at hcell
      · rw [List.mem_singleton.1 hcell]
        rfl
      · cases hcell
  simp only [Segment.cells, patchSegment, List.map_append, hbody, htail]

theorem Result.table (h : Result c frameSize g₀ g seg) {b : BlockId} (hb : g.hasBlock b = true) {k : Nat}
    {cell : Cell} (hcell : (patchSegment g b (seg b)).cells[k]? = some cell) :
    (patched g).node? ((seg b).first + k) = some (cell.nodeIn b) := by
  rw [h.cells_patchSegment hb, List.getElem?_map, Option.map_eq_some_iff] at hcell
  obtain ⟨old, hold, rfl⟩ := hcell
  obtain ⟨front, rest, hsplit⟩ := h.split hb
  have hmem : (seg b).first + k ∈ nodesOf g b := by
    rw [h.nodesOf_eq hb, List.mem_range'_1]
    exact ⟨Nat.le_add_right _ _, Nat.add_lt_add_left (List.getElem?_eq_some_iff.1 hold).1 _⟩
  rw [h.node?_patched hb hmem, (h.construction.built hsplit).table hold, Option.map_some, nodeIn_patchCell]

/-- The merges of a block, after patching. -/
theorem Result.heads (h : Result c frameSize g₀ g seg) {b : BlockId} (hb : g.hasBlock b = true)
    (hne : b ≠ Graph.entry) {j : Nat} {cell : Cell} (hcell : (patchSegment g b (seg b)).heads[j]? = some cell) :
    ∃ type slot args, cell = (type, .merge slot args) ∧ (seg b).enter.slot? slot = some ((seg b).first + j) ∧
      args.length = (g.preds b).length := by
  obtain ⟨front, rest, hsplit⟩ := h.split hb
  have henters := (h.construction.built hsplit).enters
  simp only [patchSegment, List.getElem?_map, Option.map_eq_some_iff] at hcell
  obtain ⟨old, hold, rfl⟩ := hcell
  generalize (seg b).heads = heads, (seg b).enter = enter, (seg b).first = n at henters hold ⊢
  cases henters with
  | entry he => exact absurd he hne
  | single => cases hold
  | join _ _ hjoin =>
    cases hjoin with
    | mk _ _ _ hlocals hstack hmerges =>
      obtain ⟨type, slot, pos, rfl, hslot, hid⟩ := hmerges.cell hold
      rw [← hlocals, ← hstack] at hslot
      rw [patchCell_merge]
      refine ⟨_, _, _, rfl, slot?_mk_iff.2 ⟨pos, hslot, hid⟩, ?_⟩
      split
      · simp [length_patchArgs, incoming, sourcesOf]
      · simp [incoming, sourcesOf]

/-- What an edge is made of. -/
theorem edge_facts (hlinked : g.Linked) (hentry : ∀ {b block}, g.block? b = some block → Graph.entry ∉ block.succs)
    {p t : BlockId} (hp : p ∈ g.preds t) :
    g.hasBlock p = true ∧ g.hasBlock t = true ∧ t ∈ g.succs p ∧ t ≠ Graph.entry := by
  cases ht : g.block? t with
  | none => simp [Graph.preds, ht] at hp
  | some tblock =>
    rw [Graph.preds_eq ht] at hp
    obtain ⟨pblock, hpb⟩ := Graph.hasBlock_iff.1 (hlinked.pred_mem ht hp)
    have hsucc : t ∈ pblock.succs := (hlinked.mem_iff hpb ht).2 hp
    refine ⟨Graph.hasBlock_iff.2 ⟨_, hpb⟩, Graph.hasBlock_iff.2 ⟨_, ht⟩, ?_, fun e => hentry hpb (e ▸ hsucc)⟩
    rwa [Graph.succs_eq hpb]

section Join

variable {front : List BlockId} {t p : BlockId} {k : Nat} {slot : Slot} {a : NodeId}
  (hk : (g.preds t)[k]? = some p) (ha : (g.exitOf p).slot? slot = some a)
include hk

theorem getElem?_sourcesOf :
    (sourcesOf g front (g.preds t))[k]? = some (if p ∈ front then some (g.exitOf p) else none) := by
  rw [sourcesOf, List.getElem?_map, hk]
  rfl

include ha

/-- A predecessor that is built hands in what is in the slot. -/
theorem getElem?_incoming (hfront : p ∈ front) :
    (incoming (sourcesOf g front (g.preds t)) slot)[k]? = some (some a) := by
  rw [incoming, List.getElem?_map, getElem?_sourcesOf hk, if_pos hfront]
  simp [ha]

theorem getElem?_exitsInto : ((exitsInto g t).map (·.slot? slot))[k]? = some (some a) := by
  rw [exitsInto, List.getElem?_map, List.getElem?_map, hk]
  simp [ha]

/-- A join takes the value that a predecessor leaves in a slot as it is, or as an argument of the merge for the
slot once the heads of loops are patched. -/
theorem Joins.handed {n id : NodeId} {heads : List Cell} {enter : Frame}
    (hbelow : p ∈ front → a < n) (hslot : enter.slot? slot = some id)
    (hjoin : Joins (g.isHeadAt t) (sourcesOf g front (g.preds t)) frameSize n heads enter) :
    (a = id ∧ id < n) ∨ ∃ j type args, id = n + j ∧
      (heads.map (patchCell g t))[j]? = some (type, .merge slot args) ∧ args[k]? = some a := by
  cases hjoin with
  | mk hknown _ _ hlocals hstack hmerges =>
    obtain ⟨pos, hpos, hid⟩ := slot?_mk_iff.1 hslot
    rw [hlocals, hstack] at hpos
    -- Only the head of a loop has predecessors that come later.
    have hfront : g.isHeadAt t = false → p ∈ front := by
      intro hhead
      by_contra hnot
      have := hknown hhead _ (List.mem_of_getElem? (getElem?_sourcesOf hk))
      simp [hnot] at this
    rcases hmerges.slot hpos hid with ⟨hhead, hagreed⟩ | ⟨j, type, rfl, hcell⟩
    · have := eq_some_of_agreed? hagreed _ (List.mem_of_getElem? (getElem?_incoming hk ha (hfront hhead)))
      obtain rfl := Option.some.inj this
      exact Or.inl ⟨rfl, hbelow (hfront hhead)⟩
    · refine Or.inr ⟨j, type, _, rfl, by rw [List.getElem?_map, hcell, Option.map_some, patchCell_merge], ?_⟩
      split
      · refine @getElem?_patchArgs _ _ _ (((if p ∈ front then some (g.exitOf p) else none).bind
          (·.slot? slot)).getD (n + j)) _ ?_ (getElem?_exitsInto hk ha)
        rw [List.getElem?_map, incoming, List.getElem?_map, getElem?_sourcesOf hk]
        rfl
      · next hhead =>
        rw [List.getElem?_map, getElem?_incoming hk ha (hfront (by simpa using hhead))]
        rfl

end Join

theorem Result.handover (h : Result c frameSize g₀ g seg) (hlinked : g.Linked)
    (hentry : ∀ {b block}, g.block? b = some block → Graph.entry ∉ block.succs) {t p : BlockId} {k : Nat}
    (hk : (g.preds t)[k]? = some p) {slot : Slot} {id : NodeId} (hslot : (seg t).enter.slot? slot = some id) :
    Handed (patchSegment g t (seg t)) (seg p).exit k slot id := by
  have hp : p ∈ g.preds t := List.mem_of_getElem? hk
  obtain ⟨hpb, htb, -, hne⟩ := edge_facts hlinked hentry hp
  have hpo := (h.mem_order p).2 hpb
  -- The frame before the edge has all slots of the one after it.
  obtain ⟨a, ha⟩ : ∃ a, (seg p).exit.slot? slot = some a := by
    rw [← Option.isSome_iff_exists]
    refine Frame.isSome_slot?_mono (h.size_le hpb htb hne hp) (h.depth_le hlinked hentry hp) ?_
    rw [hslot]
    rfl
  refine ⟨a, ha, ?_⟩
  obtain ⟨front, rest, hsplit⟩ := h.split htb
  have hexit := h.construction.exitOf_eq hpo
  have hbelow : p ∈ front → a < (seg t).first := fun hfront =>
    Nat.lt_of_lt_of_le ((h.construction.lt_of_mem_ids p hpo).2 a (Frame.mem_ids_iff.2 ⟨slot, ha⟩))
      (Nat.le_trans (seg p).body_le_stop (h.construction.prior hsplit p hfront))
  have henters := (h.construction.built hsplit).enters
  rw [← hexit] at ha
  simp only [patchSegment]
  generalize (seg t).heads = heads, (seg t).enter = enter, (seg t).first = n at henters hslot hbelow ⊢
  cases henters with
  | entry he => exact absurd he hne
  | single _ hpreds hfront =>
    obtain rfl : p = _ := List.mem_singleton.1 (hpreds ▸ hp)
    rw [ha] at hslot
    obtain rfl := Option.some.inj hslot
    exact Or.inl ⟨rfl, hbelow hfront⟩
  | join _ _ hjoin => exact hjoin.handed hk ha hbelow hslot

theorem Result.lossless (h : Result c frameSize g₀ g seg) (hlinked : g.Linked)
    (hentry : ∀ {b block}, g.block? b = some block → Graph.entry ∉ block.succs) (hfits : Fits c.formals frameSize)
    (hshort : (g.order.flatMap g.instructionsOf).length < 65536) : Lossless frameSize g seg := by
  refine ⟨fun hb => h.construction.size_locals hfits _ ((h.mem_order _).2 hb), fun {p t} hp => ?_⟩
  have hpb := (edge_facts hlinked hentry hp).1
  have hdeep := h.construction.depth_le p ((h.mem_order p).2 hpb)
  rcases h.depth_cases hlinked hentry hp with hdepth | hdepth
  · exact hdepth.symm
  · rw [hdepth, low16_of_lt (Nat.lt_of_le_of_lt hdeep hshort)]

theorem Result.earlier_pred (h : Result c frameSize g₀ g seg) {front rest : List BlockId} {b : BlockId}
    (hsplit : g.order = front ++ b :: rest) (hne : b ≠ Graph.entry) : ∃ p ∈ g.preds b, p ∈ front := by
  have henters := (h.construction.built hsplit).enters
  generalize (seg b).heads = heads, (seg b).enter = enter, (seg b).first = n at henters
  cases henters with
  | entry he => exact absurd he hne
  | single _ hpreds hfront => exact ⟨_, by rw [hpreds]; exact List.mem_singleton_self _, hfront⟩
  | join _ _ hjoin =>
    cases hjoin with
    | mk _ hsome =>
      obtain ⟨f, hf⟩ := hsome
      obtain ⟨p, hp, hfront, -⟩ := mem_sourcesOf hf
      exact ⟨p, hp, hfront⟩

/-- The pass leaves the nodes in form, once patched. -/
theorem form_patched (h : Result c frameSize g₀ g seg) (hlinked : g.Linked)
    (hentry : ∀ {b block}, g.block? b = some block → Graph.entry ∉ block.succs)
    (hhas : g.hasBlock Graph.entry = true) :
    Form c frameSize (patched g) fun b => patchSegment g b (seg b) := by
  have hlength : ∀ b, (patchSegment g b (seg b)).heads.length = (seg b).heads.length := by simp [patchSegment]
  have hseeds : (seg Graph.entry).heads = seedCells c.formals frameSize ∧
      (seg Graph.entry).enter = seedFrame (seg Graph.entry).first (seedCells c.formals frameSize).length := by
    obtain ⟨front, rest, hsplit⟩ := h.split hhas
    have henters := (h.construction.built hsplit).enters
    generalize (seg Graph.entry).heads = heads, (seg Graph.entry).enter = enter,
      (seg Graph.entry).first = n at henters ⊢
    cases henters with
    | entry => exact ⟨rfl, rfl⟩
    | single hne => exact absurd rfl hne
    | join hne => exact absurd rfl hne
  -- Only the table of nodes is not that of the graph before.
  rw [patched_eq g]
  refine ⟨hlinked.of_keeps (Graph.Keeps.refl _ g), hentry, h.construction.nodup, h.mem_order, ?_, ?_,
    fun hb _ _ hcell => h.table hb hcell, ?_, ?_, ?_, ?_, fun hb hne _ _ hcell => h.heads hb hne hcell,
    fun hk _ _ hslot => h.handover hlinked hentry hk hslot, ?_, ?_, ?_, ?_, ?_⟩
  · intro b block hb
    have hhas : g.hasBlock b = true := Graph.hasBlock_iff.2 ⟨block, hb⟩
    have hb : g.block? b = some block := hb
    rw [h.cells_patchSegment hhas, List.length_map]
    exact (by simp [nodesOf, hb] : block.nodes.toList = nodesOf g b).trans (h.nodesOf_eq hhas)
  · intro b block hb
    have hb : g.block? b = some block := hb
    have := h.construction.exitOf_eq ((h.mem_order b).2 (Graph.hasBlock_iff.2 ⟨block, hb⟩))
    exact (by simp [Graph.exitOf, hb] : block.exit = g.exitOf b).trans this
  · intro b hb
    obtain ⟨front, rest, hsplit⟩ := h.split hb
    rw [hlength]
    exact (h.construction.built hsplit).body
  · intro b hb
    obtain ⟨front, rest, hsplit⟩ := h.split hb
    exact (h.construction.built hsplit).tail_eq
  · rw [← hseeds.1]
    refine (List.map_congr_left fun cell hcell => ?_).trans (List.map_id' _)
    exact patchCell_eq_self g _ (isMerge_seedCells _ _ cell (hseeds.1 ▸ hcell))
  · exact hseeds.2
  · exact fun hsplit hne => h.earlier_pred hsplit hne
  · intro front rest b hsplit p hp
    have hp' : g.hasBlock p = true := (h.mem_order p).1 (by rw [show g.order = _ from hsplit]; simp [hp])
    have := h.construction.prior hsplit p hp
    rwa [Segment.stop, ← List.length_map (patchCell g p), ← h.cells_patchSegment hp'] at this
  · intro hfits hshort
    have hloss := h.lossless hlinked hentry hfits hshort
    exact ⟨hloss.size_locals, hloss.depth_eq⟩
  · intro b hb
    rw [hlength]
    exact (h.construction.lt_of_mem_ids b ((h.mem_order b).2 hb)).1
  · intro b hb
    rw [hlength]
    exact (h.construction.lt_of_mem_ids b ((h.mem_order b).2 hb)).2

end Patched

end Destack.Ssa