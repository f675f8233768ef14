import Destack.Proofs.Accounting
import Destack.Proofs.Machine.Runs

/-!
# Positions of instructions

The number that an instruction of a compiled method carries is its position in the method, and so is the number under
which its block lists it. An allocator that names a register for a virtual register at a position is therefore asked
about the place where the instruction stands, and one that names physical registers only leaves nothing to do for a
second time.
-/

namespace Destack

open Machine (Instr Line)

/-! ## Numbers and positions -/

theorem Compiled.listing_eq (c : Compiled) : c.listing = c.graph.placed.filterMap c.graph.instr? := by
  rw [listing, Graph.placed_eq, List.filterMap_flatMap]
  rfl

/-- The instruction with a number stands at that position. -/
theorem Compiled.getElem?_listing {c : Compiled} (h : c.graph.placed = List.range c.graph.instrs.size) (k : Nat) :
    c.listing[k]? = c.graph.instr? k := by
  have hlisting : c.listing.map some = (List.range c.graph.instrs.size).map c.graph.instr? := by
    rw [c.listing_eq, h]
    exact Graph.map_some_filterMap_instr? fun id hid => List.mem_range.1 hid
  have htable : (List.range c.graph.instrs.size).map c.graph.instr? = c.graph.table.map some := by
    apply List.ext_getElem
    · simp [Graph.length_table]
    · intro k hk hk'
      simp [Graph.instr?_eq]
  rw [List.map_injective_iff.2 (Option.some_injective _) (hlisting.trans htable), Graph.instr?_eq]

/-! ## Assigning registers -/

/-- What becomes of a register at a position: an allocator is asked for virtual registers only, and what it does not
know stays. -/
inductive Renamed (lookup : Register → InstrId → Option Register) (k : InstrId) : Register → Register → Prop where
  | found {r r' : Register} : r.isVirtual = true → lookup r k = some r' → Renamed lookup k r r'
  | unknown {r : Register} : r.isVirtual = true → lookup r k = none → Renamed lookup k r r
  | physical {r : Register} : r.isPhysical = true → Renamed lookup k r r

/-- What becomes of an instruction at a position. -/
structure Reassigned (lookup : Register → InstrId → Option Register) (k : InstrId) (i i' : Instr) : Prop where
  op_eq : i'.op = i.op
  reads : List.Forall₂ (Renamed lookup k) i.reads i'.reads
  write : Option.Rel (Renamed lookup k) i.write i'.write

variable {lookup : Register → InstrId → Option Register} {k : InstrId}

theorem renamed_substitute (lookup : Register → InstrId → Option Register) (k : InstrId) (r : Register) :
    Renamed lookup k r (Compiled.substitute lookup k r) := by
  unfold Compiled.substitute
  split
  · next hvirtual =>
    cases hr : lookup r k with
    | some r' => exact .found hvirtual hr
    | none => exact .unknown hvirtual hr
  · next hphysical => exact .physical (by simpa [Register.isVirtual] using hphysical)

theorem reassigned_mapRegisters (lookup : Register → InstrId → Option Register) (k : InstrId) (i : Instr) :
    Reassigned lookup k i (i.mapRegisters (Compiled.substitute lookup k)) where
  op_eq := rfl
  reads := by
    rw [Instr.mapRegisters, List.forall₂_map_right_iff, List.forall₂_same]
    exact fun r _ => renamed_substitute lookup k r
  write := by
    cases hwrite : i.write with
    | none => simp [Instr.mapRegisters, hwrite]
    | some r =>
      rw [Instr.mapRegisters, hwrite]
      exact .some (renamed_substitute lookup k r)

theorem substitute_of_isPhysical {r : Register} (h : r.isPhysical = true) : Compiled.substitute lookup k r = r := by
  simp [Compiled.substitute, Register.isVirtual, h]

/-- What was replaced by physical registers is not replaced again. -/
theorem mapRegisters_substitute_twice (hphysical : ∀ r k r', lookup r k = some r' → r'.isPhysical = true) (i : Instr) :
    (i.mapRegisters (Compiled.substitute lookup k)).mapRegisters (Compiled.substitute lookup k) =
      i.mapRegisters (Compiled.substitute lookup k) := by
  have htwice : ∀ r,
      Compiled.substitute lookup k (Compiled.substitute lookup k r) = Compiled.substitute lookup k r := by
    intro r
    generalize hr' : Compiled.substitute lookup k r = r'
    have hrenamed := renamed_substitute lookup k r
    rw [hr'] at hrenamed
    cases hrenamed with
    | found hvirtual hfound => exact substitute_of_isPhysical (hphysical _ _ _ hfound)
    | unknown => exact hr'
    | physical => exact hr'
  simp only [Instr.mapRegisters, List.map_map, Option.map_map, Function.comp_def, htwice]

theorem getElem?_foldl_modify {α : Type} (f : Nat → α → α) {ids : List Nat} (hids : ids.Nodup)
    (xs : Array α) (k : Nat) :
    (ids.foldl (fun xs id => xs.modify id (f id)) xs)[k]? = if k ∈ ids then xs[k]?.map (f k) else xs[k]? := by
  induction ids generalizing xs with
  | nil => rfl
  | cons id ids ih =>
    obtain ⟨hid, hids⟩ := List.nodup_cons.1 hids
    rw [List.foldl_cons, ih hids, Array.getElem?_modify]
    by_cases hk : id = k
    · subst hk
      rw [if_neg hid, if_pos rfl, if_pos List.mem_cons_self]
    · rw [if_neg hk]
      refine if_congr ?_ rfl rfl
      rw [List.mem_cons, or_iff_right (Ne.symm hk)]

theorem size_foldl_modify {α : Type} (f : Nat → α → α) (ids : List Nat) (xs : Array α) :
    (ids.foldl (fun xs id => xs.modify id (f id)) xs).size = xs.size := by
  induction ids generalizing xs with
  | nil => rfl
  | cons id ids ih => rw [List.foldl_cons, ih, Array.size_modify]

theorem Graph.foldl_modifyInstr (f : InstrId → Instr → Instr) (ids : List InstrId) (g : Graph) :
    ids.foldl (fun g id => g.modifyInstr id (f id)) g =
      { g with instrs := ids.foldl (fun lines id => lines.modify id (Line.modify (f id))) g.instrs } := by
  induction ids generalizing g with
  | nil => rfl
  | cons id ids ih => exact ih _

/-- Only the table of instructions changes. -/
theorem Compiled.assignRegisters_eq (c : Compiled) (lookup : Register → InstrId → Option Register) :
    c.assignRegisters lookup =
      { c with graph := { c.graph with instrs := (c.assignRegisters lookup).graph.instrs } } := by
  rw [assignRegisters, Graph.foldl_modifyInstr]

theorem Compiled.line?_assignRegisters {c : Compiled} (h : c.graph.placed = List.range c.graph.instrs.size)
    (lookup : Register → InstrId → Option Register) (k : InstrId) :
    (c.assignRegisters lookup).graph.line? k =
      (c.graph.line? k).map (Line.modify (Instr.mapRegisters (substitute lookup k))) := by
  rw [assignRegisters, Graph.foldl_modifyInstr, Graph.line?, h]
  dsimp only
  rw [getElem?_foldl_modify (fun id => Line.modify (Instr.mapRegisters (substitute lookup id))) List.nodup_range]
  split
  · rfl
  · next hk =>
    rw [List.mem_range, Nat.not_lt] at hk
    rw [Graph.line?, Array.getElem?_eq_none hk, Option.map_none]

theorem Compiled.instr?_assignRegisters {c : Compiled} (h : c.graph.placed = List.range c.graph.instrs.size)
    (lookup : Register → InstrId → Option Register) (k : InstrId) :
    (c.assignRegisters lookup).graph.instr? k =
      (c.graph.instr? k).map (Instr.mapRegisters (substitute lookup k)) := by
  rw [Graph.instr?, line?_assignRegisters h, Graph.instr?, Option.map_map, Option.map_map]
  rfl

/-- Registers change and numbers stay. -/
theorem Compiled.numbersLines_assignRegisters {c : Compiled} (h : c.graph.placed = List.range c.graph.instrs.size)
    (hnumbers : c.graph.NumbersLines) (lookup : Register → InstrId → Option Register) :
    (c.assignRegisters lookup).graph.NumbersLines := by
  intro k line hline
  rw [line?_assignRegisters h] at hline
  obtain ⟨old, hold, rfl⟩ := Option.map_eq_some_iff.1 hline
  exact hnumbers k old hold

theorem Compiled.placed_assignRegisters {c : Compiled} (h : c.graph.placed = List.range c.graph.instrs.size)
    (lookup : Register → InstrId → Option Register) :
    (c.assignRegisters lookup).graph.placed = List.range (c.assignRegisters lookup).graph.instrs.size := by
  rw [assignRegisters, Graph.foldl_modifyInstr]
  dsimp only
  rw [size_foldl_modify, ← h]
  rfl

theorem Compiled.assignRegisters_twice {c : Compiled} (h : c.graph.placed = List.range c.graph.instrs.size)
    (hphysical : ∀ r k r', lookup r k = some r' → r'.isPhysical = true) :
    (c.assignRegisters lookup).assignRegisters lookup = c.assignRegisters lookup := by
  have hinstrs : ((c.assignRegisters lookup).assignRegisters lookup).graph.instrs =
      (c.assignRegisters lookup).graph.instrs := by
    refine Array.ext_getElem? fun k => ?_
    have htwice := line?_assignRegisters (c.placed_assignRegisters h lookup) lookup k
    rw [line?_assignRegisters h, Option.map_map] at htwice
    refine htwice.trans ((Option.map_congr fun line _ => ?_).trans (line?_assignRegisters h lookup k).symm)
    exact congrArg (Line.mk line.id) (mapRegisters_substitute_twice hphysical line.instr)
  rw [assignRegisters_eq (c.assignRegisters lookup), hinstrs]

/-- How an allocator changes a compiled method: only its instructions, each by what is named for its registers at the
position where it stands. -/
structure AssignsByPosition (lookup : Register → InstrId → Option Register) (c : Compiled) : Prop where
  rest_eq : c.assignRegisters lookup =
    { c with graph := { c.graph with instrs := (c.assignRegisters lookup).graph.instrs } }
  numbers : (c.assignRegisters lookup).graph.NumbersLines
  length_eq : (c.assignRegisters lookup).listing.length = c.listing.length
  reassigned : ∀ k i, c.listing[k]? = some i →
    ∃ i', (c.assignRegisters lookup).listing[k]? = some i' ∧ Reassigned lookup k i i'
  /-- An allocator that names physical registers only has nothing to do a second time. -/
  twice : (∀ r k r', lookup r k = some r' → r'.isPhysical = true) →
    (c.assignRegisters lookup).assignRegisters lookup = c.assignRegisters lookup

/-- The numbers of the instructions of a compiled method are their positions: those under which the blocks list them,
those that they carry, and those under which an allocator is asked about their registers. -/
structure NumberedByPosition (c : Compiled) : Prop where
  placed_eq : c.graph.placed = List.range c.graph.instrs.size
  numbers : c.graph.NumbersLines
  position : ∀ k : Nat, c.listing[k]? = c.graph.instr? k
  assigns : ∀ lookup, AssignsByPosition lookup c

theorem Compiled.listing_assignRegisters {c : Compiled} (h : c.graph.placed = List.range c.graph.instrs.size)
    (lookup : Register → InstrId → Option Register) :
    (c.assignRegisters lookup).listing = c.listing.mapIdx fun k => Instr.mapRegisters (substitute lookup k) := by
  refine List.ext_getElem? fun k => ?_
  rw [getElem?_listing (c.placed_assignRegisters h lookup), instr?_assignRegisters h, List.getElem?_mapIdx,
    getElem?_listing h]

theorem assignsByPosition {c : Compiled} (h : c.graph.placed = List.range c.graph.instrs.size)
    (hnumbers : c.graph.NumbersLines) (lookup : Register → InstrId → Option Register) : AssignsByPosition lookup c := by
  refine ⟨c.assignRegisters_eq lookup, c.numbersLines_assignRegisters h hnumbers lookup, ?_, fun k i hk => ?_,
    c.assignRegisters_twice h⟩
  · rw [Compiled.listing_assignRegisters h, List.length_mapIdx]
  · refine ⟨_, ?_, reassigned_mapRegisters lookup k i⟩
    rw [Compiled.listing_assignRegisters h, List.getElem?_mapIdx, hk, Option.map_some]

/-! ## Compiled methods -/

/-- The instructions that lowering leaves to be numbered stand in one place each. -/
theorem Stages.Succeed.exists_placedOnce {st : Stages} {table : OperandTable} {pool : ConstantPool} {m : Method}
    {labelPrefix : String} {c : Compiled} (h : st.Succeed table pool m labelPrefix c) :
    ∃ t u, Machine.LowerM.lowerAll { graph := st.cleaned.graph, stats := st.cleaned.stats, labelPrefix } = .ok () t ∧
      Machine.LowerM.resolveMerges t = .ok () u ∧ u.graph.PlacedOnce ∧ c.graph = u.graph.renumber := by
  obtain ⟨_, _, _, -, hprepared, helided⟩ := Ssa.exists_elided h
  have hstart : st.cleaned.graph.PlacedOnce := .of_carries_nil (Machine.carries_nil_of_elided hprepared helided)
  obtain ⟨_, t, hall, hrest⟩ := Pass.bind_eq_ok.1 h.lower
  obtain ⟨_, u, hresolve, hrest⟩ := Pass.bind_eq_ok.1 hrest
  obtain ⟨_, v, hrenumber, hrest⟩ := Pass.bind_eq_ok.1 hrest
  obtain rfl := Pass.modify_eq_ok.1 hrenumber
  obtain ⟨_, _, hget, hdata⟩ := Pass.bind_eq_ok.1 hrest
  obtain ⟨-, rfl⟩ := Pass.get_eq_ok.1 hget
  obtain ⟨-, hlowered⟩ := Pass.pure_eq_ok.1 hdata
  have ht : t.graph.PlacedOnce := (Machine.LowerM.leads_lowerAll.of_ok hall).placed hstart
  have hu : u.graph.PlacedOnce := (Machine.LowerM.leads_resolveMerges.of_ok hresolve).placed ht
  exact ⟨t, u, hall, hresolve, hu, by rw [h.graph_eq, ← hlowered]⟩

/-- Numbers are positions. Numbering the instructions of a graph keeps those that are placed, each block's in its order,
and drops the others; read block by block the new numbers count up from zero, and each instruction carries the number
under which it is listed. It is what ends the lowering of every method that compiles, so that an allocator sees every
instruction of the method under its position. -/
theorem numbers_are_positions :
    (∀ g : Graph, g.PlacedOnce → g.renumber.placed = List.range g.renumber.instrs.size ∧ g.renumber.NumbersLines ∧
      Graph.Compacts g.placed.idxOf? g g.renumber) ∧
    ∀ {table : OperandTable} {pool : ConstantPool} {m : Method} {labelPrefix : String}
      {s s' : Statistics} {c : Compiled},
      compile table pool m labelPrefix s = .ok c s' →
        NumberedByPosition c ∧ ∃ st : Stages, st.Succeed table pool m labelPrefix c ∧
          ∃ t u,
            Machine.LowerM.lowerAll { graph := st.cleaned.graph, stats := st.cleaned.stats, labelPrefix } = .ok () t ∧
            Machine.LowerM.resolveMerges t = .ok () u ∧ u.graph.PlacedOnce ∧ c.graph = u.graph.renumber := by
  refine ⟨fun g hg => ⟨hg.placed_renumber, hg.numbersLines_renumber, hg.compacts_renumber⟩, fun h => ?_⟩
  obtain ⟨st, hst⟩ := compile_eq_ok h
  obtain ⟨t, u, hall, hresolve, hu, hgraph⟩ := hst.exists_placedOnce
  have hplaced := hgraph ▸ hu.placed_renumber
  have hnumbers := hgraph ▸ hu.numbersLines_renumber
  exact ⟨⟨hplaced, hnumbers, Compiled.getElem?_listing hplaced, assignsByPosition hplaced hnumbers⟩,
    st, hst, t, u, hall, hresolve, hu, hgraph⟩

/-- Two blocks whose instructions were made out of order, and an instruction that stands in neither. -/
def strayInstruction : Graph where
  blocks := (∅ : Std.TreeMap BlockId Block).insertMany [(0, { code := #[3, 0] }), (2, { code := #[2] })]
  instrs := #[⟨0, .jump 2, [], none⟩, ⟨1, .raise, [.virtual 0], none⟩, ⟨2, .ret, [], none⟩,
    ⟨3, .loadConst 7, [], some (.virtual 0)⟩]

theorem placedOnce_strayInstruction : strayInstruction.PlacedOnce := by
  have hplaced : strayInstruction.placed = [3, 0, 2] := by decide +kernel
  constructor
  · rw [hplaced]
    decide
  · rw [hplaced]
    decide +kernel

/-- An allocator that knows eight registers, and those only at the first four positions. -/
def earlyRegisters (r : Register) (k : InstrId) : Option Register :=
  if k < 4 then some ⟨4 + r.id % 8⟩ else none

theorem isPhysical_of_earlyRegisters (r : Register) (k : InstrId) (r' : Register) (h : earlyRegisters r k = some r') :
    r'.isPhysical = true := by
  unfold earlyRegisters at h
  split at h
  · obtain rfl := Option.some.inj h
    exact decide_eq_true (show 4 + r.id % 8 < 16 by omega)
  · cases h

theorem strayInstruction_and_sumTo_numbers_are_positions :
    (strayInstruction.PlacedOnce ∧ strayInstruction.renumber.line? 0 = some ⟨0, .loadConst 7, [], some (.virtual 0)⟩ ∧
      strayInstruction.renumber.NumbersLines ∧
      Graph.Compacts strayInstruction.placed.idxOf? strayInstruction strayInstruction.renumber) ∧
    ∃ c s, compile .standard .empty sumTo "Sum_upTo" {} = .ok c s ∧ NumberedByPosition c ∧
      (c.assignRegisters earlyRegisters).assignRegisters earlyRegisters = c.assignRegisters earlyRegisters := by
  obtain ⟨c, s, hc⟩ := exists_of_compiles compiles_sumTo
  obtain ⟨-, hnumbers, hstray⟩ := numbers_are_positions.1 strayInstruction placedOnce_strayInstruction
  have hc' := (numbers_are_positions.2 hc).1
  refine ⟨⟨placedOnce_strayInstruction, ?_, hnumbers, hstray⟩, c, s, hc, hc', ?_⟩
  · have hfirst : strayInstruction.placed.idxOf? 3 = some 0 := by decide +kernel
    obtain ⟨line, hline, hinstr⟩ := Option.map_eq_some_iff.1 (hstray.instr hfirst)
    obtain ⟨id, i⟩ := line
    obtain rfl : id = 0 := hnumbers 0 _ hline
    obtain rfl : i = ⟨.loadConst 7, [], some (.virtual 0)⟩ := hinstr
    exact hline
  · exact (hc'.assigns earlyRegisters).twice isPhysical_of_earlyRegisters

end Destack
