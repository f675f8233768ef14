import Destack.Proofs.Graph.ControlFlow

/-!
# The division of code into blocks

A block starts at the first instruction, at each target of a jump, and behind each instruction that ends a block
(`StartsBlock`). The marks are set at exactly these instructions (`markLeaders_eq`), whether or not they can be
reached, and the blocks are cut exactly at the marks. So the code is the blocks put one after the other, in the order
of their numbers, and each block is known by the address of its first instruction (`Divides`).
-/

namespace Destack

/-- An instruction of the code starts a block: it is the first one, a jump leads to it, or the one in front of it ends
a block. -/
def StartsBlock (is : List Instruction) (i : Instruction) : Prop :=
  is.head? = some i ∨ (∃ j ∈ is, (i.address : Int) ∈ j.jumpTargets) ∨
    ∃ j ∈ is, Adjacent is j i ∧ j.category.endsBlock = true

instance (is : List Instruction) (i j : Instruction) : Decidable (Adjacent is i j) :=
  inferInstanceAs (Decidable ([i, j] <:+: is))

instance (is : List Instruction) (i : Instruction) : Decidable (StartsBlock is i) :=
  inferInstanceAs (Decidable (_ ∨ _ ∨ _))

/-- The code, each instruction marked if it starts a block. -/
def marked (is : List Instruction) : List Instruction :=
  is.map fun i => { i with leader := decide (StartsBlock is i) }

namespace Graph

/-- A graph that divides some code into blocks. -/
structure Divides (is : List Instruction) (g : Graph) : Prop where
  blockIds_eq : g.blockIds = List.range g.blockCount
  /-- The blocks, one after the other, are the code. -/
  text_eq : g.blockList.flatMap (·.2.instructions) = marked is
  /-- Only the entry can be empty, and it is exactly if there is a jump to the first instruction. -/
  empty_iff : ∀ b block, g.block? b = some block →
    (block.instructions = [] ↔ b = entry ∧ ∃ i ∈ is, (0 : Int) ∈ i.jumpTargets)
  /-- The first instruction of a block is marked, and no other one is. -/
  leader_iff : ∀ b block, g.block? b = some block → ∀ k i, block.instructions[k]? = some i →
    (i.leader = true ↔ k = 0)
  /-- An instruction that ends a block stands at the end of its own. -/
  ends_last : ∀ b block, g.block? b = some block → ∀ k i, block.instructions[k]? = some i →
    i.category.endsBlock = true → k + 1 = block.instructions.length
  blockAt?_iff : ∀ a b, g.blockAt? a = some b ↔ ∃ block, g.block? b = some block ∧ block.start? = some a

end Graph

/-! ## Marks -/

theorem Contiguous.nodup {a : Nat} {is : List Instruction} (h : Contiguous a is) : is.Nodup :=
  h.pairwise_lt.imp fun hlt heq => Nat.ne_of_lt hlt (congrArg Instruction.address heq)

/-- Behind some instructions a block starts if there is none of them or the last one ends a block. -/
def StartsBehind (front : List Instruction) : Prop :=
  ∀ j, front.getLast? = some j → j.category.endsBlock = true

/-- Whether an instruction starts a block is seen from what stands in front of it and from the jumps. -/
theorem startsBlock_iff {front rest : List Instruction} {i : Instruction} (h : (front ++ i :: rest).Nodup) :
    StartsBlock (front ++ i :: rest) i ↔
      StartsBehind front ∨ ∃ j ∈ front ++ i :: rest, (i.address : Int) ∈ j.jumpTargets := by
  have hfront : i ∉ front := fun hi => (List.nodup_cons.1 (List.nodup_middle.1 h)).1 (List.mem_append_left _ hi)
  have hhead : (front ++ i :: rest).head? = some i ↔ front = [] := by
    cases front with
    | nil => simp
    | cons j front =>
      simp only [List.cons_append, List.head?_cons, Option.some.injEq, reduceCtorEq, iff_false]
      rintro rfl
      exact hfront List.mem_cons_self
  have hadj : ∀ j, Adjacent (front ++ i :: rest) j i ↔ front.getLast? = some j := by
    intro j
    rw [List.getLast?_eq_some_iff]
    constructor
    · rintro ⟨before, after, heq⟩
      have heq : (before ++ [j]) ++ i :: after = front ++ i :: rest := by simpa using heq
      rw [← heq, List.nodup_middle, List.nodup_cons, List.mem_append, not_or] at h
      exact ⟨before, ((List.append_cons_inj_of_notMem h.1.1 h.1.2).1 heq).1.symm⟩
    · rintro ⟨before, rfl⟩
      exact ⟨before, rest, by simp⟩
  unfold StartsBlock
  simp only [hhead, hadj]
  constructor
  · rintro (rfl | htarget | ⟨j, -, hj, hends⟩)
    · exact Or.inl fun j hj => by cases hj
    · exact Or.inr htarget
    · refine Or.inl fun k hk => ?_
      rw [hj, Option.some.injEq] at hk
      exact hk ▸ hends
  · rintro (hbehind | htarget)
    · cases hlast : front.getLast? with
      | none => exact Or.inl (List.getLast?_eq_none_iff.1 hlast)
      | some j =>
        have hj : j ∈ front ++ i :: rest := List.mem_append_left _ (List.mem_of_getLast? hlast)
        exact Or.inr (Or.inr ⟨j, hj, rfl, hbehind j hlast⟩)
    · exact Or.inr (Or.inl htarget)

namespace Layout

/-- Marks are set where blocks start. `front` is what the marking has passed already. -/
theorem markLeaders_append {set : Std.TreeSet Nat} {front rest : List Instruction} {first : Bool}
    (h : (front ++ rest).Nodup)
    (hset : ∀ a : Nat, set.contains a = true ↔ ∃ j ∈ front ++ rest, (a : Int) ∈ j.jumpTargets)
    (hfirst : first = true ↔ StartsBehind front) :
    markLeaders set first rest = rest.map fun i => { i with leader := decide (StartsBlock (front ++ rest) i) } := by
  induction rest generalizing front first with
  | nil => rfl
  | cons i rest ih =>
    have hsplit : front ++ i :: rest = (front ++ [i]) ++ rest := by simp
    have hmark : (first || set.contains i.address) = decide (StartsBlock (front ++ i :: rest) i) := by
      rw [Bool.eq_iff_iff, decide_eq_true_iff, startsBlock_iff h, Bool.or_eq_true, hfirst, hset]
    have hbehind : i.category.endsBlock = true ↔ StartsBehind (front ++ [i]) := by
      simp [StartsBehind]
    have htail := ih (hsplit ▸ h) (fun a => hsplit ▸ hset a) hbehind
    rw [markLeaders, List.map_cons, hmark, htail, ← hsplit]

theorem markLeaders_eq {ts : List Nat} {a : Nat} {is : List Instruction} (his : Contiguous a is)
    (hts : targets is = .ok ts) : markLeaders (ts.foldl (·.insert ·) ∅) true is = marked is := by
  refine @markLeaders_append _ [] is true his.nodup (fun a => ?_) (by simp [StartsBehind])
  rw [contains_foldl_insert]
  constructor
  · exact jumpTargets_of_mem_targets hts
  · rintro ⟨i, hi, htarget⟩
    exact (mem_targets hts hi htarget).2

/-! ## Runs -/

/-- The first instruction of each run is marked, if that of all instructions is. -/
theorem leader_of_head?_cut {current is : List Instruction}
    (h : ∀ i, (current.reverse ++ is).head? = some i → i.leader = true) :
    ∀ run ∈ cut current is, ∀ i, run.head? = some i → i.leader = true := by
  induction is generalizing current with
  | nil =>
    intro run hrun
    unfold cut at hrun
    split at hrun
    · cases hrun
    · obtain rfl := List.mem_singleton.1 hrun
      simpa using h
  | cons j is ih =>
    intro run hrun
    unfold cut at hrun
    split at hrun
    · next hcut =>
      simp only [Bool.and_eq_true, Bool.not_eq_true', List.isEmpty_eq_false_iff] at hcut
      rcases List.mem_cons.1 hrun with rfl | hrun
      · intro i hi
        refine h i ?_
        rw [List.head?_append_of_ne_nil _ (by simpa using hcut.2)]
        exact hi
      · exact ih (by simpa using hcut.1) run hrun
    · exact ih (by simpa using h) run hrun

theorem leader_iff_of_mem_runs {ts : List Nat} {is run : List Instruction} (h : run ∈ runs ts is) {k : Nat}
    {i : Instruction} (hi : run[k]? = some i) : i.leader = true ↔ k = 0 := by
  rcases mem_runs h with rfl | hcut
  · simp at hi
  · have hhead : ∀ i, ([].reverse ++ markLeaders (ts.foldl (·.insert ·) ∅) true is).head? = some i →
        i.leader = true := by
      cases is <;> simp [markLeaders]
    cases k with
    | zero =>
      rw [← List.head?_eq_getElem?] at hi
      simpa using leader_of_head?_cut hhead run hcut i hi
    | succ k =>
      have htail : i ∈ run.tail := List.mem_of_getElem? (i := k) (by rw [List.getElem?_tail, hi])
      simp [leader_eq_false_of_mem_tail (by simp) run hcut i htail]

theorem flatten_runs_eq {ts : List Nat} {a : Nat} {is : List Instruction} (his : Contiguous a is)
    (hts : targets is = .ok ts) : (runs ts is).flatten = marked is := by
  unfold runs
  rw [List.flatten_append, flatten_cut, markLeaders_eq his hts]
  split <;> rfl

end Layout

/-! ## Blocks -/

namespace Graph

/-- What the blocks hold, read off their numbers. -/
theorem flatMap_blockList (g : Graph) :
    g.blockList.flatMap (·.2.instructions) =
      g.blockIds.flatMap fun b => ((g.block? b).map (·.instructions)).getD [] := by
  rw [← map_fst_blockList, List.flatMap_map]
  refine List.flatMap_congr fun p hp => ?_
  rw [mem_blockList.1 hp]
  rfl

variable {is : List Instruction} {g : Graph}

theorem divides_ofInstructions (his : Contiguous 0 is) (h : ofInstructions is = .ok g) : Divides is g := by
  obtain ⟨hne, ts, g₀, hts, hp, hconn⟩ := connected_ofInstructions his h
  obtain ⟨⟨addr, hlaid⟩, -⟩ := laid_ofInstructions his h
  have hids := Layout.blockIds_eq hp hconn
  constructor
  case blockIds_eq =>
    rw [← length_blockIds, hids, List.length_range]
  case text_eq =>
    rw [flatMap_blockList, hids, List.flatMap_def]
    simp only [Layout.instructions_eq hp hconn, Layout.map_getD_range]
    exact Layout.flatten_runs_eq his hts
  case empty_iff =>
    intro b block hb
    rcases Nat.eq_zero_or_pos b with rfl | hpos
    · have hfirst := Layout.first_run_eq_nil_iff his hne hts
      rw [Layout.run_of_block hp hconn hb, Option.getD_some] at hfirst
      simpa [entry] using hfirst
    · have hb0 : b ≠ entry := Nat.ne_of_gt hpos
      simp [hlaid.ne_nil hb hb0, hb0]
  case leader_iff =>
    intro b block hb k i hi
    exact Layout.leader_iff_of_mem_runs (List.mem_of_getElem? (Layout.run_of_block hp hconn hb)) hi
  case ends_last =>
    intro b block hb k i hi hends
    by_contra hlast
    have hlt := (List.getElem?_eq_some_iff.1 hi).1
    have hmem : i ∈ block.instructions.dropLast := by
      refine List.mem_of_getElem? (i := k) ?_
      rw [List.getElem?_dropLast, if_pos (by omega), hi]
    rw [hlaid.category_inner hb i hmem] at hends
    cases hends
  case blockAt?_iff =>
    intro a b
    exact hlaid.blockAt?_iff

/-- The graph of decoded instructions divides them into blocks. -/
theorem graph_divides_code {table : OperandTable} {code : List UInt8} (hdecode : Instruction.decode table code = .ok is)
    (h : ofInstructions is = .ok g) : Divides is g :=
  divides_ofInstructions (Instruction.decode_contiguous hdecode) h

theorem spin_graph_divides_code : Instruction.decode .standard [0x1a, 0x99, 0xff, 0xff, 0xb1] = .ok spin ∧
    ∃ g, ofInstructions spin = .ok g ∧ Divides spin g := by
  cases hg : ofInstructions spin with
  | error e =>
    have := isOk_spin
    rw [hg] at this
    cases this
  | ok g => exact ⟨decode_spin, g, rfl, graph_divides_code decode_spin hg⟩

end Graph

end Destack
