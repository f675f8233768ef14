import Destack.Proofs.Graph.Layout
import Destack.Proofs.Opcodes

/-!
# Control flow of instructions

Control can pass from an instruction to the one behind it, to the targets of a jump, or nowhere. The graph of
instructions has exactly this control flow: inside a block it goes from each instruction to the next, and between
blocks along the edges (`Draws`). There is a graph if control always finds an instruction, whether or not the place
it leaves can be reached (`Flows`). Otherwise the error names what is wrong (`ofInstructions_eq_error`).
-/

namespace Destack

/-- The second instruction stands directly behind the first. -/
def Adjacent (is : List Instruction) (i j : Instruction) : Prop :=
  [i, j] <:+: is

/-- The second instruction is a jump target of the first. -/
def JumpsTo (is : List Instruction) (i j : Instruction) : Prop :=
  i ∈ is ∧ j ∈ is ∧ (j.address : Int) ∈ i.jumpTargets

/-- Control can pass from the first instruction to the second: it goes on, it jumps, or, at a conditional branch, it
does either. From a return, a throw or the return from a subroutine it goes nowhere. -/
inductive Successor (is : List Instruction) (i j : Instruction) : Prop
  | next (hcat : i.category = .other ∨ i.category = .conditionalBranch) (h : Adjacent is i j)
  | jump (hcat : i.category = .conditionalBranch ∨ i.category = .goto ∨ i.category = .subroutine ∨ i.category = .switch)
      (h : JumpsTo is i j)

/-- Control finds an instruction from everywhere. -/
structure Flows (is : List Instruction) : Prop where
  ne_nil : is ≠ []
  target_mem : ∀ i ∈ is, ∀ target ∈ i.jumpTargets, ∃ j ∈ is, (j.address : Int) = target
  last_leaves : ∀ i, is.getLast? = some i → i.category ≠ .conditionalBranch ∧ i.category ≠ .other

namespace Graph

/-- The instructions of a block as they were decoded. -/
def bodyOf (g : Graph) (b : BlockId) : List Instruction :=
  ((g.block? b).map (·.instructions.map Instruction.unmarked)).getD []

theorem bodyOf_eq {g : Graph} {b : BlockId} {block : Block} (hb : g.block? b = some block) :
    g.bodyOf b = block.instructions.map Instruction.unmarked := by
  rw [bodyOf, hb, Option.map_some, Option.getD_some]

theorem exists_block_of_mem_bodyOf {g : Graph} {b : BlockId} {i : Instruction} (hi : i ∈ g.bodyOf b) :
    ∃ block, g.block? b = some block := by
  unfold bodyOf at hi
  cases hb : g.block? b with
  | none => simp [hb] at hi
  | some block => exact ⟨block, rfl⟩

/-- A graph that holds some instructions and has their control flow. -/
structure Draws (is : List Instruction) (g : Graph) : Prop where
  bodies : g.blockIds.flatMap g.bodyOf = is
  /-- Control passes inside a block to the next instruction, and from its last one along an edge. -/
  successor_iff : ∀ i j, Successor is i j ↔ (∃ b, Adjacent (g.bodyOf b) i j) ∨
    ∃ b t, (g.bodyOf b).getLast? = some i ∧ t ∈ g.succs b ∧ (g.bodyOf t).head? = some j
  nodup_succs : ∀ b, (g.succs b).Nodup
  /-- The block behind comes first, if control can pass there. -/
  next_first : ∀ b i, (g.bodyOf b).getLast? = some i → i.category = .other ∨ i.category = .conditionalBranch →
    ∃ t j, (g.succs b).head? = some t ∧ (g.bodyOf t).head? = some j ∧ Adjacent is i j
  /-- The default of a switch comes first. -/
  default_first : ∀ b i table, (g.bodyOf b).getLast? = some i → i.switchTable? = some table →
    ∃ t j, (g.succs b).head? = some t ∧ (g.bodyOf t).head? = some j ∧ (j.address : Int) = i.address + table.default
  preds_entry : g.preds entry = []
  /-- Only the entry can be empty, and it is exactly if there is a jump to the first instruction. -/
  empty_iff : ∀ b, g.hasBlock b = true → (g.bodyOf b = [] ↔ b = entry ∧ ∃ i ∈ is, (0 : Int) ∈ i.jumpTargets)
  /-- An empty entry leads to the block of the first instruction and nowhere else. -/
  empty_entry : g.bodyOf entry = [] → ∃ t j, g.succs entry = [t] ∧ (g.bodyOf t).head? = some j ∧ j.address = 0

end Graph

/-! ## Neighbours -/

theorem successor_def {is : List Instruction} {i j : Instruction} : Successor is i j ↔
    (i.category = .other ∨ i.category = .conditionalBranch) ∧ Adjacent is i j ∨
      (i.category = .conditionalBranch ∨ i.category = .goto ∨ i.category = .subroutine ∨ i.category = .switch) ∧
        JumpsTo is i j :=
  ⟨fun h => h.casesOn (fun hcat h => Or.inl ⟨hcat, h⟩) fun hcat h => Or.inr ⟨hcat, h⟩,
    fun h => h.elim (fun h => .next h.1 h.2) fun h => .jump h.1 h.2⟩

namespace Contiguous

variable {a : Nat} {is : List Instruction} {i j : Instruction}

theorem eq_of_address (h : Contiguous a is) (hi : i ∈ is) (hj : j ∈ is) (heq : i.address = j.address) : i = j := by
  have hfetch := h.fetch?_eq_some hi
  rw [heq, h.fetch?_eq_some hj] at hfetch
  exact (Option.some.inj hfetch).symm

theorem address_of_adjacent (h : Contiguous a is) (hadj : Adjacent is i j) : j.address = i.next := by
  obtain ⟨front, rest, rfl⟩ := hadj
  rw [List.append_assoc, contiguous_append] at h
  exact h.2.2.2.1

/-- The instruction behind another one is the one at its end. -/
theorem adjacent_iff (h : Contiguous a is) : Adjacent is i j ↔ i ∈ is ∧ j ∈ is ∧ j.address = i.next := by
  constructor
  · intro hadj
    exact ⟨hadj.subset (by simp), hadj.subset (by simp), h.address_of_adjacent hadj⟩
  · rintro ⟨hi, hj, hnext⟩
    have hlt : i.address < j.address := by
      rw [hnext, Instruction.next, Instruction.size]
      omega
    obtain ⟨front, rest, rfl⟩ := List.append_of_mem hi
    have hpair := List.pairwise_append.1 h.pairwise_lt
    cases rest with
    | nil =>
      rcases List.mem_append.1 hj with hj | hj
      · have := hpair.2.2 j hj i List.mem_cons_self
        omega
      · obtain rfl := List.mem_singleton.1 hj
        omega
    | cons k rest =>
      have hadj : Adjacent (front ++ i :: k :: rest) i k := ⟨front, rest, by simp⟩
      have hkj : k = j := h.eq_of_address (by simp) hj ((h.address_of_adjacent hadj).trans hnext.symm)
      exact hkj ▸ hadj

end Contiguous

theorem getLast?_or_adjacent {is : List Instruction} {i : Instruction} (hi : i ∈ is) :
    is.getLast? = some i ∨ i ∈ is.dropLast ∧ ∃ j, Adjacent is i j := by
  obtain ⟨front, rest, rfl⟩ := List.append_of_mem hi
  cases rest with
  | nil => exact Or.inl (by simp)
  | cons k rest =>
    refine Or.inr ⟨?_, k, front, rest, by simp⟩
    rw [List.dropLast_append_cons]
    simp

theorem mem_dropLast_of_adjacent {is : List Instruction} {i j : Instruction} (h : Adjacent is i j) :
    i ∈ is.dropLast := by
  obtain ⟨front, rest, rfl⟩ := h
  rw [List.append_assoc, List.dropLast_append_of_ne_nil (by simp)]
  simp

/-! ## Targets -/

namespace Layout

theorem contains_foldl_insert {ts : List Nat} {a : Nat} :
    (ts.foldl (·.insert ·) (∅ : Std.TreeSet Nat)).contains a = true ↔ a ∈ ts := by
  suffices h : ∀ set : Std.TreeSet Nat, (ts.foldl (·.insert ·) set).contains a = true ↔
      set.contains a = true ∨ a ∈ ts by
    rw [h]
    simp
  induction ts with
  | nil => simp
  | cons t ts ih =>
    intro set
    rw [List.foldl_cons, ih, Std.TreeSet.contains_insert, Bool.or_eq_true, beq_iff_eq, Graph.compare_eq_iff]
    simp only [List.mem_cons]
    tauto

theorem contains_addresses {is : List Instruction} {a : Nat} :
    (addresses is).contains a = true ↔ ∃ j ∈ is, j.address = a := by
  have hfold : addresses is = (is.map (·.address)).foldl (·.insert ·) ∅ := by
    rw [List.foldl_map]
    rfl
  rw [hfold, contains_foldl_insert, List.mem_map]

/-- A target is accepted exactly if an instruction stands there. -/
theorem accepted_iff {is : List Instruction} {target : Int} :
    0 ≤ target ∧ (addresses is).contains target.toNat = true ↔ ∃ j ∈ is, (j.address : Int) = target := by
  rw [contains_addresses]
  constructor
  · rintro ⟨hle, j, hj, haddr⟩
    exact ⟨j, hj, by omega⟩
  · rintro ⟨j, hj, rfl⟩
    exact ⟨by omega, j, hj, by omega⟩

theorem exists_of_target {is : List Instruction} {ts : List Nat} (h : targets is = .ok ts) {i : Instruction}
    (hi : i ∈ is) {target : Int} (htarget : target ∈ i.jumpTargets) : ∃ j ∈ is, (j.address : Int) = target := by
  unfold targets at h
  obtain ⟨tss, htss, -⟩ := except_bind_eq_ok.1 h
  obtain ⟨us, -, hus⟩ := exists_mem_of_mapM_eq_ok htss hi
  obtain ⟨u, -, hu⟩ := exists_mem_of_mapM_eq_ok hus htarget
  split at hu
  · next hc => exact accepted_iff.1 hc
  · cases hu

theorem jumpTargets_of_mem_targets {is : List Instruction} {ts : List Nat} (h : targets is = .ok ts) {a : Nat}
    (ha : a ∈ ts) : ∃ i ∈ is, (a : Int) ∈ i.jumpTargets := by
  unfold targets at h
  obtain ⟨tss, htss, h⟩ := except_bind_eq_ok.1 h
  obtain rfl := except_pure_eq_ok.1 h
  obtain ⟨us, hus, ha⟩ := List.mem_flatten.1 ha
  obtain ⟨i, hi, hus⟩ := exists_source_of_mapM_eq_ok htss hus
  obtain ⟨target, htarget, hu⟩ := exists_source_of_mapM_eq_ok hus ha
  split at hu
  · next hc =>
    obtain rfl := Except.ok.inj hu
    exact ⟨i, hi, by rwa [Int.toNat_of_nonneg hc.1]⟩
  · cases hu

theorem targets_eq_error {is : List Instruction} {e : Error} (h : targets is = .error e) :
    ∃ i ∈ is, ∃ target ∈ i.jumpTargets, e = .invalidJump i.address target ∧ ∀ j ∈ is, (j.address : Int) ≠ target := by
  unfold targets at h
  have hmap : is.mapM (targetsOf (addresses is)) = .error e := by
    cases hmap : is.mapM (targetsOf (addresses is)) with
    | ok tss => simp only [hmap] at h; cases h
    | error e' => simp only [hmap] at h; exact congrArg Except.error (Except.error.inj h)
  obtain ⟨i, hi, hmap⟩ := exists_mem_of_mapM_eq_error hmap
  obtain ⟨target, htarget, he⟩ := exists_mem_of_mapM_eq_error hmap
  split at he
  · cases he
  · next hc =>
    refine ⟨i, hi, target, htarget, (Except.error.inj he).symm, fun j hj haddr => hc ?_⟩
    exact accepted_iff.2 ⟨j, hj, haddr⟩

end Layout

/-! ## Drawing all edges -/

namespace Graph

/-- The jumps of an instruction lead to blocks. -/
def Resolved (g : Graph) (i : Instruction) : Prop :=
  ∀ target ∈ i.jumpTargets, ∃ t, g.blockAtTarget? target = some t ∧ g.hasBlock t = true

/-- Why no edges can be drawn from a block: nothing follows it, and control would have to get there. -/
def Stops (g : Graph) (b : BlockId) (e : Error) : Prop :=
  match (g.block? b).bind (·.instructions.getLast?) with
  | none => e = .layout (.noSuccessor b)
  | some last => (last.category = .conditionalBranch ∨ last.category = .other) ∧ e = .fallsOffEnd last.address

theorem AddsEdges.resolved {b : BlockId} {ts : List BlockId} {g g' : Graph} (h : AddsEdges b ts g g')
    (hg : Linked g) {i : Instruction} (hi : Resolved g i) : Resolved g' i := by
  intro target htarget
  obtain ⟨t, ht, hhas⟩ := hi target htarget
  refine ⟨t, ?_, ?_⟩
  · rw [blockAtTarget?_congr h.starts_eq, ht]
  · rw [(h.keeps_bare hg).hasBlock_eq, hhas]

theorem AddsEdges.append {b : BlockId} {ts us : List BlockId} {g g' g'' : Graph} (h : AddsEdges b ts g g')
    (h' : AddsEdges b us g' g'') : AddsEdges b (ts ++ us) g g'' := by
  induction h with
  | nil => exact h'
  | cons hadd _ ih => exact .cons hadd (ih h')

section

variable {g : Graph} {b : BlockId} {E : Error → Prop}

theorem edge_spec {t : BlockId} (hb : g.hasBlock b = true) (ht : g.hasBlock t = true) :
    Pass.Spec (edge b t) g (fun _ g' => AddsEdges b [t] g g') E := by
  obtain ⟨g', hadd⟩ := exists_addEdge hb ht
  exact .intro_ok (edge_eq_ok.2 hadd) (.cons hadd .nil)

theorem jumpEdges_spec {i : Instruction} (hg : Linked g) (hb : g.hasBlock b = true) (hi : Resolved g i) :
    Pass.Spec (jumpEdges b i) g (fun _ g' => ∃ ts, AddsEdges b ts g g') E := by
  unfold jumpEdges
  refine Pass.Spec.forM (P := fun _ g' => ∃ ts, AddsEdges b ts g g') ?_ ⟨[], .nil⟩
  rintro front target rest hsplit g₁ ⟨ts, hadds⟩
  obtain ⟨t, ht, hhas⟩ := hadds.resolved hg hi target (by rw [hsplit]; simp)
  have hb₁ : g₁.hasBlock b = true := by rw [(hadds.keeps_bare hg).hasBlock_eq, hb]
  refine Pass.Spec.get_bind (Pass.Spec.lift_bind (targetBlock_eq_ok.2 ht) ?_)
  exact (edge_spec hb₁ hhas).mono (fun _ _ hadd => ⟨_, hadds.append hadd⟩) fun _ h => h

theorem fallThrough_spec {next : Option BlockId} {e : Error} (hb : g.hasBlock b = true)
    (hnext : ∀ n, next = some n → g.hasBlock n = true) :
    Pass.Spec (fallThrough b next e) g (fun _ g' => ∃ ts, AddsEdges b ts g g') fun e' => next = none ∧ e' = e := by
  cases next with
  | none => exact Pass.Spec.throw ⟨rfl, rfl⟩
  | some n => exact (edge_spec hb (hnext n rfl)).mono (fun _ _ hadd => ⟨_, hadd⟩) fun _ h => h

theorem connectBlock_spec {next : Option BlockId} (hg : Linked g) (hb : g.hasBlock b = true)
    (hnext : ∀ n, next = some n → g.hasBlock n = true)
    (hlast : ∀ last, (g.block? b).bind (·.instructions.getLast?) = some last → Resolved g last) :
    Pass.Spec (connectBlock b next) g (fun _ g' => ∃ ts, AddsEdges b ts g g') fun e => next = none ∧ Stops g b e := by
  obtain ⟨block, hget, hblock⟩ := exists_getBlock hb
  refine Pass.Spec.get_bind (Pass.Spec.lift_bind hget ?_)
  unfold Stops
  rw [hblock, Option.bind_some] at hlast ⊢
  cases hcase : block.instructions.getLast? with
  | none => exact fallThrough_spec hb hnext
  | some last =>
    have hres := hlast last hcase
    simp only
    cases hcat : last.category <;> simp only [reduceCtorEq, false_or, or_false, true_and, false_and, and_false]
    case conditionalBranch =>
      refine Pass.Spec.bind (fallThrough_spec hb hnext) ?_
      rintro _ g₁ ⟨ts, hadds⟩
      have hb₁ : g₁.hasBlock b = true := by rw [(hadds.keeps_bare hg).hasBlock_eq, hb]
      refine (jumpEdges_spec (hadds.linked hg) hb₁ (hadds.resolved hg hres)).mono ?_ fun _ h => h
      rintro _ _ ⟨us, hadds'⟩
      exact ⟨_, hadds.append hadds'⟩
    case other => exact fallThrough_spec hb hnext
    case goto | subroutine | switch => exact jumpEdges_spec hg hb hres
    case methodReturn | raise | subroutineReturn => exact Pass.Spec.pure ⟨[], .nil⟩

theorem connectAll_spec {bs : List BlockId} (hg : Linked g) (hbs : ∀ b ∈ bs, g.hasBlock b = true)
    (hlast : ∀ b ∈ bs, ∀ last, (g.block? b).bind (·.instructions.getLast?) = some last → Resolved g last) :
    Pass.Spec (connectAll bs) g (fun _ _ => True) fun e => ∃ b, bs.getLast? = some b ∧ Stops g b e := by
  induction bs generalizing g with
  | nil => exact Pass.Spec.pure trivial
  | cons b bs ih =>
    have hnext : ∀ n, bs.head? = some n → g.hasBlock n = true :=
      fun n hn => hbs n (List.mem_cons_of_mem b (List.mem_of_head? hn))
    have hone := connectBlock_spec hg (hbs b List.mem_cons_self) hnext (hlast b List.mem_cons_self)
    refine Pass.Spec.bind (hone.mono (fun _ _ h => h) ?_) ?_
    · rintro e ⟨hnone, hstops⟩
      rw [List.head?_eq_none_iff] at hnone
      subst hnone
      exact ⟨b, rfl, hstops⟩
    · rintro _ g₁ ⟨ts, hadds⟩
      have hsame := hadds.getLast?_eq hg
      refine (ih (hadds.linked hg) ?_ ?_).mono (fun _ _ h => h) ?_
      · intro k hk
        rw [(hadds.keeps_bare hg).hasBlock_eq]
        exact hbs k (List.mem_cons_of_mem b hk)
      · intro k hk last hl
        rw [hsame] at hl
        exact hadds.resolved hg (hlast k (List.mem_cons_of_mem b hk) last hl)
      · rintro e ⟨k, hk, hstops⟩
        unfold Stops at hstops ⊢
        rw [hsame] at hstops
        exact ⟨k, by rw [List.getLast?_cons, hk, Option.getD_some], hstops⟩

end

end Graph

namespace Layout

variable {is : List Instruction} {ts : List Nat} {g₀ g : Graph}

theorem leader_of_mem_markLeaders {set : Std.TreeSet Nat} {first : Bool} {i : Instruction}
    (hi : i ∈ markLeaders set first is) (hset : set.contains i.address = true) : i.leader = true := by
  induction is generalizing first with
  | nil => cases hi
  | cons j is ih =>
    rcases List.mem_cons.1 hi with rfl | hi
    · change set.contains j.address = true at hset
      simp [hset]
    · exact ih hi

/-- An instruction that is a target stands at the front of its run. -/
theorem head?_of_target {b : BlockId} {run : List Instruction} (hrun : (runs ts is)[b]? = some run) {i : Instruction}
    (hi : i ∈ run) (ht : i.address ∈ ts) : run.head? = some i := by
  have hmem : run ∈ cut [] (markLeaders (ts.foldl (·.insert ·) ∅) true is) := by
    rcases mem_runs (List.mem_of_getElem? hrun) with rfl | hcut
    · cases hi
    · exact hcut
  have hmarked : i ∈ markLeaders (ts.foldl (·.insert ·) ∅) true is := by
    have hflat := flatten_cut [] (markLeaders (ts.foldl (·.insert ·) ∅) true is)
    rw [List.reverse_nil, List.nil_append] at hflat
    rw [← hflat]
    exact List.mem_flatten.2 ⟨run, hmem, hi⟩
  have hleader := leader_of_mem_markLeaders hmarked (contains_foldl_insert.2 ht)
  cases run with
  | nil => cases hi
  | cons j run =>
    rcases List.mem_cons.1 hi with rfl | hi
    · rfl
    · rw [leader_eq_false_of_mem_tail (by simp) _ hmem i hi] at hleader
      cases hleader

/-- An instruction stands in a run. -/
theorem exists_run (his : Contiguous 0 is) {i : Instruction} (hi : i ∈ is) :
    ∃ (b : BlockId) (run : List Instruction) (j : Instruction),
      (runs ts is)[b]? = some run ∧ j ∈ run ∧ j.unmarked = i := by
  rw [← flatten_runs ts his, List.mem_map] at hi
  obtain ⟨j, hj, rfl⟩ := hi
  obtain ⟨run, hrun, hj⟩ := List.mem_flatten.1 hj
  obtain ⟨b, hb⟩ := List.mem_iff_getElem?.1 hrun
  exact ⟨b, run, j, hb, hj, rfl⟩

theorem resolved_of_mem (his : Contiguous 0 is) (hts : targets is = .ok ts) (hp : Placed (runs ts is) g₀)
    {i : Instruction} (hi : i.unmarked ∈ is) : g₀.Resolved i := by
  intro target htarget
  rw [← Instruction.unmarked_jumpTargets] at htarget
  obtain ⟨j, hj, rfl⟩ := exists_of_target hts hi htarget
  obtain ⟨b, run, k, hrun, hk, rfl⟩ := exists_run his hj
  have hhead := head?_of_target hrun hk (by simpa using (mem_targets hts hi htarget).2)
  refine ⟨b, hp.blockAt?_iff.2 ⟨run, hrun, by simp [hhead]⟩, ?_⟩
  exact (hp.hasBlock_iff b).2 (List.getElem?_eq_some_iff.1 hrun).1

/-- The last run ends with the last instruction. -/
theorem exists_last_run (his : Contiguous 0 is) (hne : is ≠ []) :
    ∃ (b : BlockId) (run : List Instruction) (last : Instruction), (runs ts is).length = b + 1 ∧
      (runs ts is)[b]? = some run ∧ run.getLast? = some last ∧ is.getLast? = some last.unmarked := by
  obtain ⟨rs, run, hsplit⟩ : ∃ rs run, runs ts is = rs ++ [run] :=
    ⟨_, _, (List.dropLast_append_getLast (runs_ne_nil ts hne)).symm⟩
  have hlen : (runs ts is).length = rs.length + 1 := by rw [hsplit]; simp
  have hrun : (runs ts is)[rs.length]? = some run := by rw [hsplit]; simp
  have hflat := flatten_runs ts his
  rw [hsplit, List.flatten_append, List.flatten_singleton, List.map_append] at hflat
  have hrunne : run ≠ [] := by
    rcases Nat.eq_zero_or_pos rs.length with hzero | hpos
    · rintro rfl
      rw [List.length_eq_zero_iff.1 hzero] at hflat
      exact hne hflat.symm
    · exact run_ne_nil hrun (by omega)
  refine ⟨rs.length, run, run.getLast hrunne, hlen, hrun, List.getLast?_eq_some_getLast hrunne, ?_⟩
  rw [← hflat, List.getLast?_append_of_ne_nil _ (by simpa using hrunne), List.getLast?_map,
    List.getLast?_eq_some_getLast hrunne, Option.map_some]

end Layout

/-! ## The graph of a sequence of instructions -/

namespace Graph

theorem head?_foldl_appendNew (x : BlockId) (xs ts : List BlockId) :
    (ts.foldl appendNew (x :: xs)).head? = some x := by
  induction ts generalizing xs with
  | nil => rfl
  | cons t ts ih =>
    rw [List.foldl_cons, appendNew]
    split
    · exact ih xs
    · exact ih (xs ++ [t])

theorem ExitsTo.unmarked {g : Graph} {next : Option BlockId} {last : Option Instruction} {us : List BlockId}
    (h : ExitsTo g next last us) : ExitsTo g next (last.map Instruction.unmarked) us := by
  have hjump : ∀ {i : Instruction} {us : List BlockId}, JumpsTo g i us → JumpsTo g i.unmarked us := by
    intro i us hus
    unfold JumpsTo at hus ⊢
    rwa [Instruction.unmarked_jumpTargets]
  cases h with
  | falls hcat hn =>
    refine .falls (fun i hi => ?_) hn
    obtain ⟨j, hj, rfl⟩ := Option.map_eq_some_iff.1 hi
    exact hcat j hj
  | branches hcat hn hus => exact .branches hcat hn (hjump hus)
  | jumps hcat hus => exact .jumps hcat (hjump hus)
  | ends hcat => exact .ends hcat

/-- What the graph of contiguous instructions is known by: which blocks hold them, where a block is found, and where
it leads. -/
structure Outlined (is : List Instruction) (addr : BlockId → Nat) (g : Graph) : Prop where
  contiguous : Contiguous 0 is
  rooted : Rooted g
  addr_entry : addr entry = 0
  bodies : g.blockIds.flatMap g.bodyOf = is
  category_inner : ∀ b, ∀ i ∈ (g.bodyOf b).dropLast, i.category = .other
  ne_nil : ∀ b, g.hasBlock b = true → b ≠ entry → g.bodyOf b ≠ []
  contiguous_bodyOf : ∀ b, Contiguous (addr b) (g.bodyOf b)
  exits : ∀ b, g.hasBlock b = true → ∃ next us, ExitsTo g next (g.bodyOf b).getLast? us ∧
    g.succs b = us.foldl appendNew [] ∧
    ∀ n, next = some n → ∃ j, (g.bodyOf n).head? = some j ∧ j.address = endOf (addr b) (g.bodyOf b)
  head_of_target : ∀ target t, g.blockAtTarget? target = some t →
    ∃ j, (g.bodyOf t).head? = some j ∧ (j.address : Int) = target
  target_found : ∀ i ∈ is, ∀ target ∈ i.jumpTargets, ∃ t, g.blockAtTarget? target = some t
  entry_empty_iff : g.bodyOf entry = [] ↔ ∃ i ∈ is, (0 : Int) ∈ i.jumpTargets

end Graph

namespace Layout

variable {is : List Instruction} {ts : List Nat} {g₀ g : Graph}

theorem bodyOf_run (hp : Placed (runs ts is) g₀) {bs : List BlockId} (hconn : Graph.Connected bs g₀ g) (b : BlockId) :
    g.bodyOf b = ((runs ts is)[b]?.getD []).map Instruction.unmarked := by
  unfold Graph.bodyOf
  rw [← instructions_eq hp hconn]
  cases g.block? b <;> rfl

theorem blockIds_eq (hp : Placed (runs ts is) g₀) {bs : List BlockId} (hconn : Graph.Connected bs g₀ g) :
    g.blockIds = List.range (runs ts is).length :=
  Graph.blockIds_eq_range fun b => by rw [hconn.keeps_bare.hasBlock_eq, hp.hasBlock_iff]

/-- There is an empty run in front exactly if the first instruction is a jump target. -/
theorem first_run_eq_nil_iff (his : Contiguous 0 is) (hne : is ≠ []) (hts : targets is = .ok ts) :
    (runs ts is)[0]?.getD [] = [] ↔ ∃ i ∈ is, (0 : Int) ∈ i.jumpTargets := by
  obtain ⟨first, rest, rfl⟩ := List.exists_cons_of_ne_nil hne
  have hzero : first.address = 0 := his.1
  have hiff : ts.contains first.address = true ↔ ∃ i ∈ first :: rest, (0 : Int) ∈ i.jumpTargets := by
    rw [hzero, List.contains_iff_mem]
    constructor
    · exact jumpTargets_of_mem_targets hts
    · rintro ⟨i, hi, htarget⟩
      exact (mem_targets hts hi htarget).2
  rw [← hiff]
  have hhead : ((first :: rest).head?.map (·.address)).getD 0 = first.address := rfl
  unfold runs
  rw [hhead]
  by_cases hc : ts.contains first.address = true
  · rw [if_pos hc]
    simp only [hc, iff_true]
    rfl
  · rw [if_neg hc, List.nil_append]
    refine iff_of_false ?_ hc
    cases hcut : cut [] (markLeaders (ts.foldl (·.insert ·) ∅) true (first :: rest)) with
    | nil =>
      have hflat := flatten_cut [] (markLeaders (ts.foldl (·.insert ·) ∅) true (first :: rest))
      rw [hcut] at hflat
      cases hflat
    | cons run rs => exact ne_nil_of_mem_cut (hcut ▸ List.mem_cons_self)

theorem bodies_eq (his : Contiguous 0 is) (hp : Placed (runs ts is) g₀) {bs : List BlockId}
    (hconn : Graph.Connected bs g₀ g) : g.blockIds.flatMap g.bodyOf = is := by
  have hcomp : g.bodyOf = List.map Instruction.unmarked ∘ fun b => (runs ts is)[b]?.getD [] :=
    funext (bodyOf_run hp hconn)
  rw [blockIds_eq hp hconn, List.flatMap_def, hcomp, ← List.map_map, map_getD_range, ← List.map_flatten,
    flatten_runs ts his]

theorem outlined_of_connected (his : Contiguous 0 is) (hne : is ≠ []) (hts : targets is = .ok ts)
    (hp : Placed (runs ts is) g₀) (hconn : Graph.Connected (List.range (runs ts is).length) g₀ g)
    (hroot : Graph.Rooted g) : Graph.Outlined is (startAt (runs ts is)) g := by
  have hlaid := laid_of_connected his hp hconn hroot
  have hhead : ∀ {a : Nat} {t : BlockId}, g.blockAt? a = some t →
      ∃ j, (g.bodyOf t).head? = some j ∧ j.address = a := by
    intro a t ht
    obtain ⟨block, hb, ha⟩ := hlaid.blockAt?_iff.1 ht
    obtain ⟨j, hj, rfl⟩ := Option.map_eq_some_iff.1 ha
    exact ⟨j.unmarked, by rw [Graph.bodyOf_eq hb, List.head?_map, hj, Option.map_some], rfl⟩
  constructor
  case contiguous => exact his
  case rooted => exact hroot
  case addr_entry => exact startAt_zero _
  case bodies => exact bodies_eq his hp hconn
  case category_inner =>
    intro b i hi
    obtain ⟨block, hb⟩ := Graph.exists_block_of_mem_bodyOf (List.mem_of_mem_dropLast hi)
    rw [Graph.bodyOf_eq hb, ← List.map_dropLast, List.mem_map] at hi
    obtain ⟨j, hj, rfl⟩ := hi
    exact hlaid.category_inner hb j hj
  case ne_nil =>
    intro b hb hne
    obtain ⟨block, hb⟩ := Graph.hasBlock_iff.1 hb
    rw [Graph.bodyOf_eq hb]
    simpa using hlaid.ne_nil hb hne
  case contiguous_bodyOf =>
    intro b
    unfold Graph.bodyOf
    cases hb : g.block? b with
    | none => trivial
    | some block => exact hlaid.contiguous hb
  case exits =>
    intro b hb
    obtain ⟨block, hb⟩ := Graph.hasBlock_iff.1 hb
    obtain ⟨next, us, hus, hsuccs, hnext⟩ := exits_of_block his hp hconn hb
    rw [Graph.bodyOf_eq hb, Graph.succs_eq hb, List.getLast?_map, endOf_map_unmarked]
    exact ⟨next, us, hus.unmarked, hsuccs, fun n hn => hhead (hnext n hn)⟩
  case head_of_target =>
    intro target t ht
    cases target with
    | negSucc a => cases ht
    | ofNat a =>
      obtain ⟨j, hj, rfl⟩ := hhead ht
      exact ⟨j, hj, rfl⟩
  case target_found =>
    intro i hi target htarget
    obtain ⟨t, ht, -⟩ := resolved_of_mem his hts hp ((his.unmarked_eq hi).symm ▸ hi) target htarget
    exact ⟨t, by rw [Graph.blockAtTarget?_congr hconn.starts_eq, ht]⟩
  case entry_empty_iff =>
    rw [bodyOf_run hp hconn, List.map_eq_nil_iff]
    exact first_run_eq_nil_iff his hne hts

end Layout

namespace Graph

variable {is : List Instruction} {addr : BlockId → Nat} {g : Graph}

theorem outlined_ofInstructions (his : Contiguous 0 is) (h : ofInstructions is = .ok g) :
    ∃ addr, Outlined is addr g := by
  obtain ⟨hne, ts, g₀, hts, hp, hconn⟩ := connected_ofInstructions his h
  exact ⟨_, Layout.outlined_of_connected his hne hts hp hconn (rooted_ofInstructions h).1⟩

namespace Outlined

variable {b t : BlockId} {i j : Instruction}

theorem hasBlock_of_mem (hi : i ∈ g.bodyOf b) : g.hasBlock b = true :=
  hasBlock_iff.2 (exists_block_of_mem_bodyOf hi)

theorem exists_block (h : Outlined is addr g) (hi : i ∈ is) : ∃ b, i ∈ g.bodyOf b := by
  rw [← h.bodies] at hi
  obtain ⟨b, -, hb⟩ := List.mem_flatMap.1 hi
  exact ⟨b, hb⟩

theorem mem_of_mem (h : Outlined is addr g) (hi : i ∈ g.bodyOf b) : i ∈ is := by
  rw [← h.bodies]
  exact List.mem_flatMap.2 ⟨b, mem_blockIds.2 (hasBlock_of_mem hi), hi⟩

/-- The block behind another one starts with the instruction that stands behind its last one. -/
theorem adjacent_iff_head (h : Outlined is addr g) (hlast : (g.bodyOf b).getLast? = some i) {k : Instruction}
    (hk : (g.bodyOf t).head? = some k) (haddr : k.address = endOf (addr b) (g.bodyOf b)) :
    Adjacent is i j ↔ (g.bodyOf t).head? = some j := by
  have hi := h.mem_of_mem (List.mem_of_getLast? hlast)
  have hkis := h.mem_of_mem (List.mem_of_head? hk)
  rw [endOf_eq_of_getLast? hlast] at haddr
  rw [h.contiguous.adjacent_iff, hk, Option.some.injEq]
  constructor
  · rintro ⟨-, hj, hnext⟩
    exact h.contiguous.eq_of_address hkis hj (haddr.trans hnext.symm)
  · rintro rfl
    exact ⟨hi, hkis, haddr⟩

/-- The blocks that jumps lead to start with the targets. -/
theorem jumpsTo_iff_head (h : Outlined is addr g) (hi : i ∈ is) {us : List BlockId} (hus : JumpsTo g i us) :
    Destack.JumpsTo is i j ↔ ∃ t ∈ us, (g.bodyOf t).head? = some j := by
  constructor
  · rintro ⟨-, hj, htarget⟩
    obtain ⟨t, ht⟩ := h.target_found i hi _ htarget
    obtain ⟨k, hk, haddr⟩ := h.head_of_target _ t ht
    refine ⟨t, hus.mem htarget ht, ?_⟩
    rw [hk, h.contiguous.eq_of_address (h.mem_of_mem (List.mem_of_head? hk)) hj (by omega)]
  · rintro ⟨t, ht, hj⟩
    obtain ⟨target, htarget, hat⟩ := hus.exists_target ht
    obtain ⟨k, hk, rfl⟩ := h.head_of_target _ t hat
    obtain rfl := Option.some.inj (hk.symm.trans hj)
    exact ⟨hi, h.mem_of_mem (List.mem_of_head? hj), htarget⟩

/-- Control passes from the last instruction of a block to the first ones of the blocks that it leads to. -/
theorem successor_last_iff (h : Outlined is addr g) (hlast : (g.bodyOf b).getLast? = some i) :
    Successor is i j ↔ ∃ t ∈ g.succs b, (g.bodyOf t).head? = some j := by
  have hi := h.mem_of_mem (List.mem_of_getLast? hlast)
  obtain ⟨next, us, hus, hsuccs, hnext⟩ := h.exits b (hasBlock_of_mem (List.mem_of_getLast? hlast))
  simp only [hsuccs, mem_foldl_appendNew_nil]
  rw [hlast] at hus
  cases hus with
  | falls hcat hn =>
    obtain ⟨k, hk, haddr⟩ := hnext _ hn
    simp [successor_def, hcat i rfl, h.adjacent_iff_head hlast hk haddr]
  | branches hcat hn hus =>
    obtain ⟨k, hk, haddr⟩ := hnext _ hn
    simp [successor_def, hcat, h.adjacent_iff_head hlast hk haddr, h.jumpsTo_iff_head hi hus]
  | jumps hcat hus =>
    rcases hcat with hcat | hcat | hcat <;> simp [successor_def, hcat, h.jumpsTo_iff_head hi hus]
  | ends hcat => rcases hcat with hcat | hcat | hcat <;> simp [successor_def, hcat]

theorem successor_iff (h : Outlined is addr g) (i j : Instruction) :
    Successor is i j ↔ (∃ b, Adjacent (g.bodyOf b) i j) ∨
      ∃ b t, (g.bodyOf b).getLast? = some i ∧ t ∈ g.succs b ∧ (g.bodyOf t).head? = some j := by
  constructor
  · intro hs
    have hi : i ∈ is := by
      cases hs with
      | next _ hadj => exact (h.contiguous.adjacent_iff.1 hadj).1
      | jump _ hjump => exact hjump.1
    obtain ⟨b, hb⟩ := h.exists_block hi
    rcases getLast?_or_adjacent hb with hlast | ⟨hinner, k, hadj⟩
    · obtain ⟨t, ht, hhead⟩ := (h.successor_last_iff hlast).1 hs
      exact Or.inr ⟨b, t, hlast, ht, hhead⟩
    · have hcat := h.category_inner b i hinner
      have hnext : Adjacent is i j := by simpa [successor_def, hcat] using hs
      obtain ⟨-, hj, hnext⟩ := h.contiguous.adjacent_iff.1 hnext
      obtain ⟨-, hk, haddr⟩ := (h.contiguous_bodyOf b).adjacent_iff.1 hadj
      have hkj : k = j := h.contiguous.eq_of_address (h.mem_of_mem hk) hj (haddr.trans hnext.symm)
      exact Or.inl ⟨b, hkj ▸ hadj⟩
  · rintro (⟨b, hadj⟩ | ⟨b, t, hlast, ht, hhead⟩)
    · have hcat := h.category_inner b i (mem_dropLast_of_adjacent hadj)
      obtain ⟨hi, hj, haddr⟩ := (h.contiguous_bodyOf b).adjacent_iff.1 hadj
      exact .next (Or.inl hcat) (h.contiguous.adjacent_iff.2 ⟨h.mem_of_mem hi, h.mem_of_mem hj, haddr⟩)
    · exact (h.successor_last_iff hlast).2 ⟨t, ht, hhead⟩

theorem next_first (h : Outlined is addr g) (hlast : (g.bodyOf b).getLast? = some i)
    (hcat : i.category = .other ∨ i.category = .conditionalBranch) :
    ∃ t j, (g.succs b).head? = some t ∧ (g.bodyOf t).head? = some j ∧ Adjacent is i j := by
  obtain ⟨next, us, hus, hsuccs, hnext⟩ := h.exits b (hasBlock_of_mem (List.mem_of_getLast? hlast))
  rw [hlast] at hus
  obtain ⟨n, us', hn, rfl⟩ := hus.next_first hcat
  obtain ⟨k, hk, haddr⟩ := hnext n hn
  refine ⟨n, k, ?_, hk, (h.adjacent_iff_head hlast hk haddr).2 hk⟩
  rw [hsuccs]
  exact head?_foldl_appendNew n [] us'

theorem default_first (h : Outlined is addr g) (hlast : (g.bodyOf b).getLast? = some i) {table : SwitchTable}
    (htable : i.switchTable? = some table) :
    ∃ t j, (g.succs b).head? = some t ∧ (g.bodyOf t).head? = some j ∧
      (j.address : Int) = i.address + table.default := by
  have hcat := Instruction.category_of_switchTable? htable
  obtain ⟨next, us, hus, hsuccs, -⟩ := h.exits b (hasBlock_of_mem (List.mem_of_getLast? hlast))
  have hjumps : JumpsTo g i us := by
    rw [hlast] at hus
    cases hus with
    | falls hother _ => simp [hother i rfl] at hcat
    | branches hbranch _ _ => simp [hbranch] at hcat
    | jumps _ hus => exact hus
    | ends hends => rcases hends with hends | hends | hends <;> simp [hends] at hcat
  unfold JumpsTo at hjumps
  rw [Instruction.jumpTargets_of_switchTable? htable, List.map_cons, List.map_cons] at hjumps
  cases us with
  | nil => cases hjumps
  | cons t us =>
    obtain ⟨ht, -⟩ := List.cons.inj hjumps
    obtain ⟨j, hj, haddr⟩ := h.head_of_target _ t ht
    refine ⟨t, j, ?_, hj, haddr⟩
    rw [hsuccs]
    exact head?_foldl_appendNew t [] us

theorem empty_entry (h : Outlined is addr g) (hnil : g.bodyOf entry = []) :
    ∃ t j, g.succs entry = [t] ∧ (g.bodyOf t).head? = some j ∧ j.address = 0 := by
  obtain ⟨next, us, hus, hsuccs, hnext⟩ := h.exits entry h.rooted.hasBlock_entry
  rw [hnil] at hus hnext
  cases hus with
  | falls _ hn =>
    obtain ⟨j, hj, haddr⟩ := hnext _ hn
    exact ⟨_, j, hsuccs, hj, haddr.trans h.addr_entry⟩

theorem preds_entry (h : Outlined is addr g) : g.preds entry = [] := by
  rw [List.eq_nil_iff_forall_not_mem]
  intro b hb
  exact h.rooted.entry_not_mem_succs b (h.rooted.linked.mem_succs_iff.2 hb)

theorem empty_iff (h : Outlined is addr g) (hb : g.hasBlock b = true) :
    g.bodyOf b = [] ↔ b = entry ∧ ∃ i ∈ is, (0 : Int) ∈ i.jumpTargets := by
  constructor
  · intro hnil
    have hentry : b = entry := by
      by_contra hne
      exact h.ne_nil b hb hne hnil
    exact ⟨hentry, h.entry_empty_iff.1 (hentry ▸ hnil)⟩
  · rintro ⟨rfl, htarget⟩
    exact h.entry_empty_iff.2 htarget

theorem draws (h : Outlined is addr g) : Draws is g where
  bodies := h.bodies
  successor_iff := h.successor_iff
  nodup_succs b := by
    unfold succs
    cases hb : g.block? b with
    | none => simp
    | some block => simpa using h.rooted.linked.nodup_succs hb
  next_first _ _ := h.next_first
  default_first _ _ _ hlast htable := h.default_first hlast htable
  preds_entry := h.preds_entry
  empty_iff _ := h.empty_iff
  empty_entry := h.empty_entry

end Outlined

/-- Why there is no graph: there are no instructions, a jump leads to none, or control passes behind the last. -/
theorem ofInstructions_eq_error (his : Contiguous 0 is) {e : Error} (h : ofInstructions is = .error e) :
    is = [] ∧ e = .layout .noInstructions ∨
      (∃ i ∈ is, ∃ target ∈ i.jumpTargets, e = .invalidJump i.address target ∧
        ∀ j ∈ is, (j.address : Int) ≠ target) ∨
      ∃ last, is.getLast? = some last ∧ (last.category = .conditionalBranch ∨ last.category = .other) ∧
        e = .fallsOffEnd last.address := by
  by_cases hne : is = []
  · subst hne
    exact Or.inl ⟨rfl, (Except.error.inj h).symm⟩
  refine Or.inr ?_
  cases hts : Layout.targets is with
  | error e' =>
    refine Or.inl ?_
    obtain ⟨first, rest, rfl⟩ := List.exists_cons_of_ne_nil hne
    unfold ofInstructions at h
    simp only [List.head?_cons, hts] at h
    obtain rfl : e' = e := Except.error.inj h
    exact Layout.targets_eq_error hts
  | ok ts =>
    refine Or.inr ?_
    obtain ⟨g₀, hp, heq⟩ := ofInstructions_eq his hne hts
    rw [heq] at h
    have hlast : ∀ b ∈ List.range (Layout.runs ts is).length, ∀ last,
        (g₀.block? b).bind (·.instructions.getLast?) = some last → Resolved g₀ last := by
      intro b _ last hb
      rw [hp.block?_eq, Option.bind_map] at hb
      obtain ⟨run, hrun, hb⟩ := Option.bind_eq_some_iff.1 hb
      exact Layout.resolved_of_mem his hts hp (Layout.unmarked_mem his hrun (List.mem_of_getLast? hb))
    have hspec := connectAll_spec hp.linked (fun b hb => (hp.hasBlock_iff b).2 (List.mem_range.1 hb)) hlast
    split at h
    · cases h
    · next e' g' hconnect =>
      obtain rfl : e' = e := Except.error.inj h
      obtain ⟨b, hb, hstops⟩ := hspec.of_error hconnect
      obtain ⟨k, run, last, hlen, hrun, hlast, hend⟩ := Layout.exists_last_run his hne
      rw [hlen, List.range_succ, List.getLast?_concat] at hb
      obtain rfl : k = b := Option.some.inj hb
      unfold Stops at hstops
      simp only [hp.block?_eq, hrun, Option.map_some, Option.bind_some, hlast] at hstops
      exact ⟨last.unmarked, hend, hstops⟩

/-- Instructions have a graph exactly if control finds an instruction from everywhere. -/
theorem exists_graph_iff (his : Contiguous 0 is) : (∃ g, ofInstructions is = .ok g) ↔ Flows is := by
  constructor
  · rintro ⟨g, hg⟩
    obtain ⟨hne, ts, g₀, hts, hp, hconn⟩ := connected_ofInstructions his hg
    refine ⟨hne, fun i hi target htarget => Layout.exists_of_target hts hi htarget, ?_⟩
    intro i hi
    obtain ⟨b, run, last, hlen, hrun, hlast, hend⟩ := Layout.exists_last_run his hne
    obtain rfl : last.unmarked = i := Option.some.inj (hend.symm.trans hi)
    obtain ⟨next, us, hus, -, hnext⟩ := Layout.exits_of_run hconn hp hrun
    rw [hlast] at hus
    have hpass : ¬ (last.category = .other ∨ last.category = .conditionalBranch) := by
      intro hcat
      obtain ⟨n, -, hn, -⟩ := hus.next_first hcat
      obtain ⟨rfl, run', hrun'⟩ := hnext n hn
      have := (List.getElem?_eq_some_iff.1 hrun').1
      omega
    exact ⟨fun hcat => hpass (Or.inr hcat), fun hcat => hpass (Or.inl hcat)⟩
  · intro hflows
    cases h : ofInstructions is with
    | ok g => exact ⟨g, rfl⟩
    | error e =>
      exfalso
      rcases ofInstructions_eq_error his h with ⟨hnil, -⟩ | ⟨i, hi, target, htarget, -, hnot⟩ | ⟨last, hlast, hcat, -⟩
      · exact hflows.ne_nil hnil
      · obtain ⟨j, hj, haddr⟩ := hflows.target_mem i hi target htarget
        exact hnot j hj haddr
      · have hleaves := hflows.last_leaves last hlast
        exact hcat.elim hleaves.1 hleaves.2

/-- Decoded instructions have a graph exactly if control finds an instruction from everywhere, and the graph has
exactly their control flow. -/
theorem graph_is_control_flow {table : OperandTable} {code : List UInt8} {is : List Instruction}
    (h : Instruction.decode table code = .ok is) :
    ((∃ g, ofInstructions is = .ok g) ↔ Flows is) ∧ ∀ g, ofInstructions is = .ok g → Draws is g := by
  have his := Instruction.decode_contiguous h
  refine ⟨exists_graph_iff his, fun g hg => ?_⟩
  obtain ⟨addr, hout⟩ := outlined_ofInstructions his hg
  exact hout.draws

/-- A loop over the whole method but its last instruction: a value is loaded and tested until it is not zero. -/
def spin : List Instruction :=
  [⟨0, 0x1a, #[], false⟩, ⟨1, 0x99, #[0xff, 0xff], false⟩, ⟨4, 0xb1, #[], false⟩]

theorem decode_spin : Instruction.decode .standard [0x1a, 0x99, 0xff, 0xff, 0xb1] = .ok spin := by
  decide +kernel

theorem isOk_spin : (ofInstructions spin).isOk = true := by
  simp only [ofInstructions, Layout.partition_eq]
  decide +kernel

theorem spin_graph_is_control_flow : Instruction.decode .standard [0x1a, 0x99, 0xff, 0xff, 0xb1] = .ok spin ∧
    ∃ g, ofInstructions spin = .ok g ∧ Flows spin ∧ Draws spin g := by
  cases hg : ofInstructions spin with
  | error e =>
    have := isOk_spin
    rw [hg] at this
    cases this
  | ok g =>
    obtain ⟨hiff, hdraws⟩ := graph_is_control_flow decode_spin
    exact ⟨decode_spin, g, rfl, hiff.1 ⟨g, hg⟩, hdraws g hg⟩

end Graph

end Destack
