import Destack.Proofs.Graph.Analysis

/-!
# Heads and tails of loops

The search for loops numbers the heads that it finds from nought on (`Numbered`), and its tails are the sources of the
edges that it followed back (`Search.Tailed`). Its line puts the blocks that are left in an order in which these are the
edges that do not lead down (`LoopsFound`). This is so for every graph that is drawn from code or put together from
blocks and edges (`analyze_finds_loops`).
-/

namespace Destack.Graph

variable {g g' : Graph} {rank : BlockId → Nat} {a b u v : BlockId} {i : Nat}

/-! ## Numbers of heads -/

/-- The number of the loop that a block heads. -/
def loopNumber? (g : Graph) (b : BlockId) : Option Nat :=
  (g.block? b).bind (·.loopIndex)

theorem loopNumber?_eq {block : Block} (hb : g.block? b = some block) : g.loopNumber? b = block.loopIndex := by
  simp [loopNumber?, hb]

theorem loopNumber?_closeLoop {head tail : BlockId} (hh : g.hasBlock head = true) :
    (g.closeLoop head (some tail)).loopNumber? b =
      if b = head then some ((g.loopNumber? head).getD g.loops) else g.loopNumber? b := by
  obtain ⟨block, hblock⟩ := hasBlock_iff.1 hh
  unfold loopNumber?
  rw [Search.block?_closeLoop]
  split
  · next hb =>
    rw [hb, hblock]
    cases hn : block.loopIndex with
    | none => simp [Search.closedBlock, hn]
    | some n => simp [Search.closedBlock, hn]
  · next hb => simp [Search.closedBlock, hb, Option.bind_map]

theorem loops_closeLoop {head : BlockId} (hh : g.hasBlock head = true) (tail : BlockId) :
    (g.closeLoop head (some tail)).loops = if g.loopNumber? head = none then g.loops + 1 else g.loops := by
  obtain ⟨block, hblock⟩ := hasBlock_iff.1 hh
  rw [loopNumber?_eq hblock]
  unfold closeLoop
  simp only [hblock, Option.map_some, Option.getD_some, modifyBlock, Option.isNone_iff_eq_none]
  split <;> rfl

/-- The blocks with a number are the heads of loops, and every number below the next new one is used once. -/
structure Numbered (g : Graph) : Prop where
  isHead : ∀ {b : BlockId} {block : Block}, g.block? b = some block →
    (block.isHead = true ↔ block.loopIndex.isSome = true)
  lt_loops : ∀ {b : BlockId} {i : Nat}, g.loopNumber? b = some i → i < g.loops
  inj : ∀ {a b : BlockId} {i : Nat}, g.loopNumber? a = some i → g.loopNumber? b = some i → a = b
  exists_head : ∀ {i : Nat}, i < g.loops → ∃ b, g.loopNumber? b = some i

namespace Numbered

/-- A graph with the same numbers is numbered. -/
theorem congr (h : Numbered g)
    (hhead : ∀ {b : BlockId} {block : Block}, g'.block? b = some block →
      (block.isHead = true ↔ block.loopIndex.isSome = true))
    (hnumber : ∀ b, g'.loopNumber? b = g.loopNumber? b) (hloops : g'.loops = g.loops) : Numbered g' := by
  refine ⟨hhead, ?_, ?_, ?_⟩
  · intro b i hi
    rw [hnumber] at hi
    rw [hloops]
    exact h.lt_loops hi
  · intro a b i ha hb
    rw [hnumber] at ha hb
    exact h.inj ha hb
  · intro i hi
    rw [hloops] at hi
    obtain ⟨b, hb⟩ := h.exists_head hi
    exact ⟨b, (hnumber b).trans hb⟩

theorem of_keeps (h : Numbered g) (hk : Keeps (fun block => (block.isHead, block.loopIndex)) g g')
    (hloops : g'.loops = g.loops) : Numbered g' := by
  refine h.congr ?_ ?_ hloops
  · intro b block hb
    obtain ⟨block₀, hb₀, hview⟩ := hk.symm.exists_block hb
    obtain ⟨hhead, hindex⟩ := Prod.mk.inj hview
    rw [← hhead, ← hindex]
    exact h.isHead hb₀
  · intro b
    have := congrArg (Option.bind · Prod.snd) (hk b)
    simpa [loopNumber?, Option.bind_map, Function.comp_def] using this

/-- A head that is found for the first time gets the next number. -/
theorem closeLoop {head : BlockId} (h : Numbered g) (hh : g.hasBlock head = true) (tail : BlockId) :
    Numbered (g.closeLoop head (some tail)) := by
  have hhead : ∀ {b : BlockId} {block : Block}, (g.closeLoop head (some tail)).block? b = some block →
      (block.isHead = true ↔ block.loopIndex.isSome = true) := by
    intro b block hb
    rw [Search.block?_closeLoop] at hb
    obtain ⟨block, hblock, rfl⟩ := Option.map_eq_some_iff.1 hb
    by_cases hbh : b = head
    · cases hn : block.loopIndex <;> simp [Search.closedBlock, hbh, hn]
    · simpa [Search.closedBlock, hbh] using h.isHead hblock
  have hnumber : ∀ b, (g.closeLoop head (some tail)).loopNumber? b =
      if b = head then some ((g.loopNumber? head).getD g.loops) else g.loopNumber? b := fun b =>
    loopNumber?_closeLoop hh
  have hloops := loops_closeLoop hh tail
  cases hold : g.loopNumber? head with
  | some n =>
    have hsame : ∀ b, (g.closeLoop head (some tail)).loopNumber? b = g.loopNumber? b := by
      intro b
      rw [hnumber]
      split
      · next hb => rw [hb, hold, Option.getD_some]
      · rfl
    rw [hold, if_neg (Option.some_ne_none n)] at hloops
    exact h.congr hhead hsame hloops
  | none =>
    rw [hold, if_pos rfl] at hloops
    simp only [hold, Option.getD_none] at hnumber
    -- The new number is greater than those that other heads have.
    have hcases : ∀ {b : BlockId} {i : Nat}, (g.closeLoop head (some tail)).loopNumber? b = some i →
        b = head ∧ i = g.loops ∨ b ≠ head ∧ g.loopNumber? b = some i ∧ i < g.loops := by
      intro b i hi
      rw [hnumber] at hi
      split at hi
      · next hb => exact Or.inl ⟨hb, (Option.some.inj hi).symm⟩
      · next hb => exact Or.inr ⟨hb, hi, h.lt_loops hi⟩
    refine ⟨hhead, ?_, ?_, ?_⟩
    · intro b i hi
      rw [hloops]
      rcases hcases hi with ⟨-, rfl⟩ | ⟨-, -, hlt⟩
      · exact Nat.lt_succ_self _
      · exact Nat.lt_succ_of_lt hlt
    · intro a b i ha hb
      rcases hcases ha with ⟨rfl, hi⟩ | ⟨-, ha, hlt⟩ <;> rcases hcases hb with ⟨rfl, hi'⟩ | ⟨-, hb, hlt'⟩
      · rfl
      · omega
      · omega
      · exact h.inj ha hb
    · intro i hi
      rw [hloops] at hi
      rcases Nat.lt_succ_iff_lt_or_eq.1 hi with hlt | rfl
      · obtain ⟨b, hb⟩ := h.exists_head hlt
        refine ⟨b, ?_⟩
        rw [hnumber, if_neg, hb]
        rintro rfl
        rw [hold] at hb
        cases hb
      · exact ⟨head, by rw [hnumber, if_pos rfl]⟩

theorem loopHeadCount_eq (h : Numbered g) : g.loopHeadCount = g.loops := by
  have hperm : (g.blockIds.filterMap g.loopNumber?).Perm (List.range g.loops) := by
    have hnodup : (g.blockIds.filterMap g.loopNumber?).Nodup :=
      (nodup_blockIds g).filterMap fun a b i ha hb => h.inj ha hb
    refine (List.perm_ext_iff_of_nodup hnodup List.nodup_range).2 fun i => ?_
    rw [List.mem_filterMap, List.mem_range]
    constructor
    · rintro ⟨b, -, hb⟩
      exact h.lt_loops hb
    · intro hi
      obtain ⟨b, hb⟩ := h.exists_head hi
      obtain ⟨block, hblock, -⟩ := Option.bind_eq_some_iff.1 hb
      exact ⟨b, mem_blockIds.2 (hasBlock_iff.2 ⟨block, hblock⟩), hb⟩
  calc g.loopHeadCount = g.blockList.countP fun e => (g.loopNumber? e.1).isSome := by
        refine List.countP_congr fun e he => ?_
        have hblock := mem_blockList.1 he
        rw [loopNumber?_eq hblock]
        exact h.isHead hblock
    _ = (g.blockList.filterMap fun e => g.loopNumber? e.1).length := List.length_filterMap_eq_countP.symm
    _ = (g.blockIds.filterMap g.loopNumber?).length := by
        rw [← map_fst_blockList, List.filterMap_map]
        rfl
    _ = g.loops := by rw [hperm.length_eq, List.length_range]

end Numbered

/-! ## Tails -/

namespace Search

variable {s s' : Search} {p : BlockId} {path done : List BlockId} {seen : List (BlockId × BlockId)}

/-- An edge that was followed and does not advance. -/
def LeadsBack (s : Search) (u v : BlockId) : Prop :=
  (u, v) ∈ s.seen ∧ ¬ Before s.line u v

theorem leadsBack_look : LeadsBack ⟨p :: path, done, (p, b) :: seen⟩ u v ↔
    (u = p ∧ v = b ∧ ¬ Before (line ⟨p :: path, done, seen⟩) p b) ∨ LeadsBack ⟨p :: path, done, seen⟩ u v := by
  unfold LeadsBack
  rw [show line ⟨p :: path, done, (p, b) :: seen⟩ = line ⟨p :: path, done, seen⟩ from rfl]
  simp only [List.mem_cons, Prod.mk.injEq]
  constructor
  · rintro ⟨⟨rfl, rfl⟩ | hseen, hnot⟩
    · exact Or.inl ⟨rfl, rfl, hnot⟩
    · exact Or.inr ⟨hseen, hnot⟩
  · rintro (⟨rfl, rfl, hnot⟩ | ⟨hseen, hnot⟩)
    · exact ⟨Or.inl ⟨rfl, rfl⟩, hnot⟩
    · exact ⟨Or.inr hseen, hnot⟩

theorem leadsBack_push (h : Sound g ⟨p :: path, done, seen⟩) (hb : b ∈ g.succs p) (hnew : (p, b) ∉ seen)
    (hmem : b ∉ line ⟨p :: path, done, seen⟩) :
    LeadsBack ⟨b :: p :: path, done, (p, b) :: seen⟩ u v ↔ LeadsBack ⟨p :: path, done, seen⟩ u v := by
  have hsub := (Step.push hb hnew hmem).line_sublist
  have hnodup := (h.push hb hnew hmem).nodup
  have hbefore : Before (line ⟨b :: p :: path, done, (p, b) :: seen⟩) p b := by
    rw [line_push]
    exact before_append (by simp) List.mem_cons_self
  unfold LeadsBack
  constructor
  · rintro ⟨hseen, hnot⟩
    rcases List.mem_cons.1 hseen with heq | hseen
    · obtain ⟨rfl, rfl⟩ := Prod.mk.inj heq
      exact absurd hbefore hnot
    · obtain ⟨-, hu, hv⟩ := h.seen_mem _ hseen
      rw [before_congr hsub hnodup hu hv] at hnot
      exact ⟨hseen, hnot⟩
  · rintro ⟨hseen, hnot⟩
    obtain ⟨-, hu, hv⟩ := h.seen_mem _ hseen
    rw [← before_congr hsub hnodup hu hv] at hnot
    exact ⟨List.mem_cons_of_mem _ hseen, hnot⟩

/-- Loops are told at a stage of the search: heads are numbered, and tails are the sources of the edges that lead
back. -/
structure Tallies (s : Search) (g : Graph) : Prop where
  numbered : Numbered g
  isTail : ∀ {b : BlockId} {block : Block}, g.block? b = some block → (block.isTail = true ↔ ∃ v, s.LeadsBack b v)

/-- The marks of heads and tails in a block. -/
def loopMarks (block : Block) : Bool × Bool × Option Nat :=
  (block.isTail, block.isHead, block.loopIndex)

theorem Tallies.of_keeps (h : s.Tallies g) (hk : Keeps loopMarks g g') (hloops : g'.loops = g.loops)
    (hs : ∀ u v, s'.LeadsBack u v ↔ s.LeadsBack u v) : s'.Tallies g' := by
  refine ⟨h.numbered.of_keeps (hk.comp Prod.snd) hloops, ?_⟩
  intro b block hb
  obtain ⟨block₀, hb₀, hview⟩ := hk.symm.exists_block hb
  simp only [hs, ← (Prod.mk.inj hview).1]
  exact h.isTail hb₀

theorem Tallies.close (h : Tallies ⟨p :: path, done, seen⟩ g) (hs : Sound g' ⟨p :: path, done, seen⟩)
    (hb : b ∈ p :: path) (hhas : g.hasBlock b = true) :
    Tallies ⟨p :: path, done, (p, b) :: seen⟩ (g.closeLoop b (some p)) := by
  refine ⟨h.numbered.closeLoop hhas p, ?_⟩
  intro k block hk
  rw [block?_closeLoop] at hk
  obtain ⟨block, hblock, rfl⟩ := Option.map_eq_some_iff.1 hk
  simp only [leadsBack_look, not_before_of_mem_path hs hb, not_false_eq_true, and_true, closedBlock, Bool.or_eq_true,
    decide_eq_true_eq, h.isTail hblock, exists_or, exists_and_left, exists_eq]

/-- What one step of the search does to heads and tails. -/
theorem Tallies.moves {g₀ : Graph} {m m' : Search × Graph} (h : m.1.Tallies m.2) (hs : Sound g₀ m.1)
    (hsame : SameText g₀ m.2) (hlinked : Linked g₀) (hm : Moves g₀ m m') : m'.1.Tallies m'.2 := by
  cases hm with
  | @close path done seen p b g hb _ hmem =>
    exact h.close hs hmem ((hsame.keeps.hasBlock_eq b).trans (hlinked.hasBlock_target hb))
  | @skip path done seen p b g _ _ hmem =>
    have hbefore : Before (line ⟨p :: path, done, seen⟩) p b :=
      before_append (l := (p :: path).reverse) (by simp) hmem
    refine h.of_keeps (Keeps.refl _ _) rfl fun u v => ?_
    rw [leadsBack_look]
    simp [hbefore]
  | @push path done seen p b g hb hnew hmem =>
    have hk : Keeps loopMarks g (mark g b) := Keeps.modifyBlock g b fun _ => rfl
    exact h.of_keeps hk rfl fun u v => leadsBack_push hs hb hnew hmem
  | @pop path done seen p g =>
    have hk : Keeps loopMarks g (g.modifyBlock p fun block => { block with active := false }) :=
      Keeps.modifyBlock g p fun _ => rfl
    refine h.of_keeps hk rfl fun u v => ?_
    unfold LeadsBack
    rw [line_pop]

theorem Tallies.of_moves {g₀ : Graph} {m m' : Search × Graph} (h : m.1.Tallies m.2) (hs : Sound g₀ m.1)
    (hsame : SameText g₀ m.2) (hlinked : Linked g₀) (hm : Relation.ReflTransGen (Moves g₀) m m') :
    m'.1.Tallies m'.2 := by
  have hall : m'.1.Tallies m'.2 ∧ SameText g₀ m'.2 := by
    induction hm with
    | refl => exact ⟨h, hsame⟩
    | tail hmoves hmove ih =>
      exact ⟨ih.1.moves (hs.steps (Moves.steps hmoves)) ih.2 hlinked hmove, ih.2.trans hmove.sameText⟩
  exact hall.1

theorem tallies_start (hloops : g.loops = 0) : Tallies ⟨[entry], [], []⟩ (mark g.clearFlow entry) := by
  have hclear : ∀ {b : BlockId} {block : Block}, g.clearFlow.block? b = some block →
      loopMarks block = (false, false, none) := by
    intro b block hb
    rw [clearFlow, block?_mapBlocks] at hb
    obtain ⟨block, -, rfl⟩ := Option.map_eq_some_iff.1 hb
    rfl
  have hnumber : ∀ b, g.clearFlow.loopNumber? b = none := by
    intro b
    cases hb : g.clearFlow.block? b with
    | none => simp [loopNumber?, hb]
    | some block =>
      rw [loopNumber?_eq hb]
      exact (congrArg (·.2.2) (hclear hb) :)
  have hk : Keeps loopMarks g.clearFlow (mark g.clearFlow entry) := Keeps.modifyBlock _ _ fun _ => rfl
  have hstart : Tallies ⟨[entry], [], []⟩ g.clearFlow := by
    refine ⟨⟨?_, ?_, ?_, ?_⟩, ?_⟩
    · intro b block hb
      obtain ⟨-, hrest⟩ := Prod.mk.inj (hclear hb)
      obtain ⟨hhead, hindex⟩ := Prod.mk.inj hrest
      simp [hhead, hindex]
    · simp [hnumber]
    · simp [hnumber]
    · intro i hi
      rw [show g.clearFlow.loops = g.loops from rfl, hloops] at hi
      exact absurd hi (Nat.not_lt_zero i)
    · intro b block hb
      simp [(Prod.mk.inj (hclear hb)).1, LeadsBack]
  exact hstart.of_keeps hk rfl fun _ _ => Iff.rfl

/-- The line of the search always starts with the same block. -/
theorem Step.head?_line (h : Step g s s') : s'.line.head? = s.line.head? := by
  cases h with
  | look => rfl
  | push =>
    rw [line_push]
    simp [line, List.head?_append]
  | pop => rw [line_pop]

theorem Steps.head?_line (h : Steps g s s') : s'.line.head? = s.line.head? := by
  induction h with
  | refl => rfl
  | tail _ hstep ih => exact hstep.head?_line.trans ih

/-- The first search for loops in a graph tells its loops. -/
theorem exists_ended (hg : Rooted g) (hloops : g.loops = 0) :
    ∃ s, Ended g s ∧ s.line.head? = some entry ∧ s.Tallies g.clearFlow.findLoops := by
  obtain ⟨s, hmoves, hpath⟩ := findLoops_run hg
  refine ⟨s, ended_of_moves hg hmoves hpath, (Moves.steps hmoves).head?_line, ?_⟩
  exact (tallies_start hloops).of_moves (sound_start g) ((clearFlow_sameText g).trans (mark_sameText _ entry)) hg.linked
    hmoves

end Search

/-! ## What is left -/

theorem hasBlock_prune (g : Graph) (b : BlockId) : g.prune.2.hasBlock b = true ↔ g.hasBlock b = true ∧ b ∉ g.dead := by
  rw [hasBlock_iff, hasBlock_iff, block?_prune]
  split
  · next h => simp [h]
  · next h => simp [h]

/-- Pruning counts the blocks that it takes away. -/
theorem prune_add_blockCount (g : Graph) : g.prune.1 + g.prune.2.blockCount = g.blockCount := by
  have hcount : g.prune.1 = g.dead.length := by
    unfold prune dead
    dsimp only
    split
    · next h => rw [List.isEmpty_iff.1 h, List.length_nil]
    · rfl
  have hdead : g.dead.Nodup := by
    have hsub : g.dead.Sublist g.blockIds := by
      rw [← map_fst_blockList]
      exact List.filter_sublist.map _
    exact (nodup_blockIds g).sublist hsub
  have hnodup : (g.dead ++ g.prune.2.blockIds).Nodup := by
    refine List.nodup_append.2 ⟨hdead, nodup_blockIds _, fun a ha b hb => ?_⟩
    rintro rfl
    exact ((hasBlock_prune g a).1 (mem_blockIds.1 hb)).2 ha
  have hperm : (g.dead ++ g.prune.2.blockIds).Perm g.blockIds := by
    refine (List.perm_ext_iff_of_nodup hnodup (nodup_blockIds g)).2 fun b => ?_
    rw [List.mem_append, mem_blockIds, mem_blockIds, hasBlock_prune]
    constructor
    · rintro (hb | ⟨hb, -⟩)
      · obtain ⟨block, hblock, -⟩ := mem_dead.1 hb
        exact hasBlock_iff.2 ⟨block, hblock⟩
      · exact hb
    · intro hb
      by_cases hd : b ∈ g.dead
      · exact Or.inl hd
      · exact Or.inr ⟨hb, hd⟩
  rw [hcount, ← length_blockIds, ← length_blockIds, ← hperm.length_eq, List.length_append]

/-- The blocks that an analysis takes away and the ones that it leaves are all there were. -/
theorem pruned_add_blockCount (g : Graph) :
    g.clearFlow.findLoops.prune.1 + g.clearFlow.findLoops.prune.2.findDominators.blockCount = g.blockCount := by
  rw [(findDominators_sameText _).keeps.blockCount_eq, prune_add_blockCount, (findLoops_sameText g).keeps.blockCount_eq]

/-- Among blocks that are there, those that pruning keeps stay predecessors in their order. -/
theorem preds_prune (hg : Linked g) (hb : g.prune.2.hasBlock b = true) :
    g.prune.2.preds b = (g.preds b).filter g.prune.2.hasBlock := by
  obtain ⟨block', hb'⟩ := hasBlock_iff.1 hb
  obtain ⟨-, block, hblock, rfl⟩ := block?_prune_eq_some hb'
  rw [preds_eq hb', preds_eq hblock]
  refine List.filter_congr fun p hp => ?_
  rw [Bool.eq_iff_iff, survives_iff, hasBlock_prune]
  exact ⟨fun h => ⟨hg.pred_mem hblock hp, h⟩, And.right⟩

theorem Numbered.prune (h : Numbered g)
    (hheads : ∀ {b : BlockId} {block : Block}, g.block? b = some block → block.isHead = true → b ∉ g.dead) :
    Numbered g.prune.2 := by
  refine h.congr ?_ ?_ ?_
  · intro b block' hb
    obtain ⟨-, block, hblock, rfl⟩ := block?_prune_eq_some hb
    exact (h.isHead hblock :)
  · intro b
    unfold loopNumber?
    rw [block?_prune]
    cases hb : g.block? b with
    | none => simp
    | some block =>
      split
      · next hdead =>
        have hhead : ¬ block.loopIndex.isSome = true := fun hn => hheads hb ((h.isHead hb).2 hn) hdead
        exact (Option.not_isSome_iff_eq_none.1 hhead).symm
      · rfl
  · exact (congrArg Graph.loops g.prune_eq).trans rfl

theorem findDominators_loops (hg : Ranked g rank) : g.findDominators.loops = g.loops := by
  obtain ⟨st, hsteps, -, hgraph⟩ := Tour.steps_findDominators hg
  have hstart : (Traversal.dominators.start g.clearDominators).graph.loops = g.loops := by
    rw [Tour.start_dominators hg]
    rfl
  rw [← hgraph, ← hstart]
  clear hgraph
  induction hsteps with
  | refl => rfl
  | tail _ hstep ih =>
    refine Eq.trans ?_ ih
    cases hstep with
    | enter harrive =>
      obtain ⟨-, rfl⟩ := Prod.mk.inj harrive
      rfl
    | pass harrive =>
      obtain ⟨-, rfl⟩ := Prod.mk.inj harrive
      rfl
    | leave => rfl

/-- An edge that does not lead down an order of the blocks. -/
def LeadsUp (g : Graph) (order : List BlockId) (u v : BlockId) : Prop :=
  v ∈ g.succs u ∧ order.idxOf v ≤ order.idxOf u

/-- An edge from the tail of a loop to the head of one. -/
def Closes (g : Graph) (u v : BlockId) : Prop :=
  (g.block? u).any (·.isTail) = true ∧ (g.block? v).any (·.isHead) = true

/-- An analysis leaves the blocks that paths lead to. -/
structure KeepsReachable (g : Graph) (summary : FlowSummary) (g' : Graph) : Prop where
  hasBlock_iff : ∀ b, g'.hasBlock b = true ↔ g.Reaches b
  succs_eq : ∀ b, g.Reaches b → g'.succs b = g.succs b
  /-- Predecessors that are left keep their order. -/
  preds_eq : ∀ b, g.Reaches b → g'.preds b = (g.preds b).filter g'.hasBlock
  pruned_add : summary.pruned + g'.blockCount = g.blockCount
  blockAt?_iff : ∀ a b, g'.blockAt? a = some b ↔
    g'.hasBlock b = true ∧ ∃ block, g.block? b = some block ∧ block.start? = some a

/-- The loops of a graph are marked along an order of its blocks: edges that do not lead down the order close loops. -/
structure LoopsMarked (g : Graph) (heads : Nat) (order : List BlockId) : Prop where
  nodup_order : order.Nodup
  mem_order : ∀ b, b ∈ order ↔ g.hasBlock b = true
  head?_order : order.head? = some entry
  backEdges_eq : ∀ b block, g.block? b = some block → block.backEdges = {u | g.LeadsUp order u b}.ncard
  isHead_iff : ∀ b block, g.block? b = some block → (block.isHead = true ↔ 0 < block.backEdges)
  isTail_iff : ∀ b block, g.block? b = some block → (block.isTail = true ↔ ∃ v, g.LeadsUp order b v)
  /-- Every cycle passes from the tail of a loop to the head of one. -/
  cycle : ∀ b, ¬ Relation.TransGen (fun u v => v ∈ g.succs u ∧ ¬ g.Closes u v) b b
  not_active : ∀ b block, g.block? b = some block → block.active = false
  isHead_iff_number : ∀ b block, g.block? b = some block → (block.isHead = true ↔ ∃ i, block.loopIndex = some i)
  number_lt : ∀ b i, g.loopNumber? b = some i → i < heads
  existsUnique_number : ∀ i < heads, ∃! b, g.loopNumber? b = some i

/-- Edges that do not close a loop lead down the order. -/
theorem not_cycle (order : List BlockId) (hhead : ∀ {u v : BlockId}, g.LeadsUp order u v → g.Closes u v) :
    ¬ Relation.TransGen (fun u v => v ∈ g.succs u ∧ ¬ g.Closes u v) b b := by
  have hlt : ∀ {a b : BlockId}, Relation.TransGen (fun u v => v ∈ g.succs u ∧ ¬ g.Closes u v) a b →
      order.idxOf a < order.idxOf b := by
    intro a b hab
    have hedge : ∀ {u v : BlockId}, v ∈ g.succs u → ¬ g.Closes u v → order.idxOf u < order.idxOf v := by
      intro u v hv hnot
      by_contra hle
      exact hnot (hhead ⟨hv, Nat.le_of_not_lt hle⟩)
    induction hab with
    | single huv => exact hedge huv.1 huv.2
    | tail _ huv ih => exact ih.trans (hedge huv.1 huv.2)
  exact fun h => Nat.lt_irrefl _ (hlt h)

theorem SameText.preds_eq (h : SameText g g') (b : BlockId) : g'.preds b = g.preds b := by
  have := congrArg (Option.map Block.preds) (h.keeps b)
  simp only [Option.map_map] at this
  exact congrArg (Option.getD · []) this

theorem keepsReachable_analyze (hg : Rooted g) (hcharted : Charted g) {heads : Nat} :
    KeepsReachable g ⟨heads, g.clearFlow.findLoops.prune.1⟩ g.clearFlow.findLoops.prune.2.findDominators := by
  obtain ⟨-, hreach, hsuccs⟩ := exists_ranked hg
  have hloops := findLoops_sameText g
  have hdom := findDominators_sameText g.clearFlow.findLoops.prune.2
  have hhas := hdom.keeps.hasBlock_eq
  constructor
  case hasBlock_iff =>
    intro b
    rw [hhas, hreach]
  case succs_eq =>
    intro b hb
    rw [hdom.succs_eq, hsuccs b hb]
  case preds_eq =>
    intro b hb
    rw [hdom.preds_eq, preds_prune (hloops.rooted hg).linked ((hreach b).2 hb), hloops.preds_eq, funext hhas]
  case pruned_add => exact pruned_add_blockCount g
  case blockAt?_iff =>
    intro a b
    rw [hhas, blockAt?, hdom.starts_eq]
    refine ((hcharted.of_sameText hloops).blockAt?_prune).trans ?_
    rw [blockAt?, hloops.starts_eq, and_comm]
    exact and_congr_right fun _ => hcharted.blockAt?_iff

/-- The first analysis of a graph numbers its loops from zero on. -/
theorem numbered_analyze (hg : Rooted g) (hloops : g.loops = 0) :
    Numbered g.clearFlow.findLoops.prune.2.findDominators := by
  obtain ⟨s, hs, -, ht⟩ := Search.exists_ended hg hloops
  obtain ⟨_, hsound, -, -⟩ := Tour.findDominators_spec hs.ranked_pruned
  have hview : Keeps (fun block => (block.isHead, block.loopIndex)) g.clearFlow.findLoops.prune.2
      g.clearFlow.findLoops.prune.2.findDominators :=
    hsound.counts.keeps.comp fun block => (block.isHead, block.loopIndex)
  refine (ht.numbered.prune fun {b block} hb hhead hdead => ?_).of_keeps hview (findDominators_loops hs.ranked_pruned)
  -- An edge was followed to the head of a loop, so the search knows it.
  have hpos : 0 < s.retreats b := by
    rw [← hs.marks.backEdges hb]
    exact (hs.marks.isHead hb).1 hhead
  obtain ⟨e, he, heb⟩ := List.countP_pos_iff.1 hpos
  obtain ⟨block', hb', hvisited⟩ := mem_dead.1 hdead
  have hmem := (hs.sound.seen_mem e he).2.2
  rw [(of_decide_eq_true heb).1, ← hs.marks.visited hb', hvisited] at hmem
  cases hmem

/-- An edge that does not raise the rank closes a loop, if tails are the blocks that such edges leave. -/
theorem Ranked.closes {order : List BlockId} (h : Ranked g order.idxOf)
    (htail : ∀ b block, g.block? b = some block → (block.isTail = true ↔ ∃ v, g.LeadsUp order b v)) {u v : BlockId}
    (huv : g.LeadsUp order u v) : g.Closes u v := by
  obtain ⟨hv, hle⟩ := huv
  obtain ⟨block, hb⟩ := Graph.hasBlock_iff.1 (h.rooted.linked.hasBlock_source hv)
  obtain ⟨target, htarget⟩ := Graph.hasBlock_iff.1 (h.rooted.linked.hasBlock_target hv)
  have hpos : 0 < target.backEdges := by
    rw [h.backEdges htarget, List.countP_pos_iff]
    refine ⟨u, ?_, by simpa using hle⟩
    rw [← Graph.preds_eq htarget]
    exact h.rooted.linked.mem_succs_iff.1 hv
  unfold Closes
  rw [hb, htarget]
  exact ⟨(htail u block hb).2 ⟨v, hv, hle⟩, (h.isHead htarget).2 hpos⟩

theorem loopsMarked_analyze (hg : Rooted g) (hloops : g.loops = 0) :
    ∃ order, LoopsMarked g.clearFlow.findLoops.prune.2.findDominators
      g.clearFlow.findLoops.prune.2.findDominators.loopHeadCount order := by
  obtain ⟨s, hs, hhead, ht⟩ := Search.exists_ended hg hloops
  obtain ⟨_, hsound, -, -⟩ := Tour.findDominators_spec hs.ranked_pruned
  have hkeeps := hsound.counts.keeps
  have hranked := hs.ranked_pruned.of_keeps hkeeps
  have hnumbered := numbered_analyze hg hloops
  have hback : ∀ {u v : BlockId}, s.LeadsBack u v ↔
      g.clearFlow.findLoops.prune.2.findDominators.LeadsUp s.line u v := by
    intro u v
    unfold Search.LeadsBack LeadsUp
    rw [hkeeps.succs_eq, ← hs.mem_seen_iff_pruned]
    refine and_congr_right fun hseen => ?_
    rw [before_iff hs.sound.nodup (hs.sound.seen_mem _ hseen).2.2, Nat.not_lt]
  -- The blocks that are left have the marks that the search made.
  have hold : ∀ {b : BlockId} {block : Block}, g.clearFlow.findLoops.prune.2.findDominators.block? b = some block →
      ∃ block₀, g.clearFlow.findLoops.block? b = some block₀ ∧ block₀.isTail = block.isTail ∧
        block₀.active = block.active := by
    intro b block hb
    obtain ⟨block', hb', hview⟩ := hkeeps.symm.exists_block hb
    obtain ⟨-, block₀, hb₀, rfl⟩ := block?_prune_eq_some hb'
    exact ⟨block₀, hb₀, (congrArg Block.isTail hview :), (congrArg Block.active hview :)⟩
  have htail : ∀ b block, g.clearFlow.findLoops.prune.2.findDominators.block? b = some block →
      (block.isTail = true ↔ ∃ v, g.clearFlow.findLoops.prune.2.findDominators.LeadsUp s.line b v) := by
    intro b block hb
    obtain ⟨block₀, hb₀, htail, -⟩ := hold hb
    rw [← htail, ht.isTail hb₀]
    exact exists_congr fun v => hback
  refine ⟨s.line, ?_⟩
  constructor
  case nodup_order => exact hs.sound.nodup
  case mem_order =>
    intro b
    rw [hkeeps.hasBlock_eq, hs.hasBlock_pruned_iff]
  case head?_order => exact hhead
  case backEdges_eq => exact fun b block hb => hranked.backEdges_eq_ncard hb
  case isHead_iff => exact fun b block hb => hranked.isHead hb
  case isTail_iff => exact htail
  case cycle => exact fun b => not_cycle s.line (hranked.closes htail)
  case not_active =>
    intro b block hb
    obtain ⟨block₀, hb₀, -, hactive⟩ := hold hb
    rw [← hactive, Bool.eq_false_iff]
    intro h
    have := (hs.marks.active hb₀).1 h
    simp [hs.path_eq] at this
  case isHead_iff_number =>
    intro b block hb
    rw [hnumbered.isHead hb, Option.isSome_iff_exists]
  case number_lt =>
    intro b i hi
    rw [hnumbered.loopHeadCount_eq]
    exact hnumbered.lt_loops hi
  case existsUnique_number =>
    intro i hi
    rw [hnumbered.loopHeadCount_eq] at hi
    obtain ⟨b, hb⟩ := hnumbered.exists_head hi
    exact ⟨b, hb, fun k hk => hnumbered.inj hk hb⟩

/-! ## Graphs that are analysed -/

theorem Assembled.bare (h : Assembled g) :
    g.loops = 0 ∧ g.starts = ∅ ∧ ∀ b block, g.block? b = some block → block.instructions = [] := by
  induction h with
  | empty => exact ⟨rfl, rfl, by simp [block?, Graph.empty]⟩
  | @addBlock g _ ih =>
    obtain ⟨hloops, hstarts, hblocks⟩ := ih
    refine ⟨hloops, hstarts, fun b block hb => ?_⟩
    rw [block?_addBlock] at hb
    split at hb
    · rw [← Option.some.inj hb]
    · exact hblocks b block hb
  | @addEdge g g' source target hg hadd ih =>
    obtain ⟨hloops, hstarts, hblocks⟩ := ih
    have heq := addEdge_eq hadd
    refine ⟨(congrArg Graph.loops heq).trans hloops, (congrArg Graph.starts heq).trans hstarts, fun b block hb => ?_⟩
    rw [block?_addEdge hg.linked hadd] at hb
    obtain ⟨block₀, hb₀, rfl⟩ := Option.map_eq_some_iff.1 hb
    exact (congrArg Block.instructions (bare_withEdge source target b block₀) :).trans (hblocks b block₀ hb₀)

/-- Graphs as they are before an analysis: those of code, and those put together from blocks and edges, none of which
leads to the entry. -/
inductive Drawn : Graph → Prop where
  | code {is : List Instruction} {g : Graph} : Contiguous 0 is → ofInstructions is = .ok g → Drawn g
  | assembled {g : Graph} : Assembled g → g.blockCount ≠ 0 → (∀ b, entry ∉ g.succs b) → Drawn g

namespace Drawn

/-- Blocks below a number, and edges of which none leads to the first of them. -/
theorem exists_of_edges (n : Nat) (es : List (BlockId × BlockId)) (hn : 0 < n)
    (hes : ∀ e ∈ es, e.1 < n ∧ e.2 < n ∧ e.2 ≠ entry) :
    ∃ g, Drawn g ∧ ∀ u v, v ∈ g.succs u ↔ (u, v) ∈ es := by
  obtain ⟨g, hg, hhas, hsuccs⟩ := Assembled.exists_of_edges n es fun e he => ⟨(hes e he).1, (hes e he).2.1⟩
  refine ⟨g, .assembled hg ?_ fun b hb => ?_, hsuccs⟩
  · rw [← length_blockIds]
    exact (List.length_pos_of_mem (mem_blockIds.2 ((hhas 0).2 hn))).ne'
  · exact (hes _ ((hsuccs b entry).1 hb)).2.2 rfl

theorem rooted (h : Drawn g) : Rooted g ∧ g.order = [] := by
  cases h with
  | code _ hg => exact rooted_ofInstructions hg
  | assembled hg hne hentry => exact ⟨hg.rooted hne hentry, hg.order_eq⟩

theorem loops_eq (h : Drawn g) : g.loops = 0 := by
  cases h with
  | code his hg =>
    obtain ⟨-, ts, g₀, -, hp, hconn⟩ := connected_ofInstructions his hg
    exact (congrArg Graph.loops hconn.eq_with_blocks).trans hp.loops_eq
  | assembled hg => exact hg.bare.1

theorem charted (h : Drawn g) : Charted g := by
  cases h with
  | code his hg =>
    obtain ⟨⟨addr, hlaid⟩, -⟩ := laid_ofInstructions his hg
    exact hlaid.charted
  | assembled hg =>
    obtain ⟨-, hstarts, hblocks⟩ := hg.bare
    constructor
    · intro a t
      rw [blockAt?, hstarts]
      constructor
      · intro ht
        simp at ht
      · rintro ⟨block, hb, hstart⟩
        simp [Block.start?, hblocks t block hb] at hstart
    · intro b b' block block' hb _ i hi
      rw [hblocks b block hb] at hi
      cases hi

end Drawn

/-- The first analysis of a graph leaves the blocks that paths lead to, counts the ones that it takes away, and finds
the loops: along an order of the blocks it counts the edges that do not lead down at their targets. -/
theorem analyze_finds_loops (h : Drawn g) :
    ∃ summary g' order, g.analyze = .ok (summary, g') ∧ KeepsReachable g summary g' ∧
      LoopsMarked g' summary.loopHeads order := by
  obtain ⟨hg, horder⟩ := h.rooted
  obtain ⟨order, hmarked⟩ := loopsMarked_analyze hg h.loops_eq
  exact ⟨_, _, order, hg.analyze_eq horder, keepsReachable_analyze hg h.charted, hmarked⟩

/-- A loop with two ways back and a block that nothing leads to. -/
theorem analyze_finds_loops_of_two_tails :
    ∃ g, Drawn g ∧ (∀ u v, v ∈ g.succs u ↔ (u, v) ∈ [(0, 1), (1, 2), (2, 1), (1, 1), (3, 2)]) ∧
      ∃ summary g' order, g.analyze = .ok (summary, g') ∧ KeepsReachable g summary g' ∧
        LoopsMarked g' summary.loopHeads order ∧ g'.hasBlock 2 = true ∧ g'.hasBlock 3 = false := by
  obtain ⟨g, hdrawn, hsuccs⟩ :=
    Drawn.exists_of_edges 4 [(0, 1), (1, 2), (2, 1), (1, 1), (3, 2)] (by decide) (by decide)
  obtain ⟨summary, g', order, hok, hkept, hmarked⟩ := analyze_finds_loops hdrawn
  have hreach : g.Reaches 2 :=
    (reaches_entry.succ ((hsuccs 0 1).2 (by decide))).succ ((hsuccs 1 2).2 (by decide))
  have hnot : ¬ g.Reaches 3 := by
    rintro ⟨bs, hbs⟩
    cases hbs with
    | step _ hv => simp [hsuccs] at hv
  refine ⟨g, hdrawn, hsuccs, summary, g', order, hok, hkept, hmarked, (hkept.hasBlock_iff 2).2 hreach, ?_⟩
  rw [Bool.eq_false_iff]
  exact fun h => hnot ((hkept.hasBlock_iff 3).1 h)

end Destack.Graph
