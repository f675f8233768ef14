import Destack.Proofs.Graph.Flow
import Destack.Proofs.Graph.Search
import Destack.Proofs.Graph.Traversal

/-!
# The search for loops

The search for loops is a depth-first search from the entry (`findLoops_spec`), and its marks tell the stage that it is
in: which blocks it knows, which are on the path, and how many of the edges that were followed do not advance. Pruning
then keeps the blocks that paths lead to. What is left is ranked by the line of the search (`exists_ranked`), and
a block has as many back edges as there are edges into it that do not raise the rank.
-/

namespace Destack.Graph

open scoped List

variable {g g' : Graph} {s s' : Search} {p b k : BlockId}

theorem SameText.succs_eq (h : SameText g g') (b : BlockId) : g'.succs b = g.succs b := by
  have := congrArg (Option.map Block.succs) (h.keeps b)
  simp only [Option.map_map] at this
  exact congrArg (Option.getD · []) this

theorem Rooted.of_keeps (hg : Rooted g) (h : Keeps textOf g g') : Rooted g' := by
  refine ⟨hg.linked.of_keeps h, ?_, ?_⟩
  · rw [h.hasBlock_eq]
    exact hg.hasBlock_entry
  · intro b block hb
    obtain ⟨block₀, hb₀, -, -, hsuccs⟩ := h.old_text hb
    exact hsuccs ▸ hg.entry_not_mem hb₀

theorem SameText.rooted (h : SameText g g') (hg : Rooted g) : Rooted g' :=
  hg.of_keeps (h.keeps.comp textOf)

theorem Keeps.blockIds_eq {γ : Type} {view : Block → γ} (h : Keeps view g g') : g'.blockIds = g.blockIds := by
  refine (pairwise_blockIds g').eq_of_mem_iff (pairwise_blockIds g) fun b => ?_
  rw [mem_blockIds, mem_blockIds, h.hasBlock_eq]

theorem Keeps.blockCount_eq {γ : Type} {view : Block → γ} (h : Keeps view g g') : g'.blockCount = g.blockCount := by
  rw [← length_blockIds, ← length_blockIds, h.blockIds_eq]

theorem loopHeadCount_eq_countP (g : Graph) :
    g.loopHeadCount = g.blockIds.countP fun b => ((g.block? b).map (·.isHead)).getD false := by
  rw [loopHeadCount, ← map_fst_blockList, List.countP_map]
  refine List.countP_congr fun e he => ?_
  simp [mem_blockList.1 he]

theorem Keeps.loopHeadCount_eq (h : Keeps (·.isHead) g g') : g'.loopHeadCount = g.loopHeadCount := by
  rw [loopHeadCount_eq_countP, loopHeadCount_eq_countP, h.blockIds_eq]
  exact List.countP_congr fun b _ => by rw [h b]

theorem findLoops_sameText (g : Graph) : SameText g g.clearFlow.findLoops :=
  (clearFlow_sameText g).trans (Traversal.visit_loops_sameText _ _ _ _)

/-! ## Blocks that the search looks up -/

theorem exists_markLoop {head : BlockId} {tail : Option BlockId} (hhead : g.hasBlock head = true)
    (htail : ∀ t, tail = some t → g.hasBlock t = true) : ∃ g', g.markLoop head tail = .ok g' := by
  obtain ⟨block, hget, -⟩ := exists_getBlock hhead
  have hhas : ∀ k,
      (if block.loopIndex.isNone then { g with loops := g.loops + 1 } else g).hasBlock k = g.hasBlock k := by
    intro k
    split <;> rfl
  unfold markLoop
  rw [hget]
  dsimp only [bind, Except.bind]
  rw [editBlock_of_hasBlock _ ((hhas head).trans hhead)]
  cases tail with
  | none => exact ⟨_, rfl⟩
  | some t =>
    refine ⟨_, editBlock_of_hasBlock _ ?_⟩
    rw [hasBlock_modifyBlock, hhas]
    exact htail t rfl

/-- Where edges lead to blocks of the graph, the search finds every block that it comes to. -/
theorem exists_searchLoopsFrom (hclosed : ∀ {b t : BlockId}, t ∈ g.succs b → g.hasBlock t = true) (depth : Nat)
    {b : BlockId} (pred : Option BlockId) (htext : SameText g g') (hb : g.hasBlock b = true)
    (hpred : ∀ p, pred = some p → g.hasBlock p = true) :
    ∃ g'', searchLoopsFrom depth b pred g' = .ok g'' ∧ SameText g g'' := by
  have hend : ∀ {d : Nat} {k : BlockId} {pred : Option BlockId} {g₁ : Graph}, SameText g g₁ →
      (∃ g₂, searchLoopsFrom d k pred g₁ = .ok g₂) → ∃ g₂, searchLoopsFrom d k pred g₁ = .ok g₂ ∧ SameText g g₂ := by
    rintro d k pred g₁ htext ⟨g₂, h⟩
    exact ⟨g₂, h, Traversal.searchLoopsFrom_eq_ok h ▸ htext.trans (Traversal.visit_loops_sameText _ _ _ _)⟩
  induction depth generalizing b pred g' with
  | zero => exact ⟨g', rfl, htext⟩
  | succ depth ih =>
    have hhas : ∀ k, g.hasBlock k = true → g'.hasBlock k = true := fun k hk => (htext.keeps.hasBlock_eq k).trans hk
    obtain ⟨block, hget, hblock⟩ := exists_getBlock (hhas b hb)
    refine hend htext ?_
    unfold searchLoopsFrom
    rw [hget]
    dsimp only [bind, Except.bind]
    split
    · exact exists_markLoop (hhas b hb) fun p hp => hhas p (hpred p hp)
    · split
      · exact ⟨g', rfl⟩
      · rw [editBlock_of_hasBlock _ (hhas b hb)]
        have hmarked := htext.trans (SameText.modifyBlock g' b
          (f := fun block => { block with visited := true, active := true }) fun _ => rfl)
        have hsearch : ∀ g₁ t, t ∈ block.succs → SameText g g₁ →
            ∃ g₂, searchLoopsFrom depth t (some b) g₁ = .ok g₂ ∧ SameText g g₂ := by
          intro g₁ t ht htext₁
          rw [← succs_eq hblock, htext.succs_eq] at ht
          exact ih (some b) htext₁ (hclosed ht) fun p hp => Option.some.inj hp ▸ hb
        obtain ⟨g₂, hfold, htext₂⟩ := exists_foldlM_eq_ok (SameText g) hsearch hmarked
        dsimp only
        rw [hfold]
        exact ⟨_, editBlock_of_hasBlock _ ((htext₂.keeps.hasBlock_eq b).trans hb)⟩

/-- The search for loops in a rooted graph finds everything that it looks up. -/
theorem Rooted.searchLoops_eq (hg : Rooted g) : g.clearFlow.searchLoops = .ok g.clearFlow.findLoops := by
  obtain ⟨g', hsearch, -⟩ := exists_searchLoopsFrom hg.linked.hasBlock_target (g.clearFlow.blockCount + 1) none
    (clearFlow_sameText g) hg.hasBlock_entry (by simp)
  exact hsearch.trans (congrArg _ (Traversal.searchLoopsFrom_eq_ok hsearch))

/-! ## Marks of a stage -/

namespace Search

/-- A graph with a block marked as known and on the path. -/
def mark (g : Graph) (b : BlockId) : Graph :=
  g.modifyBlock b fun block => { block with visited := true, active := true }

theorem mark_sameText (g : Graph) (b : BlockId) : SameText g (mark g b) :=
  SameText.modifyBlock g b fun _ => rfl

/-- Edges into a block that were followed and do not advance. -/
def retreats (s : Search) (b : BlockId) : Nat :=
  s.seen.countP fun e => e.2 = b ∧ ¬ Before s.line e.1 e.2

/-- The blocks of a graph are marked with a stage of the search. -/
structure Marks (s : Search) (g : Graph) : Prop where
  visited : ∀ {b : BlockId} {block : Block}, g.block? b = some block → (block.visited = true ↔ b ∈ s.line)
  active : ∀ {b : BlockId} {block : Block}, g.block? b = some block → (block.active = true ↔ b ∈ s.path)
  backEdges : ∀ {b : BlockId} {block : Block}, g.block? b = some block → block.backEdges = s.retreats b
  isHead : ∀ {b : BlockId} {block : Block}, g.block? b = some block → (block.isHead = true ↔ 0 < block.backEdges)

theorem not_before_of_mem_path {path done : List BlockId} {seen : List (BlockId × BlockId)}
    (h : Sound g ⟨p :: path, done, seen⟩) (hb : b ∈ p :: path) : ¬ Before (line ⟨p :: path, done, seen⟩) p b := by
  intro hbefore
  have hlt := hbefore.idxOf_lt h.nodup
  rcases List.mem_cons.1 hb with rfl | hb
  · exact Nat.lt_irrefl _ hlt
  · have hback : Before (line ⟨p :: path, done, seen⟩) b p := by
      rw [← line_pop]
      exact before_append (List.mem_reverse.2 hb) List.mem_cons_self
    have := hback.idxOf_lt h.nodup
    omega

theorem retreats_look {path done : List BlockId} {seen : List (BlockId × BlockId)} :
    retreats ⟨p :: path, done, (p, b) :: seen⟩ k =
      retreats ⟨p :: path, done, seen⟩ k +
        if b = k ∧ ¬ Before (line ⟨p :: path, done, seen⟩) p b then 1 else 0 := by
  unfold retreats
  rw [List.countP_cons]
  simp only [decide_eq_true_eq]
  rfl

theorem retreats_push {path done : List BlockId} {seen : List (BlockId × BlockId)}
    (h : Sound g ⟨p :: path, done, seen⟩) (hb : b ∈ g.succs p) (hnew : (p, b) ∉ seen)
    (hmem : b ∉ line ⟨p :: path, done, seen⟩) :
    retreats ⟨b :: p :: path, done, (p, b) :: seen⟩ k = retreats ⟨p :: path, done, seen⟩ k := by
  have hsub := (Step.push hb hnew hmem).line_sublist
  have hbefore : Before (line ⟨b :: p :: path, done, (p, b) :: seen⟩) p b := by
    rw [line_push]
    exact before_append (by simp) List.mem_cons_self
  unfold retreats
  rw [List.countP_cons_of_neg (by simp [hbefore])]
  refine List.countP_congr fun e he => ?_
  obtain ⟨-, hu, hv⟩ := h.seen_mem e he
  simp only [decide_eq_true_eq, before_congr hsub (h.push hb hnew hmem).nodup hu hv]

/-- What an edge that closes a loop does to the marks of a block. -/
def closedBlock (head tail : BlockId) (number : Nat) (b : BlockId) (block : Block) : Block :=
  { block with
    isTail := decide (b = tail) || block.isTail
    isHead := decide (b = head) || block.isHead
    loopIndex := if b = head then block.loopIndex.orElse fun _ => some number else block.loopIndex
    backEdges := block.backEdges + if b = head then 1 else 0 }

theorem block?_closeLoop (g : Graph) (head tail : BlockId) :
    (g.closeLoop head (some tail)).block? b = (g.block? b).map (closedBlock head tail g.loops b) := by
  have hsame : ∀ {k : BlockId}, (if ((g.block? head).map (·.loopIndex.isNone)).getD false
      then { g with loops := g.loops + 1 } else g).block? k = g.block? k := by
    intro k
    split <;> rfl
  simp only [closeLoop, block?_modifyBlock, hsame]
  unfold closedBlock
  by_cases htail : b = tail <;> by_cases hhead : b = head
  · subst htail
    simp [hhead, Option.map_map, Function.comp_def]
  · subst htail
    simp [hhead]
  · subst hhead
    simp [htail]
  · simp [htail, hhead]

/-- An edge to a block on the path closes a loop. -/
theorem Marks.close {path done : List BlockId} {seen : List (BlockId × BlockId)}
    (h : Marks ⟨p :: path, done, seen⟩ g) (hs : Sound g' ⟨p :: path, done, seen⟩) (hb : b ∈ p :: path) :
    Marks ⟨p :: path, done, (p, b) :: seen⟩ (g.closeLoop b (some p)) := by
  have hnot := not_before_of_mem_path hs hb
  constructor <;> intro k block' hk <;> rw [block?_closeLoop] at hk <;>
    obtain ⟨block, hblock, rfl⟩ := Option.map_eq_some_iff.1 hk
  · exact (h.visited hblock :)
  · exact (h.active hblock :)
  · simp only [closedBlock, h.backEdges hblock, retreats_look, hnot, not_false_eq_true, and_true, eq_comm (a := b)]
  · have hhead := h.isHead hblock
    by_cases hkb : k = b
    · simp [closedBlock, hkb]
    · simpa [closedBlock, hkb] using hhead

/-- An edge to a finished block changes no marks. -/
theorem Marks.skip {path done : List BlockId} {seen : List (BlockId × BlockId)}
    (h : Marks ⟨p :: path, done, seen⟩ g) (hb : b ∈ done) : Marks ⟨p :: path, done, (p, b) :: seen⟩ g := by
  have hbefore : Before (line ⟨p :: path, done, seen⟩) p b :=
    before_append (l := (p :: path).reverse) (by simp) hb
  refine ⟨h.visited, h.active, fun {k block} hk => ?_, h.isHead⟩
  rw [h.backEdges hk, retreats_look]
  simp [hbefore]

theorem Marks.push {path done : List BlockId} {seen : List (BlockId × BlockId)}
    (h : Marks ⟨p :: path, done, seen⟩ g) (hs : Sound g' ⟨p :: path, done, seen⟩) (hb : b ∈ g'.succs p)
    (hnew : (p, b) ∉ seen) (hmem : b ∉ line ⟨p :: path, done, seen⟩) :
    Marks ⟨b :: p :: path, done, (p, b) :: seen⟩ (mark g b) := by
  have hline : ∀ {k : BlockId}, k ∈ line ⟨b :: p :: path, done, (p, b) :: seen⟩ ↔
      k = b ∨ k ∈ line ⟨p :: path, done, seen⟩ := by
    intro k
    rw [line_push]
    simp only [line, List.mem_append, List.mem_cons]
    tauto
  constructor
  case visited =>
    intro k block' hk
    rw [hline]
    rw [mark, block?_modifyBlock] at hk
    split at hk
    · next hkb =>
      obtain ⟨block, -, rfl⟩ := Option.map_eq_some_iff.1 hk
      simp [hkb]
    · next hkb =>
      rw [h.visited hk]
      simp [hkb]
  case active =>
    intro k block' hk
    rw [mark, block?_modifyBlock] at hk
    split at hk
    · next hkb =>
      obtain ⟨block, -, rfl⟩ := Option.map_eq_some_iff.1 hk
      simp [hkb]
    · next hkb =>
      rw [h.active hk]
      simp [hkb]
  case backEdges =>
    intro k block' hk
    rw [retreats_push hs hb hnew hmem]
    rw [mark, block?_modifyBlock] at hk
    split at hk
    · next hkb =>
      obtain ⟨block, hblock, rfl⟩ := Option.map_eq_some_iff.1 hk
      exact hkb ▸ (h.backEdges hblock :)
    · exact h.backEdges hk
  case isHead =>
    intro k block' hk
    rw [mark, block?_modifyBlock] at hk
    split at hk
    · obtain ⟨block, hblock, rfl⟩ := Option.map_eq_some_iff.1 hk
      exact (h.isHead hblock :)
    · exact h.isHead hk

theorem Marks.pop {path done : List BlockId} {seen : List (BlockId × BlockId)}
    (h : Marks ⟨p :: path, done, seen⟩ g) (hs : Sound g' ⟨p :: path, done, seen⟩) :
    Marks ⟨path, p :: done, seen⟩ (g.modifyBlock p fun block => { block with active := false }) := by
  have hp : p ∉ path := by
    have := (List.nodup_append.1 hs.nodup).1
    exact (List.nodup_cons.1 (List.nodup_reverse.1 this)).1
  have hretreats : ∀ k, retreats ⟨path, p :: done, seen⟩ k = retreats ⟨p :: path, done, seen⟩ k := by
    intro k
    unfold retreats
    rw [line_pop]
  constructor
  case visited =>
    intro k block' hk
    rw [line_pop]
    rw [block?_modifyBlock] at hk
    split at hk
    · next hkp =>
      obtain ⟨block, hblock, rfl⟩ := Option.map_eq_some_iff.1 hk
      exact hkp ▸ h.visited hblock
    · exact h.visited hk
  case active =>
    intro k block' hk
    rw [block?_modifyBlock] at hk
    split at hk
    · next hkp =>
      obtain ⟨block, -, rfl⟩ := Option.map_eq_some_iff.1 hk
      simp [hkp, hp]
    · next hkp =>
      rw [h.active hk]
      simp [hkp]
  case backEdges =>
    intro k block' hk
    rw [hretreats]
    rw [block?_modifyBlock] at hk
    split at hk
    · next hkp =>
      subst hkp
      obtain ⟨block, hblock, rfl⟩ := Option.map_eq_some_iff.1 hk
      exact (h.backEdges hblock :)
    · exact h.backEdges hk
  case isHead =>
    intro k block' hk
    rw [block?_modifyBlock] at hk
    split at hk
    · obtain ⟨block, hblock, rfl⟩ := Option.map_eq_some_iff.1 hk
      exact (h.isHead hblock :)
    · exact h.isHead hk

/-! ## The run of the search -/

/-- What one step of the search does to its stage and to the marks. -/
inductive Moves (g₀ : Graph) : Search × Graph → Search × Graph → Prop where
  | close {path done : List BlockId} {seen : List (BlockId × BlockId)} {p b : BlockId} {g : Graph} :
    b ∈ g₀.succs p → (p, b) ∉ seen → b ∈ p :: path →
    Moves g₀ (⟨p :: path, done, seen⟩, g) (⟨p :: path, done, (p, b) :: seen⟩, g.closeLoop b (some p))
  | skip {path done : List BlockId} {seen : List (BlockId × BlockId)} {p b : BlockId} {g : Graph} :
    b ∈ g₀.succs p → (p, b) ∉ seen → b ∈ done →
    Moves g₀ (⟨p :: path, done, seen⟩, g) (⟨p :: path, done, (p, b) :: seen⟩, g)
  | push {path done : List BlockId} {seen : List (BlockId × BlockId)} {p b : BlockId} {g : Graph} :
    b ∈ g₀.succs p → (p, b) ∉ seen → b ∉ line ⟨p :: path, done, seen⟩ →
    Moves g₀ (⟨p :: path, done, seen⟩, g) (⟨b :: p :: path, done, (p, b) :: seen⟩, mark g b)
  | pop {path done : List BlockId} {seen : List (BlockId × BlockId)} {p : BlockId} {g : Graph} :
    (∀ b ∈ g₀.succs p, (p, b) ∈ seen) →
    Moves g₀ (⟨p :: path, done, seen⟩, g)
      (⟨path, p :: done, seen⟩, g.modifyBlock p fun block => { block with active := false })

theorem Moves.step {g₀ : Graph} {m m' : Search × Graph} (h : Moves g₀ m m') : Step g₀ m.1 m'.1 := by
  cases h with
  | close hb hnew hmem => exact .look hb hnew (mem_line.2 (Or.inl hmem))
  | skip hb hnew hmem => exact .look hb hnew (mem_line.2 (Or.inr hmem))
  | push hb hnew hmem => exact .push hb hnew hmem
  | pop hall => exact .pop hall

theorem Moves.sameText {g₀ : Graph} {m m' : Search × Graph} (h : Moves g₀ m m') : SameText m.2 m'.2 := by
  cases h with
  | @close _ _ _ p b g => exact closeLoop_sameText g b (some p)
  | skip => exact SameText.refl _
  | push => exact mark_sameText _ _
  | pop => exact SameText.modifyBlock _ _ fun _ => rfl

theorem Marks.moves {g₀ : Graph} {m m' : Search × Graph} (hm : m.1.Marks m.2) (hs : Sound g₀ m.1)
    (h : Moves g₀ m m') : m'.1.Marks m'.2 := by
  cases h with
  | close _ _ hmem => exact hm.close hs hmem
  | skip _ _ hmem => exact hm.skip hmem
  | push hb hnew hmem => exact hm.push hs hb hnew hmem
  | pop => exact hm.pop hs

theorem loops_arrive {block : Block} (hb : g.block? b = some block) (pred : Option BlockId) :
    Traversal.loops.arrive pred b g =
      if block.active then (false, g.closeLoop b pred)
      else if block.visited then (false, g)
      else (true, mark g b) := by
  simp only [Traversal.loops, hb]
  rfl

/-- A stage of the search as a traversal is one of a depth-first search with its marks. -/
structure Mirrors (g₀ : Graph) (s : Search) (st : Traversal.Stage) : Prop where
  framed : Traversal.Framed g₀ st
  sameText : SameText g₀ st.graph
  sound : Sound g₀ s
  marks : s.Marks st.graph
  path_eq : st.frames.map Prod.fst = s.path
  seen_eq : st.followed = s.seen
  mem_entered : ∀ {b : BlockId}, b ∈ st.entered ↔ b ∈ s.line

theorem Mirrors.of_moves {g₀ : Graph} {st st' : Traversal.Stage} (h : Mirrors g₀ s st)
    (hmoves : Moves g₀ (s, st.graph) (s', st'.graph)) (hframed : Traversal.Framed g₀ st')
    (hpath : st'.frames.map Prod.fst = s'.path) (hseen : st'.followed = s'.seen)
    (hentered : ∀ {b : BlockId}, b ∈ st'.entered ↔ b ∈ s'.line) : Mirrors g₀ s' st' :=
  ⟨hframed, h.sameText.trans hmoves.sameText, h.sound.step hmoves.step, h.marks.moves h.sound hmoves, hpath, hseen,
    hentered⟩

theorem Mirrors.step {g₀ : Graph} {st st' : Traversal.Stage} (hg₀ : Rooted g₀) (h : Mirrors g₀ s st)
    (hstep : Traversal.loops.Step st st') :
    ∃ s', Moves g₀ (s, st.graph) (s', st'.graph) ∧ Mirrors g₀ s' st' := by
  obtain ⟨path, done, seen⟩ := s
  have hnodup := hg₀.linked.succs_nodup
  cases hstep with
  | @enter p t todo rest g g' entered followed harrive =>
    obtain rfl : p :: rest.map Prod.fst = path := h.path_eq
    obtain rfl : followed = seen := h.seen_eq
    have hedge := h.framed.edge_mem
    obtain ⟨block, hblock⟩ := hasBlock_iff.1 ((h.sameText.keeps.hasBlock_eq t).trans (hg₀.linked.hasBlock_target hedge))
    rw [loops_arrive hblock] at harrive
    split at harrive
    · cases harrive
    · split at harrive
      · cases harrive
      · next hvisited =>
        obtain ⟨-, rfl⟩ := Prod.mk.inj harrive
        have hnew : t ∉ line ⟨p :: rest.map Prod.fst, done, followed⟩ := fun hmem =>
          hvisited ((h.marks.visited hblock).2 hmem)
        have hmoves : Moves g₀ (⟨p :: rest.map Prod.fst, done, followed⟩, g)
            (⟨t :: p :: rest.map Prod.fst, done, (p, t) :: followed⟩, mark g t) :=
          .push hedge (h.framed.edge_new (hnodup p)) hnew
        have hsuccs : (mark g t).succs t = g₀.succs t := (h.sameText.trans (mark_sameText g t)).succs_eq t
        refine ⟨_, hmoves, h.of_moves hmoves ?_ rfl rfl ?_⟩
        · rw [hsuccs]
          exact h.framed.enter (hnodup p) _ fun hmem => hnew (h.mem_entered.1 hmem)
        · intro k
          have hold : k ∈ entered ↔ k ∈ line ⟨p :: rest.map Prod.fst, done, followed⟩ := h.mem_entered
          rw [List.mem_cons, hold, line_push]
          simp only [line, List.mem_append, List.mem_cons]
          tauto
  | @pass p t todo rest g g' entered followed harrive =>
    obtain rfl : p :: rest.map Prod.fst = path := h.path_eq
    obtain rfl : followed = seen := h.seen_eq
    have hedge := h.framed.edge_mem
    have hnew := h.framed.edge_new (hnodup p)
    have hframed := h.framed.pass (hnodup p) g'
    obtain ⟨block, hblock⟩ := hasBlock_iff.1 ((h.sameText.keeps.hasBlock_eq t).trans (hg₀.linked.hasBlock_target hedge))
    rw [loops_arrive hblock] at harrive
    split at harrive
    · next hactive =>
      obtain ⟨-, rfl⟩ := Prod.mk.inj harrive
      have hmoves : Moves g₀ (⟨p :: rest.map Prod.fst, done, followed⟩, g)
          (⟨p :: rest.map Prod.fst, done, (p, t) :: followed⟩, g.closeLoop t (some p)) :=
        .close hedge hnew ((h.marks.active hblock).1 hactive)
      exact ⟨_, hmoves, h.of_moves hmoves hframed rfl rfl h.mem_entered⟩
    · next hactive =>
      split at harrive
      · next hvisited =>
        obtain ⟨-, rfl⟩ := Prod.mk.inj harrive
        have hdone : t ∈ done := (mem_line.1 ((h.marks.visited hblock).1 hvisited)).resolve_left fun hmem =>
          hactive ((h.marks.active hblock).2 hmem)
        have hmoves : Moves g₀ (⟨p :: rest.map Prod.fst, done, followed⟩, g)
            (⟨p :: rest.map Prod.fst, done, (p, t) :: followed⟩, g) := .skip hedge hnew hdone
        exact ⟨_, hmoves, h.of_moves hmoves hframed rfl rfl h.mem_entered⟩
      · cases harrive
  | @leave p rest g entered followed =>
    obtain rfl : p :: rest.map Prod.fst = path := h.path_eq
    obtain rfl : followed = seen := h.seen_eq
    have hmoves : Moves g₀ (⟨p :: rest.map Prod.fst, done, followed⟩, g)
        (⟨rest.map Prod.fst, p :: done, followed⟩, g.modifyBlock p fun block => { block with active := false }) :=
      .pop h.framed.all_followed
    refine ⟨_, hmoves, h.of_moves hmoves (h.framed.leave _) rfl rfl fun {k} => ?_⟩
    rw [line_pop]
    exact h.mem_entered

/-- The stack of the search is not higher than the number of blocks. -/
theorem Mirrors.length_frames_le {g₀ : Graph} {st : Traversal.Stage} (hg₀ : Rooted g₀) (h : Mirrors g₀ s st) :
    st.frames.length ≤ g₀.blockCount := by
  have hsub : st.entered ⊆ g₀.blockIds := by
    intro k hk
    rw [mem_blockIds]
    have hreach := Relation.ReflTransGen.mono (fun _ _ h => h.1) _ _ (h.sound.reach k (h.mem_entered.1 hk))
    rcases Relation.ReflTransGen.cases_tail hreach with rfl | ⟨u, -, hu⟩
    · exact hg₀.hasBlock_entry
    · exact hg₀.linked.hasBlock_target hu
  have hle := (List.subperm_of_subset h.framed.nodup_entered hsub).length_le
  rw [length_blockIds] at hle
  exact h.framed.length_frames_le.trans hle

/-- What the marks are when no search has been made. -/
theorem clearFlow_fresh {block : Block} (hb : g.clearFlow.block? b = some block) :
    block.visited = false ∧ block.active = false ∧ block.backEdges = 0 ∧ block.isHead = false := by
  rw [clearFlow, block?_mapBlocks] at hb
  obtain ⟨block, -, rfl⟩ := Option.map_eq_some_iff.1 hb
  exact ⟨rfl, rfl, rfl, rfl⟩

theorem marks_start (g : Graph) : Marks ⟨[entry], [], []⟩ (mark g.clearFlow entry) := by
  constructor <;> intro b block' hb <;> rw [mark, block?_modifyBlock] at hb <;> split at hb
  · next hbe =>
    obtain ⟨block, -, rfl⟩ := Option.map_eq_some_iff.1 hb
    simp [line, hbe]
  · next hbe => simp [line, hbe, (clearFlow_fresh hb).1]
  · next hbe =>
    obtain ⟨block, -, rfl⟩ := Option.map_eq_some_iff.1 hb
    simp [hbe]
  · next hbe => simp [hbe, (clearFlow_fresh hb).2.1]
  · obtain ⟨block, hblock, rfl⟩ := Option.map_eq_some_iff.1 hb
    exact ((clearFlow_fresh hblock).2.2.1 :)
  · exact (clearFlow_fresh hb).2.2.1
  · obtain ⟨block, hblock, rfl⟩ := Option.map_eq_some_iff.1 hb
    simp [(clearFlow_fresh hblock).2.2]
  · simp [(clearFlow_fresh hb).2.2]

/-- The search starts with the entry on the path. -/
theorem start_loops (hg : Rooted g) :
    Traversal.loops.start g.clearFlow = ⟨[(entry, g.succs entry)], mark g.clearFlow entry, [entry], []⟩ := by
  have hclear := clearFlow_sameText g
  obtain ⟨block, hblock⟩ := hasBlock_iff.1 (hclear.rooted hg).hasBlock_entry
  have harrive : Traversal.loops.arrive none entry g.clearFlow = (true, mark g.clearFlow entry) := by
    rw [loops_arrive hblock, (clearFlow_fresh hblock).1, (clearFlow_fresh hblock).2.1]
    rfl
  rw [Traversal.start, harrive, ← (hclear.trans (mark_sameText _ entry)).succs_eq]

theorem mirrors_start (hg : Rooted g) : Mirrors g ⟨[entry], [], []⟩ (Traversal.loops.start g.clearFlow) := by
  rw [start_loops hg]
  refine ⟨.start entry, (clearFlow_sameText g).trans (mark_sameText _ entry), sound_start g, marks_start g,
    rfl, rfl, ?_⟩
  simp [line]

/-- Every stage that the search comes to is one of a depth-first search from the entry. -/
theorem mirrors_of_steps {st : Traversal.Stage} (hg : Rooted g)
    (h : Traversal.loops.Steps (Traversal.loops.start g.clearFlow) st) :
    ∃ s, Relation.ReflTransGen (Moves g) (⟨[entry], [], []⟩, mark g.clearFlow entry) (s, st.graph) ∧
      Mirrors g s st := by
  induction h with
  | refl =>
    refine ⟨_, ?_, mirrors_start hg⟩
    rw [start_loops hg]
  | tail _ hstep ih =>
    obtain ⟨s, hmoves, hs⟩ := ih
    obtain ⟨s', hmove, hs'⟩ := hs.step hg hstep
    exact ⟨s', hmoves.tail hmove, hs'⟩

/-- The search comes to an end with the marks that the recursion makes, if that may get deep enough. -/
theorem steps_visit_loops (hg : Rooted g) {depth : Nat} (hdepth : g.blockCount ≤ depth) :
    ∃ st, Traversal.loops.Steps (Traversal.loops.start g.clearFlow) st ∧ st.frames = [] ∧
      st.graph = Traversal.loops.visit (depth + 1) entry none g.clearFlow := by
  rcases Traversal.loops.steps_start depth g.clearFlow with ⟨st, hsteps, hdeep⟩ | hend
  · obtain ⟨s, -, hs⟩ := mirrors_of_steps hg hsteps
    have hle := hs.length_frames_le hg
    omega
  · exact hend

theorem steps_findLoops (hg : Rooted g) : ∃ st, Traversal.loops.Steps (Traversal.loops.start g.clearFlow) st ∧
    st.frames = [] ∧ st.graph = g.clearFlow.findLoops := by
  obtain ⟨st, hsteps, hnil, hgraph⟩ := steps_visit_loops hg (clearFlow_sameText g).keeps.blockCount_eq.ge
  exact ⟨st, hsteps, hnil, hgraph⟩

/-- A greater bound on the depth makes no difference. -/
theorem visit_loops_eq (hg : Rooted g) {depth : Nat} (hdepth : g.blockCount ≤ depth) :
    Traversal.loops.visit (depth + 1) entry none g.clearFlow = g.clearFlow.findLoops := by
  obtain ⟨st, hsteps, hnil, hgraph⟩ := steps_visit_loops hg hdepth
  obtain ⟨st', hsteps', hnil', hgraph'⟩ := steps_findLoops hg
  rw [← hgraph, ← hgraph', (hsteps.to_end hsteps' hnil').eq_of_end hnil]

theorem findLoops_run (hg : Rooted g) :
    ∃ s, Relation.ReflTransGen (Moves g) (⟨[entry], [], []⟩, mark g.clearFlow entry) (s, g.clearFlow.findLoops) ∧
      s.path = [] := by
  obtain ⟨st, hsteps, hnil, hgraph⟩ := steps_findLoops hg
  obtain ⟨s, hmoves, hs⟩ := mirrors_of_steps hg hsteps
  exact ⟨s, hgraph ▸ hmoves, by rw [← hs.path_eq, hnil]; rfl⟩

theorem Moves.steps {g₀ : Graph} {m m' : Search × Graph} (h : Relation.ReflTransGen (Moves g₀) m m') :
    Steps g₀ m.1 m'.1 := by
  induction h with
  | refl => exact .refl
  | tail _ hmove ih => exact ih.tail hmove.step

theorem Marks.of_moves {g₀ : Graph} {m m' : Search × Graph} (hm : m.1.Marks m.2) (hs : Sound g₀ m.1)
    (h : Relation.ReflTransGen (Moves g₀) m m') : m'.1.Marks m'.2 := by
  induction h with
  | refl => exact hm
  | tail hmoves hmove ih => exact ih.moves (hs.steps (Moves.steps hmoves)) hmove

/-- The search for loops has come to an end, and the graph has the marks that it made. -/
structure Ended (g : Graph) (s : Search) : Prop where
  rooted : Rooted g
  path_eq : s.path = []
  sound : Sound g s
  entry_mem : entry ∈ s.line
  marks : s.Marks g.clearFlow.findLoops

theorem ended_of_moves (hg : Rooted g)
    (hmoves : Relation.ReflTransGen (Moves g) (⟨[entry], [], []⟩, mark g.clearFlow entry) (s, g.clearFlow.findLoops))
    (hpath : s.path = []) : Ended g s where
  rooted := hg
  path_eq := hpath
  sound := (sound_start g).steps (Moves.steps hmoves)
  entry_mem := (Moves.steps hmoves).line_sublist.subset (by simp [line])
  marks := (marks_start g).of_moves (sound_start g) hmoves

/-- The search for loops is a depth-first search from the entry. -/
theorem findLoops_spec (hg : Rooted g) : ∃ s, Ended g s := by
  obtain ⟨s, hmoves, hpath⟩ := findLoops_run hg
  exact ⟨s, ended_of_moves hg hmoves hpath⟩

end Search

/-! ## Ranks -/

/-- An edge that raises the rank. -/
def Raises (g : Graph) (rank : BlockId → Nat) (u v : BlockId) : Prop :=
  v ∈ g.succs u ∧ rank u < rank v

/-- The blocks have different ranks. Each is reached by edges that raise the rank, an edge that does not raise the
rank closes a cycle of edges that do, and the marks of loops count the edges that do not. -/
structure Ranked (g : Graph) (rank : BlockId → Nat) : Prop where
  rooted : Rooted g
  rank_lt : ∀ {b : BlockId}, g.hasBlock b = true → rank b < g.blockCount
  inj : ∀ {a b : BlockId}, g.hasBlock a = true → g.hasBlock b = true → rank a = rank b → a = b
  reach : ∀ {b : BlockId}, g.hasBlock b = true → Relation.ReflTransGen (g.Raises rank) entry b
  retreat : ∀ {u v : BlockId}, v ∈ g.succs u → rank v ≤ rank u → Relation.ReflTransGen (g.Raises rank) v u
  backEdges : ∀ {b : BlockId} {block : Block}, g.block? b = some block →
    block.backEdges = block.preds.countP fun p => rank b ≤ rank p
  isHead : ∀ {b : BlockId} {block : Block}, g.block? b = some block → (block.isHead = true ↔ 0 < block.backEdges)

namespace Search.Ended

variable (hs : Ended g s)
include hs

theorem mem_line_iff : b ∈ s.line ↔ g.Reaches b :=
  hs.sound.mem_line_iff_reaches hs.path_eq hs.entry_mem

theorem hasBlock_pruned_iff : g.clearFlow.findLoops.prune.2.hasBlock b = true ↔ b ∈ s.line := by
  rw [hasBlock_iff]
  constructor
  · rintro ⟨block', hb⟩
    obtain ⟨hdead, block, hb, -⟩ := block?_prune_eq_some hb
    refine (hs.marks.visited hb).1 ?_
    by_contra hv
    exact hdead (mem_dead.2 ⟨block, hb, by simpa using hv⟩)
  · intro hmem
    have hreach := hs.mem_line_iff.1 hmem
    have hhas : g.hasBlock b = true := by
      obtain ⟨bs, hbs⟩ := hreach
      cases hbs with
      | start => exact hs.rooted.hasBlock_entry
      | step _ hv => exact hs.rooted.linked.hasBlock_target hv
    obtain ⟨block, hb⟩ := hasBlock_iff.1 (((findLoops_sameText g).keeps.hasBlock_eq b).trans hhas)
    have hdead : b ∉ g.clearFlow.findLoops.dead := by
      rw [mem_dead]
      rintro ⟨block', hb', hv⟩
      obtain rfl := Option.some.inj (hb.symm.trans hb')
      simp [(hs.marks.visited hb).2 hmem] at hv
    rw [block?_prune, if_neg hdead, hb]
    exact ⟨_, rfl⟩

theorem succs_pruned (hb : b ∈ s.line) : g.clearFlow.findLoops.prune.2.succs b = g.succs b := by
  obtain ⟨block', hb'⟩ := hasBlock_iff.1 (hs.hasBlock_pruned_iff.2 hb)
  obtain ⟨-, block, hblock, rfl⟩ := block?_prune_eq_some hb'
  rw [succs_eq hb', ← (findLoops_sameText g).succs_eq, succs_eq hblock]

theorem rooted_pruned : Rooted g.clearFlow.findLoops.prune.2 := by
  have hrooted := (findLoops_sameText g).rooted hs.rooted
  refine ⟨hrooted.linked.prune ?_, ?_, ?_⟩
  · intro b block hb t ht
    have hmem := hs.hasBlock_pruned_iff.1 (hasBlock_iff.2 ⟨block, hb⟩)
    have ht' : t ∈ g.succs b := by
      rw [← hs.succs_pruned hmem, succs_eq hb]
      exact ht
    rw [hs.hasBlock_pruned_iff, hs.mem_line_iff]
    exact (hs.mem_line_iff.1 hmem).succ ht'
  · rw [hs.hasBlock_pruned_iff]
    exact hs.entry_mem
  · intro b block' hb
    obtain ⟨-, block, hblock, rfl⟩ := block?_prune_eq_some hb
    exact (hrooted.entry_not_mem hblock :)

/-- The search has followed the edges that are left. -/
theorem mem_seen_iff_pruned : (p, b) ∈ s.seen ↔ b ∈ g.clearFlow.findLoops.prune.2.succs p := by
  constructor
  · intro h
    obtain ⟨hsucc, hp, -⟩ := hs.sound.seen_mem _ h
    rw [hs.succs_pruned hp]
    exact hsucc
  · intro h
    have hrooted := hs.rooted_pruned
    have hp := hs.hasBlock_pruned_iff.1 (hrooted.linked.hasBlock_source h)
    rw [hs.succs_pruned hp] at h
    have hdone : p ∈ s.done := (Search.mem_line.1 hp).resolve_left (by simp [hs.path_eq])
    exact hs.sound.done_seen p hdone b h

/-- Edges that were followed and do not advance are predecessors of no lower rank. -/
theorem retreats_eq_countP {block : Block} (hb : g.clearFlow.findLoops.prune.2.block? b = some block) :
    s.retreats b = block.preds.countP fun p => s.line.idxOf b ≤ s.line.idxOf p := by
  have hrooted := hs.rooted_pruned
  have hmem := hs.hasBlock_pruned_iff.1 (hasBlock_iff.2 ⟨block, hb⟩)
  have hnodup : ((s.seen.filter fun e => e.2 = b ∧ ¬ Before s.line e.1 e.2).map Prod.fst).Nodup := by
    refine (hs.sound.nodup_seen.filter _).map_on fun e he e' he' heq => ?_
    simp only [List.mem_filter, decide_eq_true_eq] at he he'
    exact Prod.ext heq (he.2.1.trans he'.2.1.symm)
  have hperm : ((s.seen.filter fun e => e.2 = b ∧ ¬ Before s.line e.1 e.2).map Prod.fst).Perm
      (block.preds.filter fun p => s.line.idxOf b ≤ s.line.idxOf p) := by
    refine (List.perm_ext_iff_of_nodup hnodup ((hrooted.linked.nodup_preds hb).filter _)).2 fun p => ?_
    have hedge : p ∈ block.preds ↔ (p, b) ∈ s.seen := by
      rw [← preds_eq hb, ← hrooted.linked.mem_succs_iff, hs.mem_seen_iff_pruned]
    simp only [List.mem_map, List.mem_filter, decide_eq_true_eq, hedge, Prod.exists]
    constructor
    · rintro ⟨u, v, ⟨hseen, rfl, hnot⟩, rfl⟩
      rw [before_iff hs.sound.nodup hmem] at hnot
      exact ⟨hseen, by omega⟩
    · rintro ⟨hseen, hle⟩
      refine ⟨p, b, ⟨hseen, rfl, ?_⟩, rfl⟩
      rw [before_iff hs.sound.nodup hmem]
      omega
  unfold Search.retreats
  rw [List.countP_eq_length_filter, List.countP_eq_length_filter, ← hperm.length_eq, List.length_map]

theorem ranked_pruned : Ranked g.clearFlow.findLoops.prune.2 s.line.idxOf := by
  have hrooted := hs.rooted_pruned
  have hhas : ∀ {b : BlockId}, g.clearFlow.findLoops.prune.2.hasBlock b = true ↔ b ∈ s.line :=
    hs.hasBlock_pruned_iff
  have hadvance : ∀ {u v : BlockId}, Relation.ReflTransGen (g.Advances s.line) u v →
      Relation.ReflTransGen (g.clearFlow.findLoops.prune.2.Raises s.line.idxOf) u v := by
    intro u v h
    refine Relation.ReflTransGen.mono (fun x y hxy => ⟨?_, hxy.2.idxOf_lt hs.sound.nodup⟩) _ _ h
    rw [hs.succs_pruned (hxy.2.subset (by simp))]
    exact hxy.1
  have hcount : g.clearFlow.findLoops.prune.2.blockCount = s.line.length := by
    rw [← length_blockIds]
    refine List.Perm.length_eq ((List.perm_ext_iff_of_nodup (nodup_blockIds _) hs.sound.nodup).2 fun b => ?_)
    rw [mem_blockIds, hhas]
  constructor
  case rooted => exact hrooted
  case rank_lt =>
    intro b hb
    rw [hcount]
    exact List.idxOf_lt_length_iff.2 (hhas.1 hb)
  case inj =>
    intro a b ha hb heq
    exact (List.idxOf_inj (hhas.1 ha)).1 heq
  case reach =>
    intro b hb
    exact hadvance (hs.sound.reach b (hhas.1 hb))
  case retreat =>
    intro u v hv hle
    have hu := hhas.1 (hrooted.linked.hasBlock_source hv)
    rw [hs.succs_pruned hu] at hv
    have hdone : u ∈ s.done := (Search.mem_line.1 hu).resolve_left (by simp [hs.path_eq])
    refine hadvance (hs.sound.retreat _ (hs.sound.done_seen u hdone v hv) fun hbefore => ?_)
    have : s.line.idxOf u < s.line.idxOf v := hbefore.idxOf_lt hs.sound.nodup
    omega
  case backEdges =>
    intro b block hb
    obtain ⟨-, block₀, hb₀, heq⟩ := block?_prune_eq_some hb
    rw [← hs.retreats_eq_countP hb, ← hs.marks.backEdges hb₀, heq]
  case isHead =>
    intro b block hb
    obtain ⟨-, block₀, hb₀, rfl⟩ := block?_prune_eq_some hb
    exact (hs.marks.isHead hb₀ :)

end Search.Ended

/-- The blocks that the search for loops leaves are those that paths lead to, and they are ranked. -/
theorem exists_ranked (hg : Rooted g) :
    (∃ rank, Ranked g.clearFlow.findLoops.prune.2 rank) ∧
      (∀ b, g.clearFlow.findLoops.prune.2.hasBlock b = true ↔ g.Reaches b) ∧
      ∀ b, g.Reaches b → g.clearFlow.findLoops.prune.2.succs b = g.succs b := by
  obtain ⟨s, hs⟩ := Search.findLoops_spec hg
  refine ⟨⟨_, hs.ranked_pruned⟩, fun b => ?_, fun b hb => ?_⟩
  · rw [hs.hasBlock_pruned_iff, hs.mem_line_iff]
  · exact hs.succs_pruned (hs.mem_line_iff.2 hb)

end Destack.Graph
