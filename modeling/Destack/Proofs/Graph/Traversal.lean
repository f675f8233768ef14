import Mathlib.Logic.Relation
import Mathlib.Data.List.Nodup
import Destack.Graph.Flow
import Destack.Proofs.Graph.Chains

/-!
# Depth-first traversals

The search for loops and the dominator walk go through a graph in the same way: from a block that they go on from they
follow the edges one after the other, and what lies behind an edge comes before the next edge. They differ in what they
do when they arrive at a block and when they leave it (`Traversal`). Both are recursions with a bound on the depth
(`visit`), which stop where a block is not there (`searchLoopsFrom_eq_ok`, `walkDominatorsFrom_eq_ok`). The same
traversal without a bound takes step after step with a stack of blocks, each with the edges that it has left
(`Stage`, `Step`). It comes to what the recursion gives, unless its stack grows as high as the bound
(`steps_visit`). As long as no block is entered twice, every edge of a block that was entered is followed once,
and at the end all of them were (`Framed`).
-/

namespace Destack.Graph

/-- What a traversal does on its way. -/
structure Traversal where
  /-- An edge from a block leads to another one, or the traversal starts there. It may go on from that block or not. -/
  arrive : Option BlockId → BlockId → Graph → Bool × Graph
  leave : BlockId → Graph → Graph

namespace Traversal

/-- The traversal of what lies behind an edge to a block, down to a depth. -/
def visit (w : Traversal) : Nat → BlockId → Option BlockId → Graph → Graph
  | 0, _, _, g => g
  | depth + 1, b, pred, g =>
    match w.arrive pred b g with
    | (false, g) => g
    | (true, g) => w.leave b ((g.succs b).foldl (fun g t => visit w depth t (some b) g) g)

theorem visit_pass {w : Traversal} {pred : Option BlockId} {b : BlockId} {g g' : Graph} (depth : Nat)
    (h : w.arrive pred b g = (false, g')) : w.visit (depth + 1) b pred g = g' := by
  simp only [visit, h]

theorem visit_enter {w : Traversal} {pred : Option BlockId} {b : BlockId} {g g' : Graph} (depth : Nat)
    (h : w.arrive pred b g = (true, g')) :
    w.visit (depth + 1) b pred g = w.leave b ((g'.succs b).foldl (fun g t => w.visit depth t (some b) g) g') := by
  simp only [visit, h]

/-- A traversal cannot tell related graphs apart, as long as it stays among some blocks. -/
structure Respects (w : Traversal) (among : BlockId → Prop) (R : Graph → Graph → Prop) : Prop where
  go_eq : ∀ {g g' : Graph} {b : BlockId} (pred : Option BlockId), R g g' → among b →
    (w.arrive pred b g').1 = (w.arrive pred b g).1
  arrive : ∀ {g g' : Graph} {b : BlockId} (pred : Option BlockId), R g g' → among b →
    R (w.arrive pred b g).2 (w.arrive pred b g').2
  leave : ∀ {g g' : Graph} {b : BlockId}, R g g' → among b → R (w.leave b g) (w.leave b g')
  succs_eq : ∀ {g g' : Graph} {b : BlockId}, R g g' → among b → g'.succs b = g.succs b
  closed : ∀ {g g' : Graph} {b t : BlockId}, R g g' → among b → t ∈ g.succs b → among t

theorem Respects.visit {w : Traversal} {among : BlockId → Prop} {R : Graph → Graph → Prop} (h : w.Respects among R)
    (depth : Nat) {b : BlockId} (pred : Option BlockId) {g g' : Graph} (hg : R g g') (hb : among b) :
    R (w.visit depth b pred g) (w.visit depth b pred g') := by
  induction depth generalizing b pred g g' with
  | zero => exact hg
  | succ depth ih =>
    have hgo := h.go_eq pred hg hb
    have hnext := h.arrive pred hg hb
    cases harrive : w.arrive pred b g with
    | mk go g₁ =>
      cases harrive' : w.arrive pred b g' with
      | mk go' g₁' =>
        rw [harrive, harrive'] at hgo hnext
        obtain rfl : go' = go := hgo
        cases go' with
        | false =>
          rw [visit_pass depth harrive, visit_pass depth harrive']
          exact hnext
        | true =>
          rw [visit_enter depth harrive, visit_enter depth harrive', h.succs_eq hnext hb]
          refine h.leave ?_ hb
          have hfold : ∀ ts : List BlockId, (∀ t ∈ ts, among t) → ∀ {g₂ g₂' : Graph}, R g₂ g₂' →
              R (ts.foldl (fun g t => w.visit depth t (some b) g) g₂)
                (ts.foldl (fun g t => w.visit depth t (some b) g) g₂') := by
            intro ts
            induction ts with
            | nil => exact fun _ _ _ hg₂ => hg₂
            | cons t ts ihts =>
              intro hts g₂ g₂' hg₂
              exact ihts (fun t' ht' => hts t' (List.mem_cons_of_mem t ht'))
                (ih (some b) hg₂ (hts t List.mem_cons_self))
          exact hfold _ (fun t ht => h.closed hnext hb ht) hnext

/-! ## The two traversals -/

end Traversal

/-- The marks of a loop, where the blocks that they are put on are there. -/
def closeLoop (g : Graph) (head : BlockId) (tail : Option BlockId) : Graph :=
  let isNew := ((g.block? head).map (·.loopIndex.isNone)).getD false
  let number := g.loops
  let g := if isNew then { g with loops := number + 1 } else g
  let g := g.modifyBlock head fun b =>
    { b with loopIndex := b.loopIndex.orElse fun _ => some number, isHead := true, backEdges := b.backEdges + 1 }
  match tail with
  | some t => g.modifyBlock t fun b => { b with isTail := true }
  | none => g

theorem markLoop_eq_ok {g g' : Graph} {head : BlockId} {tail : Option BlockId} (h : g.markLoop head tail = .ok g') :
    g' = g.closeLoop head tail := by
  unfold markLoop at h
  obtain ⟨block, hb, h⟩ := except_bind_eq_ok.1 h
  obtain ⟨g₁, hg₁, h⟩ := except_bind_eq_ok.1 h
  obtain ⟨-, rfl⟩ := editBlock_eq_ok.1 hg₁
  unfold closeLoop
  rw [getBlock_eq_ok.1 hb, Option.map_some, Option.getD_some]
  cases tail with
  | none => exact (except_pure_eq_ok.1 h).symm
  | some t => exact (editBlock_eq_ok.1 h).2.symm

/-- The dominator that a block gets when an edge to it is seen. -/
def narrowed (g : Graph) (source target : BlockId) : BlockId :=
  match g.dominator? target with
  | some current => g.commonDominator current source
  | none => source

theorem getNarrowed_eq_ok {g : Graph} {source target d : BlockId} (h : g.getNarrowed source target = .ok d) :
    d = g.narrowed source target := by
  unfold getNarrowed at h
  obtain ⟨block, hb, h⟩ := except_bind_eq_ok.1 h
  unfold narrowed
  rw [dominator?, getBlock_eq_ok.1 hb, Option.bind_some]
  cases hdom : block.dominator with
  | none =>
    rw [hdom] at h
    exact (except_pure_eq_ok.1 h).symm
  | some current =>
    rw [hdom] at h
    exact getCommonDominator_eq_ok h

/-- What is noted about an edge, where the blocks that it is found out from are there. -/
def seeEdge (g : Graph) (source target : BlockId) : Graph :=
  g.modifyBlock target fun b => { b with awaited := b.awaited - 1, dominator := some (g.narrowed source target) }

theorem noteEdge_eq_ok {g g' : Graph} {source target : BlockId} (h : g.noteEdge source target = .ok g') :
    g' = g.seeEdge source target := by
  unfold noteEdge at h
  obtain ⟨d, hd, h⟩ := except_bind_eq_ok.1 h
  obtain ⟨-, rfl⟩ := editBlock_eq_ok.1 h
  rw [getNarrowed_eq_ok hd]
  rfl

namespace Traversal

/-- The search for loops as a traversal. -/
def loops : Traversal where
  arrive pred b g :=
    match g.block? b with
    | none => (false, g)
    | some block =>
      if block.active then (false, g.closeLoop b pred)
      else if block.visited then (false, g)
      else (true, g.modifyBlock b fun block => { block with visited := true, active := true })
  leave b g := g.modifyBlock b fun block => { block with active := false }

/-- Takes note of the edge that leads to a block, unless the walk starts there. -/
def seeFrom (g : Graph) : Option BlockId → BlockId → Graph
  | some p, b => g.seeEdge p b
  | none, _ => g

/-- The dominator walk as a traversal. -/
def dominators : Traversal where
  arrive pred b g :=
    (((seeFrom g pred b).block? b).any fun block => block.awaited = block.backEdges, seeFrom g pred b)
  leave _ g := g

/-- A search that ends well does what the traversal does. -/
theorem searchLoopsFrom_eq_ok {depth : Nat} {b : BlockId} {pred : Option BlockId} {g g' : Graph}
    (h : searchLoopsFrom depth b pred g = .ok g') : g' = loops.visit depth b pred g := by
  induction depth generalizing b pred g g' with
  | zero => exact (except_pure_eq_ok.1 h).symm
  | succ depth ih =>
    unfold searchLoopsFrom at h
    obtain ⟨block, hb, h⟩ := except_bind_eq_ok.1 h
    rw [getBlock_eq_ok] at hb
    split at h
    · next hactive =>
      rw [visit_pass depth (by simp only [loops, hb, hactive, if_true]; rfl)]
      exact markLoop_eq_ok h
    · next hactive =>
      split at h
      · next hvisited =>
        rw [visit_pass depth (by simp only [loops, hb, hactive, hvisited, if_true]; rfl)]
        exact (except_pure_eq_ok.1 h).symm
      · next hvisited =>
        obtain ⟨g₁, hg₁, h₁⟩ := except_bind_eq_ok.1 h
        obtain ⟨g₂, hg₂, h₂⟩ := except_bind_eq_ok.1 h₁
        obtain ⟨-, rfl⟩ := editBlock_eq_ok.1 hg₁
        obtain ⟨-, rfl⟩ := editBlock_eq_ok.1 h₂
        have hsuccs : (g.modifyBlock b fun block => { block with visited := true, active := true }).succs b =
            block.succs := by
          simp [succs, hb]
        rw [visit_enter depth (by simp only [loops, hb, hactive, hvisited]; rfl), hsuccs,
          eq_foldl_of_foldlM_eq_ok (fun _ _ _ => ih) hg₂]
        rfl

/-- A walk that ends well does what the traversal does. -/
theorem walkDominatorsFrom_eq_ok {depth : Nat} {b : BlockId} {pred : Option BlockId} {g g' : Graph}
    (h : walkDominatorsFrom depth b pred g = .ok g') : g' = dominators.visit depth b pred g := by
  induction depth generalizing b pred g g' with
  | zero => exact (except_pure_eq_ok.1 h).symm
  | succ depth ih =>
    unfold walkDominatorsFrom at h
    obtain ⟨g₁, hg₁, h⟩ := except_bind_eq_ok.1 h
    obtain rfl : g₁ = seeFrom g pred b := by
      cases pred with
      | none => exact (except_pure_eq_ok.1 hg₁).symm
      | some p => exact noteEdge_eq_ok hg₁
    obtain ⟨block, hb, h⟩ := except_bind_eq_ok.1 h
    rw [getBlock_eq_ok] at hb
    split at h
    · next hgo =>
      rw [visit_enter depth (by simp [dominators, hb, hgo] : dominators.arrive pred b g = (true, seeFrom g pred b)),
        succs_eq hb]
      exact eq_foldl_of_foldlM_eq_ok (fun _ _ _ => ih) h
    · next hgo =>
      rw [visit_pass depth (by simp [dominators, hb, hgo] : dominators.arrive pred b g = (false, seeFrom g pred b))]
      exact (except_pure_eq_ok.1 h).symm

end Traversal

/-- The marks of the search for loops, where everything that it looks up is there. -/
def findLoops (g : Graph) : Graph :=
  Traversal.loops.visit (g.blockCount + 1) entry none g

/-- The marks of the dominator walk, where everything that it looks up is there. -/
def findDominators (g : Graph) : Graph :=
  Traversal.dominators.visit ((g.blockCount + 1) * (g.blockCount + 1)) entry none g.clearDominators

namespace Traversal

/-! ## One step at a time -/

/-- A stage of a traversal. -/
structure Stage where
  /-- Blocks that the traversal has gone on from and not left, last one first, with the edges that they have left. -/
  frames : List (BlockId × List BlockId)
  graph : Graph
  /-- Blocks that the traversal has gone on from, last one first. -/
  entered : List BlockId
  /-- Edges that were followed, last one first. -/
  followed : List (BlockId × BlockId)

/-- The edge that is followed next. -/
def Stage.edge? (s : Stage) : Option (BlockId × BlockId) :=
  match s.frames with
  | (b, t :: _) :: _ => some (b, t)
  | _ => none

/-- Where a traversal starts. -/
def start (w : Traversal) (g : Graph) : Stage :=
  match w.arrive none entry g with
  | (true, g) => ⟨[(entry, g.succs entry)], g, [entry], []⟩
  | (false, g) => ⟨[], g, [], []⟩

/-- What a traversal does next. -/
inductive Step (w : Traversal) : Stage → Stage → Prop where
  /-- It follows an edge and goes on from the block at its end. -/
  | enter {b t : BlockId} {todo : List BlockId} {rest : List (BlockId × List BlockId)} {g g' : Graph}
      {entered : List BlockId} {followed : List (BlockId × BlockId)} : w.arrive (some b) t g = (true, g') →
    Step w ⟨(b, t :: todo) :: rest, g, entered, followed⟩
      ⟨(t, g'.succs t) :: (b, todo) :: rest, g', t :: entered, (b, t) :: followed⟩
  /-- It follows an edge and stays. -/
  | pass {b t : BlockId} {todo : List BlockId} {rest : List (BlockId × List BlockId)} {g g' : Graph}
      {entered : List BlockId} {followed : List (BlockId × BlockId)} : w.arrive (some b) t g = (false, g') →
    Step w ⟨(b, t :: todo) :: rest, g, entered, followed⟩ ⟨(b, todo) :: rest, g', entered, (b, t) :: followed⟩
  /-- It leaves a block that has no edge left. -/
  | leave {b : BlockId} {rest : List (BlockId × List BlockId)} {g : Graph} {entered : List BlockId}
      {followed : List (BlockId × BlockId)} :
    Step w ⟨(b, []) :: rest, g, entered, followed⟩ ⟨rest, w.leave b g, entered, followed⟩

abbrev Steps (w : Traversal) : Stage → Stage → Prop :=
  Relation.ReflTransGen w.Step

variable {w : Traversal} {g g₀ : Graph} {s s' s'' : Stage} {b t : BlockId} {todo : List BlockId}
  {rest : List (BlockId × List BlockId)}

/-- A stage has one next stage at most. -/
theorem step_unique (h : w.Step s s') (h' : w.Step s s'') : s' = s'' := by
  cases h with
  | enter harrive =>
    cases h' with
    | enter harrive' =>
      obtain ⟨-, rfl⟩ := Prod.mk.inj (harrive.symm.trans harrive')
      rfl
    | pass harrive' => cases harrive.symm.trans harrive'
  | pass harrive =>
    cases h' with
    | enter harrive' => cases harrive.symm.trans harrive'
    | pass harrive' =>
      obtain ⟨-, rfl⟩ := Prod.mk.inj (harrive.symm.trans harrive')
      rfl
  | leave =>
    cases h' with
    | leave => rfl

theorem Steps.eq_of_end (h : w.Steps s s') (hnil : s.frames = []) : s' = s := by
  rcases Relation.ReflTransGen.cases_head h with rfl | ⟨_, hstep, -⟩
  · rfl
  · cases hstep <;> cases hnil

/-- A traversal that comes to an end comes to it from each of its stages. -/
theorem Steps.to_end (h : w.Steps s s') (hend : w.Steps s s'') (hnil : s''.frames = []) : w.Steps s' s'' := by
  have hunique : Relator.RightUnique w.Step := fun _ _ _ h h' => step_unique h h'
  rcases Relation.ReflTransGen.total_of_right_unique hunique h hend with hto | hfrom
  · exact hto
  · rw [Steps.eq_of_end hfrom hnil]

/-! ## The recursion -/

/-- At some stage after another one the stack has a height. -/
def Deep (w : Traversal) (s : Stage) (height : Nat) : Prop :=
  ∃ s', w.Steps s s' ∧ height ≤ s'.frames.length

theorem Deep.head {height : Nat} (h : w.Steps s s') (hdeep : w.Deep s' height) : w.Deep s height := by
  obtain ⟨s'', hsteps, hheight⟩ := hdeep
  exact ⟨s'', h.trans hsteps, hheight⟩

/-- At a depth, the recursion is a run of the traversal along an edge, unless that gets too deep. -/
def Runs (w : Traversal) (depth : Nat) : Prop :=
  ∀ {b t : BlockId} {todo : List BlockId} {rest : List (BlockId × List BlockId)} {g : Graph} {entered : List BlockId}
    {followed : List (BlockId × BlockId)},
    w.Deep ⟨(b, t :: todo) :: rest, g, entered, followed⟩ (depth + rest.length + 1) ∨
      ∃ entered' followed', w.Steps ⟨(b, t :: todo) :: rest, g, entered, followed⟩
        ⟨(b, todo) :: rest, w.visit depth t (some b) g, entered', followed'⟩

theorem Runs.foldl {depth : Nat} (h : w.Runs depth) (b : BlockId) (todo : List BlockId)
    (rest : List (BlockId × List BlockId)) (g : Graph) (entered : List BlockId)
    (followed : List (BlockId × BlockId)) :
    w.Deep ⟨(b, todo) :: rest, g, entered, followed⟩ (depth + rest.length + 1) ∨
      ∃ entered' followed', w.Steps ⟨(b, todo) :: rest, g, entered, followed⟩
        ⟨(b, []) :: rest, todo.foldl (fun g t => w.visit depth t (some b) g) g, entered', followed'⟩ := by
  induction todo generalizing g entered followed with
  | nil => exact Or.inr ⟨entered, followed, .refl⟩
  | cons t todo ih =>
    rcases @h b t todo rest g entered followed with hdeep | ⟨e₁, f₁, h₁⟩
    · exact Or.inl hdeep
    · rcases ih (w.visit depth t (some b) g) e₁ f₁ with hdeep | ⟨e₂, f₂, h₂⟩
      · exact Or.inl (hdeep.head h₁)
      · exact Or.inr ⟨e₂, f₂, h₁.trans h₂⟩

theorem steps_visit (w : Traversal) (depth : Nat) : w.Runs depth := by
  induction depth with
  | zero =>
    intro b t todo rest g entered followed
    exact Or.inl ⟨_, .refl, by simp⟩
  | succ depth ih =>
    intro b t todo rest g entered followed
    unfold visit
    cases harrive : w.arrive (some b) t g with
    | mk go g' =>
      cases go with
      | false => exact Or.inr ⟨_, _, .single (.pass harrive)⟩
      | true =>
        have henter : w.Step ⟨(b, t :: todo) :: rest, g, entered, followed⟩
            ⟨(t, g'.succs t) :: (b, todo) :: rest, g', t :: entered, (b, t) :: followed⟩ := .enter harrive
        rcases ih.foldl t (g'.succs t) ((b, todo) :: rest) g' (t :: entered) ((b, t) :: followed) with
          hdeep | ⟨e', f', hsteps⟩
        · refine Or.inl (Deep.head (.single henter) ?_)
          rwa [List.length_cons, ← Nat.add_assoc, Nat.add_right_comm depth] at hdeep
        · exact Or.inr ⟨e', f', (Relation.ReflTransGen.head henter hsteps).tail .leave⟩

/-- A traversal from the entry comes to an end with what the recursion gives, unless it gets too deep. -/
theorem steps_start (w : Traversal) (depth : Nat) (g : Graph) :
    w.Deep (w.start g) (depth + 1) ∨
      ∃ s, w.Steps (w.start g) s ∧ s.frames = [] ∧ s.graph = w.visit (depth + 1) entry none g := by
  unfold start visit
  cases w.arrive none entry g with
  | mk go g' =>
    cases go with
    | false => exact Or.inr ⟨_, .refl, rfl, rfl⟩
    | true =>
      have hruns : w.Runs depth := steps_visit w depth
      rcases hruns.foldl entry (g'.succs entry) [] g' [entry] [] with hdeep | ⟨e', f', hsteps⟩
      · exact Or.inl hdeep
      · exact Or.inr ⟨_, hsteps.tail .leave, rfl, rfl⟩

/-! ## Edges on the stack -/

/-- Each block on the stack has its last edges left and followed the others, and a block that was left followed all. -/
structure Framed (g₀ : Graph) (s : Stage) : Prop where
  nodup_entered : s.entered.Nodup
  nodup_followed : s.followed.Nodup
  followed_mem : ∀ e ∈ s.followed, e.2 ∈ g₀.succs e.1 ∧ e.1 ∈ s.entered
  frames_mem : ∀ f ∈ s.frames, f.1 ∈ s.entered
  nodup_frames : (s.frames.map Prod.fst).Nodup
  todo : ∀ f ∈ s.frames, ∃ front, g₀.succs f.1 = front ++ f.2 ∧ ∀ t, (f.1, t) ∈ s.followed ↔ t ∈ front
  finished : ∀ b ∈ s.entered, b ∉ s.frames.map Prod.fst → ∀ t ∈ g₀.succs b, (b, t) ∈ s.followed

namespace Framed

variable {entered : List BlockId} {followed : List (BlockId × BlockId)}

theorem length_frames_le (h : Framed g₀ s) : s.frames.length ≤ s.entered.length := by
  have hsub : s.frames.map Prod.fst ⊆ s.entered := by
    intro b hb
    obtain ⟨f, hf, rfl⟩ := List.mem_map.1 hb
    exact h.frames_mem f hf
  have := (List.subperm_of_subset h.nodup_frames hsub).length_le
  rwa [List.length_map] at this

theorem start (b : BlockId) : Framed g₀ ⟨[(b, g₀.succs b)], g, [b], []⟩ where
  nodup_entered := List.nodup_singleton b
  nodup_followed := List.nodup_nil
  followed_mem := by simp
  frames_mem := by simp
  nodup_frames := List.nodup_singleton b
  todo := by
    intro f hf
    obtain rfl := List.mem_singleton.1 hf
    exact ⟨[], rfl, by simp⟩
  finished := by
    intro k hk hnot
    exact absurd (by simpa using hk) hnot

section Top

variable (h : Framed g₀ ⟨(b, t :: todo) :: rest, g, entered, followed⟩)
include h

theorem edge_mem : t ∈ g₀.succs b := by
  obtain ⟨front, hfront, -⟩ := h.todo (b, t :: todo) List.mem_cons_self
  rw [hfront]
  exact List.mem_append_right _ List.mem_cons_self

theorem entered_mem : b ∈ entered :=
  h.frames_mem (b, t :: todo) List.mem_cons_self

theorem ne_of_mem_rest {f : BlockId × List BlockId} (hf : f ∈ rest) : f.1 ≠ b := by
  intro heq
  have hnodup := h.nodup_frames
  rw [List.map_cons, List.nodup_cons] at hnodup
  exact hnodup.1 (List.mem_map.2 ⟨f, hf, heq⟩)

/-- The next edge is a new one. -/
theorem edge_new (hnodup : (g₀.succs b).Nodup) : (b, t) ∉ followed := by
  obtain ⟨front, hfront, hiff⟩ := h.todo (b, t :: todo) List.mem_cons_self
  dsimp only at hfront hiff
  rw [hfront, List.nodup_append] at hnodup
  intro hmem
  exact hnodup.2.2 t ((hiff t).1 hmem) t List.mem_cons_self rfl

theorem pass (hnodup : (g₀.succs b).Nodup) (g' : Graph) :
    Framed g₀ ⟨(b, todo) :: rest, g', entered, (b, t) :: followed⟩ where
  nodup_entered := h.nodup_entered
  nodup_followed := List.nodup_cons.2 ⟨h.edge_new hnodup, h.nodup_followed⟩
  followed_mem := by
    intro e he
    rcases List.mem_cons.1 he with rfl | he
    · exact ⟨h.edge_mem, h.entered_mem⟩
    · exact h.followed_mem e he
  frames_mem := by
    intro f hf
    rcases List.mem_cons.1 hf with rfl | hf
    · exact h.entered_mem
    · exact h.frames_mem f (List.mem_cons_of_mem _ hf)
  nodup_frames := h.nodup_frames
  todo := by
    intro f hf
    rcases List.mem_cons.1 hf with rfl | hf
    · obtain ⟨front, hfront, hiff⟩ := h.todo (b, t :: todo) List.mem_cons_self
      refine ⟨front ++ [t], by simpa using hfront, fun k => ?_⟩
      rw [List.mem_cons, Prod.mk.injEq, hiff k, List.mem_append, List.mem_singleton]
      simp [or_comm]
    · obtain ⟨front, hfront, hiff⟩ := h.todo f (List.mem_cons_of_mem _ hf)
      refine ⟨front, hfront, fun k => ?_⟩
      rw [List.mem_cons, Prod.mk.injEq, ← hiff k]
      simp [h.ne_of_mem_rest hf]
  finished := fun k hk hnot v hv => List.mem_cons_of_mem _ (h.finished k hk hnot v hv)

/-- Going on from a new block. -/
theorem enter (hnodup : (g₀.succs b).Nodup) (g' : Graph) (hnew : t ∉ entered) :
    Framed g₀ ⟨(t, g₀.succs t) :: (b, todo) :: rest, g', t :: entered, (b, t) :: followed⟩ := by
  have hpass := h.pass hnodup g'
  have hnone : ∀ k, (t, k) ∉ (b, t) :: followed := fun k hk => hnew (hpass.followed_mem _ hk).2
  constructor
  case nodup_entered => exact List.nodup_cons.2 ⟨hnew, h.nodup_entered⟩
  case nodup_followed => exact hpass.nodup_followed
  case followed_mem =>
    exact fun e he => ⟨(hpass.followed_mem e he).1, List.mem_cons_of_mem _ (hpass.followed_mem e he).2⟩
  case frames_mem =>
    intro f hf
    rcases List.mem_cons.1 hf with rfl | hf
    · exact List.mem_cons_self
    · exact List.mem_cons_of_mem _ (hpass.frames_mem f hf)
  case nodup_frames =>
    refine List.nodup_cons.2 ⟨fun hmem => hnew ?_, hpass.nodup_frames⟩
    obtain ⟨f, hf, heq⟩ := List.mem_map.1 hmem
    rw [← show f.1 = t from heq]
    exact hpass.frames_mem f hf
  case todo =>
    intro f hf
    rcases List.mem_cons.1 hf with rfl | hf
    · exact ⟨[], rfl, fun k => iff_of_false (hnone k) List.not_mem_nil⟩
    · exact hpass.todo f hf
  case finished =>
    intro k hk hnot v hv
    rw [List.map_cons, List.mem_cons, not_or] at hnot
    exact hpass.finished k ((List.mem_cons.1 hk).resolve_left hnot.1) hnot.2 v hv

end Top

section Bottom

variable (h : Framed g₀ ⟨(b, []) :: rest, g, entered, followed⟩)
include h

/-- A block without an edge left has followed all. -/
theorem all_followed : ∀ t ∈ g₀.succs b, (b, t) ∈ followed := by
  obtain ⟨front, hfront, hiff⟩ := h.todo (b, []) List.mem_cons_self
  intro t ht
  rw [hfront, List.append_nil] at ht
  exact (hiff t).2 ht

theorem leave (g' : Graph) : Framed g₀ ⟨rest, g', entered, followed⟩ where
  nodup_entered := h.nodup_entered
  nodup_followed := h.nodup_followed
  followed_mem := h.followed_mem
  frames_mem := fun f hf => h.frames_mem f (List.mem_cons_of_mem _ hf)
  nodup_frames := (List.nodup_cons.1 h.nodup_frames).2
  todo := fun f hf => h.todo f (List.mem_cons_of_mem _ hf)
  finished := by
    intro k hk hnot
    by_cases hkb : k = b
    · rw [hkb]
      exact h.all_followed
    · exact h.finished k hk (by simpa [hkb] using hnot)

end Bottom

end Framed

end Traversal

end Destack.Graph
