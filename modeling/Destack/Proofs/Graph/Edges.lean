import Destack.Graph.Layout
import Destack.Proofs.Graph.Blocks
import Destack.Proofs.Pass

/-!
# Edges

A graph is linked if its lists of successors and predecessors say the same, name no block twice, and name only blocks
that are there. Adding an edge keeps a graph linked (`Linked.addEdge`).
-/

namespace Destack.Graph

/-- Successors and predecessors of the blocks agree. -/
structure Linked (g : Graph) : Prop where
  mem_iff : ∀ {b t : BlockId} {block target : Block}, g.block? b = some block → g.block? t = some target →
    (t ∈ block.succs ↔ b ∈ target.preds)
  nodup_succs : ∀ {b : BlockId} {block : Block}, g.block? b = some block → block.succs.Nodup
  nodup_preds : ∀ {b : BlockId} {block : Block}, g.block? b = some block → block.preds.Nodup
  succ_mem : ∀ {b t : BlockId} {block : Block}, g.block? b = some block → t ∈ block.succs → g.hasBlock t = true
  pred_mem : ∀ {b t : BlockId} {block : Block}, g.block? b = some block → t ∈ block.preds → g.hasBlock t = true

namespace Linked

variable {g : Graph} {b t : BlockId}

/-- Successors and predecessors are the same edges. -/
theorem mem_succs_iff (h : Linked g) : t ∈ g.succs b ↔ b ∈ g.preds t := by
  constructor
  · intro ht
    unfold succs at ht
    cases hb : g.block? b with
    | none => simp [hb] at ht
    | some block =>
      have ht : t ∈ block.succs := by simpa [hb] using ht
      obtain ⟨target, htarget⟩ := hasBlock_iff.1 (h.succ_mem hb ht)
      rw [preds_eq htarget]
      exact (h.mem_iff hb htarget).1 ht
  · intro hb
    unfold preds at hb
    cases ht : g.block? t with
    | none => simp [ht] at hb
    | some target =>
      have hb : b ∈ target.preds := by simpa [ht] using hb
      obtain ⟨block, hblock⟩ := hasBlock_iff.1 (h.pred_mem ht hb)
      rw [succs_eq hblock]
      exact (h.mem_iff hblock ht).2 hb

theorem hasBlock_target (h : Linked g) (ht : t ∈ g.succs b) : g.hasBlock t = true := by
  unfold succs at ht
  cases hb : g.block? b with
  | none => simp [hb] at ht
  | some block => exact h.succ_mem hb (by simpa [hb] using ht)

theorem hasBlock_source (h : Linked g) (ht : t ∈ g.succs b) : g.hasBlock b = true := by
  rw [h.mem_succs_iff] at ht
  unfold preds at ht
  cases hb : g.block? t with
  | none => simp [hb] at ht
  | some target => exact h.pred_mem hb (by simpa [hb] using ht)

theorem succs_nodup (h : Linked g) (b : BlockId) : (g.succs b).Nodup := by
  unfold succs
  cases hb : g.block? b with
  | none => exact List.nodup_nil
  | some block => exact h.nodup_succs hb

theorem preds_nodup (h : Linked g) (t : BlockId) : (g.preds t).Nodup := by
  unfold preds
  cases ht : g.block? t with
  | none => simp
  | some target => simpa using h.nodup_preds ht

theorem idxOf?_preds (h : Linked g) {k : Nat} (hk : (g.preds t)[k]? = some b) : (g.preds t).idxOf? b = some k := by
  obtain ⟨hlt, rfl⟩ := List.getElem?_eq_some_iff.1 hk
  rw [List.idxOf?_eq_some_iff]
  exact ⟨hlt, rfl, fun j hj => ((h.preds_nodup t).getElem_inj_iff).not.2 (Nat.ne_of_lt hj)⟩

end Linked

theorem linked_of_no_edges {g : Graph}
    (h : ∀ {b : BlockId} {block : Block}, g.block? b = some block → block.succs = [] ∧ block.preds = []) :
    Linked g := by
  constructor
  case mem_iff =>
    intro b t block target hb ht
    simp [(h hb).1, (h ht).2]
  case nodup_succs =>
    intro b block hb
    simp [(h hb).1]
  case nodup_preds =>
    intro b block hb
    simp [(h hb).2]
  case succ_mem =>
    intro b t block hb ht
    simp [(h hb).1] at ht
  case pred_mem =>
    intro b t block hb ht
    simp [(h hb).2] at ht

/-- A linked graph with an entry that no edge leads to. -/
structure Rooted (g : Graph) : Prop where
  linked : Linked g
  hasBlock_entry : g.hasBlock entry = true
  entry_not_mem : ∀ {b : BlockId} {block : Block}, g.block? b = some block → entry ∉ block.succs

theorem Rooted.entry_not_mem_succs {g : Graph} (h : Rooted g) (b : BlockId) : entry ∉ g.succs b := by
  unfold succs
  cases hb : g.block? b with
  | none => simp
  | some block => simpa using h.entry_not_mem hb

/-- A list with an element added at its end, unless it is in there. -/
def appendNew (xs : List BlockId) (x : BlockId) : List BlockId :=
  if xs.contains x then xs else xs ++ [x]

theorem appendNew_of_mem {xs : List BlockId} {x : BlockId} (h : x ∈ xs) : appendNew xs x = xs :=
  if_pos (by simpa using h)

theorem appendNew_of_not_mem {xs : List BlockId} {x : BlockId} (h : x ∉ xs) : appendNew xs x = xs ++ [x] :=
  if_neg (by simpa using h)

theorem mem_appendNew {xs : List BlockId} {x y : BlockId} : y ∈ appendNew xs x ↔ y ∈ xs ∨ y = x := by
  by_cases hx : x ∈ xs
  · rw [appendNew_of_mem hx]
    refine ⟨Or.inl, ?_⟩
    rintro (hy | rfl)
    · exact hy
    · exact hx
  · rw [appendNew_of_not_mem hx, List.mem_append, List.mem_singleton]

theorem nodup_appendNew {xs : List BlockId} (x : BlockId) (h : xs.Nodup) : (appendNew xs x).Nodup := by
  by_cases hx : x ∈ xs
  · rwa [appendNew_of_mem hx]
  · rw [appendNew_of_not_mem hx, List.nodup_append]
    refine ⟨h, List.nodup_singleton x, ?_⟩
    rintro a ha b hb rfl
    rw [List.mem_singleton] at hb
    exact hx (hb ▸ ha)

/-- What adding an edge does to a block. -/
def withEdge (source target k : BlockId) (block : Block) : Block :=
  let block := if k = source then { block with succs := appendNew block.succs target } else block
  if k = target then { block with preds := appendNew block.preds source } else block

theorem succs_withEdge (source target k : BlockId) (block : Block) :
    (withEdge source target k block).succs = if k = source then appendNew block.succs target else block.succs := by
  unfold withEdge
  by_cases hkt : k = target
  · simp only [hkt, if_true]
    split <;> rfl
  · simp only [hkt, if_false]
    split <;> rfl

theorem preds_withEdge (source target k : BlockId) (block : Block) :
    (withEdge source target k block).preds = if k = target then appendNew block.preds source else block.preds := by
  unfold withEdge
  by_cases hkt : k = target
  · simp only [hkt, if_true]
    split <;> rfl
  · simp only [hkt, if_false]
    split <;> rfl

/-- A block that knows of the edge already stays as it is. -/
theorem withEdge_of_mem {source target k : BlockId} {block : Block} (hs : k = source → target ∈ block.succs)
    (hp : k = target → source ∈ block.preds) : withEdge source target k block = block := by
  unfold withEdge
  by_cases hks : k = source <;> by_cases hkt : k = target
  · rw [if_pos hks, if_pos hkt, appendNew_of_mem (hs hks), appendNew_of_mem (hp hkt)]
  · rw [if_pos hks, if_neg hkt, appendNew_of_mem (hs hks)]
  · rw [if_neg hks, if_pos hkt, appendNew_of_mem (hp hkt)]
  · rw [if_neg hks, if_neg hkt]

/-- The two changes that a new edge makes, written as one. Both blocks are there, so that neither change is refused, and
whatever is refused is refused before the first change. -/
theorem edge_eq (source target : BlockId) (g : Graph) :
    edge source target g =
      if !g.hasBlock target then .error (.unknownBlock target) g
      else
        match g.block? source with
        | none => .error (.unknownBlock source) g
        | some block =>
          if block.succs.contains target then .ok () g
          else
            .ok () ((g.modifyBlock source fun b => { b with succs := b.succs ++ [target] }).modifyBlock target
              fun b => { b with preds := appendNew b.preds source }) := by
  have hpreds : (fun b : Block => if b.preds.contains source then b else { b with preds := b.preds ++ [source] }) =
      fun b => { b with preds := appendNew b.preds source } := by
    funext b
    unfold appendNew
    split <;> rfl
  unfold edge edit
  rw [hpreds]
  cases ht : g.hasBlock target with
  | false => simp [Pass.run_bind, Pass.run_get, Pass.run_throw, ht]
  | true =>
    cases hs : g.block? source with
    | none => simp [Pass.run_bind, Pass.run_get, Pass.run_throw, ht, hs]
    | some block =>
      have hsource : g.hasBlock source = true := hasBlock_iff.2 ⟨block, hs⟩
      by_cases hc : target ∈ block.succs
      · simp [Pass.run_bind, Pass.run_get, Pass.run_pure, ht, hs, hc]
      · simp [Pass.run_bind, Pass.run_get, Pass.run_lift, Pass.run_set, ht, hs, hc, editBlock_of_hasBlock, hsource]

/-- A refused edge leaves the graph as it was, and one of its ends is not there. -/
theorem edge_eq_error {g g' : Graph} {source target : BlockId} {e : Error} (h : edge source target g = .error e g') :
    g' = g ∧ (g.hasBlock source = false ∨ g.hasBlock target = false) := by
  rw [edge_eq] at h
  cases ht : g.hasBlock target with
  | false =>
    rw [ht] at h
    cases h
    exact ⟨rfl, Or.inr rfl⟩
  | true =>
    cases hs : g.block? source with
    | none =>
      simp only [ht, hs, Bool.not_true, Bool.false_eq_true, if_false] at h
      cases h
      exact ⟨rfl, Or.inl (hasBlock_eq_false_iff.2 hs)⟩
    | some block =>
      simp only [ht, hs, Bool.not_true, Bool.false_eq_true, if_false] at h
      split at h <;> cases h

/-- The graph that adding an edge leads to. -/
def addEdge (g : Graph) (source target : BlockId) : Except Error Graph :=
  match edge source target g with
  | .ok _ g' => .ok g'
  | .error e _ => .error e

/-- What adding an edge does: an edge of the graph is not added again, and for a new one each end is
appended to the list of the other. -/
theorem addEdge_eq_ok {g g' : Graph} {source target : BlockId} (h : g.addEdge source target = .ok g') :
    g.hasBlock target = true ∧ ∃ block, g.block? source = some block ∧
      (target ∈ block.succs ∧ g' = g ∨
        target ∉ block.succs ∧
          g' = (g.modifyBlock source fun b => { b with succs := b.succs ++ [target] }).modifyBlock target
            fun b => { b with preds := appendNew b.preds source }) := by
  unfold addEdge at h
  rw [edge_eq] at h
  cases htarget : g.hasBlock target with
  | false => simp [htarget] at h
  | true =>
    refine ⟨rfl, ?_⟩
    cases hs : g.block? source with
    | none => simp [htarget, hs] at h
    | some block =>
      refine ⟨block, rfl, ?_⟩
      simp only [htarget, hs, Bool.not_true, Bool.false_eq_true, if_false] at h
      by_cases hc : block.succs.contains target
      · rw [if_pos hc] at h
        exact Or.inl ⟨by simpa using hc, (Except.ok.inj h).symm⟩
      · rw [if_neg hc] at h
        exact Or.inr ⟨by simpa using hc, (Except.ok.inj h).symm⟩

/-- Adding an edge to a linked graph appends each end to the list of the other. -/
theorem block?_addEdge {g g' : Graph} {source target : BlockId} (hg : Linked g)
    (h : g.addEdge source target = .ok g') (k : BlockId) :
    g'.block? k = (g.block? k).map (withEdge source target k) := by
  obtain ⟨-, block, hs, ⟨hmem, rfl⟩ | ⟨hnot, rfl⟩⟩ := addEdge_eq_ok h
  · cases hk : g'.block? k with
    | none => rfl
    | some kb =>
      -- Both lists have the other end already.
      rw [Option.map_some, withEdge_of_mem]
      · rintro rfl
        exact Option.some.inj (hs.symm.trans hk) ▸ hmem
      · rintro rfl
        exact (hg.mem_iff hs hk).1 hmem
  · have hnew := appendNew_of_not_mem hnot
    rw [block?_modifyBlock, block?_modifyBlock, block?_modifyBlock]
    by_cases hks : k = source <;> by_cases hkt : k = target
    · subst hks hkt
      simp [hs, withEdge, hnew]
    · subst hks
      simp [hs, hkt, withEdge, hnew]
    · subst hkt
      cases g.block? k with
      | none => simp [hks]
      | some kb => simp [hks, withEdge]
    · cases g.block? k with
      | none => simp [hks, hkt]
      | some kb => simp [hks, hkt, withEdge]

/-- Adding an edge changes nothing but blocks. -/
theorem addEdge_eq {g g' : Graph} {source target : BlockId} (h : g.addEdge source target = .ok g') :
    g' = { g with blocks := g'.blocks } := by
  obtain ⟨-, _, -, ⟨-, rfl⟩ | ⟨-, rfl⟩⟩ := addEdge_eq_ok h
  · rfl
  · rfl

theorem addEdge_starts {g g' : Graph} {source target : BlockId} (h : g.addEdge source target = .ok g') :
    g'.starts = g.starts :=
  (congrArg Graph.starts (addEdge_eq h)).trans rfl

theorem addEdge_hasBlock {g g' : Graph} {source target : BlockId} (h : g.addEdge source target = .ok g') :
    g.hasBlock source = true ∧ g.hasBlock target = true := by
  obtain ⟨ht, block, hs, -⟩ := addEdge_eq_ok h
  exact ⟨hasBlock_iff.2 ⟨block, hs⟩, ht⟩

theorem exists_addEdge {g : Graph} {source target : BlockId} (hs : g.hasBlock source = true)
    (ht : g.hasBlock target = true) : ∃ g', g.addEdge source target = .ok g' := by
  obtain ⟨block, hb⟩ := hasBlock_iff.1 hs
  unfold addEdge
  rw [edge_eq]
  simp only [ht, hb, Bool.not_true, Bool.false_eq_true, if_false]
  by_cases hc : block.succs.contains target
  · rw [if_pos hc]
    exact ⟨_, rfl⟩
  · rw [if_neg hc]
    exact ⟨_, rfl⟩

theorem Linked.addEdge {g g' : Graph} {source target : BlockId} (hg : Linked g)
    (h : g.addEdge source target = .ok g') : Linked g' := by
  obtain ⟨hsource, htarget⟩ := addEdge_hasBlock h
  have hview := block?_addEdge hg h
  have hhas : ∀ k, g.hasBlock k = true → g'.hasBlock k = true := by
    intro k hk
    obtain ⟨block, hb⟩ := hasBlock_iff.1 hk
    exact hasBlock_iff.2 ⟨_, (hview k).trans (by rw [hb]; rfl)⟩
  have hold : ∀ {k : BlockId} {block : Block}, g'.block? k = some block →
      ∃ old, g.block? k = some old ∧ block = withEdge source target k old := by
    intro k block hk
    rw [hview, Option.map_eq_some_iff] at hk
    obtain ⟨old, hold, rfl⟩ := hk
    exact ⟨old, hold, rfl⟩
  constructor
  case mem_iff =>
    intro b t block tblock hb ht
    obtain ⟨old, hob, rfl⟩ := hold hb
    obtain ⟨told, hot, rfl⟩ := hold ht
    rw [succs_withEdge, preds_withEdge]
    have hiff := hg.mem_iff hob hot
    by_cases hbs : b = source <;> by_cases htt : t = target
    · simp only [hbs, htt, if_true, mem_appendNew, or_true]
    · simp only [hbs, htt, if_true, if_false, mem_appendNew, or_false]
      rw [hiff, hbs]
    · simp only [hbs, htt, if_true, if_false, mem_appendNew, or_false]
      rw [← htt, hiff]
    · simp only [hbs, htt, if_false]
      exact hiff
  case nodup_succs =>
    intro b block hb
    obtain ⟨old, hob, rfl⟩ := hold hb
    rw [succs_withEdge]
    split
    · exact nodup_appendNew target (hg.nodup_succs hob)
    · exact hg.nodup_succs hob
  case nodup_preds =>
    intro b block hb
    obtain ⟨old, hob, rfl⟩ := hold hb
    rw [preds_withEdge]
    split
    · exact nodup_appendNew source (hg.nodup_preds hob)
    · exact hg.nodup_preds hob
  case succ_mem =>
    intro b t block hb ht
    obtain ⟨old, hob, rfl⟩ := hold hb
    rw [succs_withEdge] at ht
    split at ht
    · rcases mem_appendNew.1 ht with ht | rfl
      · exact hhas t (hg.succ_mem hob ht)
      · exact hhas t htarget
    · exact hhas t (hg.succ_mem hob ht)
  case pred_mem =>
    intro b t block hb ht
    obtain ⟨old, hob, rfl⟩ := hold hb
    rw [preds_withEdge] at ht
    split at ht
    · rcases mem_appendNew.1 ht with ht | rfl
      · exact hhas t (hg.pred_mem hob ht)
      · exact hhas t hsource
    · exact hhas t (hg.pred_mem hob ht)

/-! ## Edges that leave one block -/

/-- A block without its edges. -/
def bare (block : Block) : Block :=
  { block with preds := [], succs := [] }

theorem bare_withEdge (source target k : BlockId) (block : Block) :
    bare (withEdge source target k block) = bare block := by
  unfold withEdge
  by_cases hkt : k = target
  · simp only [hkt, if_true]
    split <;> rfl
  · simp only [hkt, if_false]
    split <;> rfl

/-- The second graph has edges from a block to some blocks, added in order. -/
inductive AddsEdges (b : BlockId) : List BlockId → Graph → Graph → Prop where
  | nil {g : Graph} : AddsEdges b [] g g
  | cons {t : BlockId} {ts : List BlockId} {g g' g'' : Graph} :
    g.addEdge b t = .ok g' → AddsEdges b ts g' g'' → AddsEdges b (t :: ts) g g''

namespace AddsEdges

variable {b : BlockId} {ts : List BlockId} {g g' : Graph}

theorem linked (h : AddsEdges b ts g g') (hg : Linked g) : Linked g' := by
  induction h with
  | nil => exact hg
  | cons hadd _ ih => exact ih (hg.addEdge hadd)

theorem eq_with_blocks (h : AddsEdges b ts g g') : g' = { g with blocks := g'.blocks } := by
  induction h with
  | nil => rfl
  | cons hadd _ ih =>
    rw [ih, addEdge_eq hadd]

theorem starts_eq (h : AddsEdges b ts g g') : g'.starts = g.starts :=
  (congrArg Graph.starts h.eq_with_blocks).trans rfl

theorem keeps_bare (h : AddsEdges b ts g g') (hg : Linked g) : Keeps bare g g' := by
  induction h with
  | nil => exact Keeps.refl bare _
  | cons hadd _ ih =>
    refine Keeps.trans (fun k => ?_) (ih (hg.addEdge hadd))
    rw [block?_addEdge hg hadd k, Option.map_map]
    exact congrArg (Option.map · _) (funext fun block => bare_withEdge _ _ k block)

theorem succs_of_ne (h : AddsEdges b ts g g') (hg : Linked g) {k : BlockId} (hk : k ≠ b) :
    g'.succs k = g.succs k := by
  induction h with
  | nil => rfl
  | cons hadd _ ih =>
    rw [ih (hg.addEdge hadd)]
    unfold succs
    rw [block?_addEdge hg hadd k, Option.map_map]
    refine congrArg (fun f => (Option.map f _).getD []) (funext fun block => ?_)
    simp [succs_withEdge, hk]

theorem succs_self (h : AddsEdges b ts g g') (hg : Linked g) : g'.succs b = ts.foldl appendNew (g.succs b) := by
  induction h with
  | nil => rfl
  | cons hadd _ ih =>
    rw [ih (hg.addEdge hadd), List.foldl_cons]
    congr 1
    obtain ⟨block, hb⟩ := hasBlock_iff.1 (addEdge_hasBlock hadd).1
    have hb' := block?_addEdge hg hadd b
    rw [hb, Option.map_some] at hb'
    rw [succs_eq hb, succs_eq hb', succs_withEdge, if_pos rfl]

end AddsEdges

theorem mem_foldl_appendNew {ts xs : List BlockId} {t : BlockId} :
    t ∈ ts.foldl appendNew xs ↔ t ∈ xs ∨ t ∈ ts := by
  induction ts generalizing xs with
  | nil => simp
  | cons u ts ih => rw [List.foldl_cons, ih, mem_appendNew, List.mem_cons, or_assoc]

theorem mem_foldl_appendNew_nil {ts : List BlockId} {t : BlockId} : t ∈ ts.foldl appendNew [] ↔ t ∈ ts := by
  rw [mem_foldl_appendNew]
  simp

end Destack.Graph
