import Destack.Proofs.Graph.Edges
import Destack.Proofs.Graph.Runs
import Destack.Proofs.Pass

/-!
# Blocks of a method

A graph is laid out over code (`Laid`) if each block holds a run of the instructions, control leaves a run only at its
end, blocks are found by the address they start at, and the block that an instruction leads to is a successor of its
own block. Nothing leads to the entry. The graph of any sequence of instructions is laid out over it
(`laid_ofInstructions`).
-/

namespace Destack

/-! ## Blocks for runs -/

namespace Layout

/-- Adds a block for a run of instructions under a number. -/
def placeAt (g : Graph) (run : List Instruction) (b : BlockId) : Graph :=
  { g with
    blocks := g.blocks.insert b { instructions := run }
    starts := (run.head?.map fun i => g.starts.insert i.address b).getD g.starts }

theorem place_eq (g : Graph) (run : List Instruction) : place g run = placeAt g run g.nextBlock := by
  unfold place placeAt Graph.addBlock
  cases run.head? <;> rfl

theorem blockAt?_placeAt (g : Graph) (run : List Instruction) (b : BlockId) (a : Nat) :
    (placeAt g run b).blockAt? a = if run.head?.map (·.address) = some a then some b else g.blockAt? a := by
  unfold placeAt Graph.blockAt?
  cases run.head? with
  | none => simp
  | some i => simp [Std.TreeMap.getElem?_insert]

theorem foldl_place_eq {rs : List (List Instruction)} {g : Graph} {n : Nat} (h : ∀ b, g.hasBlock b = true ↔ b < n) :
    rs.foldl place g = (rs.zipIdx n).foldl (fun g p => placeAt g p.1 p.2) g := by
  induction rs generalizing g n with
  | nil => rfl
  | cons run rs ih =>
    rw [List.foldl_cons, List.zipIdx_cons, List.foldl_cons, place_eq, Graph.nextBlock_eq h]
    refine ih fun b => ?_
    unfold Graph.hasBlock placeAt
    simp only [Std.TreeMap.contains_insert, Bool.or_eq_true, beq_iff_eq]
    rw [show g.blocks.contains b = g.hasBlock b from rfl, h b, Graph.compare_eq_iff]
    lia

/-- Blocks are numbered in the order of the code. In this form the layout of given code can be evaluated. -/
theorem partition_eq (entryIsTarget : Bool) (is : List Instruction) :
    partition entryIsTarget is = ((if entryIsTarget then [[]] else []) ++ cut [] is).zipIdx.foldl
      (fun g (p : List Instruction × BlockId) => placeAt g p.1 p.2) Graph.empty := by
  have hempty : ∀ b, Graph.empty.hasBlock b = true ↔ b < 0 := by
    intro b
    simp [Graph.empty, Graph.hasBlock]
  rw [← foldl_place_eq hempty, List.foldl_append]
  cases entryIsTarget <;> rfl

/-- A graph that has a block for each of some runs, and finds at an address only blocks that start there. -/
structure Spread (rs : List (List Instruction)) (g : Graph) : Prop where
  block?_eq : ∀ b, g.block? b = rs[b]?.map fun run => { instructions := run }
  head_of_blockAt? : ∀ {a : Nat} {t : BlockId}, g.blockAt? a = some t →
    ∃ run, rs[t]? = some run ∧ run.head?.map (·.address) = some a
  order_eq : g.order = []

theorem Spread.hasBlock_iff {rs : List (List Instruction)} {g : Graph} (h : Spread rs g) (b : BlockId) :
    g.hasBlock b = true ↔ b < rs.length := by
  rw [Graph.hasBlock_iff, h.block?_eq]
  simp [← Option.isSome_iff_exists]

theorem Spread.no_edges {rs : List (List Instruction)} {g : Graph} (h : Spread rs g) {b : BlockId} {block : Block}
    (hb : g.block? b = some block) : block.succs = [] ∧ block.preds = [] := by
  rw [h.block?_eq, Option.map_eq_some_iff] at hb
  obtain ⟨run, -, rfl⟩ := hb
  exact ⟨rfl, rfl⟩

theorem Spread.succs_eq_nil {rs : List (List Instruction)} {g : Graph} (h : Spread rs g) (b : BlockId) :
    g.succs b = [] := by
  cases hb : g.block? b with
  | none => simp [Graph.succs, hb]
  | some block => rw [Graph.succs_eq hb, (h.no_edges hb).1]

theorem Spread.place {rs : List (List Instruction)} {g : Graph} (h : Spread rs g) (run : List Instruction) :
    Spread (rs ++ [run]) (place g run) := by
  have hold : ∀ {t : BlockId} {run' : List Instruction}, rs[t]? = some run' → (rs ++ [run])[t]? = some run' := by
    intro t run' ht
    rw [List.getElem?_append_left (List.getElem?_eq_some_iff.1 ht).1, ht]
  rw [place_eq, Graph.nextBlock_eq h.hasBlock_iff]
  refine ⟨fun b => ?_, fun {a t} ht => ?_, h.order_eq⟩
  · have hb := h.block?_eq b
    unfold Graph.block? at hb
    simp only [placeAt, Graph.block?, Std.TreeMap.getElem?_insert, Graph.compare_eq_iff, hb]
    split
    · next heq => simp [← heq]
    · next hne =>
      rcases Nat.lt_or_ge b rs.length with hlt | hge
      · rw [List.getElem?_append_left hlt]
      · rw [List.getElem?_eq_none hge, List.getElem?_eq_none (by simp; omega)]
  · rw [blockAt?_placeAt] at ht
    split at ht
    · next ha =>
      obtain rfl := Option.some.inj ht
      exact ⟨run, by simp, ha⟩
    · obtain ⟨run', hrun', ha⟩ := h.head_of_blockAt? ht
      exact ⟨run', hold hrun', ha⟩

theorem spread_empty : Spread [] Graph.empty := by
  refine ⟨fun b => ?_, fun {a t} ht => ?_, rfl⟩
  · simp [Graph.empty, Graph.block?]
  · simp [Graph.empty, Graph.blockAt?] at ht

theorem Spread.foldl_place {rs rs' : List (List Instruction)} {g : Graph} (h : Spread rs g) :
    Spread (rs ++ rs') (rs'.foldl Layout.place g) := by
  induction rs' generalizing rs g with
  | nil => simpa using h
  | cons run rs' ih => simpa using ih (h.place run)

/-- A graph that has a block for each of some runs, in order, and nothing else. -/
structure Placed (rs : List (List Instruction)) (g : Graph) : Prop where
  block?_eq : ∀ b, g.block? b = rs[b]?.map fun run => { instructions := run }
  blockAt?_iff : ∀ {a : Nat} {t : BlockId},
    g.blockAt? a = some t ↔ ∃ run, rs[t]? = some run ∧ run.head?.map (·.address) = some a
  nodes_eq : g.nodes = #[]
  aliases_eq : g.aliases = ∅
  instrs_eq : g.instrs = #[]
  order_eq : g.order = []
  registers_eq : g.registers = 0
  loops_eq : g.loops = 0

theorem placed_empty : Placed [] Graph.empty := by
  refine ⟨fun b => ?_, ?_, rfl, rfl, rfl, rfl, rfl, rfl⟩
  · simp [Graph.empty, Graph.block?]
  · simp [Graph.empty, Graph.blockAt?]

theorem Placed.spread {rs : List (List Instruction)} {g : Graph} (h : Placed rs g) : Spread rs g :=
  ⟨h.block?_eq, h.blockAt?_iff.1, h.order_eq⟩

theorem Placed.hasBlock_iff {rs : List (List Instruction)} {g : Graph} (h : Placed rs g) (b : BlockId) :
    g.hasBlock b = true ↔ b < rs.length :=
  h.spread.hasBlock_iff b

theorem Placed.linked {rs : List (List Instruction)} {g : Graph} (h : Placed rs g) : Graph.Linked g :=
  Graph.linked_of_no_edges h.spread.no_edges

/-- A run is placed under the next number, if no block starts where it does. -/
theorem Placed.place {rs : List (List Instruction)} {g : Graph} {run : List Instruction} (h : Placed rs g)
    (hnew : ∀ i, run.head? = some i → ∀ run' ∈ rs, ∀ j, run'.head? = some j → i.address ≠ j.address) :
    Placed (rs ++ [run]) (place g run) := by
  have hspread := h.spread.place run
  rw [place_eq, Graph.nextBlock_eq h.hasBlock_iff] at hspread ⊢
  refine ⟨hspread.block?_eq, fun {a t} => ⟨hspread.head_of_blockAt?, ?_⟩, h.nodes_eq, h.aliases_eq, h.instrs_eq,
    h.order_eq, h.registers_eq, h.loops_eq⟩
  rintro ⟨run', hrun', ha⟩
  rw [blockAt?_placeAt]
  rw [List.getElem?_append] at hrun'
  split at hrun'
  · -- What was placed before starts somewhere else.
    rw [if_neg, h.blockAt?_iff]
    · exact ⟨run', hrun', ha⟩
    · intro hrun
      obtain ⟨i, hi, rfl⟩ := Option.map_eq_some_iff.1 hrun
      obtain ⟨j, hj, haddr⟩ := Option.map_eq_some_iff.1 ha
      exact hnew i hi run' (List.mem_of_getElem? hrun') j hj haddr.symm
  · next hge =>
    obtain ⟨hlt, rfl⟩ := List.getElem?_eq_some_iff.1 hrun'
    rw [List.getElem_singleton] at ha
    have ht : t ≤ rs.length := Nat.sub_eq_zero_iff_le.1 (Nat.lt_one_iff.1 hlt)
    rw [if_pos ha, Nat.le_antisymm ht (Nat.le_of_not_lt hge)]

/-- Runs of instructions at different addresses are placed one after the other. -/
theorem Placed.foldl_place {rs rs' : List (List Instruction)} {g : Graph} (h : Placed rs g)
    (hlt : (rs ++ rs').flatten.Pairwise fun i j => i.address < j.address) :
    Placed (rs ++ rs') (rs'.foldl Layout.place g) := by
  induction rs' generalizing rs g with
  | nil => simpa using h
  | cons run rs' ih =>
    have hnew : ∀ i, run.head? = some i → ∀ run' ∈ rs, ∀ j, run'.head? = some j → i.address ≠ j.address := by
      intro i hi run' hrun' j hj
      rw [List.flatten_append, List.pairwise_append] at hlt
      have hj' : j ∈ rs.flatten := List.mem_flatten.2 ⟨run', hrun', List.mem_of_head? hj⟩
      have hi' : i ∈ (run :: rs').flatten :=
        List.mem_flatten.2 ⟨run, List.mem_cons_self, List.mem_of_head? hi⟩
      exact Nat.ne_of_gt (hlt.2.2 j hj' i hi')
    have := ih (h.place hnew) (by simpa using hlt)
    simpa using this

/-- Blocks are made of the runs, one after the other. -/
theorem partition_eq_foldl_place (targets : List Nat) (is : List Instruction) :
    partition (targets.contains ((is.head?.map (·.address)).getD 0))
      (markLeaders (targets.foldl (·.insert ·) ∅) true is) = (runs targets is).foldl place Graph.empty := by
  unfold runs partition
  rw [List.foldl_append]
  split <;> rfl

/-- The blocks of a method's instructions are its runs. -/
theorem placed_partition (targets : List Nat) {is : List Instruction} (h : Contiguous 0 is) :
    Placed (runs targets is) (partition (targets.contains ((is.head?.map (·.address)).getD 0))
      (markLeaders (targets.foldl (·.insert ·) ∅) true is)) := by
  rw [partition_eq_foldl_place]
  exact placed_empty.foldl_place (pairwise_address_runs targets h)

end Layout

/-! ## Edges of a block -/

namespace Graph

theorem edge_eq_ok {b t : BlockId} {g g' : Graph} : edge b t g = .ok () g' ↔ g.addEdge b t = .ok g' := by
  unfold addEdge
  cases edge b t g <;> simp

theorem blockAtTarget?_congr {g g' : Graph} (h : g'.starts = g.starts) (target : Int) :
    g'.blockAtTarget? target = g.blockAtTarget? target := by
  cases target with
  | ofNat a => simp only [blockAtTarget?, blockAt?, h]
  | negSucc a => rfl

theorem targetBlock_eq_ok {g : Graph} {i : Instruction} {target : Int} {t : BlockId} :
    g.targetBlock i target = .ok t ↔ g.blockAtTarget? target = some t := by
  unfold targetBlock
  cases g.blockAtTarget? target <;> simp

/-- The blocks that the jump targets of an instruction start. -/
def JumpsTo (g : Graph) (i : Instruction) (ts : List BlockId) : Prop :=
  i.jumpTargets.map g.blockAtTarget? = ts.map some

theorem JumpsTo.congr {g g' : Graph} (h : g'.starts = g.starts) {i : Instruction} {ts : List BlockId}
    (hts : JumpsTo g' i ts) : JumpsTo g i ts := by
  unfold JumpsTo at hts ⊢
  rw [← hts, List.map_congr_left fun x _ => blockAtTarget?_congr h x]

theorem jumpEdges_ok {b : BlockId} {i : Instruction} {g g' : Graph} (h : jumpEdges b i g = .ok () g') :
    ∃ ts, JumpsTo g i ts ∧ AddsEdges b ts g g' := by
  unfold jumpEdges at h
  unfold JumpsTo
  generalize i.jumpTargets = targets at h ⊢
  induction targets generalizing g with
  | nil =>
    rw [← Pass.forM_nil_eq_ok.1 h]
    exact ⟨[], rfl, .nil⟩
  | cons target rest ih =>
    obtain ⟨g₁, hone, hrest⟩ := Pass.forM_cons_eq_ok.1 h
    simp only [Pass.bind_eq_ok, Pass.get_eq_ok, Pass.lift_eq_ok, targetBlock_eq_ok, edge_eq_ok] at hone
    obtain ⟨_, _, ⟨rfl, rfl⟩, t, _, ⟨ht, rfl⟩, hedge⟩ := hone
    obtain ⟨ts, hts, hadds⟩ := ih hrest
    have hstarts : g₁.starts = g.starts := addEdge_starts hedge
    refine ⟨t :: ts, ?_, .cons hedge hadds⟩
    rw [List.map_cons, ht, List.map_cons, ← hts, List.map_congr_left fun x _ => blockAtTarget?_congr hstarts x]

/-- The blocks that a block leads to, given the one that follows it and its last instruction. -/
inductive ExitsTo (g : Graph) (next : Option BlockId) : Option Instruction → List BlockId → Prop where
  | falls {last : Option Instruction} {n : BlockId} :
    (∀ i, last = some i → i.category = .other) → next = some n → ExitsTo g next last [n]
  | branches {i : Instruction} {n : BlockId} {us : List BlockId} :
    i.category = .conditionalBranch → next = some n → JumpsTo g i us → ExitsTo g next (some i) (n :: us)
  | jumps {i : Instruction} {us : List BlockId} :
    i.category = .goto ∨ i.category = .subroutine ∨ i.category = .switch → JumpsTo g i us →
    ExitsTo g next (some i) us
  | ends {i : Instruction} :
    i.category = .methodReturn ∨ i.category = .raise ∨ i.category = .subroutineReturn → ExitsTo g next (some i) []

theorem fallThrough_ok {b : BlockId} {next : Option BlockId} {e : Error} {g g' : Graph}
    (h : fallThrough b next e g = .ok () g') : ∃ n, next = some n ∧ AddsEdges b [n] g g' := by
  cases next with
  | none => exact (Pass.throw_eq_ok.1 h).elim
  | some n => exact ⟨n, rfl, .cons (edge_eq_ok.1 h) .nil⟩

theorem connectBlock_ok {b : BlockId} {next : Option BlockId} {g g' : Graph}
    (h : connectBlock b next g = .ok () g') :
    ∃ ts, ExitsTo g next ((g.block? b).bind (·.instructions.getLast?)) ts ∧ AddsEdges b ts g g' := by
  unfold connectBlock at h
  simp only [Pass.bind_eq_ok, Pass.get_eq_ok, Pass.lift_eq_ok, getBlock_eq_ok] at h
  obtain ⟨_, _, ⟨rfl, rfl⟩, block, _, ⟨hb, rfl⟩, h⟩ := h
  rw [hb, Option.bind_some]
  cases hlast : block.instructions.getLast? with
  | none =>
    simp only [hlast] at h
    obtain ⟨n, hn, hadds⟩ := fallThrough_ok h
    exact ⟨[n], .falls (by simp) hn, hadds⟩
  | some last =>
    simp only [hlast] at h
    cases hcat : last.category <;> simp only [hcat] at h
    case conditionalBranch =>
      obtain ⟨_, g₁, hfall, hjump⟩ := Pass.bind_eq_ok.1 h
      obtain ⟨n, hn, hadd⟩ := fallThrough_ok hfall
      obtain ⟨us, hus, hadds⟩ := jumpEdges_ok hjump
      refine ⟨n :: us, .branches hcat hn (hus.congr hadd.starts_eq), ?_⟩
      cases hadd with
      | cons hadd hnil =>
        cases hnil
        exact .cons hadd hadds
    case other =>
      obtain ⟨n, hn, hadds⟩ := fallThrough_ok h
      exact ⟨[n], .falls (by simpa using hcat) hn, hadds⟩
    case goto | subroutine | switch =>
      obtain ⟨us, hus, hadds⟩ := jumpEdges_ok h
      exact ⟨us, .jumps (by simp [hcat]) hus, hadds⟩
    case methodReturn | raise | subroutineReturn =>
      rw [← (Pass.pure_eq_ok.1 h).2]
      exact ⟨[], .ends (by simp [hcat]), .nil⟩

theorem ExitsTo.congr {g g' : Graph} (h : g'.starts = g.starts) {next : Option BlockId} {last : Option Instruction}
    {ts : List BlockId} (hts : ExitsTo g' next last ts) : ExitsTo g next last ts := by
  cases hts with
  | falls hcat hn => exact .falls hcat hn
  | branches hcat hn hus => exact .branches hcat hn (hus.congr h)
  | jumps hcat hus => exact .jumps hcat (hus.congr h)
  | ends hcat => exact .ends hcat

/-- What drawing all edges did: each block leads where its last instruction does. -/
structure Connected (bs : List BlockId) (g g' : Graph) : Prop where
  linked : Linked g'
  eq_with_blocks : g' = { g with blocks := g'.blocks }
  keeps_bare : Keeps bare g g'
  succs_of_not_mem : ∀ b, b ∉ bs → g'.succs b = g.succs b
  exits : ∀ front b rest, bs = front ++ b :: rest →
    ∃ ts, ExitsTo g rest.head? ((g.block? b).bind (·.instructions.getLast?)) ts ∧ g'.succs b = ts.foldl appendNew []

theorem Connected.starts_eq {bs : List BlockId} {g g' : Graph} (h : Connected bs g g') : g'.starts = g.starts :=
  (congrArg Graph.starts h.eq_with_blocks).trans rfl

theorem AddsEdges.getLast?_eq {b : BlockId} {ts : List BlockId} {g g' : Graph} (h : AddsEdges b ts g g')
    (hg : Linked g) (k : BlockId) :
    (g'.block? k).bind (·.instructions.getLast?) = (g.block? k).bind (·.instructions.getLast?) := by
  have hkeeps := congrArg (Option.bind · fun block => block.instructions.getLast?) (h.keeps_bare hg k)
  simpa only [Option.bind_map, Function.comp_def, bare] using hkeeps

theorem connectAll_ok {bs : List BlockId} {g g' : Graph} (hg : Linked g) (hbs : bs.Nodup)
    (hempty : ∀ b ∈ bs, g.succs b = []) (h : connectAll bs g = .ok () g') : Connected bs g g' := by
  induction bs generalizing g with
  | nil =>
    obtain ⟨-, rfl⟩ := Pass.pure_eq_ok.1 h
    exact ⟨hg, rfl, Keeps.refl bare g, fun _ _ => rfl, by simp⟩
  | cons b bs ih =>
    obtain ⟨_, g₁, hone, hrest⟩ := Pass.bind_eq_ok.1 h
    obtain ⟨ts, hts, hadds⟩ := connectBlock_ok hone
    obtain ⟨hb, hbs⟩ := List.nodup_cons.1 hbs
    have hempty₁ : ∀ k ∈ bs, g₁.succs k = [] := by
      intro k hk
      rw [hadds.succs_of_ne hg (fun e => hb (e ▸ hk))]
      exact hempty k (List.mem_cons_of_mem b hk)
    have hrec := ih (hadds.linked hg) hbs hempty₁ hrest
    have hself : g₁.succs b = ts.foldl appendNew [] := by
      rw [hadds.succs_self hg, hempty b List.mem_cons_self]
    refine ⟨hrec.linked, ?_, (hadds.keeps_bare hg).trans hrec.keeps_bare, ?_, ?_⟩
    · rw [hrec.eq_with_blocks, hadds.eq_with_blocks]
    · intro k hk
      rw [List.mem_cons, not_or] at hk
      rw [hrec.succs_of_not_mem k hk.2, hadds.succs_of_ne hg hk.1]
    · intro front k rest hsplit
      rcases List.cons_eq_append_iff.1 hsplit with ⟨rfl, heq⟩ | ⟨front', rfl, heq⟩
      · obtain ⟨rfl, rfl⟩ := List.cons.inj heq
        exact ⟨ts, hts, by rw [hrec.succs_of_not_mem k hb, hself]⟩
      · obtain ⟨us, hus, hsuccs⟩ := hrec.exits front' k rest heq
        rw [hadds.getLast?_eq hg] at hus
        exact ⟨us, hus.congr hadds.starts_eq, hsuccs⟩

/-! ## Graphs over code -/

/-- A graph whose blocks hold the runs of code, each from an address on. -/
structure Laid (code : List Instruction) (addr : BlockId → Nat) (g : Graph) : Prop where
  linked : Linked g
  addr_entry : addr entry = 0
  contiguous : ∀ {b : BlockId} {block : Block}, g.block? b = some block →
    Contiguous (addr b) (block.instructions.map Instruction.unmarked)
  mem_code : ∀ {b : BlockId} {block : Block}, g.block? b = some block → ∀ i ∈ block.instructions, i.unmarked ∈ code
  /-- Control leaves a block only at its end. -/
  category_inner : ∀ {b : BlockId} {block : Block}, g.block? b = some block →
    ∀ i ∈ block.instructions.dropLast, i.category = .other
  ne_nil : ∀ {b : BlockId} {block : Block}, g.block? b = some block → b ≠ entry → block.instructions ≠ []
  blockAt?_iff : ∀ {a : Nat} {t : BlockId},
    g.blockAt? a = some t ↔ ∃ block, g.block? t = some block ∧ block.start? = some a
  /-- No two blocks have an instruction in common. -/
  eq_of_address : ∀ {b b' : BlockId} {block block' : Block}, g.block? b = some block → g.block? b' = some block' →
    ∀ i ∈ block.instructions, ∀ j ∈ block'.instructions, i.address = j.address → b = b'
  entry_not_mem : ∀ {b : BlockId} {block : Block}, g.block? b = some block → entry ∉ block.succs
  /-- A block that ends without a transfer of control leads to the one that starts there. -/
  falls : ∀ {b : BlockId} {block : Block}, g.block? b = some block →
    (∀ last, block.instructions.getLast? = some last → last.category = .other) →
    ∃ t, block.succs = [t] ∧ g.blockAt? (endOf (addr b) block.instructions) = some t
  branch_next : ∀ {b t : BlockId} {block : Block} {last : Instruction}, g.block? b = some block →
    block.instructions.getLast? = some last → last.category = .conditionalBranch →
    g.blockAt? last.next = some t → t ∈ block.succs
  jump_target : ∀ {b t : BlockId} {block : Block} {last : Instruction}, g.block? b = some block →
    block.instructions.getLast? = some last → ∀ target ∈ last.jumpTargets,
    g.blockAtTarget? target = some t → t ∈ block.succs
  /-- A block that ends with a transfer of control leads to no other blocks than those. -/
  succ_source : ∀ {b t : BlockId} {block : Block} {last : Instruction}, g.block? b = some block →
    block.instructions.getLast? = some last → last.category ≠ .other → t ∈ block.succs →
    (∃ target ∈ last.jumpTargets, g.blockAtTarget? target = some t) ∨
      last.category = .conditionalBranch ∧ g.blockAt? last.next = some t

theorem Laid.start?_eq {code : List Instruction} {addr : BlockId → Nat} {g : Graph} (h : Laid code addr g)
    {b : BlockId} {block : Block} (hb : g.block? b = some block) (hne : block.instructions ≠ []) :
    block.start? = some (addr b) := by
  have hc := h.contiguous hb
  unfold Block.start?
  cases hi : block.instructions with
  | nil => exact absurd hi hne
  | cons i is =>
    rw [hi] at hc
    have : i.address = addr b := hc.1
    simp [this]

theorem Laid.addr_eq {code : List Instruction} {addr : BlockId → Nat} {g : Graph} (h : Laid code addr g)
    {a : Nat} {t : BlockId} (ht : g.blockAt? a = some t) : addr t = a := by
  obtain ⟨block, hb, ha⟩ := h.blockAt?_iff.1 ht
  have hne : block.instructions ≠ [] := by
    intro hnil
    simp [Block.start?, hnil] at ha
  exact Option.some.inj ((h.start?_eq hb hne).symm.trans ha)

/-! ## The graph of a sequence of instructions -/

theorem JumpsTo.exists_target {g : Graph} {i : Instruction} {ts : List BlockId} (h : JumpsTo g i ts) {t : BlockId}
    (ht : t ∈ ts) : ∃ target ∈ i.jumpTargets, g.blockAtTarget? target = some t := by
  unfold JumpsTo at h
  rw [← List.mem_map, h]
  exact List.mem_map_of_mem ht

theorem JumpsTo.mem {g : Graph} {i : Instruction} {ts : List BlockId} (h : JumpsTo g i ts) {target : Int} {t : BlockId}
    (htarget : target ∈ i.jumpTargets) (ht : g.blockAtTarget? target = some t) : t ∈ ts := by
  unfold JumpsTo at h
  have : some t ∈ i.jumpTargets.map g.blockAtTarget? := List.mem_map.2 ⟨target, htarget, ht⟩
  rw [h] at this
  simpa using this

/-- A block leads to the one that follows it, if its last instruction lets control pass there, or to a jump target of
that instruction. -/
theorem ExitsTo.next_or_target {g : Graph} {next : Option BlockId} {last : Option Instruction} {ts : List BlockId}
    (h : ExitsTo g next last ts) {t : BlockId} (ht : t ∈ ts) :
    next = some t ∧ (∀ i, last = some i → i.category = .other ∨ i.category = .conditionalBranch) ∨
      ∃ i, last = some i ∧ ∃ target ∈ i.jumpTargets, g.blockAtTarget? target = some t := by
  cases h with
  | falls hcat hn =>
    obtain rfl := List.mem_singleton.1 ht
    exact Or.inl ⟨hn, fun i hi => Or.inl (hcat i hi)⟩
  | branches hcat hn hus =>
    rcases List.mem_cons.1 ht with rfl | ht
    · exact Or.inl ⟨hn, fun i hi => Or.inr (Option.some.inj hi ▸ hcat)⟩
    · exact Or.inr ⟨_, rfl, hus.exists_target ht⟩
  | jumps hcat hus => exact Or.inr ⟨_, rfl, hus.exists_target ht⟩
  | ends hcat => cases ht

/-- A block from whose end control can pass on leads to the one that follows it first. -/
theorem ExitsTo.next_first {g : Graph} {next : Option BlockId} {last : Instruction} {ts : List BlockId}
    (h : ExitsTo g next (some last) ts) (hcat : last.category = .other ∨ last.category = .conditionalBranch) :
    ∃ n us, next = some n ∧ ts = n :: us := by
  cases h with
  | falls _ hn => exact ⟨_, [], hn, rfl⟩
  | branches _ hn _ => exact ⟨_, _, hn, rfl⟩
  | jumps hjump _ => rcases hjump with hjump | hjump | hjump <;> simp [hjump] at hcat
  | ends hends => rcases hends with hends | hends | hends <;> simp [hends] at hcat

/-- A block that ends without a transfer of control leads only to the one that follows it. -/
theorem ExitsTo.eq_singleton {g : Graph} {next : Option BlockId} {last : Option Instruction} {ts : List BlockId}
    (h : ExitsTo g next last ts) (hcat : ∀ i, last = some i → i.category = .other) :
    ∃ n, next = some n ∧ ts = [n] := by
  cases h with
  | falls _ hn => exact ⟨_, hn, rfl⟩
  | branches hc => simp [hcat _ rfl] at hc
  | jumps hc => simp [hcat _ rfl] at hc
  | ends hc => simp [hcat _ rfl] at hc

theorem ExitsTo.mem_of_target {g : Graph} {next : Option BlockId} {last : Instruction} {ts : List BlockId}
    (h : ExitsTo g next (some last) ts) {target : Int} (htarget : target ∈ last.jumpTargets) {t : BlockId}
    (ht : g.blockAtTarget? target = some t) : t ∈ ts := by
  have hne : last.jumpTargets ≠ [] := List.ne_nil_of_mem htarget
  have hcat := Instruction.category_of_jumpTargets_ne_nil hne
  cases h with
  | falls hother hn => simp [hother last rfl] at hcat
  | branches _ hn hus => exact List.mem_cons_of_mem _ (hus.mem htarget ht)
  | jumps _ hus => exact hus.mem htarget ht
  | ends hends => rcases hends with h | h | h <;> simp [h] at hcat

/-- Nothing has been built for any block. -/
structure Fresh (g : Graph) : Prop where
  nodes_eq : g.nodes = #[]
  aliases_eq : g.aliases = ∅
  instrs_eq : g.instrs = #[]
  order_eq : g.order = []
  registers_eq : g.registers = 0
  block_nodes : ∀ {b : BlockId} {block : Block}, g.block? b = some block → block.nodes = #[]
  block_code : ∀ {b : BlockId} {block : Block}, g.block? b = some block → block.code = #[]

end Graph

namespace Layout

theorem mem_targets {is : List Instruction} {ts : List Nat} (h : targets is = .ok ts) {i : Instruction} (hi : i ∈ is)
    {target : Int} (htarget : target ∈ i.jumpTargets) : 0 ≤ target ∧ target.toNat ∈ ts := by
  unfold targets at h
  obtain ⟨tss, htss, h⟩ := except_bind_eq_ok.1 h
  obtain rfl := except_pure_eq_ok.1 h
  obtain ⟨us, hus, hi⟩ := exists_mem_of_mapM_eq_ok htss hi
  obtain ⟨u, hu, ht⟩ := exists_mem_of_mapM_eq_ok hi htarget
  split at ht
  · next hc =>
    obtain rfl := Except.ok.inj ht
    exact ⟨hc.1, List.mem_flatten.2 ⟨us, hus, hu⟩⟩
  · cases ht

section Connected

variable {is : List Instruction} {ts : List Nat} {g₀ g : Graph}

/-- Connecting the blocks leaves the runs that they hold. -/
theorem instructions_eq (hp : Placed (runs ts is) g₀) {bs : List BlockId} (hconn : Graph.Connected bs g₀ g)
    (b : BlockId) : (g.block? b).map (·.instructions) = (runs ts is)[b]? := by
  have hkeeps := congrArg (Option.map Block.instructions) (hconn.keeps_bare b)
  simp only [Option.map_map, Function.comp_def, Graph.bare, hp.block?_eq] at hkeeps
  rw [hkeeps]
  exact Option.map_id'

theorem run_of_block (hp : Placed (runs ts is) g₀) {bs : List BlockId} (hconn : Graph.Connected bs g₀ g) {b : BlockId}
    {block : Block} (hb : g.block? b = some block) : (runs ts is)[b]? = some block.instructions := by
  rw [← instructions_eq hp hconn, hb, Option.map_some]

/-- A run but the first is found by the address where it starts. -/
theorem blockAt?_startAt (his : Contiguous 0 is) (hp : Placed (runs ts is) g₀) {k : BlockId} {run : List Instruction}
    (hrun : (runs ts is)[k]? = some run) (hk : k ≠ 0) : g₀.blockAt? (startAt (runs ts is) k) = some k := by
  refine hp.blockAt?_iff.2 ⟨run, hrun, ?_⟩
  have hc := contiguous_run his hrun
  cases hcons : run with
  | nil => exact absurd hcons (run_ne_nil hrun hk)
  | cons i rest =>
    rw [hcons] at hc
    have : i.address = startAt (runs ts is) k := hc.1
    simp [this]

/-- Where a run leads after all edges have been drawn. -/
theorem exits_of_run (hconn : Graph.Connected (List.range (runs ts is).length) g₀ g) (hp : Placed (runs ts is) g₀)
    {b : BlockId} {run : List Instruction} (hrun : (runs ts is)[b]? = some run) :
    ∃ next us, Graph.ExitsTo g₀ next run.getLast? us ∧ g.succs b = us.foldl Graph.appendNew [] ∧
      ∀ n, next = some n → n = b + 1 ∧ ∃ run', (runs ts is)[n]? = some run' := by
  obtain ⟨hlt, -⟩ := List.getElem?_eq_some_iff.1 hrun
  have hsplit : List.range (runs ts is).length =
      List.range b ++ b :: List.range' (b + 1) ((runs ts is).length - b - 1) := by
    have hlen : (runs ts is).length = b + ((runs ts is).length - b - 1 + 1) := by omega
    rw [List.range_eq_range', List.range_eq_range', ← List.range'_succ, hlen, ← List.range'_append_1]
    simp
  obtain ⟨us, hus, hsuccs⟩ := hconn.exits _ b _ hsplit
  rw [hp.block?_eq, hrun] at hus
  refine ⟨_, us, hus, hsuccs, fun n hn => ?_⟩
  rw [List.head?_range'] at hn
  split at hn
  · cases hn
  · next hne =>
    obtain rfl := Option.some.inj hn
    exact ⟨rfl, _, List.getElem?_eq_getElem (by omega)⟩

/-- Where a block leads after all edges have been drawn. The block behind it is found where its instructions end. -/
theorem exits_of_block (his : Contiguous 0 is) (hp : Placed (runs ts is) g₀)
    (hconn : Graph.Connected (List.range (runs ts is).length) g₀ g) {b : BlockId} {block : Block}
    (hb : g.block? b = some block) :
    ∃ next us, Graph.ExitsTo g next block.instructions.getLast? us ∧ block.succs = us.foldl Graph.appendNew [] ∧
      ∀ n, next = some n → g.blockAt? (endOf (startAt (runs ts is) b) block.instructions) = some n := by
  have hrun := run_of_block hp hconn hb
  obtain ⟨next, us, hus, hsuccs, hnext⟩ := exits_of_run hconn hp hrun
  refine ⟨next, us, hus.congr hconn.starts_eq.symm, (Graph.succs_eq hb).symm.trans hsuccs, fun n hn => ?_⟩
  obtain ⟨rfl, run', hrun'⟩ := hnext n hn
  rw [← startAt_succ hrun, Graph.blockAt?, hconn.starts_eq]
  exact blockAt?_startAt his hp hrun' (Nat.succ_ne_zero b)

theorem eq_of_address_runs (his : Contiguous 0 is) {b b' : BlockId} {run run' : List Instruction}
    (hrun : (runs ts is)[b]? = some run) (hrun' : (runs ts is)[b']? = some run') {i j : Instruction} (hi : i ∈ run)
    (hj : j ∈ run') (haddr : i.address = j.address) : b = b' := by
  -- The runs before a run hold smaller addresses.
  have hpair := (List.pairwise_flatten.1 (pairwise_address_runs ts his)).2
  rw [List.pairwise_iff_getElem] at hpair
  obtain ⟨hl, rfl⟩ := List.getElem?_eq_some_iff.1 hrun
  obtain ⟨hl', rfl⟩ := List.getElem?_eq_some_iff.1 hrun'
  rcases Nat.lt_trichotomy b b' with h | h | h
  · have := hpair b b' hl hl' h i hi j hj
    omega
  · exact h
  · have := hpair b' b hl' hl h j hj i hi
    omega

/-- The graph with all edges drawn is laid out over the instructions. -/
theorem laid_of_connected (his : Contiguous 0 is) (hp : Placed (runs ts is) g₀)
    (hconn : Graph.Connected (List.range (runs ts is).length) g₀ g) (hroot : Graph.Rooted g) :
    Graph.Laid is (startAt (runs ts is)) g where
  linked := hconn.linked
  addr_entry := startAt_zero _
  contiguous hb := contiguous_run his (run_of_block hp hconn hb)
  mem_code hb _ := unmarked_mem his (run_of_block hp hconn hb)
  category_inner hb := category_of_mem_dropLast (List.mem_of_getElem? (run_of_block hp hconn hb))
  ne_nil hb := run_ne_nil (run_of_block hp hconn hb)
  blockAt?_iff {a t} := by
    rw [Graph.blockAt?, hconn.starts_eq, ← Graph.blockAt?, hp.blockAt?_iff]
    constructor
    · rintro ⟨run, hrun, ha⟩
      rw [← instructions_eq hp hconn] at hrun
      obtain ⟨block, hb, rfl⟩ := Option.map_eq_some_iff.1 hrun
      exact ⟨block, hb, ha⟩
    · rintro ⟨block, hb, ha⟩
      exact ⟨_, run_of_block hp hconn hb, ha⟩
  eq_of_address hb hb' _ hi _ hj :=
    eq_of_address_runs his (run_of_block hp hconn hb) (run_of_block hp hconn hb') hi hj
  entry_not_mem := hroot.entry_not_mem
  falls hb hother := by
    obtain ⟨next, us, hus, hsuccs, hnext⟩ := exits_of_block his hp hconn hb
    obtain ⟨n, hn, rfl⟩ := hus.eq_singleton hother
    exact ⟨n, hsuccs, hnext n hn⟩
  branch_next {b t block last} hb hlast hcat ht := by
    obtain ⟨next, us, hus, hsuccs, hnext⟩ := exits_of_block his hp hconn hb
    rw [hlast] at hus
    obtain ⟨n, us', hn, rfl⟩ := hus.next_first (Or.inr hcat)
    have hend := hnext n hn
    rw [endOf_eq_of_getLast? hlast, ht] at hend
    rw [hsuccs, Graph.mem_foldl_appendNew_nil, Option.some.inj hend]
    exact List.mem_cons_self
  jump_target hb hlast target htarget ht := by
    obtain ⟨next, us, hus, hsuccs, -⟩ := exits_of_block his hp hconn hb
    rw [hlast] at hus
    rw [hsuccs, Graph.mem_foldl_appendNew_nil]
    exact hus.mem_of_target htarget ht
  succ_source {b t block last} hb hlast hcat ht := by
    obtain ⟨next, us, hus, hsuccs, hnext⟩ := exits_of_block his hp hconn hb
    rw [hlast] at hus
    rw [hsuccs, Graph.mem_foldl_appendNew_nil] at ht
    rcases hus.next_or_target ht with ⟨hn, hpass⟩ | ⟨i, hi, htarget⟩
    · refine Or.inr ⟨(hpass last rfl).resolve_left hcat, ?_⟩
      rw [← endOf_eq_of_getLast? hlast]
      exact hnext t hn
    · exact Or.inl (Option.some.inj hi ▸ htarget)

theorem fresh_of_connected (hp : Placed (runs ts is) g₀) {bs : List BlockId} (hconn : Graph.Connected bs g₀ g) :
    Graph.Fresh g := by
  have hfresh : ∀ {b : BlockId} {block : Block}, g.block? b = some block → block.nodes = #[] ∧ block.code = #[] := by
    intro b block hb
    obtain ⟨block₀, hb₀, hbare⟩ := hconn.keeps_bare.symm.exists_block hb
    rw [hp.block?_eq, Option.map_eq_some_iff] at hb₀
    obtain ⟨run, -, rfl⟩ := hb₀
    exact ⟨(congrArg Block.nodes hbare :).symm, (congrArg Block.code hbare :).symm⟩
  rw [hconn.eq_with_blocks] at hfresh ⊢
  exact ⟨hp.nodes_eq, hp.aliases_eq, hp.instrs_eq, hp.order_eq, hp.registers_eq, fun h => (hfresh h).1,
    fun h => (hfresh h).2⟩

end Connected

end Layout

namespace Graph

/-- Contiguous instructions whose jumps lead to instructions are cut into runs, one block for each, and connected. -/
theorem ofInstructions_eq {is : List Instruction} (his : Contiguous 0 is) (hne : is ≠ []) {ts : List Nat}
    (hts : Layout.targets is = .ok ts) : ∃ g₀, Layout.Placed (Layout.runs ts is) g₀ ∧
      ofInstructions is = match connectAll (List.range (Layout.runs ts is).length) g₀ with
        | .ok _ g => .ok g
        | .error e _ => .error e := by
  cases hhead : is.head? with
  | none => exact absurd (List.head?_eq_none_iff.1 hhead) hne
  | some first =>
    have hp := Layout.placed_partition ts his
    simp only [hhead, Option.map_some, Option.getD_some] at hp
    refine ⟨_, hp, ?_⟩
    have hids : (Layout.partition (ts.contains first.address)
        (Layout.markLeaders (ts.foldl (·.insert ·) ∅) true is)).blockIds = List.range (Layout.runs ts is).length :=
      blockIds_eq_range hp.hasBlock_iff
    unfold ofInstructions
    simp only [hhead, hts]
    rw [← hids]
    rfl

theorem connected_ofInstructions {is : List Instruction} {g : Graph} (his : Contiguous 0 is)
    (h : ofInstructions is = .ok g) : is ≠ [] ∧ ∃ ts g₀, Layout.targets is = .ok ts ∧
      Layout.Placed (Layout.runs ts is) g₀ ∧ Connected (List.range (Layout.runs ts is).length) g₀ g := by
  have hne : is ≠ [] := by
    rintro rfl
    cases h
  refine ⟨hne, ?_⟩
  cases hts : Layout.targets is with
  | error e =>
    unfold ofInstructions at h
    cases is with
    | nil => cases h
    | cons i is =>
      simp only [List.head?_cons, hts] at h
      cases h
  | ok ts =>
    obtain ⟨g₀, hp, heq⟩ := ofInstructions_eq his hne hts
    rw [heq] at h
    split at h
    · next g' hconnect =>
      obtain rfl := Except.ok.inj h
      exact ⟨ts, g₀, rfl, hp, connectAll_ok hp.linked List.nodup_range (fun b _ => hp.spread.succs_eq_nil b) hconnect⟩
    · cases h

/-! ## The entry

Nothing leads to the entry, whatever the addresses of the instructions are. -/

end Graph

namespace Layout

theorem spread_partition (targets : List Nat) (is : List Instruction) :
    Spread (runs targets is) (partition (targets.contains ((is.head?.map (·.address)).getD 0))
      (markLeaders (targets.foldl (·.insert ·) ∅) true is)) := by
  rw [partition_eq_foldl_place]
  exact spread_empty.foldl_place

/-- An instruction in a run jumps where one of the instructions does. -/
theorem exists_jumpTargets_eq {targets : List Nat} {is run : List Instruction} {b : BlockId}
    (hrun : (runs targets is)[b]? = some run) {i : Instruction} (hi : i ∈ run) :
    ∃ j ∈ is, j.jumpTargets = i.jumpTargets := by
  have hmem : i ∈ (runs targets is).flatten := List.mem_flatten.2 ⟨run, List.mem_of_getElem? hrun, hi⟩
  have hmarked : i ∈ markLeaders (targets.foldl (·.insert ·) ∅) true is := by
    unfold runs at hmem
    rw [List.flatten_append, flatten_cut] at hmem
    rcases List.mem_append.1 hmem with hmem | hmem
    · split at hmem <;> simp at hmem
    · simpa using hmem
  have : i.unmarked ∈ is.map Instruction.unmarked := by
    rw [← map_unmarked_markLeaders (targets.foldl (·.insert ·) ∅) true]
    exact List.mem_map_of_mem hmarked
  obtain ⟨j, hj, heq⟩ := List.mem_map.1 this
  exact ⟨j, hj, by rw [← Instruction.unmarked_jumpTargets, heq, Instruction.unmarked_jumpTargets]⟩

/-- The first run starts with the first instruction, unless that is a jump target. -/
theorem address_of_first_run {targets : List Nat} {is run : List Instruction} {a : Nat}
    (hrun : (runs targets is)[0]? = some run) (ha : run.head?.map (·.address) = some a) : a ∉ targets := by
  unfold runs at hrun
  split at hrun
  · obtain rfl : [] = run := Option.some.inj hrun
    cases ha
  · next hnot =>
    rw [List.nil_append] at hrun
    cases is with
    | nil => simp [markLeaders, cut] at hrun
    | cons i is =>
      have hflat := flatten_cut [] (markLeaders (targets.foldl (·.insert ·) ∅) true (i :: is))
      cases hcut : cut [] (markLeaders (targets.foldl (·.insert ·) ∅) true (i :: is)) with
      | nil => simp [hcut] at hrun
      | cons first rest =>
        rw [hcut] at hrun hflat
        obtain rfl : first = run := Option.some.inj hrun
        cases hfirst : first with
        | nil => simp [hfirst] at ha
        | cons j first =>
          rw [hfirst] at hflat ha
          simp only [List.flatten_cons, List.cons_append, List.reverse_nil, List.nil_append, markLeaders,
            List.cons.injEq] at hflat
          have haddr : j.address = i.address := by rw [hflat.1]
          simp only [List.head?_cons, Option.map_some, Option.some.injEq] at ha
          simpa [← ha, haddr] using hnot

end Layout

namespace Graph

/-- Instructions that have a graph are cut into runs, one block for each, and connected. -/
theorem spread_ofInstructions {is : List Instruction} {g : Graph} (h : ofInstructions is = .ok g) :
    is ≠ [] ∧ ∃ ts g₀, Layout.targets is = .ok ts ∧ Layout.Spread (Layout.runs ts is) g₀ ∧
      Connected g₀.blockIds g₀ g := by
  unfold ofInstructions at h
  cases hhead : is.head? with
  | none =>
    simp only [hhead] at h
    cases h
  | some first =>
    simp only [hhead] at h
    obtain ⟨ts, hts, h⟩ := except_bind_eq_ok.1 h
    have hp := Layout.spread_partition ts is
    simp only [hhead, Option.map_some, Option.getD_some] at hp
    generalize Layout.partition _ _ = g₀ at h hp
    split at h
    · next g' hconnect =>
      obtain rfl := except_pure_eq_ok.1 h
      unfold connect at hconnect
      simp only [Pass.bind_eq_ok, Pass.get_eq_ok] at hconnect
      obtain ⟨_, _, ⟨rfl, rfl⟩, hconnect⟩ := hconnect
      have hne : is ≠ [] := by
        rintro rfl
        cases hhead
      exact ⟨hne, ts, g₀, hts, hp,
        connectAll_ok (linked_of_no_edges hp.no_edges) (nodup_blockIds g₀) (fun b _ => hp.succs_eq_nil b) hconnect⟩
    · cases h

/-- The blocks of instructions have the numbers below their count. -/
theorem exists_hasBlock_iff_lt {is : List Instruction} {g : Graph} (h : ofInstructions is = .ok g) :
    ∃ n, ∀ b, g.hasBlock b = true ↔ b < n := by
  obtain ⟨-, ts, g₀, -, hp, hconn⟩ := spread_ofInstructions h
  exact ⟨_, fun b => (hconn.keeps_bare.hasBlock_eq b).symm ▸ hp.hasBlock_iff b⟩

theorem rooted_ofInstructions {is : List Instruction} {g : Graph} (h : ofInstructions is = .ok g) :
    Rooted g ∧ g.order = [] := by
  obtain ⟨hne, ts, g₀, hts, hp, hconn⟩ := spread_ofInstructions h
  refine ⟨⟨hconn.linked, ?_, ?_⟩, (congrArg Graph.order hconn.eq_with_blocks).trans hp.order_eq⟩
  · rw [hconn.keeps_bare.hasBlock_eq, hp.hasBlock_iff]
    exact List.length_pos_of_ne_nil (Layout.runs_ne_nil ts hne)
  · intro b block hb hmem
    obtain ⟨block₀, hb₀, -⟩ := hconn.keeps_bare.symm.exists_block hb
    obtain ⟨front, rest, hsplit⟩ := List.append_of_mem (mem_blockIds.2 (hasBlock_iff.2 ⟨block₀, hb₀⟩))
    obtain ⟨us, hus, hsuccs⟩ := hconn.exits front b rest hsplit
    rw [← succs_eq hb, hsuccs, mem_foldl_appendNew_nil] at hmem
    rcases hus.next_or_target hmem with ⟨hn, -⟩ | ⟨i, hi, target, htarget, ht⟩
    · -- The blocks that follow have higher numbers.
      have hlt := pairwise_blockIds g₀
      rw [hsplit, List.pairwise_append] at hlt
      exact absurd ((List.pairwise_cons.1 hlt.2.1).1 entry (List.mem_of_head? hn)) (Nat.not_lt_zero b)
    · rw [hb₀] at hi
      rw [hp.block?_eq, Option.map_eq_some_iff] at hb₀
      obtain ⟨run, hrun, rfl⟩ := hb₀
      obtain ⟨j, hj, hjumps⟩ := Layout.exists_jumpTargets_eq hrun (List.mem_of_getLast? hi)
      cases target with
      | negSucc a => cases ht
      | ofNat a =>
        obtain ⟨run₀, hrun₀, ha⟩ := hp.head_of_blockAt? ht
        rw [← hjumps] at htarget
        exact Layout.address_of_first_run hrun₀ ha (Layout.mem_targets hts hj htarget).2

/-- The graph of contiguous instructions is laid out over them, and nothing has been built for it yet. -/
theorem laid_ofInstructions {is : List Instruction} {g : Graph} (his : Contiguous 0 is)
    (h : ofInstructions is = .ok g) : (∃ addr, Laid is addr g) ∧ Fresh g := by
  obtain ⟨-, ts, g₀, -, hp, hconn⟩ := connected_ofInstructions his h
  exact ⟨⟨_, Layout.laid_of_connected his hp hconn (rooted_ofInstructions h).1⟩, Layout.fresh_of_connected hp hconn⟩

end Graph

end Destack
