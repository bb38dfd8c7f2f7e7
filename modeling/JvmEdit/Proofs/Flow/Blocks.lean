import JvmEdit.Libraries.Standard
import JvmEdit.Proofs.Flow.Graph
set_option autoImplicit false

namespace JvmEdit

namespace Graph

variable {g : Graph}

theorem Holds.member {k position : Nat} {insn : InsnId} (holds : g.Holds k position)
    (here : (g.blocks.flatMap Block.instructions)[position]? = some insn) :
    ∃ block, g.block? ⟨k⟩ = some block ∧ insn ∈ block.instructions := by
  have block := List.getElem?_eq_getElem holds.block
  refine ⟨_, block, ?_⟩
  have front : ((g.blocks.take k).flatMap Block.instructions).length = g.start k := List.length_flatMap
  have back := holds.back
  rw [g.start_succ, block, Option.map_some, Option.getD_some, Block.size] at back
  rw [← List.take_append_drop k g.blocks, ← List.getElem_cons_drop holds.block, List.flatMap_append,
    List.getElem?_append_right (front ▸ holds.front), front, List.flatMap_cons,
    List.getElem?_append_left (Nat.sub_lt_left_of_lt_add holds.front back)] at here
  exact List.mem_of_getElem? here

end Graph

namespace Flow

-- Control runs on, or comes to where a block starts.
def Transfer.Fits (code : List Instruction) (ranges : List TryRange) (t : Transfer) : Prop :=
  t.source < code.length ∧ t.target < code.length ∧
    (t = .flow t.source (t.source + 1) ∨ Starts code ranges t.target)

section Trace

variable {code : List Instruction} {ranges : List TryRange} {limit : Option UInt16}

theorem Takes.fits [Libraries] {c : Config} {m : Move} (takes : Takes code ranges limit c m)
    (reaches : Reaches code ranges limit c) : m.transfer.Fits code ranges := by
  obtain ⟨transfer, height⟩ := m
  cases transfer with
  | flow source target =>
      obtain ⟨rfl, flows⟩ := takes
      refine ⟨reaches.inside, (show Steps code ranges limit _ _ from Or.inl flows).inside, ?_⟩
      rcases flows.next_or_named with ⟨next, _⟩ | names
      · exact Or.inl (congrArg (Transfer.flow c.position) next)
      · exact Or.inr names.starts
  | exception source handler =>
      obtain ⟨rfl, raises⟩ := takes
      exact ⟨reaches.inside, raises.starts.inside, Or.inr raises.starts⟩

theorem Walk.Valid.fits [Libraries] {w : Walk} (valid : w.Valid code ranges limit) :
    ∀ t ∈ w.trace, t.Fits code ranges := by
  intro t member
  obtain ⟨c, m, reaches, takes, rfl⟩ := valid.traced t member
  exact takes.fits reaches

theorem Walk.fits_follow (w : Walk) (moves : List Move) (fits : ∀ t ∈ w.trace, t.Fits code ranges)
    (made : ∀ m ∈ moves, m.transfer.Fits code ranges) :
    ∀ t ∈ (w.follow moves).1.trace, t.Fits code ranges := by
  obtain ⟨noted, part, trace, _⟩ := w.trace_follow moves
  intro t member
  rw [trace, List.mem_append, List.mem_reverse] at member
  rcases member with now | before
  · obtain ⟨m, among, rfl⟩ := List.mem_map.mp (part.subset now)
    exact made m among
  · exact fits t before

variable {b : Body} (of : b.Of code ranges limit)

include of

theorem Walk.fits_visit [Libraries] (w : Walk) (position height : Nat)
    (valid : w.Valid code ranges limit) (settled : w.height? position = some height) :
    ∀ t ∈ (w.visit b position).1.trace, t.Fits code ranges := by
  have reaches := valid.reached position height settled
  obtain ⟨i, here⟩ := reaches.instruction
  have followed := w.fits_follow (b.moves position height i).1 valid.fits fun m member => by
    obtain ⟨c, reaches', takes⟩ := of.sourced position height i here reaches m member
    exact takes.fits reaches'
  rw [Walk.visit_eq b w position height i settled ((of.at position).trans here)]
  split
  · rename_i next e isNext
    rwa [isNext] at followed
  · rename_i next isNext
    rwa [isNext] at followed

theorem Walk.fits_run_by [Libraries] (choose : Walk → Nat) (visits : Nat) (w : Walk)
    (explores : w.Explores code ranges limit) :
    ∀ t ∈ (w.runBy choose b visits).1.trace, t.Fits code ranges := by
  induction visits generalizing w with
  | zero => exact explores.fits
  | succ visits ih =>
      rw [Walk.runBy]
      split
      · exact explores.fits
      · rename_i position taken
        obtain ⟨inside, isTaken⟩ := List.getElem?_eq_some_iff.mp taken
        obtain ⟨height, settled⟩ := explores.settled position (isTaken ▸ List.getElem_mem inside)
        have fits := Walk.fits_visit of _ position height
          (explores.take (choose w % w.pending.length)) settled
        split
        · rename_i next visited
          exact ih next (Walk.explores_visit of w next _ position explores taken visited).1
        · rename_i next e visited
          rw [visited] at fits
          exact fits

end Trace

theorem analyse_fits [Libraries] (code : Stream) (ranges : List TryRange) (limit : Option UInt16) :
    ∀ t ∈ (analyse code ranges limit).trace, t.Fits code.toList ranges := by
  rw [analyse_eq, analyseBy]
  split
  · exact fun t none => by cases none
  · rename_i code_
    have nonempty : code.toList ≠ [] := by simpa [Stream.isEmpty] using code_
    cases made : body? code.toList ranges limit with
    | error e => exact fun t none => by cases none
    | ok b =>
        have of := body?_ok made
        intro t member
        exact Walk.fits_run_by of _ b.size b.start (of.explores_start nonempty) t
          (List.mem_reverse.mp member)

section Edges

variable {code : List Instruction} (ranges : List TryRange) (trace : List Transfer)

theorem exists_thrown_edge {i j : Nat} (noted : .exception i j ∈ trace) :
    ∃ i', (blockOf code ranges i, blockOf code ranges j, i') ∈
      exceptionEdges (blockOf code ranges) trace := by
  classical
  have some_ : ∃ i', ∃ j', .exception i' j' ∈ trace ∧ blockOf code ranges i' = blockOf code ranges i ∧
    blockOf code ranges j' = blockOf code ranges j := ⟨i, j, noted, rfl, rfl⟩
  refine ⟨Nat.find some_, (mem_exception_edges _ trace _ _ _).mpr ⟨Nat.find_spec some_, ?_⟩⟩
  exact fun source handler noted' isSource isTarget =>
    Nat.find_min' some_ ⟨handler, noted', isSource, isTarget⟩

theorem edge_of_transfer (t : Transfer) (noted : t ∈ trace) (starts : Starts code ranges t.target) :
    ∃ e ∈ (graph code ranges trace).edges, e.source = ⟨blockOf code ranges t.source⟩ ∧
      e.target = ⟨blockOf code ranges t.target⟩ := by
  simp only [graph_edges, List.mem_mergeSort, List.mem_append]
  cases t with
  | flow i j =>
      have pair := (mem_flow_pairs _ trace i j).mpr ⟨noted, (flags_iff code ranges j).mpr starts⟩
      exact ⟨_, Or.inl (List.mem_map_of_mem pair), rfl, rfl⟩
  | exception i j =>
      obtain ⟨i', triple⟩ := exists_thrown_edge ranges trace noted
      exact ⟨_, Or.inr (List.mem_map_of_mem triple), rfl, rfl⟩

variable (nonempty : code ≠ []) (fits : ∀ t ∈ trace, t.Fits code ranges)

include nonempty

theorem first_block_of {p : Nat} (starts : Starts code ranges p) :
    (graph code ranges trace).First (blockOf code ranges p) p :=
  (first_iff ranges trace nonempty _ p).mpr
    ⟨holds_block_of ranges trace nonempty p starts.inside, starts⟩

theorem block_of_of_holds {k p : Nat} (holds : (graph code ranges trace).Holds k p) :
    blockOf code ranges p = k :=
  (holds_block_of ranges trace nonempty p ((holds_iff ranges trace nonempty k p).mp holds).1).unique holds

include fits

theorem transfer_of_mem_edges (e : FlowEdge) (member : e ∈ (graph code ranges trace).edges) :
    ∃ t ∈ trace, (graph code ranges trace).Holds e.source.val t.source ∧
      (graph code ranges trace).First e.target.val t.target ∧
      (code[t.source]?).map (·.id) = some e.cause := by
  rw [graph_edges, List.mem_mergeSort, List.mem_append, List.mem_map, List.mem_map] at member
  rcases member with ⟨⟨i, j⟩, pair, rfl⟩ | ⟨⟨k, k', i⟩, triple, rfl⟩
  · obtain ⟨noted, flagged⟩ := (mem_flow_pairs _ trace i j).mp pair
    have starts := (flags_iff code ranges j).mp flagged
    have inside := (fits _ noted).1
    exact ⟨_, noted, holds_block_of ranges trace nonempty i inside,
      first_block_of ranges trace nonempty starts, id_at_eq code inside⟩
  · obtain ⟨⟨j, noted, rfl, rfl⟩, _⟩ := (mem_exception_edges _ trace k k' i).mp triple
    obtain ⟨inside, _, flow | starts⟩ := fits _ noted
    · cases flow
    · exact ⟨_, noted, holds_block_of ranges trace nonempty i inside,
        first_block_of ranges trace nonempty starts, id_at_eq code inside⟩

end Edges

-- Blocks opened while an analysis runs: where they start so far, and the transfers to be drawn.
structure Opened where
  starts : List Nat
  drawn : List Transfer

namespace Opened

-- Control that runs on opens no block, any other transfer opens one where it comes to.
def note (size : Nat) (o : Opened) (t : Transfer) : Opened :=
  if t.target ∈ o.starts then { o with drawn := t :: o.drawn }
  else if t = .flow t.source (t.source + 1) ∨ size ≤ t.target then o
  else ⟨t.target :: o.starts, t :: o.drawn⟩

-- The blocks that the code and its ranges ask for.
def before (code : List Instruction) (ranges : List TryRange) : Opened :=
  ⟨(blockStarts code (labelTable code) ranges).filter (· < code.length), []⟩

def after [Libraries] (m : Method) : Opened :=
  m.analyse.trace.foldl (note m.code.toList.length) (before m.code.toList m.tryRanges)

variable {code : List Instruction} {ranges : List TryRange}

theorem mem_before (position : Nat) :
    position ∈ (before code ranges).starts ↔ Starts code ranges position := by
  rw [before, List.mem_filter, decide_eq_true_eq, mem_block_starts]
  simp only [lookup_iff_stands]
  exact ⟨fun given => ⟨given.2, given.1⟩, fun starts => ⟨starts.reason, starts.inside⟩⟩

theorem note_of_fits (o : Opened) (t : Transfer)
    (opened : ∀ p, p ∈ o.starts ↔ Starts code ranges p) (fits : t.Fits code ranges) :
    (o.note code.length t).starts = o.starts ∧
      ∀ t', t' ∈ (o.note code.length t).drawn ↔
        (t' = t ∧ Starts code ranges t.target) ∨ t' ∈ o.drawn := by
  by_cases starts : Starts code ranges t.target
  · rw [note, if_pos ((opened _).mpr starts)]
    exact ⟨rfl, fun t' => by simp [starts]⟩
  · rw [note, if_neg fun member => starts ((opened _).mp member),
      if_pos (Or.inl (fits.2.2.resolve_right starts))]
    exact ⟨rfl, fun t' => by simp [starts]⟩

theorem foldl_note (trace : List Transfer) (o : Opened)
    (opened : ∀ p, p ∈ o.starts ↔ Starts code ranges p) (fits : ∀ t ∈ trace, t.Fits code ranges) :
    (trace.foldl (note code.length) o).starts = o.starts ∧
      ∀ t, t ∈ (trace.foldl (note code.length) o).drawn ↔
        (t ∈ trace ∧ Starts code ranges t.target) ∨ t ∈ o.drawn := by
  induction trace generalizing o with
  | nil => exact ⟨rfl, fun t => by simp⟩
  | cons first trace ih =>
      obtain ⟨kept, drawn⟩ := note_of_fits o first opened (fits first List.mem_cons_self)
      obtain ⟨keptAll, drawnAll⟩ := ih (o.note code.length first) (fun p => kept ▸ opened p)
        fun t member => fits t (List.mem_cons_of_mem first member)
      refine ⟨keptAll.trans kept, fun t => ?_⟩
      rw [List.foldl_cons, drawnAll, drawn, List.mem_cons]
      constructor
      · rintro (⟨later, starts⟩ | ⟨rfl, starts⟩ | old)
        · exact Or.inl ⟨Or.inr later, starts⟩
        · exact Or.inl ⟨Or.inl rfl, starts⟩
        · exact Or.inr old
      · rintro (⟨rfl | later, starts⟩ | old)
        · exact Or.inr (Or.inl ⟨rfl, starts⟩)
        · exact Or.inl ⟨later, starts⟩
        · exact Or.inr (Or.inr old)

end Opened

-- The blocks of a graph hold the code in its order and begin where the code and its ranges ask for
-- it; edges go from an instruction of one of them to one of them.
structure Partitions (code : List Instruction) (ranges : List TryRange) (g : Graph) : Prop where
  numbered : ∀ (k : Nat) (block : Block), g.blocks[k]? = some block → block.id = ⟨k⟩
  nonempty : ∀ block ∈ g.blocks, block.instructions ≠ []
  instructions : g.blocks.flatMap Block.instructions = code.map (·.id)
  starts : ∀ p, (∃ k < g.blocks.length, g.start k = p) ↔ Starts code ranges p
  edges : ∀ e ∈ g.edges, ∃ source target, g.block? e.source = some source ∧
    g.block? e.target = some target ∧ e.cause ∈ source.instructions

theorem partitions_graph (code : List Instruction) (ranges : List TryRange) (trace : List Transfer)
    (nonempty : code ≠ []) (fits : ∀ t ∈ trace, t.Fits code ranges) :
    Partitions code ranges (graph code ranges trace) where
  numbered := block_numbered code ranges trace
  nonempty := block_nonempty ranges trace nonempty
  instructions := graph_flat_map ranges trace nonempty
  starts := fun p => (starts_iff ranges trace nonempty p).symm
  edges := by
    intro e member
    obtain ⟨t, _, source, target, cause⟩ := transfer_of_mem_edges ranges trace nonempty fits e member
    have here : ((graph code ranges trace).blocks.flatMap Block.instructions)[t.source]? =
        some e.cause := by
      rw [graph_flat_map ranges trace nonempty, List.getElem?_map, cause]
    obtain ⟨block, isSource, member⟩ := source.member here
    exact ⟨block, _, isSource, List.getElem?_eq_getElem target.holds.block, member⟩

theorem build_graph_fst [Libraries] (m : Method) (nonempty : m.code.toList ≠ []) :
    m.buildGraph.1 = graph m.code.toList m.tryRanges m.analyse.trace := by
  have code_ : ¬m.code.isEmpty = true := by simpa [Stream.isEmpty] using nonempty
  rw [Method.buildGraph, if_neg code_]

-- Any code is cut into blocks where jumps, ends of control and protected ranges ask for it. What an
-- analysis follows, also one that fails, opens no further block, and what it has drawn are the edges.
theorem build_graph_partitions [Libraries] (m : Method) (nonempty : m.code.toList ≠ []) :
    Partitions m.code.toList m.tryRanges m.buildGraph.1 ∧
    (Opened.after m).starts = (Opened.before m.code.toList m.tryRanges).starts ∧
    (∀ p, p ∈ (Opened.after m).starts ↔
      ∃ k < m.buildGraph.1.blocks.length, m.buildGraph.1.start k = p) ∧
    ∀ k k', (∃ e ∈ m.buildGraph.1.edges, e.source = ⟨k⟩ ∧ e.target = ⟨k'⟩) ↔
      ∃ t ∈ (Opened.after m).drawn, m.buildGraph.1.Holds k t.source ∧ m.buildGraph.1.First k' t.target := by
  have fits := analyse_fits m.code m.tryRanges m.maxStack
  obtain ⟨kept, drawn⟩ := Opened.foldl_note m.analyse.trace (Opened.before m.code.toList m.tryRanges)
    Opened.mem_before fits
  rw [build_graph_fst m nonempty]
  refine ⟨partitions_graph _ _ _ nonempty fits, kept, fun p => ?_, fun k k' => ⟨?_, ?_⟩⟩
  · rw [Opened.after, kept, Opened.mem_before, starts_iff _ _ nonempty]
  · rintro ⟨e, member, isSource, isTarget⟩
    obtain ⟨t, noted, source, target, _⟩ := transfer_of_mem_edges _ _ nonempty fits e member
    rw [isSource] at source
    rw [isTarget] at target
    have starts := ((first_iff _ _ nonempty _ _).mp target).2
    exact ⟨t, (drawn t).mpr (Or.inl ⟨noted, starts⟩), source, target⟩
  · rintro ⟨t, isDrawn, source, target⟩
    obtain ⟨noted, starts⟩ := ((drawn t).mp isDrawn).resolve_right List.not_mem_nil
    obtain ⟨e, member, isSource, isTarget⟩ := edge_of_transfer _ _ t noted starts
    rw [block_of_of_holds _ _ nonempty source] at isSource
    rw [block_of_of_holds _ _ nonempty target.holds] at isTarget
    exact ⟨e, member, isSource, isTarget⟩

-- One label marks two positions, another one none, and the branch to the second marker underflows.
def brokenMethod : Method where
  owner := ⟨0⟩
  name := "run"
  descriptor := "()V"
  signature := none
  access := Flags.staticFlag
  kind := .method
  exceptions := []
  annotations := []
  maxStack := none
  code := ⟨[⟨⟨1⟩, 0xff, .label ⟨1⟩⟩, ⟨⟨2⟩, 0x03, .simple⟩, ⟨⟨3⟩, 0x99, .jump ⟨2⟩⟩,
    ⟨⟨4⟩, 0xff, .label ⟨2⟩⟩, ⟨⟨5⟩, 0xb1, .simple⟩, ⟨⟨6⟩, 0xff, .label ⟨2⟩⟩, ⟨⟨7⟩, 0x57, .simple⟩,
    ⟨⟨8⟩, 0xa7, .jump ⟨9⟩⟩, ⟨⟨9⟩, 0xff, .label ⟨3⟩⟩]⟩
  tryRanges := [⟨⟨1⟩, ⟨2⟩, ⟨3⟩, none⟩]

theorem build_graph_partitions_broken_method :
    brokenMethod.buildGraph.2 = some (.underflow 6) ∧
    Partitions brokenMethod.code.toList brokenMethod.tryRanges brokenMethod.buildGraph.1 ∧
    ∃ e ∈ brokenMethod.buildGraph.1.edges, e.source = ⟨0⟩ ∧ e.target = ⟨2⟩ := by
  have failed : brokenMethod.buildGraph.2 = some (.underflow 6) := by decide +kernel
  obtain ⟨partitions, _, _, edges⟩ := build_graph_partitions brokenMethod (by decide)
  exact ⟨failed, partitions, (edges 0 2).mpr ⟨.flow 2 5, by decide +kernel,
    ⟨by decide +kernel, by decide +kernel, by decide +kernel⟩,
    ⟨by decide +kernel, by decide +kernel, by decide +kernel⟩, by decide +kernel⟩⟩

end Flow

end JvmEdit
