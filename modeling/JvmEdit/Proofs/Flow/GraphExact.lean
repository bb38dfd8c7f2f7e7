import JvmEdit.Libraries.Standard
import JvmEdit.Proofs.Flow.Graph
set_option autoImplicit false

namespace JvmEdit

namespace Flow

-- The graph shows the paths through a body.
structure Draws [Libraries] (code : List Instruction) (ranges : List TryRange) (limit : Option UInt16)
    (g : Graph) : Prop where
  instructions : g.blocks.flatMap Block.instructions = code.map (·.id)
  numbered : ∀ (k : Nat) (block : Block), g.blocks[k]? = some block → block.id = ⟨k⟩
  covers : ∀ p < code.length, ∃ k, g.Holds k p
  distinct : g.edges.Nodup
  carried : ∀ e, (e ∈ g.edges ∧ e.kind ≠ .exception) ↔ ∃ i j, Carried code ranges limit g i j e
  -- What a block's last instruction is followed by gets its one edge, to the front of a block.
  onward : ∀ k i j, g.Last k i → Follows code ranges limit i j → ∃! e, Carried code ranges limit g i j e
  entry : ∀ i j e, Carried code ranges limit g i j e → g.First e.target.val j
  -- Other instructions are followed by the next one of their block.
  inward : ∀ k i j, g.Holds k i → ¬g.Last k i → Follows code ranges limit i j →
    j = i + 1 ∧ g.Holds k j
  thrown : ∀ e, (e ∈ g.edges ∧ e.kind = .exception) ↔ ∃ i, Thrown code ranges limit g i e
  exceptional : ∀ a b i j, g.Holds a i → Throws code ranges limit i j → g.Holds b j →
    g.First b j ∧ ∃! e, (e ∈ g.edges ∧ e.kind = .exception) ∧ e.source = ⟨a⟩ ∧ e.target = ⟨b⟩

section Nonempty

variable {code : List Instruction} {ranges : List TryRange} {limit : Option UInt16}
  {trace : List Transfer} (nonempty : code ≠ [])

include nonempty

theorem holds_next {k p : Nat} (holds : (graph code ranges trace).Holds k p)
    (inner : ¬(graph code ranges trace).Last k p) :
    (graph code ranges trace).Holds k (p + 1) ∧ ¬Starts code ranges (p + 1) := by
  refine ⟨⟨holds.block, Nat.le_succ_of_le holds.front, ?_⟩, fun starts => inner ?_⟩
  · exact Nat.lt_of_le_of_ne holds.back fun ends => inner ⟨holds, ends.symm⟩
  · exact (last_iff ranges trace nonempty k p).mpr ⟨holds, Or.inr starts⟩

section Drawn

variable [Libraries] (traces : Traces code ranges limit trace)

include traces

theorem carried_iff (e : FlowEdge) :
    (e ∈ (graph code ranges trace).edges ∧ e.kind ≠ .exception) ↔
      ∃ i j, Carried code ranges limit (graph code ranges trace) i j e := by
  rw [mem_edges nonempty traces]
  constructor
  · rintro ⟨carried | ⟨i, thrown⟩, kind⟩
    · exact carried
    · exact absurd thrown.kind kind
  · rintro ⟨i, j, carried⟩
    refine ⟨Or.inl ⟨i, j, carried⟩, fun kind => ?_⟩
    simpa [kind] using carried.kind

theorem thrown_iff (e : FlowEdge) :
    (e ∈ (graph code ranges trace).edges ∧ e.kind = .exception) ↔
      ∃ i, Thrown code ranges limit (graph code ranges trace) i e := by
  rw [mem_edges nonempty traces]
  constructor
  · rintro ⟨⟨i, j, carried⟩ | thrown, kind⟩
    · have isKind := carried.kind
      simp [kind] at isKind
    · exact thrown
  · rintro ⟨i, thrown⟩
    exact ⟨Or.inr ⟨i, thrown⟩, thrown.kind⟩

theorem draws_graph : Draws code ranges limit (graph code ranges trace) where
  instructions := graph_flat_map ranges trace nonempty
  numbered := fun k block at_ => block_numbered code ranges trace k block at_
  covers := fun p inside => ⟨_, holds_block_of ranges trace nonempty p inside⟩
  distinct := nodup_edges nonempty traces
  carried := carried_iff nonempty traces
  onward := by
    intro k i j last follows
    have target := holds_block_of ranges trace nonempty j follows.inside.2
    by_cases names : Names code i j
    · have carried : Carried code ranges limit (graph code ranges trace) i j
          ⟨⟨k⟩, ⟨_⟩, .branch, idAt code i⟩ :=
        ⟨follows, last, target, Or.inl ⟨rfl, names⟩, id_at_eq code follows.inside.1⟩
      exact ⟨_, carried, fun e carried' => carried'.unique carried⟩
    · have carried : Carried code ranges limit (graph code ranges trace) i j
          ⟨⟨k⟩, ⟨_⟩, .fallThrough, idAt code i⟩ :=
        ⟨follows, last, target, Or.inr ⟨rfl, names⟩, id_at_eq code follows.inside.1⟩
      exact ⟨_, carried, fun e carried' => carried'.unique carried⟩
  entry := fun i j e carried => entry_of_carried nonempty carried
  inward := by
    intro k i j holds inner follows
    obtain rfl := next_of_not_last nonempty follows holds inner
    exact ⟨rfl, (holds_next nonempty holds inner).1⟩
  thrown := thrown_iff nonempty traces
  exceptional := by
    intro a b i j source throws target
    have first := (first_iff ranges trace nonempty b j).mpr ⟨target, throws.starts⟩
    obtain ⟨i', e, thrown, isSource, isTarget⟩ := thrown_of_throws nonempty source first throws
    refine ⟨first, e, ⟨(thrown_iff nonempty traces e).mpr ⟨i', thrown⟩, isSource, isTarget⟩, ?_⟩
    rintro e' ⟨member, isSource', isTarget'⟩
    obtain ⟨i'', thrown'⟩ := (thrown_iff nonempty traces e').mp member
    exact thrown'.unique thrown (isSource'.trans isSource.symm) (isTarget'.trans isTarget.symm)

end Drawn

section Run

variable [Libraries] (consistent : Consistent code ranges limit)

include consistent

theorem Reachable.after {k p : Nat} (reachable : Reachable code ranges limit p)
    (holds : (graph code ranges trace).Holds k p) (inner : ¬(graph code ranges trace).Last k p) :
    Reachable code ranges limit (p + 1) := by
  obtain ⟨height, reaches⟩ := reachable
  obtain ⟨i, here⟩ := reaches.instruction
  have within := ((holds_iff ranges trace nonempty k _).mp (holds_next nonempty holds inner).1).1
  have runs : ¬Ends i := fun ends =>
    inner ((last_iff ranges trace nonempty k p).mpr ⟨holds, starts_behind here ends⟩)
  obtain ⟨continues, stays⟩ := continues_of_not_ends runs
  obtain ⟨after, carries⟩ := carries_of_faultless here (consistent.faultless _ reaches)
  exact Reachable.follow ⟨height, after, reaches, .next here carries continues stays within⟩

theorem reachable_iff_start {k p : Nat} (holds : (graph code ranges trace).Holds k p) :
    Reachable code ranges limit p ↔
      Reachable code ranges limit ((graph code ranges trace).start k) := by
  obtain ⟨n, rfl⟩ := Nat.exists_eq_add_of_le holds.front
  induction n with
  | zero => rfl
  | succ n ih =>
      have earlier : (graph code ranges trace).Holds k ((graph code ranges trace).start k + n) :=
        ⟨holds.block, Nat.le_add_right _ _, Nat.lt_of_succ_lt holds.back⟩
      have inner : ¬(graph code ranges trace).Last k ((graph code ranges trace).start k + n) :=
        fun last => Nat.ne_of_gt holds.back last.ends
      rw [← ih earlier]
      exact ⟨fun reachable => reachable.before (holds_next nonempty earlier inner).2,
        fun reachable => reachable.after nonempty consistent earlier inner⟩

end Run

section Edges

variable [Libraries] (traces : Traces code ranges limit trace)

include traces

theorem reachable_of_reaches {k : BlockId} (reaches : (graph code ranges trace).Reaches k) :
    Reachable code ranges limit ((graph code ranges trace).start k.val) := by
  induction reaches with
  | refl => exact ⟨0, nonempty, .refl⟩
  | tail _ edge ih =>
      obtain ⟨e, member, rfl, rfl⟩ := edge
      rcases (mem_edges nonempty traces e).mp member with ⟨i, j, carried⟩ | ⟨i, thrown⟩
      · exact (entry_of_carried nonempty carried).starts ▸ Reachable.follow carried.follows
      · obtain ⟨j, first, throws⟩ := thrown.target
        exact first.starts ▸ Reachable.throw throws

theorem reaches_of_reaches {k : Nat} {c : Config} (reaches : Reaches code ranges limit c)
    (holds : (graph code ranges trace).Holds k c.position) :
    (graph code ranges trace).Reaches ⟨k⟩ := by
  have draws := draws_graph nonempty traces
  obtain ⟨_, path⟩ := reaches
  induction path generalizing k with
  | refl =>
      have front := (holds_start ranges trace nonempty 0 (Nat.zero_lt_of_lt holds.block)).holds
      obtain rfl := holds.unique front
      exact .refl
  | @tail c d path steps ih =>
      have reaches : Reaches code ranges limit c := ⟨nonempty, path⟩
      obtain ⟨a, source⟩ := draws.covers c.position reaches.inside
      have before := ih source
      rcases steps with flows | raises
      · have follows : Follows code ranges limit c.position d.position :=
          ⟨c.height, d.height, reaches, flows⟩
        by_cases last : (graph code ranges trace).Last a c.position
        · obtain ⟨e, carried, _⟩ := draws.onward a _ _ last follows
          have isSource : e.source = ⟨a⟩ := congrArg BlockId.mk (carried.source.holds.unique source)
          have isTarget : e.target = ⟨k⟩ := congrArg BlockId.mk (carried.target.unique holds)
          have member := ((draws.carried e).mpr ⟨_, _, carried⟩).1
          exact before.tail ⟨e, member, isSource, isTarget⟩
        · obtain rfl := (draws.inward a _ _ source last follows).2.unique holds
          exact before
      · have throws : Throws code ranges limit c.position d.position :=
          ⟨c.height, d.height, reaches, raises⟩
        obtain ⟨_, e, ⟨⟨member, _⟩, isSource, isTarget⟩, _⟩ :=
          draws.exceptional a k _ _ source throws holds
        exact before.tail ⟨e, member, isSource, isTarget⟩

theorem reaches_iff (consistent : Consistent code ranges limit) {k p : Nat}
    (holds : (graph code ranges trace).Holds k p) :
    (graph code ranges trace).Reaches ⟨k⟩ ↔ Reachable code ranges limit p := by
  constructor
  · intro reaches
    exact (reachable_iff_start nonempty consistent holds).mpr
      (reachable_of_reaches nonempty traces reaches)
  · rintro ⟨height, reaches⟩
    exact reaches_of_reaches nonempty traces reaches holds

end Edges

end Nonempty

theorem draws_empty [Libraries] (ranges : List TryRange) (limit : Option UInt16) : Draws
    [] ranges limit {} where
  instructions := rfl
  numbered := fun _ _ at_ => by cases at_
  covers := fun _ inside => by cases inside
  distinct := List.nodup_nil
  carried := by
    intro e
    constructor
    · rintro ⟨member, _⟩
      cases member
    · rintro ⟨_, _, carried⟩
      cases carried.follows.inside.1
  onward := fun _ _ _ _ follows => by cases follows.inside.1
  entry := fun _ _ _ carried => by cases carried.follows.inside.1
  inward := fun _ _ _ _ _ follows => by cases follows.inside.1
  thrown := by
    intro e
    constructor
    · rintro ⟨member, _⟩
      cases member
    · rintro ⟨_, thrown⟩
      cases thrown.source.block
  exceptional := fun _ _ _ _ _ throws => by cases throws.inside.1

theorem is_reachable_iff [Libraries] (m : Method) (frames : Frames)
    (analysed : m.analyse.result = .ok frames) (p : Nat) : frames.isReachable p = true ↔
      Reachable m.code.toList m.tryRanges m.maxStack p := by
  rw [Method.analyse, analyse_eq] at analysed
  rw [Frames.isReachable, Option.isSome_iff_exists]
  exact exists_congr fun height => height?_analyse_by _ m.code m.tryRanges m.maxStack frames analysed p height

theorem build_graph_nonempty [Libraries] (m : Method) (frames : Frames) (nonempty : m.code.toList ≠ [])
    (analysed : m.analyse.result = .ok frames) :
    m.buildGraph = (graph m.code.toList m.tryRanges m.analyse.trace, none) := by
  have code_ : ¬m.code.isEmpty = true := by simpa [Stream.isEmpty] using nonempty
  rw [Method.buildGraph, if_neg code_]
  dsimp only
  rw [analysed]

theorem build_graph_empty [Libraries] (m : Method) (empty : m.code.toList = []) : m.buildGraph =
    ({}, none) := by
  rw [Method.buildGraph, if_pos (by simpa [Stream.isEmpty] using empty)]

-- The graph of a body that is accepted draws its paths. What edges lead to from the first block are
-- the blocks whose instructions are all reached, and nothing of the others is.
theorem build_graph_exact [Libraries] (m : Method) (frames : Frames)
    (analysed : m.analyse.result = .ok frames) : m.buildGraph.2 = none ∧
    Draws m.code.toList m.tryRanges m.maxStack m.buildGraph.1 ∧
    (∀ i j, .flow i j ∈ m.analyse.trace ↔ Follows m.code.toList m.tryRanges m.maxStack i j) ∧
    ∀ k < m.buildGraph.1.blocks.length,
      (m.buildGraph.1.Reaches ⟨k⟩ ↔ ∀ p, m.buildGraph.1.Holds k p → frames.isReachable p = true) ∧
      (¬m.buildGraph.1.Reaches ⟨k⟩ → ∀ p, m.buildGraph.1.Holds k p → frames.isReachable p = false) := by
  by_cases empty : m.code.toList = []
  · have trace : m.analyse.trace = [] := by
      rw [Method.analyse, analyse_eq, analyse_by_empty _ _ _ _ empty]
    rw [build_graph_empty m empty, empty, trace]
    refine ⟨rfl, draws_empty m.tryRanges m.maxStack, fun i j => ⟨fun member => ?_, fun follows => ?_⟩,
      fun k block => ?_⟩
    · cases member
    · cases follows.inside.1
    · cases block
  · obtain ⟨consistent, traces⟩ := analyse_traces m frames empty analysed
    rw [build_graph_nonempty m frames empty analysed]
    refine ⟨rfl, draws_graph empty traces, traces.flow, fun k block => ⟨⟨?_, ?_⟩, ?_⟩⟩
    · intro reaches p holds
      exact (is_reachable_iff m frames analysed p).mpr ((reaches_iff empty traces consistent holds).mp reaches)
    · intro all
      have holds := (holds_start m.tryRanges m.analyse.trace empty k block).holds
      exact (reaches_iff empty traces consistent holds).mpr
        ((is_reachable_iff m frames analysed _).mp (all _ holds))
    · intro unreached p holds
      refine Bool.eq_false_iff.mpr fun reachable => unreached ?_
      exact (reaches_iff empty traces consistent holds).mpr ((is_reachable_iff m frames analysed p).mp reachable)

-- The guarded loop as a method.
def guardedMethod : Method where
  owner := ⟨0⟩
  name := "run"
  descriptor := "()V"
  signature := none
  access := Flags.staticFlag
  kind := .method
  exceptions := []
  annotations := []
  maxStack := some 1
  code := guardedLoop
  tryRanges := guardedRange

theorem build_graph_exact_guarded_loop :
    guardedMethod.analyse.result = .ok ⟨#[some 0, some 0, some 1, some 0, some 0, some 0, some 1, some 1,
      some 0, some 1, some 1, some 0]⟩ ∧
    guardedMethod.buildGraph.1.blocks.length = 5 ∧
    Draws guardedLoop.toList guardedRange (some 1) guardedMethod.buildGraph.1 ∧
    guardedMethod.buildGraph.1.Reaches ⟨3⟩ := by
  have accepted : guardedMethod.analyse.result = .ok ⟨#[some 0, some 0, some 1, some 0, some 0, some 0,
      some 1, some 1, some 0, some 1, some 1, some 0]⟩ := by
    decide +kernel
  have five : guardedMethod.buildGraph.1.blocks.length = 5 := by decide +kernel
  have behind : guardedMethod.buildGraph.1.start (3 + 1) = 9 := by decide +kernel
  obtain ⟨_, draws, _, blocks⟩ := build_graph_exact guardedMethod _ accepted
  refine ⟨accepted, five, draws, (blocks 3 (by omega)).1.mpr fun p holds => ?_⟩
  have inside : p < 9 := behind ▸ holds.back
  clear holds
  revert p
  decide

end Flow

end JvmEdit
