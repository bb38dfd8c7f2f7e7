import JvmEdit.Proofs.Flow.Edges
import JvmEdit.Proofs.Flow.Exact
import JvmEdit.Proofs.Flow.Partition
import Mathlib.Data.Nat.Find
set_option autoImplicit false

namespace JvmEdit

-- Edges lead from the first block to this one.
def Graph.Reaches (g : Graph) (k : BlockId) : Prop :=
  Relation.ReflTransGen (fun a b => ∃ e ∈ g.edges, e.source = a ∧ e.target = b) ⟨0⟩ k

namespace Flow

section Source

variable (code : List Instruction) (ranges : List TryRange) (limit : Option UInt16)

-- Some path comes to the position.
def Reachable [Libraries] (position : Nat) :
    Prop := ∃ height, Reaches code ranges limit ⟨position, height⟩

-- Some path carries the instruction at the first position out and goes on at the second one.
def Follows [Libraries] (i j : Nat) : Prop := ∃ before after,
  Reaches code ranges limit ⟨i, before⟩ ∧ Flows code limit ⟨i, before⟩ ⟨j, after⟩

-- Some path leaves the first position for a handler at the second one.
def Throws [Libraries] (i j : Nat) : Prop := ∃ before after,
  Reaches code ranges limit ⟨i, before⟩ ∧ Raises code ranges ⟨i, before⟩ ⟨j, after⟩

-- The instruction names the position by a label.
def Names (i j : Nat) : Prop :=
  ∃ insn, code[i]? = some insn ∧ ∃ label ∈ insn.targets, Stands code label j

-- The trace has noted all moves of paths, and no others.
structure Traces [Libraries] (trace : List Transfer) : Prop where
  flow : ∀ i j, .flow i j ∈ trace ↔ Follows code ranges limit i j
  exception : ∀ i j, .exception i j ∈ trace ↔ Throws code ranges limit i j

end Source

section Paths

variable {code : List Instruction} {ranges : List TryRange} {limit : Option UInt16}

theorem Walk.Explores.traces [Libraries] {w : Walk} (explores : w.Explores code ranges limit)
    (finished : w.pending = []) : Traces code ranges limit w.trace := by
  refine ⟨fun i j => ⟨fun noted => ?_, ?_⟩, fun i j => ⟨fun noted => ?_, ?_⟩⟩
  · obtain ⟨⟨_, before⟩, ⟨_, after⟩, reaches, takes, rfl⟩ := explores.traced _ noted
    obtain ⟨rfl, flows⟩ := takes
    exact ⟨before, after, reaches, flows⟩
  · rintro ⟨before, after, reaches, flows⟩
    exact ((explores.closed finished _ reaches).2.followed ⟨.flow i j, after⟩ ⟨rfl, flows⟩).2
  · obtain ⟨⟨_, before⟩, ⟨_, after⟩, reaches, takes, rfl⟩ := explores.traced _ noted
    obtain ⟨rfl, raises⟩ := takes
    exact ⟨before, after, reaches, raises⟩
  · rintro ⟨before, after, reaches, raises⟩
    exact ((explores.closed finished _ reaches).2.followed ⟨.exception i j, after⟩ ⟨rfl, raises⟩).2

theorem traces_analyse [Libraries] (code : Stream) (ranges : List TryRange) (limit : Option UInt16)
    (frames : Frames)
    (nonempty : code.toList ≠ []) (analysed : (analyse code ranges limit).result = .ok frames) :
    Consistent code.toList ranges limit ∧
      Traces code.toList ranges limit (analyse code ranges limit).trace := by
  rw [analyse_eq] at analysed ⊢
  obtain ⟨consistent, w, _, trace, explores, finished⟩ :=
    analyse_by_ok _ code ranges limit nonempty frames analysed
  have traces := explores.traces finished
  refine ⟨consistent, trace ▸ ⟨fun i j => ?_, fun i j => ?_⟩⟩
  · rw [List.mem_reverse, traces.flow]
  · rw [List.mem_reverse, traces.exception]

theorem analyse_traces [Libraries] (m : Method) (frames : Frames) (nonempty : m.code.toList ≠ [])
    (analysed : m.analyse.result = .ok frames) :
    Consistent m.code.toList m.tryRanges m.maxStack ∧
      Traces m.code.toList m.tryRanges m.maxStack m.analyse.trace :=
  traces_analyse m.code m.tryRanges m.maxStack frames nonempty analysed

theorem Flows.next_or_named [Libraries] {c d : Config} (flows : Flows code limit c d) :
    (d.position = c.position + 1 ∧ d.position < code.length) ∨ Names code c.position d.position := by
  cases flows with
  | target here _ named stands => exact Or.inr ⟨_, here, _, named, stands⟩
  | next _ _ _ _ inside => exact Or.inl ⟨rfl, inside⟩
  | comeBack _ _ _ inside => exact Or.inl ⟨rfl, inside⟩

theorem Follows.next_or_named [Libraries] {i j : Nat} (follows : Follows code ranges limit i j) :
    (j = i + 1 ∧ j < code.length) ∨ Names code i j := by
  obtain ⟨before, after, _, flows⟩ := follows
  exact flows.next_or_named

theorem Follows.inside [Libraries] {i j : Nat} (follows : Follows code ranges limit i j) :
    i < code.length ∧ j < code.length := by
  obtain ⟨before, after, reaches, flows⟩ := follows
  exact ⟨reaches.inside, (show Steps code ranges limit _ _ from Or.inl flows).inside⟩

theorem Throws.inside [Libraries] {i j : Nat} (throws : Throws code ranges limit i j) :
    i < code.length ∧ j < code.length := by
  obtain ⟨before, after, reaches, raises⟩ := throws
  exact ⟨reaches.inside, (show Steps code ranges limit _ _ from Or.inr raises).inside⟩

theorem traces_empty [Libraries] (ranges : List TryRange) (limit : Option UInt16) : Traces
    [] ranges limit [] where
  flow i j := by
    refine iff_of_false List.not_mem_nil fun follows => ?_
    cases follows.inside.1
  exception i j := by
    refine iff_of_false List.not_mem_nil fun throws => ?_
    cases throws.inside.1

theorem Names.starts {i j : Nat} (names : Names code i j) : Starts code ranges j := by
  obtain ⟨insn, here, label, named, stands⟩ := names
  exact ⟨stands.1.inside,
    Or.inr (Or.inr (Or.inl ⟨insn, List.mem_of_getElem? here, label, named, stands⟩))⟩

theorem Names.ends {i j : Nat} (names : Names code i j) :
    ∃ insn, code[i]? = some insn ∧ Ends insn := by
  obtain ⟨insn, here, label, named, _⟩ := names
  exact ⟨insn, here, Or.inl (List.ne_nil_of_mem named)⟩

theorem Raises.starts {c d : Config} (raises : Raises code ranges c d) :
    Starts code ranges d.position := by
  cases raises with
  | handler member _ _ enters _ _ =>
      exact ⟨enters.1.inside,
        Or.inr (Or.inr (Or.inr ⟨_, member, _, by simp, enters⟩))⟩

theorem Throws.starts [Libraries] {i j : Nat} (throws : Throws code ranges limit i j) :
    Starts code ranges j := by
  obtain ⟨before, after, _, raises⟩ := throws
  exact raises.starts

theorem starts_behind {p : Nat} {i : Instruction} (here : code[p]? = some i) (ends : Ends i) :
    p + 1 = code.length ∨ Starts code ranges (p + 1) := by
  have inside := (List.getElem?_eq_some_iff.mp here).1
  rcases Nat.lt_or_ge (p + 1) code.length with more | done
  · exact Or.inr ⟨more, Or.inr (Or.inl ⟨p, i, here, ends, rfl⟩)⟩
  · exact Or.inl (by omega)

theorem continues_of_not_ends {i : Instruction} (runs : ¬Ends i) :
    i.continues = true ∧ i.callsSubroutine = false := by
  obtain ⟨id, opcode, operand⟩ := i
  simp only [Ends, not_or, not_not, Bool.not_eq_true] at runs
  obtain ⟨none, stays⟩ := runs
  cases operand <;>
    simp_all [Instruction.targets, Operand.targets, Instruction.continues, Instruction.callsSubroutine]

theorem carries_of_faultless [Libraries] {p height : Nat} {i : Instruction} (here : code[p]? = some i)
    (faultless : ¬Faulty code limit ⟨p, height⟩) : ∃ after, Carries limit i height after := by
  cases read : effect i.opcode i.operand with
  | error text =>
      obtain ⟨call, unreadable⟩ := (effect_error_iff i text).mp read
      exact absurd (Faulty.descriptor here call unreadable) faultless
  | ok slots =>
      obtain ⟨pops, pushes⟩ := slots
      refine ⟨height - pops + pushes, pops, pushes, read, ?_, rfl, fun bound bounded => ?_⟩
      · exact Nat.le_of_not_lt fun low => faultless (.underflow here read low)
      · exact Nat.le_of_not_lt fun high => faultless (.overflow here read bounded high)

theorem Reachable.follow [Libraries] {i j : Nat} (follows : Follows code ranges limit i j) :
    Reachable code ranges limit j := by
  obtain ⟨before, after, reaches, flows⟩ := follows
  exact ⟨after, reaches.1, reaches.2.tail (Or.inl flows)⟩

theorem Reachable.throw [Libraries] {i j : Nat} (throws : Throws code ranges limit i j) :
    Reachable code ranges limit j := by
  obtain ⟨before, after, reaches, raises⟩ := throws
  exact ⟨after, reaches.1, reaches.2.tail (Or.inr raises)⟩

theorem Reachable.before [Libraries] {p : Nat} (reachable : Reachable code ranges limit (p + 1))
    (inner : ¬Starts code ranges (p + 1)) : Reachable code ranges limit p := by
  obtain ⟨height, nonempty, path⟩ := reachable
  rcases path.cases_tail with start | ⟨d, path', flows | raises⟩
  · cases start
  · rcases flows.next_or_named with ⟨next, _⟩ | named
    · obtain rfl : p = d.position := Nat.succ.inj next
      exact ⟨d.height, nonempty, path'⟩
    · exact absurd named.starts inner
  · exact absurd raises.starts inner

end Paths

section Edges

variable (code : List Instruction) (ranges : List TryRange) (limit : Option UInt16)

-- The edge stands for control that goes on from the last instruction of a block.
structure Carried [Libraries] (g : Graph) (i j : Nat) (e : FlowEdge) : Prop where
  follows : Follows code ranges limit i j
  source : g.Last e.source.val i
  target : g.Holds e.target.val j
  kind : (e.kind = .branch ∧ Names code i j) ∨ (e.kind = .fallThrough ∧ ¬Names code i j)
  cause : (code[i]?).map (·.id) = some e.cause

-- The edge stands for handlers that control enters at the start of a block from some instruction of
-- another one, first of all from this one.
structure Thrown [Libraries] (g : Graph) (i : Nat) (e : FlowEdge) : Prop where
  source : g.Holds e.source.val i
  target : ∃ j, g.First e.target.val j ∧ Throws code ranges limit i j
  least : ∀ i' j, g.Holds e.source.val i' → g.Holds e.target.val j →
    Throws code ranges limit i' j → i ≤ i'
  kind : e.kind = .exception
  cause : (code[i]?).map (·.id) = some e.cause

def idAt (position : Nat) : InsnId := ((code.toArray[position]?).map (·.id)).getD ⟨0⟩

def carriedEdge (pair : Nat × Nat) : FlowEdge :=
  ⟨⟨blockOf code ranges pair.1⟩, ⟨blockOf code ranges pair.2⟩,
    if branches code.toArray (labelTable code) pair.1 pair.2 then .branch else .fallThrough,
    idAt code pair.1⟩

def thrownEdge (triple : Nat × Nat × Nat) : FlowEdge :=
  ⟨⟨triple.1⟩, ⟨triple.2.1⟩, .exception, idAt code triple.2.2⟩

theorem graph_edges (trace : List Transfer) : (graph code ranges trace).edges =
    ((flowPairs (flags code ranges) trace).map (carriedEdge code ranges) ++
      (exceptionEdges (blockOf code ranges) trace).map (thrownEdge code)).mergeSort edgeLe := rfl

theorem branches_iff (i j : Nat) :
    branches code.toArray (labelTable code) i j = true ↔ Names code i j := by
  unfold branches Names
  rw [List.getElem?_toArray]
  cases code[i]? with
  | none => simp
  | some insn => simp [lookup_iff_stands]

theorem id_at_eq {i : Nat} (inside : i < code.length) :
    (code[i]?).map (·.id) = some (idAt code i) := by
  rw [idAt, List.getElem?_toArray, List.getElem?_eq_getElem inside]
  rfl

variable {code ranges limit}

theorem Carried.unique [Libraries] {g : Graph} {i j : Nat} {e e' : FlowEdge}
    (carried : Carried code ranges limit g i j e) (carried' : Carried code ranges limit g i j e') :
    e = e' := by
  obtain ⟨⟨k⟩, ⟨l⟩, kind, cause⟩ := e
  obtain ⟨⟨k'⟩, ⟨l'⟩, kind', cause'⟩ := e'
  obtain rfl : k = k' := carried.source.holds.unique carried'.source.holds
  obtain rfl : l = l' := carried.target.unique carried'.target
  obtain rfl : cause = cause' := Option.some.inj (carried.cause.symm.trans carried'.cause)
  rcases carried.kind with ⟨rfl, names⟩ | ⟨rfl, not⟩ <;>
    rcases carried'.kind with ⟨rfl, names'⟩ | ⟨rfl, not'⟩
  · rfl
  · exact absurd names not'
  · exact absurd names' not
  · rfl

theorem Thrown.unique [Libraries] {g : Graph} {i i' : Nat} {e e' : FlowEdge}
    (thrown : Thrown code ranges limit g i e) (thrown' : Thrown code ranges limit g i' e')
    (source : e.source = e'.source) (target : e.target = e'.target) : e = e' := by
  obtain ⟨k, l, kind, cause⟩ := e
  obtain ⟨k', l', kind', cause'⟩ := e'
  obtain rfl : k = k' := source
  obtain rfl : l = l' := target
  obtain ⟨j, first, throws⟩ := thrown.target
  obtain ⟨j', first', throws'⟩ := thrown'.target
  have same : i = i' := Nat.le_antisymm (thrown.least i' j' thrown'.source first'.holds throws')
    (thrown'.least i j thrown.source first.holds throws)
  subst same
  obtain rfl : cause = cause' := Option.some.inj (thrown.cause.symm.trans thrown'.cause)
  obtain rfl : kind = kind' := Eq.trans (b := .exception) thrown.kind thrown'.kind.symm
  rfl

end Edges

section Drawn

variable {code : List Instruction} {ranges : List TryRange} {limit : Option UInt16}
  {trace : List Transfer} (nonempty : code ≠ [])

include nonempty

theorem last_of_starts [Libraries] {i j k : Nat} (follows : Follows code ranges limit i j)
    (holds : (graph code ranges trace).Holds k i) (starts : Starts code ranges j) :
    (graph code ranges trace).Last k i := by
  rw [last_iff ranges trace nonempty]
  refine ⟨holds, ?_⟩
  rcases follows.next_or_named with ⟨rfl, _⟩ | names
  · exact Or.inr starts
  · obtain ⟨insn, here, ends⟩ := names.ends
    exact starts_behind here ends

theorem starts_of_last [Libraries] {i j k : Nat} (follows : Follows code ranges limit i j)
    (last : (graph code ranges trace).Last k i) : Starts code ranges j := by
  rcases follows.next_or_named with ⟨rfl, inside⟩ | names
  · rcases ((last_iff ranges trace nonempty k i).mp last).2 with done | starts
    · omega
    · exact starts
  · exact names.starts

theorem next_of_not_last [Libraries] {i j k : Nat} (follows : Follows code ranges limit i j)
    (holds : (graph code ranges trace).Holds k i) (inner : ¬(graph code ranges trace).Last k i) :
    j = i + 1 := by
  rcases follows.next_or_named with ⟨next, _⟩ | names
  · exact next
  · exact absurd (last_of_starts nonempty follows holds names.starts) inner

theorem entry_of_carried [Libraries] {i j : Nat} {e : FlowEdge}
    (carried : Carried code ranges limit (graph code ranges trace) i j e) :
    (graph code ranges trace).First e.target.val j :=
  (first_iff ranges trace nonempty _ j).mpr
    ⟨carried.target, starts_of_last nonempty carried.follows carried.source⟩

theorem thrown_of_throws [Libraries] {a b i j : Nat} (source : (graph code ranges trace).Holds a i)
    (target : (graph code ranges trace).First b j) (throws : Throws code ranges limit i j) :
    ∃ i' e, Thrown code ranges limit (graph code ranges trace) i' e ∧ e.source = ⟨a⟩ ∧
      e.target = ⟨b⟩ := by
  have some_ : ∃ i', (graph code ranges trace).Holds a i' ∧
      ∃ j', (graph code ranges trace).Holds b j' ∧ Throws code ranges limit i' j' :=
    ⟨i, source, j, target.holds, throws⟩
  classical
  obtain ⟨holds, j', holds', throws'⟩ := Nat.find_spec some_
  refine ⟨Nat.find some_, ⟨⟨a⟩, ⟨b⟩, .exception, idAt code (Nat.find some_)⟩,
    ⟨holds, ⟨j', ?_, throws'⟩, ?_, rfl, id_at_eq code throws'.inside.1⟩, rfl, rfl⟩
  · exact (first_iff ranges trace nonempty b j').mpr ⟨holds', throws'.starts⟩
  · exact fun other j'' isHeld isHeld' throws'' =>
      Nat.find_min' some_ ⟨isHeld, j'', isHeld', throws''⟩

variable [Libraries] (traces : Traces code ranges limit trace)

include traces

theorem carried_of_mem (i j : Nat) (member : (i, j) ∈ flowPairs (flags code ranges) trace) :
    Carried code ranges limit (graph code ranges trace) i j (carriedEdge code ranges (i, j)) := by
  have holds := holds_block_of ranges trace nonempty
  rw [mem_flow_pairs, traces.flow, flags_iff] at member
  obtain ⟨follows, starts⟩ := member
  refine ⟨follows, last_of_starts nonempty follows (holds i follows.inside.1) starts,
    holds j follows.inside.2, ?_, id_at_eq code follows.inside.1⟩
  rw [carriedEdge, ← branches_iff]
  cases branches code.toArray (labelTable code) i j <;> simp

theorem mem_carried (e : FlowEdge) :
    e ∈ (flowPairs (flags code ranges) trace).map (carriedEdge code ranges) ↔
      ∃ i j, Carried code ranges limit (graph code ranges trace) i j e := by
  rw [List.mem_map]
  constructor
  · rintro ⟨⟨i, j⟩, member, rfl⟩
    exact ⟨i, j, carried_of_mem nonempty traces i j member⟩
  · rintro ⟨i, j, carried⟩
    have member : (i, j) ∈ flowPairs (flags code ranges) trace := by
      rw [mem_flow_pairs, traces.flow, flags_iff]
      exact ⟨carried.follows, starts_of_last nonempty carried.follows carried.source⟩
    exact ⟨(i, j), member, (carried_of_mem nonempty traces i j member).unique carried⟩

theorem mem_thrown (e : FlowEdge) :
    e ∈ (exceptionEdges (blockOf code ranges) trace).map (thrownEdge code) ↔
      ∃ i, Thrown code ranges limit (graph code ranges trace) i e := by
  have holds := holds_block_of ranges trace nonempty
  have within : ∀ {k p}, (graph code ranges trace).Holds k p → blockOf code ranges p = k :=
    fun {k p} isHeld => (holds p ((holds_iff ranges trace nonempty k p).mp isHeld).1).unique isHeld
  rw [List.mem_map]
  constructor
  · rintro ⟨⟨k, k', i⟩, member, rfl⟩
    rw [mem_exception_edges] at member
    obtain ⟨⟨j, noted, rfl, rfl⟩, least⟩ := member
    have throws := (traces.exception i j).mp noted
    refine ⟨i, holds i throws.inside.1, ⟨j, ?_, throws⟩, fun i' j' source target throws' => ?_, rfl,
      id_at_eq code throws.inside.1⟩
    · exact (first_iff ranges trace nonempty _ j).mpr ⟨holds j throws.inside.2, throws.starts⟩
    · exact least i' j' ((traces.exception i' j').mpr throws') (within source) (within target)
  · rintro ⟨i, thrown⟩
    obtain ⟨⟨k⟩, ⟨k'⟩, kind, cause⟩ := e
    obtain ⟨source, ⟨j, target, throws⟩, least, rfl, isCause⟩ := thrown
    rw [id_at_eq code throws.inside.1] at isCause
    obtain rfl := Option.some.inj isCause
    refine ⟨(k, k', i), ?_, rfl⟩
    rw [mem_exception_edges]
    refine ⟨⟨j, (traces.exception i j).mpr throws, within source, within target.holds⟩, ?_⟩
    intro i' j' noted isSource isTarget
    have throws' := (traces.exception i' j').mp noted
    exact least i' j' (isSource ▸ holds i' throws'.inside.1) (isTarget ▸ holds j' throws'.inside.2) throws'

theorem mem_edges (e : FlowEdge) : e ∈ (graph code ranges trace).edges ↔
    (∃ i j, Carried code ranges limit (graph code ranges trace) i j e) ∨
      ∃ i, Thrown code ranges limit (graph code ranges trace) i e := by
  rw [graph_edges, List.mem_mergeSort, List.mem_append, mem_carried nonempty traces,
    mem_thrown nonempty traces]

theorem nodup_edges : (graph code ranges trace).edges.Nodup := by
  rw [graph_edges, (List.mergeSort_perm _ edgeLe).nodup_iff, List.nodup_append]
  refine ⟨?_, ?_, ?_⟩
  · refine (nodup_flow_pairs (flags code ranges) trace).map_on ?_
    rintro ⟨i, j⟩ member ⟨i', j'⟩ member' same
    have carried := carried_of_mem nonempty traces i j member
    have carried' := carried_of_mem nonempty traces i' j' member'
    have entry := (entry_of_carried nonempty carried).starts
    have source := carried.source.ends
    rw [same] at entry source
    have entry' := (entry_of_carried nonempty carried').starts
    have source' := carried'.source.ends
    rw [Prod.mk.injEq]
    omega
  · refine List.Nodup.of_map (fun e : FlowEdge => (e.source.val, e.target.val)) ?_
    rw [List.map_map]
    exact nodup_exception_edges (blockOf code ranges) trace
  · intro e member e' member' same
    obtain ⟨i, j, carried⟩ := (mem_carried nonempty traces e).mp member
    obtain ⟨i', thrown⟩ := (mem_thrown nonempty traces e').mp member'
    have kind := carried.kind
    rw [same, thrown.kind] at kind
    simp at kind

end Drawn

end Flow

end JvmEdit
