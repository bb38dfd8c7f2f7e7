import JvmEdit.Libraries.Standard
import JvmEdit.Proofs.Flow.Graph
import Mathlib.Data.List.Count
set_option autoImplicit false

namespace JvmEdit

namespace Flow

section Code

variable (code : List Instruction) (ranges : List TryRange)

-- The instruction goes on to the one behind it, and names that one by a label.
def namesNext (position : Nat) : Bool :=
  code[position]?.any fun i => i.continues &&
    i.targets.any fun label => (labelTable code).lookup label == some (position + 1)

-- The range covers the position, and its handler stands at the entry.
def guards (position entry : Nat) (range : TryRange) : Bool :=
  ((labelTable code).lookup range.start).any (· ≤ position) &&
    ((labelTable code).lookup range.stop).any (position < ·) &&
    (labelTable code).lookup range.handler == some entry

-- How often a visit of its source reports a transfer, if it does.
def reports : Transfer → Nat
  | .flow source target => if target = source + 1 ∧ namesNext code source = true then 2 else 1
  | .exception source entry => ranges.countP (guards code source entry)

end Code

-- What a visit of a position reports, unless two heights meet on the way.
def Body.transfers [Libraries] (b : Body) (c : Config) : List Transfer :=
  match b.code[c.position]? with
  | some i => (b.moves c.position c.height i).1.map Move.transfer
  | none => []

section Moves

variable {code : List Instruction} {ranges : List TryRange} {limit : Option UInt16}

theorem names_next_iff (position : Nat) (i : Instruction) (here : code[position]? = some i) :
    namesNext code position = true ↔
      i.continues = true ∧ ∃ label ∈ i.targets, Stands code label (position + 1) := by
  rw [namesNext, here]
  simp [lookup_iff_stands]

theorem handler_of_guards (range : TryRange) (h : Handler) (position entry : Nat)
    (made : handlerOf (labelTable code) range = .ok h) :
    guards code position entry range = (h.covers position && h.entry == entry) := by
  unfold handlerOf at made
  split at made
  · rename_i start stop entry' starts stops enters
    cases made
    simp [guards, starts, stops, enters, Handler.covers]
  · cases made

theorem nodup_distinct (positions : List Nat) : (Body.distinct positions).Nodup := by
  have general : ∀ seen : List Nat, seen.Nodup → (positions.foldl
      (fun seen p => if seen.contains p then seen else seen ++ [p]) seen).Nodup := by
    induction positions with
    | nil => exact fun _ nodup => nodup
    | cons p positions ih =>
        intro seen nodup
        rw [List.foldl_cons]
        apply ih
        split
        · exact nodup
        · rename_i unseen
          rw [List.contains_iff_mem] at unseen
          rw [← List.concat_eq_append]
          exact nodup.concat unseen
  exact general [] List.nodup_nil

variable {b : Body} (of : b.Of code ranges limit)

include of

theorem Body.Of.jump_goals (position before after : Nat) (id : InsnId) (opcode : Opcode) (label : LabelId)
    (ss : List (Nat × Nat))
    (done : b.successors position before after ⟨id, opcode, .jump label⟩ = .ok ss) :
    ∃ target, Stands code label target ∧
      (opcode.isUnconditionalBranch = true ∧ ss.map Prod.fst = [target] ∨
        opcode.isUnconditionalBranch = false ∧ (ss.map Prod.fst).Perm [position + 1, target]) := by
  obtain ⟨target, stands, ways⟩ := of.jump_cases position before after id opcode label ss done
  refine ⟨target, stands, ?_⟩
  rcases ways with ⟨_, falls, _, rfl⟩ | ⟨_, straight, rfl⟩ | ⟨_, falls, _, rfl⟩
  · exact .inr ⟨falls, .swap _ _ _⟩
  · exact .inl ⟨straight, rfl⟩
  · exact .inr ⟨falls, .refl _⟩

theorem Body.Of.count_successors (position before after : Nat) (i : Instruction)
    (ss : List (Nat × Nat)) (here : code[position]? = some i)
    (done : b.successors position before after i = .ok ss) (goal : Nat)
    (member : goal ∈ ss.map Prod.fst) : (ss.map Prod.fst).count goal =
      if goal = position + 1 ∧ namesNext code position = true then 2 else 1 := by
  have twice := names_next_iff position i here
  obtain ⟨id, opcode, operand⟩ := i
  cases operand with
  | jump label =>
      obtain ⟨target, stands, ways⟩ := of.jump_goals position before after id opcode label ss done
      simp only [Instruction.targets, Operand.targets, List.mem_singleton, exists_eq_left,
        Instruction.continues, stands.iff] at twice
      rcases ways with ⟨straight, goals⟩ | ⟨falls, goals⟩
      · have once : ¬(goal = position + 1 ∧ namesNext code position = true) := by
          rw [twice, straight]
          simp
        rw [goals, List.mem_singleton] at member
        rw [goals, if_neg once, member]
        exact List.count_singleton_self
      · rw [falls, Bool.not_false, eq_self, true_and] at twice
        rw [goals.mem_iff] at member
        rw [goals.count_eq, List.count_cons, List.count_singleton]
        grind
  | switch otherwise cases =>
      simp only [Body.successors] at done
      obtain ⟨targets, _, result⟩ := except_bind _ _ _ done
      cases result
      have once : ¬(goal = position + 1 ∧ namesNext code position = true) := by
        rw [twice]
        simp [Instruction.continues]
      have goals : ((Body.distinct targets).map fun target => (target, after)).map Prod.fst =
          Body.distinct targets := by
        rw [List.map_map]
        exact List.map_id _
      rw [if_neg once]
      rw [goals] at member ⊢
      exact List.count_eq_one_of_mem (nodup_distinct targets) member
  | _ =>
      have once : ¬(goal = position + 1 ∧ namesNext code position = true) := by
        rw [twice]
        simp [Instruction.targets, Operand.targets]
      rw [if_neg once]
      simp only [Body.successors] at done
      split at done
      · cases done
        cases member
      · obtain ⟨next, _, result⟩ := except_bind _ _ _ done
        cases result
        obtain rfl := List.mem_singleton.mp member
        exact List.count_singleton_self

end Moves

section Handlers

variable {code : List Instruction} {ranges : List TryRange} {limit : Option UInt16} {b : Body}
  (made : body? code ranges limit = .ok b)

include made

theorem body?_handlers :
    List.Forall₂ (fun range h => handlerOf (labelTable code) range = .ok h) ranges b.handlers := by
  obtain ⟨handlers, resolved, rfl⟩ := except_map _ _ _ made
  exact except_map_m (handlerOf (labelTable code)) ranges handlers resolved

theorem count_handler_entries (position entry : Nat) :
    (b.handlerEntries position).count entry = ranges.countP (guards code position entry) := by
  have each := body?_handlers made
  clear made
  rw [Body.handlerEntries, List.count, List.countP_map, List.countP_filter]
  generalize b.handlers = handlers at each ⊢
  induction each with
  | nil => rfl
  | @cons range h ranges handlers first _ ih =>
      rw [List.countP_cons, List.countP_cons, ih, handler_of_guards range h position entry first,
        Bool.and_comm]
      rfl

end Handlers

theorem Body.transfers_eq [Libraries] (b : Body) (c : Config) (i : Instruction)
    (here : b.code[c.position]? = some i) :
    ∃ goals, b.transfers c = (b.handlerEntries c.position).map (Transfer.exception c.position) ++
        goals.map (Transfer.flow c.position) ∧
      (goals = [] ∨ ∃ after ss, b.successors c.position c.height after i = .ok ss ∧
        goals = ss.map Prod.fst) := by
  have entering : (b.handlerMoves c.position).map Move.transfer =
      (b.handlerEntries c.position).map (Transfer.exception c.position) := List.map_map
  rw [Body.transfers, here]
  dsimp only
  cases carried : b.heightAfter c.position c.height i with
  | error e =>
      refine ⟨[], ?_, .inl rfl⟩
      rw [b.moves_failed _ _ i e carried, List.map_nil, List.append_nil]
      exact entering
  | ok after =>
      rw [b.moves_carried _ _ after i carried]
      cases led : b.successors c.position c.height after i with
      | error e =>
          refine ⟨[], ?_, .inl rfl⟩
          rw [List.map_nil, List.append_nil]
          exact entering
      | ok ss =>
          refine ⟨ss.map Prod.fst, ?_, .inr ⟨after, ss, led, rfl⟩⟩
          rw [List.map_append, entering, List.map_map, List.map_map]
          rfl

theorem Body.source_of_mem_transfers [Libraries] (b : Body) (c : Config) (t : Transfer)
    (member : t ∈ b.transfers c) : t.source = c.position := by
  cases here : b.code[c.position]? with
  | none =>
      rw [Body.transfers, here] at member
      cases member
  | some i =>
      obtain ⟨goals, transfers, _⟩ := b.transfers_eq c i here
      rw [transfers, List.mem_append, List.mem_map, List.mem_map] at member
      rcases member with ⟨entry, _, rfl⟩ | ⟨goal, _, rfl⟩
      · rfl
      · rfl

theorem count_transfers [Libraries] {code : List Instruction} {ranges : List TryRange}
    {limit : Option UInt16}
    {b : Body} (made : body? code ranges limit = .ok b) (c : Config) (t : Transfer)
    (member : t ∈ b.transfers c) : (b.transfers c).count t = reports code ranges t := by
  have of := body?_ok made
  have source := b.source_of_mem_transfers c t member
  cases here : b.code[c.position]? with
  | none =>
      rw [Body.transfers, here] at member
      cases member
  | some i =>
      obtain ⟨goals, transfers, known⟩ := b.transfers_eq c i here
      rw [transfers] at member ⊢
      rw [List.count_append]
      cases t with
      | flow p goal =>
          cases source
          have none : ((b.handlerEntries c.position).map (Transfer.exception c.position)).count
              (.flow c.position goal) = 0 := by
            rw [List.count_eq_zero, List.mem_map]
            rintro ⟨_, _, same⟩
            cases same
          have onward : Transfer.flow c.position goal ∈ goals.map (Transfer.flow c.position) := by
            rcases List.mem_append.mp member with raised | onward
            · exact absurd raised (List.count_eq_zero.mp none)
            · exact onward
          obtain ⟨_, among, same⟩ := List.mem_map.mp onward
          cases same
          rw [none, Nat.zero_add, List.count_map_of_injective goals _
            (fun _ _ same => (Transfer.flow.inj same).2) goal]
          rcases known with rfl | ⟨after, ss, led, rfl⟩
          · cases among
          · exact of.count_successors _ _ after i ss ((of.at c.position).symm.trans here) led goal among
      | exception p entry =>
          cases source
          have none : (goals.map (Transfer.flow c.position)).count (.exception c.position entry) = 0 := by
            rw [List.count_eq_zero, List.mem_map]
            rintro ⟨_, _, same⟩
            cases same
          rw [none, Nat.add_zero, List.count_map_of_injective (b.handlerEntries c.position) _
            (fun _ _ same => (Transfer.exception.inj same).2) entry]
          exact count_handler_entries made c.position entry

theorem count_visits [Libraries] {code : List Instruction} {ranges : List TryRange}
    {limit : Option UInt16}
    {b : Body} (made : body? code ranges limit = .ok b) (visited : List Config)
    (distinct : (visited.map Config.position).Nodup) (t : Transfer)
    (member : t ∈ visited.flatMap b.transfers) :
    (visited.flatMap b.transfers).count t = reports code ranges t := by
  induction visited with
  | nil => cases member
  | cons c visited ih =>
      rw [List.map_cons, List.nodup_cons] at distinct
      rw [List.flatMap_cons] at member ⊢
      rw [List.count_append]
      by_cases here : t ∈ b.transfers c
      · have elsewhere : t ∉ visited.flatMap b.transfers := by
          intro later
          obtain ⟨d, among, there⟩ := List.mem_flatMap.mp later
          have source := b.source_of_mem_transfers c t here
          rw [b.source_of_mem_transfers d t there] at source
          exact distinct.1 (source ▸ List.mem_map_of_mem among)
        rw [count_transfers made c t here, List.count_eq_zero_of_not_mem elsewhere, Nat.add_zero]
      · have later := (List.mem_append.mp member).resolve_left here
        rw [List.count_eq_zero_of_not_mem here, Nat.zero_add, ih distinct.2 later]

namespace Walk

-- Heights stay, and what waits did so before or was without a height.
structure Extends (w w' : Walk) : Prop where
  unsettled : ∀ p, w'.height? p = none → w.height? p = none
  waits : ∀ p ∈ w'.pending, p ∈ w.pending ∨ w.height? p = none

theorem Extends.refl (w : Walk) : w.Extends w := ⟨fun _ none => none, fun _ member => .inl member⟩

theorem Extends.trans {w w' w'' : Walk} (first : w.Extends w') (second : w'.Extends w'') :
    w.Extends w'' where
  unsettled p none := first.unsettled p (second.unsettled p none)
  waits p member := by
    rcases second.waits p member with old | none
    · exact first.waits p old
    · exact .inr (first.unsettled p none)

theorem extends_arrive (w : Walk) (position height : Nat) : w.Extends (w.arrive position height).1 := by
  rcases w.arrive_cases position height with ⟨unsettled, settles⟩ | same
  · rw [settles]
    refine ⟨fun p none => ?_, fun p member => ?_⟩
    · rw [height?_settle w position height (w.inside_of_unsettled position unsettled)] at none
      split at none
      · cases none
      · exact none
    · rcases List.mem_cons.mp member with rfl | old
      · exact .inr (w.height?_unsettled p unsettled)
      · exact .inl old
  · rw [same]
    exact .refl w

theorem extends_follow (w : Walk) (moves : List Move) : w.Extends (w.follow moves).1 := by
  induction moves generalizing w with
  | nil => exact .refl w
  | cons m moves ih =>
      have noted : w.Extends { w with trace := m.transfer :: w.trace } :=
        ⟨fun _ none => none, fun _ member => .inl member⟩
      have arrives := extends_arrive { w with trace := m.transfer :: w.trace } m.transfer.target m.height
      rw [follow]
      split
      · rename_i next arrived
        rw [arrived] at arrives
        exact (noted.trans arrives).trans (ih next)
      · rename_i next e arrived
        rw [arrived] at arrives
        exact noted.trans arrives

section Visit

variable (b : Body) (w : Walk) (c : Config) (i : Instruction) (settled : w.height? c.position = some c.height)
  (here : b.code[c.position]? = some i)

include settled here

theorem visit_follow [Libraries] : (w.visit b c.position).1 =
    (w.follow (b.moves c.position c.height i).1).1 ∧
    ((w.visit b c.position).2 = none → (w.follow (b.moves c.position c.height i).1).2 = none) := by
  rw [visit_eq b w c.position c.height i settled here]
  split
  · rename_i next e followed
    rw [followed]
    exact ⟨rfl, id⟩
  · rename_i next followed
    rw [followed]
    exact ⟨rfl, fun _ => rfl⟩

theorem trace_visit [Libraries] : ∃ noted, noted <+: b.transfers c ∧
    (w.visit b c.position).1.trace = noted.reverse ++ w.trace ∧
      ((w.visit b c.position).2 = none → noted = b.transfers c) := by
  obtain ⟨same, clean⟩ := visit_follow b w c i settled here
  obtain ⟨noted, part, trace, all⟩ := w.trace_follow (b.moves c.position c.height i).1
  have transfers : b.transfers c = (b.moves c.position c.height i).1.map Move.transfer := by
    rw [Body.transfers, here]
  rw [transfers, same]
  exact ⟨noted, part, trace, fun done => all (clean done)⟩

theorem extends_visit [Libraries] : w.Extends (w.visit b c.position).1 := by
  rw [(visit_follow b w c i settled here).1]
  exact w.extends_follow _

end Visit

-- The configurations visited so far, each position once, have been reported in turn.
structure Visited [Libraries] (b : Body) (w : Walk) (visited : List Config) : Prop where
  trace : w.trace.reverse = visited.flatMap b.transfers
  distinct : (visited.map Config.position).Nodup
  settled : ∀ c ∈ visited, w.height? c.position = some c.height
  left : ∀ c ∈ visited, c.position ∉ w.pending

theorem Visited.fresh [Libraries] {b : Body} {w : Walk} {visited : List Config}
    (log : w.Visited b visited) {c : Config}
    (waits : c.position ∈ w.pending) : ((visited ++ [c]).map Config.position).Nodup := by
  rw [List.map_append, List.map_singleton, ← List.concat_eq_append]
  apply log.distinct.concat
  intro before
  obtain ⟨d, among, same⟩ := List.mem_map.mp before
  exact log.left d among (same ▸ waits)

section Run

variable {code : List Instruction} {ranges : List TryRange} {limit : Option UInt16} {b : Body}
  (of : b.Of code ranges limit)

include of

theorem visited_visit [Libraries] (w w' : Walk) (k : Nat) (c : Config) (visited : List Config)
    (explores : w.Explores code ranges limit) (log : w.Visited b visited)
    (taken : w.pending[k]? = some c.position) (settled : w.height? c.position = some c.height)
    (done : ({ w with pending := w.pending.eraseIdx k } : Walk).visit b c.position = (w', none)) :
    w'.Visited b (visited ++ [c]) := by
  obtain ⟨i, here⟩ := (explores.reached _ _ settled).instruction
  have at_ := (of.at c.position).trans here
  obtain ⟨noted, _, trace, all⟩ := trace_visit b { w with pending := w.pending.eraseIdx k } c i settled at_
  have later := extends_visit b { w with pending := w.pending.eraseIdx k } c i settled at_
  have grows := (visit_none of _ w' c.position c.height (explores.take k) settled done).2.1
  rw [done] at trace all later
  have kept : ∀ d ∈ visited ++ [c], w'.height? d.position = some d.height := by
    intro d among
    rcases List.mem_append.mp among with before | now
    · exact grows.kept _ _ (log.settled d before)
    · cases List.mem_singleton.mp now
      exact grows.kept _ _ settled
  have apart : ∀ d ∈ visited ++ [c], d.position ∉ w.pending.eraseIdx k := by
    intro d among waits
    rcases List.mem_append.mp among with before | now
    · exact log.left d before (List.mem_of_mem_eraseIdx waits)
    · cases List.mem_singleton.mp now
      obtain ⟨j, other, same⟩ := List.mem_eraseIdx_iff_getElem?.mp waits
      have inside := (List.getElem?_eq_some_iff.mp taken).1
      exact other ((List.getElem?_inj inside explores.nodup).mp (taken.trans same.symm)).symm
  refine ⟨?_, log.fresh (List.mem_of_getElem? taken), kept, fun d among waits => ?_⟩
  · rw [trace, all rfl, List.reverse_append, List.reverse_reverse, List.flatMap_append,
      List.flatMap_singleton]
    exact congrArg (· ++ b.transfers c) log.trace
  · rcases later.waits d.position waits with old | none
    · exact apart d among old
    · rcases List.mem_append.mp among with before | now
      · cases (log.settled d before).symm.trans none
      · cases List.mem_singleton.mp now
        cases settled.symm.trans none

theorem trace_run_by [Libraries] (choose : Walk → Nat) (visits : Nat) (w : Walk) (visited : List Config)
    (explores : w.Explores code ranges limit) (log : w.Visited b visited) :
    ∃ all : List Config, (all.map Config.position).Nodup ∧
      (w.runBy choose b visits).1.trace.reverse <+: all.flatMap b.transfers ∧
        ((w.runBy choose b visits).2 = none →
          (w.runBy choose b visits).1.trace.reverse = all.flatMap b.transfers) := by
  have stopped : ∃ all : List Config, (all.map Config.position).Nodup ∧
      w.trace.reverse <+: all.flatMap b.transfers ∧
        ((none : Option FlowError) = none → w.trace.reverse = all.flatMap b.transfers) :=
    ⟨visited, log.distinct, log.trace ▸ List.prefix_rfl, fun _ => log.trace⟩
  induction visits generalizing w visited with
  | zero => exact stopped
  | succ visits ih =>
      rw [runBy]
      split
      · exact stopped
      · rename_i position taken
        have waits := List.mem_of_getElem? taken
        obtain ⟨height, settled⟩ := explores.settled position waits
        split
        · rename_i next done
          have exploresNext := (explores_visit of w next _ position explores taken done).1
          have logNext := visited_visit of w next _ ⟨position, height⟩ visited explores log taken settled done
          exact ih next (visited ++ [⟨position, height⟩]) exploresNext logNext
            ⟨_, logNext.distinct, logNext.trace ▸ List.prefix_rfl, fun _ => logNext.trace⟩
        · rename_i next e refused
          obtain ⟨i, here⟩ := (explores.reached _ _ settled).instruction
          obtain ⟨noted, part, trace, _⟩ := trace_visit b { w with pending := w.pending.eraseIdx _ }
            ⟨position, height⟩ i settled ((of.at position).trans here)
          rw [refused] at trace
          refine ⟨visited ++ [⟨position, height⟩], log.fresh waits, ?_, fun clean => by cases clean⟩
          dsimp only at trace ⊢
          rw [trace, List.reverse_append, List.reverse_reverse, log.trace, List.flatMap_append,
            List.flatMap_singleton]
          exact (List.prefix_append_right_inj _).mpr part

end Run

end Walk

theorem trace_analyse [Libraries] (code : Stream) (ranges : List TryRange) (limit : Option UInt16) :
    (analyse code ranges limit).trace = [] ∨ ∃ (b : Body) (visited : List Config),
      body? code.toList ranges limit = .ok b ∧ (visited.map Config.position).Nodup ∧
        (analyse code ranges limit).trace <+: visited.flatMap b.transfers ∧
          ∀ frames, (analyse code ranges limit).result = .ok frames →
            (analyse code ranges limit).trace = visited.flatMap b.transfers := by
  rw [analyse_eq]
  by_cases empty : code.toList = []
  · exact .inl (congrArg Analysis.trace (analyse_by_empty _ code ranges limit empty))
  · have code_ : ¬code.isEmpty = true := by simpa [Stream.isEmpty] using empty
    rw [analyseBy, if_neg code_]
    cases made : body? code.toList ranges limit with
    | error e => exact .inl rfl
    | ok b =>
        have of := body?_ok made
        have log : b.start.Visited b [] :=
          ⟨rfl, List.nodup_nil, List.forall_mem_nil _, List.forall_mem_nil _⟩
        obtain ⟨visited, distinct, part, whole⟩ :=
          Walk.trace_run_by of (fun _ => 0) b.size b.start [] (of.explores_start empty) log
        refine .inr ⟨b, visited, rfl, distinct, part, fun frames accepted => whole ?_⟩
        dsimp only [Body.analyseBy] at accepted
        cases fault : (b.start.runBy (fun _ => 0) b b.size).2 with
        | none => rfl
        | some e =>
            rw [fault] at accepted
            cases accepted

theorem count_analyse_le [Libraries] (code : Stream) (ranges : List TryRange)
    (limit : Option UInt16) (t : Transfer) :
    (analyse code ranges limit).trace.count t ≤ reports code.toList ranges t := by
  rcases trace_analyse code ranges limit with nothing | ⟨b, visited, made, distinct, part, _⟩
  · rw [nothing]
    exact Nat.zero_le _
  · refine Nat.le_trans (part.sublist.count_le t) ?_
    by_cases member : t ∈ visited.flatMap b.transfers
    · exact Nat.le_of_eq (count_visits made visited distinct t member)
    · rw [List.count_eq_zero_of_not_mem member]
      exact Nat.zero_le _

theorem count_analyse [Libraries] (code : Stream) (ranges : List TryRange) (limit : Option UInt16)
    (frames : Frames) (accepted : (analyse code ranges limit).result = .ok frames) (t : Transfer)
    (member : t ∈ (analyse code ranges limit).trace) :
    (analyse code ranges limit).trace.count t = reports code.toList ranges t := by
  rcases trace_analyse code ranges limit with nothing | ⟨b, visited, made, distinct, _, whole⟩
  · rw [nothing] at member
    cases member
  · rw [whole frames accepted] at member ⊢
    exact count_visits made visited distinct t member

-- However an analysis ends, it reports a transfer at most once for every range that covers the source and
-- has its handler there, and at most once if it goes on, but twice where the instruction goes on and names
-- the next one as well. So nothing is reported twice where no instruction names the next one in this way,
-- and no two ranges lead from one position to one handler. If the analysis accepts the body, it reports
-- what paths do, and exactly so often.
theorem analyse_reports [Libraries] (code : Stream) (ranges : List TryRange) (limit : Option UInt16) :
    (∀ t, (analyse code ranges limit).trace.count t ≤ reports code.toList ranges t) ∧
    ((∀ position, namesNext code.toList position = false) →
      (∀ position entry, ranges.countP (guards code.toList position entry) ≤ 1) →
        (analyse code ranges limit).trace.Nodup) ∧
    ∀ frames, (analyse code ranges limit).result = .ok frames →
      Traces code.toList ranges limit (analyse code ranges limit).trace ∧
        (∀ t ∈ (analyse code ranges limit).trace,
          (analyse code ranges limit).trace.count t = reports code.toList ranges t) ∧
        ((analyse code ranges limit).trace.Nodup ↔
          ∀ t ∈ (analyse code ranges limit).trace, reports code.toList ranges t = 1) := by
  refine ⟨count_analyse_le code ranges limit, fun straight single => ?_,
    fun frames accepted => ⟨?_, ?_, ?_⟩⟩
  · rw [List.nodup_iff_count_le_one]
    intro t
    refine Nat.le_trans (count_analyse_le code ranges limit t) ?_
    cases t with
    | flow source target => simp [reports, straight]
    | exception source entry => exact single source entry
  · by_cases empty : code.toList = []
    · have nothing : (analyse code ranges limit).trace = [] := by
        rw [analyse_eq, analyse_by_empty _ code ranges limit empty]
      rw [nothing, empty]
      exact traces_empty ranges limit
    · exact (traces_analyse code ranges limit frames empty accepted).2
  · exact count_analyse code ranges limit frames accepted
  · rw [List.nodup_iff_count_eq_one]
    refine forall₂_congr fun t member => ?_
    rw [count_analyse code ranges limit frames accepted t member]

-- A jump that names the next instruction, in a range whose handler is for exceptions of two types.
def shortJump : Stream :=
  ⟨[⟨⟨1⟩, 0xff, .label ⟨1⟩⟩, ⟨⟨2⟩, 0x03, .simple⟩, ⟨⟨3⟩, 0x99, .jump ⟨2⟩⟩, ⟨⟨4⟩, 0xff, .label ⟨2⟩⟩,
    ⟨⟨5⟩, 0xb1, .simple⟩, ⟨⟨6⟩, 0xff, .label ⟨3⟩⟩, ⟨⟨7⟩, 0x57, .simple⟩, ⟨⟨8⟩, 0xb1, .simple⟩]⟩

def shortRanges : List TryRange :=
  [⟨⟨1⟩, ⟨2⟩, ⟨3⟩, some "java/io/IOException"⟩,
    ⟨⟨1⟩, ⟨2⟩, ⟨3⟩, some "java/lang/IllegalStateException"⟩]

-- The guarded loop has nothing of the kind.
theorem analyse_reports_loops :
    (analyse guardedLoop guardedRange (some 1)).trace.Nodup ∧
    (analyse shortJump shortRanges none).result =
      .ok ⟨#[some 0, some 0, some 1, some 0, some 0, some 1, some 1, some 0]⟩ ∧
    (analyse shortJump shortRanges none).trace.count (.exception 1 5) = 2 ∧
    (analyse shortJump shortRanges none).trace.count (.flow 1 2) = 1 ∧
    Follows shortJump.toList shortRanges none 6 7 := by
  have straight : ∀ position, namesNext guardedLoop.toList position = false := by
    intro position
    by_cases inside : position < 12
    · revert position
      decide +kernel
    · rw [namesNext, List.getElem?_eq_none (Nat.le_of_not_lt inside)]
      rfl
  have single : ∀ position entry, guardedRange.countP (guards guardedLoop.toList position entry) ≤ 1 :=
    fun _ _ => List.countP_le_length
  have accepted : (analyse shortJump shortRanges none).result =
      .ok ⟨#[some 0, some 0, some 1, some 0, some 0, some 1, some 1, some 0]⟩ := by
    decide +kernel
  have distinct := (analyse_reports guardedLoop guardedRange (some 1)).2.1 straight single
  obtain ⟨traces, exactly, _⟩ := (analyse_reports shortJump shortRanges none).2.2 _ accepted
  refine ⟨distinct, accepted, ?_, ?_, (traces.flow 6 7).mp (by decide +kernel)⟩
  · exact (exactly (.exception 1 5) (by decide +kernel)).trans (by decide +kernel)
  · exact (exactly (.flow 1 2) (by decide +kernel)).trans (by decide +kernel)

-- The jump is reported twice, and so is a way into the handler.
theorem reports_twice :
    (analyse shortJump [] none).trace = [.flow 0 1, .flow 1 2, .flow 2 3, .flow 2 3, .flow 3 4] ∧
    (analyse shortJump shortRanges none).trace.count (.exception 0 5) = 2 := by
  decide +kernel

end Flow

end JvmEdit
