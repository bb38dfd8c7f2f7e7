import JvmEdit.Proofs.Program.Bodies
import JvmEdit.Proofs.Program.Loading
import Mathlib.Data.List.Induction
set_option autoImplicit false

namespace JvmEdit

namespace ClassEvent

-- The body of a method ends here, whether or not there is one.
def endsBody : ClassEvent → Bool
  | header _ | method _ | methodEnd .. | classEnd => true
  | _ => false

def locals (names : LabelId → LabelId) : ClassEvent → List LocalVariable
  | localVariable d => [{
      name := d.name, descriptor := d.descriptor, signature := d.signature
      start := names d.start, stop := names d.stop, slot := d.slot }]
  | _ => []

end ClassEvent

-- An event that is told with labels of its own; those that it numbers stand in its table.
structure Told where
  table : Array LabelId := #[]
  event : ClassEvent

namespace Told

def name (t : Told) (number : LabelId) : LabelId := t.table.getD number.val ⟨0⟩

def code (t : Told) : List (Opcode × Operand) := t.event.code t.name

def ranges (t : Told) : List TryRange := t.event.ranges t.name

def locals (t : Told) : List LocalVariable := t.event.locals t.name

theorem bare_of_other (t : Told) (other : t.event.isPart = false) :
    t.code = [] ∧ t.ranges = [] ∧ t.locals = [] := by
  obtain ⟨table, event⟩ := t
  cases event with
  | instruction | tryRange | localVariable => cases other
  | _ => exact ⟨rfl, rfl, rfl⟩

end Told

namespace PendingBody

-- What has been gathered of a body is what was told, in order.
structure Gathered (body : PendingBody) (told : List Told) : Prop where
  code : body.code.reverse.map (fun i => (i.opcode, i.operand)) = told.flatMap Told.code
  ranges : body.tryRanges.reverse = told.flatMap Told.ranges
  locals : body.locals.reverse = told.flatMap Told.locals

-- A method with the body that has been gathered.
def fill (body : PendingBody) (m : Method) : Method :=
  let code : Stream := ⟨body.code.reverse⟩
  { m with
    code
    tryRanges := body.tryRanges.reverse
    locals := body.locals.reverse.map (LocalVariable.collect code) }

end PendingBody

-- A method holds what was told of it: its instructions, each with an identity of its own, its ranges and
-- its variables, each with the instructions that use it.
structure Method.Holds (m : Method) (told : List Told) : Prop where
  code : m.code.toList.map (fun i => (i.opcode, i.operand)) = told.flatMap Told.code
  distinct : (m.code.toList.map (·.id)).Nodup
  ranges : m.tryRanges = told.flatMap Told.ranges
  locals : List.Forall₂ (fun v w => ∃ references, v = { w with references } ∧
    ∀ insn, insn ∈ references ↔ w.UsedBy m.code.toList insn) m.locals (told.flatMap Told.locals)

theorem PendingBody.Gathered.fill {body : PendingBody} {told : List Told} (gathered : body.Gathered told)
    (distinct : (body.code.map (·.id)).Nodup) (m : Method) : (body.fill m).Holds told where
  code := gathered.code
  distinct := by
    change (body.code.reverse.map (·.id)).Nodup
    rwa [List.map_reverse, List.nodup_reverse]
  ranges := gathered.ranges
  locals := by
    change List.Forall₂ _ (body.locals.reverse.map (LocalVariable.collect ⟨body.code.reverse⟩)) _
    rw [← gathered.locals, List.forall₂_map_left_iff]
    apply List.forall₂_same.mpr
    intro v _
    exact ⟨_, rfl, LocalVariable.mem_collect body.code.reverse v⟩

theorem PendingBody.Gathered.append {body body' : PendingBody} {told : List Told} {t : Told}
    (gathered : body.Gathered told)
    (code : body'.code.reverse.map (fun i => (i.opcode, i.operand)) =
      body.code.reverse.map (fun i => (i.opcode, i.operand)) ++ t.code)
    (ranges : body'.tryRanges.reverse = body.tryRanges.reverse ++ t.ranges)
    (locals : body'.locals.reverse = body.locals.reverse ++ t.locals) : body'.Gathered (told ++ [t]) where
  code := by rw [code, gathered.code, List.flatMap_append, List.flatMap_singleton]
  ranges := by rw [ranges, gathered.ranges, List.flatMap_append, List.flatMap_singleton]
  locals := by rw [locals, gathered.locals, List.flatMap_append, List.flatMap_singleton]

namespace Builder

def tell (b : Builder) (t : Told) : Builder := { b with labels := t.table }.step t.event

def tellAll (b : Builder) (told : List Told) : Builder := told.foldl tell b

-- With the event a method of this identity comes into the program.
def Creates (b : Builder) (t : Told) (id : MethodId) : Prop :=
  b.program.method? id = none ∧ ((b.tell t).program.method? id).isSome

-- What a builder can rely on between events.
structure Sane (b : Builder) : Prop where
  closed : b.openMethod = none → b.body = {}
  fresh : ∀ id, (b.program.method? id).isSome → id.val < b.program.nextId
  distinct : (b.body.code.map (·.id)).Nodup
  drawn : ∀ i ∈ b.body.code, i.id.val < b.program.nextId

-- What comes of an event that does not end a body. A part of a body is gathered while a method is open, with
-- new identities for the instructions.
inductive Gains (b b' : Builder) (t : Told) : Prop
  | apart (other : t.event.isPart = false) (body : b'.body = b.body)
  | dropped (closed : b.openMethod = none) (body : b'.body = b.body) (program : b'.program = b.program)
  | gathered (opened : b.openMethod ≠ none) (drawn : List Instruction)
      (body : b'.body = ⟨drawn.reverse ++ b.body.code, t.ranges.reverse ++ b.body.tryRanges,
        t.locals.reverse ++ b.body.locals⟩)
      (code : drawn.map (fun i => (i.opcode, i.operand)) = t.code)
      (new : ∀ i ∈ drawn, b.program.nextId ≤ i.id.val ∧ i.id.val < b'.program.nextId)
      (distinct : (drawn.map (·.id)).Nodup)

section Steps

variable (b : Builder)

theorem tell_inner (t : Told) (inner : t.event.endsBody = false) : (b.tell t).openMethod = b.openMethod ∧
    (b.tell t).program.methods = b.program.methods ∧ Gains b (b.tell t) t := by
  obtain ⟨table, event⟩ := t
  let labelled : Builder := { b with labels := table }
  have opened (some : ¬b.openMethod.isNone = true) : b.openMethod ≠ none := by
    intro none
    exact some (by rw [none]; rfl)
  cases event with
  | field d =>
      have same : (labelled.enterField d).openMethod = b.openMethod ∧
          (labelled.enterField d).program.methods = b.program.methods ∧
          (labelled.enterField d).body = b.body := by
        unfold enterField
        split
        · exact ⟨rfl, rfl, rfl⟩
        · dsimp only
          split
          · rename_i done
            obtain ⟨_, _, _, rfl⟩ := Program.attach_field_ok _ _ _ _ _ done
            exact ⟨rfl, rfl, rfl⟩
          · exact ⟨rfl, rfl, rfl⟩
      exact ⟨same.1, same.2.1, .apart rfl same.2.2⟩
  | newLabel => exact ⟨rfl, rfl, .apart rfl rfl⟩
  | instruction opcode operand =>
      have told : b.tell ⟨table, .instruction opcode operand⟩ = labelled.addInstruction opcode operand := rfl
      rw [told, addInstruction]
      split
      · rename_i shut
        exact ⟨rfl, rfl, .dropped (Option.isNone_iff_eq_none.mp shut) rfl rfl⟩
      · rename_i some
        refine ⟨rfl, rfl, .gathered (opened some) [_] rfl rfl ?_ (List.nodup_singleton _)⟩
        intro i member
        rw [List.mem_singleton.mp member]
        exact ⟨Nat.le_refl _, Nat.lt_succ_self _⟩
  | tryRange d =>
      have told : b.tell ⟨table, .tryRange d⟩ = labelled.addTryRange d := rfl
      rw [told, addTryRange]
      split
      · rename_i shut
        exact ⟨rfl, rfl, .dropped (Option.isNone_iff_eq_none.mp shut) rfl rfl⟩
      · rename_i some
        exact ⟨rfl, rfl, .gathered (opened some) [] rfl rfl (fun _ none => by cases none) List.nodup_nil⟩
  | localVariable d =>
      have told : b.tell ⟨table, .localVariable d⟩ = labelled.addLocal d := rfl
      rw [told, addLocal]
      split
      · rename_i shut
        exact ⟨rfl, rfl, .dropped (Option.isNone_iff_eq_none.mp shut) rfl rfl⟩
      · rename_i some
        exact ⟨rfl, rfl, .gathered (opened some) [] rfl rfl (fun _ none => by cases none) List.nodup_nil⟩
  | _ => cases inner

theorem tell_idle (t : Told) (inner : t.event.endsBody = false) (closed : b.openMethod = none) :
    (b.tell t).body = b.body ∧ (t.event.isPart = true → (b.tell t).program = b.program) := by
  obtain ⟨_, _, gains⟩ := b.tell_inner t inner
  cases gains with
  | apart other body => exact ⟨body, fun part => by cases other.symm.trans part⟩
  | dropped _ body program => exact ⟨body, fun _ => program⟩
  | gathered opened => exact absurd closed opened

theorem tell_open (t : Told) (inner : t.event.endsBody = false) {id : MethodId}
    (isOpen : b.openMethod = some id) {told : List Told} (gathered : b.body.Gathered told) :
    (b.tell t).body.Gathered (told ++ [t]) := by
  obtain ⟨_, _, gains⟩ := b.tell_inner t inner
  cases gains with
  | apart other body =>
      obtain ⟨code, ranges, locals⟩ := t.bare_of_other other
      rw [body]
      apply gathered.append
      · rw [code, List.append_nil]
      · rw [ranges, List.append_nil]
      · rw [locals, List.append_nil]
  | dropped closed => cases closed.symm.trans isOpen
  | gathered _ drawn body code =>
      rw [body]
      apply gathered.append
      · rw [List.reverse_append, List.reverse_reverse, List.map_append, code]
      · rw [List.reverse_append, List.reverse_reverse]
      · rw [List.reverse_append, List.reverse_reverse]

-- What has been gathered has been brought into the method that was open, if there was one.
structure Shut (b b' : Builder) : Prop where
  closed : b'.openMethod = none
  empty : b'.body = {}
  nextId : b'.program.nextId = b.program.nextId
  others : ∀ id, b.openMethod ≠ some id → b'.program.method? id = b.program.method? id
  filled : ∀ id, b.openMethod = some id → ∃ limit : Method → Method,
    (∀ m, (limit m).name = m.name ∧ (limit m).descriptor = m.descriptor) ∧
      b'.program.method? id = (b.program.method? id).map fun m => b.body.fill (limit m)

variable {b}

theorem Shut.absent {b' : Builder} (shut : Shut b b') {id : MethodId} (none : b.program.method? id = none) :
    b'.program.method? id = .none := by
  by_cases isOpen : b.openMethod = some id
  · obtain ⟨_, _, row⟩ := shut.filled id isOpen
    rw [row, none, Option.map_none]
  · exact (shut.others id isOpen).trans none

variable (idle : b.openMethod = none → b.body = {})

include idle

theorem shut_flush : Shut b b.flush := by
  rw [flush]
  cases isOpen : b.openMethod with
  | none => exact ⟨isOpen, idle isOpen, rfl, fun _ _ => rfl, fun _ same => by cases isOpen.symm.trans same⟩
  | some opened =>
      refine ⟨rfl, rfl, rfl, ?_, ?_⟩
      · intro id apart
        rw [isOpen] at apart
        exact (Program.method?_update_method _ _ _ _).trans (if_neg fun same => apart (congrArg some same))
      · intro id same
        cases isOpen.symm.trans same
        exact ⟨fun m => m, fun _ => ⟨rfl, rfl⟩, (Program.method?_update_method _ _ _ _).trans (if_pos rfl)⟩

theorem shut_end_method (stack slots : Option UInt16) : Shut b (b.endMethod stack slots) := by
  cases isOpen : b.openMethod with
  | none =>
      have same : b.endMethod stack slots = b := by rw [endMethod, isOpen]
      rw [same]
      exact ⟨isOpen, idle isOpen, rfl, fun _ _ => rfl, fun _ same => by cases isOpen.symm.trans same⟩
  | some opened =>
      let limit (m : Method) : Method := { m with maxStack := stack, maxLocals := slots }
      let limited : Builder := { b with program := b.program.updateMethod opened limit }
      have same : b.endMethod stack slots = limited.flush := by simp only [endMethod, isOpen, limited, limit]
      have row (id : MethodId) := Program.method?_update_method b.program opened id limit
      obtain ⟨closed, empty, nextId, others, filled⟩ := shut_flush (b := limited) idle
      rw [same]
      refine ⟨closed, empty, nextId, ?_, ?_⟩
      · intro id apart
        refine (others id apart).trans ((row id).trans (if_neg ?_))
        rintro rfl
        exact apart isOpen
      · intro id same
        cases isOpen.symm.trans same
        obtain ⟨limit', kept, filledRow⟩ := filled opened isOpen
        refine ⟨limit' ∘ limit, fun m => kept (limit m), filledRow.trans ?_⟩
        change ((b.program.updateMethod opened limit).method? opened).map _ = _
        rw [row opened, if_pos rfl, Option.map_map]
        rfl

theorem tell_end (t : Told) (ends : t.event.endsBody = true) : ∃ b', Shut b b' ∧ (b.tell t).body = {} ∧
    ((b.tell t).openMethod = none ∧ (b.tell t).program.methods = b'.program.methods ∨
      ∃ d m, t.event = .method d ∧ (b.tell t).openMethod = some ⟨b.program.nextId⟩ ∧ m.name = d.name ∧
        m.descriptor = d.descriptor ∧ ∀ other, (b.tell t).program.method? other =
          if ⟨b.program.nextId⟩ = other then some m else b'.program.method? other) := by
  obtain ⟨table, event⟩ := t
  have shut : Shut b ({ b with labels := table } : Builder).flush := by
    obtain ⟨closed, empty, nextId, others, filled⟩ := shut_flush (b := { b with labels := table }) idle
    exact ⟨closed, empty, nextId, others, filled⟩
  cases event with
  | header h =>
      refine ⟨_, shut, ?_⟩
      change (enterClass _ h).body = _ ∧ ((enterClass _ h).openMethod = _ ∧
        (enterClass _ h).program.methods = _ ∨ _)
      unfold enterClass
      dsimp only
      split
      · exact ⟨shut.empty, .inl ⟨shut.closed, rfl⟩⟩
      · exact ⟨shut.empty, .inl ⟨shut.closed, rfl⟩⟩
  | method d =>
      refine ⟨_, shut, ?_⟩
      let closed : Builder := { ({ b with labels := table } : Builder).flush with labels := #[] }
      have told : b.tell ⟨table, .method d⟩ = closed.enterMethod d := rfl
      rw [told]
      rcases closed.enter_method_cases shut.closed d with
        ⟨refused, empty, same⟩ | ⟨m, q, entered, name, descriptor, rows⟩
      · exact ⟨empty.trans shut.empty, .inl ⟨refused, same⟩⟩
      · have drawn : closed.program.nextId = b.program.nextId := shut.nextId
        rw [drawn] at entered rows
        rw [entered]
        exact ⟨shut.empty, .inr ⟨d, m, rfl, rfl, name, descriptor, rows⟩⟩
  | methodEnd stack slots =>
      obtain ⟨closed, empty, nextId, others, filled⟩ :=
        shut_end_method (b := { b with labels := table }) idle stack slots
      exact ⟨_, ⟨closed, empty, nextId, others, filled⟩, empty, .inl ⟨closed, rfl⟩⟩
  | classEnd => exact ⟨_, shut, shut.empty, .inl ⟨shut.closed, rfl⟩⟩
  | _ => cases ends

end Steps

section Identities

variable (b : Builder) (t : Told)

theorem next_id_tell : b.program.nextId ≤ (b.tell t).program.nextId := by
  refine step_induct (fun _ => True) (fun p => b.program.nextId ≤ p.nextId) ?_ { b with labels := t.table }
    t.event trivial (Nat.le_refl _)
  intro p q step before
  cases step with
  | fill => exact before
  | limit => exact before
  | _ => exact Nat.le_trans before (Nat.le_add_right ..)

theorem fresh_tell (fresh : ∀ id, (b.program.method? id).isSome → id.val < b.program.nextId) :
    ∀ id, ((b.tell t).program.method? id).isSome → id.val < (b.tell t).program.nextId := by
  refine step_induct (fun _ => True) (fun p => ∀ id, (p.method? id).isSome → id.val < p.nextId) ?_
    { b with labels := t.table } t.event trivial fresh
  intro p q step before id live
  cases step with
  | placeMethod owner name m =>
      rw [Program.method?_place_method] at live
      by_cases own : (⟨p.nextId⟩ : MethodId) = id
      · rw [← own]
        exact Nat.lt_succ_self p.nextId
      · rw [if_neg own] at live
        exact Nat.lt_succ_of_lt (before id live)
  | fill other =>
      rw [Program.method?_update_method, apply_ite Option.isSome, Option.isSome_map, ite_self] at live
      exact before id live
  | limit other =>
      rw [Program.method?_update_method, apply_ite Option.isSome, Option.isSome_map, ite_self] at live
      exact before id live
  | _ => exact Nat.lt_of_lt_of_le (before id live) (Nat.le_add_right ..)

theorem drawn_tell (inner : t.event.endsBody = false)
    (drawn : ∀ i ∈ b.body.code, i.id.val < b.program.nextId) (distinct : (b.body.code.map (·.id)).Nodup) :
    (∀ i ∈ (b.tell t).body.code, i.id.val < (b.tell t).program.nextId) ∧
      ((b.tell t).body.code.map (·.id)).Nodup := by
  have before : ∀ i ∈ b.body.code, i.id.val < (b.tell t).program.nextId :=
    fun i member => Nat.lt_of_lt_of_le (drawn i member) (b.next_id_tell t)
  obtain ⟨_, _, gains⟩ := b.tell_inner t inner
  cases gains with
  | apart _ body =>
      rw [body]
      exact ⟨before, distinct⟩
  | dropped _ body =>
      rw [body]
      exact ⟨before, distinct⟩
  | gathered _ more body _ new apart =>
      rw [body]
      constructor
      · intro i member
        rcases List.mem_append.mp member with last | old
        · exact (new i (List.mem_reverse.mp last)).2
        · exact before i old
      · rw [List.map_append, List.map_reverse]
        refine List.Nodup.append (List.nodup_reverse.mpr apart) distinct ?_
        intro id last old
        obtain ⟨i, member, rfl⟩ := List.mem_map.mp (List.mem_reverse.mp last)
        obtain ⟨j, member', same⟩ := List.mem_map.mp old
        have less := drawn j member'
        rw [same] at less
        exact Nat.lt_irrefl _ (Nat.lt_of_lt_of_le less (new i member).1)

theorem sane_tell (sane : b.Sane) : (b.tell t).Sane := by
  have fresh := b.fresh_tell t sane.fresh
  cases kind : t.event.endsBody with
  | true =>
      obtain ⟨_, _, empty, _⟩ := tell_end sane.closed t kind
      exact ⟨fun _ => empty, fresh, empty ▸ List.nodup_nil, fun i member => by
        rw [empty] at member
        cases member⟩
  | false =>
      obtain ⟨drawn, distinct⟩ := b.drawn_tell t kind sane.drawn sane.distinct
      refine ⟨?_, fresh, distinct, drawn⟩
      intro closed
      have before := (b.tell_inner t kind).1.symm.trans closed
      exact (b.tell_idle t kind before).1.trans (sane.closed before)

end Identities

theorem sane_new (settings : Settings) : (Builder.new (.new settings)).Sane where
  closed _ := rfl
  fresh _ live := by cases live
  distinct := List.nodup_nil
  drawn _ member := by cases member

theorem sane_tell_all {b : Builder} (sane : b.Sane) (told : List Told) : (b.tellAll told).Sane := by
  induction told generalizing b with
  | nil => exact sane
  | cons t told ih => exact ih (b.sane_tell t sane)

theorem tell_all_of_run (b : Builder) (events : List ClassEvent) :
    ∃ told : List Told, told.map Told.event = events ∧ b.tellAll told = b.run events := by
  induction events generalizing b with
  | nil => exact ⟨[], rfl, rfl⟩
  | cons event events ih =>
      obtain ⟨told, rfl, same⟩ := ih (b.step event)
      exact ⟨⟨b.labels, event⟩ :: told, rfl, same⟩

theorem tell_all_append (b : Builder) (told told' : List Told) :
    b.tellAll (told ++ told') = (b.tellAll told).tellAll told' := List.foldl_append

-- What was told between two events that end bodies.
def segment (told : List Told) : List Told := told.takeWhile fun t => !t.event.endsBody

theorem segment_inner (told : List Told) : ∀ t ∈ segment told, t.event.endsBody = false := by
  intro t member
  simpa using List.all_eq_true.mp List.all_takeWhile t member

theorem segment_stops (told : List Told) (last : Told) (ends : last.event.endsBody = true) :
    ∃ stop rest, told ++ [last] = segment told ++ stop :: rest ∧ stop.event.endsBody = true := by
  induction told with
  | nil => exact ⟨last, [], rfl, ends⟩
  | cons t told ih =>
      rw [segment, List.takeWhile_cons]
      cases kind : t.event.endsBody with
      | true => exact ⟨t, told ++ [last], rfl, kind⟩
      | false =>
          obtain ⟨stop, rest, split, stops⟩ := ih
          exact ⟨stop, rest, congrArg (t :: ·) split, stops⟩

section Runs

variable {b : Builder} (sane : b.Sane) {id : MethodId}

include sane

theorem opens_of_creates {t : Told} (creates : b.Creates t id) : ∃ d m, t.event = .method d ∧
    (b.tell t).openMethod = some id ∧ (b.tell t).body = {} ∧ (b.tell t).program.method? id = some m ∧
      m.name = d.name ∧ m.descriptor = d.descriptor := by
  obtain ⟨none, live⟩ := creates
  cases kind : t.event.endsBody with
  | false =>
      rw [Program.method?, (b.tell_inner t kind).2.1] at live
      rw [Program.method?] at none
      rw [none] at live
      cases live
  | true =>
      obtain ⟨b', shut, empty, ⟨_, same⟩ | ⟨d, m, isMethod, opens, name, descriptor, rows⟩⟩ :=
        tell_end sane.closed t kind
      · have absent := shut.absent none
        rw [Program.method?] at absent live
        rw [same, absent] at live
        cases live
      · rw [rows] at live
        by_cases own : (⟨b.program.nextId⟩ : MethodId) = id
        · subst own
          exact ⟨d, m, isMethod, opens, empty, (rows _).trans (if_pos rfl), name, descriptor⟩
        · rw [if_neg own, shut.absent none] at live
          cases live

theorem tell_others (t : Told) {m : Method} (live : b.program.method? id = some m)
    (apart : b.openMethod ≠ some id) :
    (b.tell t).program.method? id = some m ∧ (b.tell t).openMethod ≠ some id := by
  have old := sane.fresh id (live ▸ rfl)
  have later : (⟨b.program.nextId⟩ : MethodId) ≠ id := fun same => by
    subst same
    exact Nat.lt_irrefl _ old
  cases kind : t.event.endsBody with
  | false =>
      obtain ⟨opens, methods, _⟩ := b.tell_inner t kind
      rw [opens, Program.method?, methods]
      exact ⟨live, apart⟩
  | true =>
      obtain ⟨b', shut, _, ⟨closed, same⟩ | ⟨_, m', _, opens, _, _, rows⟩⟩ := tell_end sane.closed t kind
      · rw [Program.method?, same, closed]
        exact ⟨(shut.others id apart).trans live, (Option.some_ne_none id).symm⟩
      · rw [rows, if_neg later, opens]
        exact ⟨(shut.others id apart).trans live, fun same => later (Option.some.inj same)⟩

theorem tell_all_others (told : List Told) {m : Method} (live : b.program.method? id = some m)
    (apart : b.openMethod ≠ some id) : (b.tellAll told).program.method? id = some m := by
  induction told generalizing b with
  | nil => exact live
  | cons t told ih =>
      obtain ⟨live', apart'⟩ := tell_others sane t live apart
      exact ih (b.sane_tell t sane) live' apart'

theorem tell_own (t : Told) (ends : t.event.endsBody = true) {m : Method}
    (live : b.program.method? id = some m) (isOpen : b.openMethod = some id) {told : List Told}
    (gathered : b.body.Gathered told) : ∃ m', (b.tell t).program.method? id = some m' ∧
      m'.name = m.name ∧ m'.descriptor = m.descriptor ∧ m'.Holds told ∧ (b.tell t).openMethod ≠ some id := by
  have old := sane.fresh id (live ▸ rfl)
  have later : (⟨b.program.nextId⟩ : MethodId) ≠ id := fun same => by
    subst same
    exact Nat.lt_irrefl _ old
  obtain ⟨b', shut, _, outcome⟩ := tell_end sane.closed t ends
  obtain ⟨limit, kept, row⟩ := shut.filled id isOpen
  rw [live, Option.map_some] at row
  have holds := gathered.fill sane.distinct (limit m)
  refine ⟨b.body.fill (limit m), ?_, (kept m).1, (kept m).2, holds, ?_⟩
  · rcases outcome with ⟨_, same⟩ | ⟨_, _, _, _, _, _, rows⟩
    · rw [Program.method?, same]
      exact row
    · rw [rows, if_neg later]
      exact row
  · rcases outcome with ⟨closed, _⟩ | ⟨_, _, _, opens, _, _, _⟩
    · rw [closed]
      exact (Option.some_ne_none id).symm
    · rw [opens]
      exact fun same => later (Option.some.inj same)

omit sane in
theorem gathered_inner (inner : List Told) (all : ∀ t ∈ inner, t.event.endsBody = false)
    (isOpen : b.openMethod = some id) {told : List Told} (gathered : b.body.Gathered told) :
    (b.tellAll inner).openMethod = some id ∧ (b.tellAll inner).body.Gathered (told ++ inner) ∧
      (b.tellAll inner).program.methods = b.program.methods := by
  induction inner generalizing b told with
  | nil =>
      rw [List.append_nil]
      exact ⟨isOpen, gathered, rfl⟩
  | cons t inner ih =>
      have kind := all t List.mem_cons_self
      obtain ⟨opens, methods, _⟩ := b.tell_inner t kind
      obtain ⟨isOpen', gathered', methods'⟩ :=
        ih (fun t' member => all t' (List.mem_cons_of_mem _ member)) (opens.trans isOpen)
          (b.tell_open t kind isOpen gathered)
      rw [List.append_assoc] at gathered'
      exact ⟨isOpen', gathered', methods'.trans methods⟩

theorem holds_of_creates {t : Told} (creates : b.Creates t id) (later : List Told) (last : Told)
    (ends : last.event.endsBody = true) : ∃ d m, t.event = .method d ∧
      ((b.tell t).tellAll (later ++ [last])).program.method? id = some m ∧ m.name = d.name ∧
        m.descriptor = d.descriptor ∧ m.Holds (segment later) := by
  obtain ⟨d, m, isMethod, isOpen, empty, live, name, descriptor⟩ := opens_of_creates sane creates
  have start : (b.tell t).body.Gathered [] := by
    rw [empty]
    exact ⟨rfl, rfl, rfl⟩
  obtain ⟨stillOpen, gathered, methods⟩ := gathered_inner (segment later) (segment_inner later) isOpen start
  have sane' := sane_tell_all (b.sane_tell t sane) (segment later)
  rw [Program.method?, ← methods] at live
  obtain ⟨stop, rest, split, stops⟩ := segment_stops later last ends
  obtain ⟨m', live', name', descriptor', holds, apart⟩ := tell_own sane' stop stops live stillOpen gathered
  refine ⟨d, m', isMethod, ?_, name'.trans name, descriptor'.trans descriptor, holds⟩
  rw [split, tell_all_append]
  exact tell_all_others (Builder.sane_tell _ stop sane') rest live' apart

end Runs

-- A method of this identity was created, and no body has ended since.
def Open (b : Builder) (told : List Told) (id : MethodId) : Prop :=
  ∃ before t later, told = before ++ t :: later ∧ (b.tellAll before).Creates t id ∧
    ∀ t' ∈ later, t'.event.endsBody = false

theorem open_method_iff {b : Builder} (sane : b.Sane) (closed : b.openMethod = none) (told : List Told)
    (id : MethodId) : (b.tellAll told).openMethod = some id ↔ b.Open told id := by
  constructor
  · intro isOpen
    induction told using List.reverseRecOn with
    | nil => cases closed.symm.trans isOpen
    | append_singleton told t ih =>
        have now : (b.tellAll (told ++ [t])) = (b.tellAll told).tell t := tell_all_append b told [t]
        rw [now] at isOpen
        cases kind : t.event.endsBody with
        | false =>
            rw [((b.tellAll told).tell_inner t kind).1] at isOpen
            obtain ⟨before, t', later, rfl, creates, inner⟩ := ih isOpen
            refine ⟨before, t', later ++ [t], by rw [List.append_assoc]; rfl, creates, ?_⟩
            intro t'' member
            rcases List.mem_append.mp member with earlier | last
            · exact inner t'' earlier
            · rw [List.mem_singleton.mp last]
              exact kind
        | true =>
            have sane' := sane_tell_all sane told
            refine ⟨told, t, [], rfl, ?_, fun _ member => by cases member⟩
            obtain ⟨b', shut, _, ⟨closed', _⟩ | ⟨_, m, _, opens, _, _, rows⟩⟩ :=
              tell_end sane'.closed t kind
            · cases closed'.symm.trans isOpen
            · cases opens.symm.trans isOpen
              refine ⟨?_, by rw [rows, if_pos rfl]; rfl⟩
              by_contra live
              exact Nat.lt_irrefl _ (sane'.fresh _ (Option.isSome_iff_ne_none.mpr live))
  · intro ⟨before, t, later, split, creates, inner⟩
    obtain ⟨_, _, _, isOpen, empty, _⟩ := opens_of_creates (sane_tell_all sane before) creates
    have start : ((b.tellAll before).tell t).body.Gathered [] := by
      rw [empty]
      exact ⟨rfl, rfl, rfl⟩
    rw [split, tell_all_append]
    exact (gathered_inner later inner isOpen start).1

theorem creates_of_live (b : Builder) (told : List Told) {id : MethodId} (none : b.program.method? id = none)
    (live : ((b.tellAll told).program.method? id).isSome) :
    ∃ before t later, told = before ++ t :: later ∧ (b.tellAll before).Creates t id := by
  induction told generalizing b with
  | nil =>
      rw [show b.tellAll [] = b from rfl, none] at live
      cases live
  | cons t told ih =>
      cases first : (b.tell t).program.method? id with
      | none =>
          obtain ⟨before, t', later, rfl, creates⟩ := ih (b.tell t) first live
          exact ⟨t :: before, t', later, rfl, creates⟩
      | some m => exact ⟨[], t, told, rfl, none, by rw [show b.tellAll [] = b from rfl, first]; rfl⟩

-- Whatever a new program is told, up to the end of a class: every method was created at some event and
-- holds what was told from there up to the next event that ends a body, and what is told of a body while
-- no method is open is dropped.
theorem bodies_apart (settings : Settings) (told : List Told) (table : Array LabelId) :
    let start := Builder.new (.new settings)
    let final := (start.tellAll (told ++ [⟨table, .classEnd⟩])).program
    (∀ id, (final.method? id).isSome →
      ∃ before t later, told = before ++ t :: later ∧ (start.tellAll before).Creates t id) ∧
    (∀ before t later id, told = before ++ t :: later → (start.tellAll before).Creates t id →
      ∃ d m, t.event = .method d ∧ final.method? id = some m ∧ m.name = d.name ∧
        m.descriptor = d.descriptor ∧ m.Holds (segment later)) ∧
    ∀ before t later, told = before ++ t :: later → t.event.isPart = true → (∀ id, ¬start.Open before id) →
      (start.tellAll (before ++ [t])).program = (start.tellAll before).program := by
  intro start final
  have sane : start.Sane := sane_new settings
  have ended : final = ((start.tellAll told).tell ⟨table, .classEnd⟩).program := by
    change (start.tellAll (told ++ [⟨table, .classEnd⟩])).program = _
    rw [tell_all_append]
    rfl
  refine ⟨?_, ?_, ?_⟩
  · intro id live
    rw [ended] at live
    cases before : (start.tellAll told).program.method? id with
    | none =>
        obtain ⟨d, _, isMethod, _⟩ := opens_of_creates (sane_tell_all sane told) ⟨before, live⟩
        cases isMethod
    | some m => exact creates_of_live start told rfl (before ▸ rfl)
  · intro before t later id split creates
    have resumed : final = (((start.tellAll before).tell t).tellAll
        (later ++ [⟨table, .classEnd⟩])).program := by
      rw [ended, split, tell_all_append, tell_all_append]
      rfl
    rw [resumed]
    exact holds_of_creates (sane_tell_all sane before) creates later _ rfl
  · intro before t later _ part shut
    have closed : (start.tellAll before).openMethod = none := by
      by_contra opened
      obtain ⟨id, isOpen⟩ := Option.ne_none_iff_exists'.mp opened
      exact shut id ((open_method_iff sane rfl before id).mp isOpen)
    have inner : t.event.endsBody = false := by
      cases kind : t.event with
      | instruction | tryRange | localVariable => rfl
      | _ =>
          rw [kind] at part
          cases part
    rw [tell_all_append]
    exact ((start.tellAll before).tell_idle t inner closed).2 part

-- A method whose end is missing, one that is refused in its place, and one without a class.
def interrupted : List Told :=
  let header (name : String) : Told := ⟨#[], .header ⟨name, none, [], none, default, 52, [], []⟩⟩
  let method : Told := ⟨#[], .method ⟨"run", "()V", none, .staticFlag, [], []⟩⟩
  [header "A", method, ⟨#[⟨90⟩], .instruction 255 (.label ⟨0⟩)⟩, ⟨#[], .instruction 27 .simple⟩,
    ⟨#[⟨91⟩], .instruction 255 (.label ⟨0⟩)⟩, ⟨#[], .instruction 60 .simple⟩,
    ⟨#[⟨90⟩, ⟨91⟩], .localVariable ⟨"x", "I", none, ⟨0⟩, ⟨1⟩, 1⟩⟩,
    method, ⟨#[], .instruction 177 .simple⟩, header "A", method, ⟨#[], .instruction 177 .simple⟩,
    header "B", method, ⟨#[], .instruction 177 .simple⟩]

theorem bodies_apart_interrupted :
    let start := Builder.new (.new {})
    let final := (start.tellAll (interrupted ++ [⟨#[], .classEnd⟩])).program
    let told := (interrupted.drop 2).take 5
    ((start.tellAll (interrupted.take 1)).Creates interrupted[1] ⟨2⟩ ∧ segment (interrupted.drop 2) = told ∧
      ∀ id, ¬start.Open (interrupted.take 8) id) ∧
    (∃ m, final.method? ⟨2⟩ = some m ∧ m.name = "run" ∧ m.Holds told ∧
      m.locals.map (·.references.toList) = [[⟨4⟩]]) ∧
    (start.tellAll (interrupted.take 9)).program = (start.tellAll (interrupted.take 8)).program ∧
    ∃ before t later, interrupted = before ++ t :: later ∧ (start.tellAll before).Creates t ⟨10⟩ := by
  intro start final told
  have creates : (start.tellAll (interrupted.take 1)).Creates interrupted[1] ⟨2⟩ := by
    constructor
    · decide +kernel
    · decide +kernel
  have shut : ∀ id, ¬start.Open (interrupted.take 8) id := by
    intro id isOpen
    have none : (start.tellAll (interrupted.take 8)).openMethod = none := by decide +kernel
    cases none.symm.trans ((open_method_iff (sane_new {}) rfl _ id).mpr isOpen)
  obtain ⟨made, holds, dropped⟩ := bodies_apart {} interrupted #[]
  obtain ⟨d, m, isMethod, live, name, _, body⟩ :=
    holds (interrupted.take 1) interrupted[1] (interrupted.drop 2) ⟨2⟩ rfl creates
  cases isMethod
  refine ⟨⟨creates, rfl, shut⟩, ⟨m, live, name, body, ?_⟩, ?_, made ⟨10⟩ (by decide +kernel)⟩
  · have uses : (final.method? ⟨2⟩).map (fun m => m.locals.map (·.references.toList)) = some [[⟨4⟩]] := by
      decide +kernel
    rw [live] at uses
    exact Option.some.inj uses
  · exact dropped (interrupted.take 8) interrupted[8] (interrupted.drop 9) rfl rfl shut

end Builder

end JvmEdit
