import JvmEdit.Proofs.Data.Except
import JvmEdit.Proofs.Flow.Paths
set_option autoImplicit false

namespace JvmEdit

namespace Flow

theorem lookup_iff_stands (code : List Instruction) (label : LabelId) (position : Nat) :
    (labelTable code).lookup label = some position ↔ Stands code label position := by
  have found : ∀ last, Stands code label last → (labelTable code).lookup label = some last := by
    intro last stands
    refine lookup_last code last label stands.1 fun member => ?_
    obtain ⟨i, behind, marked⟩ := List.mem_filterMap.mp member
    obtain ⟨k, here⟩ := List.mem_iff_getElem?.mp behind
    rw [List.getElem?_drop] at here
    exact stands.2 (last + 1 + k) (by omega) (Option.bind_eq_some_iff.mpr ⟨i, here, marked⟩)
  constructor
  · intro lookup
    obtain ⟨last, stands⟩ := stands_of_marks code label position (marks_of_lookup code label position lookup)
    have same := lookup.symm.trans (found last stands)
    rwa [Option.some.inj same]
  · exact found position

theorem lookup_none_iff (code : List Instruction) (label : LabelId) :
    (labelTable code).lookup label = none ↔ ∀ position, ¬Marks code position label := by
  constructor
  · intro missing position marks
    obtain ⟨last, stands⟩ := stands_of_marks code label position marks
    rw [(lookup_iff_stands code label last).mpr stands] at missing
    cases missing
  · intro absent
    cases lookup : (labelTable code).lookup label with
    | none => rfl
    | some position => exact absurd (marks_of_lookup code label position lookup) (absent position)

-- What is analysed for some code and its ranges.
def body? (code : List Instruction) (ranges : List TryRange) (limit : Option UInt16) :
    Except FlowError Body :=
  (handlers (labelTable code) ranges).map fun handlers =>
    ⟨code.toArray, labelTable code, handlers, limit.map UInt16.toNat⟩

-- The body is made from this code, with every range where its labels stand.
structure Body.Of (b : Body) (code : List Instruction) (ranges : List TryRange)
    (limit : Option UInt16) : Prop where
  array : b.code = code.toArray
  table : b.labels = labelTable code
  bound : b.limit = limit.map UInt16.toNat
  handlers : ∀ h, h ∈ b.handlers ↔ ∃ range ∈ ranges, Stands code range.start h.start ∧
    Stands code range.stop h.stop ∧ Stands code range.handler h.entry

def handlerOf (labels : List (LabelId × Nat)) (range : TryRange) : Except FlowError Handler :=
  match labels.lookup range.start, labels.lookup range.stop, labels.lookup range.handler with
  | some start, some stop, some entry => .ok ⟨start, stop, entry⟩
  | _, _, _ => .error (.unknownLabel 0)

theorem handler_of_ok_iff (code : List Instruction) (range : TryRange) (h : Handler) :
    handlerOf (labelTable code) range = .ok h ↔ Stands code range.start h.start ∧
      Stands code range.stop h.stop ∧ Stands code range.handler h.entry := by
  simp only [← lookup_iff_stands]
  unfold handlerOf
  constructor
  · intro made
    split at made
    · rename_i start stop entry starts stops enters
      cases made
      exact ⟨starts, stops, enters⟩
    · cases made
  · rintro ⟨starts, stops, enters⟩
    rw [starts, stops, enters]

theorem handler_of_error (code : List Instruction) (range : TryRange) (e : FlowError)
    (failed : handlerOf (labelTable code) range = .error e) :
    ∃ label ∈ [range.start, range.stop, range.handler], ∀ p, ¬Marks code p label := by
  unfold handlerOf at failed
  split at failed
  · cases failed
  · rename_i missing
    cases starts : (labelTable code).lookup range.start with
    | none => exact ⟨range.start, by simp, (lookup_none_iff code _).mp starts⟩
    | some start =>
        cases stops : (labelTable code).lookup range.stop with
        | none => exact ⟨range.stop, by simp, (lookup_none_iff code _).mp stops⟩
        | some stop =>
            cases enters : (labelTable code).lookup range.handler with
            | none => exact ⟨range.handler, by simp, (lookup_none_iff code _).mp enters⟩
            | some entry => exact absurd enters (missing start stop entry starts stops)

theorem effect_error_iff [Libraries] (i : Instruction) (text : String) :
    effect i.opcode i.operand = .error text ↔
      i.callDescriptor? = some text ∧ Descriptor.methodSlots? text = none := by
  obtain ⟨id, opcode, operand⟩ := i
  cases operand with
  | call call | dynamicCall call =>
      simp only [effect, Instruction.callDescriptor?, Option.some.injEq]
      cases slots : Descriptor.methodSlots? call.descriptor with
      | none =>
          simp only [Except.error.injEq]
          exact ⟨fun same => ⟨same, same ▸ slots⟩, fun same => same.1⟩
      | some found =>
          simp only [reduceCtorEq, false_iff, not_and]
          rintro rfl missing
          rw [slots] at missing
          cases missing
  | _ => simp [effect, Instruction.callDescriptor?]

-- Where control goes on from an instruction at `position`, and the height it arrives with.
def Leads (code : List Instruction) (i : Instruction) (position before after goal height : Nat) :
    Prop :=
  (height = after ∧ ∃ label ∈ i.targets, Stands code label goal) ∨
    (height = (bif i.callsSubroutine then before else after) ∧ i.continues = true ∧
      goal = position + 1)

-- These are the places that control goes on to; the labels stand and there is an instruction behind
-- where one is needed.
def Onward (code : List Instruction) (i : Instruction) (position before after : Nat)
    (ss : List (Nat × Nat)) : Prop :=
  (∀ label ∈ i.targets, ∃ goal, Stands code label goal) ∧
    (i.continues = true → position + 1 < code.length) ∧
    ∀ goal height, (goal, height) ∈ ss ↔ Leads code i position before after goal height

theorem mem_distinct (positions : List Nat) (p : Nat) :
    p ∈ Body.distinct positions ↔ p ∈ positions := by
  have general : ∀ seen : List Nat, p ∈ positions.foldl
      (fun seen p => if seen.contains p then seen else seen ++ [p]) seen ↔ p ∈ seen ∨ p ∈ positions := by
    induction positions with
    | nil => simp
    | cons q positions ih =>
        intro seen
        rw [List.foldl_cons, ih, List.mem_cons]
        by_cases member : seen.contains q = true
        · rw [if_pos member]
          have known : q ∈ seen := by simpa using member
          constructor
          · rintro (old | later)
            · exact Or.inl old
            · exact Or.inr (Or.inr later)
          · rintro (old | rfl | later)
            · exact Or.inl old
            · exact Or.inl known
            · exact Or.inr later
        · rw [if_neg member, List.mem_append, List.mem_singleton, or_assoc]
  exact (general []).trans (by simp)

theorem not_unconditional_of_call (opcode : Opcode) (call : opcode.isSubroutineCall = true) :
    opcode.isUnconditionalBranch = false := by
  simp only [Opcode.isSubroutineCall, Bool.or_eq_true, decide_eq_true_eq] at call
  rcases call with rfl | rfl <;> rfl

def Body.handlerMoves (b : Body) (position : Nat) : List Move :=
  (b.handlerEntries position).map fun entry => ⟨.exception position entry, 1⟩

theorem Body.moves_failed [Libraries] (b : Body) (position before : Nat) (i : Instruction)
    (e : FlowError) (failed : b.heightAfter position before i = .error e) :
    b.moves position before i = (b.handlerMoves position, some e) := by
  unfold Body.moves
  rw [failed]
  rfl

theorem Body.moves_carried [Libraries] (b : Body) (position before after : Nat) (i : Instruction)
    (carried : b.heightAfter position before i = .ok after) :
    b.moves position before i =
      match b.successors position before after i with
      | .ok ss => (b.handlerMoves position ++ ss.map fun s => ⟨.flow position s.1, s.2⟩, none)
      | .error e => (b.handlerMoves position, some e) := by
  unfold Body.moves
  rw [carried]
  simp only [bind, Except.bind]
  cases b.successors position before after i <;> rfl

-- A move of an analysis is a step of a path.
def Takes [Libraries] (code : List Instruction) (ranges : List TryRange) (limit : Option UInt16)
    (c : Config) : Move → Prop
  | ⟨.flow source target, height⟩ => source = c.position ∧ Flows code limit c ⟨target, height⟩
  | ⟨.exception source handler, height⟩ =>
      source = c.position ∧ Raises code ranges c ⟨handler, height⟩

theorem continues_of_calls (i : Instruction) (calls : i.callsSubroutine = true) :
    i.continues = true := by
  obtain ⟨id, opcode, operand⟩ := i
  cases operand with
  | jump label => simp [Instruction.continues, not_unconditional_of_call opcode calls]
  | _ => cases calls

section Source

variable {code : List Instruction} {ranges : List TryRange} {limit : Option UInt16}

theorem body?_ok {b : Body} (made : body? code ranges limit = .ok b) : b.Of code ranges limit := by
  obtain ⟨handlers, resolved, rfl⟩ := except_map _ _ _ made
  have each := except_map_m (handlerOf (labelTable code)) ranges handlers resolved
  refine ⟨rfl, rfl, rfl, fun h => ?_⟩
  simp only [← handler_of_ok_iff]
  constructor
  · intro member
    obtain ⟨k, inside, rfl⟩ := List.mem_iff_getElem.mp member
    have bound : k < ranges.length := each.length_eq ▸ inside
    exact ⟨ranges[k], List.getElem_mem bound, each.get bound inside⟩
  · rintro ⟨range, member, made⟩
    obtain ⟨k, inside, rfl⟩ := List.mem_iff_getElem.mp member
    have bound : k < handlers.length := each.length_eq ▸ inside
    have same := (each.get inside bound).symm.trans made
    exact List.mem_iff_getElem.mpr ⟨k, bound, Except.ok.inj same⟩

theorem body?_labels {b : Body} (made : body? code ranges limit = .ok b) :
    ∀ range ∈ ranges, ∀ label ∈ [range.start, range.stop, range.handler],
      ∃ position, Marks code position label := by
  obtain ⟨handlers, resolved, rfl⟩ := except_map _ _ _ made
  have each := except_map_m (handlerOf (labelTable code)) ranges handlers resolved
  intro range member
  obtain ⟨k, inside, rfl⟩ := List.mem_iff_getElem.mp member
  obtain ⟨starts, stops, enters⟩ :=
    (handler_of_ok_iff code _ _).mp (each.get inside (each.length_eq ▸ inside))
  simp only [List.forall_mem_cons]
  exact ⟨⟨_, starts.1⟩, ⟨_, stops.1⟩, ⟨_, enters.1⟩, fun _ none => by cases none⟩

theorem body?_error [Libraries] {e : FlowError} (failed : body? code ranges limit = .error e) :
    ¬Consistent code ranges limit := by
  intro consistent
  have resolving : handlers (labelTable code) ranges = .error e := by
    cases resolved : handlers (labelTable code) ranges with
    | error e' =>
        rw [body?, resolved] at failed
        cases failed
        rfl
    | ok hs =>
        rw [body?, resolved] at failed
        cases failed
  obtain ⟨range, member, fault⟩ :=
    except_map_m_error (handlerOf (labelTable code)) ranges e resolving
  obtain ⟨label, named, absent⟩ := handler_of_error code range e fault
  obtain ⟨position, marks⟩ := consistent.labels range member label named
  exact absent position marks

theorem flows_iff_leads [Libraries] (position before after : Nat) (i : Instruction) (c : Config)
    (here : code[position]? = some i) (carries : Carries limit i before after)
    (inside : i.continues = true → position + 1 < code.length) :
    Flows code limit ⟨position, before⟩ c ↔
      Leads code i position before after c.position c.height := by
  constructor
  · intro flows
    cases flows with
    | target here' carries' named stands =>
        cases here.symm.trans here'
        exact Or.inl ⟨carries'.unique carries, _, named, stands⟩
    | next here' carries' continues stays _ =>
        cases here.symm.trans here'
        refine Or.inr ⟨?_, continues, rfl⟩
        rw [stays]
        exact carries'.unique carries
    | comeBack here' _ calls _ =>
        cases here.symm.trans here'
        refine Or.inr ⟨?_, continues_of_calls i calls, rfl⟩
        rw [calls]
        rfl
  · obtain ⟨goal, height⟩ := c
    rintro (⟨arrival, label, named, stands⟩ | ⟨arrival, continues, behind⟩)
    · dsimp only at arrival
      subst arrival
      exact .target here carries named stands
    · dsimp only at arrival behind
      subst arrival behind
      cases calls : i.callsSubroutine with
      | true => exact .comeBack here carries calls (inside continues)
      | false => exact .next here carries continues calls (inside continues)

theorem not_faulty_of_carries [Libraries] {position before after : Nat} {i : Instruction}
    (here : code[position]? = some i) (carries : Carries limit i before after)
    (standing : ∀ label ∈ i.targets, ∃ goal, Stands code label goal)
    (inside : i.continues = true → position + 1 < code.length) :
    ¬Faulty code limit ⟨position, before⟩ := by
  obtain ⟨pops, pushes, read, fits, isAfter, within⟩ := carries
  intro faulty
  cases faulty with
  | descriptor here' call unreadable =>
      cases here.symm.trans here'
      rw [(effect_error_iff i _).mpr ⟨call, unreadable⟩] at read
      cases read
  | underflow here' read' low =>
      cases here.symm.trans here'
      cases read.symm.trans read'
      exact Nat.not_lt.mpr fits low
  | overflow here' read' bounded high =>
      cases here.symm.trans here'
      cases read.symm.trans read'
      exact Nat.not_lt.mpr (within _ bounded) (isAfter ▸ high)
  | unknownLabel here' named absent =>
      cases here.symm.trans here'
      obtain ⟨goal, stands⟩ := standing _ named
      exact absent goal stands.1
  | fallsOff here' continues last =>
      cases here.symm.trans here'
      exact Nat.not_lt.mpr last (inside continues)

variable {b : Body} (of : b.Of code ranges limit)

include of

theorem Body.Of.size : b.size = code.length := by
  rw [Body.size, of.array, List.size_toArray]

theorem Body.Of.at (position : Nat) : b.code[position]? = code[position]? := by
  rw [of.array, List.getElem?_toArray]

theorem Body.Of.position_ok_iff (source : Nat) (label : LabelId) (goal : Nat) :
    b.position source label = .ok goal ↔ Stands code label goal := by
  rw [← lookup_iff_stands, Body.position, Body.position?, of.table]
  cases (labelTable code).lookup label <;> simp

theorem Body.Of.position_error (source : Nat) (label : LabelId) (e : FlowError)
    (failed : b.position source label = .error e) : ∀ p, ¬Marks code p label := by
  rw [Body.position, Body.position?, of.table] at failed
  rw [← lookup_none_iff]
  cases lookup : (labelTable code).lookup label with
  | none => rfl
  | some position =>
      rw [lookup] at failed
      cases failed

theorem Body.Of.next_ok_iff (position goal : Nat) :
    b.next position = .ok goal ↔ position + 1 < code.length ∧ goal = position + 1 := by
  rw [Body.next, of.size]
  split
  · rename_i inside
    simp [inside, eq_comm]
  · rename_i outside
    simp [outside]

theorem Body.Of.next_error (position : Nat) (e : FlowError) (failed : b.next position = .error e) :
    code.length ≤ position + 1 := by
  rw [Body.next, of.size] at failed
  split at failed
  · cases failed
  · omega

theorem Body.Of.height_after_ok_iff [Libraries] (position before after : Nat) (i : Instruction) :
    b.heightAfter position before i = .ok after ↔ Carries limit i before after := by
  unfold Body.heightAfter
  rw [of.bound]
  constructor
  · intro done
    cases read : effect i.opcode i.operand with
    | error text =>
        rw [read] at done
        cases done
    | ok slots =>
        obtain ⟨pops, pushes⟩ := slots
        rw [read] at done
        dsimp only at done
        by_cases low : before < pops
        · rw [if_pos low] at done
          cases done
        · rw [if_neg low] at done
          cases limit with
          | none =>
              cases done
              exact ⟨pops, pushes, read, Nat.le_of_not_lt low, rfl, fun _ none => by cases none⟩
          | some bound =>
              dsimp only [Option.map_some] at done
              split at done
              · cases done
              · rename_i within
                cases done
                refine ⟨pops, pushes, read, Nat.le_of_not_lt low, rfl, fun _ same => ?_⟩
                cases same
                exact Nat.le_of_not_lt within
  · rintro ⟨pops, pushes, read, fits, rfl, within⟩
    rw [read]
    dsimp only
    rw [if_neg (Nat.not_lt.mpr fits)]
    cases limit with
    | none => rfl
    | some bound =>
        dsimp only [Option.map_some]
        rw [if_neg (Nat.not_lt.mpr (within bound rfl))]

theorem Body.Of.height_after_error [Libraries] (position before : Nat) (i : Instruction) (e : FlowError)
    (here : code[position]? = some i) (failed : b.heightAfter position before i = .error e) :
    Faulty code limit ⟨position, before⟩ := by
  unfold Body.heightAfter at failed
  rw [of.bound] at failed
  cases read : effect i.opcode i.operand with
  | error text =>
      obtain ⟨call, unreadable⟩ := (effect_error_iff i text).mp read
      exact .descriptor here call unreadable
  | ok slots =>
      obtain ⟨pops, pushes⟩ := slots
      rw [read] at failed
      dsimp only at failed
      by_cases low : before < pops
      · exact .underflow here read low
      · rw [if_neg low] at failed
        cases bounded : limit with
        | none =>
            rw [bounded] at failed
            cases failed
        | some bound =>
            rw [bounded] at failed
            dsimp only [Option.map_some] at failed
            split at failed
            · rename_i high
              exact bounded ▸ .overflow here read bounded high
            · cases failed

theorem Body.Of.jump_cases (position before after : Nat) (id : InsnId) (opcode : Opcode) (label : LabelId)
    (ss : List (Nat × Nat))
    (done : b.successors position before after ⟨id, opcode, .jump label⟩ = .ok ss) :
    ∃ target, Stands code label target ∧
      (opcode.isSubroutineCall = true ∧ opcode.isUnconditionalBranch = false ∧
          position + 1 < code.length ∧ ss = [(target, after), (position + 1, before)] ∨
        opcode.isSubroutineCall = false ∧ opcode.isUnconditionalBranch = true ∧ ss = [(target, after)] ∨
        opcode.isSubroutineCall = false ∧ opcode.isUnconditionalBranch = false ∧
          position + 1 < code.length ∧ ss = [(position + 1, after), (target, after)]) := by
  simp only [Body.successors] at done
  cases call : opcode.isSubroutineCall with
  | true =>
      rw [if_pos call] at done
      obtain ⟨target, found, rest⟩ := except_bind _ _ _ done
      obtain ⟨next, onward, result⟩ := except_bind _ _ _ rest
      cases result
      obtain ⟨inside, rfl⟩ := (of.next_ok_iff position next).mp onward
      exact ⟨target, (of.position_ok_iff position label target).mp found,
        .inl ⟨rfl, not_unconditional_of_call opcode call, inside, rfl⟩⟩
  | false =>
      rw [if_neg (Bool.eq_false_iff.mp call)] at done
      cases straight : opcode.isUnconditionalBranch with
      | true =>
          rw [if_pos straight] at done
          obtain ⟨target, found, result⟩ := except_bind _ _ _ done
          cases result
          exact ⟨target, (of.position_ok_iff position label target).mp found, .inr (.inl ⟨rfl, rfl, rfl⟩)⟩
      | false =>
          rw [if_neg (Bool.eq_false_iff.mp straight)] at done
          obtain ⟨target, found, rest⟩ := except_bind _ _ _ done
          obtain ⟨next, onward, result⟩ := except_bind _ _ _ rest
          cases result
          obtain ⟨inside, rfl⟩ := (of.next_ok_iff position next).mp onward
          exact ⟨target, (of.position_ok_iff position label target).mp found,
            .inr (.inr ⟨rfl, rfl, inside, rfl⟩)⟩

theorem Body.Of.jump_ok (position before after : Nat) (id : InsnId) (opcode : Opcode) (label : LabelId)
    (ss : List (Nat × Nat))
    (done : b.successors position before after ⟨id, opcode, .jump label⟩ = .ok ss) :
    Onward code ⟨id, opcode, .jump label⟩ position before after ss := by
  obtain ⟨target, stands, ways⟩ := of.jump_cases position before after id opcode label ss done
  simp only [Onward, Leads, Instruction.targets, Operand.targets, Instruction.continues,
    Instruction.callsSubroutine, List.mem_singleton, exists_eq_left, forall_eq, stands.iff]
  rcases ways with ⟨call, falls, inside, rfl⟩ | ⟨call, straight, rfl⟩ | ⟨call, falls, inside, rfl⟩
  · refine ⟨⟨target, rfl⟩, fun _ => inside, fun goal height => ?_⟩
    simp only [call, falls, cond_true]
    grind
  · refine ⟨⟨target, rfl⟩, by simp [straight], fun goal height => ?_⟩
    simp only [call, straight, cond_false]
    grind
  · refine ⟨⟨target, rfl⟩, fun _ => inside, fun goal height => ?_⟩
    simp only [call, falls, cond_false]
    grind

theorem Body.Of.switch_ok (position before after : Nat) (id : InsnId) (opcode : Opcode)
    (otherwise : LabelId) (cases : List (Int32 × LabelId)) (ss : List (Nat × Nat))
    (done : b.successors position before after ⟨id, opcode, .switch otherwise cases⟩ = .ok ss) :
    Onward code ⟨id, opcode, .switch otherwise cases⟩ position before after ss := by
  simp only [Body.successors] at done
  obtain ⟨targets, found, result⟩ := except_bind _ _ _ done
  cases result
  have reached := mem_except_map_m (b.position position) _ targets found
  have known := ok_of_except_map_m (b.position position) _ targets found
  simp only [of.position_ok_iff] at reached known
  refine ⟨known, by simp [Instruction.continues], fun goal height => ?_⟩
  simp only [Leads, Instruction.targets, Operand.targets, Instruction.continues,
    Bool.false_eq_true, false_and, and_false, or_false, List.mem_map, mem_distinct, Prod.mk.injEq]
  constructor
  · rintro ⟨target, member, rfl, rfl⟩
    exact ⟨rfl, (reached target).mp member⟩
  · rintro ⟨rfl, stands⟩
    exact ⟨goal, (reached goal).mpr stands, rfl, rfl⟩

theorem Body.Of.successors_ok (position before after : Nat) (i : Instruction)
    (ss : List (Nat × Nat)) (done : b.successors position before after i = .ok ss) :
    Onward code i position before after ss := by
  obtain ⟨id, opcode, operand⟩ := i
  cases operand with
  | jump label => exact of.jump_ok position before after id opcode label ss done
  | switch otherwise cases =>
      exact of.switch_ok position before after id opcode otherwise cases ss done
  | _ =>
      simp only [Body.successors] at done
      simp only [Onward, Leads, Instruction.targets, Operand.targets, Instruction.continues,
        Instruction.callsSubroutine, List.not_mem_nil, false_and, exists_false, and_false, false_or,
        cond_false]
      cases exit : opcode.isExit with
      | true =>
          rw [if_pos exit] at done
          cases done
          simp
      | false =>
          rw [if_neg (by simp [exit])] at done
          obtain ⟨next, onward, result⟩ := except_bind _ _ _ done
          cases result
          obtain ⟨inside, rfl⟩ := (of.next_ok_iff position next).mp onward
          refine ⟨by simp, fun _ => inside, fun goal height => ?_⟩
          simp [and_comm]

theorem Body.Of.jump_error (position before after : Nat) (id : InsnId) (opcode : Opcode)
    (label : LabelId) (e : FlowError)
    (failed : b.successors position before after ⟨id, opcode, .jump label⟩ = .error e) :
    (∀ p, ¬Marks code p label) ∨
      (opcode.isUnconditionalBranch = false ∧ code.length ≤ position + 1) := by
  simp only [Body.successors] at failed
  cases found : b.position position label with
  | error e' => exact Or.inl (of.position_error position label e' found)
  | ok target =>
      rw [found] at failed
      cases onward : b.next position with
      | error e' =>
          refine Or.inr ⟨?_, of.next_error position e' onward⟩
          cases straight : opcode.isUnconditionalBranch with
          | false => rfl
          | true =>
              rw [straight] at failed
              have call : ¬opcode.isSubroutineCall = true := fun call => by
                rw [not_unconditional_of_call opcode call] at straight
                cases straight
              rw [if_neg call, if_pos rfl] at failed
              cases failed
      | ok next =>
          rw [onward] at failed
          split at failed
          · cases failed
          · split at failed <;> cases failed

theorem Body.Of.successors_error (position before after : Nat) (i : Instruction) (e : FlowError)
    (failed : b.successors position before after i = .error e) :
    (∃ label ∈ i.targets, ∀ p, ¬Marks code p label) ∨
      (i.continues = true ∧ code.length ≤ position + 1) := by
  obtain ⟨id, opcode, operand⟩ := i
  cases operand with
  | jump label =>
      rcases of.jump_error position before after id opcode label e failed with absent | fallsOff
      · exact Or.inl ⟨label, List.mem_singleton_self label, absent⟩
      · exact Or.inr ⟨by simp [Instruction.continues, fallsOff.1], fallsOff.2⟩
  | switch otherwise cases =>
      simp only [Body.successors] at failed
      cases found : (otherwise :: cases.map Prod.snd).mapM (b.position position) with
      | error e' =>
          obtain ⟨label, named, fault⟩ := except_map_m_error _ _ e' found
          exact Or.inl ⟨label, named, of.position_error position label e' fault⟩
      | ok targets =>
          rw [found] at failed
          cases failed
  | _ =>
      simp only [Body.successors] at failed
      refine Or.inr ?_
      split at failed
      · cases failed
      · rename_i goesOn
        refine ⟨by simpa [Instruction.continues] using goesOn, ?_⟩
        cases onward : b.next position with
        | error e' => exact of.next_error position e' onward
        | ok next =>
            rw [onward] at failed
            cases failed

theorem Body.Of.raises_iff (position height : Nat) (c : Config) :
    Raises code ranges ⟨position, height⟩ c ↔
      c.height = 1 ∧ c.position ∈ b.handlerEntries position := by
  obtain ⟨entry, arrival⟩ := c
  simp only [Body.handlerEntries, List.mem_map, List.mem_filter, of.handlers, Handler.covers,
    Bool.and_eq_true, decide_eq_true_eq]
  constructor
  · rintro ⟨member, starts, stops, enters, after, before⟩
    exact ⟨rfl, ⟨_, _, entry⟩, ⟨⟨_, member, starts, stops, enters⟩, after, before⟩, rfl⟩
  · rintro ⟨rfl, h, ⟨⟨range, member, starts, stops, enters⟩, after, before⟩, rfl⟩
    exact .handler member starts stops enters after before

theorem Body.Of.takes_handler_moves [Libraries] (position before : Nat) (m : Move)
    (member : m ∈ b.handlerMoves position) : Takes code ranges limit ⟨position, before⟩ m := by
  obtain ⟨entry, covered, rfl⟩ := List.mem_map.mp member
  exact ⟨rfl, (of.raises_iff position before ⟨entry, 1⟩).mpr ⟨rfl, covered⟩⟩

theorem Body.Of.moves_none [Libraries] (position before : Nat) (i : Instruction)
    (here : code[position]? = some i) (clean : (b.moves position before i).2 = none) :
    ¬Faulty code limit ⟨position, before⟩ ∧
      ∀ m, m ∈ (b.moves position before i).1 ↔ Takes code ranges limit ⟨position, before⟩ m := by
  cases carried : b.heightAfter position before i with
  | error e =>
      rw [b.moves_failed position before i e carried] at clean
      cases clean
  | ok after =>
      rw [b.moves_carried position before after i carried] at clean ⊢
      cases led : b.successors position before after i with
      | error e =>
          rw [led] at clean
          cases clean
      | ok ss =>
          have carries := (of.height_after_ok_iff position before after i).mp carried
          obtain ⟨standing, inside, leads⟩ := of.successors_ok position before after i ss led
          refine ⟨not_faulty_of_carries here carries standing inside, fun m => ?_⟩
          rw [List.mem_append, List.mem_map]
          constructor
          · rintro (member | ⟨⟨goal, height⟩, member, rfl⟩)
            · exact of.takes_handler_moves position before m member
            · exact ⟨rfl, (flows_iff_leads position before after i ⟨goal, height⟩ here carries
                inside).mpr ((leads goal height).mp member)⟩
          · obtain ⟨transfer, height⟩ := m
            cases transfer with
            | flow source goal =>
                rintro ⟨rfl, flows⟩
                have led := (flows_iff_leads source before after i ⟨goal, height⟩ here carries
                  inside).mp flows
                exact Or.inr ⟨(goal, height), (leads goal height).mpr led, rfl⟩
            | exception source entry =>
                rintro ⟨rfl, raises⟩
                obtain ⟨arrival, member⟩ := (of.raises_iff source before ⟨entry, height⟩).mp raises
                dsimp only at arrival
                subst arrival
                exact Or.inl (List.mem_map.mpr ⟨entry, member, rfl⟩)

theorem Body.Of.moves_some [Libraries] (position before : Nat) (i : Instruction) (e : FlowError)
    (here : code[position]? = some i) (failed : (b.moves position before i).2 = some e) :
    Faulty code limit ⟨position, before⟩ ∧
      ∀ m ∈ (b.moves position before i).1, Takes code ranges limit ⟨position, before⟩ m := by
  cases carried : b.heightAfter position before i with
  | error e' =>
      rw [b.moves_failed position before i e' carried]
      exact ⟨of.height_after_error position before i e' here carried,
        of.takes_handler_moves position before⟩
  | ok after =>
      rw [b.moves_carried position before after i carried] at failed ⊢
      cases led : b.successors position before after i with
      | ok ss =>
          rw [led] at failed
          cases failed
      | error e' =>
          refine ⟨?_, of.takes_handler_moves position before⟩
          rcases of.successors_error position before after i e' led with
            ⟨label, named, absent⟩ | ⟨continues, last⟩
          · exact .unknownLabel here named absent
          · exact .fallsOff here continues last

end Source

end Flow

end JvmEdit
