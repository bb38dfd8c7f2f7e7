import JvmEdit.ClassFile.Code
import JvmEdit.Load.Builder
import JvmEdit.Proofs.Data.OrderedSet
import JvmEdit.Proofs.Flow.Paths
import JvmEdit.Proofs.References.Steps
set_option autoImplicit false

namespace JvmEdit

namespace Code

-- The code and the ranges of a body under names for its labels.
structure Body.Loads (body : Body) (names : LabelId → LabelId) (code : List Instruction)
    (ranges : List TryRange) : Prop where
  apart : ∀ label label' : LabelId, label.val < body.labelCount → label'.val < body.labelCount →
    names label = names label' → label = label'
  code : code.map (fun i => (i.opcode, i.operand)) =
    body.instructions.map fun i => (i.1, i.2.mapLabels names)
  ranges : ranges = body.ranges.map fun r => ⟨names r.start, names r.stop, names r.handler, r.catchType⟩

end Code

namespace ClassEvent

def isPart : ClassEvent → Bool
  | instruction .. | tryRange _ | localVariable _ => true
  | _ => false

-- What an event adds to the code and to the ranges of a body.
def code (names : LabelId → LabelId) : ClassEvent → List (Opcode × Operand)
  | instruction opcode operand => [(opcode, operand.mapLabels names)]
  | _ => []

def ranges (names : LabelId → LabelId) : ClassEvent → List TryRange
  | tryRange d => [⟨names d.start, names d.stop, names d.handler, d.catchType⟩]
  | _ => []

end ClassEvent

namespace Code

-- What stands in a body behind its labels.
def Body.parts (body : Body) : List ClassEvent :=
  body.instructions.map (fun i => .instruction i.1 i.2) ++ body.ranges.map .tryRange ++
    body.locals.map .localVariable

theorem Body.events_eq (body : Body) :
    body.events = List.replicate body.labelCount .newLabel ++ body.parts := by
  rw [events, parts, List.append_assoc, List.append_assoc, List.append_assoc]

theorem Body.is_part_parts (body : Body) : ∀ event ∈ body.parts, event.isPart = true := by
  intro event member
  rcases List.mem_append.mp member with member | member
  · rcases List.mem_append.mp member with member | member
    · obtain ⟨_, _, rfl⟩ := List.mem_map.mp member
      rfl
    · obtain ⟨_, _, rfl⟩ := List.mem_map.mp member
      rfl
  · obtain ⟨_, _, rfl⟩ := List.mem_map.mp member
    rfl

theorem Body.gathered_parts (body : Body) (names : LabelId → LabelId) :
    body.parts.flatMap (ClassEvent.code names) = body.instructions.map (fun i => (i.1, i.2.mapLabels names)) ∧
    body.parts.flatMap (ClassEvent.ranges names) =
      body.ranges.map fun r => ⟨names r.start, names r.stop, names r.handler, r.catchType⟩ := by
  have nothing : ∀ {α β : Type} (items : List α), items.flatMap (fun _ => ([] : List β)) = [] :=
    fun _ => List.flatMap_eq_nil_iff.mpr fun _ _ => rfl
  constructor
  · simp [parts, List.flatMap_append, List.flatMap_map, ClassEvent.code, ← List.map_eq_flatMap, nothing]
  · simp [parts, List.flatMap_append, List.flatMap_map, ClassEvent.ranges, ← List.map_eq_flatMap, nothing]

end Code

namespace Builder

-- No method is open and nothing has been gathered.
structure AtRest (b : Builder) : Prop where
  closed : b.openMethod = none
  empty : b.body = {}

-- One builder has gathered this code and these ranges since another.
structure Gathers (b b' : Builder) (code : List (Opcode × Operand)) (ranges : List TryRange) : Prop where
  openMethod : b'.openMethod = b.openMethod
  methods : b'.program.methods = b.program.methods
  labels : b'.labels = b.labels
  code : b'.body.code.reverse.map (fun i => (i.opcode, i.operand)) =
    b.body.code.reverse.map (fun i => (i.opcode, i.operand)) ++ code
  ranges : b'.body.tryRanges.reverse = b.body.tryRanges.reverse ++ ranges

section Gathering

variable {b b' b'' : Builder}

theorem Gathers.refl (b : Builder) : Gathers b b [] [] :=
  ⟨rfl, rfl, rfl, (List.append_nil _).symm, (List.append_nil _).symm⟩

theorem Gathers.trans {code code' : List (Opcode × Operand)} {ranges ranges' : List TryRange}
    (first : Gathers b b' code ranges) (second : Gathers b' b'' code' ranges') :
    Gathers b b'' (code ++ code') (ranges ++ ranges') where
  openMethod := second.openMethod.trans first.openMethod
  methods := second.methods.trans first.methods
  labels := second.labels.trans first.labels
  code := by rw [second.code, first.code, List.append_assoc]
  ranges := by rw [second.ranges, first.ranges, List.append_assoc]

theorem Gathers.label {code : List (Opcode × Operand)} {ranges : List TryRange}
    (gathers : Gathers b b' code ranges) : b'.label = b.label := by
  funext number
  rw [Builder.label, gathers.labels, Builder.label]

theorem gathers_step {id : MethodId} (isOpen : b.openMethod = some id) (event : ClassEvent)
    (part : event.isPart = true) :
    Gathers b (b.step event) (event.code b.label) (event.ranges b.label) := by
  have opened : ¬b.openMethod.isNone = true := by simp [isOpen]
  cases event with
  | instruction opcode operand =>
      rw [step, addInstruction, if_neg opened]
      exact ⟨rfl, rfl, rfl, by simp [ClassEvent.code], (List.append_nil _).symm⟩
  | tryRange d =>
      rw [step, addTryRange, if_neg opened]
      exact ⟨rfl, rfl, rfl, (List.append_nil _).symm, by simp [ClassEvent.ranges]⟩
  | localVariable d =>
      rw [step, addLocal, if_neg opened]
      exact ⟨rfl, rfl, rfl, (List.append_nil _).symm, (List.append_nil _).symm⟩
  | _ => cases part

theorem gathers_run {id : MethodId} (isOpen : b.openMethod = some id) (events : List ClassEvent)
    (parts : ∀ event ∈ events, event.isPart = true) : Gathers b (b.run events)
      (events.flatMap (ClassEvent.code b.label)) (events.flatMap (ClassEvent.ranges b.label)) := by
  induction events generalizing b with
  | nil => exact .refl b
  | cons event events ih =>
      have first := gathers_step isOpen event (parts event (List.mem_cons_self ..))
      have later := ih (first.openMethod.trans isOpen) fun event member =>
        parts event (List.mem_cons_of_mem _ member)
      rw [first.label] at later
      exact first.trans later

end Gathering

variable (b : Builder)

theorem run_append (events events' : List ClassEvent) :
    b.run (events ++ events') = (b.run events).run events' := List.foldl_append

theorem run_new_labels (count : Nat) : b.run (List.replicate count .newLabel) =
    { b with
      program := b.program.advance (2 * count)
      labels := b.labels ++ ((List.range count).map fun k => ⟨b.program.nextId + 2 * k⟩).toArray } := by
  induction count with
  | zero => simp [run, Program.advance]
  | succ count ih =>
      rw [List.replicate_succ', run_append, ih]
      simp only [run, List.foldl_cons, List.foldl_nil, step, newLabel, Program.advance]
      simp [List.range_succ, Nat.mul_succ, Nat.add_assoc]

theorem label_new_labels (count : Nat) (none : b.labels = #[]) (number : LabelId)
    (inside : number.val < count) : (b.run (List.replicate count .newLabel)).label number =
      ⟨b.program.nextId + 2 * number.val⟩ := by
  rw [run_new_labels, label, none]
  simp [inside]

-- At rest the event opens nothing, and no method comes or goes.
def Idles (event : ClassEvent) : Prop := ∀ b : Builder, b.AtRest →
  (b.step event).AtRest ∧ (b.step event).program.methods = b.program.methods

section Idle

variable {b}

theorem flush_at_rest (rest : b.AtRest) : b.flush = b := by
  rw [flush, rest.closed]

theorem idles_header (h : ClassHeader) : Idles (.header h) := by
  intro b rest
  rw [step, flush_at_rest rest, enterClass]
  dsimp only
  split
  · exact ⟨⟨rest.closed, rest.empty⟩, rfl⟩
  · exact ⟨⟨rest.closed, rest.empty⟩, rfl⟩

theorem idles_field (d : FieldDecl) : Idles (.field d) := by
  intro b rest
  rw [step, enterField]
  split
  · exact ⟨rest, rfl⟩
  · dsimp only
    split
    · rename_i done
      obtain ⟨_, _, _, rfl⟩ := Program.attach_field_ok _ _ _ _ _ done
      exact ⟨⟨rest.closed, rest.empty⟩, rfl⟩
    · exact ⟨⟨rest.closed, rest.empty⟩, rfl⟩

theorem idles_new_label : Idles .newLabel := fun _ rest => ⟨⟨rest.closed, rest.empty⟩, rfl⟩

theorem idles_part (event : ClassEvent) (part : event.isPart = true) : Idles event := by
  intro b rest
  have closed : b.openMethod.isNone = true := by simp [rest.closed]
  cases event with
  | instruction opcode operand =>
      rw [step, addInstruction, if_pos closed]
      exact ⟨rest, rfl⟩
  | tryRange d =>
      rw [step, addTryRange, if_pos closed]
      exact ⟨rest, rfl⟩
  | localVariable d =>
      rw [step, addLocal, if_pos closed]
      exact ⟨rest, rfl⟩
  | _ => cases part

theorem idles_method_end (stack slots : Option UInt16) : Idles (.methodEnd stack slots) := by
  intro b rest
  rw [step, endMethod, rest.closed]
  exact ⟨rest, rfl⟩

theorem idle_run (rest : b.AtRest) (events : List ClassEvent) (idles : ∀ event ∈ events, Idles event) :
    (b.run events).AtRest ∧ (b.run events).program.methods = b.program.methods := by
  induction events generalizing b with
  | nil => exact ⟨rest, rfl⟩
  | cons event events ih =>
      obtain ⟨first, same⟩ := idles event (List.mem_cons_self ..) b rest
      obtain ⟨later, same'⟩ := ih first fun event member => idles event (List.mem_cons_of_mem _ member)
      exact ⟨later, same'.trans same⟩

end Idle

theorem enter_method_cases (closed : b.openMethod = none) (d : MethodDecl) :
    ((b.enterMethod d).openMethod = none ∧ (b.enterMethod d).body = b.body ∧
      (b.enterMethod d).program.methods = b.program.methods) ∨
    ∃ m q, b.enterMethod d = { b with program := q, openMethod := some ⟨b.program.nextId⟩ } ∧
      m.name = d.name ∧ m.descriptor = d.descriptor ∧
      ∀ other, q.method? other =
        if ⟨b.program.nextId⟩ = other then some m else b.program.method? other := by
  unfold enterMethod
  split
  · exact Or.inl ⟨closed, rfl, rfl⟩
  · dsimp only
    split
    · rename_i done
      obtain ⟨name, _, _, rfl⟩ := Program.attach_method_ok _ _ _ _ _ done
      exact Or.inr ⟨_, _, rfl, rfl, rfl, fun other => Program.method?_place_method _ _ _ _ _ other⟩
    · exact Or.inl ⟨closed, rfl, rfl⟩

theorem end_method_open {id : MethodId} (isOpen : b.openMethod = some id) (stack slots : Option UInt16) :
    (b.endMethod stack slots).AtRest ∧ ∀ other m',
      (b.endMethod stack slots).program.method? other = some m' →
        (id ≠ other ∧ b.program.method? other = some m') ∨ ∃ m, b.program.method? id = some m ∧
          m'.name = m.name ∧ m'.descriptor = m.descriptor ∧ m'.maxStack = stack ∧
          m'.code.toList = b.body.code.reverse ∧ m'.tryRanges = b.body.tryRanges.reverse := by
  simp only [endMethod, flush, isOpen]
  refine ⟨⟨rfl, rfl⟩, fun other m' found => ?_⟩
  rw [Program.method?_update_method, Program.method?_update_method] at found
  by_cases here : id = other
  · subst here
    rw [if_pos rfl, if_pos rfl] at found
    obtain ⟨_, limited, rfl⟩ := Option.map_eq_some_iff.mp found
    obtain ⟨m, isMethod, rfl⟩ := Option.map_eq_some_iff.mp limited
    exact Or.inr ⟨m, isMethod, rfl, rfl, rfl, rfl, rfl⟩
  · rw [if_neg here, if_neg here] at found
    exact Or.inl ⟨here, found⟩

-- A method that was loaded from what was told of it.
structure Built (d : MethodDecl) (stack : Option UInt16) (body : Code.Body) (m : Method) : Prop where
  name : m.name = d.name
  descriptor : m.descriptor = d.descriptor
  maxStack : m.maxStack = stack
  body : ∃ names, body.Loads names m.code.toList m.tryRanges

-- The events tell of a method, and what is built from them has the property.
def Tells (holds : Method → Prop) (events : List ClassEvent) : Prop :=
  ∃ d body stack slots, events = .method d :: Code.Body.events body ++ [.methodEnd stack slots] ∧
    ∀ m, Built d stack body m → holds m

theorem gathered_body {id : MethodId} (isOpen : b.openMethod = some id) (unlabelled : b.labels = #[])
    (empty : b.body = {}) (body : Code.Body) : (b.run body.events).openMethod = some id ∧
      (b.run body.events).program.methods = b.program.methods ∧
      ∃ names, body.Loads names (b.run body.events).body.code.reverse
        (b.run body.events).body.tryRanges.reverse := by
  rw [Code.Body.events_eq, run_append]
  have named := b.label_new_labels body.labelCount unlabelled
  rw [run_new_labels] at named ⊢
  generalize isNumbered : Builder.mk _ _ _ _ _ _ _ = numbered at named ⊢
  have stillOpen : numbered.openMethod = some id := by rw [← isNumbered, isOpen]
  have gathers := gathers_run stillOpen body.parts body.is_part_parts
  obtain ⟨code, ranges⟩ := body.gathered_parts numbered.label
  have nothing : numbered.body = {} := by rw [← isNumbered, empty]
  refine ⟨gathers.openMethod.trans stillOpen, ?_, numbered.label, fun label label' inside inside' same => ?_,
    ?_, ?_⟩
  · rw [gathers.methods, ← isNumbered]
    rfl
  · rw [named label inside, named label' inside'] at same
    have same := congrArg LabelId.val same
    obtain ⟨n⟩ := label
    obtain ⟨n'⟩ := label'
    congr 1
    dsimp only at same
    omega
  · rw [gathers.code, nothing, code]
    rfl
  · rw [gathers.ranges, nothing, ranges]
    rfl

theorem run_method (rest : b.AtRest) (d : MethodDecl) (body : Code.Body) (stack slots : Option UInt16) :
    (b.run (.method d :: body.events ++ [.methodEnd stack slots])).AtRest ∧ ∀ id m,
      (b.run (.method d :: body.events ++ [.methodEnd stack slots])).program.method? id = some m →
        b.program.method? id = some m ∨ Built d stack body m := by
  have started : b.run (.method d :: body.events ++ [.methodEnd stack slots]) =
      (Builder.enterMethod { b with labels := #[] } d).run
        (body.events ++ [.methodEnd stack slots]) := by
    rw [List.cons_append, run, List.foldl_cons, step, flush_at_rest rest]
    rfl
  rw [started]
  rcases enter_method_cases { b with labels := #[] } rest.closed d with
    ⟨closed, empty, same⟩ | ⟨m, q, entered, name, descriptor, methods⟩
  · have idles : ∀ event ∈ body.events ++ [ClassEvent.methodEnd stack slots], Idles event := by
      intro event member
      rw [Code.Body.events_eq] at member
      rcases List.mem_append.mp member with member | last
      · rcases List.mem_append.mp member with label | part
        · exact List.eq_of_mem_replicate label ▸ idles_new_label
        · exact idles_part event (body.is_part_parts event part)
      · exact List.mem_singleton.mp last ▸ idles_method_end stack slots
    obtain ⟨atRest, same'⟩ := idle_run ⟨closed, empty.trans rest.empty⟩ _ idles
    refine ⟨atRest, fun id m found => Or.inl ?_⟩
    rw [Program.method?, same', same] at found
    exact found
  · rw [entered, run_append]
    let opened : Builder := { b with labels := #[], program := q, openMethod := some ⟨b.program.nextId⟩ }
    obtain ⟨isOpen, kept, names, loads⟩ := gathered_body opened rfl rfl rest.empty body
    obtain ⟨atRest, ended⟩ := end_method_open _ isOpen stack slots
    refine ⟨atRest, fun other m' found => ?_⟩
    rcases ended other m' found with
      ⟨elsewhere, old⟩ | ⟨declared, isDeclared, sameName, sameDescriptor, limit, code, ranges⟩
    · rw [Program.method?, kept] at old
      exact Or.inl ((if_neg elsewhere).symm.trans ((methods other).symm.trans old))
    · rw [Program.method?, kept] at isDeclared
      have isEntered : some m = some declared :=
        (if_pos rfl).symm.trans ((methods _).symm.trans isDeclared)
      cases isEntered
      exact Or.inr ⟨sameName.trans name, sameDescriptor.trans descriptor, limit, names, code ▸ ranges ▸ loads⟩

theorem run_methods (holds : Method → Prop) (rest : b.AtRest) (told : List (List ClassEvent))
    (each : ∀ events ∈ told, Tells holds events) : (b.run told.flatten).AtRest ∧ ∀ id m,
      (b.run told.flatten).program.method? id = some m → b.program.method? id = some m ∨ holds m := by
  induction told generalizing b with
  | nil => exact ⟨rest, fun _ _ => Or.inl⟩
  | cons events told ih =>
      obtain ⟨d, body, stack, slots, rfl, good⟩ := each events (List.mem_cons_self ..)
      obtain ⟨atRest, first⟩ := b.run_method rest d body stack slots
      obtain ⟨atRest', later⟩ := ih _ atRest fun events member => each events (List.mem_cons_of_mem _ member)
      rw [List.flatten_cons, run_append]
      refine ⟨atRest', fun id m found => ?_⟩
      rcases later id m found with old | new
      · exact (first id m old).imp_right (good m)
      · exact Or.inr new

end Builder

namespace Program

theorem method?_load (p : Program) (h : ClassHeader) (fields : List FieldDecl)
    (told : List (List ClassEvent)) (holds : Method → Prop)
    (each : ∀ events ∈ told, Builder.Tells holds events) (id : MethodId) (m : Method) (found :
      (p.load (.header h :: fields.map .field ++ told.flatten ++ [.classEnd])).value.program.method? id =
        some m) : p.method? id = some m ∨ holds m := by
  let listed := (Builder.new p).run (.header h :: fields.map .field)
  let last := listed.run told.flatten
  have idles : ∀ event ∈ ClassEvent.header h :: fields.map .field, Builder.Idles event := by
    intro event member
    rcases List.mem_cons.mp member with rfl | member
    · exact Builder.idles_header h
    · obtain ⟨d, _, rfl⟩ := List.mem_map.mp member
      exact Builder.idles_field d
  obtain ⟨filled, same⟩ := Builder.idle_run (b := .new p) ⟨rfl, rfl⟩ _ idles
  obtain ⟨atRest, new⟩ := Builder.run_methods listed holds filled told each
  have isRun : (Builder.new p).run (.header h :: fields.map .field ++ told.flatten ++ [.classEnd]) =
      last.step .classEnd := by
    rw [Builder.run_append, Builder.run_append]
    rfl
  have ended : last.flush.program = last.program := congrArg Builder.program (Builder.flush_at_rest atRest)
  rw [load, isRun] at found
  change last.flush.program.method? id = some m at found
  rw [ended] at found
  rcases new id m found with old | good
  · rw [Program.method?, same] at old
    exact Or.inl old
  · exact Or.inr good

end Program

-- An instruction loads, stores or counts up a variable. There are short forms for the first four
-- slots, for each of five kinds of values.
inductive Touches (slot : UInt16) : Opcode → Operand → Prop
  | access {op : Opcode} (returns : op ≠ Opcode.ret) : Touches slot op (.var slot)
  | increment {op : Opcode} {delta : Int16} : Touches slot op (.increment slot delta)
  | shortLoad {op : Opcode} {kind : Nat} (known : kind < 5) (low : slot.toNat < 4)
      (loads : op.toNat = Opcode.iload0.toNat + 4 * kind + slot.toNat) : Touches slot op .simple
  | shortStore {op : Opcode} {kind : Nat} (known : kind < 5) (low : slot.toNat < 4)
      (stores : op.toNat = Opcode.istore0.toNat + 4 * kind + slot.toNat) : Touches slot op .simple

-- The label marks the position and none before it.
def FirstMarks (code : List Instruction) (position : Nat) (label : LabelId) : Prop :=
  Flow.Marks code position label ∧ ∀ earlier < position, ¬Flow.Marks code earlier label

-- The instruction touches the variable, from the first marker of its start on and before that of its end.
def LocalVariable.UsedBy (v : LocalVariable) (code : List Instruction) (insn : InsnId) : Prop :=
  ∃ first last position i, FirstMarks code first v.start ∧ FirstMarks code last v.stop ∧
    first ≤ position ∧ position < last ∧ code[position]? = some i ∧ i.id = insn ∧
      Touches v.slot i.opcode i.operand

namespace LocalVariable

theorem short_iff (op base : Opcode) (slot : UInt16) (above : base.toNat ≤ op.toNat)
    (below : op.toNat ≤ base.toNat + 19) : ((op - base) % 4).toUInt16 = slot ↔
      ∃ kind < 5, slot.toNat < 4 ∧ op.toNat = base.toNat + 4 * kind + slot.toNat := by
  have number : ((op - base) % 4).toUInt16.toNat = (op.toNat - base.toNat) % 4 := by
    rw [UInt8.toNat_toUInt16, UInt8.toNat_mod, UInt8.toNat_sub_of_le _ _ (UInt8.le_iff_toNat_le.mpr above)]
    rfl
  rw [← UInt16.toNat_inj, number]
  constructor
  · intro same
    exact ⟨(op.toNat - base.toNat) / 4, by omega, by omega, by omega⟩
  · intro ⟨kind, _, _, same⟩
    omega

theorem slot_of?_simple_iff (op : Opcode) (slot : UInt16) :
    slotOf? op .simple = some slot ↔ Touches slot op .simple := by
  have bounds : Opcode.iload0.toNat = 26 ∧ Opcode.aload3.toNat = 45 ∧ Opcode.istore0.toNat = 59 ∧
      Opcode.astore3.toNat = 78 := ⟨rfl, rfl, rfl, rfl⟩
  obtain ⟨load, lastLoad, store, lastStore⟩ := bounds
  -- By definition: the equations of a function over every operand are costly to derive.
  change (if Opcode.iload0 ≤ op ∧ op ≤ Opcode.aload3 then some ((op - Opcode.iload0) % 4).toUInt16
    else if Opcode.istore0 ≤ op ∧ op ≤ Opcode.astore3 then some ((op - Opcode.istore0) % 4).toUInt16
    else none) = some slot ↔ _
  simp only [UInt8.le_iff_toNat_le]
  split
  · rename_i among
    rw [Option.some.injEq, short_iff op Opcode.iload0 slot among.1 (by omega)]
    constructor
    · intro ⟨kind, known, low, loads⟩
      exact .shortLoad known low loads
    · intro touches
      cases touches with
      | shortLoad known low loads => exact ⟨_, known, low, loads⟩
      | shortStore known low stores => omega
  · rename_i noLoad
    split
    · rename_i among
      rw [Option.some.injEq, short_iff op Opcode.istore0 slot among.1 (by omega)]
      constructor
      · intro ⟨kind, known, low, stores⟩
        exact .shortStore known low stores
      · intro touches
        cases touches with
        | shortLoad known low loads => omega
        | shortStore known low stores => exact ⟨_, known, low, stores⟩
    · rename_i noStore
      constructor
      · intro none
        cases none
      · intro touches
        cases touches with
        | shortLoad known low loads => omega
        | shortStore known low stores => omega

theorem slot_of?_iff (op : Opcode) (operand : Operand) (slot : UInt16) :
    slotOf? op operand = some slot ↔ Touches slot op operand := by
  cases operand with
  | simple => exact slot_of?_simple_iff op slot
  | var other =>
      constructor
      · intro found
        obtain ⟨returns, same⟩ := Option.ite_none_left_eq_some.mp found
        cases same
        exact .access returns
      · intro touches
        cases touches with
        | access returns => exact if_neg returns
  | increment other delta =>
      constructor
      · intro found
        cases found
        exact .increment
      · intro touches
        cases touches
        rfl
  | _ =>
      constructor
      · intro none
        cases none
      · intro touches
        cases touches

theorem label_position?_first (code : List Instruction) (label : LabelId) (position : Nat) :
    Stream.labelPosition? ⟨code⟩ label = some position ↔ FirstMarks code position label := by
  rw [Stream.labelPosition?, List.findIdx?_eq_some_iff_getElem, FirstMarks]
  constructor
  · intro ⟨inside, marked, unmarked⟩
    constructor
    · rw [Flow.Marks, List.getElem?_eq_getElem inside]
      exact of_decide_eq_true marked
    · intro earlier less marks
      rw [Flow.Marks, List.getElem?_eq_getElem (Nat.lt_trans less inside)] at marks
      exact unmarked earlier less (decide_eq_true marks)
  · intro ⟨marks, unmarked⟩
    obtain ⟨i, here, marked⟩ := Option.bind_eq_some_iff.mp marks
    obtain ⟨inside, rfl⟩ := List.getElem?_eq_some_iff.mp here
    refine ⟨inside, decide_eq_true marked, ?_⟩
    intro earlier less marked'
    apply unmarked earlier less
    rw [Flow.Marks, List.getElem?_eq_getElem (Nat.lt_trans less inside)]
    exact of_decide_eq_true marked'

theorem mem_scope_iff (code : List Instruction) (v : LocalVariable) (i : Instruction) :
    i ∈ scope ⟨code⟩ v.start v.stop ↔ ∃ first last position, FirstMarks code first v.start ∧
      FirstMarks code last v.stop ∧ first ≤ position ∧ position < last ∧ code[position]? = some i := by
  simp only [← label_position?_first]
  rw [scope]
  split
  · rename_i first last starts stops
    rw [List.mem_iff_getElem?]
    simp only [starts, stops, Option.some.injEq]
    constructor
    · intro ⟨k, found⟩
      rw [List.getElem?_drop, List.getElem?_take] at found
      split at found
      · rename_i before
        exact ⟨first, last, first + k, rfl, rfl, Nat.le_add_right .., before, found⟩
      · cases found
    · intro ⟨_, _, position, rfl, rfl, after, before, here⟩
      refine ⟨position - first, ?_⟩
      rw [List.getElem?_drop, Nat.add_sub_cancel' after, List.getElem?_take_of_lt before]
      exact here
  · rename_i missing
    constructor
    · intro none
      cases none
    · intro ⟨first, last, _, starts, stops, _⟩
      exact absurd stops (missing first last starts)

theorem mem_collect (code : List Instruction) (v : LocalVariable) (insn : InsnId) :
    insn ∈ (collect ⟨code⟩ v).references ↔ v.UsedBy code insn := by
  rw [collect, OrderedSet.mem_of_list, List.mem_map]
  simp only [List.mem_filter, decide_eq_true_eq, slot_of?_iff, mem_scope_iff]
  constructor
  · intro ⟨i, ⟨⟨first, last, position, starts, stops, after, before, here⟩, touches⟩, same⟩
    exact ⟨first, last, position, i, starts, stops, after, before, here, same, touches⟩
  · intro ⟨first, last, position, i, starts, stops, after, before, here, same, touches⟩
    exact ⟨i, ⟨⟨first, last, position, starts, stops, after, before, here⟩, touches⟩, same⟩

end LocalVariable

end JvmEdit
