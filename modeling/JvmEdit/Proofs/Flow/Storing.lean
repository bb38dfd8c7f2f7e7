import JvmEdit.Proofs.Flow.Paths
set_option autoImplicit false

namespace JvmEdit

-- What a field or a place of the stack holds.
inductive Datum
  | constant (value : Constant)
  | null
  | object (number : Nat)
  deriving DecidableEq, Repr

namespace Datum

-- What a field of that type holds before anything is stored into it.
def initial (descriptor : String) : Datum :=
  match descriptor with
  | "I" | "S" | "B" | "C" | "Z" => constant (.int 0)
  | "J" => constant (.long 0)
  | "F" => constant (.float 0)
  | "D" => constant (.double 0)
  | _ => null

-- What a field of that type keeps of a value: a narrow one keeps the low bits of an integer.
def narrowed (descriptor : String) (datum : Datum) : Datum :=
  match descriptor, datum with
  | "Z", constant (.int value) => constant (.int (value &&& 1))
  | "B", constant (.int value) => constant (.int value.toInt8.toInt32)
  | "S", constant (.int value) => constant (.int value.toInt16.toInt32)
  | "C", constant (.int value) => constant (.int (value &&& 0xffff))
  | _, datum => datum

end Datum

-- The number that a code loads by itself, told by its place among its kind.
def Opcode.number? (op : Opcode) : Option Constant :=
  if iconstM1 ≤ op ∧ op ≤ iconst5 then some (.int (Int32.ofInt (op.toNat - iconst0.toNat)))
  else if lconst0 ≤ op ∧ op ≤ lconst1 then some (.long (Int64.ofInt (op.toNat - lconst0.toNat)))
  else if fconst0 ≤ op ∧ op ≤ fconst2 then
    [0, 0x3f800000, 0x40000000][(op - fconst0).toNat]?.map .float
  else if dconst0 ≤ op ∧ op ≤ dconst1 then [0, 0x3ff0000000000000][(op - dconst0).toNat]?.map .double
  else none

-- The number or the text that an instruction puts on the stack.
def Instruction.loaded? (i : Instruction) : Option Constant :=
  match i.operand with
  | .simple => i.opcode.number?
  | .int value => if i.opcode = Opcode.bipush ∨ i.opcode = Opcode.sipush then some (.int value) else none
  | .constant (.int value) => some (.int value)
  | .constant (.float bits) => some (.float bits)
  | .constant (.long value) => some (.long value)
  | .constant (.double bits) => some (.double bits)
  | .constant (.string text) => some (.string text)
  | _ => none

namespace Flow

-- A static field of some type, and which uses of fields come to it.
structure Cell where
  descriptor : String
  reached : FieldUse → Prop

def Cell.Stores (cell : Cell) (i : Instruction) : Prop :=
  i.opcode = Opcode.putStatic ∧ ∃ use, i.operand = .field use ∧ cell.reached use

structure Moment where
  position : Nat
  stack : List Datum
  held : Datum
  -- Where the field was last stored into.
  writer : Option Nat
  deriving DecidableEq, Repr

section Body

variable (code : List Instruction) (ranges : List TryRange) (cell : Cell)

-- Control moves on from an instruction that has been carried out; from a subroutine it comes back
-- behind an instruction that calls one.
inductive GoesOn : Nat → Nat → Prop
  | target {position goal : Nat} {i : Instruction} {label : LabelId} (here : code[position]? = some i)
      (named : label ∈ i.targets) (stands : Stands code label goal) : GoesOn position goal
  | next {position : Nat} {i : Instruction} (here : code[position]? = some i)
      (continues : i.continues = true) (stays : i.callsSubroutine = false) : GoesOn position (position + 1)
  | comeBack {position caller : Nat} {i j : Instruction} (here : code[position]? = some i)
      (returns : i.opcode = Opcode.ret) (there : code[caller]? = some j)
      (calls : j.callsSubroutine = true) : GoesOn position (caller + 1)

inductive Advances : Moment → Moment → Prop
  | load {position goal : Nat} {stack : List Datum} {held : Datum} {writer : Option Nat} {i : Instruction}
      {value : Constant} (here : code[position]? = some i) (loads : i.loaded? = some value)
      (goesOn : GoesOn code position goal) :
      Advances ⟨position, stack, held, writer⟩ ⟨goal, .constant value :: stack, held, writer⟩
  | store {position goal : Nat} {stack : List Datum} {datum held : Datum} {writer : Option Nat}
      {i : Instruction} (here : code[position]? = some i) (stores : cell.Stores i)
      (goesOn : GoesOn code position goal) :
      Advances ⟨position, datum :: stack, held, writer⟩
        ⟨goal, stack, datum.narrowed cell.descriptor, some position⟩
  | other {position goal : Nat} {stack stack' : List Datum} {held : Datum} {writer : Option Nat}
      {i : Instruction} (here : code[position]? = some i) (unloading : i.loaded? = none)
      (unstoring : ¬cell.Stores i) (goesOn : GoesOn code position goal) :
      Advances ⟨position, stack, held, writer⟩ ⟨goal, stack', held, writer⟩
  | raise {position entry height : Nat} {stack : List Datum} {thrown held : Datum} {writer : Option Nat}
      (raises : Raises code ranges ⟨position, height⟩ ⟨entry, 1⟩) :
      Advances ⟨position, stack, held, writer⟩ ⟨entry, [thrown], held, writer⟩

-- The run starts with a value in the field and has come to an instruction that returns.
def Completes (before : Datum) (last : Moment) : Prop :=
  Relation.ReflTransGen (Advances code ranges cell) ⟨0, [], before, none⟩ last ∧
    ∃ i, code[last.position]? = some i ∧ i.opcode.isReturn = true

-- Whatever normal end a run comes to, the field holds the value then.
def EndsWith (before after : Datum) : Prop := ∀ last, Completes code ranges cell before last → last.held = after

-- Where the value comes from: from before the run, or from a store that the run has carried out.
inductive Stems (before : Datum) (now : Moment) : Prop
  | unstored (none : now.writer = none) (same : now.held = before)
  | stored {position : Nat} {i : Instruction} (writer : now.writer = some position)
      (here : code[position]? = some i) (stores : cell.Stores i)

-- An instruction that loads a constant, and behind it one that stores it.
structure Pair (position : Nat) (push put : Instruction) (value : Constant) : Prop where
  first : code[position]? = some push
  second : code[position + 1]? = some put
  loads : push.loaded? = some value
  stores : put.opcode = Opcode.putStatic
  field : ∃ use, put.operand = .field use

end Body

variable {code : List Instruction} {ranges : List TryRange} {cell : Cell} {before : Datum}

theorem Stems.advance {s t : Moment} (stems : Stems code cell before s)
    (advances : Advances code ranges cell s t) : Stems code cell before t := by
  cases advances with
  | load =>
      cases stems with
      | unstored none same => exact .unstored none same
      | stored writer here stores => exact .stored writer here stores
  | store here stores => exact .stored rfl here stores
  | other =>
      cases stems with
      | unstored none same => exact .unstored none same
      | stored writer here stores => exact .stored writer here stores
  | raise =>
      cases stems with
      | unstored none same => exact .unstored none same
      | stored writer here stores => exact .stored writer here stores

theorem stems_of_completes {last : Moment} (completes : Completes code ranges cell before last) :
    Stems code cell before last := by
  obtain ⟨run, -⟩ := completes
  induction run with
  | refl => exact .unstored rfl rfl
  | tail _ advances stems => exact stems.advance advances

-- In front of the store the constant lies on the stack, and what the store writes is the constant.
structure OnTop (position : Nat) (value : Constant) (cell : Cell) (s : Moment) : Prop where
  top : s.position = position + 1 → ∃ rest, s.stack = .constant value :: rest
  written : s.writer = some (position + 1) → s.held = (Datum.constant value).narrowed cell.descriptor

section Pair

variable {position : Nat} {push put : Instruction} {value : Constant}
  (pair : Pair code position push put value)

include pair

theorem Pair.unmarked (label : LabelId) : ¬Marks code (position + 1) label := by
  intro marks
  obtain ⟨use, operand⟩ := pair.field
  rw [Marks, pair.second, Option.bind_some, Instruction.label?, operand] at marks
  cases marks

theorem Pair.calls : push.callsSubroutine = false := by
  have loads := pair.loads
  rw [Instruction.loaded?] at loads
  rw [Instruction.callsSubroutine]
  split
  · rename_i jumps
    rw [jumps] at loads
    cases loads
  · rfl

theorem Pair.before_store {from' : Nat} (goesOn : GoesOn code from' (position + 1)) : from' = position := by
  cases goesOn with
  | target _ _ stands => exact absurd stands.1 (pair.unmarked _)
  | next => rfl
  | comeBack _ _ there calls =>
      cases pair.first.symm.trans there
      cases pair.calls.symm.trans calls

theorem Pair.on_top_advance {s t : Moment} (onTop : OnTop position value cell s)
    (advances : Advances code ranges cell s t) : OnTop position value cell t := by
  cases advances with
  | @load from' goal stack held writer i loaded here loads goesOn =>
      refine ⟨?_, onTop.written⟩
      rintro rfl
      obtain rfl := pair.before_store goesOn
      cases pair.first.symm.trans here
      cases pair.loads.symm.trans loads
      exact ⟨stack, rfl⟩
  | @store from' goal stack datum held writer i here stores goesOn =>
      constructor
      · rintro rfl
        obtain rfl := pair.before_store goesOn
        cases pair.first.symm.trans here
        obtain ⟨_, use, operand, _⟩ := stores
        have loads := pair.loads
        rw [Instruction.loaded?, operand] at loads
        cases loads
      · intro own
        cases own
        obtain ⟨rest, top⟩ := onTop.top rfl
        cases top
        rfl
  | other here unloading _ goesOn =>
      refine ⟨?_, onTop.written⟩
      rintro rfl
      obtain rfl := pair.before_store goesOn
      cases pair.first.symm.trans here
      cases pair.loads.symm.trans unloading
  | raise raises =>
      refine ⟨?_, onTop.written⟩
      rintro rfl
      cases raises with
      | handler _ _ _ enters => exact absurd enters.1 (pair.unmarked _)

theorem Pair.held_of_writer {last : Moment} (completes : Completes code ranges cell before last)
    (writer : last.writer = some (position + 1)) :
    last.held = (Datum.constant value).narrowed cell.descriptor := by
  obtain ⟨run, -⟩ := completes
  have onTop : OnTop position value cell last := by
    clear writer
    induction run with
    | refl => exact ⟨nofun, nofun⟩
    | tail _ advances onTop => exact pair.on_top_advance onTop advances
  exact onTop.written writer

end Pair

end Flow

end JvmEdit
