import JvmEdit.Annotation
import JvmEdit.Instruction
import JvmEdit.Json.Access
import JvmEdit.Text.Hex
set_option autoImplicit false

namespace JvmEdit

namespace Describe

def byte (n : Int) : UInt8 := UInt8.ofNat (n % 256).toNat

def half (n : Int) : UInt16 := UInt16.ofNat (n % 65536).toNat

def word (n : Int) : Int32 := Int32.ofInt n

end Describe

open Describe

namespace Constant

def toJson : Constant → Json
  | int value => .object [("int", .number value.toInt)]
  | float bits => .object [("float", .string (Hex.ofNat 8 bits.toNat))]
  | long value => .object [("long", .string (toString value.toInt))]
  | double bits => .object [("double", .string (Hex.ofNat 16 bits.toNat))]
  | string text => .object [("str", .string text)]
  | classRef name => .object [("class", .string name)]
  | methodType descriptor => .object [("mtype", .string descriptor)]
  | methodHandle kind owner name descriptor isInterface =>
      .object [("handle", .array [.ofNat kind.toNat, .string owner, .string name,
        .string descriptor, .bool isInterface])]
  | dynamic name descriptor bootstrap =>
      .object [("dyn", .array [.string name, .string descriptor, .ofNat bootstrap.toNat])]

def ofJson (j : Json) : Constant :=
  match j with
  | .object (("int", v) :: _) => int (word v.toInt)
  | .object (("float", v) :: _) => float (UInt32.ofNat (Hex.number v.toText))
  | .object (("long", v) :: _) => long (Int64.ofInt (v.toText.toInt?.getD 0))
  | .object (("double", v) :: _) => double (UInt64.ofNat (Hex.number v.toText))
  | .object (("str", v) :: _) => string v.toText
  | .object (("class", v) :: _) => classRef v.toText
  | .object (("mtype", v) :: _) => methodType v.toText
  | .object (("handle", v) :: _) =>
      methodHandle (byte (v.nth 0).toInt) (v.nth 1).toText (v.nth 2).toText (v.nth 3).toText
        (v.nth 4).isTrue
  | .object (("dyn", v) :: _) => dynamic (v.nth 0).toText (v.nth 1).toText (half (v.nth 2).toInt)
  | _ => int 0

end Constant

namespace BootstrapMethod

def toJson (b : BootstrapMethod) : Json :=
  .object [("handle", b.handle.toJson), ("args", .array (b.arguments.map Constant.toJson))]

def ofJson (j : Json) : BootstrapMethod :=
  ⟨.ofJson ((j.given? "handle").getD .null), (j.listAt "args").map .ofJson⟩

end BootstrapMethod

namespace AnnotationValue

def toJson : AnnotationValue → Json
  | int value => .object [("int", .string (toString value.toInt))]
  | bool value => .object [("bool", .bool value)]
  | text value => .object [("str", .string value)]

def ofJson (j : Json) : AnnotationValue :=
  match j with
  | .object (("int", v) :: _) => int (Int64.ofInt (v.toText.toInt?.getD v.toInt))
  | .object (("bool", v) :: _) => bool v.isTrue
  | .object (("str", v) :: _) => text v.toText
  | _ => text ""

end AnnotationValue

namespace Annotation

def valuesOfJson (pairs : List Json) : List (String × AnnotationValue) :=
  pairs.map fun pair => ((pair.nth 0).toText, .ofJson (pair.nth 1))

def toJson (a : Annotation) : Json :=
  .object [("desc", .string a.descriptor),
    ("values", .array (a.values.map fun (name, value) => .array [.string name, value.toJson]))]

def ofJson (j : Json) : Annotation := ⟨j.textAt "desc", valuesOfJson (j.listAt "values")⟩

end Annotation

namespace Opcode

-- The mnemonic, or the number of a code that has none.
def toJson (op : Opcode) : Json :=
  if op = label || op.isValid then .string op.name else .ofNat op.toNat

-- A mnemonic or a number; a mnemonic that does not exist counts as the instruction without
-- effect.
def ofJson (j : Json) : Opcode :=
  match j with
  | .string name => (ofName? name).getD nop
  | j => byte j.toInt

-- How a call instruction picks the method.
def callKind (op : Opcode) : CallKind :=
  if op = invokeInterface then .interface
  else if op = invokeSpecial then .special
  else if op = invokeStatic then .static
  else .virtual

def fieldMode (op : Opcode) : FieldMode := if op = getStatic || op = getField then .read else .write

def isStaticField (op : Opcode) : Bool := op = getStatic || op = putStatic

end Opcode

abbrev LabelNames := StateM (Array String)

namespace LabelNames

-- The number of a label, which a name gets when it is first mentioned.
def number (name : String) : LabelNames LabelId := do
  let names ← get
  match names.idxOf? name with
  | some n => return ⟨n⟩
  | none => do
      set (names.push name)
      return ⟨names.size⟩

def ofJson (j : Json) : LabelNames LabelId := number j.toText

end LabelNames

namespace Operand

def toJson (label : LabelId → Json) (op : Opcode) (operand : Operand) : Json :=
  let row := fun (parts : List Json) => Json.array (op.toJson :: parts)
  match operand with
  | .label l => .array [.string "label", label l]
  | simple => row []
  | int value => row [.string "int", .number value.toInt]
  | var slot => row [.string "var", .ofNat slot.toNat]
  | increment slot delta => row [.string "iinc", .ofNat slot.toNat, .number delta.toInt]
  | constant value => row [.string "const", value.toJson]
  | jump target => row [.string "jump", label target]
  | switch otherwise cases =>
      row [.string "switch", label otherwise,
        .array (cases.map fun (key, l) => .array [.number key.toInt, label l])]
  | field u =>
      row [.string "field", .string u.owner, .string u.name, .string u.descriptor,
        .string u.mode.name, .bool u.isStatic]
  | call c =>
      row [.string "method", .string c.owner, .string c.name, .string c.descriptor,
        .bool c.isInterface, .string c.kind.name]
  | dynamicCall c =>
      row [.string "indy", .ofNat c.bootstrap.toNat, .string c.name, .string c.descriptor]
  | type name => row [.string "type", .string name]
  | newArray code => row [.string "newarray", .ofNat code.toNat]
  | multiArray name dimensions => row [.string "multi", .string name, .ofNat dimensions.toNat]

-- An operand from its kind and its parts. What the operand of a field or a call leaves open
-- follows from the instruction.
def ofJson (op : Opcode) (kind : String) (parts : Json) : LabelNames Operand := do
  let text := fun n => (parts.nth n).toText
  let value := fun n => (parts.nth n).toInt
  match kind with
  | "int" => return .int (word (value 0))
  | "var" => return .var (half (value 0))
  | "iinc" => return .increment (half (value 0)) (half (value 1)).toInt16
  | "const" => return .constant (.ofJson (parts.nth 0))
  | "jump" => return .jump (← LabelNames.ofJson (parts.nth 0))
  | "switch" => do
      let otherwise ← LabelNames.ofJson (parts.nth 0)
      let cases ← (parts.nth 1).toList.mapM fun c => do
        return (word (c.nth 0).toInt, ← LabelNames.ofJson (c.nth 1))
      return .switch otherwise cases
  | "field" => return .field ⟨text 0, text 1, text 2, op.fieldMode, op.isStaticField⟩
  | "method" =>
      let isInterface := match parts.nth 3 with
        | .bool given => given
        | _ => op = Opcode.invokeInterface
      return .call ⟨text 0, text 1, text 2, isInterface, op.callKind⟩
  | "indy" => return .dynamicCall ⟨text 1, text 2, half (value 0)⟩
  | "type" => return .type (text 0)
  | "newarray" => return .newArray (byte (value 0))
  | "multi" => return .multiArray (text 0) (byte (value 1))
  | _ => return .simple

def instructionOfJson (j : Json) : LabelNames (Opcode × Operand) := do
  match j.toList with
  | .string "label" :: name :: _ => return (Opcode.label, .label (← LabelNames.ofJson name))
  | op :: kind :: parts =>
      let op := Opcode.ofJson op
      return (op, ← ofJson op kind.toText (.array parts))
  | _ => return (Opcode.ofJson (j.nth 0), .simple)

end Operand

end JvmEdit
