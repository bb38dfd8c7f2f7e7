import JvmEdit.ClassFile.Code
import JvmEdit.ClassFile.PoolBuilder
import JvmEdit.Flow.Analysis
set_option autoImplicit false

namespace JvmEdit

namespace Assembler

-- The index of the pool entry that an operand needs, 0 when it needs none.
def operandIndex : Operand → Encoder UInt16
  | .constant value => PoolBuilder.constant value
  | .field use => PoolBuilder.fieldRef use.owner use.name use.descriptor
  | .call call => PoolBuilder.methodRef call.owner call.name call.descriptor call.isInterface
  | .dynamicCall call => PoolBuilder.dynamicCall call.bootstrap call.name call.descriptor
  | .type name => PoolBuilder.className name
  | .multiArray name _ => PoolBuilder.className name
  | _ => pure 0

-- Everything an instruction needs to be written, but for its place.
structure Line where
  opcode : Opcode
  operand : Operand
  index : UInt16
  deriving DecidableEq, Repr, Inhabited

def linesOnto (reversed : List Line) : List Instruction → Encoder (List Line)
  | [] => pure reversed.reverse
  | i :: code => do
      let index ← operandIndex i.operand
      linesOnto (⟨i.opcode, i.operand, index⟩ :: reversed) code

def lines (code : List Instruction) : Encoder (List Line) := linesOnto [] code

def fitsByte (slot : UInt16) : Bool := slot ≤ 255

def fitsSignedByte (delta : Int16) : Bool := -128 ≤ delta.toInt && delta.toInt ≤ 127

def fitsSignedShort (distance : Int) : Bool := -32768 ≤ distance && distance ≤ 32767

def isWideBranch (op : Opcode) : Bool := op = Opcode.gotoW || op = Opcode.jsrW

def hasWideForm (op : Opcode) : Bool := op = Opcode.goto || op = Opcode.jsr

-- The smallest and the greatest key; `(0, -1)` when there is none.
def keyBounds (cases : List (Int32 × LabelId)) : Int × Int :=
  match cases.map fun c => c.1.toInt with
  | [] => (0, -1)
  | key :: keys => (keys.foldl min key, keys.foldl max key)

def keySpan (cases : List (Int32 × LabelId)) : Nat :=
  let (low, high) := keyBounds cases
  (high - low + 1).toNat

-- The span of a table is cut to four bytes before it is multiplied.
def size (line : Line) (offset : Nat) (isFar : Bool) : Nat :=
  match line.operand with
  | .label _ => 0
  | .simple => 1
  | .int _ => if line.opcode = Opcode.sipush then 3 else 2
  | .var slot => if fitsByte slot then 2 else 4
  | .increment slot delta => if fitsByte slot && fitsSignedByte delta then 3 else 6
  | .constant value => if value.slots = 2 || !fitsByte line.index then 3 else 2
  | .jump _ =>
      if isWideBranch line.opcode then 5
      else if !isFar then 3
      else if hasWideForm line.opcode then 5
      else 8
  | .switch _ cases =>
      1 + Code.padding offset +
        if line.opcode = Opcode.tableSwitch then 12 + 4 * (keySpan cases % UInt32.size)
        else 8 + 8 * cases.length
  | .call _ => if line.opcode = Opcode.invokeInterface then 5 else 3
  | .field _ | .type _ => 3
  | .dynamicCall _ => 5
  | .newArray _ => 2
  | .multiArray _ _ => 4

-- Where each instruction starts, and behind the last of them where the code ends.
def offsetsOnto (offsets : Array Nat) (offset : Nat) : List Line → List Bool → Array Nat
  | line :: lines, isFar :: far =>
      offsetsOnto (offsets.push offset) (offset + size line offset isFar) lines far
  | _, _ => offsets.push offset

structure Layout where
  offsets : Array Nat
  far : List Bool
  deriving Repr, Inhabited

namespace Layout

def offset (l : Layout) (position : Nat) : Nat := l.offsets.getD position 0

def length (l : Layout) : Nat := l.offsets.back?.getD 0

end Layout

-- What every part of the writing looks at: the name for messages, and the labels by position.
structure Context where
  method : String
  labels : List (LabelId × Nat)
  deriving Repr, Inhabited

namespace Context

-- The offset of a label under a layout.
def target (c : Context) (layout : Layout) (label : LabelId) : Except EncodeError Nat :=
  match c.labels.lookup label with
  | some position => .ok (layout.offset position)
  | none => .error (.unknownLabel c.method label)

def distance (c : Context) (layout : Layout) (offset : Nat) (label : LabelId) :
    Except EncodeError Int :=
  (fun (target : Nat) => (target : Int) - offset) <$> c.target layout label

-- The branches that have to be far: those that were, and those whose distance does not fit.
def widenOnto (c : Context) (layout : Layout) (reversed : List Bool) (position : Nat) :
    List Line → List Bool → Except EncodeError (List Bool)
  | line :: lines, isFar :: far =>
      match line.operand with
      | .jump label =>
          if isFar || isWideBranch line.opcode then
            c.widenOnto layout (isFar :: reversed) (position + 1) lines far
          else do
            let distance ← c.distance layout (layout.offset position) label
            c.widenOnto layout ((!fitsSignedShort distance) :: reversed) (position + 1) lines far
      | _ => c.widenOnto layout (isFar :: reversed) (position + 1) lines far
  | _, _ => .ok reversed.reverse

-- Lays the code out. Every round but the last makes a branch far, so as many rounds as there are
-- instructions, and one more, are enough.
def layoutFrom (c : Context) (lines : List Line) : Nat → List Bool → Except EncodeError Layout
  | 0, _ => .error (.codeTooLarge c.method)
  | rounds + 1, far => do
      let layout : Layout := ⟨offsetsOnto #[] 0 lines far, far⟩
      if UInt32.size ≤ layout.length then .error .arithmetic
      else if 65535 < layout.length then .error (.codeTooLarge c.method)
      else
        let widened ← c.widenOnto layout [] 0 lines far
        if widened = far then return layout else c.layoutFrom lines rounds widened

def layout (c : Context) (lines : List Line) : Except EncodeError Layout :=
  c.layoutFrom lines (lines.length + 1) (List.replicate lines.length false)

end Context

-- The opposite condition; only branches have one.
def inverted (op : Opcode) : Except EncodeError Opcode :=
  if op = Opcode.ifNull then .ok Opcode.ifNonNull
  else if op = Opcode.ifNonNull then .ok Opcode.ifNull
  else if op < Opcode.ifEq then .error .arithmetic
  else if (op - Opcode.ifEq) % 2 = 0 then if op = 255 then .error .arithmetic else .ok (op + 1)
  else .ok (op - 1)

def i32 (n : Int) : List UInt8 := Bytes.u32 (Int32.ofInt n).toUInt32

def i16 (n : Int) : List UInt8 := Bytes.u16 (Int16.ofInt n).toUInt16

def i8 (n : Int) : UInt8 := (Int8.ofInt n).toUInt8

namespace Context

def jumpBytes (c : Context) (layout : Layout) (offset : Nat) (isFar : Bool) (op : Opcode)
    (label : LabelId) : Except EncodeError (List UInt8) := do
  let distance ← c.distance layout offset label
  if isWideBranch op then return op :: i32 distance
  else if !isFar then return op :: i16 distance
  else if op = Opcode.goto then return Opcode.gotoW :: i32 distance
  else if op = Opcode.jsr then return Opcode.jsrW :: i32 distance
  else
    let hop ← inverted op
    return hop :: i16 8 ++ Opcode.gotoW :: i32 (distance - 3)

-- Keys are sorted; a table has an entry for every key between its bounds.
def switchBytes (c : Context) (layout : Layout) (offset : Nat) (op : Opcode) (otherwise : LabelId)
    (cases : List (Int32 × LabelId)) : Except EncodeError (List UInt8) := do
  let relative := fun label => i32 <$> c.distance layout offset label
  let head := op :: List.replicate (Code.padding offset) 0
  let default ← relative otherwise
  if op = Opcode.tableSwitch then
    let (low, high) := keyBounds cases
    let entries ← (List.range (keySpan cases)).mapM fun (i : Nat) =>
      relative ((cases.lookup (Int32.ofInt (low + i))).getD otherwise)
    return head ++ default ++ i32 low ++ i32 high ++ entries.flatten
  else
    let sorted := cases.mergeSort fun a b => a.1 ≤ b.1
    let entries ← sorted.mapM fun (key, label) => do
      let distance ← relative label
      return i32 key.toInt ++ distance
    return head ++ default ++ i32 cases.length ++ entries.flatten

def lineBytes [Libraries] (c : Context) (layout : Layout) (offset : Nat) (isFar : Bool) (line : Line) :
    Except EncodeError (List UInt8) :=
  let op := line.opcode
  match line.operand with
  | .label _ => .ok []
  | .simple => .ok [op]
  | .int value => .ok (if op = Opcode.sipush then op :: i16 value.toInt else [op, i8 value.toInt])
  | .var slot =>
      .ok (if fitsByte slot then [op, slot.toUInt8] else Opcode.wide :: op :: Bytes.u16 slot)
  | .increment slot delta =>
      .ok (if fitsByte slot && fitsSignedByte delta then
          [Opcode.iinc, slot.toUInt8, i8 delta.toInt]
        else Opcode.wide :: Opcode.iinc :: Bytes.u16 slot ++ Bytes.u16 delta.toUInt16)
  | .constant value =>
      .ok (if value.slots = 2 then Opcode.ldc2W :: Bytes.u16 line.index
        else if !fitsByte line.index then Opcode.ldcW :: Bytes.u16 line.index
        else [Opcode.ldc, line.index.toUInt8])
  | .jump label => c.jumpBytes layout offset isFar op label
  | .switch otherwise cases => c.switchBytes layout offset op otherwise cases
  | .field _ | .type _ => .ok (op :: Bytes.u16 line.index)
  | .call call =>
      .ok (op :: Bytes.u16 line.index ++
        if op = Opcode.invokeInterface then
          let arguments := ((Descriptor.methodSlots? call.descriptor).map Prod.fst).getD 0
          [UInt8.ofNat (min (arguments + 1) 255), 0]
        else [])
  | .dynamicCall _ => .ok (op :: Bytes.u16 line.index ++ [0, 0])
  | .newArray code => .ok [op, code]
  | .multiArray _ dimensions => .ok (op :: Bytes.u16 line.index ++ [dimensions])

-- Writes instructions behind those written so far, which are kept in reverse.
def emitOnto [Libraries] (c : Context) (layout : Layout) (reversed : List (List UInt8))
    (position : Nat) : List Line → List Bool → Except EncodeError (List UInt8)
  | line :: lines, isFar :: far => do
      let bytes ← c.lineBytes layout (layout.offset position) isFar line
      c.emitOnto layout (bytes :: reversed) (position + 1) lines far
  | _, _ => .ok reversed.reverse.flatten

def emit [Libraries] (c : Context) (layout : Layout) (lines : List Line) : Except EncodeError
    (List UInt8) :=
  c.emitOnto layout [] 0 lines layout.far

end Context

end Assembler

end JvmEdit
