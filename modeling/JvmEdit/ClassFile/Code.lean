import JvmEdit.ClassFile.Pool
import JvmEdit.Load.Event
set_option autoImplicit false

namespace JvmEdit

namespace Code

-- A protected range with its catch type looked up.
structure RawRange where
  start : UInt16
  stop : UInt16
  handler : UInt16
  catchType : Option String
  deriving DecidableEq, Repr, Inhabited

structure RawLocal where
  start : UInt16
  length : UInt16
  name : String
  descriptor : String
  signature : Option String
  slot : UInt16
  deriving DecidableEq, Repr, Inhabited

namespace RawLocal

def stop (v : RawLocal) : Nat := v.start.toNat + v.length.toNat

end RawLocal

-- An operand whose targets are still offsets.
inductive RawOperand
  | ready (operand : Operand)
  | jump (target : Nat)
  | switch (otherwise : Nat) (cases : List (Int32 × Nat))
  deriving DecidableEq, Repr, Inhabited

namespace RawOperand

def targets : RawOperand → List Nat
  | ready _ => []
  | jump target => [target]
  | switch otherwise cases => otherwise :: cases.map Prod.snd

end RawOperand

structure RawInstruction where
  offset : Nat
  opcode : Opcode
  operand : RawOperand
  deriving DecidableEq, Repr, Inhabited

def branchTarget (offset : Nat) (distance : Int) : Except DecodeError Nat :=
  let target := offset + distance
  if 0 ≤ target then .ok target.toNat else .error (.badTarget offset target)

-- Bytes after the code of a switch that bring its operands to a multiple of four.
def padding (offset : Nat) : Nat := (4 - (offset + 1) % 4) % 4

def readBranch (offset : Nat) : Reader Nat := do
  let distance ← Reader.i32
  branchTarget offset distance.toInt

def readTableSwitch (offset : Nat) : Reader RawOperand := do
  Reader.skip (padding offset)
  let otherwise ← readBranch offset
  let low ← Reader.i32
  let high ← Reader.i32
  if high < low then Reader.fail (.classFile (.emptyTable offset low high))
  else
    let count := (high.toInt - low.toInt + 1).toNat
    let targets ← Reader.times count (readBranch offset)
    return .switch otherwise (targets.mapIdx fun i target => (low + Int32.ofNat i, target))

def readLookupSwitch (offset : Nat) : Reader RawOperand := do
  Reader.skip (padding offset)
  let otherwise ← readBranch offset
  let count ← Reader.i32
  let cases ← Reader.times count.toInt.toNat do
    let key ← Reader.i32
    let target ← readBranch offset
    return (key, target)
  return .switch otherwise cases

def takesSlot (op : Opcode) : Bool :=
  (Opcode.iload ≤ op && op ≤ Opcode.aload) || (Opcode.istore ≤ op && op ≤ Opcode.astore) ||
    op = Opcode.ret

def readWide (offset : Nat) : Reader (Opcode × RawOperand) := do
  let op : Opcode ← Reader.u8
  let slot ← Reader.u16
  if op = Opcode.iinc then
    let delta ← Reader.i16
    return (op, .ready (.increment slot delta))
  else if takesSlot op then return (op, .ready (.var slot))
  else Reader.fail (.unknownOpcode op (offset + 1))

def callKind (op : Opcode) : CallKind :=
  if op = Opcode.invokeVirtual then .virtual
  else if op = Opcode.invokeSpecial then .special
  else if op = Opcode.invokeStatic then .static
  else .interface

-- The operand that follows an instruction code.
def readOperand (pool : Pool) (op : Opcode) : Reader Operand := do
  if op ≤ Opcode.dconst1 then return .simple
  else if op = Opcode.bipush then
    let value ← Reader.i8
    return .int value.toInt32
  else if op = Opcode.sipush then
    let value ← Reader.i16
    return .int value.toInt32
  else if op = Opcode.ldc then
    let index ← Reader.u8
    let value ← pool.constant index.toUInt16
    return .constant value
  else if op = Opcode.ldcW || op = Opcode.ldc2W then
    let index ← Reader.u16
    let value ← pool.constant index
    return .constant value
  else if takesSlot op then
    let slot ← Reader.u8
    return .var slot.toUInt16
  else if op = Opcode.iinc then
    let slot ← Reader.u8
    let delta ← Reader.i8
    return .increment slot.toUInt16 delta.toInt16
  else if op < Opcode.ifEq then return .simple
  else if op.isReturn then return .simple
  else if Opcode.getStatic ≤ op && op ≤ Opcode.putField then
    let index ← Reader.u16
    let m ← pool.member index
    let mode : FieldMode := if op = Opcode.getStatic || op = Opcode.getField then .read else .write
    let isStatic := op = Opcode.getStatic || op = Opcode.putStatic
    return .field ⟨m.owner, m.name, m.descriptor, mode, isStatic⟩
  else if Opcode.invokeVirtual ≤ op && op ≤ Opcode.invokeInterface then
    let index ← Reader.u16
    let m ← pool.member index
    if op = Opcode.invokeInterface then Reader.skip 2
    return .call ⟨m.owner, m.name, m.descriptor, m.isInterface, callKind op⟩
  else if op = Opcode.invokeDynamic then
    let index ← Reader.u16
    let call ← pool.dynamicCall index
    Reader.skip 2
    return .dynamicCall call
  else if op = Opcode.newObject || op = Opcode.newRefArray || op = Opcode.checkCast ||
      op = Opcode.instanceOf then
    let index ← Reader.u16
    let name ← pool.className index
    return .type name
  else if op = Opcode.newArray then
    let code ← Reader.u8
    return .newArray code
  else if op = Opcode.newMultiArray then
    let index ← Reader.u16
    let name ← pool.className index
    let dimensions ← Reader.u8
    return .multiArray name dimensions
  else return .simple

def isShortBranch (op : Opcode) : Bool :=
  (Opcode.ifEq ≤ op && op ≤ Opcode.jsr) || op = Opcode.ifNull || op = Opcode.ifNonNull

def readInstruction (pool : Pool) : Reader RawInstruction := do
  let offset ← Reader.offset
  let op : Opcode ← Reader.u8
  if isShortBranch op then
    let distance ← Reader.i16
    let target ← branchTarget offset distance.toInt
    return ⟨offset, op, .jump target⟩
  else if op = Opcode.gotoW || op = Opcode.jsrW then
    let target ← readBranch offset
    return ⟨offset, op, .jump target⟩
  else if op = Opcode.tableSwitch then
    let operand ← readTableSwitch offset
    return ⟨offset, op, operand⟩
  else if op = Opcode.lookupSwitch then
    let operand ← readLookupSwitch offset
    return ⟨offset, op, operand⟩
  else if op = Opcode.wide then
    let (op, operand) ← readWide offset
    return ⟨offset, op, operand⟩
  else if op.isValid then
    let operand ← readOperand pool op
    return ⟨offset, op, .ready operand⟩
  else Reader.fail (.unknownOpcode op offset)

-- Reads instructions onto those read so far. Each takes a byte at least, so `fuel` as great as
-- the length of the code is enough.
def readOnto (pool : Pool) : Nat → List RawInstruction → Reader (List RawInstruction)
  | 0, reversed => pure reversed.reverse
  | fuel + 1, reversed => do
      if ← Reader.isAtEnd then return reversed.reverse
      let i ← readInstruction pool
      readOnto pool fuel (i :: reversed)

def readInstructions (pool : Pool) (bytes : List UInt8) : Except DecodeError (List RawInstruction) :=
  Prod.fst <$> (readOnto pool bytes.length []).runOn bytes

-- A reference to an offset, with the offset that is to blame for it.
structure Mention where
  source : Nat
  target : Nat
  deriving DecidableEq, Repr, Inhabited

namespace Mention

def le (a b : Mention) : Bool := a.source < b.source || (a.source == b.source && a.target ≤ b.target)

end Mention

def mentions (instructions : List RawInstruction) (ranges : List RawRange)
    (locals : List RawLocal) : List Mention :=
  instructions.flatMap (fun i => i.operand.targets.map fun target => ⟨i.offset, target⟩) ++
    ranges.flatMap (fun r => [r.start, r.stop, r.handler].map fun pc => ⟨r.start.toNat, pc.toNat⟩) ++
    locals.flatMap fun v => [⟨v.start.toNat, v.start.toNat⟩, ⟨v.start.toNat, v.stop⟩]

-- For each offset from 0 to `size` whether it is among `offsets`.
def offsetFlags (size : Nat) (offsets : List Nat) : Array Bool :=
  offsets.foldl (fun flags offset => flags.setIfInBounds offset true) (Array.replicate (size + 1) false)

-- Numbers the flagged offsets in rising order.
def numberOffsets (flags : Array Bool) : Array (Option LabelId) × Nat :=
  flags.foldl (fun (numbers, next) flag =>
    if flag then (numbers.push (some ⟨next⟩), next + 1) else (numbers.push none, next)) (#[], 0)

structure Body where
  labelCount : Nat
  instructions : List (Opcode × Operand)
  ranges : List TryDecl
  locals : List LocalDecl
  deriving DecidableEq, Repr, Inhabited

structure LabelMap where
  numbers : Array (Option LabelId)
  deriving Repr, Inhabited

namespace LabelMap

def get? (m : LabelMap) (offset : Nat) : Option LabelId := (m.numbers[offset]?).join

def label (m : LabelMap) (offset : Nat) : LabelId := (m.get? offset).getD ⟨0⟩

def operand (m : LabelMap) : RawOperand → Operand
  | .ready operand => operand
  | .jump target => .jump (m.label target)
  | .switch otherwise cases =>
      .switch (m.label otherwise) (cases.map fun c => (c.1, m.label c.2))

def marker (m : LabelMap) (offset : Nat) : List (Opcode × Operand) :=
  match m.get? offset with
  | some label => [(Opcode.label, .label label)]
  | none => []

end LabelMap

-- Reads a body. Labels go by their number in offset order; every mentioned offset must be the
-- start of an instruction or the end of the code.
def decode (bytes : List UInt8) (pool : Pool) (ranges : List RawRange) (locals : List RawLocal) :
    Except DecodeError Body := do
  let instructions ← readInstructions pool bytes
  let size := bytes.length
  let boundaries := offsetFlags size (size :: instructions.map (·.offset))
  let mentioned := mentions instructions ranges locals
  match (mentioned.mergeSort Mention.le).find? fun m => boundaries[m.target]? ≠ some true with
  | some m => .error (.badTarget m.source m.target)
  | none =>
      let (numbers, labelCount) := numberOffsets (offsetFlags size (mentioned.map (·.target)))
      let labels : LabelMap := ⟨numbers⟩
      return {
        labelCount
        instructions :=
          instructions.flatMap (fun i => labels.marker i.offset ++ [(i.opcode, labels.operand i.operand)])
            ++ labels.marker size
        ranges := ranges.map fun r =>
          ⟨labels.label r.start.toNat, labels.label r.stop.toNat, labels.label r.handler.toNat,
            r.catchType⟩
        locals := locals.map fun v =>
          ⟨v.name, v.descriptor, v.signature, labels.label v.start.toNat, labels.label v.stop, v.slot⟩ }

def Body.events (b : Body) : List ClassEvent :=
  List.replicate b.labelCount .newLabel ++ b.instructions.map (fun i => .instruction i.1 i.2) ++
    b.ranges.map .tryRange ++ b.locals.map .localVariable

end Code

end JvmEdit
