import JvmEdit.Ident
import JvmEdit.Opcode
set_option autoImplicit false

namespace JvmEdit

-- The kinds of constant-pool entry that a place in a class file may call for.
inductive PoolKind
  | utf8
  | classRef
  | nameAndType
  | member
  | loadable
  | dynamicCall
  | integral
  deriving DecidableEq, Repr, Inhabited

namespace PoolKind

def name : PoolKind → String
  | utf8 => "Utf8"
  | classRef => "Class"
  | nameAndType => "NameAndType"
  | member => "member reference"
  | loadable => "loadable constant"
  | dynamicCall => "InvokeDynamic"
  | integral => "integral constant"

end PoolKind

-- A fault in the structure of a class file.
inductive StructureFault
  -- What the validator says of a file that it refuses.
  | invalid (reason : String)
  | badMagic
  | poolTag (tag : UInt8) (entry : Nat)
  | elementTag (tag : UInt8)
  | emptyTable (offset : Nat) (low high : Int32)
  deriving DecidableEq, Repr, Inhabited

namespace StructureFault

def message : StructureFault → String
  | invalid reason => reason
  | badMagic => "bad magic number"
  | poolTag tag entry => s!"unknown constant pool tag {tag} at entry #{entry}"
  | elementTag tag => s!"unknown annotation element tag {tag}"
  | emptyTable offset low high =>
      s!"tableswitch at offset {offset} has low {low.toInt} above high {high.toInt}"

end StructureFault

inductive DecodeError
  | classFile (fault : StructureFault)
  | constantPool (index : UInt16) (expected : PoolKind)
  | truncated (offset : Nat)
  | unknownOpcode (opcode : Opcode) (offset : Nat)
  -- A branch or a range names an offset at which no instruction starts.
  | badTarget (offset : Nat) (target : Int)
  deriving DecidableEq, Repr, Inhabited

namespace DecodeError

def hexDigit (n : Nat) : Char := (Nat.toDigits 16 n).headD '0'

def hexByte (b : UInt8) : String := String.ofList [hexDigit (b.toNat / 16), hexDigit (b.toNat % 16)]

def message : DecodeError → String
  | classFile fault => s!"malformed class file: {fault.message}"
  | constantPool index expected => s!"constant pool entry #{index} is not a {expected.name}"
  | truncated offset => s!"truncated bytecode at offset {offset}"
  | unknownOpcode opcode offset => s!"unknown opcode 0x{hexByte opcode} at offset {offset}"
  | badTarget offset target =>
      s!"offset {target} referenced from offset {offset} is not an instruction boundary"

end DecodeError

inductive EncodeError
  | unknownClass (id : ClassId)
  | unknownLabel (method : String) (label : LabelId)
  | codeTooLarge (method : String)
  | poolOverflow
  | stringTooLong (bytes : Nat)
  -- A size or an opcode leaves the range of the machine word that would hold it.
  | arithmetic
  deriving DecidableEq, Repr, Inhabited

namespace EncodeError

def message : EncodeError → String
  | unknownClass id => s!"class {id} is not loaded"
  | unknownLabel method label => s!"`{method}` refers to label {label}, which is not in its code"
  | codeTooLarge method => s!"code of `{method}` is longer than 65535 bytes"
  | poolOverflow => "the constant pool is full"
  | stringTooLong bytes => s!"string constant of {bytes} bytes is too long"
  | arithmetic => "arithmetic overflow"

end EncodeError

end JvmEdit
