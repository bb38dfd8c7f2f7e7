import JvmEdit.ClassFile.Bytes
import JvmEdit.Instruction
import JvmEdit.Text.ModifiedUtf8
set_option autoImplicit false

namespace JvmEdit

inductive PoolEntry
  -- The slot before the first entry, and the second slot of a long or a double.
  | empty
  | utf8 (text : String)
  | integer (value : Int32)
  | float (bits : UInt32)
  | long (value : Int64)
  | double (bits : UInt64)
  | classRef (name : UInt16)
  | string (text : UInt16)
  | fieldRef (owner nameAndType : UInt16)
  | methodRef (owner nameAndType : UInt16)
  | interfaceMethodRef (owner nameAndType : UInt16)
  | nameAndType (name descriptor : UInt16)
  | methodHandle (kind : UInt8) (reference : UInt16)
  | methodType (descriptor : UInt16)
  | dynamic (bootstrap nameAndType : UInt16)
  | invokeDynamic (bootstrap nameAndType : UInt16)
  | module (name : UInt16)
  | package (name : UInt16)
  deriving DecidableEq, Repr, Inhabited

namespace PoolEntry

def isWide : PoolEntry → Bool
  | long _ | double _ => true
  | _ => false

-- The entry behind a tag; `slot` is the slot it is to fill.
def read (tag : UInt8) (slot : Nat) : Reader PoolEntry :=
  match tag.toNat with
  | 1 => do
      let length ← Reader.u16
      let bytes ← Reader.bytes length.toNat
      return utf8 (ModifiedUtf8.decode bytes)
  | 3 => integer <$> Reader.i32
  | 4 => float <$> Reader.u32
  | 5 => (fun bits => long bits.toInt64) <$> Reader.u64
  | 6 => double <$> Reader.u64
  | 7 => classRef <$> Reader.u16
  | 8 => string <$> Reader.u16
  | 9 => fieldRef <$> Reader.u16 <*> Reader.u16
  | 10 => methodRef <$> Reader.u16 <*> Reader.u16
  | 11 => interfaceMethodRef <$> Reader.u16 <*> Reader.u16
  | 12 => nameAndType <$> Reader.u16 <*> Reader.u16
  | 15 => methodHandle <$> Reader.u8 <*> Reader.u16
  | 16 => methodType <$> Reader.u16
  | 17 => dynamic <$> Reader.u16 <*> Reader.u16
  | 18 => invokeDynamic <$> Reader.u16 <*> Reader.u16
  | 19 => module <$> Reader.u16
  | 20 => package <$> Reader.u16
  | _ => Reader.fail (.classFile (.poolTag tag slot))

end PoolEntry

structure Pool where
  entries : Array PoolEntry
  deriving DecidableEq, Repr, Inhabited

namespace Pool

-- Reads entries until `count` slots are filled. Every entry fills at least one, so `fuel` as
-- great as `count` is enough.
def readOnto (count : Nat) : Nat → Array PoolEntry → Reader Pool
  | 0, entries => pure ⟨entries⟩
  | fuel + 1, entries => do
      if count ≤ entries.size then return ⟨entries⟩
      let tag ← Reader.u8
      let entry ← PoolEntry.read tag entries.size
      let entries := entries.push entry
      readOnto count fuel (if entry.isWide then entries.push .empty else entries)

def read : Reader Pool := do
  let count ← Reader.u16
  readOnto count.toNat count.toNat #[.empty]

def get? (p : Pool) (index : UInt16) : Option PoolEntry := p.entries[index.toNat]?

def utf8 (p : Pool) (index : UInt16) : Except DecodeError String :=
  match p.get? index with
  | some (.utf8 text) => .ok text
  | _ => .error (.constantPool index .utf8)

def className (p : Pool) (index : UInt16) : Except DecodeError String :=
  match p.get? index with
  | some (.classRef name) => p.utf8 name
  | _ => .error (.constantPool index .classRef)

def optionalClassName (p : Pool) (index : UInt16) : Except DecodeError (Option String) :=
  if index = 0 then .ok none else some <$> p.className index

def nameAndType (p : Pool) (index : UInt16) : Except DecodeError (String × String) :=
  match p.get? index with
  | some (.nameAndType name descriptor) => do
      let name ← p.utf8 name
      let descriptor ← p.utf8 descriptor
      return (name, descriptor)
  | _ => .error (.constantPool index .nameAndType)

structure Member where
  owner : String
  name : String
  descriptor : String
  isInterface : Bool
  deriving DecidableEq, Repr, Inhabited

def memberParts (p : Pool) (owner nameAndType : UInt16) (isInterface : Bool) :
    Except DecodeError Member := do
  let (name, descriptor) ← p.nameAndType nameAndType
  let owner ← p.className owner
  return ⟨owner, name, descriptor, isInterface⟩

def member (p : Pool) (index : UInt16) : Except DecodeError Member :=
  match p.get? index with
  | some (.fieldRef owner nameAndType) => p.memberParts owner nameAndType false
  | some (.methodRef owner nameAndType) => p.memberParts owner nameAndType false
  | some (.interfaceMethodRef owner nameAndType) => p.memberParts owner nameAndType true
  | _ => .error (.constantPool index .member)

def constant (p : Pool) (index : UInt16) : Except DecodeError Constant :=
  match p.get? index with
  | some (.integer value) => .ok (.int value)
  | some (.float bits) => .ok (.float bits)
  | some (.long value) => .ok (.long value)
  | some (.double bits) => .ok (.double bits)
  | some (.string text) => .string <$> p.utf8 text
  | some (.classRef name) => .classRef <$> p.utf8 name
  | some (.methodType descriptor) => .methodType <$> p.utf8 descriptor
  | some (.methodHandle kind reference) => do
      let m ← p.member reference
      return .methodHandle kind m.owner m.name m.descriptor m.isInterface
  | some (.dynamic bootstrap nameAndType) => do
      let (name, descriptor) ← p.nameAndType nameAndType
      return .dynamic name descriptor bootstrap
  | _ => .error (.constantPool index .loadable)

def dynamicCall (p : Pool) (index : UInt16) : Except DecodeError DynamicCall :=
  match p.get? index with
  | some (.invokeDynamic bootstrap nameAndType) => do
      let (name, descriptor) ← p.nameAndType nameAndType
      return ⟨name, descriptor, bootstrap⟩
  | _ => .error (.constantPool index .dynamicCall)

end Pool

end JvmEdit
