import JvmEdit.ClassFile.Bytes
import JvmEdit.Constant
import JvmEdit.Data.BitTrie
import JvmEdit.Text.ModifiedUtf8
set_option autoImplicit false

namespace JvmEdit

-- An entry as it is written, with what it refers to already turned into indices.
inductive PoolItem
  | utf8 (bytes : List UInt8)
  | integer (value : Int32)
  | float (bits : UInt32)
  | long (value : Int64)
  | double (bits : UInt64)
  | classRef (name : UInt16)
  | string (text : UInt16)
  | fieldRef (owner nameAndType : UInt16)
  | methodRef (owner nameAndType : UInt16)
  | interfaceMethodRef (owner nameAndType : UInt16)
  | nameAndType (name descriptor : UInt16)
  | methodHandle (kind : UInt8) (reference : UInt16)
  | methodType (descriptor : UInt16)
  | dynamic (bootstrap nameAndType : UInt16)
  | invokeDynamic (bootstrap nameAndType : UInt16)
  deriving DecidableEq, Repr, Inhabited

namespace PoolItem

def width : PoolItem → Nat
  | long _ | double _ => 2
  | _ => 1

def write : PoolItem → List UInt8
  | utf8 bytes => 1 :: Bytes.count16 bytes.length ++ bytes
  | integer value => 3 :: Bytes.u32 value.toUInt32
  | float bits => 4 :: Bytes.u32 bits
  | long value => 5 :: Bytes.u64 value.toUInt64
  | double bits => 6 :: Bytes.u64 bits
  | classRef name => 7 :: Bytes.u16 name
  | string text => 8 :: Bytes.u16 text
  | fieldRef owner pair => 9 :: Bytes.u16 owner ++ Bytes.u16 pair
  | methodRef owner pair => 10 :: Bytes.u16 owner ++ Bytes.u16 pair
  | interfaceMethodRef owner pair => 11 :: Bytes.u16 owner ++ Bytes.u16 pair
  | nameAndType name descriptor => 12 :: Bytes.u16 name ++ Bytes.u16 descriptor
  | methodHandle kind reference => 15 :: kind :: Bytes.u16 reference
  | methodType descriptor => 16 :: Bytes.u16 descriptor
  | dynamic bootstrap pair => 17 :: Bytes.u16 bootstrap ++ Bytes.u16 pair
  | invokeDynamic bootstrap pair => 18 :: Bytes.u16 bootstrap ++ Bytes.u16 pair

-- An entry that is no text, as the bits of its written form; `none` for texts.
def key? : PoolItem → Option (List Bool)
  | utf8 _ => none
  | item => some (item.write.flatMap fun byte => BitTrie.bits 8 byte.toNat)

end PoolItem

structure PoolBuilder where
  -- Newest first.
  items : List PoolItem := []
  -- The texts among the entries.
  texts : List (List UInt8 × UInt16) := []
  -- All other entries.
  others : BitTrie UInt16 := .empty
  -- The first free slot.
  next : Nat := 1
  deriving Repr, Inhabited

abbrev Encoder (α : Type) := StateT PoolBuilder (Except EncodeError) α

namespace PoolBuilder

def index? (b : PoolBuilder) (item : PoolItem) : Option UInt16 :=
  match item, item.key? with
  | .utf8 bytes, _ => b.texts.lookup bytes
  | _, some key => b.others.get? key
  | _, none => none

def push (b : PoolBuilder) (item : PoolItem) : PoolBuilder :=
  let index := UInt16.ofNat b.next
  let grown := { b with items := item :: b.items, next := b.next + item.width }
  match item, item.key? with
  | .utf8 bytes, _ => { grown with texts := (bytes, index) :: b.texts }
  | _, some key => { grown with others := b.others.insert index key }
  | _, none => grown

-- The index of an item. The slot after the last one must be below 65536.
def add (item : PoolItem) : Encoder UInt16 := fun b =>
  match b.index? item with
  | some index => .ok (index, b)
  | none =>
      if 65535 < b.next + item.width then .error .poolOverflow
      else .ok (UInt16.ofNat b.next, b.push item)

def utf8 (text : String) : Encoder UInt16 := do
  let bytes := ModifiedUtf8.encode text
  if 65535 < bytes.length then throw (.stringTooLong bytes.length)
  else add (.utf8 bytes)

def className (name : String) : Encoder UInt16 := do
  let name ← utf8 name
  add (.classRef name)

def nameAndType (name descriptor : String) : Encoder UInt16 := do
  let name ← utf8 name
  let descriptor ← utf8 descriptor
  add (.nameAndType name descriptor)

def fieldRef (owner name descriptor : String) : Encoder UInt16 := do
  let owner ← className owner
  let nameAndType ← nameAndType name descriptor
  add (.fieldRef owner nameAndType)

def methodRef (owner name descriptor : String) (isInterface : Bool) : Encoder UInt16 := do
  let owner ← className owner
  let nameAndType ← nameAndType name descriptor
  add (if isInterface then .interfaceMethodRef owner nameAndType else .methodRef owner nameAndType)

def dynamicCall (bootstrap : UInt16) (name descriptor : String) : Encoder UInt16 := do
  let nameAndType ← nameAndType name descriptor
  add (.invokeDynamic bootstrap nameAndType)

-- A constant that can be loaded. Handles of the first four kinds are for fields.
def constant : Constant → Encoder UInt16
  | .int value => add (.integer value)
  | .float bits => add (.float bits)
  | .long value => add (.long value)
  | .double bits => add (.double bits)
  | .string text => do
      let text ← utf8 text
      add (.string text)
  | .classRef name => className name
  | .methodType descriptor => do
      let descriptor ← utf8 descriptor
      add (.methodType descriptor)
  | .methodHandle kind owner name descriptor isInterface => do
      let reference ←
        if kind ≤ 4 then fieldRef owner name descriptor
        else methodRef owner name descriptor isInterface
      add (.methodHandle kind reference)
  | .dynamic name descriptor bootstrap => do
      let nameAndType ← nameAndType name descriptor
      add (.dynamic bootstrap nameAndType)

def write (b : PoolBuilder) : List UInt8 :=
  Bytes.count16 b.next ++ b.items.reverse.flatMap PoolItem.write

end PoolBuilder

end JvmEdit
