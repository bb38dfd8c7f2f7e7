import JvmEdit.ClassFile.Error
set_option autoImplicit false

namespace JvmEdit

namespace Bytes

def u16 (n : UInt16) : List UInt8 := [(n >>> 8).toUInt8, n.toUInt8]

def u32 (n : UInt32) : List UInt8 :=
  [(n >>> 24).toUInt8, (n >>> 16).toUInt8, (n >>> 8).toUInt8, n.toUInt8]

def u64 (n : UInt64) : List UInt8 :=
  u32 (n >>> 32).toUInt32 ++ u32 n.toUInt32

def ofU16 (a b : UInt8) : UInt16 := (a.toUInt16 <<< 8) ||| b.toUInt16

def ofU32 (a b c d : UInt8) : UInt32 :=
  (a.toUInt32 <<< 24) ||| (b.toUInt32 <<< 16) ||| (c.toUInt32 <<< 8) ||| d.toUInt32

def count16 (n : Nat) : List UInt8 := u16 (UInt16.ofNat n)

def count32 (n : Nat) : List UInt8 := u32 (UInt32.ofNat n)

end Bytes

-- What is left to read, and how many bytes were read before it.
structure Cursor where
  rest : List UInt8
  offset : Nat := 0
  deriving DecidableEq, Repr, Inhabited

abbrev Reader (α : Type) := StateT Cursor (Except DecodeError) α

namespace Reader

def runOn {α : Type} (reader : Reader α) (bytes : List UInt8) : Except DecodeError (α × Cursor) :=
  reader { rest := bytes }

def fail {α : Type} (error : DecodeError) : Reader α := fun _ => .error error

def truncated {α : Type} : Reader α := fun cursor => .error (.truncated cursor.offset)

def offset : Reader Nat := fun cursor => .ok (cursor.offset, cursor)

def isAtEnd : Reader Bool := fun cursor => .ok (cursor.rest.isEmpty, cursor)

def u8 : Reader UInt8 := fun cursor =>
  match cursor.rest with
  | a :: rest => .ok (a, ⟨rest, cursor.offset + 1⟩)
  | _ => truncated cursor

def u16 : Reader UInt16 := fun cursor =>
  match cursor.rest with
  | a :: b :: rest => .ok (Bytes.ofU16 a b, ⟨rest, cursor.offset + 2⟩)
  | _ => truncated cursor

def u32 : Reader UInt32 := fun cursor =>
  match cursor.rest with
  | a :: b :: c :: d :: rest => .ok (Bytes.ofU32 a b c d, ⟨rest, cursor.offset + 4⟩)
  | _ => truncated cursor

def u64 : Reader UInt64 := do
  let high ← u32
  let low ← u32
  return (high.toUInt64 <<< 32) ||| low.toUInt64

def i8 : Reader Int8 := UInt8.toInt8 <$> u8

def i16 : Reader Int16 := UInt16.toInt16 <$> u16

def i32 : Reader Int32 := UInt32.toInt32 <$> u32

def bytes (count : Nat) : Reader (List UInt8) := fun cursor =>
  let taken := cursor.rest.take count
  if taken.length = count then .ok (taken, ⟨cursor.rest.drop count, cursor.offset + count⟩)
  else truncated cursor

def skip (count : Nat) : Reader Unit := do
  let _ ← bytes count

def timesOnto {α : Type} (reader : Reader α) (reversed : List α) : Nat → Reader (List α)
  | 0 => pure reversed.reverse
  | count + 1 => do
      let value ← reader
      timesOnto reader (value :: reversed) count

def times {α : Type} (count : Nat) (reader : Reader α) : Reader (List α) :=
  timesOnto reader [] count

def listOf {α : Type} (reader : Reader α) : Reader (List α) := do
  let count ← u16
  times count.toNat reader

end Reader

end JvmEdit
