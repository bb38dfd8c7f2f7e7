set_option autoImplicit false

namespace JvmEdit

namespace Hex

def value (c : Char) : Nat :=
  if c.isDigit then c.toNat - '0'.toNat
  else if 'a' ≤ c && c ≤ 'f' then c.toNat - 'a'.toNat + 10
  else c.toNat - 'A'.toNat + 10

def number (text : String) : Nat := text.toList.foldl (fun n c => n * 16 + value c) 0

def ofNat (width n : Nat) : String :=
  let digits := Nat.toDigits 16 n
  String.ofList (List.replicate (width - digits.length) '0' ++ digits)

def bytesOnto (reversed : List UInt8) : List Char → List UInt8
  | high :: low :: rest => bytesOnto (UInt8.ofNat (value high * 16 + value low) :: reversed) rest
  | _ => reversed.reverse

def bytes (text : String) : List UInt8 := bytesOnto [] text.toList

def ofBytes (bytes : List UInt8) : String :=
  bytes.foldl (fun text b =>
    (text.push (Nat.digitChar (b.toNat / 16))).push (Nat.digitChar (b.toNat % 16))) ""

end Hex

end JvmEdit
