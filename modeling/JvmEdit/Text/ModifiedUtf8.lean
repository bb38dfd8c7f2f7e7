import JvmEdit.Text.Utf16
import JvmEdit.Text.Utf8
set_option autoImplicit false

namespace JvmEdit

namespace ModifiedUtf8

def ofUnit (u : UInt16) : List UInt8 :=
  let n := u.toNat
  if n ≠ 0 ∧ n < 0x80 then [UInt8.ofNat n]
  else if n < 0x800 then [UInt8.ofNat (0xc0 + n / 64), UInt8.ofNat (0x80 + n % 64)]
  else [UInt8.ofNat (0xe0 + n / 4096), UInt8.ofNat (0x80 + n / 64 % 64), UInt8.ofNat (0x80 + n % 64)]

def encode (text : String) : List UInt8 := (Utf16.ofChars text.toList).flatMap ofUnit

def malformed : UInt16 := 0xfffd

-- Reads units onto those read so far, kept in reverse. A byte that starts no form becomes the
-- replacement unit; continuing bytes are not looked at closely.
def unitsOnto (reversed : List UInt16) : List UInt8 → List UInt16
  | [] => reversed.reverse
  | a :: rest =>
      if a < 0x80 then unitsOnto (a.toUInt16 :: reversed) rest
      else if a.toNat / 32 = 6 then
        match rest with
        | b :: rest => unitsOnto (UInt16.ofNat (a.toNat % 32 * 64 + Utf8.low b) :: reversed) rest
        | [] => (malformed :: reversed).reverse
      else if a.toNat / 16 = 14 then
        match rest with
        | b :: c :: rest =>
            unitsOnto
              (UInt16.ofNat ((a.toNat % 16 * 64 + Utf8.low b) * 64 + Utf8.low c) :: reversed) rest
        | [b] => unitsOnto (malformed :: reversed) [b]
        | [] => (malformed :: reversed).reverse
      else unitsOnto (malformed :: reversed) rest

def units (bytes : List UInt8) : List UInt16 := unitsOnto [] bytes

-- Text that is well-formed UTF-8 is taken as that.
def decode (bytes : List UInt8) : String :=
  match Utf8.decode? bytes with
  | some text => String.ofList text
  | none => String.ofList (Utf16.decode (units bytes))

def highPair (a b : UInt8) : Bool := a = 0xed && 0xa0 ≤ b && b ≤ 0xaf

def lowPair (a b : UInt8) : Bool := a = 0xed && 0xb0 ≤ b && b ≤ 0xbf

-- Strictly well-formed: every form as `ofUnit` makes it, and surrogates only in pairs.
def isWellFormed : List UInt8 → Bool
  | [] => true
  | a :: rest =>
      if 0x01 ≤ a ∧ a < 0x80 then isWellFormed rest
      else
        match rest with
        | [] => false
        | b :: rest =>
            if (a = 0xc0 && b = 0x80) || Utf8.twoBytes a b then isWellFormed rest
            else
              match rest with
              | [] => false
              | c :: rest =>
                  if Utf8.threeBytes a b c then isWellFormed rest
                  else
                    match rest with
                    | d :: e :: f :: rest =>
                        if highPair a b && Utf8.continues c && lowPair d e && Utf8.continues f then
                          isWellFormed rest
                        else false
                    | _ => false

end ModifiedUtf8

end JvmEdit
