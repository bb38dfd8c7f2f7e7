set_option autoImplicit false

namespace JvmEdit

namespace Utf8

-- A byte that goes on with a character.
def continues (b : UInt8) : Bool := 0x80 ≤ b && b ≤ 0xbf

-- The six bits a continuing byte carries.
def low (b : UInt8) : Nat := b.toNat % 64

def twoBytes (a b : UInt8) : Bool := 0xc2 ≤ a && a ≤ 0xdf && continues b

-- Neither an overlong form nor half of a surrogate pair.
def threeBytes (a b c : UInt8) : Bool :=
  continues b && continues c &&
    ((a = 0xe0 && 0xa0 ≤ b) || (0xe1 ≤ a && a ≤ 0xec) || (a = 0xed && b ≤ 0x9f) ||
      (0xee ≤ a && a ≤ 0xef))

-- Neither an overlong form nor beyond the last code point.
def fourBytes (a b c d : UInt8) : Bool :=
  continues b && continues c && continues d &&
    ((a = 0xf0 && 0x90 ≤ b) || (0xf1 ≤ a && a ≤ 0xf3) || (a = 0xf4 && b ≤ 0x8f))

-- Reads well-formed text onto the characters read so far, which are kept in reverse.
def decodeOnto (reversed : List Char) : List UInt8 → Option (List Char)
  | [] => some reversed.reverse
  | a :: rest =>
      if a < 0x80 then decodeOnto (Char.ofNat a.toNat :: reversed) rest
      else
        match rest with
        | [] => none
        | b :: rest =>
            if twoBytes a b then
              decodeOnto (Char.ofNat (a.toNat % 32 * 64 + low b) :: reversed) rest
            else
              match rest with
              | [] => none
              | c :: rest =>
                  if threeBytes a b c then
                    decodeOnto (Char.ofNat ((a.toNat % 16 * 64 + low b) * 64 + low c) :: reversed) rest
                  else
                    match rest with
                    | [] => none
                    | d :: rest =>
                        if fourBytes a b c d then
                          decodeOnto
                            (Char.ofNat (((a.toNat % 8 * 64 + low b) * 64 + low c) * 64 + low d)
                              :: reversed) rest
                        else none

def decode? (bytes : List UInt8) : Option (List Char) := decodeOnto [] bytes

end Utf8

end JvmEdit
