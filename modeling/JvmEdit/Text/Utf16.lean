set_option autoImplicit false

namespace JvmEdit

namespace Utf16

-- One unit, or a surrogate pair beyond the basic plane.
def ofChar (c : Char) : List UInt16 :=
  if c.toNat < 0x10000 then [UInt16.ofNat c.toNat]
  else
    let offset := c.toNat - 0x10000
    [UInt16.ofNat (0xd800 + offset / 1024), UInt16.ofNat (0xdc00 + offset % 1024)]

def ofChars (text : List Char) : List UInt16 := text.flatMap ofChar

def isHigh (u : UInt16) : Bool := 0xd800 ≤ u && u ≤ 0xdbff

def isLow (u : UInt16) : Bool := 0xdc00 ≤ u && u ≤ 0xdfff

def replacement : Char := '\ufffd'

def pair (high low : UInt16) : Char :=
  Char.ofNat (0x10000 + (high.toNat - 0xd800) * 1024 + (low.toNat - 0xdc00))

-- Reads units onto the characters read so far, kept in reverse; a surrogate without its partner
-- becomes the replacement character.
def decodeOnto (reversed : List Char) : List UInt16 → List Char
  | [] => reversed.reverse
  | u :: rest =>
      if isHigh u then
        match rest with
        | [] => (replacement :: reversed).reverse
        | v :: rest' =>
            if isLow v then decodeOnto (pair u v :: reversed) rest'
            else decodeOnto (replacement :: reversed) (v :: rest')
      else if isLow u then decodeOnto (replacement :: reversed) rest
      else decodeOnto (Char.ofNat u.toNat :: reversed) rest

def decode (units : List UInt16) : List Char := decodeOnto [] units

end Utf16

end JvmEdit
