import JvmEdit.Libraries
import JvmEdit.Text.Utf8
set_option autoImplicit false

namespace JvmEdit

-- Bits are shifted out at the low end, and each one that is set folds the polynomial in.
namespace Checksum

def polynomial : UInt32 := 0xedb88320

def bitStep (c : UInt32) : UInt32 :=
  if c &&& 1 = 0 then c >>> 1 else (c >>> 1) ^^^ polynomial

def byteStep (c : UInt32) (b : UInt8) : UInt32 :=
  Nat.repeat bitStep 8 (c ^^^ b.toUInt32)

def ofBytes (bytes : List UInt8) : UInt32 := bytes.foldl byteStep 0xffffffff ^^^ 0xffffffff

end Checksum

-- Blocks of plain bytes, or of symbols that stand for a byte or for a repetition of earlier output.
-- Symbols are written in prefix codes, which a block may bring along as a list of code lengths.
namespace Inflate

-- Bytes to read from, the lowest bit of each first.
structure Bits where
  bytes : List UInt8
  used : Nat := 0
  deriving DecidableEq, Repr, Inhabited

abbrev BitReader (α : Type) := StateT Bits Option α

namespace Bits

-- More than the number of bits that are left.
def fuel (b : Bits) : Nat := 8 * b.bytes.length + 1

end Bits

def bit : BitReader Nat := fun b =>
  match b.bytes with
  | [] => none
  | byte :: rest =>
      let value := byte.toNat / Nat.pow 2 b.used % 2
      if b.used = 7 then some (value, ⟨rest, 0⟩) else some (value, ⟨b.bytes, b.used + 1⟩)

def bits : Nat → BitReader Nat
  | 0 => pure 0
  | count + 1 => do
      let low ← bit
      let high ← bits count
      return low + 2 * high

-- Passes over what is left of a byte that was begun.
def align : BitReader Unit := fun b =>
  if b.used = 0 then some ((), b) else some ((), ⟨b.bytes.drop 1, 0⟩)

-- A prefix code: how many symbols there are of each length from one on, and the symbols, shorter
-- codes first.
structure PrefixCode where
  counts : List Nat
  symbols : Array Nat
  deriving Repr, Inhabited

def longestCode : Nat := 15

-- Symbols with a code of this length, in order.
def symbolsOf (lengths : List Nat) (length : Nat) : List Nat :=
  lengths.zipIdx.filterMap fun (l, symbol) => if l = length then some symbol else none

-- Codes of each length left over after the shorter ones; `none` when there are too many.
def unusedCodes (left : Nat) : List Nat → Option Nat
  | [] => some left
  | count :: counts => if 2 * left < count then none else unusedCodes (2 * left - count) counts

-- The code with these lengths, a zero for a symbol without a code. All codes must be used, except
-- that a lone symbol takes one bit of its own.
def PrefixCode.ofLengths? (lengths : List Nat) : Option PrefixCode :=
  let groups := ((List.range longestCode).map (· + 1)).map (symbolsOf lengths)
  let counts := groups.map List.length
  let symbols := groups.flatten.toArray
  match unusedCodes 1 counts with
  | none => none
  | some left =>
      if left = 0 || symbols.isEmpty || (symbols.size = 1 && counts.head? = some 1) then
        some ⟨counts, symbols⟩
      else none

def symbolFrom (symbols : Array Nat) (code first index : Nat) : List Nat → BitReader Nat
  | [] => failure
  | count :: counts => do
      let code := code + (← bit)
      if code < first + count then
        match symbols[index + (code - first)]? with
        | some symbol => return symbol
        | none => failure
      else symbolFrom symbols (2 * code) (2 * (first + count)) (index + count) counts

def PrefixCode.symbol (c : PrefixCode) : BitReader Nat := symbolFrom c.symbols 0 0 0 c.counts

-- Least length and further bits of each repetition symbol.
def lengthTable : List (Nat × Nat) :=
  [(3, 0), (4, 0), (5, 0), (6, 0), (7, 0), (8, 0), (9, 0), (10, 0), (11, 1), (13, 1), (15, 1),
    (17, 1), (19, 2), (23, 2), (27, 2), (31, 2), (35, 3), (43, 3), (51, 3), (59, 3), (67, 4),
    (83, 4), (99, 4), (115, 4), (131, 5), (163, 5), (195, 5), (227, 5), (258, 0)]

-- Least distance and further bits of each distance symbol.
def distanceTable : List (Nat × Nat) :=
  [(1, 0), (2, 0), (3, 0), (4, 0), (5, 1), (7, 1), (9, 2), (13, 2), (17, 3), (25, 3), (33, 4),
    (49, 4), (65, 5), (97, 5), (129, 6), (193, 6), (257, 7), (385, 7), (513, 8), (769, 8),
    (1025, 9), (1537, 9), (2049, 10), (3073, 10), (4097, 11), (6145, 11), (8193, 12), (12289, 12),
    (16385, 13), (24577, 13)]

def fromTable (table : List (Nat × Nat)) (symbol : Nat) : BitReader Nat :=
  match table[symbol]? with
  | some (least, extra) => return least + (← bits extra)
  | none => failure

-- Repeats what was put out `distance` bytes ago, byte by byte.
def copyBack (out : Array UInt8) (distance : Nat) : Nat → Array UInt8
  | 0 => out
  | count + 1 => copyBack (out.push (out.getD (out.size - distance) 0)) distance count

def endOfBlock : Nat := 256

def codedBlock (literals distances : PrefixCode) (out : Array UInt8) : Nat → BitReader (Array UInt8)
  | 0 => failure
  | fuel + 1 => do
      let symbol ← literals.symbol
      if symbol < endOfBlock then
        codedBlock literals distances (out.push (UInt8.ofNat symbol)) fuel
      else if symbol = endOfBlock then return out
      else
        let length ← fromTable lengthTable (symbol - endOfBlock - 1)
        let distance ← fromTable distanceTable (← distances.symbol)
        if out.size < distance then failure
        else codedBlock literals distances (copyBack out distance length) fuel

def plainBlock (out : Array UInt8) : BitReader (Array UInt8) := do
  align
  let count ← bits 16
  let complement ← bits 16
  if count + complement ≠ 0xffff then failure
  let b ← get
  if b.bytes.length < count then failure
  set { b with bytes := b.bytes.drop count }
  return out ++ (b.bytes.take count).toArray

def fixedLiterals : List Nat :=
  List.replicate 144 8 ++ List.replicate 112 9 ++ List.replicate 24 7 ++ List.replicate 8 8

def fixedDistances : List Nat := List.replicate 32 5

-- The order in which the lengths of the length symbols come.
def lengthOrder : List Nat := [16, 17, 18, 0, 8, 7, 9, 6, 10, 5, 11, 4, 12, 3, 13, 2, 14, 1, 15]

def readTimes (reader : BitReader Nat) : Nat → BitReader (List Nat)
  | 0 => pure []
  | count + 1 => do
      let value ← reader
      return value :: (← readTimes reader count)

-- Code lengths, themselves in a prefix code with symbols for repetitions.
def codeLengths (code : PrefixCode) (wanted : Nat) (reversed : List Nat) : Nat → BitReader (List Nat)
  | 0 => failure
  | fuel + 1 =>
      if wanted ≤ reversed.length then
        if reversed.length = wanted then return reversed.reverse else failure
      else do
        let symbol ← code.symbol
        match symbol with
        | 16 =>
            match reversed with
            | [] => failure
            | last :: _ =>
                let count := 3 + (← bits 2)
                codeLengths code wanted (List.replicate count last ++ reversed) fuel
        | 17 =>
            let count := 3 + (← bits 3)
            codeLengths code wanted (List.replicate count 0 ++ reversed) fuel
        | 18 =>
            let count := 11 + (← bits 7)
            codeLengths code wanted (List.replicate count 0 ++ reversed) fuel
        | length => codeLengths code wanted (length :: reversed) fuel

def codeOf (lengths : List Nat) : BitReader PrefixCode :=
  match PrefixCode.ofLengths? lengths with
  | some code => pure code
  | none => failure

def blockCodes : BitReader (PrefixCode × PrefixCode) := do
  let literals := 257 + (← bits 5)
  let distances := 1 + (← bits 5)
  let given := 4 + (← bits 4)
  if 286 < literals || 30 < distances then failure
  let lengths ← readTimes (bits 3) given
  let ordered := lengthOrder.zip lengths
  let code ← codeOf ((List.range lengthOrder.length).map fun symbol =>
    ((ordered.find? (·.1 = symbol)).map (·.2)).getD 0)
  let all ← codeLengths code (literals + distances) [] (literals + distances + 1)
  if all.getD endOfBlock 0 = 0 then failure
  return (← codeOf (all.take literals), ← codeOf (all.drop literals))

def block (out : Array UInt8) : BitReader (Array UInt8) := do
  match ← bits 2 with
  | 0 => plainBlock out
  | 1 => do
      let literals ← codeOf fixedLiterals
      let distances ← codeOf fixedDistances
      codedBlock literals distances out (← get).fuel
  | 2 => do
      let (literals, distances) ← blockCodes
      codedBlock literals distances out (← get).fuel
  | _ => failure

def blocks (out : Array UInt8) : Nat → BitReader (Array UInt8)
  | 0 => failure
  | fuel + 1 => do
      let isLast ← bit
      let out ← block out
      if isLast = 1 then return out else blocks out fuel

-- The data that `packed` stands for; what follows its last block is not looked at.
def run? (packed : List UInt8) : Option (List UInt8) :=
  let start : Bits := { bytes := packed }
  ((blocks #[] start.fuel).run start).map fun (out, _) => out.toList

end Inflate

-- Packed files one after the other, each behind a header of its own, then a directory of all of them,
-- and at last a record that tells where the directory is.
namespace Zip

def low16 (n : Nat) : List UInt8 := [UInt8.ofNat n, UInt8.ofNat (n / 256)]

def low32 (n : Nat) : List UInt8 := low16 n ++ low16 (n / 65536)

def number (bytes : List UInt8) : Nat := bytes.foldr (fun b n => b.toNat + 256 * n) 0

-- The number in `width` bytes at `offset`; bytes past the end do not count.
def numberAt (bytes : List UInt8) (offset width : Nat) : Nat := number ((bytes.drop offset).take width)

def localMark : List UInt8 := [0x50, 0x4b, 0x03, 0x04]
def directoryMark : List UInt8 := [0x50, 0x4b, 0x01, 0x02]
def endMark : List UInt8 := [0x50, 0x4b, 0x05, 0x06]

def localSize : Nat := 30
def directorySize : Nat := 46
def endSize : Nat := 22

def storedMethod : Nat := 0
def deflatedMethod : Nat := 8

def isEncrypted (flags : Nat) : Bool := flags % 2 = 1
def hasUnicodeName (flags : Nat) : Bool := flags / 2048 % 2 = 1

-- Characters of the bytes from 128 on, in names that are not in UTF-8.
def oldCharacters : List Char :=
  ("ÇüéâäàåçêëèïîìÄÅÉæÆôöòûùÿÖÜ¢£¥₧ƒáíóúñÑªº¿⌐¬½¼¡«»░▒▓│┤╡╢╖╕╣║╗╝╜╛┐└┴┬├─┼╞╟╚╔╩╦╠═╬╧╨╤╥╙╘╒╓╫╪┘┌█▄▌▐▀" ++
    "αßΓπΣσµτΦΘΩδ∞φε∩≡±≥≤⌠⌡÷≈°∙·√ⁿ²■\u00a0").toList

def oldCharacter (b : UInt8) : Char :=
  if b < 0x80 then Char.ofNat b.toNat else oldCharacters.getD (b.toNat - 128) ' '

def decodeName (flags : Nat) (bytes : List UInt8) : String :=
  String.ofList (((if hasUnicodeName flags then Utf8.decode? bytes else none)).getD
    (bytes.map oldCharacter))

structure Entry where
  name : String
  flags : Nat
  method : Nat
  checksum : Nat
  packedSize : Nat
  -- The length of the data once unpacked, as the directory states it.
  size : Nat
  start : Nat
  deriving DecidableEq, Repr, Inhabited

structure Archive where
  bytes : List UInt8
  entries : List Entry
  deriving DecidableEq, Repr, Inhabited

-- Offsets before `limit` at which a mark stands, onto those found so far. The bytes start at
-- `offset`, and later offsets come first.
def marksOnto (mark : List UInt8) (limit offset : Nat) (found : List Nat) : List UInt8 → List Nat
  | [] => found
  | byte :: rest =>
      if limit ≤ offset then found
      else
        let found := if mark.isPrefixOf (byte :: rest) then offset :: found else found
        marksOnto mark limit (offset + 1) found rest

-- Offsets from `low` on, and before `high`, at which a mark stands, the last one first.
def marksBetween (bytes mark : List UInt8) (low high : Nat) : List Nat :=
  marksOnto mark high low [] (bytes.drop low)

-- Reads the directory from an offset on. Header offsets count from `shift`.
def readDirectory (bytes : List UInt8) (shift : Nat) : Nat → List UInt8 → Option (List Entry)
  | 0, _ => some []
  | count + 1, rest =>
      if !directoryMark.isPrefixOf rest || rest.length < directorySize then none
      else
        let field := numberAt rest
        let tail := field 28 2 + field 30 2 + field 32 2
        let flags := field 8 2
        let entry : Entry :=
          { name := decodeName flags ((rest.drop directorySize).take (field 28 2)), flags,
            method := field 10 2, checksum := field 16 4, packedSize := field 20 4,
            size := field 24 4, start := field 42 4 + shift }
        if rest.length < directorySize + tail then none
        else
          (readDirectory bytes shift count (rest.drop (directorySize + tail))).map (entry :: ·)

-- A later entry of the same name takes the place of an earlier one.
def mergeNames (entries : List Entry) : List Entry :=
  entries.foldl (fun merged e =>
    if merged.any (·.name = e.name) then merged.map fun old => if old.name = e.name then e else old
    else merged ++ [e]) []

-- Reads the archive whose last record is at an offset.
def openAt? (bytes : List UInt8) (offset : Nat) : Option Archive :=
  let field := fun place => numberAt bytes (offset + place)
  if bytes.length < offset + endSize + field 20 2 || field 4 2 ≠ field 6 2 then none
  else if field 10 2 = 0 then some ⟨bytes, []⟩
  else
    let directory := field 16 4
    if offset ≤ directory then none
    else
      (marksBetween bytes directoryMark directory offset).getLast?.bind fun first =>
        (readDirectory bytes (first - directory) (field 10 2) (bytes.drop first)).map fun entries =>
          ⟨bytes, mergeNames entries⟩

-- The end record is the last one that leads to a directory.
def open? (bytes : List UInt8) : Option Archive :=
  (marksBetween bytes endMark 0 bytes.length).findSome? (openAt? bytes)

namespace Archive

def isAccessible (a : Archive) (e : Entry) : Bool :=
  localMark.isPrefixOf (a.bytes.drop e.start) && e.start + localSize ≤ a.bytes.length &&
    !isEncrypted e.flags && (e.method = storedMethod || e.method = deflatedMethod)

def packed (a : Archive) (e : Entry) : List UInt8 :=
  let header := a.bytes.drop e.start
  (header.drop (localSize + numberAt header 26 2 + numberAt header 28 2)).take e.packedSize

def unpack? (a : Archive) (e : Entry) : Option (List UInt8) :=
  if e.method = deflatedMethod then Inflate.run? (a.packed e) else some (a.packed e)

def content? (a : Archive) (e : Entry) : Option (List UInt8) :=
  (a.unpack? e).filter fun data => (Checksum.ofBytes data).toNat = e.checksum

-- Every file, with what reading it gives.
def rows (a : Archive) : List (Except String ArchiveEntry) :=
  a.entries.map fun e =>
    if a.isAccessible e then .ok { name := e.name, size := e.size, content? := a.content? e }
    else .error "unsupported Zip archive"

end Archive

-- The part that both headers of a file share: version, flags, method, time and date, checksum and
-- sizes. Names that are not plain ASCII are marked as UTF-8.
def sharedHeader (name data : List UInt8) : List UInt8 :=
  low16 20 ++ low16 (if name.all (· < 0x80) then 0 else 2048) ++ low16 storedMethod ++ low16 0 ++
    low16 0x21 ++ low32 (Checksum.ofBytes data).toNat ++ low32 data.length ++ low32 data.length ++
    low16 name.length ++ low16 0

def localRecord (name data : List UInt8) : List UInt8 :=
  localMark ++ sharedHeader name data ++ name ++ data

def directoryRecord (name data : List UInt8) (start : Nat) : List UInt8 :=
  directoryMark ++ low16 0x031e ++ sharedHeader name data ++ low16 0 ++ low16 0 ++ low16 0 ++
    low32 0x81a40000 ++ low32 start ++ name

-- Both records of every file, the first file at an offset.
def records (offset : Nat) : List (List UInt8 × List UInt8) → List (List UInt8 × List UInt8)
  | [] => []
  | (name, data) :: rest =>
      let record := localRecord name data
      (record, directoryRecord name data offset) :: records (offset + record.length) rest

def encode (files : List (String × List UInt8)) : List UInt8 :=
  let rows := records 0 (files.map fun (name, data) => (name.toUTF8.toList, data))
  let body := (rows.map (·.1)).flatten
  let directory := (rows.map (·.2)).flatten
  body ++ directory ++ endMark ++ low16 0 ++ low16 0 ++ low16 rows.length ++ low16 rows.length ++
    low32 directory.length ++ low32 body.length ++ low16 0

def nameLimit : Nat := 0xffff

def pack (files : List (String × List UInt8)) : Except String (List UInt8) :=
  match files.find? fun file => nameLimit < file.1.utf8ByteSize with
  | some (name, _) => .error name
  | none => .ok (encode files)

end Zip

end JvmEdit
