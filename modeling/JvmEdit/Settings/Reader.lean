import JvmEdit.Settings
set_option autoImplicit false

namespace JvmEdit

inductive SettingsError
  -- The text is not JSON.
  | malformed
  -- The text ends too early.
  | incomplete
  -- The text is JSON, but not of settings.
  | unexpected
  deriving DecidableEq, Repr, Inhabited

namespace SettingsReader

abbrev Reader (α : Type) := StateT (List UInt8) (Except SettingsError) α

def fail {α : Type} (error : SettingsError) : Reader α := fun _ => .error error

def byte (c : Char) : UInt8 := c.toUInt8

def isBlank (b : UInt8) : Bool := b = byte ' ' || b = byte '\n' || b = byte '\t' || b = byte '\r'

def isDigit (b : UInt8) : Bool := byte '0' ≤ b && b ≤ byte '9'

def peek? : Reader (Option UInt8) := fun rest => .ok (rest.head?, rest)

def next : Reader UInt8 := fun rest =>
  match rest with
  | b :: rest => .ok (b, rest)
  | [] => .error .incomplete

def skip : Reader Unit := modify (·.drop 1)

def skipBlanks : Reader Unit := modify (·.dropWhile isBlank)

def peekToken? : Reader (Option UInt8) := do
  skipBlanks
  peek?

def word : List Char → Reader Unit
  | [] => pure ()
  | c :: cs => do
      if (← next) = byte c then word cs else fail .malformed

-- Takes digits and answers the number they go on, starting from another.
def digitsOnto (value : Nat) : Reader Nat := do
  let digits := (← get).takeWhile isDigit
  modify (·.dropWhile isDigit)
  return digits.foldl (fun n d => n * 10 + (d.toNat - (byte '0').toNat)) value

def wordLimit : Nat := UInt64.size

-- What a number turns out to be.
inductive Numeral
  | natural (value : Nat)
  -- Negative, too large, or not whole.
  | other
  deriving DecidableEq, Repr, Inhabited

-- The sign and the digits of an exponent.
def exponent : Reader Int := do
  let isNegative : Bool ←
    match ← peek? with
    | some b => do
        if b = byte '-' || b = byte '+' then skip
        pure (b = byte '-')
    | none => pure false
  let first ← next
  if !isDigit first then fail .malformed
  let value ← digitsOnto (first.toNat - (byte '0').toNat)
  return if isNegative then -(value : Int) else value

-- Whether so many units of a power of ten round to more than the largest double.
def isBeyondDouble (units : Nat) (power : Int) : Bool :=
  units ≠ 0 && 0 ≤ power && (308 < power || Nat.pow 2 1024 - Nat.pow 2 970 ≤ units * Nat.pow 10 power.toNat)

-- A fraction behind a whole number: all digits as one number, and how many are of the fraction.
def fraction (whole : Nat) : Reader (Nat × Nat) := do
  if (← peek?) = some (byte '.') then
    skip
    let before := (← get).length
    let units ← digitsOnto whole
    let after := (← get).length
    if after = before then
      if before = 0 then fail .incomplete else fail .malformed
    return (units, before - after)
  else return (whole, 0)

-- The power of ten that an exponent gives.
def scale : Reader Int := do
  let mark ← peek?
  if mark = some (byte 'e') || mark = some (byte 'E') then
    skip
    exponent
  else return 0

-- What follows the integral part of a number. A fraction or an exponent makes it one that does
-- not count as whole, and no number may be beyond every double.
def numberTail (isNegative : Bool) (whole : Nat) : Reader Numeral := do
  let start := (← get).length
  let (units, places) ← fraction whole
  let power ← scale
  let isPlain := (← get).length = start
  if isPlain && !isNegative && whole < wordLimit then return .natural whole
  else if isBeyondDouble units (power - places) then fail .malformed
  else return .other

-- The integral part of a number has no leading zero.
def number (isNegative : Bool) : Reader Numeral := do
  let first ← next
  if first = byte '0' then
    if ((← peek?).map isDigit).getD false then fail .malformed
    numberTail isNegative 0
  else if isDigit first then
    let whole ← digitsOnto (first.toNat - (byte '0').toNat)
    numberTail isNegative whole
  else fail .malformed

def hexValue? (b : UInt8) : Option Nat :=
  if isDigit b then some (b.toNat - 48)
  else if byte 'a' ≤ b && b ≤ byte 'f' then some (b.toNat - 87)
  else if byte 'A' ≤ b && b ≤ byte 'F' then some (b.toNat - 55)
  else none

def codeUnit : Reader Nat := fun rest =>
  match rest with
  | a :: b :: c :: d :: rest =>
      match hexValue? a, hexValue? b, hexValue? c, hexValue? d with
      | some a, some b, some c, some d => .ok (((a * 16 + b) * 16 + c) * 16 + d, rest)
      | _, _, _, _ => .error .malformed
  | _ => .error .incomplete

def isHigh (unit : Nat) : Bool := 0xd800 ≤ unit && unit ≤ 0xdbff

def isLow (unit : Nat) : Bool := 0xdc00 ≤ unit && unit ≤ 0xdfff

-- The code point of an escape by number, which two units in a row may make up.
def codePoint : Reader Nat := do
  let unit ← codeUnit
  if isLow unit then fail .malformed
  if !isHigh unit then return unit
  if (← next) ≠ byte '\\' then fail .malformed
  if (← next) ≠ byte 'u' then fail .malformed
  let low ← codeUnit
  if !isLow low then fail .malformed
  return 0x10000 + (unit - 0xd800) * 0x400 + (low - 0xdc00)

def escapes : List (Char × Char) :=
  [('"', '"'), ('\\', '\\'), ('/', '/'), ('b', '\x08'), ('f', '\x0c'), ('n', '\n'), ('r', '\r'),
    ('t', '\t')]

def escaped : Reader Nat := do
  let letter ← next
  if letter = byte 'u' then codePoint
  else
    match escapes.find? (byte ·.1 = letter) with
    | some (_, c) => return c.toNat
    | none => fail .malformed

-- A string after its opening quote. What is not ASCII is kept as bytes: no option has such a
-- name. Each step takes a byte at least.
def stringRest (reversed : List Nat) : Nat → Reader (List Nat)
  | 0 => fail .incomplete
  | fuel + 1 => do
      let b ← next
      if b = byte '"' then return reversed.reverse
      else if b = byte '\\' then stringRest ((← escaped) :: reversed) fuel
      else if b < 0x20 then fail .malformed
      else stringRest (b.toNat :: reversed) fuel

def stringBody : Reader (List Nat) := do
  stringRest [] ((← get).length + 1)

-- Rejects a value of the wrong kind, unless it is not a value at all.
def wrongKind {α : Type} : Reader α := do
  let b := (← peek?).getD 0
  if b = byte 'n' then
    skip
    word "ull".toList
  else if b = byte 't' then
    skip
    word "rue".toList
  else if b = byte 'f' then
    skip
    word "alse".toList
  else if b = byte '-' then
    skip
    let _ ← number true
  else if isDigit b then
    let _ ← number false
  else if b = byte '"' then
    skip
    let _ ← stringBody
  else if !(b = byte '[' || b = byte '\x7b') then fail .malformed
  fail .unexpected

def boolean : Reader Bool := do
  match ← peekToken? with
  | none => fail .incomplete
  | some b =>
      if b = byte 't' then
        skip
        word "rue".toList
        return true
      else if b = byte 'f' then
        skip
        word "alse".toList
        return false
      else wrongKind

def threadCount : Reader (Option Nat) := do
  match ← peekToken? with
  | none => fail .incomplete
  | some b =>
      if b = byte 'n' then
        skip
        word "ull".toList
        return none
      else if b = byte '-' || isDigit b then
        if b = byte '-' then skip
        match ← number (b = byte '-') with
        | .natural value => return some value
        | .other => fail .unexpected
      else wrongKind

structure SettingsField where
  name : String
  read : Settings → Reader Settings

def threadField : SettingsField :=
  ⟨"worker_threads", fun s => return { s with workerThreads := ← threadCount }⟩

def flagField (name : String) (set : Settings → Bool → Settings) : SettingsField :=
  ⟨name, fun s => return set s (← boolean)⟩

-- The options in the order of a list of values.
def fields : List SettingsField :=
  [threadField,
    flagField "annotate_method_complexity" fun s b => { s with annotateComplexity := b },
    flagField "annotate_try_catch_count" fun s b => { s with annotateTryCatchCount := b },
    flagField "annotate_local_variables" fun s b => { s with annotateLocals := b },
    flagField "annotate_changes" fun s b => { s with annotateChanges := b },
    flagField "skip_debug" fun s b => { s with skipDebug := b }]

-- Whether a list has another element; `isFirst` says that none came before.
def hasElement (isFirst : Bool) : Reader Bool := do
  match ← peekToken? with
  | none => fail .incomplete
  | some b =>
      if b = byte ']' then return false
      else if isFirst then return true
      else if b = byte ',' then
        skip
        match ← peekToken? with
        | none => fail .incomplete
        | some b => if b = byte ']' then fail .malformed else return true
      else fail .malformed

-- Values in order; options that are left over keep what they are.
def listBody (isFirst : Bool) (s : Settings) : List SettingsField → Reader Settings
  | [] => return s
  | field :: rest => do
      if ← hasElement isFirst then listBody false (← field.read s) rest else return s

def hasMember (isFirst : Bool) : Reader Bool := do
  match ← peekToken? with
  | none => fail .incomplete
  | some b =>
      if b = byte '\x7d' then return false
      else do
        let start ←
          if isFirst then pure (some b)
          else if b = byte ',' then do
            skip
            peekToken?
          else fail .malformed
        match start with
        | none => fail .incomplete
        | some b => if b = byte '"' then return true else fail .malformed

def colon : Reader Unit := do
  match ← peekToken? with
  | none => fail .incomplete
  | some b => if b = byte ':' then skip else fail .malformed

-- Members with names from `left`, each at most once.
def objectBody (isFirst : Bool) (s : Settings) (left : List SettingsField) : Nat → Reader Settings
  | 0 => return s
  | fuel + 1 => do
      if ← hasMember isFirst then
        skip
        let name ← stringBody
        match left.find? fun field => field.name.toList.map Char.toNat = name with
        | none => fail .unexpected
        | some field => do
            colon
            let s ← field.read s
            objectBody false s (left.filter (·.name ≠ field.name)) fuel
      else return s

def close (bracket : Char) : Reader Unit := do
  match ← peekToken? with
  | none => fail .incomplete
  | some b => if b = byte bracket then skip else fail .malformed

def settings : Reader Settings := do
  let s ←
    match ← peekToken? with
    | none => fail .incomplete
    | some b =>
        if b = byte '[' then do
          skip
          let s ← listBody true {} fields
          close ']'
          pure s
        else if b = byte '\x7b' then do
          skip
          let s ← objectBody true {} fields (fields.length + 1)
          close '\x7d'
          pure s
        else wrongKind
  match ← peekToken? with
  | none => return s
  | some _ => fail .malformed

end SettingsReader

namespace Settings

def read (text : List UInt8) : Except SettingsError Settings :=
  Prod.fst <$> SettingsReader.settings.run text

end Settings

end JvmEdit
