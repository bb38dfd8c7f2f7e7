set_option autoImplicit false

namespace JvmEdit

namespace Decimal

structure Layout where
  fractionBits : Nat
  exponentBits : Nat
  deriving DecidableEq, Repr

def single : Layout := ⟨23, 8⟩

def double : Layout := ⟨52, 11⟩

namespace Layout

def fraction (f : Layout) (bits : Nat) : Nat := bits % Nat.pow 2 f.fractionBits

def biased (f : Layout) (bits : Nat) : Nat :=
  bits / Nat.pow 2 f.fractionBits % Nat.pow 2 f.exponentBits

def isNegative (f : Layout) (bits : Nat) : Bool :=
  bits / Nat.pow 2 (f.fractionBits + f.exponentBits) % 2 == 1

-- The exponent of the unit of the last place of the smallest numbers.
def least (f : Layout) : Int := 2 - Nat.pow 2 (f.exponentBits - 1) - f.fractionBits

end Layout

-- The number `mantissa · 2 ^ exponent`. Its lower neighbour is nearer than its upper one when
-- `narrow` holds.
structure Finite where
  mantissa : Nat
  exponent : Int
  narrow : Bool
  deriving DecidableEq, Repr

inductive Magnitude
  | finite (value : Finite)
  | infinite
  | notANumber
  deriving DecidableEq, Repr

def Layout.magnitude (f : Layout) (bits : Nat) : Magnitude :=
  let fraction := f.fraction bits
  let biased := f.biased bits
  if biased = Nat.pow 2 f.exponentBits - 1 then if fraction = 0 then .infinite else .notANumber
  else if biased = 0 then .finite ⟨fraction, f.least, false⟩
  else
    .finite
      ⟨Nat.pow 2 f.fractionBits + fraction, f.least + (biased - 1), fraction = 0 && biased > 1⟩

-- Digits without trailing zeros; the number is `0.d₁d₂… · 10 ^ point`.
structure Digits where
  digits : List Nat
  point : Int
  deriving DecidableEq, Repr

-- The ends of the interval of reals that round to a number, and the number, over one denominator.
structure Interval where
  low : Nat
  value : Nat
  high : Nat
  denominator : Nat
  -- Whether the ends themselves round to the number.
  closed : Bool
  deriving DecidableEq, Repr

def Finite.interval (x : Finite) : Interval :=
  let shift := (2 - x.exponent).toNat
  let unit := Nat.pow 2 (x.exponent - 2 + shift).toNat
  { low := (4 * x.mantissa - if x.narrow then 1 else 2) * unit
    value := 4 * x.mantissa * unit
    high := (4 * x.mantissa + 2) * unit
    denominator := Nat.pow 2 shift
    closed := x.mantissa % 2 == 0 }

namespace Interval

-- Whether `count` units of `10 ^ place` lie in the interval.
def holds (i : Interval) (count : Nat) (place : Int) : Bool :=
  let point := count * Nat.pow 10 place.toNat * i.denominator
  let scale := Nat.pow 10 (-place).toNat
  if i.closed then i.low * scale ≤ point && point ≤ i.high * scale
  else i.low * scale < point && point < i.high * scale

def units (i : Interval) (place : Int) : Nat :=
  i.value * Nat.pow 10 (-place).toNat / (i.denominator * Nat.pow 10 place.toNat)

-- Whether the value is nearer to `count` units than to one more.
def nearerBelow (i : Interval) (count : Nat) (place : Int) : Bool :=
  2 * (i.value * Nat.pow 10 (-place).toNat) <
    (2 * count + 1) * (i.denominator * Nat.pow 10 place.toNat)

-- The nearest point of the interval on the grid of `10 ^ place`, upwards when two are equally
-- near.
def gridPoint? (i : Interval) (place : Int) : Option Nat :=
  let below := i.units place
  let lowFits := below > 0 && i.holds below place
  let highFits := i.holds (below + 1) place
  if lowFits && (!highFits || i.nearerBelow below place) then some below
  else if highFits then some (below + 1)
  else none

-- Coarser grids first; `fuel` more grids are tried.
def firstGridPoint (i : Interval) (place : Int) : Nat → Nat × Int
  | 0 => (i.units place, place)
  | fuel + 1 =>
      match i.gridPoint? place with
      | some count => (count, place)
      | none => firstGridPoint i (place - 1) fuel

-- The least power of ten above the value, counted up from `10 ^ place`.
def magnitude (i : Interval) (place : Int) : Nat → Int
  | 0 => place
  | fuel + 1 =>
      if i.value * Nat.pow 10 (-place).toNat < i.denominator * Nat.pow 10 place.toNat then place
      else magnitude i (place + 1) fuel

end Interval

def stripZeros (digits : List Nat) : List Nat := (digits.reverse.dropWhile (· = 0)).reverse

def decimalDigits (n : Nat) : List Nat := (Nat.toDigits 10 n).map fun c => c.toNat - '0'.toNat

def Finite.shortest (x : Finite) : Digits :=
  let i := x.interval
  let magnitude := i.magnitude (-330) 700
  let (count, place) := i.firstGridPoint (magnitude - 1) 20
  let digits := decimalDigits count
  ⟨stripZeros digits, place + digits.length⟩

def text (digits : List Nat) : String := String.ofList (digits.map Nat.digitChar)

def zeros (n : Nat) : List Nat := List.replicate n 0

namespace Digits

def positional (d : Digits) : String :=
  if d.point ≤ 0 then "0." ++ text (zeros (-d.point).toNat ++ d.digits)
  else
    let whole := d.digits.take d.point.toNat
    let fraction := d.digits.drop d.point.toNat
    text (whole ++ zeros (d.point.toNat - d.digits.length)) ++ "." ++
      text (if fraction.isEmpty then [0] else fraction)

def scientific (d : Digits) : String :=
  let fraction := d.digits.drop 1
  text (d.digits.take 1) ++ (if fraction.isEmpty then "" else "." ++ text fraction) ++ "e" ++
    toString (d.point - 1)

end Digits

-- Positional from `10 ^ -4` up to `10 ^ 16`, scientific outside; always with a fraction or an
-- exponent.
def Finite.render (x : Finite) : String :=
  if x.mantissa = 0 then "0.0"
  else
    let d := x.shortest
    if -4 < d.point ∧ d.point ≤ 16 then d.positional else d.scientific

def Layout.render (f : Layout) (bits : Nat) : String :=
  let sign := if f.isNegative bits then "-" else ""
  match f.magnitude bits with
  | .finite x => sign ++ x.render
  | .infinite => sign ++ "inf"
  | .notANumber => "NaN"

end Decimal

end JvmEdit
