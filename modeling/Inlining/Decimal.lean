import Inlining.Arithmetic
import Inlining.Text

/-!
# Decimals and doubles

A finite double is a sign, a mantissa below `2 ^ 53` and a power of two. All questions that the
inliner asks of a double — is it finite, what is its integer part, how is it written — are answered
in natural numbers on these parts.

A real number as a user writes it is an optional sign, then digits with an optional point and an
optional exponent, or one of the words `inf`, `infinity` and `nan` in any case. There is at least
one digit, before or after the point. The value is the double nearest to what is written.

Many decimals read back as the same double. The one written has the fewest digits; among those of
equal length it is the nearest to the double, and of two at the same distance the greater. The
decimals that read back as a double fill an interval around it. Decimals are tried from the coarsest
power of ten downwards, and on each only the two neighbours of the double: if a multiple of the
power lies in the interval at all, so does one of these. The arithmetic is exact.

## Main definitions

* `Binary` — a double, taken apart
* `float?` — the double that a text spells
* `Spread` — a double with the interval that reads back as it
* `shortest` — digits and power of ten of the shortest decimal
* `positional` — such a decimal written out without an exponent
* `text` — the text of a double
-/

namespace Inlining.Decimal

open Text

/-! ### Doubles taken apart -/

/-- The parts of a double. -/
inductive Binary where
  | nan
  | infinite (negative : Bool)
  | finite (negative : Bool) (mantissa : Nat) (exponent : Int)
deriving DecidableEq

namespace Binary

/-- The exponent of the smallest steps between doubles. -/
def leastExponent : Int := -1074

/-- The parts of a double, read off its bits: one for the sign, eleven for the exponent and
fifty-two for the mantissa, whose leading one is left out above the smallest exponent. -/
def ofBits (bits : Nat) : Binary :=
  let negative := decide (Nat.pow 2 63 ≤ bits)
  let exponent : Nat := bits / Nat.pow 2 52 % Nat.pow 2 11
  let fraction := bits % Nat.pow 2 52
  if exponent = 2047 then
    if fraction = 0 then infinite negative else nan
  else if exponent = 0 then
    finite negative fraction leastExponent
  else
    finite negative (Nat.pow 2 52 + fraction) ((exponent : Int) - 1075)

/-- The parts of a double. -/
def ofFloat (x : Float) : Binary := ofBits x.toBits.toNat

/-- Whether the number is finite and not below zero. Zero counts whatever its sign. -/
def isFiniteNonnegative : Binary → Bool
  | finite negative mantissa _ => !negative || mantissa == 0
  | _ => false

/-- The integer part of a number as an unsigned word: what is too large becomes the greatest word,
and what is negative or no number becomes zero. -/
def toWord : Binary → Nat
  | finite false mantissa exponent =>
    min Word.greatestUnsigned
      (if 0 ≤ exponent then mantissa * Nat.pow 2 exponent.toNat
      else mantissa / Nat.pow 2 (-exponent).toNat)
  | infinite false => Word.greatestUnsigned
  | _ => 0

end Binary

/-! ### Reading decimals -/

/-- A written number: digits times a power of ten. -/
structure Numeral where
  digits : Nat
  power : Int
deriving DecidableEq

namespace Numeral

/-- The exponent after its mark, or zero if there is none. -/
def exponent? : List Char → Option Int
  | [] => some 0
  | c :: cs => if c = 'e' || c = 'E' then integer? cs else none

/-- A number without a sign. -/
def parse? (cs : List Char) : Option Numeral := do
  let whole := cs.takeWhile Char.isDigit
  let rest := cs.dropWhile Char.isDigit
  let (fraction, rest) :=
    match rest with
    | '.' :: after => (after.takeWhile Char.isDigit, after.dropWhile Char.isDigit)
    | _ => ([], rest)
  if whole.isEmpty && fraction.isEmpty then none
  else
    let e ← exponent? rest
    return { digits := ofDigits (whole ++ fraction), power := e - fraction.length }

/-- Twice the number of decimal places that a double can tell apart. Beyond it a number is infinite
or zero, whatever its digits. -/
def horizon : Int := 700

/-- The nearest double. -/
def toFloat (n : Numeral) : Float :=
  let magnitude := (Nat.toDigits 10 n.digits).length + n.power
  if n.digits = 0 || magnitude < -horizon then 0
  else if horizon < magnitude then Float.ofBits 0x7ff0000000000000
  else Float.ofScientific n.digits (n.power < 0) n.power.natAbs

end Numeral

/-- A magnitude: one of the words, or a number without a sign. -/
def magnitude? (cs : List Char) : Option Float :=
  let word := String.ofList (cs.map Char.toLower)
  if word = "inf" || word = "infinity" then some (Float.ofBits 0x7ff0000000000000)
  else if word = "nan" then some (Float.ofBits 0x7ff8000000000000)
  else (Numeral.parse? cs).map Numeral.toFloat

/-- The double that a text spells. -/
def float? (s : String) : Option Float :=
  match s.toList with
  | '+' :: cs => magnitude? cs
  | '-' :: cs => (magnitude? cs).map Float.neg
  | cs => magnitude? cs

/-! ### The shortest decimal of a double -/

/-- A double and the interval of reals that are nearest to it, in units of a power of two. -/
structure Spread where
  low : Nat
  value : Nat
  high : Nat
  /-- The unit is this power of two. -/
  exponent : Int
  /-- Whether the ends of the interval belong to it. -/
  closed : Bool

/-- The interval around a positive double. It reaches half way to the neighbours; below a power of
two the neighbour is closer. Ties go to the even mantissa, so the ends belong to even ones. -/
def Spread.of (mantissa : Nat) (exponent : Int) : Spread where
  low :=
    if mantissa = Nat.pow 2 52 && exponent != Binary.leastExponent then 4 * mantissa - 1
    else 4 * mantissa - 2
  value := 4 * mantissa
  high := 4 * mantissa + 2
  exponent := exponent - 2
  closed := mantissa % 2 = 0

namespace Spread

/-- Numerator and denominator of the unit over `10 ^ power`. -/
def scale (s : Spread) (power : Int) : Nat × Nat :=
  (Nat.pow 2 s.exponent.toNat * Nat.pow 10 (-power).toNat,
    Nat.pow 2 (-s.exponent).toNat * Nat.pow 10 power.toNat)

/-- Whether `digits * 10 ^ power` is in the interval. -/
def contains (s : Spread) (digits : Nat) (power : Int) : Bool :=
  let (num, den) := s.scale power
  if s.closed then s.low * num ≤ digits * den && digits * den ≤ s.high * num
  else s.low * num < digits * den && digits * den < s.high * num

/-- The multiple of `10 ^ power` to write, if one reads back. -/
def onGrid (s : Spread) (power : Int) : Option Nat :=
  let (num, den) := s.scale power
  let below := s.value * num / den
  let above := below + 1
  match 0 < below && s.contains below power, s.contains above power with
  | true, true =>
    -- twice the distance from `below` against the whole step
    if 2 * (s.value * num % den) < den then some below else some above
  | true, false => some below
  | false, true => some above
  | false, false => none

end Spread

/-- The greatest power of ten to try: all doubles are below `10 ^ 309`. -/
def coarsest : Int := 309

/-- How many powers of ten to try. The last is `10 ^ (-350)`: the least double is above
`10 ^ (-324)`, and no double needs more than seventeen digits. -/
def grids : Nat := 660

/-- Digits and power of ten of the shortest decimal of a positive double. -/
def shortest (mantissa : Nat) (exponent : Int) : Option (Nat × Int) :=
  let s := Spread.of mantissa exponent
  (List.range grids).findSome? fun n =>
    let power := coarsest - (n : Nat)
    (s.onGrid power).map fun digits => (digits, power)

/-- A decimal written out without an exponent. -/
def positional (digits : Nat) (power : Int) : String :=
  let ds := Nat.toDigits 10 digits
  if 0 ≤ power then
    String.ofList (ds ++ List.replicate power.toNat '0')
  else
    let places := (-power).toNat
    -- at least one digit stands before the point
    let ds := List.replicate (places + 1 - ds.length) '0' ++ ds
    let whole := ds.length - places
    String.ofList (ds.take whole ++ '.' :: ds.drop whole)

/-- The text of a double: the shortest decimal, never with an exponent, and no point in whole
numbers. -/
def text (x : Float) : String :=
  match Binary.ofFloat x with
  | .nan => "NaN"
  | .infinite negative => if negative then "-inf" else "inf"
  | .finite negative mantissa exponent =>
    let sign := if negative then "-" else ""
    let digits := if mantissa = 0 then none else shortest mantissa exponent
    sign ++ digits.elim "0" fun (digits, power) => positional digits power

end Inlining.Decimal
