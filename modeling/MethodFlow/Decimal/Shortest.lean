/-!
Texts of binary floating point words. A word holds a sign bit, a biased exponent and a fraction,
from the top down. Its text is the shortest decimal that reads back, in full, with names for the
values that are not numbers.

A binary value `m * 2 ^ q` stands for every real that rounds to it; these form an interval, which
holds its ends when `m` is even. On the grid of multiples of `10 ^ k` the only points that matter
are the two next to the value. The coarsest grid that has one of them in the interval gives the
fewest digits. Of two such points the nearer is taken, and of two equally near ones the greater. All
arithmetic is exact: the interval's ends and the value are numerators over one denominator.
-/

namespace MethodFlow.Decimal

/-- The reals that round to a value, as fractions `_ / scale`. -/
structure Interval where
  low : Nat
  value : Nat
  high : Nat
  scale : Nat
  closed : Bool
deriving DecidableEq

/-- The interval of `m * 2 ^ q`. Where the next smaller value is half as far away as the next
greater one, `closeBelow` holds. -/
def Interval.ofBinary (m : Nat) (q : Int) (closeBelow : Bool) : Interval :=
  let e := q - 2
  let unit := Nat.pow 2 e.toNat
  { low := (4 * m - if closeBelow then 1 else 2) * unit
    value := 4 * m * unit
    high := (4 * m + 2) * unit
    scale := Nat.pow 2 (-e).toNat
    closed := m % 2 = 0 }

/-- The decimal `digits * 10 ^ exponent`. -/
structure Numeral where
  digits : Nat
  exponent : Int
deriving DecidableEq

/-- The decimal and a fraction over `scale`, brought to one denominator. -/
def Numeral.aligned (d : Numeral) (scale x : Nat) : Nat × Nat :=
  (d.digits * Nat.pow 10 d.exponent.toNat * scale, x * Nat.pow 10 (-d.exponent).toNat)

/-- The decimal reads back as the interval's value. -/
def Interval.holds (i : Interval) (d : Numeral) : Bool :=
  let (a, low) := d.aligned i.scale i.low
  let (b, high) := d.aligned i.scale i.high
  if i.closed then low ≤ a && b ≤ high else low < a && b < high

/-- The greatest point of the grid `10 ^ k` that does not exceed the value. -/
def Interval.below (i : Interval) (k : Int) : Numeral :=
  ⟨i.value * Nat.pow 10 (-k).toNat / (Nat.pow 10 k.toNat * i.scale), k⟩

/-- The least point of the grid `10 ^ k` above the value. -/
def Interval.above (i : Interval) (k : Int) : Numeral :=
  ⟨(i.below k).digits + 1, k⟩

/-- Whether the point above is at least as near to the value as the point below. -/
def Interval.prefersAbove (i : Interval) (k : Int) : Bool :=
  let (down, v) := (i.below k).aligned i.scale i.value
  let (up, _) := (i.above k).aligned i.scale i.value
  up - v ≤ v - down

/-- The point of the grid `10 ^ k` to write, if one reads back. -/
def Interval.onGrid? (i : Interval) (k : Int) : Option Numeral :=
  match i.holds (i.below k), i.holds (i.above k) with
  | true, true => some (if i.prefersAbove k then i.above k else i.below k)
  | true, false => some (i.below k)
  | false, true => some (i.above k)
  | false, false => none

def Interval.search (i : Interval) : Nat → Int → Numeral
  | 0, k => i.below k
  | tries + 1, k =>
    match i.onGrid? k with
    | some d => d
    | none => i.search tries (k - 1)

/-- Number of decimal digits, none for zero. -/
def digitCount (n : Nat) : Nat := if n = 0 then 0 else (Nat.toDigits 10 n).length

/-- The search starts above the value and ends once the grid is finer than the interval. -/
def Interval.shortest (i : Interval) : Numeral :=
  let start := digitCount (i.high / i.scale)
  i.search (start + digitCount i.scale + 1) start

/-- Positional notation without an exponent. -/
def Numeral.text (d : Numeral) : String :=
  let digits := Nat.toDigits 10 d.digits
  let zeros (n : Nat) := List.replicate n '0'
  let places := (-d.exponent).toNat
  if places = 0 then String.ofList (digits ++ zeros d.exponent.toNat)
  else if digits.length ≤ places then
    String.ofList ('0' :: '.' :: zeros (places - digits.length) ++ digits)
  else
    String.ofList (digits.take (digits.length - places) ++ '.' ::
      digits.drop (digits.length - places))

structure WordLayout where
  fractionBits : Nat
  exponentBits : Nat

def single : WordLayout := ⟨23, 8⟩

def double : WordLayout := ⟨52, 11⟩

namespace WordLayout

def fraction (l : WordLayout) (bits : Nat) : Nat := bits % Nat.pow 2 l.fractionBits

def exponent (l : WordLayout) (bits : Nat) : Nat :=
  bits / Nat.pow 2 l.fractionBits % Nat.pow 2 l.exponentBits

def isNegative (l : WordLayout) (bits : Nat) : Bool :=
  bits / Nat.pow 2 (l.fractionBits + l.exponentBits) % 2 = 1

/-- The exponent of the unit in the last place of the smallest numbers. -/
def minExponent (l : WordLayout) : Int :=
  2 - Nat.pow 2 (l.exponentBits - 1) - l.fractionBits

def magnitudeText (l : WordLayout) (bits : Nat) : String :=
  let f := l.fraction bits
  let e := l.exponent bits
  if e = 0 && f = 0 then "0"
  else if e = 0 then (Interval.ofBinary f l.minExponent false).shortest.text
  else
    (Interval.ofBinary (Nat.pow 2 l.fractionBits + f) (l.minExponent + (e - 1 : Nat))
      (f = 0 && 1 < e)).shortest.text

/-- A word that is not a number has no sign in its text. -/
def text (l : WordLayout) (bits : Nat) : String :=
  let sign := if l.isNegative bits then "-" else ""
  if l.exponent bits = Nat.pow 2 l.exponentBits - 1 then
    if l.fraction bits = 0 then sign ++ "inf" else "NaN"
  else sign ++ l.magnitudeText bits

end WordLayout

end MethodFlow.Decimal
