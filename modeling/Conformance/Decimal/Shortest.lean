/-!
Fewest decimal digits that read back as a binary floating-point number.

A number `m * 2 ^ q` is what every real within half a step of it reads as (a
quarter step below, where the steps below are half as wide), the ends only if
`m` is even. For 1, 2, ... digits the two neighbours of the number on the grid
of that many digits are tried; the first grid with a hit wins, and of two hits
the nearer one, the upper one when both are as near.
-/

namespace Conformance

/-- The number `digits * 10 ^ exponent`. -/
structure Decimal where
  digits : Nat
  exponent : Int
deriving DecidableEq, Repr, Inhabited

namespace Decimal

/-- A positive rational `num / den`. -/
structure Ratio where
  num : Nat
  den : Nat

/-- `x * 2 ^ e` -/
def Ratio.scale2 (x : Nat) (e : Int) : Ratio := ⟨x * Nat.pow 2 e.toNat, Nat.pow 2 (-e).toNat⟩

/-- `r / 10 ^ e` -/
def Ratio.unscale10 (r : Ratio) (e : Int) : Ratio :=
    ⟨r.num * Nat.pow 10 (-e).toNat, r.den * Nat.pow 10 e.toNat⟩

/-- Least `z ≤ n` for which `num * 10 ^ z` reaches `den`. -/
def leadingZeros (num den : Nat) : Nat → Nat
  | 0 => 0
  | n + 1 => if den ≤ num then 0 else leadingZeros (num * 10) den n + 1

/-- The `e` with `10 ^ (e - 1) ≤ r < 10 ^ e`, for numbers not below `10 ^ (-400)`. -/
def Ratio.magnitude (r : Ratio) : Int :=
  if r.den ≤ r.num then ((Nat.toDigits 10 (r.num / r.den)).length : Int)
  else 1 - (leadingZeros r.num r.den 400 : Int)

/-- Reals that read as the number `4 * m * 2 ^ (q - 2)`, where `below` is the
width downwards in units of `2 ^ (q - 2)`. -/
structure Interval where
  value : Ratio
  low : Ratio
  high : Ratio
  closed : Bool

def Interval.of (m : Nat) (q : Int) (below : Nat) : Interval where
  value := .scale2 (4 * m) (q - 2)
  low := .scale2 (4 * m - below) (q - 2)
  high := .scale2 (4 * m + 2) (q - 2)
  closed := m % 2 == 0

/-- `a < b`, or `a ≤ b` when the ends belong to the interval. -/
def Interval.admits (closed : Bool) (a b : Nat) : Bool :=
    if closed then decide (a ≤ b) else decide (a < b)

/-- The hit among the two neighbours of the value on the grid `10 ^ e`. -/
def Interval.hit? (i : Interval) (e : Int) : Option Nat :=
  let v := i.value.unscale10 e
  let lo := i.low.unscale10 e
  let hi := i.high.unscale10 e
  let down := v.num / v.den
  let up := down + 1
  let downHits := admits i.closed lo.num (down * lo.den)
  let upHits := admits i.closed (up * hi.den) hi.num
  if downHits && upHits then
    -- the distance to the lower neighbour is `v - down`, in units of the grid
    if 2 * (v.num - down * v.den) < v.den then some down else some up
  else if downHits then some down
  else if upHits then some up
  else none

/-- Try `n` grids from the one of `count` digits on. -/
def Interval.search (i : Interval) (magnitude : Int) : Nat → Nat → Decimal
  | _, 0 => ⟨i.value.num / i.value.den, 0⟩
  | count, n + 1 =>
    match i.hit? (magnitude - count) with
    | some digits => if digits = Nat.pow 10 count then
      ⟨1, magnitude⟩ else ⟨digits, magnitude - count⟩
    | none => i.search magnitude (count + 1) n

/-- Shortest decimal that reads back as `m * 2 ^ q`. Seventeen digits always do. -/
def shortest (m : Nat) (q : Int) (below : Nat) : Decimal :=
  let i := Interval.of m q below
  i.search i.value.magnitude 1 17

/-- The digits with a point where it belongs and no exponent. -/
def positional (d : Decimal) : String :=
  let digits := toString d.digits
  if 0 ≤ d.exponent then digits ++ "".pushn '0' d.exponent.toNat
  else
    let places := (-d.exponent).toNat
    if places < digits.length then
      String.ofList (digits.toList.take (digits.length - places)) ++ "." ++
        String.ofList (digits.toList.drop (digits.length - places))
    else "0." ++ "".pushn '0' (places - digits.length) ++ digits

end Decimal

/-- Where the exponent of a double starts; a number in normal form has this bit
above its fraction. -/
def Decimal.fractionSize : Nat := 4503599627370496

/-- Text of a double given by its bits: shortest digits, never an exponent, the
sign of zero kept. -/
def doubleText (bits : UInt64) : String :=
  let b := bits.toNat
  let sign := if b.testBit 63 then "-" else ""
  let exponent : Nat := b / Decimal.fractionSize % 2048
  let fraction : Nat := b % Decimal.fractionSize
  if exponent = 2047 then
    if fraction = 0 then sign ++ "inf" else "NaN"
  else if exponent = 0 then
    if fraction = 0 then sign ++ "0"
    else sign ++ (Decimal.shortest fraction (-1074) 2).positional
  else
    let below := if fraction = 0 && 1 < exponent then 1 else 2
    sign ++ (Decimal.shortest (Decimal.fractionSize + fraction)
      ((exponent : Int) - 1075) below).positional

end Conformance
