import ClassAssembler.Number.Binary

/-!
# Decimal text of floating point numbers

A number is written with the fewest decimal digits that read back as the same number; of several
such decimals the nearest is taken, and of two equally near ones the larger.
-/

namespace ClassAssembler

def tenTo (n : Nat) : Nat := Nat.pow 10 n

/-- The value `digits * 10 ^ exponent`. -/
structure Decimal where
  digits : Nat
  exponent : Int
  deriving DecidableEq

namespace Decimal

/-- The decimals that read back as one binary number, as multiples of
`1 / denominator`: those from `low` to `high`, with the ends if `closed`. -/
structure Interval where
  low : Nat
  value : Nat
  high : Nat
  denominator : Nat
  closed : Bool

/-- The numbers that round to `mantissa * 2 ^ exponent`: half a gap on each side,
with the ends when the mantissa is even. -/
def interval (mantissa : Nat) (exponent : Int) (lowGap : Bool) : Interval :=
  let scale := twoTo (exponent - 2).toNat
  { low := (4 * mantissa - if lowGap then 1 else 2) * scale
    value := 4 * mantissa * scale
    high := (4 * mantissa + 2) * scale
    denominator := twoTo (2 - exponent).toNat
    closed := mantissa % 2 == 0 }

/-- The least `e` with `value / denominator < 10 ^ e`. -/
def magnitude (range : Interval) : Int :=
  if range.denominator ≤ range.value then
    (Nat.toDigits 10 (range.value / range.denominator)).length
  else
    1 - (Nat.toDigits 10 ((range.denominator - 1) / range.value)).length

/-- Which multiple of `10 ^ exponent` next to the value reads back, if any. -/
def onGrid? (range : Interval) (exponent : Int) : Option Decimal :=
  let up := tenTo (-exponent).toNat
  let step := tenTo exponent.toNat * range.denominator
  let below := range.value * up / step
  let reads (digits : Nat) : Bool :=
    let point := digits * step
    if range.closed then range.low * up ≤ point && point ≤ range.high * up
    else range.low * up < point && point < range.high * up
  let above := below + 1
  match reads below, reads above with
  | true, true =>
      let nearer := if above * step - range.value * up ≤ range.value * up - below * step
        then above else below
      some ⟨nearer, exponent⟩
  | true, false => some ⟨below, exponent⟩
  | false, true => some ⟨above, exponent⟩
  | false, false => none

/-- Seventeen digits tell all numbers of both formats apart. -/
def mostDigits : Nat := 17

/-- From the grid whose only candidate is the next power of ten down to the finest
one. -/
def grids (range : Interval) : List Int :=
  (List.range (mostDigits + 1)).map fun (n : Nat) => magnitude range - (n : Int)

/-- The shortest decimal that reads back as `mantissa * 2 ^ exponent`. -/
def shortest (mantissa : Nat) (exponent : Int) (lowGap : Bool) : Decimal :=
  let range := interval mantissa exponent lowGap
  ((grids range).findSome? (onGrid? range)).getD ⟨0, 0⟩

def zeros (n : Nat) : String := String.ofList (List.replicate n '0')

/-- Positional from `0.0001` up to sixteen digits before the point, and then with
at least one digit behind it; otherwise one digit before the point and a power of
ten. -/
def text (number : Decimal) : String :=
  let digits := Nat.toDigits 10 number.digits
  let count := digits.length
  let point : Int := number.exponent + count
  if -4 < point ∧ point ≤ 16 then
    if point ≤ 0 then
      "0." ++ zeros (-point).toNat ++ String.ofList digits
    else if count ≤ point.toNat then
      String.ofList digits ++ zeros (point.toNat - count) ++ ".0"
    else
      String.ofList (digits.take point.toNat) ++ "." ++ String.ofList (digits.drop point.toNat)
  else
    let tail := match digits.drop 1 with
      | [] => ""
      | rest => "." ++ String.ofList rest
    String.ofList (digits.take 1) ++ tail ++ "e" ++ toString (point - 1)

end Decimal

def Binary.text (number : Binary) : String :=
  let sign := if number.negative then "-" else ""
  match number.magnitude with
  | .nan => "NaN"
  | .infinite => sign ++ "inf"
  | .finite mantissa exponent lowGap =>
      if mantissa = 0 then sign ++ "0.0"
      else sign ++ (Decimal.shortest mantissa exponent lowGap).text

end ClassAssembler
