/-!
# Binary floating point, from its bits

A number is decoded from its bit pattern into a sign and a magnitude `mantissa * 2 ^ exponent`,
all in exact integers. Two formats are in use, of 32 and of 64 bits.
-/

namespace ClassAssembler

def twoTo (n : Nat) : Nat := Nat.pow 2 n

structure BinaryFormat where
  fractionBits : Nat
  exponentBits : Nat

namespace BinaryFormat

def single : BinaryFormat := ⟨23, 8⟩
def double : BinaryFormat := ⟨52, 11⟩

/-- The exponent field of infinities and of what is not a number. -/
def topExponent (format : BinaryFormat) : Nat := twoTo format.exponentBits - 1

def leastExponent (format : BinaryFormat) : Int :=
  2 - (twoTo (format.exponentBits - 1) : Int) - format.fractionBits

end BinaryFormat

inductive Magnitude where
  | nan
  | infinite
  /-- The value `mantissa * 2 ^ exponent`. `lowGap` says that the next number
  below is only half as far away as the next one above. -/
  | finite (mantissa : Nat) (exponent : Int) (lowGap : Bool)
  deriving DecidableEq

structure Binary where
  negative : Bool
  magnitude : Magnitude
  deriving DecidableEq

namespace Binary

def decode (format : BinaryFormat) (bits : Nat) : Binary :=
  let fraction := bits % twoTo format.fractionBits
  let field := bits / twoTo format.fractionBits % twoTo format.exponentBits
  let negative := bits / twoTo (format.fractionBits + format.exponentBits) % 2 == 1
  let magnitude :=
    if field = format.topExponent then
      if fraction = 0 then .infinite else .nan
    else if field = 0 then
      .finite fraction format.leastExponent false
    else
      .finite (twoTo format.fractionBits + fraction) (format.leastExponent + (field - 1))
        (fraction == 0 && field != 1)
  ⟨negative, magnitude⟩

def single (bits : UInt32) : Binary := decode .single bits.toNat

def double (bits : UInt64) : Binary := decode .double bits.toNat

/-- The integer a number equals. Negative zero equals none: it would come back
as zero. -/
def toInt? (number : Binary) : Option Int :=
  match number.magnitude with
  | .finite mantissa exponent _ =>
      if mantissa = 0 then
        if number.negative then none else some 0
      else
        let magnitude? : Option Nat :=
          let divisor := twoTo (-exponent).toNat
          if 0 ≤ exponent then some (mantissa * twoTo exponent.toNat)
          else if mantissa % divisor = 0 then some (mantissa / divisor)
          else none
        magnitude?.map fun n => if number.negative then -(n : Int) else n
  | _ => none

end Binary
end ClassAssembler
