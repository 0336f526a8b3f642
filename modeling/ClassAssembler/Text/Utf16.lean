/-!
# UTF-16 units of a text

The machine's strings are sequences of 16-bit units: one for each character of the basic plane,
two for every other character.
-/

namespace ClassAssembler
namespace Text

def charUnits (c : Char) : List Nat :=
  if c.toNat < 0x10000 then [c.toNat]
  else
    let offset := c.toNat - 0x10000
    [0xD800 + offset / 0x400, 0xDC00 + offset % 0x400]

def units (text : String) : List Nat :=
  text.toList.flatMap charUnits

/-- The hash code of a string: a polynomial in 31 over its units, modulo `2 ^ 32`. -/
def unitsHash (units : List Nat) : Int32 :=
  units.foldl (fun hash unit => 31 * hash + Int32.ofNat unit) 0

def hashCode (text : String) : Int32 :=
  unitsHash (units text)

end Text
end ClassAssembler
