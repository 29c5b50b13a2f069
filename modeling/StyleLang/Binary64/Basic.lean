/-!
# IEEE 754 binary64 numbers

A finite number is a sign and a rank, the number's place among the magnitudes in increasing
order. `units` turns a rank into an exact magnitude, counted in units of `2 ^ (-1074)`, the least
positive magnitude, so every comparison is one of integers. There is a single NaN. Two notions of
equality are kept apart: `=` tells the two zeros apart and identifies NaN with itself, while `==`
is the comparison of the standard.
-/

namespace StyleLang

/-- The magnitudes from a power of two up to the next one: `2 ^ 52`. -/
def Binary64.binade : Nat :=
  4503599627370496

/-- The rank just above the finite magnitudes, which stands for infinity. -/
def Binary64.overflowRank : Nat :=
  2047 * binade

/-- A binary64 number. The rank of a finite number counts the smaller magnitudes. -/
inductive Binary64 where
  | nan
  | infinite (negative : Bool)
  | finite (negative : Bool) (rank : Fin Binary64.overflowRank)
  deriving DecidableEq

namespace Binary64

/-- The magnitude of a rank in units of `2 ^ (-1074)`. In the first two binades the magnitudes are
consecutive, and each further binade doubles the distance between neighbours. -/
def units (rank : Nat) : Nat :=
  let exponent := rank / binade - 1
  (rank - exponent * binade) <<< exponent

/-- The units in one: `2 ^ 1074`. -/
def unitsPerOne : Nat :=
  1 <<< 1074

/-- The number of a sign and a rank, infinite from `overflowRank` on. -/
def ofRank (negative : Bool) (rank : Nat) : Binary64 :=
  if h : rank < overflowRank then finite negative ⟨rank, h⟩ else infinite negative

/-- The zero of a sign. -/
def zero (negative : Bool) : Binary64 :=
  ofRank negative 0

/-- Whether the number is finite. -/
def isFinite : Binary64 → Bool
  | finite .. => true
  | _ => false

/-- Whether the number is NaN. -/
def isNaN : Binary64 → Bool
  | nan => true
  | _ => false

/-- A natural number with a sign. -/
def signed (negative : Bool) (magnitude : Nat) : Int :=
  if negative then -magnitude else magnitude

/-- The place of a number on the line, in units of `2 ^ (-1074)`. Infinities stand one step
outside the finite numbers, and NaN has no place. -/
def place? : Binary64 → Option Int
  | nan => none
  | infinite negative => some (signed negative (units overflowRank))
  | finite negative rank => some (signed negative (units rank))

/-- The equality of the standard: NaN equals nothing, and the zeros are equal. -/
def equal (x y : Binary64) : Bool :=
  match x.place?, y.place? with
  | some a, some b => a == b
  | _, _ => false

/-- The order of the standard: NaN is not comparable, and the zeros are equal. -/
def atMost (x y : Binary64) : Bool :=
  match x.place?, y.place? with
  | some a, some b => decide (a ≤ b)
  | _, _ => false

/-- Numbers are compared with `==` by the equality of the standard. -/
instance : BEq Binary64 :=
  ⟨equal⟩

/-- Whether the number lies between two bounds, which belong to the range. -/
def within (x low high : Binary64) : Bool :=
  low.atMost x && x.atMost high

/-- The magnitude as a natural number, if the number is finite and integral. -/
def integer? : Binary64 → Option Nat
  | finite _ rank =>
      if units rank % unitsPerOne = 0 then some (units rank / unitsPerOne) else none
  | _ => none

/-- The sign bit of the interchange format. -/
def signBit : Nat :=
  1 <<< 63

/-- The 64 bits of the interchange format. NaN is the quiet NaN without payload. -/
def toBits : Binary64 → UInt64
  | nan => 0x7ff8000000000000
  | infinite negative => .ofNat (overflowRank + if negative then signBit else 0)
  | finite negative rank => .ofNat (rank + if negative then signBit else 0)

/-- The number of an interchange format. Every NaN is read as the one NaN. -/
def ofBits (bits : UInt64) : Binary64 :=
  let rank := bits.toNat % signBit
  if overflowRank < rank then nan else ofRank (decide (signBit ≤ bits.toNat)) rank

end Binary64

end StyleLang
