import StyleLang.Binary64.Basic

/-!
# Rounding to binary64

An exact quotient is rounded to the nearest magnitude, and a tie goes to the even rank, which is
the one with the even significand. `nearestRank` is the single place where rounding happens: whole
numbers, quotients, products and decimals all go through it.
-/

namespace StyleLang.Binary64

/-- The last rank whose magnitude is at most a whole number of units. -/
def floorRank (magnitude : Nat) : Nat :=
  let exponent := magnitude.log2 - 52
  exponent * binade + magnitude >>> exponent

/-- The rank nearest to `num / den` units. The midpoint of two neighbours goes to the even one. -/
def nearestRank (num den : Nat) : Nat :=
  let low := floorRank (num / den)
  match compare (2 * num) ((units low + units (low + 1)) * den) with
  | .lt => low
  | .eq => if low % 2 = 0 then low else low + 1
  | .gt => low + 1

/-- The number nearest to `num / den`. -/
def ofRatio (negative : Bool) (num den : Nat) : Binary64 :=
  ofRank negative (nearestRank (num * unitsPerOne) den)

/-- The number nearest to a natural number. -/
def ofNat (n : Nat) : Binary64 :=
  ofRatio false n 1

/-- The number nearest to an integer. -/
def ofInt (n : Int) : Binary64 :=
  ofRatio (decide (n < 0)) n.natAbs 1

/-- Numerals denote the nearest number. -/
instance (n : Nat) : OfNat Binary64 n :=
  ⟨ofNat n⟩

/-- The product, rounded once. -/
def mul : Binary64 → Binary64 → Binary64
  | finite s a, finite t b => ofRank (s != t) (nearestRank (units a * units b) unitsPerOne)
  | infinite s, infinite t => infinite (s != t)
  | infinite s, finite t rank | finite s rank, infinite t =>
      if rank.val = 0 then nan else infinite (s != t)
  | nan, _ | _, nan => nan

/-- The quotient, rounded once. -/
def div : Binary64 → Binary64 → Binary64
  | finite s a, finite t b =>
      if b.val = 0 then
        if a.val = 0 then nan else infinite (s != t)
      else ofRatio (s != t) (units a) (units b)
  | infinite s, finite t _ => infinite (s != t)
  | finite s _, infinite t => zero (s != t)
  | infinite _, infinite _ => nan
  | nan, _ | _, nan => nan

instance : Mul Binary64 :=
  ⟨mul⟩

instance : Div Binary64 :=
  ⟨div⟩

/-- The negated number. -/
def neg : Binary64 → Binary64
  | nan => nan
  | infinite negative => infinite (!negative)
  | finite negative rank => finite (!negative) rank

instance : Neg Binary64 :=
  ⟨neg⟩

/-- The nearest integral number. A half goes away from zero, and the sign stays, also that of
zero. -/
def round : Binary64 → Binary64
  | finite negative rank =>
      ofRatio negative ((2 * units rank + unitsPerOne) / (2 * unitsPerOne)) 1
  | x => x

end StyleLang.Binary64
