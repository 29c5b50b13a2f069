import StyleLang.Binary64.Rounding
import StyleLang.Text.Characters

/-!
# Decimals

A decimal is a natural number times a power of ten. `Decimal.rank` rounds one to the nearest
binary64 magnitude, exactly, whatever its size. `whole` and `fraction` are its positional digits.
-/

namespace StyleLang

/-- The decimal `significand * 10 ^ exponent`. -/
structure Decimal where
  significand : Nat
  exponent : Int
  deriving DecidableEq

namespace Decimal

/-- The decimal as a quotient of natural numbers. -/
def ratio (d : Decimal) : Nat × Nat :=
  (d.significand * .pow 10 d.exponent.toNat, .pow 10 (-d.exponent).toNat)

/-- The rank of the magnitude nearest to the decimal, or `overflowRank` if that is infinite. An
exponent far outside the range of magnitudes decides alone, so no huge power is computed. -/
def rank (d : Decimal) : Nat :=
  if d.significand = 0 ∨ d.exponent + d.significand.log2 < -400 then 0
  else if 400 < d.exponent then Binary64.overflowRank
  else
    let (num, den) := d.ratio
    min Binary64.overflowRank (Binary64.nearestRank (num * Binary64.unitsPerOne) den)

/-- The binary64 number nearest to a decimal with a sign. -/
def toBinary64 (negative : Bool) (d : Decimal) : Binary64 :=
  .ofRank negative d.rank

/-- The same decimal with the zeros at the end of its significand moved to the exponent. -/
def strip (d : Decimal) : Decimal :=
  if h : d.significand ≠ 0 ∧ d.significand % 10 = 0 then
    strip ⟨d.significand / 10, d.exponent + 1⟩
  else d
  termination_by d.significand
  decreasing_by exact Nat.div_lt_self (Nat.pos_of_ne_zero h.1) (by decide)

/-- The exponent `k` for which the decimal is `0.d₁d₂… * 10 ^ k`. -/
def point (d : Decimal) : Int :=
  (Digit.ofNat d.significand).length + d.exponent

/-- The part before the decimal point. -/
def whole (d : Decimal) : Nat :=
  d.ratio.1 / d.ratio.2

/-- The digits after the decimal point, as many as the exponent is below zero. -/
def fraction (d : Decimal) : List Digit :=
  Digit.fixed (-d.exponent).toNat d.significand

end Decimal

end StyleLang
