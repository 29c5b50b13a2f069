import StyleLang.Decimal.Basic

/-!
# Shortest decimals

The shortest decimal of a magnitude is the one with the fewest digits among those that read back
as that magnitude, and the nearest of them. The search tries ever finer decimal grids: on each grid
only the two neighbours of the magnitude can be nearest, so only they are tested, by reading them.
An exact decimal expansion stands at the end of the search, so the result always reads back. The
positional text of a number has the digits of its shortest decimal around a point and never an
exponent.
-/

namespace StyleLang

namespace Decimal

/-- Which of two equally near decimals is taken. -/
inductive Tie where
  | toEven
  | up

/-- The magnitude of a rank on the grid of multiples of `10 ^ exponent`, as a quotient of natural
numbers. -/
def onGrid (rank : Nat) (exponent : Int) : Nat × Nat :=
  (Binary64.units rank * .pow 10 (-exponent).toNat, Binary64.unitsPerOne * .pow 10 exponent.toNat)

/-- Whether a quotient lies nearer to the next whole number than to the one below. -/
def Tie.prefersAbove (tie : Tie) (num den : Nat) : Bool :=
  match compare (2 * (num % den)) den with
  | .lt => false
  | .gt => true
  | .eq =>
      match tie with
      | .up => true
      | .toEven => num / den % 2 = 1

/-- The nearest decimal on a grid that reads back as the rank, if there is one. -/
def onGrid? (tie : Tie) (rank : Nat) (exponent : Int) : Option Decimal :=
  let (num, den) := onGrid rank exponent
  let below : Decimal := ⟨num / den, exponent⟩
  let above : Decimal := ⟨num / den + 1, exponent⟩
  if below.rank = rank then
    if above.rank = rank ∧ tie.prefersAbove num den then some above else some below
  else if above.rank = rank then some above
  else none

/-- The magnitude of a rank as a decimal without rounding. -/
def exact (rank : Nat) : Decimal :=
  ⟨Binary64.units rank * .pow 5 1074, -1074⟩

/-- The exponent of a grid so coarse that the magnitude lies in its first interval, found from the
binary logarithm by `log₁₀ 2 < 0.30103`. -/
def coarsest (rank : Nat) : Int :=
  ((Binary64.units rank).log2 - 1073 : Int) * 30103 / 100000 + 1

/-- The shortest decimal that reads back as a rank, without zeros at its end. Twenty grids reach
past the seventeen digits that always suffice. -/
def shortest (tie : Tie) (rank : Nat) : Decimal :=
  if rank = 0 then ⟨0, 0⟩
  else
    let found := (List.range 20).findSome? fun (finer : Nat) ↦
      onGrid? tie rank (coarsest rank - finer)
    (found.getD (exact rank)).strip

/-! ## Positional texts -/

/-- The digits of a decimal around its point. An integral decimal has no point. -/
def positional (d : Decimal) : String :=
  let whole := Digit.text (Digit.ofNat d.whole)
  if d.fraction.isEmpty then whole else whole ++ "." ++ Digit.text d.fraction

end Decimal

/-- The positional text of a number. Of two equally near shortest decimals the upper one is
written, and a negative zero keeps its sign. -/
def Binary64.positional : Binary64 → String
  | nan => "NaN"
  | infinite negative => if negative then "-inf" else "inf"
  | finite negative rank =>
      let text := (Decimal.shortest .up rank).positional
      if negative then "-" ++ text else text

-- No magnitude is large or small enough for an exponent. The neighbours of `2 ^ (-25)` on the grid
-- of 17 digits are equally near.
example :
    [Binary64.ofRatio false 1 10, .zero true, Decimal.toBinary64 false ⟨1, 21⟩,
        .ofRatio true 1 (1 <<< 25)].map Binary64.positional =
      ["0.1", "-0", "1000000000000000000000", "-0.000000029802322387695313"] := by
  decide +kernel

end StyleLang
