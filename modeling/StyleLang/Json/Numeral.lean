import StyleLang.Decimal.Literal
import StyleLang.Decimal.Shortest

/-!
# JSON numbers

A number of a JSON text is kept as it is written, as a `Numeral`, and becomes a binary64 number only
where one is wanted. Reading collects the digits into a significand of 64 bits and scales it by a
power of ten in binary64 arithmetic. Writing gives an integer for the integral numbers up to
`2 ^ 53` and the shortest digits that denote the number for all others.
-/

namespace StyleLang

/-- A JSON number: its sign, the digits around the point, and its exponent. -/
structure Numeral where
  negative : Bool
  whole : Nat
  fraction : List Digit
  exponent : Option Int
  deriving DecidableEq

namespace Numeral

/-- Takes an optional fraction off the front. A point without digits is refused. -/
def fraction? : List Char → Option (List Digit × List Char)
  | '.' :: rest =>
      match Digit.scan rest with
      | ([], _) => none
      | scanned => some scanned
  | text => some ([], text)

/-- Reads digits without a leading zero, unless zero is all there is. -/
def whole? : List Digit → Option Nat
  | [] => none
  | [digit] => some digit
  | digit :: digits => if digit = .zero then none else some (Digit.number digit digits)

/-- Reads a number without its sign. -/
def unsigned? (negative : Bool) (text : List Char) : Option Numeral := do
  let (digits, afterWhole) := Digit.scan text
  let whole ← whole? digits
  let (fraction, afterFraction) ← fraction? afterWhole
  let exponent ← Literal.exponent? afterFraction
  pure ⟨negative, whole, fraction, exponent⟩

/-- Reads a number of the JSON grammar. -/
def ofText? : List Char → Option Numeral
  | '-' :: text => unsigned? true text
  | text => unsigned? false text

/-- Writes the exponent part, always with a sign. -/
def exponentText : Option Int → String
  | none => ""
  | some exponent =>
      (if exponent < 0 then "e-" else "e+") ++ Digit.text (Digit.ofNat exponent.natAbs)

/-- Writes a number in the JSON grammar. -/
def text (numeral : Numeral) : String :=
  (if numeral.negative then "-" else "") ++ Digit.text (Digit.ofNat numeral.whole) ++
    (if numeral.fraction.isEmpty then "" else "." ++ Digit.text numeral.fraction) ++
    exponentText numeral.exponent

/-- Appends digits to a significand as long as it stays below `2 ^ 64`. The second component counts
the digits from the first that does not fit on. -/
def collect (significand : Nat) : List Digit → Nat × Nat
  | [] => (significand, 0)
  | digit :: digits =>
      if 10 * significand + digit.val < UInt64.size then collect (10 * significand + digit.val) digits
      else (significand, digits.length + 1)

/-- A power of ten, rounded. -/
def power (exponent : Nat) : Binary64 :=
  Decimal.toBinary64 false ⟨1, exponent⟩

/-- Multiplies by a power of ten. There is no result if it is infinite. -/
def scaleUp (x : Binary64) (exponent : Nat) : Option Binary64 :=
  if 308 < exponent then
    if x == 0 then some x else none
  else if (x * power exponent).isFinite then some (x * power exponent)
  else none

/-- Divides by a power of ten, in steps of `10 ^ 308`. -/
def scaleDown (x : Binary64) (exponent : Nat) : Binary64 :=
  if exponent ≤ 308 then x / power exponent
  else if x == 0 then x
  else scaleDown (x / power 308) (exponent - 308)
  termination_by exponent

/-- The binary64 number of a numeral. There is none if the numeral is out of range. -/
def toBinary64? (numeral : Numeral) : Option Binary64 :=
  let (whole, skipped) := collect 0 (Digit.ofNat numeral.whole)
  let (significand, ignored) := collect whole numeral.fraction
  let exponent : Int :=
    numeral.exponent.getD 0 + skipped - (numeral.fraction.length - ignored : Nat)
  let magnitude? :=
    if 0 ≤ exponent then scaleUp (.ofNat significand) exponent.toNat
    else some (scaleDown (.ofNat significand) (-exponent).toNat)
  magnitude?.map fun magnitude ↦ if numeral.negative then -magnitude else magnitude

/-- The numeral of an integer. -/
def ofInt (n : Int) : Numeral :=
  ⟨decide (n < 0), n.natAbs, [], none⟩

/-- Writes a decimal in positional notation from `0.00001` to 16 digits before the point, with a
digit after the point in any case, and in scientific notation elsewhere. -/
def ofDecimal (negative : Bool) (d : Decimal) : Numeral :=
  if -5 < d.point ∧ d.point ≤ 16 then
    ⟨negative, d.whole, if d.fraction.isEmpty then [.zero] else d.fraction, none⟩
  else
    let scientific : Decimal := ⟨d.significand, 1 - (Digit.ofNat d.significand).length⟩
    ⟨negative, scientific.whole, scientific.fraction, some (d.point - 1)⟩

end Numeral

/-- The greatest magnitude of the integral numbers that are written as integers: `2 ^ 53`. -/
def Binary64.greatestInteger : Nat :=
  9007199254740992

/-- The numeral that a number is written as. NaN and the infinities have none. Of two equally near
shortest decimals the one with the even last digit is written. -/
def Binary64.numeral? : Binary64 → Option Numeral
  | finite negative rank =>
      match (finite negative rank).integer?.filter (· ≤ greatestInteger) with
      | some n => some (.ofInt (signed negative n))
      | none => some (.ofDecimal negative (Decimal.shortest .toEven rank))
  | _ => none

-- Past `2 ^ 53` an integer has a fraction. Exponents are written from `10 ^ 16` on and below
-- `10 ^ (-5)`.
example :
    [⟨9007199254740992, 0⟩, ⟨9007199254740994, 0⟩, ⟨1, 16⟩, ⟨1, -5⟩, ⟨123, -8⟩, ⟨5, -324⟩].map
        (fun d : Decimal ↦ (d.toBinary64 false).numeral?.map Numeral.text) =
      [some "9007199254740992", some "9007199254740994.0", some "1e+16", some "0.00001",
        some "1.23e-6", some "5e-324"] := by
  decide +kernel

end StyleLang
