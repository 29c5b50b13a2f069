import StyleLang.Decimal.Basic

/-!
# Number literals

The texts that denote numbers in colors and conversions: an optional sign, then `inf`, `infinity` or
`nan` in any case, or decimal digits with an optional point and an optional exponent, where at least
one digit stands on some side of the point. `Binary64.ofLiteral?` reads such a text and rounds once.
-/

namespace StyleLang

namespace Literal

/-- Takes an optional sign off the front. `true` is a minus. -/
def sign : List Char → Bool × List Char
  | '-' :: rest => (true, rest)
  | '+' :: rest => (false, rest)
  | text => (false, text)

/-- Reads the exponent part that ends a literal. An empty text is the absence of one. -/
def exponent? : List Char → Option (Option Int)
  | [] => some none
  | 'e' :: rest | 'E' :: rest =>
      let (negative, unsigned) := sign rest
      match Digit.scan unsigned with
      | (digit :: digits, []) =>
          some (some (Binary64.signed negative (Digit.number 0 (digit :: digits))))
      | _ => none
  | _ => none

/-- Takes the digits after a decimal point off the front, if there is a point. -/
def fraction : List Char → List Digit × List Char
  | '.' :: rest => Digit.scan rest
  | text => ([], text)

/-- Reads an unsigned decimal literal. -/
def decimal? (text : List Char) : Option Decimal :=
  let (whole, afterWhole) := Digit.scan text
  let (fraction, afterFraction) := fraction afterWhole
  if whole.isEmpty && fraction.isEmpty then none
  else
    (exponent? afterFraction).map fun exponent ↦
      ⟨Digit.number 0 (whole ++ fraction), exponent.getD 0 - fraction.length⟩

end Literal

/-- Reads a number literal and rounds it to the nearest binary64 number. -/
def Binary64.ofLiteral? (text : List Char) : Option Binary64 :=
  let (negative, unsigned) := Literal.sign text
  match String.ofList (unsigned.map Char.toLower) with
  | "inf" | "infinity" => some (.infinite negative)
  | "nan" => some .nan
  | _ => (Literal.decimal? unsigned).map (·.toBinary64 negative)

example :
    ["-.5e1", "+Infinity", "."].map (Binary64.ofLiteral? ·.toList) =
      [some (.ofInt (-5)), some (.infinite false), none] := by
  decide +kernel

end StyleLang
