import StyleLang.Color.Basic
import StyleLang.Decimal.Literal
import StyleLang.Decimal.Shortest
import StyleLang.Text.Characters

/-!
# Colors in CSS notation

Colors are written as `rgba(…)` with channels rounded to integers from 0 to 255. They are read from
hexadecimal notation with 3, 4, 6 or 8 digits, from `rgb(…)` and `rgba(…)`, whose channels may be
percentages, and from names. Letter case and blanks at the ends do not matter.
-/

namespace StyleLang.Color

/-- The CSS text of a color. -/
def css (color : Color) : String :=
  "rgba(" ++ (color.red * 255).round.positional ++ "," ++ (color.green * 255).round.positional ++
    "," ++ (color.blue * 255).round.positional ++ "," ++ color.alpha.positional ++ ")"

/-- Reads the digits after `#`. A single digit stands for the same digit twice, and without alpha
the color is opaque. -/
def ofHex? (text : List Char) : Option Color :=
  match text.mapM Hex.digit? with
  | some [r, g, b] => ofBytes? (17 * r) (17 * g) (17 * b) 255
  | some [r, g, b, a] => ofBytes? (17 * r) (17 * g) (17 * b) (17 * a)
  | some [r, r', g, g', b, b'] => ofBytes? (16 * r + r') (16 * g + g') (16 * b + b') 255
  | some [r, r', g, g', b, b', a, a'] =>
      ofBytes? (16 * r + r') (16 * g + g') (16 * b + b') (16 * a + a')
  | _ => none

/-- Reads a channel, a number literal that may be a percentage of 255. -/
def channel? (text : List Char) : Option Binary64 :=
  match ['%'].isSuffixOf? text with
  | some percentage => (Binary64.ofLiteral? percentage).map (· * 255 / 100)
  | none => Binary64.ofLiteral? text

/-- The text between the name of a function with its opening parenthesis and the closing one. -/
def arguments? (function : String) (text : List Char) : Option (List Char) :=
  (function.toList.isPrefixOf? text).bind ([')'].isSuffixOf? ·)

/-- Splits arguments at their commas and removes the blanks around them. -/
def splitArguments (text : List Char) : List (List Char) :=
  (text.splitOn ',').map Text.trim

/-- Reads the arguments of `rgb(…)`. -/
def ofRgb? (text : List Char) : Option Color :=
  match splitArguments text with
  | [red, green, blue] => do
      ofRgba8? (← channel? red) (← channel? green) (← channel? blue) 1
  | _ => none

/-- Reads the arguments of `rgba(…)`. -/
def ofRgba? (text : List Char) : Option Color :=
  match splitArguments text with
  | [red, green, blue, alpha] => do
      ofRgba8? (← channel? red) (← channel? green) (← channel? blue)
        (← Binary64.ofLiteral? alpha)
  | _ => none

/-- Reads a color without blanks at its ends and in lower case. -/
def ofNormalized? (text : List Char) : Option Color :=
  match ['#'].isPrefixOf? text, arguments? "rgba(" text, arguments? "rgb(" text with
  | some digits, _, _ => ofHex? digits
  | none, some arguments, _ => ofRgba? arguments
  | none, none, some arguments => ofRgb? arguments
  | none, none, none => ofName? (.ofList text)

/-- Reads a color in CSS notation. -/
def ofCss? (text : String) : Option Color :=
  ofNormalized? ((Text.trim text.toList).map Char.toLower)

example :
    [" #F008 ", "rgb(100%, 50%, 0)", "rgb(256, 0, 0)"].map (fun text ↦ (ofCss? text).map css) =
      [some "rgba(255,0,0,0.5333333333333333)", some "rgba(255,128,0,1)", none] := by
  decide +kernel

end StyleLang.Color
