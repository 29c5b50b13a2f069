import StyleLang.Eval.Run

/-!
# Coercions

The conversion of values to booleans, texts, numbers and colors. Every value converts to a boolean
and to a text; the conversions to numbers and colors can fail.
-/

namespace StyleLang

namespace Value

/-- The truth of a value. Null, `false`, zero, NaN and the empty text are false. -/
def toBoolean : Value → Bool
  | .null => false
  | .bool value => value
  | .number x => !(x == 0) && !x.isNaN
  | .string text => !text.isEmpty
  | .color _ | .array _ | .object _ => true

/-- The plain text of a value: nothing for null, and no quotes around texts and colors. -/
def toPlainText : Value → String
  | .null => ""
  | .string text => text
  | .color c => c.css
  | value => value.text

/-- The number that a text denotes. A blank text denotes zero, and only finite numbers are
denoted. -/
def numberOfText? (text : String) : Option Binary64 :=
  match Text.trim text.toList with
  | [] => some 0
  | trimmed => (Binary64.ofLiteral? trimmed).filter (·.isFinite)

/-- The number of a value, which is never NaN. -/
def toNumber? : Value → Option Binary64
  | .null => some 0
  | .bool value => some (if value then 1 else 0)
  | .number x => if x.isNaN then none else some x
  | .string text => numberOfText? text
  | _ => none

/-- The color of a value: of a color, of a CSS text, or of an array of three or four channels. -/
def toColor? : Value → Option Color
  | .color c => some c
  | .string text => Color.ofCss? text
  | .array [.number red, .number green, .number blue] => Color.ofRgba8? red green blue 1
  | .array [.number red, .number green, .number blue, .number alpha] =>
      Color.ofRgba8? red green blue alpha
  | _ => none

/-- How a value is called in an error about colors. -/
def colorSource : Value → String
  | .string text => text
  | value => value.text

end Value

/-- Converts a value to a type. A type without a conversion leaves every value as it is. -/
def Ty.convert (target : Ty) (input : Value) : Except EvalError Value :=
  match target with
  | .boolean => .ok (.bool input.toBoolean)
  | .string => .ok (.string input.toPlainText)
  | .number =>
      match input.toNumber? with
      | some x => .ok (.number x)
      | none => .error (.numberConversion input)
  | .color =>
      match input.toColor? with
      | some c => .ok (.color c)
      | none => .error (.colorConversion input.colorSource)
  | _ => .ok input

end StyleLang
