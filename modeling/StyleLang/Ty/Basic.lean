import StyleLang.Text.Characters

/-!
# Types

The types of values. `value` is the type of all values, and an array type gives the type of the
items and, optionally, their number. `accepts` is the rule for which types may stand where another
one is expected.
-/

namespace StyleLang

/-- The type of an expression or value. -/
inductive Ty where
  | null
  | number
  | string
  | boolean
  | color
  | object
  | value
  | array (item : Ty) (length : Option Nat)
  deriving DecidableEq

namespace Ty

/-- The name of the kind of a type, the same for all array types. -/
def kind : Ty → String
  | null => "null"
  | number => "number"
  | string => "string"
  | boolean => "boolean"
  | color => "color"
  | object => "object"
  | value => "value"
  | array _ _ => "array"

/-- The type of a kind name. `array` names the arrays of any items and length. -/
def ofKind? : String → Option Ty
  | "null" => some null
  | "number" => some number
  | "string" => some string
  | "boolean" => some boolean
  | "color" => some color
  | "object" => some object
  | "value" => some value
  | "array" => some (array value none)
  | _ => none

/-- Whether a type constrains the values of an expression. -/
def isConcrete : Ty → Bool
  | value => false
  | _ => true

/-- The text of a type. -/
def text : Ty → String
  | array value none => "array"
  | array item none => "array<" ++ item.text ++ ">"
  | array item (some length) =>
      "array<" ++ item.text ++ ", " ++ Digit.text (Digit.ofNat length) ++ ">"
  | ty => ty.kind

/-- The types, other than those of arrays, that an expression of the type `value` may turn out to
have. -/
def valueMembers : List Ty :=
  [null, number, string, boolean, color, object]

/-- Whether something of the type `actual` may stand where the first type is expected. An array
needs items that fit and the expected length, if there is one; an empty array of values has items
that fit always. Where a value is expected, an array, a member and a value may stand. -/
def accepts : Ty → Ty → Bool
  | array item length, array actualItem actualLength =>
      (actualLength == some 0 && actualItem == value || item.accepts actualItem) &&
        (length.isNone || length == actualLength)
  | value, array _ _ => true
  | value, actual => valueMembers.contains actual || actual == value
  | expected, actual => expected == actual

/-- The universal type accepts every type: no type but itself and those of arrays is missing among
the members. -/
@[simp]
theorem value_accepts (ty : Ty) : value.accepts ty = true := by
  cases ty <;> simp [accepts, valueMembers]

/-- What is said where a type does not fit. -/
def mismatch (expected actual : Ty) : String :=
  "Expected " ++ expected.text ++ " but found " ++ actual.text ++ " instead."

end Ty

end StyleLang
