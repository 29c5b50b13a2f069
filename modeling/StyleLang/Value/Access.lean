import StyleLang.Value.Basic

/-!
# Access to values

The content of a value, if the value has the shape that is asked for. Indexing never fails: an item
or field that does not exist is null.
-/

namespace StyleLang

/-- A value does not have the shape that is asked for. -/
inductive AccessError where
  | notBool
  | notNumber
  | notString
  | notColor
  | notArray
  | notObject
  deriving DecidableEq

/-- The text of an access error. -/
def AccessError.message : AccessError → String
  | notBool => "not a bool"
  | notNumber => "not a number"
  | notString => "not a string"
  | notColor => "not a color"
  | notArray => "not an array"
  | notObject => "not an object"

namespace Value

/-- The truth value of a boolean. -/
def asBool : Value → Except AccessError Bool
  | .bool value => .ok value
  | _ => .error .notBool

/-- The number of a numeric value. -/
def asNumber : Value → Except AccessError Binary64
  | .number value => .ok value
  | _ => .error .notNumber

/-- The text of a string. -/
def asString : Value → Except AccessError String
  | .string text => .ok text
  | _ => .error .notString

/-- The color of a color value. -/
def asColor : Value → Except AccessError Color
  | .color c => .ok c
  | _ => .error .notColor

/-- The items of an array. -/
def asArray : Value → Except AccessError (List Value)
  | .array items => .ok items
  | _ => .error .notArray

/-- The fields of an object. -/
def asObject : Value → Except AccessError (SortedMap Value)
  | .object fields => .ok fields
  | _ => .error .notObject

/-- The item at a position of an array. -/
def item (value : Value) (index : Nat) : Value :=
  match value with
  | .array items => items[index]?.getD .null
  | _ => .null

/-- The field of an object with a name. -/
def field (value : Value) (key : String) : Value :=
  match value with
  | .object fields => (fields.get? key).getD .null
  | _ => .null

/-- An array with an item added at the end. -/
def push (value item : Value) : Except AccessError Value :=
  value.asArray.map fun items ↦ .array (items ++ [item])

/-- The last item of an array, if there is one, and the array without it. -/
def pop (value : Value) : Except AccessError (Option Value × Value) :=
  value.asArray.map fun items ↦ (items.getLast?, .array items.dropLast)

/-- The field of an object with a name, if there is one, and the object with a new value for it. -/
def insert (value : Value) (key : String) (field : Value) :
    Except AccessError (Option Value × Value) :=
  value.asObject.map fun fields ↦ (fields.get? key, .object (fields.insert key field))

/-- The field of an object with a name, if there is one, and the object without it. -/
def erase (value : Value) (key : String) : Except AccessError (Option Value × Value) :=
  value.asObject.map fun fields ↦ (fields.get? key, .object (fields.erase key))

end Value

end StyleLang
