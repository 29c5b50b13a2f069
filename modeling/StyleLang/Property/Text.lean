import StyleLang.Property.Spec
import StyleLang.Value.Text

/-!
# Property specifications as JSON text

A specification is written as an object with the fields `type`, `value`, `length` and `default`, of
which the absent ones are left out. It is read from such an object, where a null stands for an
absent field and unknown fields are passed over, or from an array with these four in order.
-/

namespace StyleLang.PropertySpec

/-- The fields of a specification with their written values. -/
def members (spec : PropertySpec) : List (String × String) :=
  [("type", Json.quote spec.kind)] ++
    (spec.value.map fun item ↦ ("value", Json.quote item)).toList ++
    (spec.length.map fun length ↦ ("length", Digit.text (Digit.ofNat length.toNat))).toList ++
    (spec.default.map fun value ↦ ("default", value.text)).toList

/-- The JSON text of a specification, without blanks. -/
def text (spec : PropertySpec) : String :=
  Json.Layout.compact.object 0 spec.members

/-- Reads an optional part. Null and nothing are the absence of it. -/
def readOptional? {α : Type} (read? : Json → Option α) : Option Json → Option (Option α)
  | none | some .null => some none
  | some json => (read? json).map some

/-- Reads a text. -/
def readText? : Json → Option String
  | .string text => text
  | _ => none

/-- Reads a length, which is written as a natural number of 64 bits. -/
def readLength? : Json → Option UInt64
  | .number ⟨false, length, [], none⟩ => if length < UInt64.size then some (.ofNat length) else none
  | _ => none

/-- Reads a default value. It nests one level less deep than a text of its own, since it stands in
a specification. -/
def readDefault? (json : Json) : Option Value :=
  Value.ofJson? json (Value.maxDepth - 1)

/-- Reads the four parts of a specification. -/
def ofParts? (kind value length default : Option Json) : Option PropertySpec := do
  pure {
    kind := ← readText? (← kind)
    value := ← readOptional? readText? value
    length := ← readOptional? readLength? length
    default := ← readOptional? readDefault? default }

/-- The members of an object with a name. -/
def named (name : String) (members : List (String × Json)) : List Json :=
  (members.filter (·.1 == name)).map (·.2)

/-- The only member with a name, if there is one. Several are refused. -/
def unique? (name : String) (members : List (String × Json)) : Option (Option Json) :=
  match named name members with
  | [] => some none
  | [json] => some (some json)
  | _ => none

/-- Reads a specification from a JSON tree. -/
def ofJson? : Json → Option PropertySpec
  | .object members => do
      let members ← members.mapM fun (name, json) ↦ name.map (·, json)
      ofParts? (← unique? "type" members) (← unique? "value" members)
        (← unique? "length" members) (← unique? "default" members)
  | .array items =>
      if items.length ≤ 4 then ofParts? items[0]? items[1]? items[2]? items[3]? else none
  | _ => none

/-- Reads a specification from a JSON text. -/
def ofText? (text : String) : Option PropertySpec :=
  (Json.ofText? text).bind ofJson?

end StyleLang.PropertySpec
