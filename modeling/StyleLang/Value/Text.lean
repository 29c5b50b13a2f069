import StyleLang.Color.Css
import StyleLang.Json.Basic
import StyleLang.Json.Layout
import StyleLang.Value.Basic

/-!
# Values as JSON text

Values are written as JSON, with colors as strings in CSS notation and numbers that JSON cannot hold
as null. They are read from any JSON text whose arrays and objects nest at most `Value.maxDepth`
deep; of several members with one name the last counts.
-/

namespace StyleLang

/-- The JSON text of a number. -/
def Binary64.jsonText (x : Binary64) : String :=
  (x.numeral?.map Numeral.text).getD "null"

namespace Value

mutual

/-- Writes a value whose brackets stand at a depth. -/
def write (layout : Json.Layout) (depth : Nat) : Value → String
  | .null => "null"
  | .bool value => if value then "true" else "false"
  | .number value => value.jsonText
  | .string text => Json.quote text
  | .color c => Json.quote c.css
  | .array items => layout.array depth (writeItems layout (depth + 1) items)
  | .object fields => layout.object depth (writeFields layout (depth + 1) fields)

/-- Writes each item of an array. -/
def writeItems (layout : Json.Layout) (depth : Nat) : List Value → List String
  | [] => []
  | item :: items => write layout depth item :: writeItems layout depth items

/-- Writes the value of each field of an object. -/
def writeFields (layout : Json.Layout) (depth : Nat) : SortedMap Value → List (String × String)
  | ⟨keys, _, value⟩ => List.ofFn fun i ↦ (keys.get i, write layout depth (value i))

end

/-- The items of an array are written one by one. -/
theorem writeItems_eq_map (layout : Json.Layout) (depth : Nat) (items : List Value) :
    writeItems layout depth items = items.map (write layout depth) := by
  induction items with
  | nil => rw [writeItems, List.map_nil]
  | cons item items ih => rw [writeItems, List.map_cons, ih]

/-- The fields of an object are written one by one in the order of their keys. -/
theorem writeFields_eq_map (layout : Json.Layout) (depth : Nat) (fields : SortedMap Value) :
    writeFields layout depth fields =
      fields.entries.map fun (key, value) ↦ (key, value.write layout depth) := by
  obtain ⟨keys, hsorted, value⟩ := fields
  simp [writeFields, SortedMap.entries, List.map_ofFn, Function.comp_def]

/-- The text of a value without blanks. -/
def text (value : Value) : String :=
  value.write .compact 0

/-- The text of a value with an item or field on each line. -/
def indentedText (value : Value) : String :=
  value.write .indented 0

/-- How deep arrays and objects may nest in a text that is read. -/
def maxDepth : Nat :=
  127

mutual

/-- The value of a JSON tree that nests at most as deep as given. -/
def ofJson? : Json → Nat → Option Value
  | .null, _ => some .null
  | .bool value, _ => some (.bool value)
  | .number numeral, _ => numeral.toBinary64?.map .number
  | .string text, _ => text.map .string
  | .array _, 0 | .object _, 0 => none
  | .array items, depth + 1 => (ofItems? items depth).map .array
  | .object members, depth + 1 => (ofMembers? members depth).map (.object ∘ .ofEntries)

/-- The values of items. -/
def ofItems? : List Json → Nat → Option (List Value)
  | [], _ => some []
  | item :: items, depth => do
      let value ← ofJson? item depth
      let values ← ofItems? items depth
      pure (value :: values)

/-- The entries of members. -/
def ofMembers? : List (Option String × Json) → Nat → Option (List (String × Value))
  | [], _ => some []
  | (name, json) :: members, depth => do
      let key ← name
      let value ← ofJson? json depth
      let entries ← ofMembers? members depth
      pure ((key, value) :: entries)

end

/-- Reads a JSON text. -/
def ofText? (text : String) : Option Value :=
  (Json.ofText? text).bind (ofJson? · maxDepth)

end Value

end StyleLang
