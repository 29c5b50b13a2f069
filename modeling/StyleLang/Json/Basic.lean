import StyleLang.Json.Token

/-!
# JSON trees

The tree of a JSON text, with everything that the text tells: the spelling of numbers, the order of
members and members with one name. Like the scanner, the reader is a machine. It keeps the arrays
and objects it is in on a stack, so the depth of a tree is not bounded here; a use that bounds the
depth does so itself.
-/

namespace StyleLang

/-- The tree of a JSON text. A string or member name has no text if its escapes leave a surrogate
unpaired. -/
inductive Json where
  | null
  | bool (value : Bool)
  | number (numeral : Numeral)
  | string (text : Option String)
  | array (items : List Json)
  | object (members : List (Option String × Json))

namespace Json

/-- An array or object around the place of the reader, with the items or members before it in
reverse. In an object the place is the value of a name. -/
inductive Frame where
  | array (items : List Json)
  | object (members : List (Option String × Json)) (name : Option String)

/-- What the reader has come to: what it needs next, or the tree it has completed. -/
inductive Reader.Place where
  | value
  | firstItem
  | firstName
  | name (members : List (Option String × Json))
  | colon (members : List (Option String × Json)) (name : Option String)
  | after (json : Json)

/-- The reader: the arrays and objects around it, the innermost first, and its place in them. -/
structure Reader where
  stack : List Frame
  place : Reader.Place

namespace Reader

/-- The reader before the first token. -/
def start : Reader :=
  ⟨[], .value⟩

/-- Takes the first token of a value. -/
def beginValue (stack : List Frame) : Token → Option Reader
  | .null => some ⟨stack, .after .null⟩
  | .bool value => some ⟨stack, .after (.bool value)⟩
  | .number numeral => some ⟨stack, .after (.number numeral)⟩
  | .string text => some ⟨stack, .after (.string text)⟩
  | .openBracket => some ⟨.array [] :: stack, .firstItem⟩
  | .openBrace => some ⟨stack, .firstName⟩
  | _ => none

/-- Takes the token after a complete value. -/
def continueAfter (json : Json) : List Frame → Token → Option Reader
  | .array items :: stack, .comma => some ⟨.array (json :: items) :: stack, .value⟩
  | .array items :: stack, .closeBracket =>
      some ⟨stack, .after (.array (json :: items).reverse)⟩
  | .object members name :: stack, .comma => some ⟨stack, .name ((name, json) :: members)⟩
  | .object members name :: stack, .closeBrace =>
      some ⟨stack, .after (.object ((name, json) :: members).reverse)⟩
  | _, _ => none

/-- Takes one token. -/
def step (reader : Reader) (token : Token) : Option Reader :=
  match reader.place, token with
  | .value, token => beginValue reader.stack token
  | .firstItem, .closeBracket => some ⟨reader.stack.tail, .after (.array [])⟩
  | .firstItem, token => beginValue reader.stack token
  | .firstName, .closeBrace => some ⟨reader.stack, .after (.object [])⟩
  | .firstName, .string name => some ⟨reader.stack, .colon [] name⟩
  | .name members, .string name => some ⟨reader.stack, .colon members name⟩
  | .colon members name, .colon => some ⟨.object members name :: reader.stack, .value⟩
  | .after json, token => continueAfter json reader.stack token
  | _, _ => none

/-- The tree that the reader has completed, if it is in no array or object. -/
def result? : Reader → Option Json
  | ⟨[], .after json⟩ => some json
  | _ => none

end Reader

/-- The tree of a list of tokens. -/
def ofTokens? (tokens : List Token) : Option Json :=
  (tokens.foldlM Reader.step Reader.start).bind Reader.result?

/-- The tree of a JSON text. -/
def ofText? (text : String) : Option Json :=
  (Token.scan? text).bind ofTokens?

end Json

end StyleLang
