import StyleLang.Text.Characters

/-!
# Written JSON

The pieces of JSON output: quoted strings, and lists of items between brackets in a `Layout`. There
are two layouts, one without any blank and one with an item on each line.
-/

namespace StyleLang.Json

/-- The escape of a character in a string. Only the quote, the backslash and the controls below
space have one. -/
def escape (c : Char) : List Char :=
  match c with
  | '"' => ['\\', '"']
  | '\\' => ['\\', '\\']
  | '\x08' => ['\\', 'b']
  | '\x0c' => ['\\', 'f']
  | '\n' => ['\\', 'n']
  | '\r' => ['\\', 'r']
  | '\t' => ['\\', 't']
  | c => if c.toNat < 0x20 then '\\' :: 'u' :: Hex.text 4 c.toNat else [c]

/-- The JSON string of a text. -/
def quote (text : String) : String :=
  "\"" ++ .ofList (text.toList.flatMap escape) ++ "\""

/-- Where blanks stand: the line break before an item at a depth, and the gap before the value of a
member. -/
structure Layout where
  lineBreak : Nat → String
  gap : String

namespace Layout

/-- The layout without blanks. -/
def compact : Layout :=
  ⟨fun _ ↦ "", ""⟩

/-- The layout with an item on each line, indented by two spaces a level. -/
def indented : Layout :=
  ⟨fun depth ↦ .ofList ('\n' :: List.replicate (2 * depth) ' '), " "⟩

/-- Items between brackets, where the brackets stand at a depth. -/
def block (layout : Layout) (depth : Nat) (opening closing : String) (items : List String) :
    String :=
  if items.isEmpty then opening ++ closing
  else
    let lineBreak := layout.lineBreak (depth + 1)
    opening ++ lineBreak ++ ("," ++ lineBreak).intercalate items ++ layout.lineBreak depth ++
      closing

/-- An array of written items. -/
def array (layout : Layout) (depth : Nat) (items : List String) : String :=
  layout.block depth "[" "]" items

/-- An object of names with written values. -/
def object (layout : Layout) (depth : Nat) (members : List (String × String)) : String :=
  layout.block depth "\x7b" "\x7d" (members.map fun (name, value) ↦
    quote name ++ ":" ++ layout.gap ++ value)

end Layout

end StyleLang.Json
