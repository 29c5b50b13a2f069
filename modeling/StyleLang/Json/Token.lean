import StyleLang.Json.Numeral
import StyleLang.Text.Characters

/-!
# JSON tokens

The lexical layer of JSON. A machine reads a text one character at a time: `Scanner` is where it
stands, `Scanner.step` takes one character, and `Token.scan?` runs it over a whole text. The machine
knows the lexical grammar in full: blanks, the spelling of numbers, words and escapes, and the
characters that a string cannot hold. A string whose escapes hold half of a surrogate pair is a
token without a text, since what follows from it depends on the use of the string.
-/

namespace StyleLang

/-- A token of a JSON text. A string has no text if its escapes leave a surrogate unpaired. -/
inductive Token where
  | openBracket
  | closeBracket
  | openBrace
  | closeBrace
  | comma
  | colon
  | null
  | bool (value : Bool)
  | number (numeral : Numeral)
  | string (text : Option String)
  deriving DecidableEq

/-- Where the scanner stands in a token. What was read of the token is kept in reverse. The content
of a string is a list of code points, among them the surrogates that its escapes name. -/
inductive Scanner.Mode where
  | between
  | number (read : List Char)
  | word (read : List Char)
  | string (content : List Nat)
  | escape (content : List Nat)
  | unicode (content : List Nat) (digits : List Nat)

/-- The scanner: the tokens read, in reverse, and where it stands. -/
structure Scanner where
  tokens : List Token
  mode : Scanner.Mode

namespace Scanner

/-- The scanner before the first character. -/
def start : Scanner :=
  ⟨[], .between⟩

/-- The character of a pair of surrogates. -/
def pair? (high low : Nat) : Option Char :=
  if 0xd800 ≤ high ∧ high < 0xdc00 ∧ 0xdc00 ≤ low ∧ low < 0xe000 then
    some (.ofNat (0x10000 + (high - 0xd800) * 0x400 + (low - 0xdc00)))
  else none

/-- The characters of code points, where neighbouring surrogates make a pair. An unpaired surrogate
is refused. -/
def characters? : List Nat → Option (List Char)
  | [] => some []
  | [code] => if code.isValidChar then some [.ofNat code] else none
  | code :: next :: rest =>
      if code.isValidChar then (characters? (next :: rest)).map (.ofNat code :: ·)
      else do
        let c ← pair? code next
        let characters ← characters? rest
        pure (c :: characters)

/-- The word tokens. -/
def ofWord? : String → Option Token
  | "null" => some .null
  | "true" => some (.bool true)
  | "false" => some (.bool false)
  | _ => none

/-- Completes the token that ends before the next character or at the end of the text. -/
def settle? : Scanner → Option Scanner
  | ⟨tokens, .between⟩ => some ⟨tokens, .between⟩
  | ⟨tokens, .number read⟩ =>
      (Numeral.ofText? read.reverse).map fun numeral ↦ ⟨.number numeral :: tokens, .between⟩
  | ⟨tokens, .word read⟩ =>
      (ofWord? (.ofList read.reverse)).map fun token ↦ ⟨token :: tokens, .between⟩
  | _ => none

/-- Whether a character can stand in a number. -/
def isNumeric (c : Char) : Bool :=
  c.isDigit || c == '-' || c == '+' || c == '.' || c == 'e' || c == 'E'

/-- Takes the first character of a token, or a blank. -/
def begin? (tokens : List Token) (c : Char) : Option Scanner :=
  match c with
  | ' ' | '\t' | '\n' | '\r' => some ⟨tokens, .between⟩
  | '[' => some ⟨.openBracket :: tokens, .between⟩
  | ']' => some ⟨.closeBracket :: tokens, .between⟩
  | '\x7b' => some ⟨.openBrace :: tokens, .between⟩
  | '\x7d' => some ⟨.closeBrace :: tokens, .between⟩
  | ',' => some ⟨.comma :: tokens, .between⟩
  | ':' => some ⟨.colon :: tokens, .between⟩
  | '"' => some ⟨tokens, .string []⟩
  | c =>
      if c.isDigit || c == '-' then some ⟨tokens, .number [c]⟩
      else if c.isLower then some ⟨tokens, .word [c]⟩
      else none

/-- The code point that an escape letter stands for. -/
def escaped? : Char → Option Char
  | '"' => some '"'
  | '\\' => some '\\'
  | '/' => some '/'
  | 'b' => some '\x08'
  | 'f' => some '\x0c'
  | 'n' => some '\n'
  | 'r' => some '\r'
  | 't' => some '\t'
  | _ => none

/-- Takes one character. -/
def step (scanner : Scanner) (c : Char) : Option Scanner :=
  match scanner.mode with
  | .string content =>
      if c = '"' then
        some ⟨.string ((characters? content.reverse).map .ofList) :: scanner.tokens, .between⟩
      else if c = '\\' then some { scanner with mode := .escape content }
      else if c.toNat < 0x20 then none
      else some { scanner with mode := .string (c.toNat :: content) }
  | .escape content =>
      if c = 'u' then some { scanner with mode := .unicode content [] }
      else (escaped? c).map fun c ↦ { scanner with mode := .string (c.toNat :: content) }
  | .unicode content digits =>
      (Hex.digit? c).map fun digit ↦
        if digits.length = 3 then
          { scanner with mode := .string (Hex.number (digits ++ [digit]) :: content) }
        else { scanner with mode := .unicode content (digits ++ [digit]) }
  | .number read =>
      if isNumeric c then some { scanner with mode := .number (c :: read) }
      else scanner.settle?.bind fun settled ↦ begin? settled.tokens c
  | .word read =>
      if c.isLower then some { scanner with mode := .word (c :: read) }
      else scanner.settle?.bind fun settled ↦ begin? settled.tokens c
  | .between => begin? scanner.tokens c

end Scanner

/-- The tokens of a text. -/
def Token.scan? (text : String) : Option (List Token) := do
  let scanner ← text.toList.foldlM Scanner.step Scanner.start
  let settled ← scanner.settle?
  pure settled.tokens.reverse

end StyleLang
