/-!
# Characters of texts

Decimal digits, hexadecimal digits and blanks. A natural number has a list of decimal digits, the
most significant digit first: `Digit.number` gives the meaning of digits, `Digit.ofNat` and
`Digit.fixed` write a number, and `Digit.scan` takes the digits off the front of a text. `Hex` reads
and writes hexadecimal digits, and `Text.trim` removes the characters with the Unicode property
`White_Space` from both ends of a text.
-/

namespace StyleLang

/-! ## Decimal digits -/

/-- A decimal digit. -/
abbrev Digit := Fin 10

namespace Digit

/-- The digit zero. -/
def zero : Digit :=
  ⟨0, by decide⟩

/-- The character of a digit. -/
def toChar (digit : Digit) : Char :=
  Nat.digitChar digit

/-- The digit of a character, if the character is one of `0` to `9`. -/
def ofChar? (c : Char) : Option Digit :=
  if h : '0'.toNat ≤ c.toNat ∧ c.toNat - '0'.toNat < 10 then
    some ⟨c.toNat - '0'.toNat, h.2⟩
  else none

/-- The number that digits denote, read from the left on top of `start`. -/
def number (start : Nat) (digits : List Digit) : Nat :=
  digits.foldl (fun n digit ↦ 10 * n + digit.val) start

/-- The last `count` digits of a number, with leading zeros. -/
def fixed : (count n : Nat) → List Digit
  | 0, _ => []
  | count + 1, n => fixed count (n / 10) ++ [Fin.ofNat 10 n]

/-- The digits of a number without leading zeros. Zero has one digit. -/
def ofNat (n : Nat) : List Digit :=
  if n < 10 then [Fin.ofNat 10 n] else ofNat (n / 10) ++ [Fin.ofNat 10 n]

theorem number_append (start : Nat) (digits more : List Digit) :
    number start (digits ++ more) = number (number start digits) more := by
  simp [number]

/-- The digits of a number denote it. -/
@[simp]
theorem number_ofNat (n : Nat) : number 0 (ofNat n) = n := by
  fun_induction ofNat n with
  | case1 n hsmall => simp [number, Nat.mod_eq_of_lt hsmall]
  | case2 n hlarge ih =>
      rw [number_append, ih]
      simp only [number, List.foldl_cons, List.foldl_nil, Fin.val_ofNat]
      omega

/-- The text of digits. -/
def text (digits : List Digit) : String :=
  .ofList (digits.map toChar)

/-- The digits that a list of characters starts with, and the rest. -/
def scan : List Char → List Digit × List Char
  | [] => ([], [])
  | c :: rest =>
      match ofChar? c with
      | some digit => (digit :: (scan rest).1, (scan rest).2)
      | none => ([], c :: rest)

end Digit

/-! ## Hexadecimal digits -/

namespace Hex

/-- The value of a hexadecimal digit, if the character is one. -/
def digit? (c : Char) : Option Nat :=
  if '0' ≤ c ∧ c ≤ '9' then some (c.toNat - '0'.toNat)
  else if 'a' ≤ c ∧ c ≤ 'f' then some (c.toNat - 'a'.toNat + 10)
  else if 'A' ≤ c ∧ c ≤ 'F' then some (c.toNat - 'A'.toNat + 10)
  else none

/-- The number that hexadecimal digits denote, the most significant digit first. -/
def number (digits : List Nat) : Nat :=
  digits.foldl (fun n digit ↦ 16 * n + digit) 0

/-- The lower-case hexadecimal digits of a number, at least `width` of them. -/
def text (width n : Nat) : List Char :=
  let digits := Nat.toDigits 16 n
  List.replicate (width - digits.length) '0' ++ digits

end Hex

/-! ## Blanks -/

namespace Text

/-- The ranges of white space in Unicode, each with its first and last code point. -/
def blanks : List (Nat × Nat) :=
  [(0x09, 0x0d), (0x20, 0x20), (0x85, 0x85), (0xa0, 0xa0), (0x1680, 0x1680), (0x2000, 0x200a),
    (0x2028, 0x2029), (0x202f, 0x202f), (0x205f, 0x205f), (0x3000, 0x3000)]

example : (blanks.map fun (first, last) ↦ last + 1 - first).sum = 25 := by decide

example : blanks.Pairwise fun before after ↦ before.2 < after.1 := by decide

/-- Whether a character is white space in Unicode. -/
def isBlank (c : Char) : Bool :=
  blanks.any fun (first, last) ↦ first ≤ c.toNat && c.toNat ≤ last

/-- The characters without the blanks at both ends. -/
def trim (text : List Char) : List Char :=
  ((text.dropWhile isBlank).reverse.dropWhile isBlank).reverse

end Text

end StyleLang
