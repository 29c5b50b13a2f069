import Mathlib.Data.List.Forall2
import Mathlib.Data.Fintype.Basic
import Mathlib.Tactic.FinCases
import StyleLang.Json.Layout
import StyleLang.Proofs.Numerals

/-!
# Scanning written JSON

`Scanner.Spells` says that a text is scanned as certain tokens wherever it stands, as long as no
character follows that could continue its last token. The pieces of written JSON spell their tokens:
numerals, words, quoted texts with all their escapes, and blocks in any layout of blanks
(`Scanner.spells_block`).
-/

namespace StyleLang

/-! ## The run of the scanner -/

namespace Scanner

/-- The tokens of a scanner that goes on to the end of a text. -/
def finish? (scanner : Scanner) (text : List Char) : Option (List Token) := do
  let scanner ← text.foldlM step scanner
  let settled ← scanner.settle?
  pure settled.tokens.reverse

theorem finish?_cons (scanner : Scanner) (c : Char) (rest : List Char) :
    scanner.finish? (c :: rest) = (scanner.step c).bind (·.finish? rest) := by
  cases h : scanner.step c <;> simp [finish?, h]

theorem finish?_of_step {scanner next : Scanner} {c : Char} (h : scanner.step c = some next)
    (rest : List Char) : scanner.finish? (c :: rest) = next.finish? rest := by
  rw [finish?_cons, h, Option.bind_some]

theorem finish?_of_begin? {before : List Token} {next : Scanner} {c : Char}
    (h : begin? before c = some next) (rest : List Char) :
    finish? ⟨before, .between⟩ (c :: rest) = next.finish? rest := by
  apply finish?_of_step
  exact h

/-- A token that is complete at the next character is settled before it. -/
theorem finish?_of_settle? {scanner : Scanner} {tokens : List Token} {rest : List Char}
    (h : scanner.settle? = some ⟨tokens, .between⟩)
    (hstep : ∀ c ∈ rest.head?, scanner.step c = begin? tokens c) :
    scanner.finish? rest = finish? ⟨tokens, .between⟩ rest := by
  cases rest with
  | nil =>
      show (scanner.settle?.bind fun settled ↦ some settled.tokens.reverse) = _
      rw [h]
      rfl
  | cons c rest =>
      rw [finish?_cons, finish?_cons, hstep c rfl]
      rfl

/-- A text does not start with a character that would continue a number or a word. -/
def Delimited (text : List Char) : Prop :=
  ∀ c ∈ text.head?, isNumeric c = false ∧ c.isLower = false

theorem delimited_nil : Delimited [] :=
  nofun

theorem delimited_cons {c : Char} {text : List Char} (hnumeric : isNumeric c = false)
    (hlower : c.isLower = false) : Delimited (c :: text) := by
  rintro _ ⟨⟩
  exact ⟨hnumeric, hlower⟩

theorem Delimited.append {text rest : List Char} (htext : Delimited text)
    (hrest : Delimited rest) : Delimited (text ++ rest) := by
  cases text with
  | nil => exact hrest
  | cons c text => exact htext

/-- A text is scanned as certain tokens before any text that does not continue the last of them. -/
def Spells (text : List Char) (tokens : List Token) : Prop :=
  ∀ before rest, Delimited rest →
    finish? ⟨before, .between⟩ (text ++ rest) = finish? ⟨tokens.reverse ++ before, .between⟩ rest

namespace Spells

variable {text more : List Char} {tokens moreTokens : List Token}

theorem nil : Spells [] [] :=
  fun _ _ _ ↦ rfl

/-- Texts are scanned one after the other, if the second does not continue the first. -/
theorem append (h : Spells text tokens) (hdelimited : Delimited more)
    (hmore : Spells more moreTokens) : Spells (text ++ more) (tokens ++ moreTokens) := by
  intro before rest hrest
  rw [List.append_assoc, h before _ (hdelimited.append hrest), hmore _ rest hrest,
    List.reverse_append, List.append_assoc]

/-- A token of a single character may stand before any text. -/
theorem cons {c : Char} {token : Token}
    (hc : ∀ before, begin? before c = some ⟨token :: before, .between⟩)
    (h : Spells text tokens) : Spells (c :: text) (token :: tokens) := by
  intro before rest hrest
  rw [List.cons_append, finish?_of_begin? (hc before), h _ rest hrest, List.reverse_cons,
    List.append_assoc, List.singleton_append]

end Spells

/-- The characters that stand between tokens. -/
def blanks : List Char :=
  [' ', '\t', '\n', '\r']

theorem mem_blanks_iff {c : Char} : c ∈ blanks ↔ c = ' ' ∨ c = '\t' ∨ c = '\n' ∨ c = '\r' := by
  simp [blanks]

/-- Blanks are passed over. -/
theorem Spells.blanks_append {text gap : List Char} {tokens : List Token}
    (hgap : ∀ c ∈ gap, c ∈ blanks) (h : Spells text tokens) : Spells (gap ++ text) tokens := by
  induction gap with
  | nil => exact h
  | cons c gap ih =>
      obtain ⟨hc, hgap⟩ := List.forall_mem_cons.mp hgap
      intro before rest hrest
      have hstep : step ⟨before, .between⟩ c = some ⟨before, .between⟩ := by
        rw [mem_blanks_iff] at hc
        rcases hc with rfl | rfl | rfl | rfl <;> rfl
      rw [List.cons_append, List.cons_append, finish?_of_step hstep]
      exact ih hgap before rest hrest

/-- Blanks do not continue a token. -/
theorem delimited_blanks_append {text gap : List Char} (hgap : ∀ c ∈ gap, c ∈ blanks)
    (h : Delimited text) : Delimited (gap ++ text) := by
  cases gap with
  | nil => exact h
  | cons c gap =>
      have hc := hgap c List.mem_cons_self
      rw [mem_blanks_iff] at hc
      rcases hc with rfl | rfl | rfl | rfl <;> exact delimited_cons rfl rfl

/-! ## Numbers and words -/

/-- A number ends before a text that does not continue it. -/
theorem finish?_number {before : List Token} {read rest : List Char} {numeral : Numeral}
    (h : Numeral.ofText? read.reverse = some numeral) (hrest : Delimited rest) :
    finish? ⟨before, .number read⟩ rest = finish? ⟨.number numeral :: before, .between⟩ rest := by
  have hsettle : settle? ⟨before, .number read⟩ = some ⟨.number numeral :: before, .between⟩ := by
    rw [settle?, h, Option.map_some]
  refine finish?_of_settle? hsettle fun c hc ↦ ?_
  show (if isNumeric c = true then _ else (settle? ⟨before, .number read⟩).bind _) = _
  rw [if_neg (ne_true_of_eq_false (hrest c hc).1), hsettle, Option.bind_some]

/-- A word ends before a text that does not continue it. -/
theorem finish?_word {before : List Token} {read rest : List Char} {token : Token}
    (h : ofWord? (.ofList read.reverse) = some token) (hrest : Delimited rest) :
    finish? ⟨before, .word read⟩ rest = finish? ⟨token :: before, .between⟩ rest := by
  have hsettle : settle? ⟨before, .word read⟩ = some ⟨token :: before, .between⟩ := by
    rw [settle?, h, Option.map_some]
  refine finish?_of_settle? hsettle fun c hc ↦ ?_
  show (if c.isLower = true then _ else (settle? ⟨before, .word read⟩).bind _) = _
  rw [if_neg (ne_true_of_eq_false (hrest c hc).2), hsettle, Option.bind_some]

/-- The characters of a number are read up to its end. -/
theorem finish?_number_append {before : List Token} {read text : List Char}
    (h : ∀ c ∈ text, isNumeric c = true) (rest : List Char) :
    finish? ⟨before, .number read⟩ (text ++ rest) =
      finish? ⟨before, .number (text.reverse ++ read)⟩ rest := by
  induction text generalizing read with
  | nil => rfl
  | cons c text ih =>
      obtain ⟨hc, htext⟩ := List.forall_mem_cons.mp h
      have hstep : step ⟨before, .number read⟩ c = some ⟨before, .number (c :: read)⟩ := by
        simp [step, hc]
      rw [List.cons_append, finish?_of_step hstep, ih htext, List.reverse_cons, List.append_assoc,
        List.singleton_append]

theorem isNumeric_toChar (digit : Digit) : isNumeric digit.toChar = true := by
  revert digit
  decide

theorem begin?_toChar (before : List Token) (digit : Digit) :
    begin? before digit.toChar = some ⟨before, .number [digit.toChar]⟩ := by
  fin_cases digit <;> rfl

/-- The characters of digits are those of numbers. -/
theorem isNumeric_of_mem_digits {digits : List Digit} {c : Char}
    (h : c ∈ digits.map Digit.toChar) : isNumeric c = true := by
  obtain ⟨digit, -, rfl⟩ := List.mem_map.mp h
  exact isNumeric_toChar digit

theorem isNumeric_of_mem_fractionText {fraction : List Digit} {c : Char}
    (h : c ∈ Numeral.fractionText fraction) : isNumeric c = true := by
  cases fraction with
  | nil => cases h
  | cons digit digits =>
      rw [Numeral.fractionText, List.mem_cons] at h
      rcases h with rfl | h
      · rfl
      · exact isNumeric_of_mem_digits h

theorem isNumeric_of_mem_exponentText {exponent : Option Int} {c : Char}
    (h : c ∈ (Numeral.exponentText exponent).toList) : isNumeric c = true := by
  cases exponent with
  | none => cases h
  | some exponent =>
      rw [Numeral.exponentText, String.toList_append, Digit.text, String.toList_ofList,
        List.mem_append] at h
      rcases h with h | h
      · have hsign : c ∈ ['e', '-'] ∨ c ∈ ['e', '+'] := by
          split at h
          · exact .inl h
          · exact .inr h
        simp only [List.mem_cons, List.not_mem_nil, or_false] at hsign
        rcases hsign with (rfl | rfl) | rfl | rfl <;> rfl
      · exact isNumeric_of_mem_digits h

/-- The characters of a numeral are those of numbers. -/
theorem isNumeric_of_mem_text {numeral : Numeral} {c : Char} (h : c ∈ numeral.text.toList) :
    isNumeric c = true := by
  have hunsigned : ∀ c ∈ numeral.unsignedText, isNumeric c = true := by
    intro c hc
    rw [Numeral.unsignedText, List.mem_append, List.mem_append] at hc
    rcases hc with hc | hc | hc
    · exact isNumeric_of_mem_digits hc
    · exact isNumeric_of_mem_fractionText hc
    · exact isNumeric_of_mem_exponentText hc
  rw [Numeral.toList_text] at h
  split at h
  · rcases List.mem_cons.mp h with rfl | h
    · rfl
    · exact hunsigned c h
  · exact hunsigned c h

/-- The text of a numeral starts with a digit or a minus. -/
theorem exists_begin?_text (numeral : Numeral) :
    ∃ c text, numeral.text.toList = c :: text ∧
      ∀ before, begin? before c = some ⟨before, .number [c]⟩ := by
  rw [Numeral.toList_text]
  split
  · exact ⟨_, _, rfl, fun _ ↦ rfl⟩
  · obtain ⟨digit, digits, hdigits⟩ :=
      List.exists_cons_of_ne_nil (Digit.ofNat_ne_nil numeral.whole)
    rw [Numeral.unsignedText, hdigits]
    exact ⟨_, _, rfl, fun before ↦ begin?_toChar before digit⟩

theorem spells_numeral (numeral : Numeral) :
    Spells numeral.text.toList [.number numeral] := by
  intro before rest hrest
  obtain ⟨c, text, htext, hc⟩ := exists_begin?_text numeral
  have hnumeric : ∀ d ∈ text, isNumeric d = true := fun d hd ↦
    isNumeric_of_mem_text (htext ▸ List.mem_cons_of_mem c hd)
  have hread : Numeral.ofText? (text.reverse ++ [c]).reverse = some numeral := by
    rw [List.reverse_append, List.reverse_reverse, List.reverse_singleton, List.singleton_append,
      ← htext, Numeral.ofText?_text]
  rw [htext, List.cons_append, finish?_of_begin? (hc before), finish?_number_append hnumeric,
    finish?_number hread hrest]
  rfl

theorem spells_null : Spells "null".toList [.null] := by
  intro before rest hrest
  show finish? ⟨before, .word "null".toList.reverse⟩ rest = _
  exact finish?_word rfl hrest

theorem spells_bool (value : Bool) :
    Spells (if value then "true" else "false").toList [.bool value] := by
  intro before rest hrest
  cases value with
  | false =>
      show finish? ⟨before, .word "false".toList.reverse⟩ rest = _
      exact finish?_word rfl hrest
  | true =>
      show finish? ⟨before, .word "true".toList.reverse⟩ rest = _
      exact finish?_word rfl hrest

/-! ## Quoted texts -/

/-- The code points of characters are those characters. -/
theorem characters?_map_toNat (text : List Char) :
    characters? (text.map Char.toNat) = some text := by
  have hvalid : ∀ c : Char, c.toNat.isValidChar := fun c ↦ c.valid
  induction text with
  | nil => rfl
  | cons c text ih =>
      cases text with
      | nil =>
          show (if c.toNat.isValidChar then some [Char.ofNat c.toNat] else none) = _
          rw [if_pos (hvalid c), Char.ofNat_toNat]
      | cons next text =>
          show (if c.toNat.isValidChar then
            (characters? ((next :: text).map Char.toNat)).map (Char.ofNat c.toNat :: ·) else _) = _
          rw [if_pos (hvalid c), ih, Option.map_some, Char.ofNat_toNat]

/-- A control is escaped by the four hexadecimal digits of its code point, which denote it. -/
theorem hexText_control {n : Nat} (h : n < 0x20) :
    Hex.text 4 n = ['0', '0', (n / 16).digitChar, (n % 16).digitChar] ∧
      Hex.digit? (n / 16).digitChar = some (n / 16) ∧
      Hex.digit? (n % 16).digitChar = some (n % 16) ∧
      Hex.number [0, 0, n / 16, n % 16] = n := by
  revert n
  decide

/-- A control is read back from its escape, whose last two digits denote it. -/
theorem finish?_control (before : List Token) (content : List Nat) {n : Nat} (h : n < 0x20)
    (rest : List Char) :
    finish? ⟨before, .string content⟩ ('\\' :: 'u' :: Hex.text 4 n ++ rest) =
      finish? ⟨before, .string (n :: content)⟩ rest := by
  obtain ⟨htext, hhigh, hlow, hnumber⟩ := hexText_control h
  have hfirst : step ⟨before, .unicode content [0, 0]⟩ (n / 16).digitChar =
      some ⟨before, .unicode content [0, 0, n / 16]⟩ := by
    show (Hex.digit? _).map _ = _
    rw [hhigh]
    rfl
  have hsecond : step ⟨before, .unicode content [0, 0, n / 16]⟩ (n % 16).digitChar =
      some ⟨before, .string (n :: content)⟩ := by
    show (Hex.digit? _).map _ = _
    rw [hlow]
    show some (Scanner.mk before (.string (Hex.number [0, 0, _, _] :: content))) = _
    rw [hnumber]
  rw [htext]
  show finish? ⟨before, .unicode content [0, 0]⟩ (_ :: _ :: rest) = _
  rw [finish?_of_step hfirst, finish?_of_step hsecond]

/-- A character without an escape is read as itself. -/
theorem step_string {before : List Token} {content : List Nat} {c : Char} (hquote : c ≠ '"')
    (hbackslash : c ≠ '\\') (hcontrol : ¬c.toNat < 0x20) :
    step ⟨before, .string content⟩ c = some ⟨before, .string (c.toNat :: content)⟩ := by
  show (if c = '"' then _ else if c = '\\' then _ else if c.toNat < 0x20 then _ else _) = _
  rw [if_neg hquote, if_neg hbackslash, if_neg hcontrol]

/-- A character is read back from its escape. -/
theorem finish?_escape (before : List Token) (content : List Nat) (c : Char) (rest : List Char) :
    finish? ⟨before, .string content⟩ (Json.escape c ++ rest) =
      finish? ⟨before, .string (c.toNat :: content)⟩ rest := by
  unfold Json.escape
  split
  · rfl
  · rfl
  · rfl
  · rfl
  · rfl
  · rfl
  · rfl
  · rename_i hquote hbackslash _ _ _ _ _
    split
    · rename_i hcontrol
      exact finish?_control before content hcontrol rest
    · rename_i hcontrol
      exact finish?_of_step (step_string hquote hbackslash hcontrol) rest

/-- The characters of a text are read back from their escapes. -/
theorem finish?_flatMap_escape (before : List Token) (content : List Nat) (text rest : List Char) :
    finish? ⟨before, .string content⟩ (text.flatMap Json.escape ++ rest) =
      finish? ⟨before, .string ((text.map Char.toNat).reverse ++ content)⟩ rest := by
  induction text generalizing content with
  | nil => rfl
  | cons c text ih =>
      rw [List.flatMap_cons, List.append_assoc, finish?_escape, ih, List.map_cons,
        List.reverse_cons, List.append_assoc, List.singleton_append]

/-- A quoted text is scanned as a string with this text. -/
theorem spells_quote (text : String) : Spells (Json.quote text).toList [.string (some text)] := by
  intro before rest hrest
  have hquote : (Json.quote text).toList = '"' :: (text.toList.flatMap Json.escape ++ ['"']) := by
    simp [Json.quote]
  have hopen : begin? before '"' = some ⟨before, .string []⟩ := rfl
  have hclose : step ⟨before, .string (text.toList.map Char.toNat).reverse⟩ '"' =
      some ⟨.string (some text) :: before, .between⟩ := by
    show some (Scanner.mk (Token.string ((characters? _).map String.ofList) :: before) _) = _
    rw [List.reverse_reverse, characters?_map_toNat, Option.map_some, String.ofList_toList]
  rw [hquote, List.cons_append, finish?_of_begin? hopen, List.append_assoc, finish?_flatMap_escape,
    List.append_nil, List.singleton_append, finish?_of_step hclose]
  rfl

/-! ## Blocks -/

/-- Items are scanned one after the other with commas between them. -/
theorem spells_intercalate {gap : List Char} {texts : List (List Char)}
    {tokens : List (List Token)} (hgap : ∀ c ∈ gap, c ∈ blanks)
    (h : List.Forall₂ Spells texts tokens) :
    Spells ((',' :: gap).intercalate texts) ([Token.comma].intercalate tokens) := by
  induction h with
  | nil => exact .nil
  | cons hfirst hrest ih =>
      cases hrest with
      | nil =>
          rw [List.intercalate_singleton, List.intercalate_singleton]
          exact hfirst
      | cons _ _ =>
          rw [List.intercalate_cons_cons, List.intercalate_cons_cons, List.append_assoc,
            List.append_assoc]
          exact hfirst.append (delimited_cons rfl rfl) (.cons (fun _ ↦ rfl) (ih.blanks_append hgap))

end Scanner

/-- Only blanks stand where a layout allows them. -/
structure Json.Layout.Blank (layout : Json.Layout) : Prop where
  lineBreak : ∀ depth, ∀ c ∈ (layout.lineBreak depth).toList, c ∈ Scanner.blanks
  gap : ∀ c ∈ layout.gap.toList, c ∈ Scanner.blanks

theorem Json.Layout.compact_blank : Json.Layout.compact.Blank where
  lineBreak _ _ h := by cases h
  gap _ h := by cases h

theorem Json.Layout.indented_blank : Json.Layout.indented.Blank where
  lineBreak depth c h := by
    rw [indented, String.toList_ofList, List.mem_cons] at h
    rw [Scanner.mem_blanks_iff]
    rcases h with h | h
    · exact .inr (.inr (.inl h))
    · exact .inl (List.eq_of_mem_replicate h)
  gap c h := by
    rw [Scanner.mem_blanks_iff]
    exact .inl (List.mem_singleton.mp h)

namespace Scanner

variable {layout : Json.Layout}

/-- A block of items is scanned as its items between brackets. -/
theorem spells_block {opening closing : String} {openToken closeToken : Token}
    (hlayout : layout.Blank)
    (hopening : ∀ {text tokens}, Spells text tokens →
      Spells (opening.toList ++ text) (openToken :: tokens))
    (hclosing : Spells closing.toList [closeToken]) (hdelimited : Delimited closing.toList)
    (depth : Nat) {items : List String} {tokens : List (List Token)}
    (h : List.Forall₂ (fun item tokens ↦ Spells item.toList tokens) items tokens) :
    Spells (layout.block depth opening closing items).toList
      (openToken :: ([Token.comma].intercalate tokens ++ [closeToken])) := by
  have hitems := spells_intercalate (hlayout.lineBreak (depth + 1))
    (List.forall₂_map_left_iff.mpr h)
  have hafter : Spells ((layout.lineBreak depth).toList ++ closing.toList) [closeToken] :=
    hclosing.blanks_append (hlayout.lineBreak depth)
  have hinner := (hitems.append
    (delimited_blanks_append (hlayout.lineBreak depth) hdelimited) hafter).blanks_append
      (hlayout.lineBreak (depth + 1))
  rw [Json.Layout.block]
  split
  · rename_i hempty
    obtain rfl := List.isEmpty_iff.mp hempty
    cases h
    rw [String.toList_append]
    exact hopening hclosing
  · simp only [String.toList_append, String.toList_intercalate, List.append_assoc]
    exact hopening hinner

/-- An array of written items is scanned as its items. -/
theorem spells_array (hlayout : layout.Blank) (depth : Nat) {items : List String}
    {tokens : List (List Token)}
    (h : List.Forall₂ (fun item tokens ↦ Spells item.toList tokens) items tokens) :
    Spells (layout.array depth items).toList
      (.openBracket :: ([Token.comma].intercalate tokens ++ [.closeBracket])) := by
  have hopening {text tokens} (h : Spells text tokens) :
      Spells ("[".toList ++ text) (.openBracket :: tokens) := h.cons fun _ ↦ rfl
  have hclosing : Spells "]".toList [.closeBracket] := .cons (fun _ ↦ rfl) .nil
  exact spells_block hlayout hopening hclosing (delimited_cons rfl rfl) depth h

/-- An object of names with written values is scanned as its members. -/
theorem spells_object (hlayout : layout.Blank) (depth : Nat) {members : List (String × String)}
    {tokens : List (String × List Token)}
    (h : List.Forall₂ (fun member tokens ↦
      member.1 = tokens.1 ∧ Spells member.2.toList tokens.2) members tokens) :
    Spells (layout.object depth members).toList
      (.openBrace :: ([Token.comma].intercalate
        (tokens.map fun (name, value) ↦ .string (some name) :: .colon :: value) ++
          [.closeBrace])) := by
  have hopening {text tokens} (h : Spells text tokens) :
      Spells ("\x7b".toList ++ text) (.openBrace :: tokens) := h.cons fun _ ↦ rfl
  have hclosing : Spells "\x7d".toList [.closeBrace] := .cons (fun _ ↦ rfl) .nil
  refine spells_block hlayout hopening hclosing (delimited_cons rfl rfl) depth ?_
  rw [List.forall₂_map_left_iff, List.forall₂_map_right_iff]
  refine h.imp fun ⟨name, value⟩ ⟨_, tokens⟩ ⟨hname, hvalue⟩ ↦ ?_
  obtain rfl := hname
  have hcolon : Spells (':' :: (layout.gap.toList ++ value.toList)) (.colon :: tokens) :=
    .cons (fun _ ↦ rfl) (hvalue.blanks_append hlayout.gap)
  have hmember := (spells_quote name).append (delimited_cons rfl rfl) hcolon
  simpa [String.toList_append] using hmember

/-- A text that spells tokens is scanned as these tokens. -/
theorem Spells.scan? {text : String} {tokens : List Token} (h : Spells text.toList tokens) :
    Token.scan? text = some tokens := by
  have hscan := h [] [] delimited_nil
  rw [List.append_nil, List.append_nil] at hscan
  have hend : finish? ⟨tokens.reverse, .between⟩ [] = some tokens.reverse.reverse := rfl
  rw [hend, List.reverse_reverse] at hscan
  exact hscan

end Scanner

end StyleLang
