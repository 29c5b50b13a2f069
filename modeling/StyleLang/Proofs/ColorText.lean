import StyleLang.Proofs.ColorGrammar
import StyleLang.Proofs.Conversions

/-!
# Colors as text

The text of a color denotes a color with the same alpha, in which the other channels are rounded to
whole 255ths (`Color.ofCss?_css`). Rounding a second time changes nothing, so that such a color has
the same text, and a color that was built from integers is read back as it is.
-/

namespace StyleLang

namespace Color

/-! ## Plain texts -/

/-- The text has no blank and no upper-case letter. -/
def IsPlain (text : List Char) : Prop :=
  ∀ c ∈ text, Text.isBlank c = false ∧ c.toLower = c

theorem isPlain_append_iff {text more : List Char} :
    IsPlain (text ++ more) ↔ IsPlain text ∧ IsPlain more :=
  List.forall_mem_append

/-- A plain text that denotes a color is read as the color. -/
theorem ofCss?_of_denotes {text : List Char} {c : Color} (hplain : IsPlain text)
    (h : Denotes text c) : ofCss? (.ofList text) = some c := by
  rwa [ofCss?_eq_some_iff, String.toList_ofList, Text.trim_eq_self fun c hc ↦ (hplain c hc).1,
    List.map_congr_left fun c hc ↦ (hplain c hc).2, List.map_id']

/-- A function of plain arguments is plain. -/
theorem isPlain_function {function : String} {parts : List (List Char)}
    (hfunction : IsPlain function.toList) (hparts : ∀ part ∈ parts, IsPlain part) :
    IsPlain (function.toList ++ ([','].intercalate parts ++ [')'])) := by
  have hcomma : IsPlain [','] := by simp [IsPlain, Text.isBlank, Text.blanks]
  have hparenthesis : IsPlain [')'] := by simp [IsPlain, Text.isBlank, Text.blanks]
  have harguments : IsPlain ([','].intercalate parts) := by
    induction parts with
    | nil => exact fun c hc ↦ absurd hc List.not_mem_nil
    | cons part parts ih =>
        obtain ⟨hpart, hrest⟩ := List.forall_mem_cons.mp hparts
        cases parts with
        | nil => rwa [List.intercalate_singleton]
        | cons next parts =>
            rw [List.intercalate_cons_cons]
            simp only [isPlain_append_iff]
            exact ⟨⟨hpart, hcomma⟩, ih hrest⟩
  simp only [isPlain_append_iff]
  exact ⟨hfunction, harguments, hparenthesis⟩

/-- Digits, points and signs are plain, and they are no commas. -/
theorem plain_of_numeric {c : Char} (h : c = '-' ∨ c = '.' ∨ ∃ digit : Digit, c = digit.toChar) :
    (Text.isBlank c = false ∧ c.toLower = c) ∧ ',' ≠ c := by
  have hdigit : ∀ digit : Digit, (Text.isBlank digit.toChar = false ∧
      digit.toChar.toLower = digit.toChar) ∧ ',' ≠ digit.toChar := by decide
  rcases h with rfl | rfl | ⟨digit, rfl⟩
  · decide
  · decide
  · exact hdigit digit

/-- The text of a number is plain, has no comma and is read back as the number. -/
theorem isPlain_positional {x : Binary64} {bound : Fin Binary64.overflowRank}
    (h : x.within 0 (.finite false bound) = true) :
    IsPlain x.positional.toList ∧ ',' ∉ x.positional.toList ∧
      Binary64.ofLiteral? (Text.trim x.positional.toList) = some x := by
  obtain ⟨negative, rank, rfl, -, -⟩ := Binary64.within_zero_iff.mp h
  have hnumeric := fun c (hc : c ∈ (Binary64.finite negative rank).positional.toList) ↦
    plain_of_numeric (Binary64.mem_toList_positional hc)
  refine ⟨fun c hc ↦ (hnumeric c hc).1, fun hc ↦ (hnumeric _ hc).2 rfl, ?_⟩
  rw [Text.trim_eq_self fun c hc ↦ (hnumeric c hc).1.1]
  exact Binary64.ofLiteral?_positional negative rank

/-- The text of a channel is plain and denotes the channel. -/
theorem isPart_positional {x : Binary64} (h : x.within 0 255 = true) :
    IsPlain x.positional.toList ∧ IsPart x.positional.toList x := by
  have hbound := h
  rw [Binary64.byte_eq] at hbound
  obtain ⟨hplain, hcomma, hread⟩ := isPlain_positional hbound
  exact ⟨hplain, hcomma, .number hread, h⟩

/-! ## Reading what was written -/

/-- Channels and alpha in `rgba(…)` are read back. -/
theorem ofCss?_rgba {red green blue alpha : Binary64} (hred : red.within 0 255 = true)
    (hgreen : green.within 0 255 = true) (hblue : blue.within 0 255 = true)
    (halpha : alpha.within 0 1 = true) :
    ofCss? ("rgba(" ++ red.positional ++ "," ++ green.positional ++ "," ++ blue.positional ++ "," ++
      alpha.positional ++ ")") = some ⟨red / 255, green / 255, blue / 255, alpha⟩ := by
  have hbound := halpha
  rw [Binary64.one_eq] at hbound
  obtain ⟨hredPlain, hredPart⟩ := isPart_positional hred
  obtain ⟨hgreenPlain, hgreenPart⟩ := isPart_positional hgreen
  obtain ⟨hbluePlain, hbluePart⟩ := isPart_positional hblue
  obtain ⟨halphaPlain, hcomma, hread⟩ := isPlain_positional hbound
  have htext : "rgba(" ++ red.positional ++ "," ++ green.positional ++ "," ++ blue.positional ++
      "," ++ alpha.positional ++ ")" = .ofList ("rgba(".toList ++ ([','].intercalate
        ([red.positional.toList, green.positional.toList, blue.positional.toList] ++
          [alpha.positional.toList]) ++ [')'])) := by
    apply String.toList_injective
    simp [List.intercalate_cons_cons]
  have hfunction : IsPlain "rgba(".toList := by
    simp [IsPlain, Text.isBlank, Text.blanks]
  have hparts : ∀ part ∈ [red.positional.toList, green.positional.toList,
      blue.positional.toList] ++ [alpha.positional.toList], IsPlain part := by
    simp [hredPlain, hgreenPlain, hbluePlain, halphaPlain]
  rw [htext]
  exact ofCss?_of_denotes (isPlain_function hfunction hparts) (.rgba
    (.cons hredPart (.cons hgreenPart (.cons hbluePart .nil))) hcomma hread halpha)

/-- The color that the text of a color denotes: its channels are rounded to whole 255ths. -/
def rounded (c : Color) : Color :=
  ⟨(c.red * 255).round / 255, (c.green * 255).round / 255, (c.blue * 255).round / 255, c.alpha⟩

/-- The text of a color is read as the rounded color. -/
theorem ofCss?_css_eq {c : Color} (h : c.InRange) : ofCss? c.css = some c.rounded := by
  simp only [InRange, channels, List.forall_mem_cons] at h
  obtain ⟨hred, hgreen, hblue, halpha, -⟩ := h
  exact ofCss?_rgba (Binary64.isByte_round hred).2 (Binary64.isByte_round hgreen).2
    (Binary64.isByte_round hblue).2 halpha

/-- The rounded color has the text of the color. -/
theorem css_rounded {c : Color} (h : c.InRange) : c.rounded.css = c.css := by
  simp only [InRange, channels, List.forall_mem_cons] at h
  obtain ⟨hred, hgreen, hblue, -, -⟩ := h
  simp only [rounded, css, Binary64.round_div_mul_byte (Binary64.isByte_round hred),
    Binary64.round_div_mul_byte (Binary64.isByte_round hgreen),
    Binary64.round_div_mul_byte (Binary64.isByte_round hblue)]

/-- A color of integers is rounded already. -/
theorem rounded_of_isByte {red green blue alpha : Binary64} (hred : red.IsByte)
    (hgreen : green.IsByte) (hblue : blue.IsByte) {c : Color}
    (h : ofRgba8? red green blue alpha = some c) : c.rounded = c := by
  obtain ⟨-, -, -, -, rfl⟩ := ofRgba8?_eq_some_iff.mp h
  simp only [rounded, Binary64.round_div_mul_byte hred, Binary64.round_div_mul_byte hgreen,
    Binary64.round_div_mul_byte hblue]

end Color

/-- A conversion to a text and back to a color compiles, and it reads the text of a color. -/
theorem exists_compileExpression_color_text {raw : Value} {input : Expr}
    (h : compileExpression raw none = .ok input) :
    ∃ root, compileExpression (.call "to-color" [.call "to-string" [raw]]) none = .ok root ∧
      ∀ context c d, input.evaluate context = .ok (.color c) → Color.ofCss? c.css = some d →
        root.evaluate context = .ok (.color d) := by
  have htext : compileExpression (.call "to-string" [raw]) none =
      .ok (.wrap ⟨.coercion, .string, false⟩ input) := compileExpression_wrap rfl rfl h
  refine ⟨_, compileExpression_wrap rfl rfl htext, fun context c d hinput hread ↦ ?_⟩
  have hcolor : Ty.color.convert (.string c.css) = .ok (.color d) := by
    rw [Ty.convert, Value.toColor?, hread]
  have htextOf : Ty.string.convert (.color c) = .ok (.string c.css) := rfl
  simp only [Expr.evaluate_wrap, hinput, ok_bind, Wrapper.apply, htextOf, hcolor]

/-- The text of a color in range is read as a color with the same alpha, whose other channels are
rounded to whole 255ths, and which has the same text. A color of integral channels is read back as
it is, also by the conversion to a text and back to a color. -/
theorem Color.ofCss?_css {c : Color} (h : c.InRange) :
    ∃ d, ofCss? c.css = some d ∧ d.alpha = c.alpha ∧ d.red = (c.red * 255).round / 255 ∧
      d.green = (c.green * 255).round / 255 ∧ d.blue = (c.blue * 255).round / 255 ∧
      d.css = c.css ∧
      ∀ red green blue alpha : Binary64, red.IsByte → green.IsByte → blue.IsByte →
        ofRgba8? red green blue alpha = some c →
        d = c ∧ ∀ raw input, compileExpression raw none = .ok input →
          ∃ root, compileExpression (.call "to-color" [.call "to-string" [raw]]) none = .ok root ∧
            ∀ context, input.evaluate context = .ok (.color c) →
              root.evaluate context = .ok (.color c) := by
  refine ⟨c.rounded, ofCss?_css_eq h, rfl, rfl, rfl, rfl, css_rounded h,
    fun red green blue alpha hred hgreen hblue hc ↦ ?_⟩
  have hsame := rounded_of_isByte hred hgreen hblue hc
  refine ⟨hsame, fun raw input hinput ↦ ?_⟩
  obtain ⟨root, hroot, hread⟩ := exists_compileExpression_color_text hinput
  refine ⟨root, hroot, fun context hcolor ↦ hread context c c hcolor ?_⟩
  rw [ofCss?_css_eq h, hsame]

/-- A channel of one half is rounded up to 128. -/
theorem Color.ofCss?_css_half :
    ∃ c d : Color, c = ⟨1 / 2, 0, 1, 1 / 2⟩ ∧ c.InRange ∧ c.css = "rgba(128,0,255,0.5)" ∧
      ofCss? c.css = some d ∧ d.css = c.css ∧ d.red = 128 / 255 ∧ d ≠ c := by
  have hrange : (⟨1 / 2, 0, 1, 1 / 2⟩ : Color).InRange := by
    simp only [InRange, channels, List.forall_mem_cons, List.not_mem_nil, false_implies,
      implies_true, and_true]
    decide +kernel
  have hround : ((1 / 2 : Binary64) * 255).round / 255 = 128 / 255 := by decide +kernel
  obtain ⟨d, hd, -, hred, -, -, hcss, -⟩ := ofCss?_css hrange
  rw [hround] at hred
  refine ⟨_, d, rfl, hrange, by decide +kernel, hd, hcss, hred, ?_⟩
  rintro rfl
  exact absurd hred (by decide +kernel)

end StyleLang
