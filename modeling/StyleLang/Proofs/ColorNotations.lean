import StyleLang.Proofs.ColorText
import StyleLang.Proofs.HexSlices

/-!
# Notations of one color

Hexadecimal digits in either case are read as the channels that they denote and never refused
(`Color.ofCss?_hex`). An opaque one of these colors is also what `rgb(…)` denotes with the channels
in decimal digits (`Color.ofCss?_rgb`), and what an array of the three channels is converted to.
`Color.ofCss?_notations` puts this together with the grammar.
-/

namespace StyleLang

/-- A blank is not a letter of either case. -/
theorem Text.toLower_of_isBlank {c : Char} (h : isBlank c = true) : c.toLower = c := by
  delta Char.toLower
  split
  · rename_i hupper
    have hlow : 65 ≤ c.toNat := UInt32.le_iff_toNat_le.mp hupper.1
    have hhigh : c.toNat ≤ 90 := UInt32.le_iff_toNat_le.mp hupper.2
    simp only [isBlank, blanks, List.any_cons, List.any_nil, Bool.or_false, Bool.or_eq_true,
      Bool.and_eq_true, decide_eq_true_eq] at h
    omega
  · rfl

/-- A hexadecimal digit of either case is no blank. -/
theorem Hex.IsDigit.isBlank_eq_false {c : Char} {value : Nat} (h : IsDigit c.toLower value) :
    Text.isBlank c = false := by
  have hdigit : ∀ value : Fin 16, (digits[value.val]?).any Text.isBlank = false := by decide
  by_contra hblank
  rw [Text.toLower_of_isBlank (eq_true_of_ne_false hblank)] at h
  have hvalue := hdigit ⟨value, h.lt⟩
  rw [h] at hvalue
  exact hblank hvalue

namespace Color

/-- As many digits as a notation has denote channels. -/
theorem exists_hexChannels_of_length : ∀ {values : List Nat},
    values.length = 3 ∨ values.length = 4 ∨ values.length = 6 ∨ values.length = 8 →
      ∃ red green blue alpha, HexChannels values red green blue alpha
  | [r, g, b], _ => ⟨_, _, _, _, .rgb r g b⟩
  | [r, g, b, a], _ => ⟨_, _, _, _, .rgba r g b a⟩
  | [r, r', g, g', b, b'], _ => ⟨_, _, _, _, .rrggbb r r' g g' b b'⟩
  | [r, r', g, g', b, b', a, a'], _ => ⟨_, _, _, _, .rrggbbaa r r' g g' b b' a a'⟩
  | [], h | [_], h | [_, _], h | [_, _, _, _, _], h | [_, _, _, _, _, _, _], h => by simp at h
  | _ :: _ :: _ :: _ :: _ :: _ :: _ :: _ :: _ :: _, h => by
      simp only [List.length_cons] at h
      omega

/-- Digits denote channels if and only if there are 3, 4, 6 or 8 of them. -/
theorem exists_hexChannels_iff {values : List Nat} :
    (∃ red green blue alpha, HexChannels values red green blue alpha) ↔
      values.length = 3 ∨ values.length = 4 ∨ values.length = 6 ∨ values.length = 8 := by
  refine ⟨?_, exists_hexChannels_of_length⟩
  rintro ⟨red, green, blue, alpha, h⟩
  cases h <;> simp

/-- Hexadecimal digits in either case are read as the channels that they denote. -/
theorem ofCss?_hex {digits : List Char} {values : List Nat} {red green blue alpha : Nat}
    (hdigits : Hex.AreDigits (digits.map Char.toLower) values)
    (h : HexChannels values red green blue alpha) :
    ofCss? (.ofList ('#' :: digits)) = some (.ofBytes red green blue alpha) := by
  have hblank : ∀ c ∈ '#' :: digits, Text.isBlank c = false := by
    refine List.forall_mem_cons.mpr ⟨by decide, fun c hc ↦ ?_⟩
    obtain ⟨value, -, hvalue⟩ := exists_mem_of_forall₂ hdigits _ (List.mem_map_of_mem hc)
    exact hvalue.isBlank_eq_false
  rw [ofCss?_eq_some_iff, String.toList_ofList, Text.trim_eq_self hblank, List.map_cons]
  exact .hex hdigits h

/-- The decimal digits of an integer up to 255 are plain and denote the channel. -/
theorem isPart_digits {n : Nat} (hn : n ≤ 255) :
    IsPlain (Digit.text (Digit.ofNat n)).toList ∧
      IsPart (Digit.text (Digit.ofNat n)).toList (.ofNat n) := by
  obtain ⟨rank, hrank⟩ := Binary64.exists_units_of_le_byte hn
  have hread := Binary64.ofLiteral?_integer false hrank
  have htext : (Digit.text (Digit.ofNat n)).toList = (Digit.ofNat n).map Digit.toChar :=
    String.toList_ofList
  have hnumeric : ∀ c ∈ (Digit.ofNat n).map Digit.toChar,
      (Text.isBlank c = false ∧ c.toLower = c) ∧ ',' ≠ c := by
    intro c hc
    obtain ⟨digit, -, rfl⟩ := List.mem_map.mp hc
    exact plain_of_numeric (.inr (.inr ⟨digit, rfl⟩))
  rw [htext]
  refine ⟨fun c hc ↦ (hnumeric c hc).1, fun hc ↦ (hnumeric _ hc).2 rfl, .number ?_,
    Binary64.within_ofNat hn⟩
  rw [Text.trim_eq_self fun c hc ↦ (hnumeric c hc).1.1, Binary64.ofNat_of_units hrank]
  exact hread

/-- Decimal channels in `rgb(…)` are read. -/
theorem ofCss?_rgb {red green blue : Nat} (hred : red ≤ 255) (hgreen : green ≤ 255)
    (hblue : blue ≤ 255) :
    ofCss? ("rgb(" ++ Digit.text (Digit.ofNat red) ++ "," ++ Digit.text (Digit.ofNat green) ++
      "," ++ Digit.text (Digit.ofNat blue) ++ ")") =
        some ⟨.ofNat red / 255, .ofNat green / 255, .ofNat blue / 255, 1⟩ := by
  obtain ⟨hredPlain, hredPart⟩ := isPart_digits hred
  obtain ⟨hgreenPlain, hgreenPart⟩ := isPart_digits hgreen
  obtain ⟨hbluePlain, hbluePart⟩ := isPart_digits hblue
  have htext : "rgb(" ++ Digit.text (Digit.ofNat red) ++ "," ++ Digit.text (Digit.ofNat green) ++
      "," ++ Digit.text (Digit.ofNat blue) ++ ")" = .ofList ("rgb(".toList ++ ([','].intercalate
        [(Digit.text (Digit.ofNat red)).toList, (Digit.text (Digit.ofNat green)).toList,
          (Digit.text (Digit.ofNat blue)).toList] ++ [')'])) := by
    apply String.toList_injective
    simp [List.intercalate_cons_cons]
  have hfunction : IsPlain "rgb(".toList := by
    simp [IsPlain, Text.isBlank, Text.blanks]
  have hparts : ∀ part ∈ [(Digit.text (Digit.ofNat red)).toList,
      (Digit.text (Digit.ofNat green)).toList, (Digit.text (Digit.ofNat blue)).toList],
      IsPlain part := by
    simp [hredPlain, hgreenPlain, hbluePlain]
  rw [htext]
  exact ofCss?_of_denotes (isPlain_function hfunction hparts) (.rgb
    (.cons hredPart (.cons hgreenPart (.cons hbluePart .nil))))

/-- The color of channels and the greatest alpha is opaque. -/
theorem ofBytes_byte (red green blue : Nat) :
    .ofBytes red green blue 255 =
      (⟨.ofNat red / 255, .ofNat green / 255, .ofNat blue / 255, 1⟩ : Color) := by
  rw [ofBytes]
  exact congrArg _ Binary64.byte_div_byte

/-- The texts that are read as colors are precisely those of the grammar. The hexadecimal ones have
3, 4, 6 or 8 digits, none of them is refused, and the color is that of the channels, as `rgb(…)` and
the conversion of an array give it, if it is opaque. Nothing fails where their digits are read by
byte positions. -/
theorem ofCss?_notations :
    (∀ (text : String) (c : Color),
      ofCss? text = some c ↔ Denotes ((Text.trim text.toList).map Char.toLower) c) ∧
    (∀ values : List Nat, (∃ red green blue alpha, HexChannels values red green blue alpha) ↔
      values.length = 3 ∨ values.length = 4 ∨ values.length = 6 ∨ values.length = 8) ∧
    (∀ (digits : List Char) (values : List Nat) (red green blue alpha : Nat),
      Hex.AreDigits (digits.map Char.toLower) values → HexChannels values red green blue alpha →
      ∃ d, ofCss? (.ofList ('#' :: digits)) = some d ∧
        ofRgba8? (.ofNat red) (.ofNat green) (.ofNat blue) (.ofNat alpha / 255) = some d ∧
        (alpha = 255 →
          ofCss? ("rgb(" ++ Digit.text (Digit.ofNat red) ++ "," ++
            Digit.text (Digit.ofNat green) ++ "," ++ Digit.text (Digit.ofNat blue) ++ ")") =
              some d ∧
          Ty.color.convert (.array [.number (.ofNat red), .number (.ofNat green),
            .number (.ofNat blue)]) = .ok (.color d))) ∧
    ∀ text : List Char, ofHexSlices text = some (ofHex? text) := by
  refine ⟨fun _ _ ↦ ofCss?_eq_some_iff, fun _ ↦ exists_hexChannels_iff,
    fun digits values red green blue alpha hdigits hchannels ↦ ?_, ofHexSlices_eq⟩
  obtain ⟨hred, hgreen, hblue, halpha⟩ := hchannels.le_byte hdigits.forall_lt
  refine ⟨_, ofCss?_hex hdigits hchannels, ofBytes?_eq hred hgreen hblue halpha, ?_⟩
  rintro rfl
  have harray : ofRgba8? (.ofNat red) (.ofNat green) (.ofNat blue) 1 =
      some ⟨.ofNat red / 255, .ofNat green / 255, .ofNat blue / 255, 1⟩ :=
    ofRgba8?_eq_some_iff.mpr ⟨Binary64.within_ofNat hred, Binary64.within_ofNat hgreen,
      Binary64.within_ofNat hblue, Binary64.within_one, rfl⟩
  rw [ofBytes_byte]
  refine ⟨ofCss?_rgb hred hgreen hblue, ?_⟩
  rw [Ty.convert, Value.toColor?, harray]

/-- Three digits in both cases, and the same color in the other notations. -/
theorem ofCss?_notations_short :
    ∃ d, Hex.AreDigits (['0', 'A', 'f'].map Char.toLower) [0, 10, 15] ∧
      HexChannels [0, 10, 15] 0 170 255 255 ∧ ofCss? "#0Af" = some d ∧
      ofCss? "rgb(0,170,255)" = some d ∧
      Ty.color.convert (.array [.number 0, .number 170, .number 255]) = .ok (.color d) := by
  have hdigits : Hex.AreDigits (['0', 'A', 'f'].map Char.toLower) [0, 10, 15] :=
    .cons rfl (.cons rfl (.cons rfl .nil))
  have hchannels : HexChannels [0, 10, 15] 0 170 255 255 := .rgb 0 10 15
  obtain ⟨-, -, hhex, -⟩ := ofCss?_notations
  obtain ⟨d, hd, -, hfull⟩ := hhex _ _ _ _ _ _ hdigits hchannels
  obtain ⟨hrgb, harray⟩ := hfull rfl
  have htext : "rgb(" ++ Digit.text (Digit.ofNat 0) ++ "," ++ Digit.text (Digit.ofNat 170) ++ "," ++
      Digit.text (Digit.ofNat 255) ++ ")" = "rgb(0,170,255)" := by decide +kernel
  rw [htext] at hrgb
  exact ⟨d, hdigits, hchannels, hd, hrgb, harray⟩

end Color

end StyleLang
