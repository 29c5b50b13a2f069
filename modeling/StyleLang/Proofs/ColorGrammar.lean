import Mathlib.Data.List.Forall2
import StyleLang.Proofs.Bytes
import StyleLang.Proofs.Literals

/-!
# The grammar of colors

`Color.Denotes` says which texts denote a color, in terms of digits, parts and names only, and
`Color.ofCss?_eq_some_iff` that precisely these are read, each as the color that it denotes. The
three notations never overlap, although they are tried one after the other.
-/

namespace StyleLang

/-- Of two lists that are related item by item, every item of the first has a partner. -/
theorem exists_mem_of_forall₂ {α β : Type} {relation : α → β → Prop} {xs : List α} {ys : List β}
    (h : List.Forall₂ relation xs ys) : ∀ x ∈ xs, ∃ y ∈ ys, relation x y := by
  induction h with
  | nil => exact fun x hx ↦ absurd hx List.not_mem_nil
  | cons hrelated _ ih =>
      refine List.forall_mem_cons.mpr ⟨⟨_, List.mem_cons_self, hrelated⟩, fun x hx ↦ ?_⟩
      obtain ⟨y, hy, hxy⟩ := ih x hx
      exact ⟨y, List.mem_cons_of_mem _ hy, hxy⟩

namespace Hex

/-! ## Digits -/

/-- The lower-case digits in the order of their values. -/
def digits : List Char :=
  "0123456789abcdef".toList

/-- The character is the lower-case digit of a value. -/
def IsDigit (c : Char) (value : Nat) : Prop :=
  digits[value]? = some c

theorem IsDigit.lt {c : Char} {value : Nat} (h : IsDigit c value) : value < 16 :=
  (List.getElem?_eq_some_iff.mp h).1

/-- Every digit is read. -/
theorem IsDigit.digit? {c : Char} {value : Nat} (h : IsDigit c value) :
    Hex.digit? c = some value := by
  have hread : ∀ value : Fin 16, (digits[value.val]?).bind Hex.digit? = some value.val := by decide
  have hvalue := hread ⟨value, h.lt⟩
  rw [h] at hvalue
  exact hvalue

/-- No upper-case letter is the lower-case form of a character. -/
theorem toLower_upper (c : Char) : ¬ ('A' ≤ c.toLower ∧ c.toLower ≤ 'Z') := by
  delta Char.toLower
  simp only [Char.le_def]
  split <;> grind [UInt32.toNat_add, UInt32.le_iff_toNat_le]

/-- Only digits are read, apart from upper-case ones. -/
theorem isDigit_of_digit? {c : Char} {value : Nat} (hupper : ¬ ('A' ≤ c ∧ c ≤ 'Z'))
    (h : digit? c = some value) : IsDigit c value := by
  have hle : ∀ {low high : Char}, low ≤ high ↔ low.toNat ≤ high.toNat := UInt32.le_iff_toNat_le
  have hfrom : ∀ low : Char, low ≤ c → c = Char.ofNat (low.toNat + (c.toNat - low.toNat)) := by
    intro low hlow
    rw [Nat.add_sub_cancel' (hle.mp hlow), Char.ofNat_toNat]
  unfold digit? at h
  split at h
  · rename_i hdigit
    have hvalue : ∀ n : Fin 10, digits[n.val]? = some (Char.ofNat ('0'.toNat + n)) := by decide
    have hlt : c.toNat - '0'.toNat < 10 := by
      have hhigh : c.toNat ≤ 57 := hle.mp hdigit.2
      have hzero : '0'.toNat = 48 := rfl
      omega
    obtain rfl := Option.some.inj h
    exact (hvalue ⟨_, hlt⟩).trans (congrArg some (hfrom '0' hdigit.1).symm)
  · split at h
    · rename_i hletter
      have hvalue : ∀ n : Fin 6, digits[n.val + 10]? = some (Char.ofNat ('a'.toNat + n)) := by
        decide
      have hlt : c.toNat - 'a'.toNat < 6 := by
        have hhigh : c.toNat ≤ 102 := hle.mp hletter.2
        have hzero : 'a'.toNat = 97 := rfl
        omega
      obtain rfl := Option.some.inj h
      exact (hvalue ⟨_, hlt⟩).trans (congrArg some (hfrom 'a' hletter.1).symm)
    · split at h
      · rename_i hletter
        exact absurd ⟨hletter.1, hle.mpr ((hle.mp hletter.2).trans (by decide))⟩ hupper
      · cases h

/-- The characters are digits of the values, in either case. -/
abbrev Reads (text : List Char) (values : List Nat) : Prop :=
  List.Forall₂ (fun c value ↦ digit? c = some value) text values

/-- Digits are read one by one. -/
theorem mapM_digit?_eq_some_iff {text : List Char} {values : List Nat} :
    text.mapM digit? = some values ↔ Reads text values := by
  induction text generalizing values with
  | nil => simp [List.forall₂_nil_left_iff, eq_comm]
  | cons c text ih =>
      simp only [List.mapM_cons, bind, pure, Option.bind_eq_some_iff, Option.some.injEq, ih,
        List.forall₂_cons_left_iff]
      exact ⟨fun ⟨value, hvalue, values, hvalues, h⟩ ↦ ⟨value, values, hvalue, hvalues, h.symm⟩,
        fun ⟨value, values, hvalue, hvalues, h⟩ ↦ ⟨value, hvalue, values, hvalues, h.symm⟩⟩

/-- The characters are the lower-case digits of the values. -/
def AreDigits (text : List Char) (values : List Nat) : Prop :=
  List.Forall₂ IsDigit text values

theorem AreDigits.reads {text : List Char} {values : List Nat} (h : AreDigits text values) :
    Reads text values :=
  List.Forall₂.imp (fun _ _ hdigit ↦ hdigit.digit?) h

theorem AreDigits.forall_lt {text : List Char} {values : List Nat} (h : AreDigits text values) :
    ∀ value ∈ values, value < 16 := by
  intro value hvalue
  obtain ⟨c, -, hdigit⟩ := exists_mem_of_forall₂ (List.Forall₂.flip h) value hvalue
  exact IsDigit.lt hdigit

/-- Without upper-case letters, what is read are the lower-case digits. -/
theorem Reads.areDigits {text : List Char} {values : List Nat} (h : Reads text values)
    (hupper : ∀ c ∈ text, ¬ ('A' ≤ c ∧ c ≤ 'Z')) : AreDigits text values := by
  induction h with
  | nil => exact .nil
  | cons hdigit _ ih =>
      obtain ⟨hc, htext⟩ := List.forall_mem_cons.mp hupper
      exact .cons (isDigit_of_digit? hc hdigit) (ih htext)

end Hex

namespace Color

/-! ## The grammar -/

/-- The channel that a text denotes: a number literal, or a literal of a percentage of 255. -/
inductive IsChannel : List Char → Binary64 → Prop where
  | number {text : List Char} {x : Binary64} :
      Binary64.ofLiteral? text = some x → IsChannel text x
  | percentage {text : List Char} {x : Binary64} :
      Binary64.ofLiteral? text = some x → IsChannel (text ++ ['%']) (x * 255 / 100)

/-- The channels that hexadecimal digits denote, two digits for each. A single digit stands for the
same digit twice, and without alpha the color is opaque. -/
inductive HexChannels : List Nat → (red green blue alpha : Nat) → Prop where
  | rgb (r g b : Nat) : HexChannels [r, g, b] (16 * r + r) (16 * g + g) (16 * b + b) 255
  | rgba (r g b a : Nat) :
      HexChannels [r, g, b, a] (16 * r + r) (16 * g + g) (16 * b + b) (16 * a + a)
  | rrggbb (r r' g g' b b' : Nat) :
      HexChannels [r, r', g, g', b, b'] (16 * r + r') (16 * g + g') (16 * b + b') 255
  | rrggbbaa (r r' g g' b b' a a' : Nat) :
      HexChannels [r, r', g, g', b, b', a, a'] (16 * r + r') (16 * g + g') (16 * b + b')
        (16 * a + a')

/-- The color of channels between 0 and 255. -/
def ofBytes (red green blue alpha : Nat) : Color :=
  ⟨.ofNat red / 255, .ofNat green / 255, .ofNat blue / 255, .ofNat alpha / 255⟩

/-- A part of the arguments denotes a channel between 0 and 255, apart from blanks around it. -/
def IsPart (part : List Char) (channel : Binary64) : Prop :=
  ',' ∉ part ∧ IsChannel (Text.trim part) channel ∧ channel.within 0 255 = true

/-- `Denotes text c` says that a text in lower case and without blanks at its ends denotes the color
`c`. -/
inductive Denotes : List Char → Color → Prop where
  | hex {text : List Char} {values : List Nat} {red green blue alpha : Nat} :
      Hex.AreDigits text values → HexChannels values red green blue alpha →
      Denotes ('#' :: text) (.ofBytes red green blue alpha)
  | rgb {parts : List (List Char)} {red green blue : Binary64} :
      List.Forall₂ IsPart parts [red, green, blue] →
      Denotes ("rgb(".toList ++ ([','].intercalate parts ++ [')']))
        ⟨red / 255, green / 255, blue / 255, 1⟩
  | rgba {parts : List (List Char)} {last : List Char} {red green blue alpha : Binary64} :
      List.Forall₂ IsPart parts [red, green, blue] → ',' ∉ last →
      Binary64.ofLiteral? (Text.trim last) = some alpha → alpha.within 0 1 = true →
      Denotes ("rgba(".toList ++ ([','].intercalate (parts ++ [last]) ++ [')']))
        ⟨red / 255, green / 255, blue / 255, alpha⟩
  | name {name : String} {red green blue alpha : Nat} :
      (name, red, green, blue, alpha) ∈ names →
      Denotes name.toList (.ofBytes red green blue alpha)

/-! ## Reading by the grammar -/

/-- Channels up to 255 are never refused. -/
theorem ofBytes?_eq {red green blue alpha : Nat} (hred : red ≤ 255) (hgreen : green ≤ 255)
    (hblue : blue ≤ 255) (halpha : alpha ≤ 255) :
    ofBytes? red green blue alpha = some (.ofBytes red green blue alpha) := by
  rw [ofBytes?, ofRgba8?, Binary64.within_ofNat hred, Binary64.within_ofNat hgreen,
    Binary64.within_ofNat hblue, Binary64.within_div_byte (Binary64.within_ofNat halpha)]
  rfl

/-- A color of channels is the one of their quotients, if they are in range. -/
theorem ofRgba8?_eq_some_iff {red green blue alpha : Binary64} {c : Color} :
    ofRgba8? red green blue alpha = some c ↔
      red.within 0 255 = true ∧ green.within 0 255 = true ∧ blue.within 0 255 = true ∧
        alpha.within 0 1 = true ∧ ⟨red / 255, green / 255, blue / 255, alpha⟩ = c := by
  rw [ofRgba8?, Option.ite_none_right_eq_some, Option.some.injEq]
  simp only [Bool.and_eq_true, and_assoc]

/-- A channel with a percent sign is a percentage. -/
theorem channel?_append_percent (text : List Char) :
    channel? (text ++ ['%']) = (Binary64.ofLiteral? text).map (· * 255 / 100) := by
  rw [channel?, List.isSuffixOf?_eq_some_iff_append_eq.mpr rfl]

/-- Channels are read as the grammar says. -/
theorem channel?_eq_some_iff {text : List Char} {x : Binary64} :
    channel? text = some x ↔ IsChannel text x := by
  constructor
  · intro h
    unfold channel? at h
    split at h
    · rename_i percentage hsuffix
      obtain ⟨y, hy, rfl⟩ := Option.map_eq_some_iff.mp h
      rw [← List.isSuffixOf?_eq_some_iff_append_eq.mp hsuffix]
      exact .percentage hy
    · exact .number h
  · intro h
    cases h with
    | number hx =>
        unfold channel?
        split
        · -- A literal has no percent sign at its end.
          rename_i percentage hsuffix
          rw [← List.isSuffixOf?_eq_some_iff_append_eq.mp hsuffix,
            Binary64.ofLiteral?_append_percent] at hx
          cases hx
        · exact hx
    | percentage hx => rw [channel?_append_percent, hx, Option.map_some]

/-- The parts of a text between its commas. -/
theorem splitArguments_intercalate {parts : List (List Char)} (hparts : ∀ part ∈ parts, ',' ∉ part)
    (hne : parts ≠ []) : splitArguments ([','].intercalate parts) = parts.map Text.trim := by
  rw [splitArguments, List.splitOn_intercalate ',' hparts hne]

/-- Every text is made of parts with commas between them. -/
theorem exists_parts (text : List Char) : ∃ parts : List (List Char), parts ≠ [] ∧
    (∀ part ∈ parts, ',' ∉ part) ∧ text = [','].intercalate parts := by
  induction text with
  | nil => exact ⟨[[]], by simp⟩
  | cons c text ih =>
      obtain ⟨parts, hne, hparts, rfl⟩ := ih
      obtain ⟨part, rest, rfl⟩ := List.exists_cons_of_ne_nil hne
      by_cases hcomma : c = ','
      · exact ⟨[] :: part :: rest, by simp, by simpa using hparts,
          by simp [hcomma, List.intercalate_cons_cons]⟩
      · refine ⟨(c :: part) :: rest, by simp, ?_, ?_⟩
        · simpa [Ne.symm hcomma] using hparts
        · cases rest <;> simp [List.intercalate_cons_cons]

/-- The parts that denote channels have no comma. -/
theorem forall_not_mem_of_isPart {parts : List (List Char)} {channels : List Binary64}
    (h : List.Forall₂ IsPart parts channels) : ∀ part ∈ parts, ',' ∉ part := by
  intro part hpart
  obtain ⟨channel, -, hchannel⟩ := exists_mem_of_forall₂ h part hpart
  exact hchannel.1

/-- The three channels of a function are the parts that they are read from. -/
theorem forall₂_isPart_iff {parts : List (List Char)} (hparts : ∀ part ∈ parts, ',' ∉ part)
    {red green blue : Binary64} :
    List.Forall₂ IsPart parts [red, green, blue] ↔ ∃ r g b, parts.map Text.trim = [r, g, b] ∧
      channel? r = some red ∧ channel? g = some green ∧ channel? b = some blue ∧
      red.within 0 255 = true ∧ green.within 0 255 = true ∧ blue.within 0 255 = true := by
  simp only [List.forall₂_cons_right_iff, List.forall₂_nil_right_iff, IsPart,
    ← channel?_eq_some_iff]
  constructor
  · rintro ⟨first, _, ⟨-, hred, hredIn⟩, ⟨second, _, ⟨-, hgreen, hgreenIn⟩,
      ⟨third, _, ⟨-, hblue, hblueIn⟩, rfl, rfl⟩, rfl⟩, rfl⟩
    exact ⟨_, _, _, rfl, hred, hgreen, hblue, hredIn, hgreenIn, hblueIn⟩
  · rintro ⟨r, g, b, hmap, hred, hgreen, hblue, hredIn, hgreenIn, hblueIn⟩
    simp only [List.map_eq_cons_iff, List.map_eq_nil_iff] at hmap
    obtain ⟨first, _, rfl, rfl, second, _, rfl, rfl, third, _, rfl, rfl, rfl⟩ := hmap
    simp only [List.forall_mem_cons] at hparts
    exact ⟨first, _, ⟨hparts.1, hred, hredIn⟩, ⟨second, _, ⟨hparts.2.1, hgreen, hgreenIn⟩,
      ⟨third, _, ⟨hparts.2.2.1, hblue, hblueIn⟩, rfl, rfl⟩, rfl⟩, rfl⟩

/-- The arguments of `rgb(…)` are read as the grammar says. -/
theorem ofRgb?_intercalate {parts : List (List Char)} (hparts : ∀ part ∈ parts, ',' ∉ part)
    (hne : parts ≠ []) {c : Color} :
    ofRgb? ([','].intercalate parts) = some c ↔ ∃ red green blue,
      List.Forall₂ IsPart parts [red, green, blue] ∧
      ⟨red / 255, green / 255, blue / 255, 1⟩ = c := by
  simp only [forall₂_isPart_iff hparts]
  rw [ofRgb?, splitArguments_intercalate hparts hne]
  constructor
  · intro h
    split at h
    · rename_i hmap
      simp only [bind, Option.bind_eq_some_iff, ofRgba8?_eq_some_iff] at h
      obtain ⟨red, hred, green, hgreen, blue, hblue, hredIn, hgreenIn, hblueIn, -, hc⟩ := h
      exact ⟨red, green, blue,
        ⟨_, _, _, hmap, hred, hgreen, hblue, hredIn, hgreenIn, hblueIn⟩, hc⟩
    · cases h
  · rintro ⟨red, green, blue, ⟨r, g, b, hmap, hred, hgreen, hblue, hin⟩, hc⟩
    rw [hmap]
    dsimp only
    rw [hred, hgreen, hblue]
    exact ofRgba8?_eq_some_iff.mpr ⟨hin.1, hin.2.1, hin.2.2, Binary64.within_one, hc⟩

/-- The arguments of `rgba(…)` are read as the grammar says. -/
theorem ofRgba?_intercalate {parts : List (List Char)} (hparts : ∀ part ∈ parts, ',' ∉ part)
    (hne : parts ≠ []) {c : Color} :
    ofRgba? ([','].intercalate parts) = some c ↔ ∃ channels last red green blue alpha,
      parts = channels ++ [last] ∧ List.Forall₂ IsPart channels [red, green, blue] ∧
      Binary64.ofLiteral? (Text.trim last) = some alpha ∧ alpha.within 0 1 = true ∧
      ⟨red / 255, green / 255, blue / 255, alpha⟩ = c := by
  rw [ofRgba?, splitArguments_intercalate hparts hne]
  constructor
  · intro h
    split at h
    · rename_i r g b a hmap
      simp only [bind, Option.bind_eq_some_iff, ofRgba8?_eq_some_iff] at h
      obtain ⟨red, hred, green, hgreen, blue, hblue, alpha, halpha, hredIn, hgreenIn, hblueIn,
        halphaIn, hc⟩ := h
      obtain ⟨channels, lasts, rfl, hchannels, hlasts⟩ :=
        List.map_eq_append_iff.mp (show parts.map Text.trim = [r, g, b] ++ [a] from hmap)
      obtain ⟨last, rfl, rfl⟩ := List.map_eq_singleton_iff.mp hlasts
      have hcomma : ∀ part ∈ channels, ',' ∉ part := fun part hpart ↦
        hparts part (List.mem_append_left _ hpart)
      exact ⟨channels, last, red, green, blue, alpha, rfl, (forall₂_isPart_iff hcomma).mpr
        ⟨r, g, b, hchannels, hred, hgreen, hblue, hredIn, hgreenIn, hblueIn⟩, halpha, halphaIn, hc⟩
    · cases h
  · rintro ⟨channels, last, red, green, blue, alpha, rfl, hchannels, halpha, halphaIn, hc⟩
    have hcomma : ∀ part ∈ channels, ',' ∉ part := fun part hpart ↦
      hparts part (List.mem_append_left _ hpart)
    obtain ⟨r, g, b, hmap, hred, hgreen, hblue, hin⟩ := (forall₂_isPart_iff hcomma).mp hchannels
    rw [List.map_append, hmap]
    simp only [List.map_cons, List.map_nil, List.cons_append, List.nil_append]
    rw [hred, hgreen, hblue, halpha]
    exact ofRgba8?_eq_some_iff.mpr ⟨hin.1, hin.2.1, hin.2.2, halphaIn, hc⟩

/-- Hexadecimal channels are at most 255. -/
theorem HexChannels.le_byte {values : List Nat} {red green blue alpha : Nat}
    (h : HexChannels values red green blue alpha) (hvalues : ∀ value ∈ values, value < 16) :
    red ≤ 255 ∧ green ≤ 255 ∧ blue ≤ 255 ∧ alpha ≤ 255 := by
  cases h <;> simp only [List.forall_mem_cons] at hvalues <;> omega

/-- The values of the digits after `#` are taken as channels. -/
theorem ofHex?_eq_ofBytes? {text : List Char} {values : List Nat} {red green blue alpha : Nat}
    (hvalues : Hex.Reads text values) (h : HexChannels values red green blue alpha) :
    ofHex? text = ofBytes? red green blue alpha := by
  have hdouble : ∀ value, 17 * value = 16 * value + value := Nat.succ_mul 16
  have hread := Hex.mapM_digit?_eq_some_iff.mpr hvalues
  cases h <;> simp only [ofHex?, hread, hdouble]

/-- Where digits are taken as channels, they have channels. -/
theorem exists_hexChannels {text : List Char} {c : Color} (h : ofHex? text = some c) :
    ∃ values red green blue alpha, Hex.Reads text values ∧
      HexChannels values red green blue alpha := by
  simp only [← Hex.mapM_digit?_eq_some_iff]
  unfold ofHex? at h
  split at h
  · rename_i hvalues
    exact ⟨_, _, _, _, _, hvalues, .rgb _ _ _⟩
  · rename_i hvalues
    exact ⟨_, _, _, _, _, hvalues, .rgba _ _ _ _⟩
  · rename_i hvalues
    exact ⟨_, _, _, _, _, hvalues, .rrggbb _ _ _ _ _ _⟩
  · rename_i hvalues
    exact ⟨_, _, _, _, _, hvalues, .rrggbbaa _ _ _ _ _ _ _ _⟩
  · cases h

/-- Digits with hexadecimal channels are never refused. -/
theorem ofHex?_of_hexChannels {text : List Char} {values : List Nat} {red green blue alpha : Nat}
    (htext : Hex.AreDigits text values) (h : HexChannels values red green blue alpha) :
    ofHex? text = some (.ofBytes red green blue alpha) := by
  obtain ⟨hred, hgreen, hblue, halpha⟩ := h.le_byte htext.forall_lt
  rw [ofHex?_eq_ofBytes? htext.reads h, ofBytes?_eq hred hgreen hblue halpha]

/-- Digits after `#` are read as the grammar says. -/
theorem ofHex?_eq_some_iff {text : List Char} (hlower : ∀ c ∈ text, ¬ ('A' ≤ c ∧ c ≤ 'Z'))
    {c : Color} :
    ofHex? text = some c ↔ ∃ values red green blue alpha,
      Hex.AreDigits text values ∧ HexChannels values red green blue alpha ∧
      .ofBytes red green blue alpha = c := by
  constructor
  · intro h
    obtain ⟨values, red, green, blue, alpha, hvalues, hchannels⟩ := exists_hexChannels h
    have htext := hvalues.areDigits hlower
    rw [ofHex?_of_hexChannels htext hchannels] at h
    exact ⟨values, red, green, blue, alpha, htext, hchannels, Option.some.inj h⟩
  · rintro ⟨values, red, green, blue, alpha, htext, hchannels, rfl⟩
    exact ofHex?_of_hexChannels htext hchannels

/-- No named color is refused. -/
theorem ofBytes?_of_mem_names {name : String} {red green blue alpha : Nat}
    (h : (name, red, green, blue, alpha) ∈ names) :
    ofBytes? red green blue alpha = some (.ofBytes red green blue alpha) := by
  have hbytes : ∀ entry ∈ names, entry.2.1 ≤ 255 ∧ entry.2.2.1 ≤ 255 ∧ entry.2.2.2.1 ≤ 255 ∧
      entry.2.2.2.2 ≤ 255 := by decide
  obtain ⟨hred, hgreen, hblue, halpha⟩ := hbytes _ h
  exact ofBytes?_eq hred hgreen hblue halpha

/-- Names are read as the table says. -/
theorem ofName?_eq_some_iff {name : String} {c : Color} :
    ofName? name = some c ↔ ∃ red green blue alpha, (name, red, green, blue, alpha) ∈ names ∧
      .ofBytes red green blue alpha = c := by
  have hunique : ∀ entry ∈ names, names.lookup entry.1 = some entry.2 := by decide
  rw [ofName?, Option.bind_eq_some_iff]
  constructor
  · rintro ⟨⟨red, green, blue, alpha⟩, hlookup, hc⟩
    obtain ⟨before, after, hnames, -⟩ := List.lookup_eq_some_iff.mp hlookup
    have hname : (name, red, green, blue, alpha) ∈ names := by simp [hnames]
    have hread := ofBytes?_of_mem_names hname
    exact ⟨red, green, blue, alpha, hname, Option.some.inj (hread.symm.trans hc)⟩
  · rintro ⟨red, green, blue, alpha, hname, rfl⟩
    exact ⟨_, hunique _ hname, ofBytes?_of_mem_names hname⟩

/-! ## Telling the notations apart -/

theorem ofNormalized?_hex (text : List Char) : ofNormalized? ('#' :: text) = ofHex? text := by
  have hhex : ['#'].isPrefixOf? ('#' :: text) = some text := by simp
  rw [ofNormalized?, hhex]

theorem arguments?_append (function : String) (text : List Char) :
    arguments? function (function.toList ++ (text ++ [')'])) = some text := by
  rw [arguments?, List.isPrefixOf?_eq_some_iff_append_eq.mpr rfl, Option.bind_some,
    List.isSuffixOf?_eq_some_iff_append_eq.mpr rfl]

theorem eq_of_arguments?_eq_some {function : String} {text arguments : List Char}
    (h : arguments? function text = some arguments) :
    text = function.toList ++ (arguments ++ [')']) := by
  obtain ⟨rest, hprefix, hsuffix⟩ := Option.bind_eq_some_iff.mp h
  rw [← List.isPrefixOf?_eq_some_iff_append_eq.mp hprefix,
    List.isSuffixOf?_eq_some_iff_append_eq.mp hsuffix]

theorem ofNormalized?_rgba (text : List Char) :
    ofNormalized? ("rgba(".toList ++ (text ++ [')'])) = ofRgba? text := by
  have hhex : ['#'].isPrefixOf? ("rgba(".toList ++ (text ++ [')'])) = none := rfl
  rw [ofNormalized?, hhex, arguments?_append]

theorem ofNormalized?_rgb (text : List Char) :
    ofNormalized? ("rgb(".toList ++ (text ++ [')'])) = ofRgb? text := by
  have hhex : ['#'].isPrefixOf? ("rgb(".toList ++ (text ++ [')'])) = none := rfl
  have hrgba : arguments? "rgba(" ("rgb(".toList ++ (text ++ [')'])) = none := rfl
  rw [ofNormalized?, hhex, hrgba, arguments?_append]

theorem ofNormalized?_name {name : String} {channels : Nat × Nat × Nat × Nat}
    (h : (name, channels) ∈ names) : ofNormalized? name.toList = ofName? name := by
  have hother : ∀ entry ∈ names, ['#'].isPrefixOf? entry.1.toList = none ∧
      arguments? "rgba(" entry.1.toList = none ∧ arguments? "rgb(" entry.1.toList = none := by
    decide
  obtain ⟨hhex, hrgba, hrgb⟩ := hother _ h
  rw [ofNormalized?, hhex, hrgba, hrgb, String.ofList_toList]

/-- A text in lower case is read as a color if and only if it denotes the color. -/
theorem ofNormalized?_eq_some_iff {text : List Char} (hlower : ∀ c ∈ text, ¬ ('A' ≤ c ∧ c ≤ 'Z'))
    {c : Color} : ofNormalized? text = some c ↔ Denotes text c := by
  constructor
  · intro h
    unfold ofNormalized? at h
    split at h
    · rename_i digits hhex
      obtain rfl := List.isPrefixOf?_eq_some_iff_append_eq.mp hhex
      have hdigits : ∀ c ∈ digits, ¬ ('A' ≤ c ∧ c ≤ 'Z') := fun c hc ↦
        hlower c (List.mem_append_right _ hc)
      obtain ⟨values, red, green, blue, alpha, hvalues, hchannels, rfl⟩ :=
        (ofHex?_eq_some_iff hdigits).mp h
      exact .hex hvalues hchannels
    · rename_i arguments _ hrgba
      rw [eq_of_arguments?_eq_some hrgba]
      obtain ⟨parts, hne, hparts, rfl⟩ := exists_parts arguments
      obtain ⟨channels, last, red, green, blue, alpha, rfl, hchannels, halpha, hin, rfl⟩ :=
        (ofRgba?_intercalate hparts hne).mp h
      exact .rgba hchannels (hparts last (by simp)) halpha hin
    · rename_i arguments _ _ hrgb
      rw [eq_of_arguments?_eq_some hrgb]
      obtain ⟨parts, hne, hparts, rfl⟩ := exists_parts arguments
      obtain ⟨red, green, blue, hchannels, rfl⟩ := (ofRgb?_intercalate hparts hne).mp h
      exact .rgb hchannels
    · obtain ⟨red, green, blue, alpha, hname, rfl⟩ := ofName?_eq_some_iff.mp h
      rw [← String.toList_ofList (l := text)]
      exact .name hname
  · intro h
    cases h with
    | hex hvalues hchannels =>
        rw [ofNormalized?_hex]
        exact ofHex?_of_hexChannels hvalues hchannels
    | rgb hparts =>
        have hne := List.ne_nil_of_length_eq_add_one hparts.length_eq
        rw [ofNormalized?_rgb]
        exact (ofRgb?_intercalate (forall_not_mem_of_isPart hparts) hne).mpr
          ⟨_, _, _, hparts, rfl⟩
    | rgba hparts hlast halpha hin =>
        rw [ofNormalized?_rgba]
        refine (ofRgba?_intercalate (fun part hpart ↦ ?_) (by simp)).mpr
          ⟨_, _, _, _, _, _, rfl, hparts, halpha, hin, rfl⟩
        rcases List.mem_append.mp hpart with hchannel | hlastPart
        · exact forall_not_mem_of_isPart hparts part hchannel
        · rwa [List.mem_singleton.mp hlastPart]
    | name hname =>
        rw [ofNormalized?_name hname]
        exact ofName?_eq_some_iff.mpr ⟨_, _, _, _, hname, rfl⟩

/-- Precisely the texts that denote a color, apart from their case and blanks at the ends, are read,
and they are read as that color. -/
theorem ofCss?_eq_some_iff {text : String} {c : Color} :
    ofCss? text = some c ↔ Denotes ((Text.trim text.toList).map Char.toLower) c := by
  refine ofNormalized?_eq_some_iff fun d hd ↦ ?_
  obtain ⟨original, -, rfl⟩ := List.mem_map.mp hd
  exact Hex.toLower_upper original

end Color

end StyleLang
