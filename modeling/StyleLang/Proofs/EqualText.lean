import StyleLang.Eval.Coercion
import StyleLang.Proofs.RoundTrip
import StyleLang.Proofs.Zeros
import StyleLang.Value.Access

/-!
# Texts of equal values

The numbers in equal values do not tell their texts apart, but the colors do: a zero channel may
have a sign, which the text of a color shows. So equal values have one text, in each layout and as
converted to a text, if and only if the colors in them are the same (`Value.text_eq_iff_colors_eq`).
-/

namespace StyleLang.Value

/-! ## The colors in a value -/

/-- The colors in a value, in the order of its text. -/
def colors (value : Value) : List Color :=
  value.parts.filterMap (·.asColor.toOption)

@[simp]
theorem colors_color (c : Color) : (Value.color c).colors = [c] :=
  rfl

/-- The colors in an array are those in its items. -/
theorem colors_array (items : List Value) : (Value.array items).colors = items.flatMap colors := by
  rw [colors, parts, partsOfItems_eq_flatMap]
  exact List.filterMap_flatMap

/-- The colors in an object are those in the values of its fields. -/
theorem colors_object (fields : SortedMap Value) :
    (Value.object fields).colors = fields.entries.flatMap fun entry ↦ entry.2.colors := by
  rw [colors, parts, partsOfFields_eq_flatMap]
  exact List.filterMap_flatMap

variable {value other : Value}

/-- Equal values have equal colors, one by one. -/
theorem forall₂_colors (h : (value == other) = true) :
    List.Forall₂ (fun c d ↦ (c == d) = true) value.colors other.colors := by
  induction h using equal_induction with
  | null | bool | number | string => exact .nil
  | color c d h => exact .cons h .nil
  | array items other h ih =>
      rw [colors_array, colors_array]
      exact List.rel_flatMap (ih.imp fun _ _ hitem ↦ hitem.snd) fun _ _ hcolors ↦ hcolors
  | object fields other h ih =>
      rw [colors_object, colors_object]
      exact List.rel_flatMap (ih.imp fun _ _ hentry ↦ hentry.2.snd) fun _ _ hcolors ↦ hcolors

/-! ## Trees and texts -/

/-- Two lists side by side have the same images if and only if their blocks are the same when they are
concatenated, if this holds of the images and blocks of each pair and its blocks have one length. -/
theorem map_eq_iff_flatMap_eq {α β γ δ : Type} {f : α → List γ} {f' : β → List γ} {g : α → δ}
    {g' : β → δ} {as : List α} {bs : List β}
    (h : List.Forall₂
      (fun a b ↦ (f a).length = (f' b).length ∧ (g a = g' b ↔ f a = f' b)) as bs) :
    as.map g = bs.map g' ↔ as.flatMap f = bs.flatMap f' := by
  induction h with
  | nil => simp
  | cons hhead _ ih =>
      obtain ⟨hlength, hiff⟩ := hhead
      rw [List.map_cons, List.map_cons, List.flatMap_cons, List.flatMap_cons, List.cons.injEq, hiff,
        ih]
      refine ⟨?_, fun happend ↦ List.append_inj happend hlength⟩
      rintro ⟨hfirst, hrest⟩
      rw [hfirst, hrest]

/-- Equal values are written as one tree if and only if their colors are the same. -/
theorem toJson_eq_iff_colors_eq (h : (value == other) = true) :
    value.toJson = other.toJson ↔ value.colors = other.colors := by
  induction h using equal_induction with
  | null | bool | string => exact iff_of_true rfl rfl
  | number x y h =>
      refine iff_of_true ?_ rfl
      rw [toJson, toJson, Binary64.numeral?_congr h]
  | color c d h =>
      rw [toJson, toJson, Json.string.injEq, Option.some.injEq, colors_color, colors_color,
        List.singleton_inj]
      exact ⟨Color.eq_of_css_eq h, congrArg Color.css⟩
  | array items other h ih =>
      rw [colors_array, colors_array, toJson, toJson, Json.array.injEq, toJsonItems_eq_map,
        toJsonItems_eq_map]
      refine map_eq_iff_flatMap_eq (ih.imp ?_)
      rintro item otherItem ⟨hequal, hitem⟩
      exact ⟨(forall₂_colors hequal).length_eq, hitem⟩
  | object fields other h ih =>
      rw [colors_object, colors_object, toJson, toJson, Json.object.injEq, toJsonMembers_eq_map,
        toJsonMembers_eq_map]
      refine map_eq_iff_flatMap_eq (ih.imp ?_)
      rintro ⟨key, item⟩ ⟨otherKey, otherItem⟩ ⟨rfl, hequal, hitem⟩
      refine ⟨(forall₂_colors hequal).length_eq, ?_⟩
      rw [Prod.mk.injEq, hitem]
      exact and_iff_right rfl

/-- Two lists side by side have the same images if they have the same under a map that determines
the images of each pair. -/
theorem map_eq_of_map_eq {α β γ δ : Type} {f : α → γ} {f' : β → γ} {g : α → δ} {g' : β → δ}
    {as : List α} {bs : List β} (h : List.Forall₂ (fun a b ↦ f a = f' b → g a = g' b) as bs)
    (hmap : as.map f = bs.map f') : as.map g = bs.map g' := by
  induction h with
  | nil => rfl
  | cons hhead _ ih =>
      obtain ⟨hfirst, hrest⟩ := List.cons.inj hmap
      rw [List.map_cons, List.map_cons, hhead hfirst, ih hrest]

variable {layout : Json.Layout}

/-- Equal values that are written as one tree have one text. -/
theorem write_eq_of_toJson_eq (h : (value == other) = true) (hjson : value.toJson = other.toJson)
    (depth : Nat) : value.write layout depth = other.write layout depth := by
  induction h using equal_induction generalizing depth with
  | null | bool | string => rfl
  | number x y h =>
      rw [write, write, Binary64.jsonText, Binary64.jsonText, Binary64.numeral?_congr h]
  | color c d h =>
      rw [toJson, toJson, Json.string.injEq, Option.some.injEq] at hjson
      rw [write, write, hjson]
  | array items other h ih =>
      rw [toJson, toJson, Json.array.injEq, toJsonItems_eq_map, toJsonItems_eq_map] at hjson
      rw [write, write, writeItems_eq_map, writeItems_eq_map, map_eq_of_map_eq (ih.imp ?_) hjson]
      exact fun item otherItem hitem heq ↦ hitem.snd heq (depth + 1)
  | object fields other h ih =>
      rw [toJson, toJson, Json.object.injEq, toJsonMembers_eq_map, toJsonMembers_eq_map] at hjson
      rw [write, write, writeFields_eq_map, writeFields_eq_map, map_eq_of_map_eq (ih.imp ?_) hjson]
      rintro ⟨key, item⟩ ⟨otherKey, otherItem⟩ ⟨rfl, -, hitem⟩ heq
      exact congrArg (Prod.mk key) (hitem (Prod.mk.inj heq).2 (depth + 1))

/-- In each layout, equal values have one text if and only if their colors are the same. -/
theorem write_eq_iff_colors_eq (hlayout : layout.Blank) (h : (value == other) = true)
    (depth : Nat) :
    value.write layout depth = other.write layout depth ↔ value.colors = other.colors := by
  rw [← toJson_eq_iff_colors_eq h]
  refine ⟨fun htext ↦ ?_, fun hjson ↦ write_eq_of_toJson_eq h hjson depth⟩
  -- The tree is read from the text.
  have hread := ofText?_write hlayout value depth
  rw [htext, ofText?_write hlayout other depth] at hread
  exact (Option.some.inj hread).symm

/-- Equal values have one plain text if and only if their colors are the same. -/
theorem toPlainText_eq_iff_colors_eq (h : (value == other) = true) :
    value.toPlainText = other.toPlainText ↔ value.colors = other.colors := by
  have htext : value.text = other.text ↔ value.colors = other.colors :=
    write_eq_iff_colors_eq Json.Layout.compact_blank h 0
  induction h using equal_induction with
  | null | string => exact iff_of_true rfl rfl
  | color c d h =>
      rw [colors_color, colors_color, List.singleton_inj]
      exact ⟨Color.eq_of_css_eq h, congrArg Color.css⟩
  -- The plain text of the other values is their text.
  | bool | number | array | object => exact htext

/-- Equal values have equal colors, and one text if and only if these are the same, zero channels
with and without a sign told apart: one text without blanks, one text with lines, and one text by
the conversion. -/
theorem text_eq_iff_colors_eq (h : (value == other) = true) :
    List.Forall₂ (fun c d ↦ (c == d) = true) value.colors other.colors ∧
      (value.text = other.text ↔ value.colors = other.colors) ∧
      (value.indentedText = other.indentedText ↔ value.colors = other.colors) ∧
      (Ty.string.convert value = Ty.string.convert other ↔ value.colors = other.colors) := by
  refine ⟨forall₂_colors h, write_eq_iff_colors_eq Json.Layout.compact_blank h 0,
    write_eq_iff_colors_eq Json.Layout.indented_blank h 0, ?_⟩
  rw [Ty.convert, Ty.convert, Except.ok.injEq, Value.string.injEq]
  exact toPlainText_eq_iff_colors_eq h

/-- The sign of an item that is zero does not show, next to a color with a signed zero channel. -/
theorem text_eq_iff_colors_eq_zero :
    ∃ (c : Color) (value other : Value), c = ⟨.zero false, .zero true, .zero false, .zero true⟩ ∧
      value = .array [.number (.zero false), .color c] ∧
      other = .array [.number (.zero true), .color c] ∧
      (value == other) = true ∧ value.text = other.text ∧
      value.indentedText = other.indentedText ∧
      Ty.string.convert value = Ty.string.convert other := by
  have hcolor : ((⟨.zero false, .zero true, .zero false, .zero true⟩ : Color) ==
      ⟨.zero false, .zero true, .zero false, .zero true⟩) = true :=
    Color.beq_iff.mpr ⟨Binary64.zero_beq_zero false false, Binary64.zero_beq_zero true true,
      Binary64.zero_beq_zero false false, Binary64.zero_beq_zero true true⟩
  have hnumber := Binary64.zero_beq_zero false true
  have hequal := array_beq_iff.mpr
    (.cons (number_beq_iff.mpr hnumber) (.cons (color_beq_iff.mpr hcolor) .nil))
  obtain ⟨-, htext, hindented, hconvert⟩ := text_eq_iff_colors_eq hequal
  exact ⟨_, _, _, rfl, rfl, rfl, hequal, htext.mpr rfl, hindented.mpr rfl, hconvert.mpr rfl⟩

/-- The colors of two CSS texts are equal but for the sign of a zero alpha, which their texts
show. -/
theorem exists_color_text_ne :
    ∃ c d, Color.ofCss? "rgba(0,0,0,0)" = some c ∧ Color.ofCss? "rgba(0,0,0,-0)" = some d ∧
      (Value.color c == .color d) = true ∧ (Value.color c).text ≠ (Value.color d).text ∧
      (Value.color c).indentedText ≠ (Value.color d).indentedText ∧
      Ty.string.convert (.color c) ≠ Ty.string.convert (.color d) := by
  have hzero := Binary64.zero_beq_zero false
  have hequal : (Value.color ⟨.zero false, .zero false, .zero false, .zero false⟩ ==
      .color ⟨.zero false, .zero false, .zero false, .zero true⟩) = true :=
    color_beq_iff.mpr (Color.beq_iff.mpr ⟨hzero false, hzero false, hzero false, hzero true⟩)
  have hcolors : (Value.color ⟨.zero false, .zero false, .zero false, .zero false⟩).colors ≠
      (Value.color ⟨.zero false, .zero false, .zero false, .zero true⟩).colors := by
    rw [colors_color, colors_color]
    decide
  refine ⟨_, _, by decide +kernel, by decide +kernel, hequal, fun htext ↦ ?_, fun htext ↦ ?_,
    fun hconvert ↦ ?_⟩
  · exact hcolors ((write_eq_iff_colors_eq Json.Layout.compact_blank hequal 0).mp htext)
  · exact hcolors ((write_eq_iff_colors_eq Json.Layout.indented_blank hequal 0).mp htext)
  · have hplain := Value.string.inj (Except.ok.inj hconvert)
    exact hcolors ((toPlainText_eq_iff_colors_eq hequal).mp hplain)

end StyleLang.Value
