import Mathlib.Data.List.Forall2
import StyleLang.Value.Basic

/-!
# Equality of values

When `==` holds of numbers, arrays and objects. Numbers are equal if they stand at one place of the
line (`Binary64.beq_iff`), arrays if their items are (`Value.array_beq_iff`), and objects if they
have the same keys with equal values (`Value.object_beq_iff`). `Value.equal_induction` is the
induction over two equal values side by side.
-/

namespace StyleLang

/-- Numbers are equal if they have the same place on the line. -/
theorem Binary64.beq_iff {x y : Binary64} :
    (x == y) = true ↔ ∃ place, x.place? = some place ∧ y.place? = some place := by
  change x.equal y = true ↔ _
  rw [equal]
  cases x.place? with
  | none => simp
  | some a =>
      cases y.place? with
      | none => simp
      | some b =>
          simp only [beq_iff_eq, Option.some.injEq, exists_eq_left']
          exact eq_comm

namespace Value

theorem number_beq_iff {x y : Binary64} :
    (Value.number x == .number y) = true ↔ (x == y) = true :=
  Iff.rfl

theorem color_beq_iff {c d : Color} : (Value.color c == .color d) = true ↔ (c == d) = true :=
  Iff.rfl

/-- Arrays are equal if their items are, one by one. -/
theorem array_beq_iff {items other : List Value} :
    (Value.array items == .array other) = true ↔
      List.Forall₂ (fun a b ↦ (a == b) = true) items other := by
  change equalItems items other = true ↔ _
  induction items generalizing other with
  | nil => cases other <;> simp [equalItems]
  | cons item items ih =>
      cases other with
      | nil => simp [equalItems]
      | cons otherItem other =>
          rw [equalItems, Bool.and_eq_true, List.forall₂_cons, ih]
          exact Iff.rfl

/-- Objects are equal if they list the same keys with equal values. -/
theorem object_beq_iff {fields other : SortedMap Value} :
    (Value.object fields == .object other) = true ↔
      List.Forall₂ (fun a b ↦ a.1 = b.1 ∧ (a.2 == b.2) = true) fields.entries other.entries := by
  obtain ⟨keys, hsorted, value⟩ := fields
  change equalFields ⟨keys, hsorted, value⟩ other = true ↔ _
  rw [equalFields]
  split
  · rename_i hkeys
    obtain ⟨otherKeys, hotherSorted, otherValue⟩ := other
    obtain rfl : keys = otherKeys := hkeys
    simp only [List.forall₂_iff_get, SortedMap.entries, List.all_eq_true, List.mem_ofFn,
      forall_exists_index, forall_apply_eq_imp_iff]
    simp only [id_eq, List.length_ofFn, List.get_eq_getElem, List.getElem_ofFn, Fin.getElem_fin,
      true_and]
    exact ⟨fun h i hi _ ↦ h ⟨i, hi⟩, fun h i ↦ h i i.isLt i.isLt⟩
  · rename_i hkeys
    refine ⟨fun h ↦ absurd h Bool.false_ne_true, fun h ↦ absurd ?_ hkeys⟩
    have hmap : List.Forall₂ (· = ·) (SortedMap.keys ⟨keys, hsorted, value⟩) other.keys := by
      rw [← SortedMap.map_fst_entries, ← SortedMap.map_fst_entries, List.forall₂_map_left_iff,
        List.forall₂_map_right_iff]
      exact h.imp fun _ _ hentry ↦ hentry.1
    exact List.forall₂_eq_eq_eq ▸ hmap

/-- A property of all pairs of equal values follows if it passes from items to arrays and from fields
to objects. -/
@[elab_as_elim]
theorem equal_induction {motive : (value other : Value) → (value == other) = true → Prop}
    (null : motive .null .null rfl)
    (bool : ∀ value h, motive (.bool value) (.bool value) h)
    (number : ∀ (x y : Binary64) (h : (x == y) = true),
      motive (.number x) (.number y) (number_beq_iff.mpr h))
    (string : ∀ text h, motive (.string text) (.string text) h)
    (color : ∀ (c d : Color) (h : (c == d) = true),
      motive (.color c) (.color d) (color_beq_iff.mpr h))
    (array : ∀ (items other : List Value) (h : (Value.array items == .array other) = true),
      List.Forall₂ (fun a b ↦ ∃ h, motive a b h) items other →
      motive (.array items) (.array other) h)
    (object : ∀ (fields other : SortedMap Value)
      (h : (Value.object fields == .object other) = true),
      List.Forall₂ (fun a b ↦ a.1 = b.1 ∧ ∃ h, motive a.2 b.2 h) fields.entries other.entries →
      motive (.object fields) (.object other) h)
    {value other : Value} (h : (value == other) = true) : motive value other h := by
  induction value using Value.induction generalizing other with
  | array items ih =>
      cases other with
      | array otherItems =>
          refine array _ _ h (((List.forall₂_and_left _ _).mpr ⟨ih, array_beq_iff.mp h⟩).imp ?_)
          exact fun item otherItem hitem ↦ ⟨hitem.2, hitem.1 hitem.2⟩
      | _ => cases h
  | object fields ih =>
      cases other with
      | object otherFields =>
          have ih : ∀ entry ∈ fields.entries, ∀ {other : Value} (h : (entry.2 == other) = true),
              motive entry.2 other h := by
            intro entry hentry other
            obtain ⟨i, rfl⟩ := SortedMap.mem_entries_iff.mp hentry
            exact ih i
          refine object _ _ h (((List.forall₂_and_left _ _).mpr ⟨ih, object_beq_iff.mp h⟩).imp ?_)
          exact fun entry otherEntry hentry ↦ ⟨hentry.2.1, hentry.2.2, hentry.1 hentry.2.2⟩
      | _ => cases h
  | null =>
      cases other with
      | null => exact null
      | _ => cases h
  | bool value =>
      cases other with
      | bool otherValue =>
          obtain rfl : value = otherValue := eq_of_beq h
          exact bool value h
      | _ => cases h
  | number x =>
      cases other with
      | number y => exact number x y h
      | _ => cases h
  | string text =>
      cases other with
      | string otherText =>
          obtain rfl : text = otherText := eq_of_beq h
          exact string text h
      | _ => cases h
  | color c =>
      cases other with
      | color d => exact color c d h
      | _ => cases h

end Value

end StyleLang
