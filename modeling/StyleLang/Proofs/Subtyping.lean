import StyleLang.Ty.OfValue

/-!
# Subtyping on values

`Ty.accepts` is not transitive on all types, since an empty array of values fits every array type
without having the items of any. It is transitive where the last type is the type of a value:
`Ty.accepts_trans` carries a static type over to the values of an expression.
-/

namespace StyleLang

namespace Ty

/-- A type that is not one of arrays is accepted by itself and the universal type only. -/
theorem accepts_iff_of_ne_array {expected actual : Ty}
    (h : ∀ item length, actual ≠ .array item length) :
    expected.accepts actual = true ↔ expected = .value ∨ expected = actual := by
  cases expected with
  | value => simp
  | array item length =>
      cases actual with
      | array actualItem actualLength => exact absurd rfl (h actualItem actualLength)
      | _ => simp [accepts]
  | _ => simp [accepts]

/-- Only the universal type accepts the universal type. -/
@[simp]
theorem accepts_value_iff {ty : Ty} : ty.accepts .value = true ↔ ty = .value :=
  (accepts_iff_of_ne_array (by simp)).trans or_self_iff

/-- Only null and the universal type accept null. -/
@[simp]
theorem accepts_null_iff {ty : Ty} : ty.accepts .null = true ↔ ty = .value ∨ ty = .null :=
  accepts_iff_of_ne_array (by simp)

/-- The type null accepts nothing but null. -/
@[simp]
theorem null_accepts_iff {ty : Ty} : Ty.null.accepts ty = true ↔ ty = .null := by
  cases ty <;> simp [accepts]

/-- The type color accepts nothing but color. -/
@[simp]
theorem color_accepts_iff {ty : Ty} : Ty.color.accepts ty = true ↔ ty = .color := by
  cases ty <;> simp [accepts]

/-- The type string accepts nothing but string. -/
@[simp]
theorem string_accepts_iff {ty : Ty} : Ty.string.accepts ty = true ↔ ty = .string := by
  cases ty <;> simp [accepts]

/-- A type of single values accepts itself only. -/
theorem accepts_iff_eq {expected actual : Ty} (hvalue : expected ≠ .value)
    (harray : expected.kind ≠ "array") : expected.accepts actual = true ↔ expected = actual := by
  cases expected with
  | value => exact absurd rfl hvalue
  | array item length => exact absurd rfl harray
  | _ => simp [accepts]

/-- Every type accepts itself. -/
@[simp]
theorem accepts_self (ty : Ty) : ty.accepts ty = true := by
  induction ty with
  | array item length ih => simp [accepts, ih]
  | _ => rfl

/-- When one array type accepts another. -/
theorem array_accepts_array_iff {item actualItem : Ty} {length actualLength : Option Nat} :
    (array item length).accepts (array actualItem actualLength) = true ↔
      (actualLength = some 0 ∧ actualItem = .value ∨ item.accepts actualItem = true) ∧
        (length = none ∨ length = actualLength) := by
  simp [accepts]

/-- Only the universal type is not concrete. -/
theorem isConcrete_iff {ty : Ty} : ty.isConcrete = true ↔ ty ≠ .value := by
  cases ty <;> simp [isConcrete]

end Ty

namespace Value

/-- Null is the only value of type null. -/
@[simp]
theorem type_eq_null_iff {value : Value} : value.type = .null ↔ value = .null := by
  cases value <;> simp [type]

/-- The values of type color are the colors. -/
theorem type_eq_color_iff {value : Value} : value.type = .color ↔ ∃ c, value = .color c := by
  cases value <;> simp [type]

/-- The values of type string are the texts. -/
theorem type_eq_string_iff {value : Value} :
    value.type = .string ↔ ∃ text, value = .string text := by
  cases value <;> simp [type]

/-- A value is null if and only if it passes the test for null. -/
@[simp]
theorem isNull_iff {value : Value} : value.isNull = true ↔ value = .null := by
  cases value <;> simp [isNull]

/-- The items of an array have its item type in common, unless that is the universal type. -/
theorem itemType_cases (items : List Value) :
    itemType items = .value ∨ ∃ item ∈ items, itemType items = item.type := by
  cases items with
  | nil => exact .inl rfl
  | cons item items =>
      rw [itemType_cons]
      split
      · exact .inr ⟨item, by simp, rfl⟩
      · exact .inl rfl

/-- A type that each item has is the item type, if there is an item. -/
theorem itemType_of_forall {items : List Value} {ty : Ty} (hitems : items ≠ [])
    (h : ∀ item ∈ items, item.type = ty) : itemType items = ty := by
  cases items with
  | nil => exact absurd rfl hitems
  | cons item items =>
      rw [List.forall_mem_cons] at h
      obtain ⟨rfl, hrest⟩ := h
      have hall : items.all (·.type == item.type) = true := by
        rw [List.all_eq_true]
        exact fun other hmem ↦ beq_iff_eq.mpr (hrest other hmem)
      rw [itemType_cons, if_pos hall]

/-- Each item has the item type, unless that is the universal type. -/
theorem type_eq_itemType {items : List Value} (h : itemType items ≠ .value) {item : Value}
    (hmem : item ∈ items) : item.type = itemType items := by
  cases items with
  | nil => exact absurd rfl h
  | cons first items =>
      rw [itemType_cons] at h ⊢
      split at h
      · rename_i hall
        rw [if_pos hall]
        rw [List.all_eq_true] at hall
        rcases List.mem_cons.mp hmem with rfl | hmem
        · rfl
        · exact beq_iff_eq.mp (hall item hmem)
      · exact absurd rfl h

/-- The type of an array without items says so of its items, too. -/
theorem item_of_type_eq_array_zero {value : Value} {item : Ty}
    (h : value.type = .array item (some 0)) : item = .value := by
  cases value with
  | array items =>
      simp only [type, Ty.array.injEq, Option.some.injEq, List.length_eq_zero_iff] at h
      obtain ⟨rfl, rfl⟩ := h
      rfl
  | _ => cases h

end Value

/-- What accepts a type accepts the type of each value that this type accepts. -/
theorem Ty.accepts_trans {expected actual : Ty} {value : Value}
    (hexpected : expected.accepts actual = true) (hactual : actual.accepts value.type = true) :
    expected.accepts value.type = true := by
  induction value using Value.induction generalizing expected actual with
  | array items ih =>
      rw [Value.type_array_itemType] at hactual ⊢
      cases actual with
      | value =>
          obtain rfl := accepts_value_iff.mp hexpected
          exact value_accepts _
      | array actualItem actualLength =>
          cases expected with
          | value => exact value_accepts _
          | array item length =>
              rw [array_accepts_array_iff] at hexpected hactual ⊢
              obtain ⟨hitem, hlength⟩ := hexpected
              obtain ⟨hactualItem, hactualLength⟩ := hactual
              refine ⟨?_, ?_⟩
              · -- The common type of items is the type of one of them or the universal type.
                rcases hactualItem with hempty | hactualItem
                · exact .inl hempty
                rcases hitem with ⟨rfl, rfl⟩ | hitem
                · have hnil : items = [] := by simpa [eq_comm] using hactualLength
                  simp [hnil]
                rcases Value.itemType_cases items with hvalue | ⟨member, hmember, htype⟩
                · rw [hvalue, accepts_value_iff] at hactualItem
                  rw [hactualItem, accepts_value_iff] at hitem
                  exact .inr (hitem ▸ value_accepts _)
                · rw [htype] at hactualItem ⊢
                  exact .inr (ih member hmember hitem hactualItem)
              · rcases hlength with rfl | rfl
                · exact .inl rfl
                · exact hactualLength
          | _ => simp [accepts] at hexpected
      | _ => simp [accepts] at hactual
  | _ =>
      rcases (accepts_iff_of_ne_array (by simp [Value.type])).mp hactual with rfl | rfl
      · obtain rfl := accepts_value_iff.mp hexpected
        exact value_accepts _
      · exact hexpected

/-- A type accepts the types of all values that a type it accepts has, whatever arrays are nested in
it, and it accepts itself. -/
theorem Ty.accepts_sound :
    (∀ (expected actual : Ty) (value : Value), expected.accepts actual = true →
      actual.accepts value.type = true → expected.accepts value.type = true) ∧
    ∀ ty : Ty, ty.accepts ty = true :=
  ⟨fun _ _ _ hexpected hactual ↦ accepts_trans hexpected hactual, accepts_self⟩

/-- An array of empty arrays has the type of arrays of them, and with it that of arrays of arrays of
numbers. -/
theorem Ty.accepts_sound_nested :
    ∃ expected actual : Ty, ∃ value : Value,
      expected = .array (.array .number none) none ∧
      actual = .array (.array .value (some 0)) none ∧
      value = .array [.array [], .array []] ∧
      expected.accepts actual = true ∧ actual.accepts value.type = true ∧
      expected.accepts value.type = true :=
  ⟨_, _, _, rfl, rfl, rfl, rfl, rfl,
    Ty.accepts_sound.1 _ (.array (.array .value (some 0)) none) _ rfl rfl⟩

/-- Between types alone the check is not transitive, as an empty array of values fits everywhere. -/
example :
    (Ty.array .number none).accepts (.array .value (some 0)) = true ∧
      (Ty.array .value (some 0)).accepts (.array .string (some 0)) = true ∧
      (Ty.array .number none).accepts (.array .string (some 0)) = false := by
  decide

end StyleLang
