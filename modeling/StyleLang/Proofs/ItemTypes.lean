import Mathlib.Tactic.ByContra
import StyleLang.Proofs.Subtyping

/-!
# Types of arrays

The type of an array gives its length and the type that all its items have, or `value` if there is
none. The loop over the items finds it, be it left at the first item of another type or not
(`Value.foundType_eq_commonType`). Hence the order of items does not matter (`Value.type_array`).
-/

namespace StyleLang.Value

/-- The type found in a loop over items like that of `commonType`, which starts with the type that
was found so far. The loop is left at an item of another type, if it has an exit; otherwise it goes
on to the last item. -/
def foundType (exits : Bool) (found : Option Ty) : List Value → Option Ty
  | [] => found
  | item :: items =>
      match found with
      | none => foundType exits (some item.type) items
      | some ty =>
          if ty = item.type then foundType exits (some ty) items
          else if exits then some .value
          else foundType exits (some .value) items

/-- The loop finds the same type with the early exit and without one. -/
theorem foundType_eq_commonType (exits : Bool) (found : Option Ty) (items : List Value) :
    foundType exits found items = commonType found items := by
  induction items generalizing found with
  | nil => rfl
  | cons item items ih =>
      cases found with
      | none => exact ih (some item.type)
      | some ty =>
          rw [foundType, commonType, ih, ih]
          split
          · rfl
          · split
            · rfl
            · -- The items after one of another type do not change the answer.
              rw [commonType_some, ite_self]

/-- The universal type is the type of no value. -/
theorem type_ne_value (value : Value) : value.type ≠ .value := by
  cases value <;> simp [type]

/-- The items of an array have no type in common if there are none, or not all of one type. -/
theorem itemType_eq_value_iff {items : List Value} :
    itemType items = .value ↔ items = [] ∨ ∀ ty, ∃ item ∈ items, item.type ≠ ty := by
  constructor
  · intro hvalue
    refine or_iff_not_imp_left.mpr fun hitems ty ↦ ?_
    by_contra hcommon
    have hall : ∀ item ∈ items, item.type = ty := by simpa using hcommon
    obtain ⟨item, hitem⟩ := List.exists_mem_of_ne_nil items hitems
    refine type_ne_value item ?_
    rw [hall item hitem, ← itemType_of_forall hitems hall, hvalue]
  · intro hmixed
    by_contra hvalue
    rcases hmixed with rfl | hmixed
    · exact hvalue rfl
    · obtain ⟨item, hitem, hne⟩ := hmixed (itemType items)
      exact hne (type_eq_itemType hvalue hitem)

/-- The order of the items does not matter to the type that they have in common. -/
theorem itemType_perm {items other : List Value} (h : items.Perm other) :
    itemType items = itemType other := by
  by_cases hvalue : itemType items = .value
  · rw [hvalue, eq_comm, itemType_eq_value_iff]
    rcases itemType_eq_value_iff.mp hvalue with rfl | hmixed
    · exact .inl h.nil_eq.symm
    · exact .inr fun ty ↦ (hmixed ty).imp fun item hitem ↦ ⟨h.mem_iff.mp hitem.1, hitem.2⟩
  · have hitems : items ≠ [] := by
      rintro rfl
      exact hvalue rfl
    have hother : other ≠ [] := fun hnil ↦ hitems (hnil ▸ h).eq_nil
    exact (itemType_of_forall hother fun item hitem ↦
      type_eq_itemType hvalue (h.mem_iff.mpr hitem)).symm

/-- The type of an array gives the number of its items and the type that all of them have, or `value`
if there is none; a loop over the items finds it with an early exit as without one. It is the same
in whatever order the items stand, and the universal type is the type of no value. -/
theorem type_array :
    (∀ items : List Value, ∃ item,
      (Value.array items).type = .array item (some items.length) ∧
      (∀ ty, items ≠ [] → (∀ value ∈ items, value.type = ty) → item = ty) ∧
      ((items = [] ∨ ∀ ty, ∃ value ∈ items, value.type ≠ ty) → item = .value) ∧
      ∀ exits, (foundType exits none items).getD .value = item) ∧
    (∀ items other : List Value, items.Perm other →
      (Value.array items).type = (Value.array other).type) ∧
    ∀ value : Value, value.type ≠ .value := by
  refine ⟨fun items ↦ ⟨itemType items, ?_, fun ty hitems hall ↦ itemType_of_forall hitems hall,
    itemType_eq_value_iff.mpr, fun exits ↦ ?_⟩, fun items other h ↦ ?_, type_ne_value⟩
  · exact type_array_itemType items
  · rw [itemType, foundType_eq_commonType]
  · rw [type_array_itemType, type_array_itemType, itemType_perm h, h.length_eq]

/-- Numbers with a text among them have no type in common, wherever the text stands. -/
theorem type_array_mixed :
    ∃ text number : Value, text.type = .string ∧ number.type = .number ∧
      (Value.array [number, number, text]).type = .array .value (some 3) ∧
      (Value.array [text, number, number]).type = .array .value (some 3) := by
  have hlast : (Value.array [.number 0, .number 0, .string "a"]).type = .array .value (some 3) :=
    rfl
  have hperm : [Value.string "a", .number 0, .number 0].Perm [.number 0, .number 0, .string "a"] :=
    (List.perm_append_singleton (Value.string "a") [Value.number 0, Value.number 0]).symm
  exact ⟨.string "a", .number 0, rfl, rfl, hlast, (type_array.2.1 _ _ hperm).trans hlast⟩

end StyleLang.Value
