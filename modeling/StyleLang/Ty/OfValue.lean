import StyleLang.Ty.Basic
import StyleLang.Value.Basic

/-!
# The types of values

`Value.type` is the least type of a value. The type of an array gives its length, and the type of
its items, which a loop over them finds. `Value.itemType_cons` says what it finds: the type of the
first item if all items have it, and `value` otherwise.
-/

namespace StyleLang.Value

mutual

/-- The type of a value. -/
def type : Value → Ty
  | .null => .null
  | .bool _ => .boolean
  | .number _ => .number
  | .string _ => .string
  | .color _ => .color
  | .object _ => .object
  | .array items => .array ((commonType none items).getD .value) (some items.length)

/-- Goes over items with the type that was found so far. The first item gives the type. An item of
another type makes it `value`, whatever items follow. -/
def commonType (found : Option Ty) : List Value → Option Ty
  | [] => found
  | item :: items =>
      match found with
      | none => commonType (some (type item)) items
      | some ty => if ty = type item then commonType (some ty) items else some .value

end

/-- The type that all items have, or `value` if they have several or there are none. -/
def itemType (items : List Value) : Ty :=
  (commonType none items).getD .value

/-- The type of an array gives the item type and the length. -/
theorem type_array_itemType (items : List Value) :
    (Value.array items).type = .array (itemType items) (some items.length) := by
  rw [type, itemType]

@[simp]
theorem itemType_nil : itemType [] = .value :=
  rfl

/-- A type that was found is kept if the items that follow have it, too. -/
theorem commonType_some (ty : Ty) (items : List Value) :
    commonType (some ty) items = some (if items.all (·.type == ty) then ty else .value) := by
  induction items with
  | nil => rfl
  | cons item items ih =>
      rw [commonType, List.all_cons]
      by_cases hty : ty = item.type
      · rw [if_pos hty, ih, ← hty, beq_self_eq_true, Bool.true_and]
      · have hother : (item.type == ty) = false := beq_false_of_ne (Ne.symm hty)
        rw [if_neg hty, hother]
        rfl

/-- The items of an array have the type of the first one, or several types. -/
theorem itemType_cons (item : Value) (items : List Value) :
    itemType (item :: items) = if items.all (·.type == item.type) then item.type else .value := by
  rw [itemType, commonType, commonType_some, Option.getD_some]

end StyleLang.Value
