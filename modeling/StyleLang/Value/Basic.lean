import StyleLang.Color.Basic
import StyleLang.SortedMap

/-!
# Values

The values that expressions produce: the data of JSON and colors. `Value.induction` is the induction
over nested values, and `==` compares numbers as numbers do, so NaN differs from itself and the two
zeros are equal.
-/

namespace StyleLang

/-- A value. -/
inductive Value where
  | null
  | bool (value : Bool)
  | number (value : Binary64)
  | string (text : String)
  | color (color : Color)
  | array (items : List Value)
  | object (fields : SortedMap Value)

namespace Value

/-- A property of all values follows if it passes from items to arrays and from fields to
objects. -/
@[elab_as_elim]
theorem induction {motive : Value → Prop} (null : motive .null)
    (bool : ∀ value, motive (.bool value)) (number : ∀ value, motive (.number value))
    (string : ∀ text, motive (.string text)) (color : ∀ color, motive (.color color))
    (array : ∀ items : List Value, (∀ item ∈ items, motive item) → motive (.array items))
    (object : ∀ fields : SortedMap Value, (∀ i, motive (fields.value i)) →
      motive (.object fields)) (value : Value) : motive value := by
  refine Value.rec (motive_1 := motive) (motive_2 := fun items ↦ ∀ item ∈ items, motive item)
    (motive_3 := fun fields ↦ ∀ i, motive (fields.value i))
    null bool number string color array object ?_ ?_ ?_ value
  · simp
  · intro head tail ihHead ihTail
    exact List.forall_mem_cons.mpr ⟨ihHead, ihTail⟩
  · intro keys sorted values ih i
    exact ih i

mutual

/-- The comparison of values. -/
def equal : Value → Value → Bool
  | .null, .null => true
  | .bool a, .bool b => a == b
  | .number a, .number b => a == b
  | .string a, .string b => a == b
  | .color a, .color b => a == b
  | .array a, .array b => equalItems a b
  | .object a, .object b => equalFields a b
  | _, _ => false

/-- The comparison of lists of values, item by item. -/
def equalItems : List Value → List Value → Bool
  | [], [] => true
  | a :: as, b :: bs => equal a b && equalItems as bs
  | _, _ => false

/-- The comparison of fields: the same keys with equal values. -/
def equalFields : SortedMap Value → SortedMap Value → Bool
  | ⟨keys, _, value⟩, other =>
      if h : keys = other.keys then
        (List.ofFn fun i ↦ equal (value i) (other.value (i.cast (congrArg _ h)))).all id
      else false

end

instance : BEq Value :=
  ⟨equal⟩

/-- Whether a value is null. -/
def isNull : Value → Bool
  | .null => true
  | _ => false

/-- Whether a value is an object without fields. -/
def isEmptyObject : Value → Bool
  | .object fields => fields.isEmpty
  | _ => false

/-- The number of an integer, rounded to the nearest. -/
def ofInt (n : Int) : Value :=
  .number (.ofInt n)

end Value

end StyleLang
