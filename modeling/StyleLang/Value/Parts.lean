import StyleLang.Value.Basic

/-!
# Parts of values

A value and all that is in it, and how deep its arrays and objects nest. `Value.mem_parts_iff` and
`Value.depth_le_succ_iff` read both off the children of a value: the items of an array and the
values of the fields of an object.
-/

namespace StyleLang.Value

/-- The items of an array, or the values of the fields of an object in the order of their keys. -/
def children : Value → List Value
  | .array items => items
  | .object fields => fields.entries.map (·.2)
  | _ => []

mutual

/-- A value and all values in it, at any depth. -/
def parts : Value → List Value
  | .null => [.null]
  | .bool value => [.bool value]
  | .number value => [.number value]
  | .string text => [.string text]
  | .color c => [.color c]
  | .array items => .array items :: partsOfItems items
  | .object fields => .object fields :: partsOfFields fields

/-- The parts of items, one item after the other. -/
def partsOfItems : List Value → List Value
  | [] => []
  | item :: items => parts item ++ partsOfItems items

/-- The parts of the values of fields, one field after the other. -/
def partsOfFields : SortedMap Value → List Value
  | ⟨_, _, value⟩ => (List.ofFn fun i ↦ parts (value i)).flatten

end

mutual

/-- How deep arrays and objects nest in a value. -/
def depth : Value → Nat
  | .array items => depthOfItems items + 1
  | .object fields => depthOfFields fields + 1
  | .null | .bool _ | .number _ | .string _ | .color _ => 0

/-- The depth of the deepest item. -/
def depthOfItems : List Value → Nat
  | [] => 0
  | item :: items => (depth item).max (depthOfItems items)

/-- The depth of the value of the deepest field. -/
def depthOfFields : SortedMap Value → Nat
  | ⟨_, _, value⟩ => (List.ofFn fun i ↦ depth (value i)).foldr Nat.max 0

end

/-- The values of fields are those at each position. -/
theorem mem_map_snd_entries {fields : SortedMap Value} {child : Value} :
    child ∈ fields.entries.map (·.2) ↔ ∃ i, fields.value i = child := by
  simp [SortedMap.entries, List.map_ofFn, Function.comp_def]

/-- A property of all values follows if it passes from the children of a value to the value. -/
@[elab_as_elim]
theorem induction_children {motive : Value → Prop}
    (step : ∀ value : Value, (∀ child ∈ value.children, motive child) → motive value)
    (value : Value) : motive value := by
  induction value using Value.induction with
  | array items ih => exact step _ ih
  | object fields ih =>
      refine step _ fun child hchild ↦ ?_
      obtain ⟨i, rfl⟩ := mem_map_snd_entries.mp hchild
      exact ih i
  | _ => exact step _ (by simp [children])

theorem partsOfItems_eq_flatMap (items : List Value) :
    partsOfItems items = items.flatMap parts := by
  induction items with
  | nil => rw [partsOfItems, List.flatMap_nil]
  | cons item items ih => rw [partsOfItems, List.flatMap_cons, ih]

theorem partsOfFields_eq_flatMap (fields : SortedMap Value) :
    partsOfFields fields = fields.entries.flatMap fun entry ↦ entry.2.parts := by
  obtain ⟨keys, hsorted, value⟩ := fields
  simp [partsOfFields, SortedMap.entries, List.flatMap_def, List.map_ofFn, Function.comp_def]

theorem mem_partsOfItems {part : Value} {items : List Value} :
    part ∈ partsOfItems items ↔ ∃ item ∈ items, part ∈ item.parts := by
  induction items with
  | nil => simp [partsOfItems]
  | cons item items ih => simp [partsOfItems, ih]

theorem mem_partsOfFields {part : Value} {fields : SortedMap Value} :
    part ∈ partsOfFields fields ↔ ∃ i, part ∈ (fields.value i).parts := by
  obtain ⟨keys, hsorted, value⟩ := fields
  rw [partsOfFields, List.mem_flatten]
  constructor
  · rintro ⟨_, hmem, hpart⟩
    obtain ⟨i, rfl⟩ := List.mem_ofFn.mp hmem
    exact ⟨i, hpart⟩
  · rintro ⟨i, hpart⟩
    exact ⟨_, List.mem_ofFn.mpr ⟨i, rfl⟩, hpart⟩

/-- The parts of a value are itself and the parts of its children. -/
theorem mem_parts_iff {part value : Value} :
    part ∈ value.parts ↔ part = value ∨ ∃ child ∈ value.children, part ∈ child.parts := by
  cases value with
  | array items => simp [parts, children, mem_partsOfItems]
  | object fields =>
      rw [parts, List.mem_cons, mem_partsOfFields, children]
      refine or_congr_right ⟨fun ⟨i, hpart⟩ ↦ ?_, fun ⟨child, hchild, hpart⟩ ↦ ?_⟩
      · exact ⟨_, mem_map_snd_entries.mpr ⟨i, rfl⟩, hpart⟩
      · obtain ⟨i, rfl⟩ := mem_map_snd_entries.mp hchild
        exact ⟨i, hpart⟩
  | _ => simp [parts, children]

/-- The parts of a part of a value are parts of the value. -/
theorem mem_parts_trans {part inner value : Value} (h : part ∈ inner.parts)
    (hinner : inner ∈ value.parts) : part ∈ value.parts := by
  induction value using Value.induction_children with
  | step value ih =>
      rcases mem_parts_iff.mp hinner with rfl | ⟨child, hchild, hinner⟩
      · exact h
      · exact mem_parts_iff.mpr (.inr ⟨child, hchild, ih child hchild hinner⟩)

theorem depthOfItems_le_iff {items : List Value} {n : Nat} :
    depthOfItems items ≤ n ↔ ∀ item ∈ items, item.depth ≤ n := by
  induction items with
  | nil => simp [depthOfItems]
  | cons item items ih => rw [depthOfItems, Nat.max_le, ih, List.forall_mem_cons]

theorem depthOfFields_le_iff {fields : SortedMap Value} {n : Nat} :
    depthOfFields fields ≤ n ↔ ∀ i, (fields.value i).depth ≤ n := by
  have hmax : ∀ depths : List Nat, depths.foldr Nat.max 0 ≤ n ↔ ∀ depth ∈ depths, depth ≤ n := by
    intro depths
    induction depths with
    | nil => simp
    | cons depth depths ih => rw [List.foldr_cons, Nat.max_le, ih, List.forall_mem_cons]
  obtain ⟨keys, hsorted, value⟩ := fields
  rw [depthOfFields, hmax]
  simp [List.mem_ofFn]

/-- A value nests one level deeper than its children. -/
theorem depth_le_succ_iff {value : Value} {n : Nat} :
    value.depth ≤ n + 1 ↔ ∀ child ∈ value.children, child.depth ≤ n := by
  cases value with
  | array items => simp [depth, children, depthOfItems_le_iff]
  | object fields =>
      rw [depth, Nat.succ_le_succ_iff, depthOfFields_le_iff, children]
      refine ⟨fun h child hchild ↦ ?_, fun h i ↦ h _ (mem_map_snd_entries.mpr ⟨i, rfl⟩)⟩
      obtain ⟨i, rfl⟩ := mem_map_snd_entries.mp hchild
      exact h i
  | _ => simp [depth, children]

/-- Arrays and objects nest, if only their own brackets. -/
theorem exists_eq_succ_of_depth_le {value : Value} {n : Nat} (h : value.depth ≤ n)
    (hvalue : 0 < value.depth) : ∃ m, n = m + 1 :=
  Nat.exists_eq_succ_of_ne_zero (Nat.ne_of_gt (Nat.lt_of_lt_of_le hvalue h))

end StyleLang.Value
