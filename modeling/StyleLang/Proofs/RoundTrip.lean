import StyleLang.Proofs.Equality
import StyleLang.Proofs.Reading
import StyleLang.Value.Parts
import StyleLang.Value.Text

/-!
# Reading written values

Whatever the layout, a written value is the text of one JSON tree (`Value.ofText?_write`), in which
colors are strings and numbers without a numeral are null. A value without these is read back from
its text as an equal value, if it nests no deeper than a text may (`Value.exists_ofText?_eq`).
-/

namespace StyleLang.Value

mutual

/-- The JSON tree that a value is written as. -/
def toJson : Value → Json
  | .null => .null
  | .bool value => .bool value
  | .number value => (value.numeral?.map .number).getD .null
  | .string text => .string (some text)
  | .color c => .string (some c.css)
  | .array items => .array (toJsonItems items)
  | .object fields => .object (toJsonMembers fields)

/-- The trees of the items of an array. -/
def toJsonItems : List Value → List Json
  | [] => []
  | item :: items => toJson item :: toJsonItems items

/-- The members of an object, in the order of its keys. -/
def toJsonMembers : SortedMap Value → List (Option String × Json)
  | ⟨keys, _, value⟩ => List.ofFn fun i ↦ (some (keys.get i), toJson (value i))

end

theorem toJsonItems_eq_map (items : List Value) : toJsonItems items = items.map toJson := by
  induction items with
  | nil => rw [toJsonItems, List.map_nil]
  | cons item items ih => rw [toJsonItems, List.map_cons, ih]

theorem toJsonMembers_eq_map (fields : SortedMap Value) :
    toJsonMembers fields = fields.entries.map fun (key, value) ↦ (some key, value.toJson) := by
  obtain ⟨keys, hsorted, value⟩ := fields
  simp [toJsonMembers, SortedMap.entries, List.map_ofFn, Function.comp_def]

/-! ## Writing -/

variable {layout : Json.Layout}

/-- The written text of a value spells the tokens of its tree. -/
theorem spells_write (hlayout : layout.Blank) (value : Value) (depth : Nat) :
    Scanner.Spells (value.write layout depth).toList value.toJson.tokens := by
  induction value using Value.induction generalizing depth with
  | null =>
      rw [write, toJson, Json.tokens]
      exact Scanner.spells_null
  | bool value =>
      rw [write, toJson, Json.tokens]
      exact Scanner.spells_bool value
  | number value =>
      rw [write, toJson, Binary64.jsonText]
      cases value.numeral? with
      | none =>
          exact Scanner.spells_null
      | some numeral =>
          exact Scanner.spells_numeral numeral
  | string text =>
      rw [write, toJson, Json.tokens]
      exact Scanner.spells_quote text
  | color c =>
      rw [write, toJson, Json.tokens]
      exact Scanner.spells_quote c.css
  | array items ih =>
      rw [write, toJson, Json.tokens, writeItems_eq_map, toJsonItems_eq_map,
        Json.tokensOfItems_eq_map]
      apply Scanner.spells_array hlayout
      rw [List.map_map, List.forall₂_map_left_iff, List.forall₂_map_right_iff, List.forall₂_same]
      exact fun item hitem ↦ ih item hitem (depth + 1)
  | object fields ih =>
      have hmembers : List.Forall₂
          (fun member tokens ↦ member.1 = tokens.1 ∧ Scanner.Spells member.2.toList tokens.2)
          (fields.entries.map fun (key, value) ↦ (key, value.write layout (depth + 1)))
          (fields.entries.map fun (key, value) ↦ (key, value.toJson.tokens)) := by
        rw [List.forall₂_map_left_iff, List.forall₂_map_right_iff, List.forall₂_same]
        intro entry hentry
        obtain ⟨i, rfl⟩ := SortedMap.mem_entries_iff.mp hentry
        exact ⟨rfl, ih i (depth + 1)⟩
      have hobject := Scanner.spells_object hlayout depth hmembers
      rw [List.map_map] at hobject
      rw [write, toJson, Json.tokens, writeFields_eq_map, toJsonMembers_eq_map,
        Json.tokensOfMembers_eq_map, List.map_map]
      exact hobject

/-- A written value is read as its tree. -/
theorem ofText?_write (hlayout : layout.Blank) (value : Value) (depth : Nat) :
    Json.ofText? (value.write layout depth) = some value.toJson :=
  Json.ofText?_of_spells (spells_write hlayout value depth)

/-! ## Reading -/

/-- A value that JSON can hold: no part is a color, and every number is an integer of magnitude at
most `2 ^ 53`. -/
structure Plain (value : Value) : Prop where
  noColor : ∀ c, .color c ∉ value.parts
  isInteger : ∀ x, .number x ∈ value.parts → x.IsInteger

/-- The children of a plain value are plain. -/
theorem Plain.child {value child : Value} (h : value.Plain) (hchild : child ∈ value.children) :
    child.Plain where
  noColor c hc := h.noColor c (mem_parts_iff.mpr (.inr ⟨child, hchild, hc⟩))
  isInteger x hx := h.isInteger x (mem_parts_iff.mpr (.inr ⟨child, hchild, hx⟩))

/-- A value is plain if it is itself and its children are. -/
theorem plain_of_children {value : Value} (hcolor : ∀ c, value ≠ .color c)
    (hnumber : ∀ x, value = .number x → x.IsInteger)
    (hchildren : ∀ child ∈ value.children, child.Plain) : value.Plain where
  noColor c hc := by
    rcases mem_parts_iff.mp hc with heq | ⟨child, hchild, hc⟩
    · exact hcolor c heq.symm
    · exact (hchildren child hchild).noColor c hc
  isInteger x hx := by
    rcases mem_parts_iff.mp hx with heq | ⟨child, hchild, hx⟩
    · exact hnumber x heq.symm
    · exact (hchildren child hchild).isInteger x hx

theorem plain_null : Value.null.Plain :=
  plain_of_children (by simp) (by simp) (by simp [children])

theorem plain_number {x : Binary64} (h : x.IsInteger) : (Value.number x).Plain :=
  plain_of_children (by simp) (by simpa using h) (by simp [children])

theorem plain_array {items : List Value} (h : ∀ item ∈ items, item.Plain) :
    (Value.array items).Plain :=
  plain_of_children (by simp) (by simp) h

theorem plain_object {fields : SortedMap Value} (h : ∀ entry ∈ fields.entries, entry.2.Plain) :
    (Value.object fields).Plain :=
  plain_of_children (by simp) (by simp) (List.forall_mem_map.mpr h)

/-- The trees of values that are read back equal are read as a list of equal values. -/
theorem exists_ofItems? {items : List Value} {depth : Nat}
    (h : ∀ item ∈ items, ∃ w, ofJson? item.toJson depth = some w ∧ (w == item) = true) :
    ∃ ws, ofItems? (items.map toJson) depth = some ws ∧
      List.Forall₂ (fun w item ↦ (w == item) = true) ws items := by
  induction items with
  | nil => exact ⟨[], rfl, .nil⟩
  | cons item items ih =>
      obtain ⟨hitem, hitems⟩ := List.forall_mem_cons.mp h
      obtain ⟨w, hw, heq⟩ := hitem
      obtain ⟨ws, hws, heqs⟩ := ih hitems
      refine ⟨w :: ws, ?_, .cons heq heqs⟩
      rw [List.map_cons, ofItems?, hw, hws]
      rfl

/-- The members of entries whose values are read back equal are read as entries with the same keys
and equal values. -/
theorem exists_ofMembers? {entries : List (String × Value)} {depth : Nat}
    (h : ∀ entry ∈ entries,
      ∃ w, ofJson? entry.2.toJson depth = some w ∧ (w == entry.2) = true) :
    ∃ ws, ofMembers? (entries.map fun (key, value) ↦ (some key, value.toJson)) depth = some ws ∧
      List.Forall₂ (fun w entry ↦ w.1 = entry.1 ∧ (w.2 == entry.2) = true) ws entries := by
  induction entries with
  | nil => exact ⟨[], rfl, .nil⟩
  | cons entry entries ih =>
      obtain ⟨hentry, hentries⟩ := List.forall_mem_cons.mp h
      obtain ⟨w, hw, heq⟩ := hentry
      obtain ⟨ws, hws, heqs⟩ := ih hentries
      refine ⟨(entry.1, w) :: ws, ?_, .cons ⟨rfl, heq⟩ heqs⟩
      rw [List.map_cons, ofMembers?, hw, hws]
      rfl

/-- The map of entries that have the keys of another map in order lists these entries. -/
theorem entries_ofEntries_of_forall₂ {fields : SortedMap Value} {ws : List (String × Value)}
    (h : List.Forall₂ (fun w entry ↦ w.1 = entry.1 ∧ (w.2 == entry.2) = true) ws fields.entries) :
    (SortedMap.ofEntries ws).entries = ws := by
  have hkeys : ws.map (·.1) = fields.keys := by
    rw [← SortedMap.map_fst_entries, ← List.forall₂_eq_eq_eq, List.forall₂_map_left_iff,
      List.forall₂_map_right_iff]
    exact h.imp fun _ _ hentry ↦ hentry.1
  exact SortedMap.entries_ofEntries (hkeys ▸ fields.sorted)

/-- A plain value is read back from its tree as an equal value, where its depth is allowed. -/
theorem Plain.exists_ofJson? {value : Value} (h : value.Plain) {depth : Nat}
    (hdepth : value.depth ≤ depth) :
    ∃ w, ofJson? value.toJson depth = some w ∧ (w == value) = true := by
  induction value using Value.induction generalizing depth with
  | null => exact ⟨.null, by rw [toJson, ofJson?], rfl⟩
  | bool value => exact ⟨.bool value, by rw [toJson, ofJson?], beq_self_eq_true value⟩
  | number x =>
      have hinteger := h.isInteger x (mem_parts_iff.mpr (.inl rfl))
      obtain ⟨numeral, y, hnumeral, hy, hplace⟩ := hinteger.exists_toBinary64?
      obtain ⟨n, -, hx⟩ := hinteger
      refine ⟨.number y, ?_, ?_⟩
      · rw [toJson, hnumeral, Option.map_some, Option.getD_some, ofJson?, hy, Option.map_some]
      · show (y == x) = true
        exact Binary64.beq_iff.mpr ⟨_, hplace.trans hx, hx⟩
  | string text => exact ⟨.string text, by rw [toJson, ofJson?]; rfl, beq_self_eq_true text⟩
  | color c => exact absurd (mem_parts_iff.mpr (.inl rfl)) (h.noColor c)
  | array items ih =>
      have hnested : 0 < (Value.array items).depth := by simp [Value.depth]
      obtain ⟨n, rfl⟩ := exists_eq_succ_of_depth_le hdepth hnested
      obtain ⟨ws, hws, heq⟩ := exists_ofItems? fun item hitem ↦
        ih item hitem (h.child hitem) (depth_le_succ_iff.mp hdepth item hitem)
      refine ⟨.array ws, ?_, array_beq_iff.mpr heq⟩
      rw [toJson, toJsonItems_eq_map, ofJson?, hws, Option.map_some]
  | object fields ih =>
      have hnested : 0 < (Value.object fields).depth := by simp [Value.depth]
      obtain ⟨n, rfl⟩ := exists_eq_succ_of_depth_le hdepth hnested
      obtain ⟨ws, hws, heq⟩ : ∃ ws, ofMembers? (toJsonMembers fields) n = some ws ∧
          List.Forall₂ (fun w entry ↦ w.1 = entry.1 ∧ (w.2 == entry.2) = true) ws
            fields.entries := by
        rw [toJsonMembers_eq_map]
        refine exists_ofMembers? fun entry hentry ↦ ?_
        obtain ⟨i, rfl⟩ := SortedMap.mem_entries_iff.mp hentry
        have hchild : fields.value i ∈ (Value.object fields).children :=
          mem_map_snd_entries.mpr ⟨i, rfl⟩
        exact ih i (h.child hchild) (depth_le_succ_iff.mp hdepth _ hchild)
      refine ⟨.object (.ofEntries ws), ?_, object_beq_iff.mpr ?_⟩
      · rw [toJson, ofJson?, hws, Option.map_some]
        rfl
      · rw [entries_ofEntries_of_forall₂ heq]
        exact heq

/-- A plain value that nests no deeper than a text may is read back from its text in both layouts,
as a value that is equal to it. -/
theorem exists_ofText?_eq {value : Value} (h : value.Plain) (hdepth : value.depth ≤ maxDepth) :
    ∃ w, ofText? value.text = some w ∧ ofText? value.indentedText = some w ∧
      (w == value) = true := by
  obtain ⟨w, hw, heq⟩ := h.exists_ofJson? hdepth
  refine ⟨w, ?_, ?_, heq⟩
  · rw [ofText?, text, ofText?_write Json.Layout.compact_blank, Option.bind_some, hw]
  · rw [ofText?, indentedText, ofText?_write Json.Layout.indented_blank, Option.bind_some, hw]

/-- An object of an empty key with a negative zero, and a key with escapes whose value is an array
with an empty array and the greatest integer. -/
theorem exists_ofText?_eq_nested :
    ∃ value : Value,
      value = .object (.ofEntries [("", .number (.zero true)),
        ("\"\n\u0001é", .array [.array [], .number (.ofNat Binary64.greatestInteger), .null])]) ∧
      ∃ w, ofText? value.text = some w ∧ ofText? value.indentedText = some w ∧
        (w == value) = true := by
  have hzero : (Binary64.zero true).IsInteger := Binary64.isInteger_iff.mpr
    ⟨true, ⟨0, by decide⟩, 0, rfl, by decide, Binary64.units_zero.trans (Nat.zero_mul _).symm⟩
  have hgreatest : (Binary64.ofNat Binary64.greatestInteger).IsInteger := Binary64.isInteger_iff.mpr
    ⟨false, Binary64.greatestRank, _, Binary64.ofNat_of_units Binary64.units_greatestRank,
      Nat.le_refl _, Binary64.units_greatestRank⟩
  refine ⟨_, rfl, exists_ofText?_eq (plain_object ?_) (by decide)⟩
  rw [SortedMap.entries_ofEntries (by decide), List.forall_mem_cons, List.forall_mem_singleton]
  refine ⟨plain_number hzero, plain_array ?_⟩
  rw [List.forall_mem_cons, List.forall_mem_cons, List.forall_mem_singleton]
  exact ⟨plain_array (by simp), plain_number hgreatest, plain_null⟩

end StyleLang.Value
