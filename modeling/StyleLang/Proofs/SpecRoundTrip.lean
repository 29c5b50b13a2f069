import StyleLang.Proofs.RoundTrip
import StyleLang.Property.Text

/-!
# Reading written specifications

The text of a specification is that of one JSON object (`PropertySpec.ofText?_text`), which has a
member for every part that is present. Each part is read back from its member, but a default of null
is read as an absent one, as null is for every optional part
(`PropertySpec.exists_ofText?_withoutNullDefault`).
-/

namespace StyleLang

/-- Of plain values only null is written as null. -/
theorem Value.Plain.toJson_ne_null {value : Value} (h : value.Plain)
    (hnull : value.isNull = false) : value.toJson ≠ .null := by
  cases value with
  | null => cases hnull
  | number x =>
      obtain ⟨numeral, -, hnumeral, -⟩ :=
        (h.isInteger x (Value.mem_parts_iff.mpr (.inl rfl))).exists_toBinary64?
      rw [toJson, hnumeral]
      simp
  | _ => simp [toJson]

namespace PropertySpec

/-- The tree of a text. -/
def ofString (text : String) : Json :=
  .string (some text)

/-- The tree of a length. -/
def ofLength (length : UInt64) : Json :=
  .number ⟨false, length.toNat, [], none⟩

/-- The parts of a specification that are present, with their names and trees. -/
def parts (spec : PropertySpec) : List (String × Json) :=
  [("type", ofString spec.kind)] ++
    (spec.value.map fun item ↦ ("value", ofString item)).toList ++
    (spec.length.map fun length ↦ ("length", ofLength length)).toList ++
    (spec.default.map fun value ↦ ("default", value.toJson)).toList

/-- The JSON tree that a specification is written as. -/
def toJson (spec : PropertySpec) : Json :=
  .object (spec.parts.map fun (name, json) ↦ (some name, json))

/-! ## Writing -/

/-- The digits of a length spell its numeral. -/
theorem spells_length (length : UInt64) :
    Scanner.Spells (Digit.text (Digit.ofNat length.toNat)).toList (ofLength length).tokens := by
  have htext : Numeral.text ⟨false, length.toNat, [], none⟩ =
      Digit.text (Digit.ofNat length.toNat) := by
    simp [Numeral.text, Numeral.exponentText]
  rw [← htext, ofLength, Json.tokens]
  exact Scanner.spells_numeral _

theorem spells_text (text : String) :
    Scanner.Spells (Json.quote text).toList (ofString text).tokens := by
  rw [ofString, Json.tokens]
  exact Scanner.spells_quote text

/-- A part that is written as its tree, if it is present. -/
theorem forall₂_optional {α : Type} (name : String) {write : α → String} {encode : α → Json}
    (h : ∀ x, Scanner.Spells (write x).toList (encode x).tokens) (part : Option α) :
    List.Forall₂ (fun member part ↦
        member.1 = part.1 ∧ Scanner.Spells member.2.toList part.2.tokens)
      (part.map fun x ↦ (name, write x)).toList (part.map fun x ↦ (name, encode x)).toList := by
  cases part with
  | none => exact .nil
  | some x => exact .cons ⟨rfl, h x⟩ .nil

/-- Each present part is written as its tree. -/
theorem forall₂_members_parts (spec : PropertySpec) :
    List.Forall₂ (fun member part ↦
        member.1 = part.1 ∧ Scanner.Spells member.2.toList part.2.tokens)
      spec.members spec.parts := by
  have hkind := forall₂_optional "type" spells_text (some spec.kind)
  have hvalue := forall₂_optional "value" spells_text spec.value
  have hlength := forall₂_optional "length" spells_length spec.length
  have hdefault := forall₂_optional "default"
    (fun value ↦ Value.spells_write Json.Layout.compact_blank value 0) spec.default
  exact List.rel_append (List.rel_append (List.rel_append hkind hvalue) hlength) hdefault

/-- A written specification is read as its tree. -/
theorem ofText?_text (spec : PropertySpec) : Json.ofText? spec.text = some spec.toJson := by
  have htokens : List.Forall₂
      (fun member tokens ↦ member.1 = tokens.1 ∧ Scanner.Spells member.2.toList tokens.2)
      spec.members (spec.parts.map fun (name, json) ↦ (name, json.tokens)) := by
    rw [List.forall₂_map_right_iff]
    exact spec.forall₂_members_parts
  have hobject := Scanner.spells_object Json.Layout.compact_blank 0 htokens
  apply Json.ofText?_of_spells
  rw [List.map_map] at hobject
  rw [toJson, Json.tokens, Json.tokensOfMembers_eq_map, List.map_map]
  exact hobject

/-! ## Reading -/

theorem named_append (name : String) (members more : List (String × Json)) :
    named name (members ++ more) = named name members ++ named name more := by
  simp [named]

/-- A part is found under its own name only. -/
theorem named_optional {α : Type} (name other : String) (encode : α → Json) (part : Option α) :
    named name (part.map fun x ↦ (other, encode x)).toList =
      if other = name then (part.map encode).toList else [] := by
  cases part with
  | none => simp [named]
  | some x => by_cases h : other = name <;> simp [named, h]

theorem unique?_of_named {name : String} {members : List (String × Json)} {part : Option Json}
    (h : named name members = part.toList) : unique? name members = some part := by
  rw [unique?, h]
  cases part <;> rfl

theorem named_parts (name : String) (spec : PropertySpec) :
    named name spec.parts =
      (if "type" = name then [ofString spec.kind] else []) ++
        (if "value" = name then (spec.value.map ofString).toList else []) ++
        (if "length" = name then (spec.length.map ofLength).toList else []) ++
        (if "default" = name then (spec.default.map Value.toJson).toList else []) := by
  have htype := named_optional name "type" ofString (some spec.kind)
  rw [parts, named_append, named_append, named_append, named_optional, named_optional,
    named_optional]
  exact congrArg (· ++ _ ++ _ ++ _) htype

/-- The names of written members are texts. -/
theorem mapM_names (members : List (String × Json)) :
    (members.map fun (name, json) ↦ (some name, json)).mapM
      (fun (name, json) ↦ name.map (·, json)) = some members := by
  have hpure : members.mapM (fun member ↦ (pure member : Option _)) = pure (members.map id) :=
    List.mapM_pure
  rw [List.map_id] at hpure
  rw [List.mapM_map]
  exact hpure

/-- Each part is read from the only member with its name. -/
theorem ofJson?_toJson (spec : PropertySpec) :
    ofJson? spec.toJson = ofParts? (some (ofString spec.kind)) (spec.value.map ofString)
      (spec.length.map ofLength) (spec.default.map Value.toJson) := by
  have htype : unique? "type" spec.parts = some (some (ofString spec.kind)) :=
    unique?_of_named (by simp [named_parts])
  have hvalue : unique? "value" spec.parts = some (spec.value.map ofString) :=
    unique?_of_named (by simp [named_parts])
  have hlength : unique? "length" spec.parts = some (spec.length.map ofLength) :=
    unique?_of_named (by simp [named_parts])
  have hdefault : unique? "default" spec.parts = some (spec.default.map Value.toJson) :=
    unique?_of_named (by simp [named_parts])
  rw [toJson, ofJson?, mapM_names]
  show (unique? "type" spec.parts).bind _ = _
  rw [htype, hvalue, hlength, hdefault]
  rfl

theorem readText?_ofString (text : String) : readText? (ofString text) = some text :=
  rfl

/-- A length is read back from its numeral. -/
theorem readLength?_ofLength (length : UInt64) : readLength? (ofLength length) = some length := by
  show (if length.toNat < UInt64.size then some (UInt64.ofNat length.toNat) else none) = _
  rw [if_pos length.toNat_lt, UInt64.ofNat_toNat]

theorem readOptional?_of_ne_null {α : Type} {read? : Json → Option α} {json : Json}
    (h : json ≠ .null) : readOptional? read? (some json) = (read? json).map some := by
  cases json with
  | null => exact absurd rfl h
  | _ => rfl

/-- An optional part is read back, if the part is when it is present, and is not written as null. -/
theorem readOptional?_map {α : Type} {read? : Json → Option α} {encode : α → Json}
    {part : Option α} (h : ∀ x ∈ part, encode x ≠ .null ∧ read? (encode x) = some x) :
    readOptional? read? (part.map encode) = some part := by
  cases part with
  | none => rfl
  | some x =>
      obtain ⟨hnull, hread⟩ := h x rfl
      rw [Option.map_some, readOptional?_of_ne_null hnull, hread, Option.map_some]

/-- A default is read back as an equal value, unless it is null. -/
theorem exists_readOptional?_default {default : Option Value}
    (h : ∀ value ∈ default, value.Plain ∧ value.depth ≤ Value.maxDepth - 1) :
    ∃ read, readOptional? readDefault? (default.map Value.toJson) = some read ∧
      (read == default.filter (!·.isNull)) = true := by
  cases default with
  | none => exact ⟨none, rfl, rfl⟩
  | some value =>
      obtain ⟨hplain, hdepth⟩ := h value rfl
      cases hnull : value.isNull with
      | true =>
          have hvalue : value = .null := by
            cases value with
            | null => rfl
            | _ => cases hnull
          subst hvalue
          exact ⟨none, by rw [Option.map_some, Value.toJson]; rfl, rfl⟩
      | false =>
          obtain ⟨w, hw, heq⟩ := hplain.exists_ofJson? hdepth
          refine ⟨some w, ?_, ?_⟩
          · rw [Option.map_some, readOptional?_of_ne_null (hplain.toJson_ne_null hnull),
              readDefault?, hw, Option.map_some]
          · rw [Option.filter_some_pos (by rw [hnull]; rfl)]
            exact heq

/-- The specification without a default that is null. -/
def withoutNullDefault (spec : PropertySpec) : PropertySpec :=
  { spec with default := spec.default.filter (!·.isNull) }

/-- A specification whose default is plain and nests less deep than a text may is read back from its
text, but for a default that is null, which is read as an absent one. -/
theorem exists_ofText?_withoutNullDefault {spec : PropertySpec}
    (h : ∀ value ∈ spec.default, value.Plain ∧ value.depth ≤ Value.maxDepth - 1) :
    ∃ read, ofText? spec.text = some read ∧ (read == spec.withoutNullDefault) = true := by
  obtain ⟨default, hread, hdefault⟩ := exists_readOptional?_default h
  have hvalue : readOptional? readText? (spec.value.map ofString) = some spec.value :=
    readOptional?_map fun text _ ↦ ⟨by simp [ofString], readText?_ofString text⟩
  have hlength : readOptional? readLength? (spec.length.map ofLength) = some spec.length :=
    readOptional?_map fun length _ ↦ ⟨by simp [ofLength], readLength?_ofLength length⟩
  refine ⟨{ spec with default := default }, ?_, ?_⟩
  · rw [ofText?, ofText?_text, Option.bind_some, ofJson?_toJson, ofParts?, hvalue, hlength, hread]
    rfl
  · show (spec.kind == spec.kind && spec.value == spec.value && spec.length == spec.length &&
      default == spec.default.filter (!·.isNull)) = true
    rw [hdefault, beq_self_eq_true, beq_self_eq_true, beq_self_eq_true]
    rfl

/-- A specification with all four parts, whose length is the greatest of 64 bits. -/
theorem exists_ofText?_withoutNullDefault_array :
    ∃ spec : PropertySpec,
      spec = {
        kind := "array"
        value := some "number"
        length := some 18446744073709551615
        default := some (.array [.number 1, .null]) } ∧
      ∃ read, ofText? spec.text = some read ∧ (read == spec.withoutNullDefault) = true := by
  have hone : (1 : Binary64).IsInteger := Binary64.isInteger_iff.mpr
    ⟨false, Binary64.oneRank, 1, Binary64.one_eq, by decide,
      Binary64.units_oneRank.trans (Nat.one_mul _).symm⟩
  refine ⟨_, rfl, exists_ofText?_withoutNullDefault ?_⟩
  rintro value ⟨⟩
  refine ⟨Value.plain_array ?_, by decide⟩
  rw [List.forall_mem_cons, List.forall_mem_singleton]
  exact ⟨Value.plain_number hone, Value.plain_null⟩

/-- A default of null is written, but read as an absent default. -/
theorem ofText?_null_default_ne :
    ∃ spec : PropertySpec,
      spec = { kind := "number", default := some .null } ∧
      (∀ value ∈ spec.default, value.Plain ∧ value.depth ≤ Value.maxDepth - 1) ∧
      ofText? spec.text = some { kind := "number" } ∧
      (({ kind := "number" } : PropertySpec) == spec) = false := by
  refine ⟨_, rfl, ?_, ?_, rfl⟩
  · rintro value ⟨⟩
    exact ⟨Value.plain_null, Nat.zero_le _⟩
  · rw [ofText?, ofText?_text, Option.bind_some, ofJson?_toJson, Option.map_some, Value.toJson]
    rfl

end PropertySpec

end StyleLang
