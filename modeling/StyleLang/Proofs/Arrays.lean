import StyleLang.Proofs.Numerals
import StyleLang.Proofs.Untyped

/-!
# Array assertions

An assertion of an array type sees of a value no more than its type, which has one type for all
the items. Read item by item (`Ty.array_accepts_type_iff`), it takes the arrays of the right length
whose items have the item type, but arrays in an array only if they are of one type among
themselves. `compileExpression_array` follows the operator from its operands to what its calls
evaluate to.
-/

namespace StyleLang

/-! ## Items -/

namespace Ty

/-- An item type accepts the type that items have in common if it accepts the type of each of them,
and these are the same where arrays are expected. -/
theorem accepts_itemType_iff {item : Ty} {items : List Value} (hitems : items ≠ []) :
    item.accepts (Value.itemType items) = true ↔
      (∀ x ∈ items, item.accepts x.type = true) ∧
        (item.kind = "array" → ∀ x ∈ items, ∀ y ∈ items, x.type = y.type) := by
  by_cases hvalue : item = .value
  · subst hvalue
    simp [kind]
  constructor
  · intro h
    have hcommon : Value.itemType items ≠ .value := by
      intro hitem
      rw [hitem, accepts_value_iff] at h
      exact hvalue h
    have htype : ∀ x ∈ items, x.type = Value.itemType items := fun _ hmem ↦
      Value.type_eq_itemType hcommon hmem
    refine ⟨fun x hx ↦ ?_, fun _ x hx y hy ↦ (htype x hx).trans (htype y hy).symm⟩
    rwa [htype x hx]
  · intro h
    obtain ⟨haccepts, hsame⟩ := h
    obtain ⟨first, hfirst⟩ := List.exists_mem_of_ne_nil items hitems
    have htype : ∀ x ∈ items, x.type = first.type := by
      intro x hx
      by_cases harray : item.kind = "array"
      · exact hsame harray x hx first hfirst
      · -- Every item has the item type itself.
        have hx := (accepts_iff_eq hvalue harray).mp (haccepts x hx)
        exact hx.symm.trans ((accepts_iff_eq hvalue harray).mp (haccepts first hfirst))
    rw [Value.itemType_of_forall hitems htype]
    exact haccepts first hfirst

/-- The values of an array type are the arrays of its length, if it has one, whose items have the
item type, and which are of one type if arrays are expected. -/
theorem array_accepts_type_iff {item : Ty} {length : Option Nat} {value : Value} :
    (array item length).accepts value.type = true ↔
      ∃ items, value = .array items ∧ (length = none ∨ length = some items.length) ∧
        (∀ x ∈ items, item.accepts x.type = true) ∧
        (item.kind = "array" → ∀ x ∈ items, ∀ y ∈ items, x.type = y.type) := by
  cases value with
  | array items =>
      rw [Value.type_array_itemType, array_accepts_array_iff]
      by_cases hitems : items = []
      · subst hitems
        simp
      · have hlength : some items.length ≠ some 0 := by simpa using hitems
        rw [or_iff_right fun hempty ↦ hlength hempty.1, accepts_itemType_iff hitems, and_comm]
        simp
  | _ => simp [Value.type, accepts]

end Ty

/-! ## Values -/

namespace Expr

variable {context : EvalContext} {ty : Ty} {inferred : Bool} {input : Expr}

/-- An array assertion gives the values of its input that have its type. -/
theorem evaluate_wrap_array_eq_ok_iff {value : Value} :
    (Expr.wrap ⟨.array, ty, inferred⟩ input).evaluate context = .ok value ↔
      input.evaluate context = .ok value ∧ ty.accepts value.type = true := by
  rw [evaluate_wrap, bind_eq_ok_iff]
  simp only [Wrapper.apply]
  constructor
  · intro h
    obtain ⟨result, hinput, happly⟩ := h
    split at happly <;> cases happly
    exact ⟨hinput, ‹_›⟩
  · intro h
    obtain ⟨hinput, haccepts⟩ := h
    exact ⟨value, hinput, if_pos haccepts⟩

/-- An array assertion fails as its input does, or because the value of its input does not have its
type. -/
theorem evaluate_wrap_array_eq_error_iff {e : EvalError} :
    (Expr.wrap ⟨.array, ty, inferred⟩ input).evaluate context = .error e ↔
      input.evaluate context = .error e ∨
        ∃ value, input.evaluate context = .ok value ∧ ty.accepts value.type = false ∧
          e = .typeMismatch ty value.type := by
  rw [evaluate_wrap, bind_eq_error_iff]
  simp only [Wrapper.apply]
  refine or_congr_right (exists_congr fun value ↦ and_congr_right fun _ ↦ ?_)
  cases ty.accepts value.type <;> simp [eq_comm]

/-- An assertion of an array type gives exactly the arrays that its input gives, that have its
length, if it has one, and whose items have its item type; and where these are to be arrays, they
must be of one type. -/
theorem evaluate_arrayAssertion_iff {item : Ty} {length : Option Nat} {value : Value} :
    (Expr.wrap ⟨.array, .array item length, inferred⟩ input).evaluate context = .ok value ↔
      input.evaluate context = .ok value ∧
        ∃ items, value = .array items ∧ (length = none ∨ length = some items.length) ∧
          (∀ x ∈ items, item.accepts x.type = true) ∧
          (item.kind = "array" → ∀ x ∈ items, ∀ y ∈ items, x.type = y.type) := by
  rw [evaluate_wrap_array_eq_ok_iff, Ty.array_accepts_type_iff]

/-- Two arrays of different lengths are both arrays, but an assertion of an array of arrays does not
let them pass together. -/
theorem evaluate_arrayAssertion_ragged :
    ∃ item value, Ty.ofKind? "array" = some item ∧
      value = Value.array [.array [.number 1], .array [.number 1, .number 2]] ∧
      (∃ items, value = .array items ∧ ∀ x ∈ items, item.accepts x.type = true) ∧
      (constant value none).evaluate {} = .ok value ∧
      (Expr.wrap ⟨.array, .array item none, false⟩ (constant value none)).evaluate {} =
        .error (.typeMismatch (.array item none) (.array .value (some 2))) :=
  ⟨_, _, rfl, rfl, ⟨_, rfl, by simp [Value.type, Ty.accepts]⟩, rfl, rfl⟩

end Expr

/-! ## Lengths -/

namespace Binary64

/-- The number is finite and equal to a natural number. Both zeros are equal to zero. -/
def IsNatural (x : Binary64) (n : Nat) : Prop :=
  x.isFinite = true ∧ x.place? = some ((n * unitsPerOne : Nat) : Int)

/-- A number is at least zero if its place is. -/
theorem zero_atMost_iff {x : Binary64} :
    atMost 0 x = true ↔ ∃ place, x.place? = some place ∧ 0 ≤ place := by
  rw [atMost, place?_zero]
  cases x.place? <;> simp

theorem isNatural_one : IsNatural 1 1 := by
  refine ⟨by rw [one_eq]; rfl, ?_⟩
  rw [place?_one, Nat.one_mul]

/-- A number is a natural number if it is not negative and its magnitude is one. -/
theorem isNatural_iff {x : Binary64} {n : Nat} :
    x.IsNatural n ↔ atMost 0 x = true ∧ x.integer? = some n := by
  rw [zero_atMost_iff]
  cases x with
  | nan => simp [IsNatural, place?]
  | infinite negative => simp [IsNatural, isFinite, integer?]
  | finite negative rank =>
      rw [integer?_finite_eq_some_iff]
      constructor
      · intro h
        obtain ⟨-, hplace⟩ := h
        have hsigned : signed negative (units rank) = ((n * unitsPerOne : Nat) : Int) :=
          Option.some.inj hplace
        have hmagnitude := natAbs_signed negative (units rank)
        rw [hsigned, Int.natAbs_natCast] at hmagnitude
        exact ⟨⟨_, hplace, Int.natCast_nonneg _⟩, hmagnitude.symm⟩
      · intro h
        obtain ⟨⟨place, hplace, hnonneg⟩, hmagnitude⟩ := h
        obtain rfl : signed negative (units rank) = place := Option.some.inj hplace
        refine ⟨rfl, hplace.trans ?_⟩
        rw [← hmagnitude]
        -- A magnitude of zero is the same with either sign.
        rcases signed_nonneg_iff.mp hnonneg with rfl | hzero
        · rfl
        · rw [hzero]
          cases negative <;> rfl

end Binary64

/-- The value is a number that is equal to a natural number. -/
def Value.IsNatural (value : Value) (n : Nat) : Prop :=
  ∃ x : Binary64, value = .number x ∧ x.IsNatural n

/-- An operand gives a length if and only if it is a natural number, which is the length up to the
greatest. -/
theorem arrayLength?_eq_some_iff {value : Value} {length : Nat} :
    arrayLength? value = some length ↔
      ∃ n, value.IsNatural n ∧ length = min maxArrayLength n := by
  cases value with
  | number x =>
      simp only [arrayLength?, Value.IsNatural, Value.number.injEq, exists_eq_left',
        Binary64.isNatural_iff]
      split
      · rename_i hnonneg
        rw [Option.map_eq_some_iff]
        simp only [hnonneg, true_and, eq_comm]
      · rename_i hnegative
        simp [hnegative]
  | _ => simp [arrayLength?, Value.IsNatural]

/-! ## Calls -/

/-- The item types that can be written. -/
def Ty.itemTypes : List Ty :=
  [.string, .number, .boolean]

theorem arrayItem?_kind {item : Ty} (h : item ∈ Ty.itemTypes) :
    arrayItem? (.string item.kind) = some item := by
  simp only [Ty.itemTypes, List.mem_cons, List.not_mem_nil, or_false] at h
  rcases h with rfl | rfl | rfl <;> rfl

theorem Ty.kind_ne_array_of_mem_itemTypes {item : Ty} (h : item ∈ itemTypes) :
    item.kind ≠ "array" := by
  simp only [itemTypes, List.mem_cons, List.not_mem_nil, or_false] at h
  rcases h with rfl | rfl | rfl <;> simp [kind]

/-- The values of an array type with an item type that can be written. -/
theorem Ty.array_accepts_type_iff_of_mem_itemTypes {item : Ty} (h : item ∈ itemTypes)
    {length : Option Nat} {value : Value} :
    (array item length).accepts value.type = true ↔
      ∃ items, value = .array items ∧ (length = none ∨ length = some items.length) ∧
        ∀ x ∈ items, x.type = item := by
  have harray := kind_ne_array_of_mem_itemTypes h
  have hvalue : item ≠ .value := by
    rintro rfl
    simp [itemTypes] at h
  rw [array_accepts_type_iff]
  simp [accepts_iff_eq hvalue harray, harray, eq_comm]

/-- A call that writes a wrapper compiles where its operand does, and is the wrapper around it. -/
theorem compileExpression_wrap {name : String} {form : Form} {args : List Value}
    {wrapper : Wrapper} {raw : Value} {input : Expr} (hform : Form.ofOperator? name = some form)
    (hwrapper : form.wrapper? args = some (wrapper, raw))
    (h : compileExpression raw none = .ok input) :
    compileExpression (.call name args) none = .ok (.wrap wrapper input) := by
  obtain ⟨core, hcore, hfits⟩ := compileExpression_eq_ok_iff.mp h
  obtain rfl : input = core := hfits
  exact compileExpression_eq_ok_iff.mpr
    ⟨_, .call hform (.wrap hwrapper (Elaborates.value_iff.mpr hcore)), rfl⟩

/-- A call with an operand for the item type. -/
theorem compileExpression_array_item {item : Ty} {raw : Value} {input : Expr}
    (hitem : item ∈ Ty.itemTypes) (h : compileExpression raw none = .ok input) :
    compileExpression (.call "array" [.string item.kind, raw]) none =
      .ok (.wrap ⟨.array, .array item none, false⟩ input) := by
  refine compileExpression_wrap (show Form.ofOperator? "array" = some .array from rfl) ?_ h
  rw [Form.wrapper?, arrayItem?_kind hitem]
  rfl

/-- A call with an operand for the length, too, that is a natural number. -/
theorem compileExpression_array_of_isNatural {item : Ty} {length raw : Value} {input : Expr}
    {n : Nat} (hitem : item ∈ Ty.itemTypes) (hlength : length.IsNatural n)
    (h : compileExpression raw none = .ok input) :
    compileExpression (.call "array" [.string item.kind, length, raw]) none =
      .ok (.wrap ⟨.array, .array item (some (min maxArrayLength n)), false⟩ input) := by
  refine compileExpression_wrap (show Form.ofOperator? "array" = some .array from rfl) ?_ h
  rw [Form.wrapper?, arrayItem?_kind hitem, arrayLength?_eq_some_iff.mpr ⟨n, hlength, rfl⟩]
  rfl

/-- A call with another operand for the length is refused for that. -/
theorem compileExpression_array_of_not_isNatural {item : Ty} {length : Value}
    (hitem : item ∈ Ty.itemTypes) (hlength : ¬ ∃ n, length.IsNatural n) (raw : Value) :
    compileExpression (.call "array" [.string item.kind, length, raw]) none =
      .error [⟨[2], .arrayLength⟩] := by
  have hnone : arrayLength? length = none := by
    rw [Option.eq_none_iff_forall_not_mem]
    intro n hn
    obtain ⟨m, hm, -⟩ := arrayLength?_eq_some_iff.mp hn
    exact hlength ⟨m, hm⟩
  rw [compileExpression_eq_mapError, compile_call rfl, compileForm]
  simp only [arrayType, arrayItem?_kind hitem, hnone]
  rfl

/-- `node.AssertsArrays input fits context` says that in the context an expression gives those
values of its input that are arrays of which `fits` holds, and that it fails otherwise: with the
error of the input, or because the type of its value does not match. -/
def Expr.AssertsArrays (node input : Expr) (fits : List Value → Prop) (context : EvalContext) :
    Prop :=
  (∀ value, node.evaluate context = .ok value ↔
    input.evaluate context = .ok value ∧ ∃ items, value = .array items ∧ fits items) ∧
  ∀ e, node.evaluate context = .error e →
    input.evaluate context = .error e ∨
      ∃ value, input.evaluate context = .ok value ∧ e = .typeMismatch node.ty value.type

/-- An array assertion asserts what holds of the values of its type among those of its input. -/
theorem Expr.assertsArrays_wrap {ty : Ty} {inferred : Bool} {input : Expr} {context : EvalContext}
    {fits : List Value → Prop}
    (h : ∀ value, input.evaluate context = .ok value →
      (ty.accepts value.type = true ↔ ∃ items, value = .array items ∧ fits items)) :
    (Expr.wrap ⟨.array, ty, inferred⟩ input).AssertsArrays input fits context := by
  constructor
  · intro value
    rw [evaluate_wrap_array_eq_ok_iff]
    exact and_congr_right (h value)
  · intro e he
    refine (evaluate_wrap_array_eq_error_iff.mp he).imp_right fun hmismatch ↦ ?_
    obtain ⟨value, hinput, -, rfl⟩ := hmismatch
    exact ⟨value, hinput, rfl⟩

/-- With a length that is a natural number an assertion takes the arrays of that length, also where
it is above the greatest one, since no array is so long. -/
theorem Expr.assertsArrays_wrap_length {item : Ty} (hitem : item ∈ Ty.itemTypes) {input : Expr}
    {context : EvalContext}
    (hshort : ∀ items, input.evaluate context = .ok (.array items) →
      items.length < maxArrayLength) (n : Nat) :
    (Expr.wrap ⟨.array, .array item (some (min maxArrayLength n)), false⟩ input).AssertsArrays input
      (fun items ↦ items.length = n ∧ ∀ x ∈ items, x.type = item) context := by
  refine assertsArrays_wrap fun value hvalue ↦ ?_
  rw [Ty.array_accepts_type_iff_of_mem_itemTypes hitem]
  refine exists_congr fun items ↦ and_congr_right fun hitems ↦ and_congr_left' ?_
  have hlt : items.length < maxArrayLength := hshort items (hitems ▸ hvalue)
  simp only [reduceCtorEq, false_or, Option.some.injEq]
  omega

/-- Over an operand that compiles, every call of the operator `array` does, whatever item type is
written, unless a length is written that is no natural number; then this is the error. What such a
call gives are the arrays that the operand gives, of the length and with items of the type that are
written. The lengths of arrays are below the greatest one that can be asked for. -/
theorem compileExpression_array {raw : Value} {input : Expr}
    (h : compileExpression raw none = .ok input) {item : Ty} (hitem : item ∈ Ty.itemTypes) :
    (∃ node, compileExpression (.call "array" [raw]) none = .ok node ∧
      ∀ context, node.AssertsArrays input (fun _ ↦ True) context) ∧
    (∃ node, compileExpression (.call "array" [.string item.kind, raw]) none = .ok node ∧
      ∀ context, node.AssertsArrays input (fun items ↦ ∀ x ∈ items, x.type = item) context) ∧
    ∀ length : Value,
      ((∃ node, compileExpression (.call "array" [.string item.kind, length, raw]) none =
          .ok node) ↔ ∃ n, length.IsNatural n) ∧
      (∀ errors, compileExpression (.call "array" [.string item.kind, length, raw]) none =
        .error errors → errors = [⟨[2], .arrayLength⟩]) ∧
      ∀ n node, length.IsNatural n →
        compileExpression (.call "array" [.string item.kind, length, raw]) none = .ok node →
        ∀ context, (∀ items, input.evaluate context = .ok (.array items) →
            items.length < maxArrayLength) →
          node.AssertsArrays input (fun items ↦ items.length = n ∧ ∀ x ∈ items, x.type = item)
            context := by
  refine ⟨⟨_, compileExpression_wrap rfl rfl h, fun context ↦ ?_⟩,
    ⟨_, compileExpression_array_item hitem h, fun context ↦ ?_⟩,
    fun length ↦ ⟨⟨fun hnode ↦ ?_, fun hlength ↦ ?_⟩, fun errors herrors ↦ ?_,
      fun n node hn hnode context hshort ↦ ?_⟩⟩
  · refine Expr.assertsArrays_wrap fun value _ ↦ ?_
    simp [Ty.array_accepts_type_iff, Ty.kind]
  · refine Expr.assertsArrays_wrap fun value _ ↦ ?_
    simp [Ty.array_accepts_type_iff_of_mem_itemTypes hitem]
  · by_contra hlength
    obtain ⟨node, hnode⟩ := hnode
    rw [compileExpression_array_of_not_isNatural hitem hlength] at hnode
    cases hnode
  · obtain ⟨n, hn⟩ := hlength
    exact ⟨_, compileExpression_array_of_isNatural hitem hn h⟩
  · by_cases hlength : ∃ n, length.IsNatural n
    · obtain ⟨n, hn⟩ := hlength
      rw [compileExpression_array_of_isNatural hitem hn h] at herrors
      cases herrors
    · rw [compileExpression_array_of_not_isNatural hitem hlength] at herrors
      exact (Except.error.inj herrors).symm
  · rw [compileExpression_array_of_isNatural hitem hn h] at hnode
    cases hnode
    exact Expr.assertsArrays_wrap_length hitem hshort n

/-- The looked-up array of one number passes an assertion of the length one. -/
theorem compileExpression_array_lookup :
    ∃ input node,
      compileExpression (.call "get" [.string "a"]) none = .ok input ∧
      Ty.number ∈ Ty.itemTypes ∧ (Value.number 1).IsNatural 1 ∧
      compileExpression (.call "array" [.string "number", .number 1, .call "get" [.string "a"]])
        none = .ok node ∧
      input.evaluate { property? := fun _ ↦ some (.array [.number 1]) } =
        .ok (.array [.number 1]) ∧
      node.evaluate { property? := fun _ ↦ some (.array [.number 1]) } =
        .ok (.array [.number 1]) := by
  have hinput : compileExpression (.call "get" [.string "a"]) none =
      .ok (.get (.literal .string (.string "a"))) := rfl
  have hitem : Ty.number ∈ Ty.itemTypes := by decide
  have hlength : (Value.number 1).IsNatural 1 := ⟨1, rfl, Binary64.isNatural_one⟩
  obtain ⟨-, -, hlengths⟩ := compileExpression_array hinput hitem
  obtain ⟨hcompiles, -, hasserts⟩ := hlengths (.number 1)
  obtain ⟨node, hnode⟩ := hcompiles.mpr ⟨1, hlength⟩
  have hshort : ∀ items, Expr.evaluate (.get (.literal .string (.string "a")))
      { property? := fun _ ↦ some (.array [.number 1]) } = .ok (.array items) →
      items.length < maxArrayLength := by
    intro items hitems
    cases hitems
    decide
  have hvalue := hasserts 1 node hlength hnode _ hshort
  exact ⟨_, node, hinput, hitem, hlength, hnode, rfl,
    (hvalue.1 _).mpr ⟨rfl, _, rfl, rfl, by simp [Value.type]⟩⟩

end StyleLang
