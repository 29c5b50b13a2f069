import StyleLang.Proofs.Arrays
import StyleLang.Proofs.Outputs

/-!
# Conversions

A conversion gives values of the type that it converts to, and leaves such values as they are
(`Ty.convert_eq_self`), so converting twice is converting once, in evaluation
(`Expr.run_wrap_wrap`) as well as in advance (`Wrapper.output_output`). The conversion to numbers
gives no other infinity than the one it is given and never NaN
(`Value.isFinite_or_of_toNumber?`).
-/

namespace StyleLang

/-! ## Values -/

/-- The number of a value is finite, or it is the value itself and not NaN. -/
theorem Value.isFinite_or_of_toNumber? {value : Value} {x : Binary64}
    (h : value.toNumber? = some x) :
    x.isFinite = true ∨ value = .number x ∧ x.isNaN = false := by
  have hzero : (0 : Binary64).isFinite = true := by
    rw [Binary64.zero_eq, Binary64.isFinite]
  have hone : (1 : Binary64).isFinite = true := by
    rw [Binary64.one_eq, Binary64.isFinite]
  cases value with
  | null =>
      obtain rfl := Option.some.inj h
      exact .inl hzero
  | bool value =>
      obtain rfl := Option.some.inj h
      cases value with
      | true => exact .inl hone
      | false => exact .inl hzero
  | number y =>
      rw [toNumber?] at h
      split at h
      · cases h
      · rename_i hnan
        obtain rfl := Option.some.inj h
        exact .inr ⟨rfl, eq_false_of_ne_true hnan⟩
  | string text =>
      rw [toNumber?, numberOfText?] at h
      split at h
      · obtain rfl := Option.some.inj h
        exact .inl hzero
      · exact .inl (Option.filter_eq_some_iff.mp h).2
  | color | array | object => cases h

/-- The number of a value is not NaN. -/
theorem Value.isNaN_of_toNumber? {value : Value} {x : Binary64} (h : value.toNumber? = some x) :
    x.isNaN = false := by
  rcases isFinite_or_of_toNumber? h with hfinite | ⟨-, hnan⟩
  · cases x with
    | finite => rfl
    | _ => cases hfinite
  · exact hnan

/-- Only an infinite number has an infinite number. -/
theorem Value.eq_of_toNumber?_infinite {value : Value} {negative : Bool}
    (h : value.toNumber? = some (.infinite negative)) : value = .number (.infinite negative) := by
  rcases isFinite_or_of_toNumber? h with hfinite | ⟨hvalue, -⟩
  · cases hfinite
  · exact hvalue

/-- Every value converts to a boolean and to a text. -/
theorem Ty.exists_convert {target : Ty} (htarget : target = .boolean ∨ target = .string)
    (value : Value) : ∃ result, target.convert value = .ok result := by
  rcases htarget with rfl | rfl
  · exact ⟨_, rfl⟩
  · exact ⟨_, rfl⟩

/-- What a conversion to numbers gives is the number of the value. -/
theorem Ty.number_convert_eq_ok_iff {value result : Value} :
    Ty.number.convert value = .ok result ↔ ∃ x, value.toNumber? = some x ∧ result = .number x := by
  rw [convert]
  cases value.toNumber? with
  | none => simp
  | some x => simp [eq_comm]

/-- The values that a conversion gives have the type that it converts to. -/
theorem Ty.type_of_convert {target : Ty} (htarget : target ∈ targets) {value result : Value}
    (h : target.convert value = .ok result) : result.type = target := by
  have hsimple : ∀ ty ∈ targets, ty ≠ .value ∧ ty.kind ≠ "array" := by decide
  obtain ⟨hvalue, harray⟩ := hsimple target htarget
  exact ((accepts_iff_eq hvalue harray).mp (accepts_of_convert htarget h)).symm

/-- A conversion leaves its own results as they are. -/
theorem Ty.convert_eq_self {target : Ty} {value result : Value}
    (h : target.convert value = .ok result) : target.convert result = .ok result := by
  cases target with
  | boolean | string =>
      cases h
      rfl
  | number =>
      obtain ⟨x, hx, rfl⟩ := number_convert_eq_ok_iff.mp h
      refine number_convert_eq_ok_iff.mpr ⟨x, ?_, rfl⟩
      rw [Value.toNumber?, Value.isNaN_of_toNumber? hx, if_neg Bool.false_ne_true]
  | color =>
      have hcheck : Ty.color.check value = .ok result := h
      exact check_check hcheck
  | null | object | value | array => rfl

/-- Converting twice is converting once. -/
theorem Ty.convert_bind_convert (target : Ty) (value : Value) :
    target.convert value >>= target.convert = target.convert value := by
  cases hresult : target.convert value with
  | error e => rfl
  | ok result => rw [ok_bind, convert_eq_self hresult]

/-! ## Expressions -/

/-- The output of a conversion that is converted again stays as it is. -/
theorem Wrapper.output_output {wrapper : Wrapper} (hkind : wrapper.kind = .coercion)
    (output : PossibleOutput) : wrapper.output (wrapper.output output) = wrapper.output output := by
  obtain ⟨kind, target, inferred⟩ := wrapper
  obtain rfl : kind = .coercion := hkind
  cases output with
  | unknown => rfl
  | known value =>
      cases hresult : target.convert value with
      | error e => simp only [Wrapper.output, hresult]
      | ok result => simp only [Wrapper.output, hresult, Ty.convert_eq_self hresult]

namespace Expr

/-- A conversion around the same conversion runs as that does. -/
theorem run_wrap_wrap {wrapper : Wrapper} (hkind : wrapper.kind = .coercion) (input : Expr)
    (context : EvalContext) :
    (Expr.wrap wrapper (.wrap wrapper input)).run context =
      (Expr.wrap wrapper input).run context := by
  obtain ⟨kind, target, inferred⟩ := wrapper
  obtain rfl : kind = .coercion := hkind
  rw [run, run, bind_assoc]
  congr 1
  funext value
  rw [Run.ofResult_bind_ofResult]
  exact congrArg Run.ofResult (target.convert_bind_convert value)

/-- A conversion around the same conversion has its outputs. -/
theorem possibleOutputs_wrap_wrap {wrapper : Wrapper} (hkind : wrapper.kind = .coercion)
    (input : Expr) :
    (Expr.wrap wrapper (.wrap wrapper input)).possibleOutputs =
      (Expr.wrap wrapper input).possibleOutputs := by
  rw [possibleOutputs, possibleOutputs, List.map_map]
  exact List.map_congr_left fun output _ ↦ Wrapper.output_output hkind output

/-- What fits becomes of an expression by its type. An expression of the same type that runs alike
and has the same outputs becomes one of which that holds, too. -/
theorem Fits.exists_alike {core other expr : Expr} {expected : Option Ty} {nullable : Bool}
    (h : core.Fits expected nullable expr) (hty : other.ty = core.ty)
    (hrun : ∀ context, other.run context = core.run context)
    (houtputs : other.possibleOutputs = core.possibleOutputs) :
    ∃ again, other.Fits expected nullable again ∧
      (∀ context, again.run context = expr.run context) ∧
      again.possibleOutputs = expr.possibleOutputs := by
  cases expected with
  | none =>
      obtain rfl : expr = core := h
      exact ⟨other, rfl, hrun, houtputs⟩
  | some ty =>
      obtain ⟨rfl, hfits⟩ := h
      cases hkind : WrapperKind.inferred? ty core.ty with
      | none =>
          have hcore : core.inferWrapper ty = core := by rw [inferWrapper, hkind]
          have hother : other.inferWrapper ty = other := by rw [inferWrapper, hty, hkind]
          rw [hcore] at hfits ⊢
          exact ⟨other, ⟨hother.symm, hty ▸ hfits⟩, hrun, houtputs⟩
      | some kind =>
          have hcore : core.inferWrapper ty = .wrap ⟨kind, ty, true⟩ core := by
            rw [inferWrapper, hkind]
          have hother : other.inferWrapper ty = .wrap ⟨kind, ty, true⟩ other := by
            rw [inferWrapper, hty, hkind]
          rw [hcore] at hfits ⊢
          refine ⟨.wrap ⟨kind, ty, true⟩ other, ⟨hother.symm, hfits⟩, fun context ↦ ?_, ?_⟩
          · rw [run, run, hrun]
          · rw [possibleOutputs, possibleOutputs, houtputs]

end Expr

/-- The operators that convert, each with the type that it converts to. -/
def conversions : List (String × Ty) :=
  [("to-boolean", .boolean), ("to-string", .string), ("to-number", .number), ("to-color", .color)]

theorem ofOperator?_of_mem_conversions {name : String} {target : Ty}
    (h : (name, target) ∈ conversions) : Form.ofOperator? name = some (.coercion target) := by
  simp only [conversions, List.mem_cons, Prod.mk.injEq, List.not_mem_nil, or_false] at h
  rcases h with ⟨rfl, rfl⟩ | ⟨rfl, rfl⟩ | ⟨rfl, rfl⟩ | ⟨rfl, rfl⟩ <;> rfl

theorem mem_targets_of_mem_conversions {name : String} {target : Ty}
    (h : (name, target) ∈ conversions) : target ∈ Ty.targets := by
  simp only [conversions, List.mem_cons, Prod.mk.injEq, List.not_mem_nil, or_false] at h
  rcases h with ⟨-, rfl⟩ | ⟨-, rfl⟩ | ⟨-, rfl⟩ | ⟨-, rfl⟩ <;> decide

/-- The node of a conversion fits as it is, or a color is expected of a conversion to a text. -/
theorem Expr.Fits.eq_or_color {target : Ty} (htarget : target ∈ Ty.targets) {input expr : Expr}
    {expected : Option Ty}
    (h : (Expr.wrap ⟨.coercion, target, false⟩ input).Fits expected false expr) :
    expr = .wrap ⟨.coercion, target, false⟩ input ∨
      target = .string ∧ expected = some .color ∧
        expr = .wrap ⟨.coercion, .color, true⟩ (.wrap ⟨.coercion, target, false⟩ input) := by
  cases expected with
  | none => exact .inl h
  | some ty =>
      obtain ⟨rfl, -⟩ := h
      simp only [Ty.targets, List.mem_cons, List.not_mem_nil, or_false] at htarget
      -- A wrapper is inferred around no other type than string and the universal one.
      rcases htarget with rfl | rfl | rfl | rfl
      iterate 3 cases ty <;> exact .inl rfl
      cases ty with
      | color => exact .inr ⟨rfl, rfl, rfl⟩
      | _ => exact .inl rfl

/-- A call of a conversion compiles to a node that converts what its operand gives, and a call of
the same conversion around it compiles in the same place and does the same: it gives the same
results after the same lookups and has the same possible outputs. What the node gives has the type
that it converts to. Conversions to booleans and texts fail only as the operand does. A conversion
to a number never gives NaN, and an infinity only if that is what the operand gives. -/
theorem compileExpression_conversion {name : String} {target : Ty}
    (hname : (name, target) ∈ conversions) {raw : Value} {expected : Option Ty} {root : Expr}
    (h : compileExpression (.call name [raw]) expected = .ok root) :
    ∃ input node again,
      compileExpression raw none = .ok input ∧
      compileExpression (.call name [raw]) none = .ok node ∧
      (root = node ∨ target = .string ∧ expected = some .color ∧
        root = .wrap ⟨.coercion, .color, true⟩ node) ∧
      compileExpression (.call name [.call name [raw]]) expected = .ok again ∧
      again.possibleOutputs = root.possibleOutputs ∧
      ∀ context,
        again.evaluate context = root.evaluate context ∧
        again.lookups context = root.lookups context ∧
        (∀ value, node.evaluate context = .ok value → value.type = target) ∧
        (target = .boolean ∨ target = .string → ∀ e, node.evaluate context = .error e →
          input.evaluate context = .error e) ∧
        (target = .number → ∀ x, node.evaluate context = .ok (.number x) → x.isNaN = false ∧
          ∀ negative, x = .infinite negative → input.evaluate context = .ok (.number x)) := by
  have hform := ofOperator?_of_mem_conversions hname
  have htarget := mem_targets_of_mem_conversions hname
  obtain ⟨core, hcore, hfits⟩ := compileExpression_eq_ok_iff.mp h
  obtain ⟨input, hinput, rfl⟩ := (hcore.of_call hform).of_wrapper? rfl
  have hraw : compileExpression raw none = .ok input :=
    compileExpression_eq_ok_iff.mpr ⟨input, Elaborates.value_iff.mp hinput, rfl⟩
  have hty : (Expr.wrap ⟨.coercion, target, false⟩ (.wrap ⟨.coercion, target, false⟩ input)).ty =
      (Expr.wrap ⟨.coercion, target, false⟩ input).ty := rfl
  obtain ⟨again, hagain, hrun, houtputs⟩ := hfits.exists_alike hty (Expr.run_wrap_wrap rfl input)
    (Expr.possibleOutputs_wrap_wrap rfl input)
  have htwice : Elaborates (.call name [.call name [raw]]) expected
      (.wrap ⟨.coercion, target, false⟩ (.wrap ⟨.coercion, target, false⟩ input)) :=
    .call hform (.wrap rfl (.call hform (.wrap rfl hinput)))
  refine ⟨input, .wrap ⟨.coercion, target, false⟩ input, again, hraw,
    compileExpression_wrap hform rfl hraw, hfits.eq_or_color htarget,
    compileExpression_eq_ok_iff.mpr ⟨_, htwice, hagain⟩, houtputs, fun context ↦
    ⟨congrArg Run.result (hrun context), congrArg Run.lookups (hrun context), ?_, ?_, ?_⟩⟩
  · intro value hvalue
    rw [Expr.evaluate_wrap, bind_eq_ok_iff] at hvalue
    obtain ⟨before, -, hconvert⟩ := hvalue
    exact Ty.type_of_convert htarget hconvert
  · intro htotal e he
    rw [Expr.evaluate_wrap, bind_eq_error_iff] at he
    refine he.resolve_right fun hfails ↦ ?_
    obtain ⟨before, -, hconvert⟩ := hfails
    obtain ⟨result, hresult⟩ := Ty.exists_convert htotal before
    exact absurd (hresult.symm.trans hconvert) nofun
  · rintro rfl x hx
    rw [Expr.evaluate_wrap, bind_eq_ok_iff] at hx
    obtain ⟨before, hbefore, hconvert⟩ := hx
    obtain ⟨y, hy, heq⟩ := Ty.number_convert_eq_ok_iff.mp hconvert
    obtain rfl : x = y := Value.number.inj heq
    refine ⟨Value.isNaN_of_toNumber? hy, fun negative hinfinite ↦ ?_⟩
    subst hinfinite
    rw [hbefore, Value.eq_of_toNumber?_infinite hy]

/-- A conversion of a looked-up infinity to a number. -/
theorem compileExpression_conversion_infinite :
    ∃ root again context,
      ("to-number", Ty.number) ∈ conversions ∧
      compileExpression (.call "to-number" [.call "get" [.string "a"]]) none = .ok root ∧
      compileExpression (.call "to-number" [.call "to-number" [.call "get" [.string "a"]]]) none =
        .ok again ∧
      context = ({ property? := fun _ ↦ some (.number (.infinite true)) } : EvalContext) ∧
      root.evaluate context = .ok (.number (.infinite true)) ∧
      again.evaluate context = .ok (.number (.infinite true)) := by
  have hname : ("to-number", Ty.number) ∈ conversions := by decide
  have hroot : compileExpression (.call "to-number" [.call "get" [.string "a"]]) none =
      .ok (.wrap ⟨.coercion, .number, false⟩ (.get (.literal .string (.string "a")))) := rfl
  obtain ⟨input, node, again, -, -, -, hagain, -, hsame⟩ := compileExpression_conversion hname hroot
  exact ⟨_, again, _, hname, hroot, hagain, rfl, rfl, (hsame _).1⟩

end StyleLang
