import StyleLang.Property.Expression
import StyleLang.Proofs.Typing

/-!
# What a property renders

A property expression gives the value of its expression, or its default value for null and for a
failed evaluation. Evaluation changes nothing but the warnings that were given
(`PropertyExpression.after_evaluate`), so what is given in a context does not depend on the contexts
before it (`PropertyExpression.map_value_evaluateAll`). A property expression that compiles for a
specification renders values of the type that the specification asks for and its default value, and
nothing else (`PropertyExpression.compile_renders`).
-/

namespace StyleLang.PropertyExpression

/-- A value that is not null is given as it is. -/
theorem value_evaluate_of_ne_null {property : PropertyExpression} {context : EvalContext}
    {value : Value} (h : property.expression.evaluate context = .ok value) (hne : value ≠ .null) :
    (property.evaluate context).value = value := by
  rw [evaluate, h]
  exact if_neg (mt Value.isNull_iff.mp hne)

/-- The default value stands in for null and for failed evaluations. -/
theorem value_evaluate_of_null {property : PropertyExpression} {context : EvalContext}
    (h : ∀ value, property.expression.evaluate context = .ok value → value = .null) :
    (property.evaluate context).value = property.default := by
  rw [evaluate]
  cases hresult : property.expression.evaluate context with
  | error e => rfl
  | ok value =>
      obtain rfl := h value hresult
      rfl

/-! ## Runs -/

/-- Evaluation changes nothing but the warnings, to which those that it gives are added. -/
theorem after_evaluate (property : PropertyExpression) (context : EvalContext) :
    (property.evaluate context).after =
      { property with warned := property.warned ++ (property.evaluate context).warnings } := by
  rw [evaluate]
  cases property.expression.evaluate context with
  | ok value => simp
  | error e =>
      simp only [warn]
      split <;> simp

/-- What is given does not depend on the warnings. -/
theorem value_evaluate_with_warned (property : PropertyExpression) (warned : List String)
    (context : EvalContext) :
    (({ property with warned } : PropertyExpression).evaluate context).value =
      (property.evaluate context).value := by
  rw [evaluate, evaluate]
  cases property.expression.evaluate context <;> rfl

/-- In one context after the other a property expression gives what it would give in each of them
alone. -/
theorem map_value_evaluateAll (property : PropertyExpression) (contexts : List EvalContext) :
    (property.evaluateAll contexts).map (·.value) =
      contexts.map fun context ↦ (property.evaluate context).value := by
  induction contexts generalizing property with
  | nil => rfl
  | cons context contexts ih =>
      rw [evaluateAll, List.map_cons, List.map_cons, ih, after_evaluate]
      simp only [value_evaluate_with_warned]

/-! ## Compiled property expressions -/

/-- A property expression compiles for a specification if its expression does where the type of the
specification is expected. -/
theorem compile_eq_ok_iff {raw : Value} {spec : PropertySpec} {property : PropertyExpression} :
    compile raw (some spec) = .ok property ↔
      ∃ ty root, spec.expectedType = some ty ∧ compileExpression raw (some ty) = .ok root ∧
        property = { expression := root, default := spec.defaultValue } := by
  cases htype : spec.expectedType with
  | none => simp [compile, htype]
  | some ty =>
      cases hroot : compileExpression raw (some ty) <;>
        simp [compile, htype, hroot, Except.map, eq_comm]

/-- A property expression that compiles for a specification gives the value of its expression, which
has the type that the specification asks for, if there is one that is not null, and the default
value of the specification in every other case. In a run over several contexts it does so in each of
them. -/
theorem compile_renders {raw : Value} {spec : PropertySpec} {property : PropertyExpression}
    (h : compile raw (some spec) = .ok property) :
    ∃ ty, spec.expectedType = some ty ∧
      (∀ context,
        (∀ value, property.expression.evaluate context = .ok value → value ≠ .null →
          (property.evaluate context).value = value ∧ ty.accepts value.type = true) ∧
        ((∀ value, property.expression.evaluate context = .ok value → value = .null) →
          (property.evaluate context).value = spec.defaultValue)) ∧
      ∀ contexts, (property.evaluateAll contexts).map (·.value) =
        contexts.map fun context ↦ (property.evaluate context).value := by
  obtain ⟨ty, root, htype, hroot, rfl⟩ := compile_eq_ok_iff.mp h
  refine ⟨ty, htype, fun context ↦ ⟨fun value hvalue hne ↦ ⟨?_, ?_⟩, fun hnull ↦ ?_⟩, ?_⟩
  · exact value_evaluate_of_ne_null hvalue hne
  · exact (type_of_compileExpression hroot hvalue).resolve_left hne
  · exact value_evaluate_of_null hnull
  · exact map_value_evaluateAll _

/-- A lookup, for a property of numbers with a default value: without the feature property the
default value is rendered, and with it the number. -/
theorem compile_renders_lookup :
    ∃ property,
      compile (.call "get" [.string "a"]) (some { kind := "number", default := some (.number 0) }) =
        .ok property ∧
      (property.evaluate {}).value = .number 0 ∧
      (property.evaluate { property? := fun _ ↦ some (.number 5) }).value = .number 5 ∧
      (property.evaluateAll [{}, { property? := fun _ ↦ some (.number 5) }]).map (·.value) =
        [.number 0, .number 5] := by
  have hproperty :
      compile (.call "get" [.string "a"]) (some { kind := "number", default := some (.number 0) }) =
        .ok {
          expression := .wrap ⟨.assertion, .number, true⟩ (.get (.literal .string (.string "a")))
          default := .number 0 } := rfl
  obtain ⟨ty, -, hvalue, hrun⟩ := compile_renders hproperty
  have habsent := (hvalue {}).2 nofun
  have hpresent := ((hvalue { property? := fun _ ↦ some (.number 5) }).1 (.number 5) rfl nofun).1
  refine ⟨_, hproperty, habsent, hpresent, (hrun _).trans ?_⟩
  rw [List.map_cons, List.map_singleton, habsent, hpresent]
  rfl

end StyleLang.PropertyExpression
