import StyleLang.Ty.OfValue
import StyleLang.Value.Text

/-!
# Runs

What an evaluation asks of its context, how it fails, and what it does. A context has the zoom level
and the properties of a feature. A run is the result of an evaluation together with the keys of the
properties that it looked up, in order; a run that fails keeps the lookups that it made before.
-/

namespace StyleLang

/-! ## Contexts -/

/-- A context of evaluation. Without a feature every property is absent. -/
structure EvalContext where
  zoom? : Option Binary64 := none
  property? : String → Option Value := fun _ ↦ none

/-- The properties of a feature that is given by a value. Only objects have properties. -/
def Value.property? : Value → String → Option Value
  | .object fields, key => fields.get? key
  | _, _ => none

/-! ## Errors -/

/-- Why an evaluation failed. -/
inductive EvalError where
  | typeMismatch (expected found : Ty)
  | numberConversion (value : Value)
  | colorConversion (text : String)
  | invalidPropertyKey (found : Ty)
  | missingZoom

/-- The text of an evaluation error. -/
def EvalError.message : EvalError → String
  | typeMismatch expected found =>
      "Expected value to be of type " ++ expected.text ++ ", but found " ++ found.text ++
        " instead."
  | numberConversion value => "Could not convert " ++ value.text ++ " to number."
  | colorConversion text => "Could not parse color from value '" ++ text ++ "'"
  | invalidPropertyKey found =>
      "Property key must be a string, but found " ++ found.text ++ " instead."
  | missingZoom => "The 'zoom' global is not available in this evaluation context."

/-! ## Results with lookups -/

/-- A result together with the property lookups that led to it. -/
structure Run (α : Type) where
  result : Except EvalError α
  lookups : List String

namespace Run

variable {α β : Type}

/-- The run that has a result without any lookup. -/
def ofResult (result : Except EvalError α) : Run α :=
  ⟨result, []⟩

/-- Goes on with the result of a run, unless the run failed. -/
def bind (run : Run α) (next : α → Run β) : Run β :=
  match run.result with
  | .ok x => ⟨(next x).result, run.lookups ++ (next x).lookups⟩
  | .error e => ⟨.error e, run.lookups⟩

instance : Monad Run where
  pure x := ofResult (.ok x)
  bind := bind

/-- A run that succeeded is followed by the next one. -/
theorem bind_of_ok {run : Run α} {x : α} (h : run.result = .ok x) (next : α → Run β) :
    run >>= next = ⟨(next x).result, run.lookups ++ (next x).lookups⟩ := by
  change run.bind next = _
  rw [bind, h]

/-- A run that failed is the end. -/
theorem bind_of_error {run : Run α} {e : EvalError} (h : run.result = .error e)
    (next : α → Run β) : run >>= next = ⟨.error e, run.lookups⟩ := by
  change run.bind next = _
  rw [bind, h]

/-- Looks up a property. -/
def property (context : EvalContext) (key : String) : Run (Option Value) :=
  ⟨.ok (context.property? key), [key]⟩

end Run

end StyleLang
