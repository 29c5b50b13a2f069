import StyleLang.Compile.Session
import StyleLang.Expr.Eval
import StyleLang.Property.Spec

/-!
# Property expressions

The expression of a style property together with its default value. Evaluation always gives a value:
the default stands in for null and for failed evaluations. What is said of a failure is a warning,
and each warning is given only once in the life of a property expression.
-/

namespace StyleLang

/-- An expression with a default value and the warnings that were given so far. -/
structure PropertyExpression where
  expression : Expr
  default : Value
  warned : List String := []

namespace PropertyExpression

/-- What an evaluation gives: the value, the new warnings, and the property expression after it. -/
structure Outcome where
  value : Value
  warnings : List String
  after : PropertyExpression

/-- Gives a warning, unless it was given before. -/
def warn (property : PropertyExpression) (warning : String) : List String × PropertyExpression :=
  if warning ∈ property.warned then ([], property)
  else ([warning], { property with warned := property.warned ++ [warning] })

/-- Evaluates a property expression. -/
def evaluate (property : PropertyExpression) (context : EvalContext) : Outcome :=
  match property.expression.evaluate context with
  | .ok value => ⟨if value.isNull then property.default else value, [], property⟩
  | .error e =>
      let (warnings, after) := property.warn e.message
      ⟨property.default, warnings, after⟩

/-- Evaluates a property expression in one context after the other. -/
def evaluateAll (property : PropertyExpression) : List EvalContext → List Outcome
  | [] => []
  | context :: contexts =>
      let outcome := property.evaluate context
      outcome :: outcome.after.evaluateAll contexts

/-- Compiles the expression of a property. Without a specification no type is expected and the
default is null. A specification of an unknown kind is refused. -/
def compile (raw : Value) (spec : Option PropertySpec) :
    Except (List CompileError) PropertyExpression :=
  match spec with
  | none => (compileExpression raw none).map fun expr ↦ { expression := expr, default := .null }
  | some spec =>
      match spec.expectedType with
      | none => .error [⟨[], .unknownPropertyType spec.kind⟩]
      | some expected =>
          (compileExpression raw (some expected)).map fun expr ↦
            { expression := expr, default := spec.defaultValue }

end PropertyExpression

end StyleLang
