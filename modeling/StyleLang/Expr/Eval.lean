import StyleLang.Eval.Coercion
import StyleLang.Eval.Run
import StyleLang.Expr.Basic

/-!
# Evaluation

`Expr.run` evaluates an expression and records the properties it looks up. A coalesce evaluates its
arguments only up to the first that is not null.
-/

namespace StyleLang

/-- What a wrapper makes of the value of its input. -/
def Wrapper.apply (wrapper : Wrapper) (value : Value) : Except EvalError Value :=
  match wrapper.kind with
  | .coercion => wrapper.ty.convert value
  | .assertion | .array =>
      if wrapper.ty.accepts value.type then .ok value
      else .error (.typeMismatch wrapper.ty value.type)

/-- The property key that a value is. -/
def Value.toKey : Value → Except EvalError String
  | .string key => .ok key
  | value => .error (.invalidPropertyKey value.type)

namespace Expr

mutual

/-- Evaluates an expression. -/
def run (context : EvalContext) : Expr → Run Value
  | .literal _ value => pure value
  | .get key => do
      let name ← (run context key).bind (.ofResult ·.toKey)
      let property ← Run.property context name
      pure (property.getD .null)
  | .has key => do
      let name ← (run context key).bind (.ofResult ·.toKey)
      let property ← Run.property context name
      pure (.bool property.isSome)
  | .zoom =>
      match context.zoom? with
      | some level => pure (.number level)
      | none => .ofResult (.error .missingZoom)
  | .wrap wrapper input => do
      let value ← run context input
      .ofResult (wrapper.apply value)
  | .coalesce _ args => runFirst context args

/-- Evaluates expressions in order up to the first value that is not null. -/
def runFirst (context : EvalContext) : List Expr → Run Value
  | [] => pure .null
  | arg :: args => do
      let value ← run context arg
      if value.isNull then runFirst context args else pure value

end

/-- The result of an expression. -/
def evaluate (expr : Expr) (context : EvalContext) : Except EvalError Value :=
  (expr.run context).result

@[simp]
theorem evaluate_literal {context : EvalContext} (ty : Ty) (value : Value) :
    (Expr.literal ty value).evaluate context = .ok value := by
  rw [evaluate, run]
  rfl

theorem evaluate_zoom {context : EvalContext} :
    Expr.zoom.evaluate context =
      match context.zoom? with
      | some level => .ok (.number level)
      | none => .error .missingZoom := by
  rw [evaluate, run]
  cases context.zoom? <;> rfl

/-- The keys of the properties that an evaluation looks up, in order. -/
def lookups (expr : Expr) (context : EvalContext) : List String :=
  (expr.run context).lookups

end Expr

end StyleLang
