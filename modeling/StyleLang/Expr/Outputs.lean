import StyleLang.Expr.Eval

/-!
# Possible outputs

What is known about the results of an expression before it is evaluated. An output that cannot be
told is listed as unknown.
-/

namespace StyleLang

/-- An output of an expression, as far as it is known in advance. -/
inductive PossibleOutput where
  | known (value : Value)
  | unknown

/-- The output of a wrapper for an output of its input. A value that does not convert makes the
output unknown. -/
def Wrapper.output (wrapper : Wrapper) : PossibleOutput → PossibleOutput
  | .unknown => .unknown
  | .known value =>
      match wrapper.kind with
      | .assertion | .array => .known value
      | .coercion =>
          match wrapper.ty.convert value with
          | .ok converted => .known converted
          | .error _ => .unknown

namespace Expr

mutual

/-- The possible outputs of an expression. -/
def possibleOutputs : Expr → List PossibleOutput
  | .literal _ value => [.known value]
  | .get _ | .has _ | .zoom => [.unknown]
  | .wrap wrapper input => (possibleOutputs input).map wrapper.output
  | .coalesce _ args => possibleOutputsOfAll args

/-- The possible outputs of several expressions, one expression after the other. -/
def possibleOutputsOfAll : List Expr → List PossibleOutput
  | [] => []
  | expr :: exprs => possibleOutputs expr ++ possibleOutputsOfAll exprs

end

end Expr

end StyleLang
