import StyleLang.Ty.Basic

/-!
# Operators

The operators of the language and the forms of expression that they introduce. Several operators
share a form: the assertions differ in the asserted type and the coercions in the target.
-/

namespace StyleLang

/-- A form of expression. -/
inductive Form where
  | array
  | assertion (ty : Ty)
  | coalesce
  | coercion (ty : Ty)
  | get
  | has
  | literal
  | zoom
  deriving DecidableEq

/-- The operators in the order of their names. -/
def operators : List (String × Form) :=
  [("array", .array), ("boolean", .assertion .boolean), ("coalesce", .coalesce), ("get", .get),
    ("has", .has), ("literal", .literal), ("number", .assertion .number),
    ("object", .assertion .object), ("string", .assertion .string),
    ("to-boolean", .coercion .boolean), ("to-color", .coercion .color),
    ("to-number", .coercion .number), ("to-string", .coercion .string), ("zoom", .zoom)]

/-- The form that an operator introduces. -/
def Form.ofOperator? (name : String) : Option Form :=
  operators.lookup name

/-- A form without the type that an operator gives it. -/
inductive FormFamily where
  | array
  | assertion
  | coalesce
  | coercion
  | get
  | has
  | literal
  | zoom
  deriving DecidableEq

/-- The family of a form. -/
def Form.family : Form → FormFamily
  | array => .array
  | assertion _ => .assertion
  | coalesce => .coalesce
  | coercion _ => .coercion
  | get => .get
  | has => .has
  | literal => .literal
  | zoom => .zoom

end StyleLang
