import StyleLang.Compile.Error
import StyleLang.Expr.Basic

/-!
# Compilation

`compile` turns a raw value into an expression. A raw array is a call of the operator that it starts
with, and every other value but an object is a literal. Where a type is expected, a wrapper is
inferred around an expression whose values are not known to have it, and the result is checked
against the expectation. The operands of a coalesce lose their inferred wrappers again, since a null
operand must be passed over and not refused; one wrapper around the whole checks the result instead.
-/

namespace StyleLang

/-- The place of an expression in its source, the type that is expected there, and whether null is
taken in spite of it. -/
structure Position where
  location : List Nat := []
  expected : Option Ty := none
  nullable : Bool := false
  deriving DecidableEq

namespace Position

/-- The position of an operand. -/
def operand (position : Position) (index : Nat) (expected : Option Ty)
    (nullable : Bool := false) : Position :=
  ⟨position.location ++ [index], expected, nullable⟩

/-- Fails at the position. -/
def fail {α : Type} (position : Position) (cause : CompileError.Cause) : Except CompileError α :=
  .error ⟨position.location, cause⟩

/-- Fails at an operand. -/
def failAt {α : Type} (position : Position) (index : Nat) (cause : CompileError.Cause) :
    Except CompileError α :=
  .error ⟨position.location ++ [index], cause⟩

end Position

/-- The wrapper that gives expressions of the type `actual` the type that is expected, if one can be
inferred. -/
def WrapperKind.inferred? : (expected actual : Ty) → Option WrapperKind
  | .string, .value | .number, .value | .boolean, .value | .object, .value => some .assertion
  | .array _ _, .value => some .array
  | .color, .value | .color, .string => some .coercion
  | _, _ => none

/-- Puts the wrapper around an expression that its position asks for. -/
def Expr.inferWrapper (expr : Expr) (expected : Ty) : Expr :=
  match WrapperKind.inferred? expected expr.ty with
  | some kind => .wrap ⟨kind, expected, true⟩ expr
  | none => expr

/-- Makes an expression fit for its position, or fails if it does not have the expected type. -/
def Position.enforce (position : Position) (expr : Expr) : Except CompileError Expr :=
  match position.expected with
  | none => .ok expr
  | some expected =>
      let wrapped := expr.inferWrapper expected
      if position.nullable && wrapped.ty == .null || expected.accepts wrapped.ty then .ok wrapped
      else position.fail (.typeMismatch expected wrapped.ty)

/-- Puts a wrapper of a type around an expression that is not inferred. The universal type needs
none. -/
def Expr.annotate (ty : Ty) (expr : Expr) : Expr :=
  match ty with
  | .value => expr
  | .color => .wrap ⟨.coercion, ty, false⟩ expr
  | .array _ _ => .wrap ⟨.array, ty, false⟩ expr
  | _ => .wrap ⟨.assertion, ty, false⟩ expr

/-- The coalesce of operands as they were compiled. Inferred wrappers are taken off, and if there
was one, a wrapper of the type of the coalesce stands around the whole. -/
def Expr.assemble (ty : Ty) (operands : List Expr) : Expr :=
  if operands.any (·.stripInferred.isSome) then
    annotate ty (.coalesce .value (operands.map fun operand ↦ operand.stripInferred.getD operand))
  else .coalesce ty operands

/-- The item type that an operand of `array` names. -/
def arrayItem? : Value → Option Ty
  | .string "string" => some .string
  | .string "number" => some .number
  | .string "boolean" => some .boolean
  | _ => none

/-- The greatest length that an array type can ask for. -/
def maxArrayLength : Nat :=
  UInt64.size - 1

/-- The length that an operand of `array` gives. Greater numbers give the greatest length. -/
def arrayLength? : Value → Option Nat
  | .number x => if Binary64.atMost 0 x then x.integer?.map (min maxArrayLength) else none
  | _ => none

/-- The array type that the operands of `array` before the last give. -/
def arrayType (position : Position) : List Value → Except CompileError Ty
  | [] => .ok (.array .value none)
  | [item] =>
      match arrayItem? item with
      | some ty => .ok (.array ty none)
      | none => position.failAt 1 .arrayItem
  | item :: length :: _ =>
      match arrayItem? item, arrayLength? length with
      | some ty, some length => .ok (.array ty (some length))
      | some _, none => position.failAt 2 .arrayLength
      | none, _ => position.failAt 1 .arrayItem

mutual

/-- Compiles a raw value. -/
def compile : Value → Position → Except CompileError Expr
  | .array items, position => do
      let expr ←
        match items.head? with
        | none => position.fail .emptyArray
        | some (.string name) =>
            match Form.ofOperator? name with
            | some form => compileForm form items position
            | none => position.failAt 0 (.unknownOperator name)
        | some operator => position.fail (.operatorNotString operator.type)
      position.enforce expr
  | .object _, position => position.fail .bareObject
  | value, position => position.enforce (.constant value position.expected)

/-- Compiles a call, given with its operator as the first item. -/
def compileForm : Form → List Value → Position → Except CompileError Expr
  | .literal, [_, value], position => .ok (.constant value position.expected)
  | .get, [_, key], position => .get <$> compile key (position.operand 1 (some .string))
  | .has, [_, key], position => .has <$> compile key (position.operand 1 (some .string))
  | .zoom, [_], _ => .ok .zoom
  | .assertion ty, [_, input], position =>
      .wrap ⟨.assertion, ty, false⟩ <$> compile input (position.operand 1 (some .value))
  | .coercion ty, [_, input], position =>
      .wrap ⟨.coercion, ty, false⟩ <$> compile input (position.operand 1 (some .value))
  | .array, [_, input], position => do
      let ty ← arrayType position []
      .wrap ⟨.array, ty, false⟩ <$> compile input (position.operand 1 (some .value))
  | .array, [_, item, input], position => do
      let ty ← arrayType position [item]
      .wrap ⟨.array, ty, false⟩ <$> compile input (position.operand 2 (some .value))
  | .array, [_, item, length, input], position => do
      let ty ← arrayType position [item, length]
      .wrap ⟨.array, ty, false⟩ <$> compile input (position.operand 3 (some .value))
  | .coalesce, _ :: operands, position =>
      if operands.isEmpty then position.fail (.operandCount .coalesce 0)
      else do
        let (ty, operands) ←
          compileOperands operands position 1 (position.expected.filter (·.isConcrete))
        pure (.assemble (ty.getD .null) operands)
  | form, items, position => position.fail (.operandCount form.family (items.length - 1))

/-- Compiles the operands of a coalesce from an index on, where `ty` is the type of the coalesce as
far as it is known. Unless a type is expected, the first operand that is not of type null gives it,
and the operands after it are expected to have it. -/
def compileOperands : List Value → Position → Nat → Option Ty →
    Except CompileError (Option Ty × List Expr)
  | [], _, _, ty => .ok (ty, [])
  | operand :: operands, position, index, ty => do
      let expr ← compile operand (position.operand index ty true)
      let known := ty <|> (if expr.ty = .null then none else some expr.ty)
      let (result, exprs) ← compileOperands operands position (index + 1) known
      pure (result, expr :: exprs)

end

end StyleLang
