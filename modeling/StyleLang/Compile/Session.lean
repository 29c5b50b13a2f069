import StyleLang.Compile.Basic

/-!
# Compile sessions

A session compiles expressions at one position and collects the errors. A `Session.Step` is a piece
of this work: it records an error and ends the compilation, reads the position, or goes into an
operand, whose errors go into the same list. `Session.Step.compile` follows `compile` step by step,
and `compileExpression` is a session of one expression.
-/

namespace StyleLang

/-- A position and the errors that were recorded so far. -/
structure Session where
  position : Position := {}
  errors : List CompileError := []

namespace Session

variable {α : Type}

/-- The text of the position. -/
def key (session : Session) : String :=
  locationText session.position.location

/-- A step of a session gives a result, or none if the compilation ends with it, and the session
after it. -/
abbrev Step (α : Type) : Type :=
  OptionT (StateM Session) α

namespace Step

/-- Records an error at the position, and ends the compilation. -/
def raise (cause : CompileError.Cause) : Step α := fun session ↦
  (none, { session with errors := session.errors ++ [⟨session.position.location, cause⟩] })

/-- Records an error at an operand, and ends the compilation. -/
def raiseAt (index : Nat) (cause : CompileError.Cause) : Step α := fun session ↦
  (none, { session with
    errors := session.errors ++ [⟨session.position.location ++ [index], cause⟩] })

/-- The position of the session. -/
def position : Step Position := fun session ↦
  (some session.position, session)

/-- Takes a step at the position of an operand. The session comes back to its own position and keeps
the errors. -/
def atOperand (index : Nat) (expected : Option Ty) (nullable : Bool) (step : Step α) : Step α :=
  fun session ↦
    let (result, after) :=
      step { session with position := session.position.operand index expected nullable }
    (result, { session with errors := after.errors })

/-- Makes an expression fit for the position. -/
def enforce (expr : Expr) : Step Expr := do
  let position ← position
  match position.expected with
  | none => pure expr
  | some expected =>
      let wrapped := expr.inferWrapper expected
      if position.nullable && wrapped.ty == .null || expected.accepts wrapped.ty then pure wrapped
      else raise (.typeMismatch expected wrapped.ty)

/-- The item type that an operand of `array` names. -/
def arrayItem (item : Value) : Step Ty :=
  match arrayItem? item with
  | some ty => pure ty
  | none => raiseAt 1 .arrayItem

/-- The length that an operand of `array` gives. -/
def arrayLength (length : Value) : Step Nat :=
  match arrayLength? length with
  | some length => pure length
  | none => raiseAt 2 .arrayLength

mutual

/-- Compiles a raw value at the position. -/
def compile : Value → Step Expr
  | .array items => do
      let expr ←
        match items.head? with
        | none => raise .emptyArray
        | some (.string name) =>
            match Form.ofOperator? name with
            | some form => compileForm form items
            | none => raiseAt 0 (.unknownOperator name)
        | some operator => raise (.operatorNotString operator.type)
      enforce expr
  | .object _ => raise .bareObject
  | value => do
      let position ← position
      enforce (.constant value position.expected)

/-- Compiles a call, given with its operator as the first item. -/
def compileForm : Form → List Value → Step Expr
  | .literal, [_, value] => do
      let position ← position
      pure (.constant value position.expected)
  | .get, [_, key] => .get <$> atOperand 1 (some .string) false (compile key)
  | .has, [_, key] => .has <$> atOperand 1 (some .string) false (compile key)
  | .zoom, [_] => pure .zoom
  | .assertion ty, [_, input] =>
      .wrap ⟨.assertion, ty, false⟩ <$> atOperand 1 (some .value) false (compile input)
  | .coercion ty, [_, input] =>
      .wrap ⟨.coercion, ty, false⟩ <$> atOperand 1 (some .value) false (compile input)
  | .array, [_, input] =>
      .wrap ⟨.array, .array .value none, false⟩ <$>
        atOperand 1 (some .value) false (compile input)
  | .array, [_, item, input] => do
      let ty ← arrayItem item
      .wrap ⟨.array, .array ty none, false⟩ <$> atOperand 2 (some .value) false (compile input)
  | .array, [_, item, length, input] => do
      let ty ← arrayItem item
      let length ← arrayLength length
      .wrap ⟨.array, .array ty (some length), false⟩ <$>
        atOperand 3 (some .value) false (compile input)
  | .coalesce, _ :: operands =>
      if operands.isEmpty then raise (.operandCount .coalesce 0)
      else do
        let position ← position
        let (ty, operands) ← compileOperands operands 1 (position.expected.filter (·.isConcrete))
        pure (.assemble (ty.getD .null) operands)
  | form, items => raise (.operandCount form.family (items.length - 1))

/-- Compiles the operands of a coalesce from an index on, where `ty` is the type of the coalesce as
far as it is known. -/
def compileOperands : List Value → Nat → Option Ty → Step (Option Ty × List Expr)
  | [], _, ty => pure (ty, [])
  | operand :: operands, index, ty => do
      let expr ← atOperand index ty true (compile operand)
      let known := ty <|> (if expr.ty = .null then none else some expr.ty)
      let (result, exprs) ← compileOperands operands (index + 1) known
      pure (result, expr :: exprs)

end

end Step

/-- Compiles an expression at the position. -/
def compile (session : Session) (raw : Value) : Option Expr × Session :=
  Step.compile raw session

/-- Compiles an operand of the expression at the position. -/
def compileOperand (session : Session) (raw : Value) (index : Nat) (expected : Option Ty)
    (nullable : Bool := false) : Option Expr × Session :=
  Step.atOperand index expected nullable (Step.compile raw) session

/-- The form of a family that a call has by its operator. Only the families that several operators
share look at the operator. -/
def formOf (family : FormFamily) (operator : Option Value) : Except CompileError.Cause Form :=
  match family, operator with
  | .array, _ => .ok .array
  | .coalesce, _ => .ok .coalesce
  | .get, _ => .ok .get
  | .has, _ => .ok .has
  | .literal, _ => .ok .literal
  | .zoom, _ => .ok .zoom
  | family, some (.string name) =>
      match (Form.ofOperator? name).filter (·.family == family) with
      | some form => .ok form
      | none => .error (.operatorOutsideFamily family (some name))
  | family, _ => .error (.operatorOutsideFamily family none)

/-- Compiles a call of a family of forms, without the check against the expected type. -/
def call (session : Session) (family : FormFamily) (items : List Value) : Option Expr × Session :=
  match formOf family items.head? with
  | .ok form => Step.compileForm form items session
  | .error cause => Step.raise cause session

/-- Records an error at the position. -/
def fail (session : Session) (message : String) : Option Expr × Session :=
  Step.raise (.custom message) session

/-- Records an error at an operand. -/
def failAt (session : Session) (index : Nat) (message : String) : Option Expr × Session :=
  Step.raiseAt index (.custom message) session

end Session

/-- Compiles an expression that may be expected to have a type. It is refused with the errors that
were recorded. -/
def compileExpression (raw : Value) (expected : Option Ty) : Except (List CompileError) Expr :=
  match ({ position := { expected } : Session }).compile raw with
  | (some expr, session) => if session.errors.isEmpty then .ok expr else .error session.errors
  | (none, session) => .error session.errors

end StyleLang
