import StyleLang.Compile.Session
import StyleLang.Proofs.Results

/-!
# Recorded errors

Compilation in a session does what compilation without one does, and records the error if there is
one (`Session.Step.compile_gives`). `Session.Step.Gives` passes from the pieces of a step to the
step, so this follows the steps of the compiler. Hence no step has a result with errors pending, and
no step fails without an error or with two (`Session.records`).
-/

namespace StyleLang

namespace Session

variable {α β : Type}

/-- Records the error of a result that has one. -/
def record (session : Session) : Except CompileError α → Option α × Session
  | .ok x => (some x, session)
  | .error e => (none, { session with errors := session.errors ++ [e] })

@[simp]
theorem record_ok (session : Session) (x : α) : session.record (.ok x) = (some x, session) :=
  rfl

@[simp]
theorem record_error (session : Session) (e : CompileError) :
    session.record (.error e : Except CompileError α) =
      (none, { session with errors := session.errors ++ [e] }) :=
  rfl

namespace Step

/-- Steps are taken one after the other, up to one without a result. -/
theorem bind_apply (step : Step α) (next : α → Step β) (session : Session) :
    (step >>= next) session =
      match step session with
      | (some x, after) => next x after
      | (none, after) => (none, after) := by
  simp only [bind, OptionT.bind, OptionT.mk, StateT.bind]
  rcases step session with ⟨_ | x, after⟩ <;> rfl

/-- `step.Gives place result` says that at the position `place`, and whatever was recorded before, a
step has the result or records its error. -/
def Gives (step : Step α) (place : Position) (result : Except CompileError α) : Prop :=
  ∀ errors, step ⟨place, errors⟩ = record ⟨place, errors⟩ result

variable {step : Step α} {place : Position} {result : Except CompileError α}

theorem gives_pure (x : α) : (pure x : Step α).Gives place (.ok x) :=
  fun _ ↦ rfl

theorem gives_raise (cause : CompileError.Cause) :
    (raise cause : Step α).Gives place (place.fail cause) :=
  fun _ ↦ rfl

theorem gives_raiseAt (index : Nat) (cause : CompileError.Cause) :
    (raiseAt index cause : Step α).Gives place (place.failAt index cause) :=
  fun _ ↦ rfl

/-- A step that reads the position has it. -/
theorem Gives.of_position {next : Position → Step α} (h : (next place).Gives place result) :
    (position >>= next).Gives place result :=
  h

/-- A step that goes on after the result of another, and only then. -/
theorem Gives.bind (h : step.Gives place result) {next : α → Step β}
    {nextResult : α → Except CompileError β} (hnext : ∀ x, (next x).Gives place (nextResult x)) :
    (step >>= next).Gives place (result >>= nextResult) := by
  intro errors
  rw [bind_apply, h errors]
  cases result with
  | error e => rfl
  | ok x => exact hnext x errors

/-- A step whose result is changed. -/
theorem Gives.map (h : step.Gives place result) (f : α → β) :
    (f <$> step).Gives place (f <$> result) := by
  rw [← bind_pure_comp]
  have hbind := h.bind fun x ↦ gives_pure (f x)
  cases result <;> exact hbind

/-- The errors of an operand are recorded in the session that it belongs to. -/
theorem Gives.atOperand {index : Nat} {expected : Option Ty} {nullable : Bool}
    (h : step.Gives (place.operand index expected nullable) result) :
    (atOperand index expected nullable step).Gives place result := by
  intro errors
  rw [Step.atOperand, h errors]
  cases result <;> rfl

/-- An expression is made fit for the position, or what it lacks is recorded. -/
theorem enforce_gives (expr : Expr) : (enforce expr).Gives place (place.enforce expr) := by
  refine Gives.of_position ?_
  rw [Position.enforce]
  cases place.expected with
  | none => exact gives_pure expr
  | some expected =>
      dsimp only
      split
      · exact gives_pure _
      · exact gives_raise _

/-- Operands compile as they do without a session, if each of them does. -/
theorem compileOperands_gives_of {operands : List Value}
    (hoperands : ∀ operand ∈ operands, ∀ place,
      (compile operand).Gives place (StyleLang.compile operand place))
    (index : Nat) (ty : Option Ty) :
    (compileOperands operands index ty).Gives place
      (StyleLang.compileOperands operands place index ty) := by
  induction operands generalizing index ty with
  | nil => exact gives_pure _
  | cons operand operands ih =>
      have hrest := ih fun other hmem ↦ hoperands other (List.mem_cons_of_mem _ hmem)
      rw [compileOperands, StyleLang.compileOperands]
      refine (hoperands operand List.mem_cons_self _).atOperand.bind fun expr ↦ ?_
      exact (hrest _ _).bind fun _ ↦ gives_pure _

/-- A call compiles as it does without a session, if its items do. -/
theorem compileForm_gives_of {items : List Value}
    (hitems : ∀ item ∈ items, ∀ place, (compile item).Gives place (StyleLang.compile item place))
    (form : Form) :
    (compileForm form items).Gives place (StyleLang.compileForm form items place) := by
  fun_cases StyleLang.compileForm form items place
  case case1 => exact .of_position (gives_pure _)
  case case2 key | case3 key => exact (hitems key (by simp) _).atOperand.map _
  case case4 => exact gives_pure _
  case case5 input | case6 input | case7 input =>
    exact (hitems input (by simp) _).atOperand.map _
  case case8 item input =>
    rw [compileForm, arrayItem, arrayType]
    cases arrayItem? item with
    | none => exact gives_raiseAt _ _
    | some ty => exact (hitems input (by simp) _).atOperand.map _
  case case9 item length input =>
    rw [compileForm, arrayItem, arrayLength, arrayType]
    cases arrayItem? item with
    | none => exact gives_raiseAt _ _
    | some ty =>
        cases arrayLength? length with
        | none => exact gives_raiseAt _ _
        | some length => exact (hitems input (by simp) _).atOperand.map _
  case case10 hempty =>
    rw [compileForm, if_pos hempty]
    exact gives_raise _
  case case11 operands hempty =>
    rw [compileForm, if_neg hempty]
    refine .of_position ?_
    refine (compileOperands_gives_of (fun operand hmem ↦ ?_) _ _).bind fun _ ↦ gives_pure _
    exact hitems operand (List.mem_cons_of_mem _ hmem)
  case case12 =>
    rw [compileForm]
    · exact gives_raise _
    all_goals assumption

/-- Compilation in a session does what it does without one. -/
theorem compile_gives (raw : Value) (place : Position) :
    (compile raw).Gives place (StyleLang.compile raw place) := by
  induction raw using Value.induction generalizing place with
  | array items ih =>
      rw [compile, StyleLang.compile]
      cases items.head? with
      | none => exact (gives_raise _).bind enforce_gives
      | some operator =>
          cases operator with
          | string name =>
              cases hform : Form.ofOperator? name with
              | none =>
                  simp only [hform]
                  exact (gives_raiseAt _ _).bind enforce_gives
              | some form =>
                  simp only [hform]
                  exact (compileForm_gives_of ih form).bind enforce_gives
          | _ => exact (gives_raise _).bind enforce_gives
  | object fields => exact gives_raise _
  | _ => exact .of_position (enforce_gives _)

end Step

variable {session : Session}

/-- An expression is compiled in a session as it is without one. -/
theorem compile_eq_record (raw : Value) :
    session.compile raw = session.record (StyleLang.compile raw session.position) :=
  Step.compile_gives raw session.position session.errors

/-- An operand is compiled in a session as it is without one. -/
theorem compileOperand_eq_record (raw : Value) (index : Nat) (expected : Option Ty)
    (nullable : Bool) :
    session.compileOperand raw index expected nullable =
      session.record
        (StyleLang.compile raw (session.position.operand index expected nullable)) :=
  (Step.compile_gives raw _).atOperand session.errors

/-- A call is compiled in a session as it is without one. -/
theorem call_eq_record (family : FormFamily) (items : List Value) :
    session.call family items =
      session.record
        (match formOf family items.head? with
        | .ok form => compileForm form items session.position
        | .error cause => session.position.fail cause) := by
  rw [call]
  cases formOf family items.head? with
  | error cause => exact Step.gives_raise cause session.errors
  | ok form =>
      exact Step.compileForm_gives_of (fun item _ ↦ Step.compile_gives item) form session.errors

/-- `session.Recorded outcome` says that what came out of the session is a result, and the session
is as it was, or no result, and one error more was recorded. -/
def Recorded (session : Session) (outcome : Option α × Session) : Prop :=
  (∃ x, outcome = (some x, session)) ∨
    ∃ e, outcome = (none, { session with errors := session.errors ++ [e] })

/-- What is recorded has a result or one error. -/
theorem recorded_record (result : Except CompileError α) :
    session.Recorded (session.record result) := by
  cases result with
  | error e => exact .inr ⟨e, rfl⟩
  | ok x => exact .inl ⟨x, rfl⟩

end Session

/-- A whole expression compiles as it does in its place, and its error is the only one. -/
theorem compileExpression_eq_mapError (raw : Value) (expected : Option Ty) :
    compileExpression raw expected =
      (compile raw { expected : Position }).mapError ([·]) := by
  rw [compileExpression, Session.compile_eq_record]
  cases compile raw { expected : Position } <;> rfl

/-- Whatever was recorded before, compilation of an expression, of an operand, whether null is taken
there or not, and of a call of every family of forms with any items, has a result and leaves the
session as it was, or has none and adds exactly one error to the errors before it; the position
stays the same. So a whole expression compiles or is refused with exactly one error. -/
theorem Session.records (session : Session) :
    (∀ raw, session.Recorded (session.compile raw)) ∧
      (∀ raw index expected nullable,
        session.Recorded (session.compileOperand raw index expected nullable)) ∧
      (∀ family items, session.Recorded (session.call family items)) ∧
      ∀ raw expected, (∃ expr, compileExpression raw expected = .ok expr) ∨
        ∃ e, compileExpression raw expected = .error [e] := by
  refine ⟨fun raw ↦ ?_, fun raw index expected nullable ↦ ?_, fun family items ↦ ?_,
    fun raw expected ↦ ?_⟩
  · rw [compile_eq_record]
    exact recorded_record _
  · rw [compileOperand_eq_record]
    exact recorded_record _
  · rw [call_eq_record]
    exact recorded_record _
  · rw [compileExpression_eq_mapError]
    cases StyleLang.compile raw { expected : Position } with
    | error e => exact .inr ⟨e, rfl⟩
    | ok expr => exact .inl ⟨expr, rfl⟩

end StyleLang
