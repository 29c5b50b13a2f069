import StyleLang.Proofs.Compilation

/-!
# Quoted scalars

A scalar that stands for an expression is a literal, as it is when it is quoted by a call of
`literal`. `Value.quoteScalars` quotes any choice of the scalars in a source that stand for
expressions, at any depth. The source then compiles to the same expression, or fails with the same
error at the same place (`compile_quoteScalars`).
-/

namespace StyleLang

/-- Whether the operand at an index of a call is an expression of its own. The indices start at one.
The input of `array` follows an item type and a length, and the operand of `literal` is none. With
a wrong number of operands a call has no expression to compile. -/
def Form.takesExpression : Form → (count index : Nat) → Bool
  | .literal, _, _ | .zoom, _, _ => false
  | .get, count, _ | .has, count, _ | .assertion _, count, _ | .coercion _, count, _ => count == 1
  | .array, count, index => index == count && decide (count ≤ 3)
  | .coalesce, _, _ => true

namespace Value

mutual

/-- The source with some of its scalars quoted, which stand for expressions at a place that is
chosen. -/
def quoteScalars (chosen : List Nat → Bool) (location : List Nat) : Value → Value
  | .array (.string name :: args) =>
      match Form.ofOperator? name with
      | some form =>
          .call name (quoteOperands chosen location (form.takesExpression args.length) 1 args)
      | none => .call name args
  | .array items => .array items
  | .object fields => .object fields
  | scalar => if chosen location then .call "literal" [scalar] else scalar

/-- The operands of a call from an index on, with some scalars in those that are expressions
quoted. -/
def quoteOperands (chosen : List Nat → Bool) (location : List Nat) (takesExpression : Nat → Bool)
    (index : Nat) : List Value → List Value
  | [] => []
  | operand :: operands =>
      (if takesExpression index then quoteScalars chosen (location ++ [index]) operand
        else operand) ::
        quoteOperands chosen location takesExpression (index + 1) operands

end

example :
    quoteScalars (fun _ ↦ true) []
        (.call "coalesce" [.call "get" [.string "a"], .call "literal" [.null], .null]) =
      .call "coalesce" [.call "get" [.call "literal" [.string "a"]], .call "literal" [.null],
        .call "literal" [.null]] := by
  rfl

variable {chosen : List Nat → Bool} {location : List Nat}

/-- Where no operand is an expression, all of them stay as they are. -/
theorem quoteOperands_of_forall {takesExpression : Nat → Bool}
    (h : ∀ index, takesExpression index = false) (index : Nat) (operands : List Value) :
    quoteOperands chosen location takesExpression index operands = operands := by
  induction operands generalizing index with
  | nil => rfl
  | cons operand operands ih => rw [quoteOperands, h, ih, if_neg Bool.false_ne_true]

/-- There are as many operands as before. -/
theorem isEmpty_quoteOperands (takesExpression : Nat → Bool) (index : Nat)
    (operands : List Value) :
    (quoteOperands chosen location takesExpression index operands).isEmpty = operands.isEmpty := by
  cases operands <;> rfl

end Value

variable {chosen : List Nat → Bool}

/-- A quoted scalar compiles as the bare one. -/
theorem compile_literal {value : Value} (h : value.isScalar = true) (position : Position) :
    compile (.call "literal" [value]) position = compile value position := by
  rw [compile_call rfl, compileForm, ok_bind]
  cases value with
  | array | object => cases h
  | _ =>
      rw [compile]
      all_goals simp

/-- Operands of a coalesce compile alike with and without quotes, if each of them does. -/
theorem compileOperands_quoteOperands {operands : List Value}
    (h : ∀ operand ∈ operands, ∀ position : Position,
      compile (operand.quoteScalars chosen position.location) position = compile operand position)
    (position : Position) (index : Nat) (ty : Option Ty) :
    compileOperands (Value.quoteOperands chosen position.location (fun _ ↦ true) index operands)
        position index ty =
      compileOperands operands position index ty := by
  induction operands generalizing index ty with
  | nil => rfl
  | cons operand operands ih =>
      obtain ⟨hoperand, hoperands⟩ := List.forall_mem_cons.mp h
      have hfirst := hoperand (position.operand index ty true)
      rw [Position.operand] at hfirst
      simp only [Value.quoteOperands, if_true, compileOperands, Position.operand, hfirst,
        ih hoperands]

/-- A call compiles alike with and without quotes in its operands, if each of them does. -/
theorem compileForm_quoteOperands {args : List Value}
    (h : ∀ operand ∈ args, ∀ position : Position,
      compile (operand.quoteScalars chosen position.location) position = compile operand position)
    (form : Form) (head : Value) (position : Position) :
    compileForm form (head :: Value.quoteOperands chosen position.location
        (form.takesExpression args.length) 1 args) position =
      compileForm form (head :: args) position := by
  have hoperand : ∀ operand ∈ args, ∀ index ty,
      compile (operand.quoteScalars chosen (position.location ++ [index]))
          (position.operand index ty) =
        compile operand (position.operand index ty) :=
    fun operand hmem index ty ↦ h operand hmem (position.operand index ty)
  cases form with
  | literal | zoom =>
      rw [Value.quoteOperands_of_forall]
      exact fun _ ↦ rfl
  | get | has | assertion | coercion =>
      rcases args with _ | ⟨operand, _ | ⟨second, operands⟩⟩
      · rfl
      · simp [Value.quoteOperands, Form.takesExpression, compileForm, hoperand]
      · rw [Value.quoteOperands_of_forall]
        simp [Form.takesExpression]
  | array =>
      rcases args with _ | ⟨first, _ | ⟨second, _ | ⟨third, _ | ⟨fourth, operands⟩⟩⟩⟩
      · rfl
      -- The last of one to three operands is the input.
      · simp [Value.quoteOperands, Form.takesExpression, compileForm, hoperand]
      · simp [Value.quoteOperands, Form.takesExpression, compileForm, hoperand]
      · simp [Value.quoteOperands, Form.takesExpression, compileForm, hoperand]
      · rw [Value.quoteOperands_of_forall]
        simp [Form.takesExpression]
  | coalesce =>
      have htakes : Form.coalesce.takesExpression args.length = fun _ ↦ true := rfl
      rw [htakes, compileForm, compileForm]
      simp only [Value.isEmpty_quoteOperands, compileOperands_quoteOperands h]

/-- Quoting scalars of a source does not change what it compiles to, nor the error it fails with. -/
theorem compile_quoteScalars (raw : Value) (position : Position) :
    compile (raw.quoteScalars chosen position.location) position = compile raw position := by
  induction raw using Value.induction generalizing position with
  | object fields => rfl
  | array items ih =>
      cases items with
      | nil => rfl
      | cons head args =>
          cases head with
          | string name =>
              rw [Value.quoteScalars]
              split
              · rename_i form hform
                obtain ⟨-, hargs⟩ := List.forall_mem_cons.mp ih
                rw [compile_call hform, compileForm_quoteOperands hargs, ← compile_call hform]
              · rfl
          | _ => rfl
  | _ =>
      rw [Value.quoteScalars]
      · split
        · exact compile_literal rfl position
        · rfl
      all_goals simp

/-- A source compiles to the same expression, or is refused with the same errors, if any number of
its scalars that stand for expressions, itself or operands at any depth, are quoted by calls of
`literal`. -/
theorem compileExpression_quoteScalars (raw : Value) (expected : Option Ty)
    (chosen : List Nat → Bool) :
    compileExpression (raw.quoteScalars chosen []) expected = compileExpression raw expected := by
  rw [compileExpression_eq_mapError, compileExpression_eq_mapError]
  exact congrArg (Except.mapError _) (compile_quoteScalars raw { expected })

end StyleLang
