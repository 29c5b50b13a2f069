import StyleLang.Proofs.Untyped

/-!
# The type of a coalesce

A coalesce has the type that is expected of it. Where none is, the operands settle the type: it is
that of the first operand whose type is not null (`ElaboratesOperands.eq_findSome?`), and null if
there is none. `compileExpression_coalesce_shape` says that of every coalesce that compiles, and
that the compiled coalesce is one node, or one in an annotation if wrappers were inferred around
operands.
-/

namespace StyleLang

/-- The type that an operand gives to a coalesce of which no type is expected: its own, where none
is expected either, if it compiles and its type is not null. -/
def Value.settledType? (operand : Value) : Option Ty :=
  match compileExpression operand none with
  | .ok expr => if expr.ty = .null then none else some expr.ty
  | .error _ => none

namespace ElaboratesOperands

variable {operands : List Value} {expected result : Option Ty} {exprs : List Expr}

/-- Operands of which no type is expected come to the type of the first of them that settles it. -/
theorem eq_findSome? (h : ElaboratesOperands operands none result exprs) :
    result = operands.findSome? Value.settledType? := by
  induction operands generalizing exprs with
  | nil =>
      cases h
      rfl
  | cons operand operands ih =>
      cases h with
      | @cons _ _ _ _ core expr exprs hcore hfits hrest =>
          have hcompile : compileExpression operand none = .ok expr :=
            compileExpression_eq_ok_iff.mpr ⟨core, hcore, hfits⟩
          rw [List.findSome?_cons, Value.settledType?, hcompile]
          by_cases hnull : expr.ty = .null
          · rw [knownAfter, if_pos hnull] at hrest
            simp only [if_pos hnull]
            exact ih hrest
          · rw [knownAfter, if_neg hnull] at hrest
            simp only [if_neg hnull]
            exact hrest.eq_of_some

/-- A coalesce of operands none of which has an inferred wrapper is one node. Otherwise it is a
coalesce of the universal type, without the wrappers, in an annotation. -/
theorem assemble_cases (h : ElaboratesOperands operands expected result exprs) :
    ((∀ expr ∈ exprs, expr.isInferred = false) ∧
      Expr.assemble (result.getD .null) exprs = .coalesce (result.getD .null) exprs) ∨
    (∃ expr ∈ exprs, expr.isInferred = true) ∧
      Expr.assemble (result.getD .null) exprs =
        .wrap ⟨(result.getD .null).annotationKind, result.getD .null, false⟩
          (.coalesce .value (exprs.map Expr.bare)) := by
  rw [Expr.assemble_eq]
  cases hany : exprs.any Expr.isInferred with
  | false =>
      left
      rw [List.any_eq_false] at hany
      exact ⟨fun expr hmem ↦ eq_false_of_ne_true (hany expr hmem), rfl⟩
  | true =>
      right
      obtain ⟨expr, hmem, hinferred⟩ := List.any_eq_true.mp hany
      -- The type that a wrapper was inferred for is not the universal one, which is not annotated.
      obtain ⟨known, -, rfl, -, hnull⟩ := h.exists_wrap hmem hinferred
      have hvalue : known ≠ .value := by
        intro hknown
        rw [hknown, Ty.value_accepts] at hnull
        cases hnull
      exact ⟨⟨expr, hmem, hinferred⟩, Expr.annotate_eq_wrap hvalue _⟩

end ElaboratesOperands

/-- A compiled coalesce has the type that is expected, unless it is the universal one. Else it has
the type of the first operand whose type is not null where none is expected, or the type null. It is
one coalesce node of the operands as they compile at their places, or, if wrappers were inferred
around some of them, one wrapper that is not inferred around a coalesce of the universal type. -/
theorem compileExpression_coalesce_shape {operands : List Value} {expected : Option Ty}
    {root : Expr} (h : compileExpression (.call "coalesce" operands) expected = .ok root) :
    (∀ ty, expected = some ty → ty ≠ .value → root.ty = ty) ∧
    (expected = none ∨ expected = some .value →
      root.ty = (operands.findSome? Value.settledType?).getD .null) ∧
    ∃ result exprs,
      compileOperands operands { expected } 1 (expected.filter (·.isConcrete)) =
        .ok (result, exprs) ∧
      ((∀ expr ∈ exprs, expr.isInferred = false) ∧ root = .coalesce root.ty exprs ∨
        (∃ expr ∈ exprs, expr.isInferred = true) ∧
          root = .wrap ⟨root.ty.annotationKind, root.ty, false⟩
            (.coalesce .value (exprs.map Expr.bare))) := by
  obtain ⟨-, result, exprs, hexprs, rfl⟩ := compileExpression_coalesce_iff.mp h
  rw [Expr.ty_assemble]
  refine ⟨?_, fun hexpected ↦ ?_, result, exprs, compileOperands_eq_ok_iff.mpr hexprs,
    hexprs.assemble_cases⟩
  · intro ty hty hvalue
    subst hty
    rw [Option.filter_some_pos (Ty.isConcrete_iff.mpr hvalue)] at hexprs
    rw [hexprs.eq_of_some, Option.getD_some]
  · have hnone : expected.filter (·.isConcrete) = none := by
      rcases hexpected with rfl | rfl <;> rfl
    rw [hnone] at hexprs
    rw [← hexprs.eq_findSome?]

/-- A coalesce of null, a number and a lookup, of which no type is expected: the number settles the
type, and the lookup brings about an annotation. -/
theorem compileExpression_coalesce_shape_number :
    ∃ root,
      compileExpression (.call "coalesce" [.null, .number 5, .call "get" [.string "a"]]) none =
        .ok root ∧
      root.ty = ([.null, .number 5, .call "get" [.string "a"]].findSome?
        Value.settledType?).getD .null ∧
      root.ty = .number ∧
      ∃ args, root = .wrap ⟨.assertion, .number, false⟩ (.coalesce .value args) := by
  have hroot :
      compileExpression (.call "coalesce" [.null, .number 5, .call "get" [.string "a"]]) none =
        .ok (.annotate .number (.coalesce .value
          [.literal .null .null, .literal .number (.number 5),
            .get (.literal .string (.string "a"))])) := rfl
  obtain ⟨-, htype, result, exprs, hexprs, hshape⟩ := compileExpression_coalesce_shape hroot
  refine ⟨_, hroot, htype (.inl rfl), rfl, ?_⟩
  rcases hshape with ⟨-, hcoalesce⟩ | ⟨-, hwrap⟩
  · cases hcoalesce
  · exact ⟨_, hwrap⟩

end StyleLang
