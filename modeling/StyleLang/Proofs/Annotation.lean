import StyleLang.Compile.Basic
import StyleLang.Proofs.Evaluation

/-!
# Annotations

An inferred wrapper and the annotation around a coalesce do the same to a value, which is
`Ty.check`. `Expr.evaluate_assemble` says what a compiled coalesce evaluates to: its operands
without their inferred wrappers decide, and the result is checked if any of them had one.
-/

namespace StyleLang

namespace Ty

/-- What an annotation of a type makes of a value: a color of it for the type color, and for the
other types the value itself if the type accepts it. -/
def check (ty : Ty) (value : Value) : Except EvalError Value :=
  match ty with
  | .color => Ty.color.convert value
  | _ => if ty.accepts value.type then .ok value else .error (.typeMismatch ty value.type)

theorem check_of_ne_color {ty : Ty} (hty : ty ≠ .color) (value : Value) :
    ty.check value =
      if ty.accepts value.type then .ok value else .error (.typeMismatch ty value.type) := by
  cases ty with
  | color => exact absurd rfl hty
  | _ => rfl

/-- A value of a type passes the check of the type as it is. -/
theorem check_of_accepts {ty : Ty} {value : Value} (h : ty.accepts value.type = true) :
    ty.check value = .ok value := by
  by_cases hcolor : ty = .color
  · subst hcolor
    rw [color_accepts_iff, Value.type_eq_color_iff] at h
    obtain ⟨c, rfl⟩ := h
    rfl
  · rw [check_of_ne_color hcolor, if_pos h]

/-- Only the check for colors changes values. -/
theorem eq_of_check {ty : Ty} {value result : Value} (hty : ty ≠ .color)
    (h : ty.check value = .ok result) : result = value := by
  rw [check_of_ne_color hty] at h
  split at h
  · cases h
    rfl
  · cases h

/-- The values that pass the check of a type have the type. -/
theorem accepts_of_check {ty : Ty} {value result : Value} (h : ty.check value = .ok result) :
    ty.accepts result.type = true := by
  by_cases hcolor : ty = .color
  · subst hcolor
    rw [check, convert] at h
    cases hc : value.toColor? with
    | none => simp [hc] at h
    | some c =>
        rw [hc] at h
        cases h
        rfl
  · obtain rfl := eq_of_check hcolor h
    rw [check_of_ne_color hcolor] at h
    split at h
    · assumption
    · cases h

/-- A value that passed the check of a type passes it again. -/
theorem check_check {ty : Ty} {value result : Value} (h : ty.check value = .ok result) :
    ty.check result = .ok result :=
  check_of_accepts (accepts_of_check h)

/-- What was checked can be checked again, or not. -/
theorem check_bind_check (ty : Ty) (value : Except EvalError Value) (again : Bool) :
    (value >>= ty.check >>= fun result ↦ if again then ty.check result else .ok result) =
      value >>= ty.check := by
  cases value with
  | error e => rfl
  | ok value =>
      rw [ok_bind]
      cases hcheck : ty.check value with
      | error e => rfl
      | ok result => rw [ok_bind, check_check hcheck, ite_self]

/-- The check of a type that does not accept null never gives null. -/
theorem check_ne_null {ty : Ty} (h : ty.accepts .null = false) (value : Value) :
    ty.check value ≠ .ok .null := by
  intro hcheck
  have hnull := accepts_of_check hcheck
  rw [Value.type, h] at hnull
  cases hnull

/-- Null fails the check of a type that does not accept it. -/
theorem check_null {ty : Ty} (h : ty.accepts .null = false) : ∃ e, ty.check .null = .error e := by
  cases hcheck : ty.check .null with
  | error e => exact ⟨e, rfl⟩
  | ok result =>
      by_cases hcolor : ty = .color
      · subst hcolor
        cases hcheck
      · obtain rfl := eq_of_check hcolor hcheck
        exact absurd hcheck (check_ne_null h .null)

/-- The kind of the wrapper that enforces a type. -/
def annotationKind : Ty → WrapperKind
  | color => .coercion
  | array _ _ => .array
  | _ => .assertion

end Ty

/-- The wrapper that enforces a type checks the type. -/
theorem Wrapper.apply_annotationKind (ty : Ty) (inferred : Bool) :
    (Wrapper.mk ty.annotationKind ty inferred).apply = ty.check := by
  funext value
  cases ty <;> rfl

/-- What it takes for a wrapper to be inferred. -/
theorem WrapperKind.inferred?_eq_some {expected actual : Ty} {kind : WrapperKind}
    (h : WrapperKind.inferred? expected actual = some kind) :
    kind = expected.annotationKind ∧ expected.accepts .null = false ∧
      expected.isConcrete = true := by
  unfold WrapperKind.inferred? at h
  split at h <;> cases h <;> exact ⟨rfl, rfl, rfl⟩

/-- No wrapper is inferred around an expression that has the type already. -/
theorem WrapperKind.inferred?_self (ty : Ty) : WrapperKind.inferred? ty ty = none := by
  cases ty <;> rfl

namespace Expr

variable {context : EvalContext}

/-- An expression without an inferred wrapper at its root. -/
def bare (expr : Expr) : Expr :=
  expr.stripInferred.getD expr

/-- Whether the root of an expression is an inferred wrapper. -/
def isInferred (expr : Expr) : Bool :=
  expr.stripInferred.isSome

theorem bare_of_not_isInferred {expr : Expr} (h : expr.isInferred = false) : expr.bare = expr := by
  rw [isInferred, Option.isSome_eq_false_iff, Option.isNone_iff_eq_none] at h
  rw [bare, h, Option.getD_none]

@[simp]
theorem bare_wrap (kind : WrapperKind) (ty : Ty) (input : Expr) :
    (Expr.wrap ⟨kind, ty, true⟩ input).bare = input :=
  rfl

/-- An expression stays as it is where its type is expected. -/
theorem inferWrapper_self (expr : Expr) : expr.inferWrapper expr.ty = expr := by
  rw [inferWrapper, WrapperKind.inferred?_self]

/-- An expression where a type is expected stays as it is or is checked by an inferred wrapper. -/
theorem inferWrapper_cases (expr : Expr) (ty : Ty) :
    expr.inferWrapper ty = expr ∨
      expr.inferWrapper ty = .wrap ⟨ty.annotationKind, ty, true⟩ expr ∧
        ty.accepts .null = false ∧ ty.isConcrete = true := by
  rw [inferWrapper]
  split
  · rename_i kind hkind
    obtain ⟨rfl, hty⟩ := WrapperKind.inferred?_eq_some hkind
    exact .inr ⟨rfl, hty⟩
  · exact .inl rfl

@[simp]
theorem ty_annotate_coalesce (ty : Ty) (args : List Expr) :
    (annotate ty (.coalesce .value args)).ty = ty := by
  cases ty <;> rfl

/-- An annotation is a wrapper, unless it is one of the universal type. -/
theorem annotate_eq_wrap {ty : Ty} (hty : ty ≠ .value) (expr : Expr) :
    annotate ty expr = .wrap ⟨ty.annotationKind, ty, false⟩ expr := by
  cases ty with
  | value => exact absurd rfl hty
  | _ => rfl

/-- An annotated expression checks what the expression gives. -/
theorem run_annotate (ty : Ty) (expr : Expr) :
    (annotate ty expr).run context =
      expr.run context >>= fun value ↦ .ofResult (ty.check value) := by
  by_cases hvalue : ty = .value
  · subst hvalue
    have hcheck : ∀ value : Value, Ty.value.check value = .ok value := fun value ↦
      Ty.check_of_accepts (Ty.value_accepts _)
    simp only [annotate, hcheck]
    exact (bind_pure _).symm
  · rw [annotate_eq_wrap hvalue, run, Wrapper.apply_annotationKind]

theorem assemble_eq (ty : Ty) (operands : List Expr) :
    assemble ty operands =
      if operands.any isInferred then annotate ty (.coalesce .value (operands.map bare))
      else .coalesce ty operands :=
  rfl

/-- The type of a compiled coalesce is the one that was found for it. -/
@[simp]
theorem ty_assemble (ty : Ty) (operands : List Expr) : (assemble ty operands).ty = ty := by
  rw [assemble_eq]
  split
  · exact ty_annotate_coalesce ty _
  · rfl

/-- A compiled coalesce is no inferred wrapper, even if an annotation stands around it. -/
theorem not_isInferred_assemble (ty : Ty) (operands : List Expr) :
    (assemble ty operands).isInferred = false := by
  rw [assemble_eq]
  split
  · cases ty <;> rfl
  · rfl

/-- Nothing is taken off expressions of which none is an inferred wrapper. -/
theorem map_bare_of_not_any {exprs : List Expr} (h : exprs.any isInferred = false) :
    exprs.map bare = exprs := by
  have hbare : ∀ expr ∈ exprs, expr.bare = id expr := by
    intro expr hmem
    exact bare_of_not_isInferred (List.any_eq_false.mp h expr hmem |> eq_false_of_ne_true)
  rw [List.map_congr_left hbare, List.map_id]

/-- A compiled coalesce is one node over its operands without their inferred wrappers, or an
annotation around such a node. -/
theorem assemble_cases (ty : Ty) (operands : List Expr) :
    (∃ result, assemble ty operands = .coalesce result (operands.map bare)) ∨
      ty ≠ .value ∧
        assemble ty operands =
          .wrap ⟨ty.annotationKind, ty, false⟩ (.coalesce .value (operands.map bare)) := by
  rw [assemble_eq]
  split
  · by_cases hvalue : ty = .value
    · subst hvalue
      exact .inl ⟨.value, rfl⟩
    · exact .inr ⟨hvalue, annotate_eq_wrap hvalue _⟩
  · rename_i hany
    rw [map_bare_of_not_any (eq_false_of_ne_true hany)]
    exact .inl ⟨ty, rfl⟩

/-- A compiled coalesce runs its operands without their inferred wrappers, and checks the result if
there was such a wrapper. -/
theorem run_assemble (ty : Ty) (operands : List Expr) :
    (assemble ty operands).run context =
      runFirst context (operands.map bare) >>= fun value ↦
        .ofResult (if operands.any isInferred then ty.check value else .ok value) := by
  rw [assemble_eq]
  cases hany : operands.any isInferred with
  | true => simp only [if_true, run_annotate, run]
  | false =>
      simp only [Bool.false_eq_true, if_false, run, map_bare_of_not_any hany]
      exact (bind_pure _).symm

/-- The result of a compiled coalesce. -/
theorem evaluate_assemble (ty : Ty) (operands : List Expr) :
    (assemble ty operands).evaluate context =
      evaluateFirst (operands.map bare) context >>= fun value ↦
        if operands.any isInferred then ty.check value else .ok value := by
  rw [evaluate, run_assemble, Run.result_bind, evaluateFirst]
  rfl

/-- A compiled coalesce none of whose operands had an inferred wrapper evaluates as they do. -/
theorem evaluate_assemble_of_not_any {ty : Ty} {operands : List Expr}
    (h : operands.any isInferred = false) :
    (assemble ty operands).evaluate context = evaluateFirst operands context := by
  rw [assemble_eq, h, if_neg Bool.false_ne_true, evaluate_coalesce]

/-- A compiled coalesce with an inferred wrapper around an operand checks what its operands evaluate
to. -/
theorem evaluate_assemble_of_any {ty : Ty} {operands : List Expr}
    (h : operands.any isInferred = true) :
    (assemble ty operands).evaluate context =
      evaluateFirst (operands.map bare) context >>= ty.check := by
  rw [evaluate_assemble]
  congr 1
  funext value
  rw [if_pos h]

/-- A compiled coalesce is null, in spite of a type that does not accept null, only if its operands
are null and none of them had an inferred wrapper. -/
theorem evaluate_assemble_eq_null {ty : Ty} {operands : List Expr} (hty : ty.accepts .null = false)
    (h : (assemble ty operands).evaluate context = .ok .null) :
    operands.any isInferred = false ∧ evaluateFirst (operands.map bare) context = .ok .null := by
  rw [evaluate_assemble, bind_eq_ok_iff] at h
  obtain ⟨value, hvalue, hcheck⟩ := h
  cases hany : operands.any isInferred with
  | true =>
      rw [hany, if_pos rfl] at hcheck
      exact absurd hcheck (Ty.check_ne_null hty value)
  | false =>
      rw [hany, if_neg Bool.false_ne_true] at hcheck
      cases hcheck
      exact ⟨rfl, hvalue⟩

end Expr

end StyleLang
