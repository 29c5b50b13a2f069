import StyleLang.Proofs.Typing

/-!
# The guarantee of an expected type

A value of an expression that was compiled where a type is expected has the type, unless the source
is a coalesce of nothing but nulls. `compileExpression_accepts_iff` gives the exact condition. The
exception lies in the operands of a coalesce: null is taken there in spite of the expected type, and
a literal null gets no wrapper that would refuse it afterwards.
-/

namespace StyleLang

/-- A raw value says null if it is null, a literal of null, or a coalesce of such values. -/
inductive Value.NullForm : Value → Prop where
  | null : NullForm .null
  | literal : NullForm (.call "literal" [.null])
  | coalesce {operands : List Value} :
      operands ≠ [] → (∀ operand ∈ operands, NullForm operand) →
      NullForm (.call "coalesce" operands)

namespace Expr

/-- Nothing is inferred around an expression of type null, or of the type that is expected. -/
theorem Fits.eq_of_ty {core expr : Expr} {expected : Option Ty} {nullable : Bool}
    (h : core.Fits expected nullable expr) (hty : core.ty = .null ∨ expected = some core.ty) :
    expr = core := by
  cases expected with
  | none => exact h
  | some ty =>
      obtain ⟨rfl, -⟩ := h
      have hnone : WrapperKind.inferred? ty core.ty = none := by
        rcases hty with hnull | hsame
        · rw [hnull]
          cases ty <;> rfl
        · cases hsame
          exact WrapperKind.inferred?_self core.ty
      rw [inferWrapper, hnone]

variable {context : EvalContext}

/-- An expression that is null in spite of the expected type has no wrapper inferred around it. -/
theorem Fits.eq_of_evaluate_null {core expr : Expr} {ty : Ty} {nullable : Bool}
    (h : core.Fits (some ty) nullable expr) (hty : ty.accepts .null = false)
    (hnull : expr.evaluate context = .ok .null) : expr = core := by
  obtain ⟨rfl, -⟩ := h
  rcases inferWrapper_cases core ty with hsame | ⟨hwrap, -⟩
  · exact hsame
  · rw [hwrap, evaluate_wrap, Wrapper.apply_annotationKind, bind_eq_ok_iff] at hnull
    obtain ⟨value, -, hcheck⟩ := hnull
    exact absurd hcheck (Ty.check_ne_null hty value)

end Expr

variable {context : EvalContext}

/-- If the operands of a coalesce say null, then they are null, no wrapper is inferred around them,
and its type is known no better after them than before. -/
theorem ElaboratesOperands.of_null {operands : List Value} {ty result : Option Ty}
    {exprs : List Expr} (h : ElaboratesOperands operands ty result exprs)
    (hoperands : ∀ operand ∈ operands, ∀ {expected : Option Ty} {core : Expr},
      Elaborates operand expected core →
        (core.ty = .null ∨ expected = some core.ty) ∧ core.evaluate context = .ok .null) :
    result = ty ∧
      ∀ expr ∈ exprs, expr.isInferred = false ∧ expr.evaluate context = .ok .null := by
  induction operands generalizing ty exprs with
  | nil =>
      cases h
      exact ⟨rfl, by simp⟩
  | cons operand operands ih =>
      cases h with
      | @cons _ _ _ _ core expr exprs hcore hfits hrest =>
          obtain ⟨hty, hnull⟩ := hoperands operand List.mem_cons_self hcore
          obtain rfl : expr = core := hfits.eq_of_ty hty
          have hknown : knownAfter ty expr = ty := by
            cases ty with
            | some ty => rfl
            | none => simpa [knownAfter] using hty
          rw [hknown] at hrest
          obtain ⟨hresult, hexprs⟩ :=
            ih hrest fun other hmem ↦ hoperands other (List.mem_cons_of_mem _ hmem)
          refine ⟨hresult, List.forall_mem_cons.mpr ⟨⟨hcore.not_isInferred, hnull⟩, hexprs⟩⟩

/-- What says null is null wherever it is compiled, and has the type null or the one expected. -/
theorem Elaborates.of_nullForm {raw : Value} (h : raw.NullForm) {expected : Option Ty}
    {core : Expr} (hcore : Elaborates raw expected core) :
    (core.ty = .null ∨ expected = some core.ty) ∧ core.evaluate context = .ok .null := by
  induction h generalizing expected core with
  | null =>
      cases hcore with
      | scalar => exact ⟨.inl rfl, rfl⟩
  | literal =>
      cases hcore.of_call rfl with
      | literal => exact ⟨.inl rfl, rfl⟩
      | wrap hwrapper => cases hwrapper
  | coalesce _ _ ih =>
      obtain ⟨-, _, exprs, hexprs, rfl⟩ := Elaborates.coalesce_iff.mp hcore
      obtain ⟨rfl, hnull⟩ := hexprs.of_null ih
      have hbare : exprs.any Expr.isInferred = false :=
        List.any_eq_false.mpr fun expr hmem ↦ by simp [(hnull expr hmem).1]
      constructor
      · rw [Expr.ty_assemble]
        cases hconcrete : expected.filter (·.isConcrete) with
        | none => exact .inl rfl
        | some ty => exact .inr (Option.filter_eq_some_iff.mp hconcrete).1
      · rw [Expr.evaluate_assemble_of_not_any hbare, Expr.evaluateFirst_eq_null_iff]
        exact fun expr hmem ↦ (hnull expr hmem).2

/-- What is null in spite of an expected type that does not accept null, says null. -/
theorem Elaborates.nullForm {raw : Value} {ty : Ty} {core : Expr}
    (h : Elaborates raw (some ty) core) (hty : ty.accepts .null = false)
    (hsuits : core.ty = .null ∨ ty.accepts core.ty = true)
    (hnull : core.evaluate context = .ok .null) : raw.NullForm := by
  generalize hexpected : some ty = expected at h
  have htyped := h.wellTyped
  induction h using Elaborates.induction with
  | scalar =>
      cases hnull
      exact .null
  | literal hform =>
      cases hnull
      rw [Form.operator_unique hform (rfl : Form.ofOperator? "literal" = _)]
      exact .literal
  | get =>
      -- The type of a lookup is the universal type, which suits no other type.
      rcases hsuits with hcore | hcore
      · cases hcore
      · rw [Expr.ty, Ty.accepts_value_iff] at hcore
        rw [hcore] at hty
        cases hty
  | has | zoom => exact absurd rfl (htyped.ne_null nofun rfl hnull)
  | wrap hform hwrapper =>
      have hwrapperTy := (Form.wrapper?_spec hform hwrapper).2.1
      exact absurd rfl (htyped.ne_null nofun hwrapperTy hnull)
  | @coalesce _ operands _ result exprs hform hoperands hexprs ih =>
      subst hexpected
      have hconcrete : ty.isConcrete = true := by
        rw [Ty.isConcrete_iff]
        rintro rfl
        cases hty
      rw [Option.filter_some_pos hconcrete] at hexprs
      obtain rfl := hexprs.eq_of_some
      -- An annotation would refuse null, so there is none, and every operand is null itself.
      obtain ⟨hany, hfirst⟩ := Expr.evaluate_assemble_eq_null hty hnull
      rw [Expr.map_bare_of_not_any hany, Expr.evaluateFirst_eq_null_iff] at hfirst
      rw [Form.operator_unique hform (rfl : Form.ofOperator? "coalesce" = _)]
      refine .coalesce hoperands fun operand hmem ↦ ?_
      obtain ⟨core, hcore, expr, hexpr, hfits⟩ := hexprs.exists_of_some hmem
      have hexprNull := hfirst expr hexpr
      obtain rfl := hfits.eq_of_evaluate_null hty hexprNull
      exact ih operand hmem hcore (hfits.2.imp_left (·.2)) hexprNull rfl hcore.wellTyped

/-- The value of an expression that was compiled where a type is expected has the type, unless it is
null and the source says so. -/
theorem compileExpression_accepts_iff {raw : Value} {ty : Ty} {root : Expr}
    (h : compileExpression raw (some ty) = .ok root) {value : Value}
    (hvalue : root.evaluate context = .ok value) :
    ty.accepts value.type = true ↔ ty = .value ∨ ty = .null ∨ ¬ raw.NullForm := by
  obtain ⟨core, hcore, hfits⟩ := compileExpression_eq_ok_iff.mp h
  rw [← or_assoc, ← Ty.accepts_null_iff]
  constructor
  · intro haccepts
    by_cases hraw : raw.NullForm
    · obtain ⟨hty, hnull⟩ := @Elaborates.of_nullForm context _ hraw _ _ hcore
      obtain rfl := hfits.eq_of_ty hty
      rw [hnull] at hvalue
      cases hvalue
      exact .inl haccepts
    · exact .inr hraw
  · intro hcondition
    rcases (hfits.wellTyped hcore.wellTyped).type_of_evaluate hvalue with rfl | haccepts
    · rcases hcondition with hty | hraw
      · exact hty
      · cases hty : ty.accepts .null with
        | true => exact hty
        | false =>
            obtain rfl := hfits.eq_of_evaluate_null hty hvalue
            exact absurd (hcore.nullForm hty (.inr hfits.accepts) hvalue) hraw
    · exact Ty.accepts_trans hfits.accepts haccepts

/-- A lookup with a default gives a number where a number is expected, as its source does not say
null. -/
theorem compileExpression_accepts_iff_lookup :
    ∃ root,
      compileExpression (.call "coalesce" [.call "get" [.string "a"], .number 0]) (some .number) =
        .ok root ∧
      root.evaluate {} = .ok (.number 0) ∧
      (Ty.number.accepts (Value.number 0).type = true ↔
        Ty.number = .value ∨ Ty.number = .null ∨
          ¬ (Value.call "coalesce" [.call "get" [.string "a"], .number 0]).NullForm) := by
  have hroot :
      compileExpression (.call "coalesce" [.call "get" [.string "a"], .number 0]) (some .number) =
        .ok (.annotate .number (.coalesce .value
          [.get (.literal .string (.string "a")), .literal .number (.number 0)])) := rfl
  have hvalue := compileExpression_accepts_iff hroot (show Expr.evaluate _ {} = _ from rfl)
  exact ⟨_, hroot, rfl, hvalue⟩

/-- A coalesce of null compiles where a number is expected, and it is null. -/
theorem compileExpression_not_accepts_coalesce_null :
    ∃ root, compileExpression (.call "coalesce" [.null]) (some .number) = .ok root ∧
      root.evaluate {} = .ok .null ∧ Ty.number.accepts Value.null.type = false :=
  ⟨.coalesce .number [.literal .null .null], rfl, rfl, rfl⟩

end StyleLang
