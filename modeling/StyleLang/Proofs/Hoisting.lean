import StyleLang.Proofs.Typing

/-!
# Hoisting the checks of operands

A coalesce is compiled without the wrappers that were inferred around its operands, and one
annotation checks the result in their place. The coalesce evaluates as it would with the wrappers
left on, unless the operand that decides is an inferred wrapper and refuses the null of its input.
There the compiled coalesce goes on to the operands after it. `compileForm_coalesce_hoists` says so
of every coalesce that compiles.
-/

namespace StyleLang

variable {context : EvalContext}

/-- The first operand of a coalesce that is not null is an inferred wrapper, which refuses the null
of its input; `after` are the operands after it. -/
def Expr.RefusesNull (operands : List Expr) (context : EvalContext) (wrapper : Wrapper)
    (after : List Expr) : Prop :=
  ∃ before input, operands = before ++ .wrap wrapper input :: after ∧
    (∀ operand ∈ before, operand.evaluate context = .ok .null) ∧
    wrapper.inferred = true ∧ input.evaluate context = .ok .null ∧
    ∃ e, wrapper.apply .null = .error e

/-- Operands of which a wrapper refuses null fail. -/
theorem Expr.RefusesNull.evaluateFirst_eq_error {operands after : List Expr} {wrapper : Wrapper}
    (h : RefusesNull operands context wrapper after) :
    ∃ e, evaluateFirst operands context = .error e := by
  obtain ⟨before, input, rfl, hbefore, -, hinput, e, he⟩ := h
  have hwrap : (Expr.wrap wrapper input).evaluate context = .error e := by
    rw [evaluate_wrap, hinput, ok_bind, he]
  refine ⟨e, ?_⟩
  rw [evaluateFirst_of_deciding hbefore (by simp [hwrap]), hwrap]

namespace ElaboratesOperands

variable {operands : List Value} {ty result : Option Ty} {exprs : List Expr} {expr : Expr}

/-- An operand with an inferred wrapper is never null. -/
theorem ne_null_of_isInferred (h : ElaboratesOperands operands ty result exprs)
    (hmem : expr ∈ exprs) (hinferred : expr.isInferred = true) :
    expr.evaluate context ≠ .ok .null := by
  obtain ⟨known, input, -, rfl, hnull⟩ := h.exists_wrap hmem hinferred
  rw [Expr.evaluate_wrap, Wrapper.apply_annotationKind]
  intro hvalue
  obtain ⟨value, -, hcheck⟩ := bind_eq_ok_iff.mp hvalue
  exact Ty.check_ne_null hnull value hcheck

/-- Operands one of which has an inferred wrapper are not all null. -/
theorem evaluateFirst_ne_null_of_any (h : ElaboratesOperands operands ty result exprs)
    (hany : exprs.any Expr.isInferred = true) : Expr.evaluateFirst exprs context ≠ .ok .null := by
  obtain ⟨expr, hmem, hinferred⟩ := List.any_eq_true.mp hany
  rw [Ne, Expr.evaluateFirst_eq_null_iff]
  exact fun hnull ↦ h.ne_null_of_isInferred hmem hinferred (hnull expr hmem)

/-- A value that operands evaluate to passes the check of the type that they come to, unless it is
null. -/
theorem check_evaluateFirst (h : ElaboratesOperands operands ty result exprs) {value : Value}
    (hvalue : Expr.evaluateFirst exprs context = .ok value) (hne : value ≠ .null) :
    (result.getD .null).check value = .ok value :=
  Ty.check_of_accepts ((h.type_of_evaluateFirst hvalue).resolve_left hne)

/-- The check of the type that operands come to changes nothing, unless they are null. -/
theorem evaluateFirst_bind_check (h : ElaboratesOperands operands ty result exprs)
    (hne : Expr.evaluateFirst exprs context ≠ .ok .null) :
    Expr.evaluateFirst exprs context >>= (result.getD .null).check =
      Expr.evaluateFirst exprs context := by
  cases hvalue : Expr.evaluateFirst exprs context with
  | error e => rfl
  | ok value =>
      refine h.check_evaluateFirst hvalue ?_
      rintro rfl
      exact hne hvalue

/-- Operands that are null had no wrappers to be taken off. So they are passed over in a compiled
coalesce as well, and what comes after them is evaluated and checked. -/
theorem evaluate_assemble_of_null {before rest : List Expr}
    (h : ElaboratesOperands operands ty result (before ++ rest))
    (hany : (before ++ rest).any Expr.isInferred = true)
    (hbefore : ∀ expr ∈ before, expr.evaluate context = .ok .null) :
    (Expr.assemble (result.getD .null) (before ++ rest)).evaluate context =
      Expr.evaluateFirst (rest.map Expr.bare) context >>= (result.getD .null).check := by
  have hbare : before.map Expr.bare = before := by
    apply Expr.map_bare_of_not_any
    rw [List.any_eq_false]
    intro expr hmem hinferred
    exact h.ne_null_of_isInferred (List.mem_append_left _ hmem) hinferred (hbefore expr hmem)
  rw [Expr.evaluate_assemble_of_any hany, List.map_append, hbare,
    Expr.evaluateFirst_append_of_null (Expr.evaluateFirst_eq_null_iff.mpr hbefore)]

/-- A compiled coalesce evaluates as its operands do with the wrappers around them, unless one of
the wrappers refuses null. Then the operands after it are evaluated and checked. -/
theorem evaluate_assemble_cases (h : ElaboratesOperands operands ty result exprs) :
    (Expr.assemble (result.getD .null) exprs).evaluate context =
        Expr.evaluateFirst exprs context ∨
      ∃ wrapper after, Expr.RefusesNull exprs context wrapper after ∧
        (Expr.assemble (result.getD .null) exprs).evaluate context =
          Expr.evaluateFirst (after.map Expr.bare) context >>= wrapper.apply := by
  cases hany : exprs.any Expr.isInferred with
  | false => exact .inl (Expr.evaluate_assemble_of_not_any hany)
  | true =>
      have hne : Expr.evaluateFirst exprs context ≠ .ok .null := h.evaluateFirst_ne_null_of_any hany
      obtain ⟨before, arg, after, rfl, hbefore, harg, hvalue⟩ := Expr.exists_deciding hne
      rw [h.evaluate_assemble_of_null hany hbefore, List.map_cons]
      cases hinferred : arg.isInferred with
      | true =>
          have hmem : arg ∈ before ++ arg :: after := by simp
          obtain ⟨known, input, rfl, rfl, hnull⟩ := h.exists_wrap hmem hinferred
          rw [Expr.bare_wrap, Option.getD_some]
          by_cases hinput : input.evaluate context = .ok .null
          · -- The wrapper refuses null, which the compiled coalesce passes over.
            right
            obtain ⟨e, he⟩ := Ty.check_null hnull
            rw [← Wrapper.apply_annotationKind known true] at he
            refine ⟨_, after, ⟨before, input, rfl, hbefore, rfl, hinput, e, he⟩, ?_⟩
            rw [Expr.evaluateFirst_cons, hinput, Wrapper.apply_annotationKind]
            rfl
          · -- The annotation does what the wrapper did.
            left
            rw [Expr.evaluateFirst_cons_of_ne_null hinput, hvalue, Expr.evaluate_wrap,
              Wrapper.apply_annotationKind]
      | false =>
          -- The annotation finds a value that has the type.
          left
          rw [Expr.bare_of_not_isInferred hinferred, Expr.evaluateFirst_cons_of_ne_null harg,
            ← hvalue, h.evaluateFirst_bind_check hne]

end ElaboratesOperands

/-- A coalesce that compiles evaluates to what it would with the wrappers that are inferred around
its operands left on, and fails as it would then, unless the operand that fails is an inferred
wrapper around null. There it goes on to the operands after that one, and checks what they evaluate
to. -/
theorem compileForm_coalesce_hoists {operands : List Value} {position : Position} {hoisted : Expr}
    (h : compileForm .coalesce (.string "coalesce" :: operands) position = .ok hoisted) :
    compile (.call "coalesce" operands) position = .ok hoisted ∧
      ∃ result exprs,
        compileOperands operands position 1 (position.expected.filter (·.isConcrete)) =
            .ok (result, exprs) ∧
          ∀ context : EvalContext,
            (∀ value, (Expr.coalesce (result.getD .null) exprs).evaluate context = .ok value →
              hoisted.evaluate context = .ok value) ∧
            ∀ e, (Expr.coalesce (result.getD .null) exprs).evaluate context = .error e →
              hoisted.evaluate context = .error e ∨
                ∃ wrapper after, Expr.RefusesNull exprs context wrapper after ∧
                  hoisted.evaluate context =
                    Expr.evaluateFirst (after.map Expr.bare) context >>= wrapper.apply := by
  cases compileForm_sound h with
  | wrap hwrapper => cases hwrapper
  | @coalesce _ _ result exprs hoperands hexprs =>
      refine ⟨?_, result, exprs, compileOperands_eq_ok_iff.mpr hexprs, fun context ↦ ?_⟩
      · rw [compile_call rfl, h, ok_bind]
        exact Position.enforce_eq_ok_iff.mpr (hexprs.fits_assemble_iff.mpr rfl)
      · rw [Expr.evaluate_coalesce]
        rcases hexprs.evaluate_assemble_cases with hsame | hrefuses
        · rw [hsame]
          exact ⟨fun _ hvalue ↦ hvalue, fun _ he ↦ .inl he⟩
        · refine ⟨fun value hvalue ↦ ?_, fun _ _ ↦ .inr hrefuses⟩
          obtain ⟨wrapper, after, hnull, -⟩ := hrefuses
          obtain ⟨e, he⟩ := hnull.evaluateFirst_eq_error
          rw [he] at hvalue
          cases hvalue

/-- A lookup with a default, where a number is expected: without the property the inferred wrapper
would refuse null, and the compiled coalesce gives the default. -/
theorem compileForm_coalesce_hoists_lookup :
    ∃ hoisted exprs,
      compileForm .coalesce (.string "coalesce" :: [.call "get" [.string "a"], .number 5])
          { expected := some .number } = .ok hoisted ∧
      compileOperands [.call "get" [.string "a"], .number 5] { expected := some .number } 1
          (some .number) = .ok (some .number, exprs) ∧
      (Expr.coalesce .number exprs).evaluate {} = .error (.typeMismatch .number .null) ∧
      hoisted.evaluate {} = .ok (.number 5) ∧
      ∃ wrapper after, Expr.RefusesNull exprs {} wrapper after ∧
        hoisted.evaluate {} =
          Expr.evaluateFirst (after.map Expr.bare) {} >>= wrapper.apply := by
  have hhoisted :
      compileForm .coalesce (.string "coalesce" :: [.call "get" [.string "a"], .number 5])
          { expected := some .number } =
        .ok (.annotate .number (.coalesce .value
          [.get (.literal .string (.string "a")), .literal .number (.number 5)])) := rfl
  obtain ⟨-, result, exprs, hexprs, hcontext⟩ := compileForm_coalesce_hoists hhoisted
  cases hexprs
  obtain ⟨-, hfails⟩ := hcontext {}
  have hnaive := hfails (.typeMismatch .number .null) rfl
  exact ⟨_, _, hhoisted, rfl, rfl, rfl, hnaive.resolve_left nofun⟩

end StyleLang
