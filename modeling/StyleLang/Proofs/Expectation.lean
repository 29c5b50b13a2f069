import StyleLang.Proofs.Failures
import StyleLang.Proofs.Untyped

/-!
# What an expected type changes

A source that compiles where no type is expected and where one is evaluates to the same, apart from
the checks that the expected type brings about. The two elaborations differ in every coalesce: with
an expected type its operands are checked against that, and without against the type of the first of
them. `Elaborates.induction₂` is the induction over the two. By it, the one refines the other
(`Elaborates.refines`), and fails, where the other gives a value, at a wrapper
(`Elaborates.failsAtWrapper`). `compileExpression_refines` says of whole expressions what refinement
means.
-/

namespace StyleLang

/-- A value passes for an original one where a type is expected: it is the same, or what the check
of the type makes of it. -/
def Ty.Passes (ty : Ty) (original value : Value) : Prop :=
  value = original ∨ ty.check original = .ok value

namespace Ty.Passes

variable {ty : Ty} {original value : Value}

/-- Null passes for nothing but null, and nothing else for null. -/
theorem eq_null_iff (h : ty.Passes original value) : value = .null ↔ original = .null := by
  rcases h with rfl | hcheck
  · exact Iff.rfl
  by_cases hcolor : ty = .color
  · subst hcolor
    constructor
    · rintro rfl
      exact absurd hcheck (check_ne_null rfl original)
    · rintro rfl
      cases hcheck
  · rw [eq_of_check hcolor hcheck]

/-- What the check makes of a value that passes, passes. -/
theorem check {result : Value} (h : ty.Passes original value)
    (hcheck : ty.check value = .ok result) : ty.Passes original result := by
  rcases h with rfl | hpassed
  · exact .inr hcheck
  · have hagain := check_check hpassed
    rw [hcheck] at hagain
    cases hagain
    exact .inr hpassed

/-- What passes for a value that passes, passes. -/
theorem trans {result : Value} (h : ty.Passes original value) (hresult : ty.Passes value result) :
    ty.Passes original result := by
  rcases hresult with rfl | hcheck
  · exact h
  · exact h.check hcheck

end Ty.Passes

/-- An expression refines another one under a type if its values pass for values of that. -/
def Expr.Refines (typed core : Expr) (ty : Ty) (context : EvalContext) : Prop :=
  ∀ value, typed.evaluate context = .ok value →
    ∃ original, core.evaluate context = .ok original ∧ ty.Passes original value

theorem Expr.Refines.refl (core : Expr) (ty : Ty) (context : EvalContext) :
    core.Refines core ty context :=
  fun value hvalue ↦ ⟨value, hvalue, .inl rfl⟩

variable {context : EvalContext}

/-- What an expression becomes where a type is expected refines the expression. -/
theorem Expr.Fits.refines {core expr : Expr} {ty : Ty} {nullable : Bool}
    (h : core.Fits (some ty) nullable expr) : expr.Refines core ty context := by
  obtain ⟨rfl, -⟩ := h
  rcases inferWrapper_cases core ty with hsame | ⟨hwrap, -⟩
  · rw [hsame]
    exact .refl core ty context
  · intro value hvalue
    rw [hwrap, evaluate_wrap, Wrapper.apply_annotationKind, bind_eq_ok_iff] at hvalue
    obtain ⟨original, horiginal, hcheck⟩ := hvalue
    exact ⟨original, horiginal, .inr hcheck⟩

/-! ## Two elaborations -/

/-- Induction on two elaborations of a source, one where no type is expected and one where a type
is. They are the same, or constants of the same value, or coalesces of operands that elaborate in
both ways. -/
theorem Elaborates.induction₂ {ty : Ty} {motive : Expr → Expr → Prop}
    (constant : ∀ value, motive (.constant value none) (.constant value (some ty)))
    (same : ∀ core, motive core core)
    (coalesce : ∀ {operands : List Value} {result : Option Ty} {exprs exprs' : List Expr},
      ElaboratesOperands operands none result exprs →
      ElaboratesOperands operands (some ty) (some ty) exprs' →
      (∀ operand ∈ operands, ∀ {core typed : Expr}, Elaborates operand none core →
        Elaborates operand (some ty) typed → motive core typed) →
      motive (.assemble (result.getD .null) exprs) (.assemble ty exprs'))
    {raw : Value} {core typed : Expr} (h : Elaborates raw none core)
    (htyped : Elaborates raw (some ty) typed) : motive core typed := by
  generalize hexpected : (none : Option Ty) = expected at h
  induction h using Elaborates.induction generalizing typed with
  | scalar hscalar =>
      subst hexpected
      cases htyped with
      | scalar => exact constant _
      | call => cases hscalar
  | literal hform =>
      subst hexpected
      cases htyped.of_call hform with
      | literal => exact constant _
      | wrap hwrapper => cases hwrapper
  | get hform hkey hfits =>
      cases htyped.of_call hform with
      | get hkey' hfits' =>
          rw [hkey.fits_unique hfits hkey' hfits']
          exact same _
      | wrap hwrapper => cases hwrapper
  | has hform hkey hfits =>
      cases htyped.of_call hform with
      | has hkey' hfits' =>
          rw [hkey.fits_unique hfits hkey' hfits']
          exact same _
      | wrap hwrapper => cases hwrapper
  | zoom hform =>
      cases htyped.of_call hform with
      | zoom => exact same _
      | wrap hwrapper => cases hwrapper
  | wrap hform hwrapper hinput =>
      obtain ⟨inner, hinner, rfl⟩ := (htyped.of_call hform).of_wrapper? hwrapper
      rw [Elaborates.value_iff] at hinput hinner
      rw [hinput.unique_of_none hinner]
      exact same _
  | coalesce hform hoperands hexprs ih =>
      subst hexpected
      cases htyped.of_call hform with
      | wrap hwrapper => cases hwrapper
      | coalesce _ hexprs' =>
          by_cases hvalue : ty = .value
          · subst hvalue
            obtain ⟨rfl, rfl⟩ := hexprs.unique hexprs'
            exact same _
          · rw [Option.filter_some_pos (Ty.isConcrete_iff.mpr hvalue)] at hexprs'
            obtain rfl := hexprs'.eq_of_some
            exact coalesce hexprs hexprs' fun operand hmem _ _ hcore htyped ↦
              ih operand hmem hcore htyped rfl

/-- The operands of a coalesce are null in both elaborations up to one of the operands, which
decides where the type is expected. Each operand that is null there has to be null where no type
is. -/
theorem ElaboratesOperands.deciding {operands : List Value} {ty : Ty}
    {known result result' : Option Ty} {exprs exprs' : List Expr}
    (h : ElaboratesOperands operands known result exprs) (hknown : Unspecific known)
    (h' : ElaboratesOperands operands (some ty) result' exprs') {relation : Expr → Expr → Prop}
    (hoperands : ∀ operand ∈ operands, ∀ {core typed : Expr}, Elaborates operand none core →
      Elaborates operand (some ty) typed →
      relation core typed ∧
        (typed.evaluate context = .ok .null → core.evaluate context = .ok .null)) :
    Expr.evaluateFirst (exprs.map Expr.bare) context = .ok .null ∧
        Expr.evaluateFirst (exprs'.map Expr.bare) context = .ok .null ∨
      ∃ core typed rest before after, relation core typed ∧
        Expr.evaluateFirst (exprs.map Expr.bare) context =
          Expr.evaluateFirst (core :: rest) context ∧
        exprs'.map Expr.bare = before ++ typed :: after ∧
        (∀ other ∈ before, other.evaluate context = .ok .null) ∧
        typed.evaluate context ≠ .ok .null := by
  induction operands generalizing known exprs exprs' with
  | nil =>
      cases h
      cases h'
      exact .inl ⟨rfl, rfl⟩
  | cons operand operands ih =>
      cases h with
      | @cons _ _ _ _ core expr exprs hcore hfits hrest =>
      cases h' with
      | @cons _ _ _ _ typed expr' exprs' htyped hfits' hrest' =>
          rw [hknown.elaborates_iff] at hcore
          obtain rfl := hknown.fits_iff.mp hfits
          rw [List.map_cons, List.map_cons, hcore.bare_eq, hfits'.bare htyped.not_isInferred]
          obtain ⟨hrelation, hnull⟩ := hoperands operand List.mem_cons_self hcore htyped
          by_cases htypedNull : typed.evaluate context = .ok .null
          · -- Both are null, and where no type is expected, nothing is known of the type yet.
            have hcoreNull := hnull htypedNull
            have hknown := hknown.knownAfter (hcore.ty_of_evaluate_null hcoreNull)
            rw [Expr.evaluateFirst_cons_of_null hcoreNull,
              Expr.evaluateFirst_cons_of_null htypedNull]
            refine (ih hrest hknown hrest' fun other hmem ↦
              hoperands other (List.mem_cons_of_mem _ hmem)).imp_right fun hdeciding ↦ ?_
            obtain ⟨core, other, rest, before, after, hrelation, hsame, hbare, hbefore, hne⟩ :=
              hdeciding
            exact ⟨core, other, rest, typed :: before, after, hrelation, hsame, by rw [hbare]; rfl,
              List.forall_mem_cons.mpr ⟨htypedNull, hbefore⟩, hne⟩
          · exact .inr ⟨expr, typed, _, [], _, hrelation, rfl, rfl, by simp, htypedNull⟩

/-! ## Refinement -/

/-- An expression that refines another one is null only where that is. -/
theorem Expr.Refines.evaluate_null {typed core : Expr} {ty : Ty} (h : typed.Refines core ty context)
    (hnull : typed.evaluate context = .ok .null) : core.evaluate context = .ok .null := by
  obtain ⟨original, horiginal, hpasses⟩ := h _ hnull
  rw [horiginal, hpasses.eq_null_iff.mp rfl]

/-- The operands of a coalesce where a type is expected refine those where none is, if each of them
does. -/
theorem ElaboratesOperands.refines {operands : List Value} {ty : Ty} {result result' : Option Ty}
    {exprs exprs' : List Expr} (h : ElaboratesOperands operands none result exprs)
    (h' : ElaboratesOperands operands (some ty) result' exprs')
    (hoperands : ∀ operand ∈ operands, ∀ {core typed : Expr}, Elaborates operand none core →
      Elaborates operand (some ty) typed → typed.Refines core ty context)
    {value : Value} (hvalue : Expr.evaluateFirst (exprs'.map Expr.bare) context = .ok value) :
    ∃ original, Expr.evaluateFirst (exprs.map Expr.bare) context = .ok original ∧
      ty.Passes original value := by
  rcases h.deciding (.inl rfl) h' fun operand hmem core typed hcore htyped ↦
      have hrefines : typed.Refines core ty context := hoperands operand hmem hcore htyped
      ⟨hrefines, hrefines.evaluate_null⟩
    with ⟨hnull, hnull'⟩ | ⟨core, typed, rest, before, after, hrefines, hsame, hbare, hbefore, hne⟩
  · rw [hvalue] at hnull'
    exact ⟨.null, hnull, .inl (Except.ok.inj hnull')⟩
  · rw [hbare, Expr.evaluateFirst_of_deciding hbefore hne] at hvalue
    obtain ⟨original, horiginal, hpasses⟩ := hrefines value hvalue
    have hcore : core.evaluate context ≠ .ok .null := by
      rw [horiginal]
      rintro ⟨⟩
      rw [hvalue, hpasses.eq_null_iff.mpr rfl] at hne
      exact hne rfl
    rw [hsame, Expr.evaluateFirst_cons_of_ne_null hcore]
    exact ⟨original, horiginal, hpasses⟩

/-- Where a type is expected, a source elaborates to an expression that refines the one it
elaborates to where none is. -/
theorem Elaborates.refines {raw : Value} {core : Expr} (h : Elaborates raw none core) {ty : Ty}
    {typed : Expr} (htyped : Elaborates raw (some ty) typed) : typed.Refines core ty context := by
  refine Elaborates.induction₂ (motive := fun core typed ↦ typed.Refines core ty context)
    (fun _ value hvalue ↦ ⟨value, hvalue, .inl rfl⟩) (.refl · ty context) ?_ h htyped
  intro operands result exprs exprs' hexprs hexprs' ih value hvalue
  rw [Expr.evaluate_assemble, bind_eq_ok_iff] at hvalue
  obtain ⟨first, hfirst, hcheck⟩ := hvalue
  obtain ⟨original, horiginal, hpasses⟩ := hexprs.refines hexprs' ih hfirst
  rw [hexprs.evaluate_assemble_of_none]
  refine ⟨original, horiginal, ?_⟩
  -- Only the annotation with the expected type can check anything that matters.
  split at hcheck
  · exact hpasses.check hcheck
  · cases hcheck
    exact hpasses

/-- Where a type is expected, a source compiles to an expression that refines the one it compiles to
where none is. -/
theorem refines_of_compileExpression {raw : Value} {ty : Ty} {root typed : Expr}
    (h : compileExpression raw none = .ok root)
    (htyped : compileExpression raw (some ty) = .ok typed) : typed.Refines root ty context := by
  obtain ⟨core, hcore, hroot⟩ := compileExpression_eq_ok_iff.mp h
  obtain rfl : root = core := hroot
  obtain ⟨core, htypedCore, hfits⟩ := compileExpression_eq_ok_iff.mp htyped
  intro value hvalue
  obtain ⟨inner, hinner, hpasses⟩ := hfits.refines value hvalue
  obtain ⟨original, horiginal, hinnerPasses⟩ := hcore.refines htypedCore inner hinner
  exact ⟨original, horiginal, hinnerPasses.trans hpasses⟩

/-! ## Failures -/

/-- A source that gives a value where no type is expected fails where one is at a wrapper, if it
fails. -/
theorem Elaborates.failsAtWrapper {raw : Value} {core : Expr} (h : Elaborates raw none core)
    {ty : Ty} {typed : Expr} (htyped : Elaborates raw (some ty) typed) {value : Value}
    (hvalue : core.evaluate context = .ok value) {e : EvalError}
    (he : typed.evaluate context = .error e) : typed.FailsAtWrapper context := by
  refine Elaborates.induction₂ (motive := fun core typed ↦ ∀ value e,
    core.evaluate context = .ok value → typed.evaluate context = .error e →
      typed.FailsAtWrapper context) ?_ ?_ ?_ h htyped value e hvalue he
  · intro _ _ _ _ he
    cases he
  · intro core value e hvalue he
    rw [hvalue] at he
    cases he
  · intro operands result exprs exprs' hexprs hexprs' ih value e hvalue he
    rw [hexprs.evaluate_assemble_of_none] at hvalue
    cases hfirst : Expr.evaluateFirst (exprs'.map Expr.bare) context with
    | ok first => exact Expr.failsAtWrapper_assemble hfirst he
    | error e' =>
        rcases hexprs.deciding (.inl rfl) hexprs' fun operand hmem core typed hcore htyped ↦
            ⟨ih operand hmem hcore htyped, (hcore.refines htyped).evaluate_null⟩
          with ⟨-, hnull⟩ | ⟨core, typed, rest, before, after, hwrapper, hsame, hbare, hbefore, hne⟩
        · rw [hfirst] at hnull
          cases hnull
        · rw [hsame, Expr.evaluateFirst_cons, bind_eq_ok_iff] at hvalue
          obtain ⟨original, horiginal, -⟩ := hvalue
          rw [hbare, Expr.evaluateFirst_of_deciding hbefore hne] at hfirst
          obtain ⟨wrapper, input, hfails⟩ := hwrapper original e' horiginal hfirst
          exact ⟨wrapper, input, hfails.assemble ty hbare hbefore⟩

/-- What an expression becomes where a type is expected fails where the expression does, or else at
the inferred wrapper around it. -/
theorem Expr.Fits.failsAtWrapper {core expr : Expr} {expected : Option Ty} {nullable : Bool}
    (h : core.Fits expected nullable expr)
    (hcore : ∀ e, core.evaluate context = .error e → core.FailsAtWrapper context) {e : EvalError}
    (he : expr.evaluate context = .error e) : expr.FailsAtWrapper context := by
  rcases h.eq_or_eq_wrap with rfl | ⟨ty, -, rfl, -⟩
  · exact hcore e he
  cases hresult : core.evaluate context with
  | error e =>
      obtain ⟨wrapper, input, hfails⟩ := hcore e hresult
      exact ⟨wrapper, input, .of_child rfl hfails⟩
  | ok value => exact ⟨_, _, .here he (by simp [children, hresult])⟩

/-- A source that gives a value where no type is expected compiles, where one is, to an expression
that fails at a wrapper, if it fails. -/
theorem failsAtWrapper_of_compileExpression {raw : Value} {ty : Ty} {root typed : Expr}
    (h : compileExpression raw none = .ok root)
    (htyped : compileExpression raw (some ty) = .ok typed) {value : Value}
    (hvalue : root.evaluate context = .ok value) {e : EvalError}
    (he : typed.evaluate context = .error e) : typed.FailsAtWrapper context := by
  obtain ⟨core, hcore, hroot⟩ := compileExpression_eq_ok_iff.mp h
  obtain rfl : root = core := hroot
  obtain ⟨core, htypedCore, hfits⟩ := compileExpression_eq_ok_iff.mp htyped
  exact hfits.failsAtWrapper (fun _ ↦ hcore.failsAtWrapper htypedCore hvalue) he

/-! ## Compiled expressions -/

/-- An expression that was compiled where a type is expected gives a value only if it does where no
type is expected, too. It is the same value; for colors, it is null in both cases, or the color that
the other converts to. -/
theorem compileExpression_refines {raw : Value} {ty : Ty} {root typed : Expr}
    (h : compileExpression raw none = .ok root)
    (htyped : compileExpression raw (some ty) = .ok typed) {value : Value}
    (hvalue : typed.evaluate context = .ok value) :
    ∃ original, root.evaluate context = .ok original ∧
      if ty = .color then
        value = .null ∧ original = .null ∨ Ty.color.convert original = .ok value
      else original = value := by
  obtain ⟨core, hcore, hroot⟩ := compileExpression_eq_ok_iff.mp h
  obtain rfl : root = core := hroot
  obtain ⟨core, htypedCore, hfits⟩ := compileExpression_eq_ok_iff.mp htyped
  obtain ⟨inner, hinner, hpasses⟩ := hfits.refines value hvalue
  obtain ⟨original, horiginal, hinnerPasses⟩ := hcore.refines htypedCore inner hinner
  refine ⟨original, horiginal, ?_⟩
  have hpasses : ty.Passes original value := hinnerPasses.trans hpasses
  by_cases hcolor : ty = .color
  · subst hcolor
    rw [if_pos rfl]
    rcases hpasses with rfl | hcheck
    · -- The value was not checked by the expected type, but it has it all the same.
      rcases (hfits.wellTyped htypedCore.wellTyped).type_of_evaluate hvalue with hnull | haccepts
      · exact .inl ⟨hnull, hnull⟩
      · exact .inr (Ty.check_of_accepts (Ty.accepts_trans hfits.accepts haccepts))
    · exact .inr hcheck
  · rw [if_neg hcolor]
    rcases hpasses with rfl | hcheck
    · rfl
    · exact (Ty.eq_of_check hcolor hcheck).symm

/-- A lookup with a default gives the default where a number is expected and where no type is. -/
theorem compileExpression_refines_lookup :
    ∃ root typed,
      compileExpression (.call "coalesce" [.call "get" [.string "a"], .number 0]) none =
        .ok root ∧
      compileExpression (.call "coalesce" [.call "get" [.string "a"], .number 0])
        (some .number) = .ok typed ∧
      typed.evaluate {} = .ok (.number 0) ∧
      ∃ original, root.evaluate {} = .ok original ∧ original = .number 0 := by
  have hroot :
      compileExpression (.call "coalesce" [.call "get" [.string "a"], .number 0]) none =
        .ok (.coalesce .value
          [.get (.literal .string (.string "a")), .literal .number (.number 0)]) := rfl
  have htyped :
      compileExpression (.call "coalesce" [.call "get" [.string "a"], .number 0]) (some .number) =
        .ok (.annotate .number (.coalesce .value
          [.get (.literal .string (.string "a")), .literal .number (.number 0)])) := rfl
  obtain ⟨original, horiginal, hsame⟩ :=
    compileExpression_refines hroot htyped (show Expr.evaluate _ {} = .ok (.number 0) from rfl)
  exact ⟨_, _, hroot, htyped, rfl, original, horiginal, by simpa using hsame⟩

end StyleLang
