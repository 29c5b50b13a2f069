import StyleLang.Proofs.Untyped

/-!
# Nested coalesces

A coalesce among the operands of another one evaluates as if its operands stood there themselves,
except where a concrete type is expected, an operand of the inner one is checked, and all operands
up to the end of the inner one are null. Then the annotation around the inner coalesce refuses null,
and the operands after it are not tried. `compileExpression_nested_iff` says when this makes a
difference.
-/

namespace StyleLang

variable {context : EvalContext}

/-! ## Nothing known of the type -/

/-- Where no type is expected, operands evaluate as if those of a coalesce among them stood there
themselves. -/
theorem ElaboratesOperands.evaluateFirst_nested {before inner after : List Value}
    {result result' : Option Ty} {exprs exprs' : List Expr}
    (h : ElaboratesOperands (before ++ .call "coalesce" inner :: after) none result exprs)
    (h' : ElaboratesOperands (before ++ inner ++ after) none result' exprs') :
    Expr.evaluateFirst (exprs.map Expr.bare) context =
      Expr.evaluateFirst (exprs'.map Expr.bare) context := by
  obtain ⟨known, first, second, hfirst, hsecond, rfl⟩ := append_iff.mp h
  rw [List.append_assoc] at h'
  obtain ⟨known', first', second', hfirst', hsecond', rfl⟩ := append_iff.mp h'
  obtain ⟨rfl, rfl⟩ := hfirst.unique hfirst'
  rw [List.map_append, List.map_append]
  refine Expr.evaluateFirst_append_congr fun hnull ↦ ?_
  have hknown : Unspecific known := hfirst.unspecific (.inl rfl) hnull
  obtain ⟨middle, items, rest', hitems, hrest', rfl⟩ := append_iff.mp hsecond'
  cases hsecond with
  | @cons _ _ _ _ core expr rest hcore hfits hrest =>
      rw [hknown.elaborates_iff] at hcore
      obtain rfl := hknown.fits_iff.mp hfits
      obtain ⟨-, innerResult, innerExprs, hinner, rfl⟩ := Elaborates.coalesce_iff.mp hcore
      have hvalue : (Expr.assemble (innerResult.getD .null) innerExprs).evaluate context =
          Expr.evaluateFirst (items.map Expr.bare) context := by
        rw [hinner.evaluate_assemble_of_none]
        exact hinner.evaluateFirst_congr (.inl rfl) hitems hknown
      rw [List.map_cons, Expr.bare_of_not_isInferred (Expr.not_isInferred_assemble _ _),
        Expr.evaluateFirst_cons, hvalue, ← Expr.evaluateFirst_append, List.map_append]
      refine Expr.evaluateFirst_append_congr fun hitemsNull ↦ ?_
      have hcoreTy := hcore.ty_of_evaluate_null (hvalue.trans hitemsNull)
      exact hrest.evaluateFirst_congr (hknown.knownAfter hcoreTy) hrest'
        (hitems.unspecific hknown hitemsNull)

/-! ## A concrete type -/

namespace Expr

variable {ty : Ty} {before inner after : List Expr}

/-- If an operand of an inner coalesce is checked and all operands up to its end are null, then null
is checked, and the operands after it are not evaluated. -/
theorem evaluate_assemble_blocked (hty : ty.accepts .null = false)
    (hany : inner.any isInferred = true)
    (hnull : evaluateFirst ((before ++ inner).map bare) context = .ok .null) :
    (assemble ty (before ++ assemble ty inner :: after)).evaluate context = ty.check .null := by
  rw [List.map_append, evaluateFirst_append_eq_null_iff] at hnull
  obtain ⟨e, he⟩ := Ty.check_null hty
  have hinner : (assemble ty inner).evaluate context = .error e := by
    rw [evaluate_assemble_of_any hany, hnull.2, ok_bind, he]
  have hne : (assemble ty inner).evaluate context ≠ .ok .null := by
    rw [hinner]
    exact nofun
  rw [evaluate_assemble, List.map_append, evaluateFirst_append_of_null hnull.1, List.map_cons,
    bare_of_not_isInferred (not_isInferred_assemble ty inner), evaluateFirst_cons_of_ne_null hne,
    hinner, he]
  rfl

/-- Without inferred wrappers an inner coalesce evaluates as its operands do. -/
theorem evaluate_assemble_nested_of_not_any (hany : inner.any isInferred = false) :
    (assemble ty (before ++ assemble ty inner :: after)).evaluate context =
      (assemble ty (before ++ (inner ++ after))).evaluate context := by
  have hinner : (assemble ty inner).evaluate context = evaluateFirst (inner.map bare) context := by
    rw [evaluate_assemble_of_not_any hany, map_bare_of_not_any hany]
  have hfirst : evaluateFirst ((before ++ assemble ty inner :: after).map bare) context =
      evaluateFirst ((before ++ (inner ++ after)).map bare) context := by
    simp only [List.map_append, List.map_cons]
    refine evaluateFirst_append_congr fun _ ↦ ?_
    rw [bare_of_not_isInferred (not_isInferred_assemble ty inner), evaluateFirst_cons, hinner,
      evaluateFirst_append]
  rw [evaluate_assemble, evaluate_assemble, hfirst]
  simp [hany, not_isInferred_assemble]

/-- If an operand of an inner coalesce is checked and not all operands up to its end are null, then
the result is checked in the inner coalesce as well as it is in the outer one. -/
theorem evaluate_assemble_nested_of_any (hty : ty.accepts .null = false)
    (hany : inner.any isInferred = true)
    (hbefore : ∀ value, evaluateFirst before context = .ok value →
      value = .null ∨ ty.accepts value.type = true)
    (hnull : evaluateFirst ((before ++ inner).map bare) context ≠ .ok .null) :
    (assemble ty (before ++ assemble ty inner :: after)).evaluate context =
      (assemble ty (before ++ (inner ++ after))).evaluate context := by
  have hflat : (assemble ty (before ++ (inner ++ after))).evaluate context =
      evaluateFirst ((before ++ inner).map bare) context >>= ty.check := by
    rw [← List.append_assoc, evaluate_assemble_of_any (by simp [hany]), List.map_append,
      evaluateFirst_append_of_ne_null hnull]
  rw [hflat, evaluate_assemble, List.map_append, List.map_append]
  by_cases hbeforeNull : evaluateFirst (before.map bare) context = .ok .null
  · -- The inner annotation checks the value, and the outer one finds it checked.
    have hinner := @evaluate_assemble_of_any context ty inner hany
    have hne : (assemble ty inner).evaluate context ≠ .ok .null := by
      rw [hinner]
      intro hinnerNull
      obtain ⟨value, -, hcheck⟩ := bind_eq_ok_iff.mp hinnerNull
      exact Ty.check_ne_null hty value hcheck
    rw [evaluateFirst_append_of_null hbeforeNull, evaluateFirst_append_of_null hbeforeNull,
      List.map_cons, bare_of_not_isInferred (not_isInferred_assemble ty inner),
      evaluateFirst_cons_of_ne_null hne, hinner, Ty.check_bind_check]
  · rw [evaluateFirst_append_of_ne_null hbeforeNull, evaluateFirst_append_of_ne_null hbeforeNull]
    cases hfirst : evaluateFirst (before.map bare) context with
    | error e => rfl
    | ok first =>
        rw [ok_bind, ok_bind]
        split
        · rfl
        · rename_i hnone
          -- The outer coalesce checks no operand, so those before the inner one have the type.
          rw [List.any_append, Bool.or_eq_true, not_or, Bool.not_eq_true] at hnone
          rw [map_bare_of_not_any hnone.1] at hfirst hbeforeNull
          have haccepts := (hbefore first hfirst).resolve_left fun hfirstNull ↦
            hbeforeNull (hfirstNull ▸ hfirst)
          exact (Ty.check_of_accepts haccepts).symm

/-- A coalesce compiles to a wrapper if one of its operands had one that was inferred. -/
theorem exists_assemble_eq_wrap_iff {operands : List Expr} (hty : ty ≠ .value)
    {p : Expr → Prop} :
    (∃ wrapper input, Expr.wrap wrapper input = assemble ty operands ∧ p input) ↔
      operands.any isInferred = true ∧ p (.coalesce .value (operands.map bare)) := by
  rw [assemble_eq]
  cases operands.any isInferred with
  | true =>
      rw [if_pos rfl, annotate_eq_wrap hty]
      constructor
      · intro h
        obtain ⟨_, _, heq, hinput⟩ := h
        cases heq
        exact ⟨rfl, hinput⟩
      · intro h
        obtain ⟨-, hinput⟩ := h
        exact ⟨_, _, rfl, hinput⟩
  | false => simp

end Expr

/-- Where a concrete type is expected, the operands of a coalesce and those of a coalesce among them
elaborate to the same. -/
theorem ElaboratesOperands.split_nested {before inner after : List Value} {ty : Ty}
    {result result' : Option Ty} {exprs exprs' : List Expr} (hty : ty.isConcrete = true)
    (h : ElaboratesOperands (before ++ .call "coalesce" inner :: after) (some ty) result exprs)
    (h' : ElaboratesOperands (before ++ inner ++ after) (some ty) result' exprs') :
    inner ≠ [] ∧ ∃ first second third,
      ElaboratesOperands before (some ty) (some ty) first ∧
        ElaboratesOperands inner (some ty) (some ty) second ∧
        exprs = first ++ .assemble ty second :: third ∧ exprs' = first ++ (second ++ third) := by
  obtain ⟨known, first, rest, hfirst, hrest, rfl⟩ := append_iff.mp h
  obtain rfl := hfirst.eq_of_some
  rw [List.append_assoc] at h'
  obtain ⟨known, first', rest', hfirst', hrest', rfl⟩ := append_iff.mp h'
  obtain ⟨rfl, rfl⟩ := hfirst.unique hfirst'
  obtain ⟨known, second, third, hsecond, hthird, rfl⟩ := append_iff.mp hrest'
  obtain rfl := hsecond.eq_of_some
  cases hrest with
  | @cons _ _ _ _ core expr rest hcore hfits hrest =>
      obtain ⟨hinner, known, second', hsecond', rfl⟩ := Elaborates.coalesce_iff.mp hcore
      obtain rfl := hsecond'.fits_assemble_iff.mp hfits
      rw [Option.filter_some_pos hty] at hsecond'
      obtain ⟨rfl, rfl⟩ := hsecond.unique hsecond'
      obtain ⟨-, rfl⟩ := hrest.unique hthird
      exact ⟨hinner, first, second, rest, hfirst, hsecond, rfl, rfl⟩

/-- The operands of an inner coalesce block those after it, where a type is expected, if the inner
coalesce is compiled to a wrapper that checks the type, and the operands up to its end are null
within the wrapper that they are compiled to by themselves. -/
def Blocks (ty : Ty) (before inner : List Value) (context : EvalContext) : Prop :=
  ty ≠ .value ∧
    (∃ wrapper input,
      compileExpression (.call "coalesce" inner) (some ty) = .ok (.wrap wrapper input)) ∧
    ∃ wrapper input,
      compileExpression (.call "coalesce" (before ++ inner)) (some ty) =
          .ok (.wrap wrapper input) ∧
        input.evaluate context = .ok .null

/-- When operands block those after them, in terms of what they elaborate to. -/
theorem blocks_iff {ty : Ty} {before inner : List Value} {first second : List Expr}
    (hty : ty ≠ .value) (hinner : inner ≠ [])
    (hfirst : ElaboratesOperands before (some ty) (some ty) first)
    (hsecond : ElaboratesOperands inner (some ty) (some ty) second) :
    Blocks ty before inner context ↔
      second.any Expr.isInferred = true ∧
        Expr.evaluateFirst ((first ++ second).map Expr.bare) context = .ok .null := by
  have hconcrete : (some ty).filter (·.isConcrete) = some ty :=
    Option.filter_some_pos (Ty.isConcrete_iff.mpr hty)
  have hboth := ElaboratesOperands.append_iff.mpr ⟨_, first, second, hfirst, hsecond, rfl⟩
  rw [← hconcrete] at hsecond hboth
  have happend : before ++ inner ≠ [] := fun h ↦ hinner (List.append_eq_nil_iff.mp h).2
  have hwrapped := @Expr.exists_assemble_eq_wrap_iff ty second hty fun _ ↦ True
  simp only [and_true] at hwrapped
  simp only [Blocks, hsecond.compile_coalesce_iff hinner,
    hboth.compile_coalesce_iff happend, hconcrete, Option.getD_some, hwrapped,
    Expr.exists_assemble_eq_wrap_iff hty, Expr.evaluate_coalesce]
  constructor
  · intro h
    obtain ⟨-, hany, -, hnull⟩ := h
    exact ⟨hany, hnull⟩
  · intro h
    obtain ⟨hany, hnull⟩ := h
    exact ⟨hty, hany, by simp [hany], hnull⟩

/-- Where a concrete type is expected, null is refused if operands block those after them, and
otherwise a coalesce among operands evaluates as if its operands stood there themselves. -/
theorem ElaboratesOperands.evaluate_nested {before inner after : List Value} {ty : Ty}
    {exprs exprs' : List Expr} (hty : ty ≠ .value)
    (h : ElaboratesOperands (before ++ .call "coalesce" inner :: after) (some ty) (some ty) exprs)
    (h' : ElaboratesOperands (before ++ inner ++ after) (some ty) (some ty) exprs') :
    (Blocks ty before inner context →
      ∃ e, ty.check .null = .error e ∧
        (Expr.assemble ty exprs).evaluate context = .error e) ∧
    (¬ Blocks ty before inner context →
      (Expr.assemble ty exprs).evaluate context = (Expr.assemble ty exprs').evaluate context) := by
  obtain ⟨hinner, first, second, third, hfirst, hsecond, rfl, rfl⟩ :=
    h.split_nested (Ty.isConcrete_iff.mpr hty) h'
  rw [blocks_iff hty hinner hfirst hsecond]
  constructor
  · intro hblocked
    obtain ⟨hany, hnull⟩ := hblocked
    have hnullTy := hsecond.accepts_null_of_any hany
    obtain ⟨e, he⟩ := Ty.check_null hnullTy
    exact ⟨e, he, (Expr.evaluate_assemble_blocked hnullTy hany hnull).trans he⟩
  · intro hfree
    cases hany : second.any Expr.isInferred with
    | false => exact Expr.evaluate_assemble_nested_of_not_any hany
    | true =>
        exact Expr.evaluate_assemble_nested_of_any (hsecond.accepts_null_of_any hany) hany
          (fun value ↦ hfirst.type_of_evaluateFirst) fun hnull ↦ hfree ⟨hany, hnull⟩

/-- A coalesce among operands evaluates as if its own operands stood there themselves, unless they
block the operands after it: then null is refused, whatever these are. -/
theorem compileExpression_nested {before inner after : List Value} {expected : Option Ty}
    {nested flat : Expr}
    (hnested : compileExpression
      (.call "coalesce" (before ++ .call "coalesce" inner :: after)) expected = .ok nested)
    (hflat : compileExpression (.call "coalesce" (before ++ inner ++ after)) expected = .ok flat) :
    (∀ ty, expected = some ty → Blocks ty before inner context →
      ∃ e, ty.check .null = .error e ∧ nested.evaluate context = .error e) ∧
    ((∀ ty, expected = some ty → ¬ Blocks ty before inner context) →
      nested.evaluate context = flat.evaluate context) := by
  obtain ⟨-, result, exprs, hexprs, rfl⟩ := compileExpression_coalesce_iff.mp hnested
  obtain ⟨-, result', exprs', hexprs', rfl⟩ := compileExpression_coalesce_iff.mp hflat
  cases hfilter : expected.filter (·.isConcrete) with
  | none =>
      rw [hfilter] at hexprs hexprs'
      constructor
      · rintro ty rfl ⟨hty, -⟩
        rw [Option.filter_some_pos (Ty.isConcrete_iff.mpr hty)] at hfilter
        cases hfilter
      · intro _
        rw [hexprs.evaluate_assemble_of_none, hexprs'.evaluate_assemble_of_none]
        exact hexprs.evaluateFirst_nested hexprs'
  | some ty =>
      rw [hfilter] at hexprs hexprs'
      obtain ⟨rfl, hconcrete⟩ := Option.filter_eq_some_iff.mp hfilter
      obtain rfl := hexprs.eq_of_some
      obtain rfl := hexprs'.eq_of_some
      have hty := Ty.isConcrete_iff.mp hconcrete
      constructor
      · rintro _ ⟨⟩ hblocks
        exact (hexprs.evaluate_nested hty hexprs').1 hblocks
      · intro hfree
        exact (hexprs.evaluate_nested hty hexprs').2 (hfree ty rfl)

/-- A coalesce among the operands of another one evaluates as if its operands stood there themselves
if and only if these do not block the operands after them, or null is refused all the same. Where
they block, null is refused. -/
theorem compileExpression_nested_iff {before inner after : List Value} {expected : Option Ty}
    {nested flat : Expr}
    (hnested : compileExpression
      (.call "coalesce" (before ++ .call "coalesce" inner :: after)) expected = .ok nested)
    (hflat : compileExpression (.call "coalesce" (before ++ inner ++ after)) expected = .ok flat) :
    (∀ ty, expected = some ty → Blocks ty before inner context →
      ∃ e, ty.check .null = .error e ∧ nested.evaluate context = .error e) ∧
    (nested.evaluate context = flat.evaluate context ↔
      ∀ ty, expected = some ty → Blocks ty before inner context →
        flat.evaluate context = ty.check .null) := by
  obtain ⟨hblocked, hfree⟩ := @compileExpression_nested context _ _ _ _ _ _ hnested hflat
  refine ⟨hblocked, ?_, ?_⟩
  · intro hsame ty hty hblocks
    obtain ⟨e, hcheck, hvalue⟩ := hblocked ty hty hblocks
    rw [← hsame, hvalue, hcheck]
  · intro hflatNull
    by_cases hblocks : ∃ ty, expected = some ty ∧ Blocks ty before inner context
    · obtain ⟨ty, hty, hblocks⟩ := hblocks
      obtain ⟨e, hcheck, hvalue⟩ := hblocked ty hty hblocks
      rw [hvalue, hflatNull ty hty hblocks, hcheck]
    · exact hfree fun ty hty h ↦ hblocks ⟨ty, hty, h⟩

/-- A lookup within a coalesce of its own, with a default outside of it, where a number is
expected. -/
theorem compileExpression_nested_iff_lookup :
    ∃ nested flat,
      compileExpression
          (.call "coalesce" [.call "coalesce" [.call "get" [.string "a"]], .number 5])
          (some .number) = .ok nested ∧
      compileExpression (.call "coalesce" [.call "get" [.string "a"], .number 5])
          (some .number) = .ok flat ∧
      (∀ ty, some Ty.number = some ty → Blocks ty [] [.call "get" [.string "a"]] {} →
        ∃ e, ty.check .null = .error e ∧ nested.evaluate {} = .error e) ∧
      (nested.evaluate {} = flat.evaluate {} ↔
        ∀ ty, some Ty.number = some ty → Blocks ty [] [.call "get" [.string "a"]] {} →
          flat.evaluate {} = ty.check .null) := by
  have hnested :
      compileExpression
          (.call "coalesce" ([] ++ .call "coalesce" [.call "get" [.string "a"]] :: [.number 5]))
          (some .number) =
        .ok (.coalesce .number [
          .annotate .number (.coalesce .value [.get (.literal .string (.string "a"))]),
          .literal .number (.number 5)]) := rfl
  have hflat :
      compileExpression (.call "coalesce" ([] ++ [.call "get" [.string "a"]] ++ [.number 5]))
          (some .number) =
        .ok (.annotate .number (.coalesce .value
          [.get (.literal .string (.string "a")), .literal .number (.number 5)])) := rfl
  exact ⟨_, _, hnested, hflat, compileExpression_nested_iff hnested hflat⟩

/-- Without the property the inner coalesce refuses null, and the default is not tried; without the
inner coalesce it is. -/
theorem compileExpression_nested_ne_lookup :
    ∃ nested flat,
      compileExpression
          (.call "coalesce" [.call "coalesce" [.call "get" [.string "a"]], .number 5])
          (some .number) = .ok nested ∧
      compileExpression (.call "coalesce" [.call "get" [.string "a"], .number 5])
          (some .number) = .ok flat ∧
      nested.evaluate {} = .error (.typeMismatch .number .null) ∧
      flat.evaluate {} = .ok (.number 5) :=
  ⟨.coalesce .number [
      .annotate .number (.coalesce .value [.get (.literal .string (.string "a"))]),
      .literal .number (.number 5)],
    .annotate .number (.coalesce .value
      [.get (.literal .string (.string "a")), .literal .number (.number 5)]),
    rfl, rfl, rfl, rfl⟩

end StyleLang
