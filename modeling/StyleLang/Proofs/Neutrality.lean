import StyleLang.Proofs.NullForm
import StyleLang.Proofs.Untyped

/-!
# Operands without effect

Null is neutral among the operands of a coalesce: it elaborates to a constant under every type,
leaves the type of the coalesce open, and is passed over (`ElaboratesOperands.insert_null_iff`,
`Expr.run_assemble_insert_null`). A coalesce of a single operand compiles wherever the operand does
and runs as it does, as an annotation checks what the inferred wrapper checked
(`exists_compileExpression_coalesce_singleton`). `compileExpression_coalesce_neutral` states the two
laws.
-/

namespace StyleLang

/-! ## Null -/

/-- The constant that null compiles to. -/
abbrev Expr.nullLiteral : Expr :=
  .literal .null .null

/-- Null elaborates to the constant null, whatever type is expected. -/
theorem Elaborates.null_iff {expected : Option Ty} {core : Expr} :
    Elaborates .null expected core ↔ core = .nullLiteral := by
  constructor
  · intro h
    cases h with
    | scalar => rfl
  · rintro rfl
    exact .scalar rfl

/-- The constant null stays as it is where null is taken. -/
theorem Expr.nullLiteral_fits_iff {expected : Option Ty} {expr : Expr} :
    Expr.nullLiteral.Fits expected true expr ↔ expr = .nullLiteral := by
  constructor
  · intro h
    exact h.eq_of_ty (.inl rfl)
  · rintro rfl
    cases expected with
    | none => rfl
    | some ty => exact ⟨by cases ty <;> rfl, .inl ⟨rfl, rfl⟩⟩

namespace ElaboratesOperands

variable {before after : List Value} {ty result : Option Ty} {exprs : List Expr}

/-- After null the type of a coalesce is known no better than before. -/
theorem null_cons_iff :
    ElaboratesOperands (.null :: after) ty result exprs ↔
      ∃ rest, ElaboratesOperands after ty result rest ∧ exprs = .nullLiteral :: rest := by
  have hknown : knownAfter ty .nullLiteral = ty := by cases ty <;> rfl
  constructor
  · intro h
    cases h with
    | cons hcore hfits hrest =>
        obtain rfl := Elaborates.null_iff.mp hcore
        obtain rfl := Expr.nullLiteral_fits_iff.mp hfits
        rw [hknown] at hrest
        exact ⟨_, hrest, rfl⟩
  · rintro ⟨rest, hrest, rfl⟩
    rw [← hknown] at hrest
    exact .cons (Elaborates.null_iff.mpr rfl) (Expr.nullLiteral_fits_iff.mpr rfl) hrest

/-- Operands elaborate around null as they do without it. -/
theorem insert_null_iff :
    ElaboratesOperands (before ++ .null :: after) ty result exprs ↔
      ∃ middle first second, ElaboratesOperands before ty middle first ∧
        ElaboratesOperands after middle result second ∧
        exprs = first ++ .nullLiteral :: second := by
  rw [append_iff]
  constructor
  · rintro ⟨middle, first, rest, hfirst, hrest, rfl⟩
    obtain ⟨second, hsecond, rfl⟩ := null_cons_iff.mp hrest
    exact ⟨middle, first, second, hfirst, hsecond, rfl⟩
  · rintro ⟨middle, first, second, hfirst, hsecond, rfl⟩
    exact ⟨middle, first, _, hfirst, null_cons_iff.mpr ⟨second, hsecond, rfl⟩, rfl⟩

end ElaboratesOperands

/-- A compiled coalesce runs as if the constant null among its operands were not there. -/
theorem Expr.run_assemble_insert_null (ty : Ty) (before after : List Expr) :
    (assemble ty (before ++ .nullLiteral :: after)).run context =
      (assemble ty (before ++ after)).run context := by
  have hbare : (before ++ .nullLiteral :: after).map bare =
      before.map bare ++ .nullLiteral :: after.map bare := List.map_append
  have hany : (before ++ .nullLiteral :: after).any isInferred =
      (before ++ after).any isInferred := by
    rw [List.any_append, List.any_append, List.any_cons]
    rfl
  rw [run_assemble, run_assemble, hbare, hany, List.map_append, runFirst_append, runFirst_append,
    runFirst_null_cons]

/-- With null among other operands a coalesce compiles to an expression of the same type that runs
in the same way as the one without. -/
theorem compileExpression_coalesce_insert_null {before after : List Value} {expected : Option Ty}
    {root other : Expr}
    (h : compileExpression (.call "coalesce" (before ++ .null :: after)) expected = .ok root)
    (hother : compileExpression (.call "coalesce" (before ++ after)) expected = .ok other) :
    root.ty = other.ty ∧ ∀ context, root.run context = other.run context := by
  obtain ⟨-, result, exprs, hexprs, rfl⟩ := compileExpression_coalesce_iff.mp h
  obtain ⟨-, otherResult, otherExprs, hotherExprs, rfl⟩ := compileExpression_coalesce_iff.mp hother
  obtain ⟨middle, first, second, hfirst, hsecond, rfl⟩ :=
    ElaboratesOperands.insert_null_iff.mp hexprs
  have hwithout := ElaboratesOperands.append_iff.mpr ⟨middle, first, second, hfirst, hsecond, rfl⟩
  obtain ⟨rfl, rfl⟩ := hwithout.unique hotherExprs
  exact ⟨by rw [Expr.ty_assemble, Expr.ty_assemble],
    fun context ↦ Expr.run_assemble_insert_null _ first second⟩

/-- With null among other operands a coalesce compiles if and only if it does without. -/
theorem exists_compileExpression_coalesce_insert_null_iff {before after : List Value}
    {expected : Option Ty} (h : before ++ after ≠ []) :
    (∃ root, compileExpression (.call "coalesce" (before ++ .null :: after)) expected = .ok root) ↔
      ∃ root, compileExpression (.call "coalesce" (before ++ after)) expected = .ok root := by
  constructor
  · rintro ⟨root, hroot⟩
    obtain ⟨-, result, exprs, hexprs, -⟩ := compileExpression_coalesce_iff.mp hroot
    obtain ⟨middle, first, second, hfirst, hsecond, -⟩ :=
      ElaboratesOperands.insert_null_iff.mp hexprs
    exact ⟨_, compileExpression_coalesce_iff.mpr ⟨h, result, _,
      ElaboratesOperands.append_iff.mpr ⟨middle, first, second, hfirst, hsecond, rfl⟩, rfl⟩⟩
  · rintro ⟨root, hroot⟩
    obtain ⟨-, result, exprs, hexprs, -⟩ := compileExpression_coalesce_iff.mp hroot
    obtain ⟨middle, first, second, hfirst, hsecond, -⟩ := ElaboratesOperands.append_iff.mp hexprs
    exact ⟨_, compileExpression_coalesce_iff.mpr ⟨by simp, result, _,
      ElaboratesOperands.insert_null_iff.mpr ⟨middle, first, second, hfirst, hsecond, rfl⟩, rfl⟩⟩

/-! ## Single operands -/

/-- What fits where null is refused fits where it is taken. -/
theorem Expr.Fits.nullable {core expr : Expr} {expected : Option Ty}
    (h : core.Fits expected false expr) : core.Fits expected true expr := by
  cases expected with
  | none => exact h
  | some ty => exact ⟨h.1, .inr h.accepts⟩

/-- An expression becomes the only operand of a coalesce as which it stands alone. -/
theorem Elaborates.single {raw : Value} {expected : Option Ty} {core expr : Expr}
    (h : Elaborates raw expected core) (hfits : core.Fits expected false expr) :
    Elaborates raw (expected.filter (·.isConcrete)) core ∧
      core.Fits (expected.filter (·.isConcrete)) true expr := by
  cases hfilter : expected.filter (·.isConcrete) with
  | none =>
      have hknown : Unspecific expected := unspecific_iff.mpr hfilter
      exact ⟨hknown.elaborates_iff.mp h, hknown.fits_iff.mp hfits⟩
  | some ty =>
      obtain ⟨rfl, -⟩ := Option.filter_eq_some_iff.mp hfilter
      exact ⟨h, hfits.nullable⟩

/-- A coalesce of one expression compiles if the expression does, and runs as it does. -/
theorem exists_compileExpression_coalesce_singleton {operand : Value} {expected : Option Ty}
    {root : Expr} (h : compileExpression operand expected = .ok root) :
    ∃ single, compileExpression (.call "coalesce" [operand]) expected = .ok single ∧
      ∀ context, single.run context = root.run context := by
  obtain ⟨core, hcore, hfits⟩ := compileExpression_eq_ok_iff.mp h
  obtain ⟨hcore, hfits⟩ := hcore.single hfits
  refine ⟨_, compileExpression_coalesce_iff.mpr
    ⟨List.cons_ne_nil _ _, _, _, .cons hcore hfits .nil, rfl⟩, fun context ↦ ?_⟩
  rw [Expr.run_assemble, List.map_singleton, Expr.runFirst_singleton, List.any_cons,
    List.any_nil, Bool.or_false]
  rcases hfits.eq_or_eq_wrap with rfl | ⟨ty, hty, rfl, -⟩
  · -- Nothing is taken off, so nothing is checked.
    rw [hcore.bare_eq, hcore.not_isInferred]
    exact bind_pure _
  · -- The annotation does what the inferred wrapper did.
    rw [hty, Expr.bare_wrap, Expr.run, Wrapper.apply_annotationKind]
    rfl

/-! ## Both laws -/

/-- Null is neutral among the operands of a coalesce and a single operand is a unit. With null among
other operands a coalesce compiles if and only if it does without, to an expression of the same type
that evaluates to the same and looks up the same properties in every context; and whatever compiles
does so as the only operand of a coalesce, and evaluates to the same with the same lookups there. -/
theorem compileExpression_coalesce_neutral :
    (∀ (before after : List Value) (expected : Option Ty), before ++ after ≠ [] →
      ((∃ root,
          compileExpression (.call "coalesce" (before ++ .null :: after)) expected = .ok root) ↔
        ∃ root, compileExpression (.call "coalesce" (before ++ after)) expected = .ok root) ∧
      ∀ root other,
        compileExpression (.call "coalesce" (before ++ .null :: after)) expected = .ok root →
        compileExpression (.call "coalesce" (before ++ after)) expected = .ok other →
          root.ty = other.ty ∧ ∀ context, root.evaluate context = other.evaluate context ∧
            root.lookups context = other.lookups context) ∧
    ∀ (operand : Value) (expected : Option Ty) (root : Expr),
      compileExpression operand expected = .ok root →
        ∃ single, compileExpression (.call "coalesce" [operand]) expected = .ok single ∧
          ∀ context, single.evaluate context = root.evaluate context ∧
            single.lookups context = root.lookups context := by
  refine ⟨fun before after expected hothers ↦ ⟨?_, fun root other h hother ↦ ?_⟩,
    fun operand expected root h ↦ ?_⟩
  · exact exists_compileExpression_coalesce_insert_null_iff hothers
  · obtain ⟨hty, hrun⟩ := compileExpression_coalesce_insert_null h hother
    exact ⟨hty, fun context ↦
      ⟨congrArg Run.result (hrun context), congrArg Run.lookups (hrun context)⟩⟩
  · obtain ⟨single, hsingle, hrun⟩ := exists_compileExpression_coalesce_singleton h
    exact ⟨single, hsingle, fun context ↦
      ⟨congrArg Run.result (hrun context), congrArg Run.lookups (hrun context)⟩⟩

/-- A lookup with a default, where a number is expected: null between the two changes nothing, and
the lookup alone is in an inferred wrapper, which becomes the annotation of a coalesce. -/
theorem compileExpression_coalesce_neutral_lookup :
    ∃ root other alone single,
      compileExpression (.call "coalesce" [.call "get" [.string "a"], .null, .number 5])
          (some .number) = .ok root ∧
      compileExpression (.call "coalesce" [.call "get" [.string "a"], .number 5])
          (some .number) = .ok other ∧
      root ≠ other ∧ root.ty = other.ty ∧
      (∀ context, root.evaluate context = other.evaluate context ∧
        root.lookups context = other.lookups context) ∧
      compileExpression (.call "get" [.string "a"]) (some .number) = .ok alone ∧
      alone.isInferred = true ∧
      compileExpression (.call "coalesce" [.call "get" [.string "a"]]) (some .number) =
        .ok single ∧
      ∀ context, single.evaluate context = alone.evaluate context ∧
        single.lookups context = alone.lookups context := by
  have hroot :
      compileExpression (.call "coalesce" ([.call "get" [.string "a"]] ++ .null :: [.number 5]))
          (some .number) =
        .ok (.annotate .number (.coalesce .value [.get (.literal .string (.string "a")),
          .nullLiteral, .literal .number (.number 5)])) := rfl
  have hother :
      compileExpression (.call "coalesce" ([.call "get" [.string "a"]] ++ [.number 5]))
          (some .number) =
        .ok (.annotate .number (.coalesce .value
          [.get (.literal .string (.string "a")), .literal .number (.number 5)])) := rfl
  have halone :
      compileExpression (.call "get" [.string "a"]) (some .number) =
        .ok (.wrap ⟨.assertion, .number, true⟩ (.get (.literal .string (.string "a")))) := rfl
  obtain ⟨hneutral, hunit⟩ := compileExpression_coalesce_neutral
  obtain ⟨hty, hsame⟩ := (hneutral _ _ _ (List.cons_ne_nil _ _)).2 _ _ hroot hother
  obtain ⟨single, hsingle, hrun⟩ := hunit _ _ _ halone
  exact ⟨_, _, _, single, hroot, hother, nofun, hty, hsame, halone, rfl, hsingle, hrun⟩

end StyleLang
