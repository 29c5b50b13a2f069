import StyleLang.Proofs.Annotation

/-!
# Elaboration

Relational elaboration of raw values, beside the compilation that computes it. `Elaborates raw
expected expr` says that `raw` becomes `expr` in a place where the type `expected` is known to be
expected, before it is made to fit there, and `Expr.Fits` says what it becomes by that. Places in
the source appear only in errors, so the relations do without them. `Elaborates.induction` is the
induction over elaborations that the theory of compiled expressions rests on.
-/

namespace StyleLang

namespace Value

/-- Whether a value is neither an array nor an object. -/
def isScalar : Value → Bool
  | .array _ | .object _ => false
  | _ => true

/-- The raw value that calls an operator. -/
abbrev call (operator : String) (args : List Value) : Value :=
  .array (.string operator :: args)

end Value

/-- The wrapper that a call of an operator writes, and its input. -/
def Form.wrapper? : Form → List Value → Option (Wrapper × Value)
  | .assertion ty, [input] => some (⟨.assertion, ty, false⟩, input)
  | .coercion ty, [input] => some (⟨.coercion, ty, false⟩, input)
  | .array, [input] => some (⟨.array, .array .value none, false⟩, input)
  | .array, [item, input] =>
      (arrayItem? item).map fun ty ↦ (⟨.array, .array ty none, false⟩, input)
  | .array, [item, length, input] => do
      let ty ← arrayItem? item
      let length ← arrayLength? length
      pure (⟨.array, .array ty (some length), false⟩, input)
  | _, _ => none

/-- The type of a coalesce as far as it is known after one more operand. -/
def knownAfter (ty : Option Ty) (operand : Expr) : Option Ty :=
  ty <|> (if operand.ty = .null then none else some operand.ty)

/-- `core.Fits expected nullable expr` says that `core` becomes `expr` where the type `expected` is
expected, and that it may stand there. -/
def Expr.Fits (core : Expr) (expected : Option Ty) (nullable : Bool) (expr : Expr) : Prop :=
  match expected with
  | none => expr = core
  | some ty =>
      expr = core.inferWrapper ty ∧
        (nullable = true ∧ expr.ty = .null ∨ ty.accepts expr.ty = true)

mutual

/-- `Elaborates raw expected expr` says that `raw` becomes `expr` where the type `expected` is
expected, before a wrapper is inferred around it. -/
inductive Elaborates : Value → Option Ty → Expr → Prop where
  | scalar {value : Value} {expected : Option Ty} :
      value.isScalar = true → Elaborates value expected (.constant value expected)
  | call {name : String} {form : Form} {args : List Value} {expected : Option Ty} {expr : Expr} :
      Form.ofOperator? name = some form → ElaboratesForm form args expected expr →
      Elaborates (.call name args) expected expr

/-- `ElaboratesForm form args expected expr` says that a call of a form with the arguments `args`
becomes `expr`. -/
inductive ElaboratesForm : Form → List Value → Option Ty → Expr → Prop where
  | literal {value : Value} {expected : Option Ty} :
      ElaboratesForm .literal [value] expected (.constant value expected)
  | get {key : Value} {expected : Option Ty} {core expr : Expr} :
      Elaborates key (some .string) core → core.Fits (some .string) false expr →
      ElaboratesForm .get [key] expected (.get expr)
  | has {key : Value} {expected : Option Ty} {core expr : Expr} :
      Elaborates key (some .string) core → core.Fits (some .string) false expr →
      ElaboratesForm .has [key] expected (.has expr)
  | zoom {expected : Option Ty} : ElaboratesForm .zoom [] expected .zoom
  | wrap {form : Form} {args : List Value} {expected : Option Ty} {wrapper : Wrapper}
      {input : Value} {expr : Expr} :
      form.wrapper? args = some (wrapper, input) → Elaborates input (some .value) expr →
      ElaboratesForm form args expected (.wrap wrapper expr)
  | coalesce {operands : List Value} {expected result : Option Ty} {exprs : List Expr} :
      operands ≠ [] →
      ElaboratesOperands operands (expected.filter (·.isConcrete)) result exprs →
      ElaboratesForm .coalesce operands expected (.assemble (result.getD .null) exprs)

/-- `ElaboratesOperands operands ty result exprs` says that the operands of a coalesce become
`exprs`, and that its type is known as `ty` before them and as `result` after them. -/
inductive ElaboratesOperands : List Value → Option Ty → Option Ty → List Expr → Prop where
  | nil {ty : Option Ty} : ElaboratesOperands [] ty ty []
  | cons {operand : Value} {operands : List Value} {ty result : Option Ty} {core expr : Expr}
      {exprs : List Expr} :
      Elaborates operand ty core → core.Fits ty true expr →
      ElaboratesOperands operands (knownAfter ty expr) result exprs →
      ElaboratesOperands (operand :: operands) ty result (expr :: exprs)

end

/-- Where every value may stand, an expression stays as it is. -/
@[simp]
theorem Expr.fits_value_iff {core expr : Expr} {nullable : Bool} :
    core.Fits (some .value) nullable expr ↔ expr = core := by
  simp [Fits, inferWrapper, WrapperKind.inferred?]

/-- The input of a written wrapper is one of the arguments. -/
theorem Form.mem_of_wrapper? {form : Form} {args : List Value} {wrapper : Wrapper} {input : Value}
    (h : form.wrapper? args = some (wrapper, input)) : input ∈ args := by
  unfold wrapper? at h
  split at h
  case h_1 | h_2 | h_3 =>
    cases h
    simp
  case h_4 =>
    simp only [Option.map_eq_some_iff, Prod.mk.injEq] at h
    obtain ⟨_, _, _, rfl⟩ := h
    simp
  case h_5 =>
    simp only [bind, pure, Option.bind_eq_some_iff, Option.some.injEq, Prod.mk.injEq] at h
    obtain ⟨_, _, _, _, _, rfl⟩ := h
    simp
  case h_6 => cases h

/-- A call elaborates as its form does. -/
theorem Elaborates.of_call {name : String} {form : Form} {args : List Value} {expected : Option Ty}
    {core : Expr} (h : Elaborates (.call name args) expected core)
    (hform : Form.ofOperator? name = some form) : ElaboratesForm form args expected core := by
  cases h with
  | scalar hscalar => cases hscalar
  | call hother hcall =>
      obtain rfl := Option.some.inj (hform.symm.trans hother)
      exact hcall

/-- A call that writes a wrapper elaborates to it and its input. -/
theorem ElaboratesForm.of_wrapper? {form : Form} {args : List Value} {expected : Option Ty}
    {core : Expr} (h : ElaboratesForm form args expected core) {wrapper : Wrapper} {input : Value}
    (hwrapper : form.wrapper? args = some (wrapper, input)) :
    ∃ inner, Elaborates input (some .value) inner ∧ core = .wrap wrapper inner := by
  cases h with
  | wrap hother hinput =>
      rw [hwrapper] at hother
      cases hother
      exact ⟨_, hinput, rfl⟩
  | _ => cases hwrapper

/-- Induction on elaboration. The operands of a coalesce have the property under whatever type they
are elaborated. -/
@[elab_as_elim]
theorem Elaborates.induction
    {motive : ∀ {raw : Value} {expected : Option Ty} {expr : Expr},
      Elaborates raw expected expr → Prop}
    (scalar : ∀ {value : Value} {expected : Option Ty} (hscalar : value.isScalar = true),
      motive (@Elaborates.scalar value expected hscalar))
    (literal : ∀ {name : String} {value : Value} {expected : Option Ty}
      (hform : Form.ofOperator? name = some .literal),
      motive (.call hform (@ElaboratesForm.literal value expected)))
    (get : ∀ {name : String} {key : Value} {expected : Option Ty} {core expr : Expr}
      (hform : Form.ofOperator? name = some .get) (hkey : Elaborates key (some .string) core)
      (hfits : core.Fits (some .string) false expr), motive hkey →
      motive (.call hform (@ElaboratesForm.get key expected core expr hkey hfits)))
    (has : ∀ {name : String} {key : Value} {expected : Option Ty} {core expr : Expr}
      (hform : Form.ofOperator? name = some .has) (hkey : Elaborates key (some .string) core)
      (hfits : core.Fits (some .string) false expr), motive hkey →
      motive (.call hform (@ElaboratesForm.has key expected core expr hkey hfits)))
    (zoom : ∀ {name : String} {expected : Option Ty} (hform : Form.ofOperator? name = some .zoom),
      motive (.call hform (@ElaboratesForm.zoom expected)))
    (wrap : ∀ {name : String} {form : Form} {args : List Value} {expected : Option Ty}
      {wrapper : Wrapper} {input : Value} {expr : Expr} (hform : Form.ofOperator? name = some form)
      (hwrapper : form.wrapper? args = some (wrapper, input))
      (hinput : Elaborates input (some .value) expr), motive hinput →
      motive (.call hform
        (@ElaboratesForm.wrap form args expected wrapper input expr hwrapper hinput)))
    (coalesce : ∀ {name : String} {operands : List Value} {expected result : Option Ty}
      {exprs : List Expr} (hform : Form.ofOperator? name = some .coalesce)
      (hoperands : operands ≠ [])
      (hexprs : ElaboratesOperands operands (expected.filter (·.isConcrete)) result exprs),
      (∀ operand ∈ operands, ∀ {ty : Option Ty} {core : Expr} (hcore : Elaborates operand ty core),
        motive hcore) →
      motive (.call hform (.coalesce hoperands hexprs)))
    {raw : Value} {expected : Option Ty} {expr : Expr} (h : Elaborates raw expected expr) :
    motive h := by
  induction raw using Value.induction generalizing expected expr with
  | array items ih =>
      cases h with
      | scalar hscalar => cases hscalar
      | call hform hcall =>
          have ihArgs : ∀ arg ∈ _, ∀ {ty : Option Ty} {core : Expr} (harg : Elaborates arg ty core),
              motive harg := fun arg hmem _ _ harg ↦ ih arg (List.mem_cons_of_mem _ hmem) harg
          cases hcall with
          | literal => exact literal hform
          | get hkey hfits => exact get hform hkey hfits (ihArgs _ (by simp) hkey)
          | has hkey hfits => exact has hform hkey hfits (ihArgs _ (by simp) hkey)
          | zoom => exact zoom hform
          | wrap hwrapper hinput =>
              exact wrap hform hwrapper hinput (ihArgs _ (Form.mem_of_wrapper? hwrapper) hinput)
          | coalesce hoperands hexprs => exact coalesce hform hoperands hexprs ihArgs
  | _ =>
      cases h with
      | scalar hscalar => exact scalar hscalar

/-! ## Written wrappers -/

/-- The form of an operator stands beside it in the table. -/
theorem Form.mem_operators {name : String} {form : Form} (h : ofOperator? name = some form) :
    (name, form) ∈ operators := by
  obtain ⟨before, after, htable, _⟩ := List.lookup_eq_some_iff.mp h
  rw [htable]
  simp

/-- A form has one operator, where the type that an operator gives it belongs to the form. -/
theorem Form.operator_unique {name other : String} {form : Form} (h : ofOperator? name = some form)
    (hother : ofOperator? other = some form) : name = other := by
  have hunique : ∀ p ∈ operators, ∀ q ∈ operators, p.2 = q.2 → p.1 = q.1 := by decide
  exact hunique _ (mem_operators h) _ (mem_operators hother) rfl

/-- The types that operators convert to. -/
def Ty.targets : List Ty :=
  [.boolean, .color, .number, .string]

/-- A written wrapper is not inferred, its type is neither null nor the universal type, and if it
converts, it converts to a type that has an operator for it. -/
theorem Form.wrapper?_spec {name : String} {form : Form} {args : List Value} {wrapper : Wrapper}
    {input : Value} (hform : ofOperator? name = some form)
    (h : form.wrapper? args = some (wrapper, input)) :
    wrapper.inferred = false ∧ wrapper.ty.accepts .null = false ∧
      (wrapper.kind = .coercion → wrapper.ty ∈ Ty.targets) := by
  have hmem := mem_operators hform
  unfold wrapper? at h
  split at h
  case h_1 =>
    cases h
    simp only [operators, List.mem_cons, Prod.mk.injEq, reduceCtorEq, and_false, false_or,
      Form.assertion.injEq, List.not_mem_nil, or_false] at hmem
    rcases hmem with ⟨_, rfl⟩ | ⟨_, rfl⟩ | ⟨_, rfl⟩ | ⟨_, rfl⟩ <;> exact ⟨rfl, rfl, nofun⟩
  case h_2 =>
    cases h
    simp only [operators, List.mem_cons, Prod.mk.injEq, reduceCtorEq, and_false, false_or,
      Form.coercion.injEq, List.not_mem_nil, or_false] at hmem
    rcases hmem with ⟨_, rfl⟩ | ⟨_, rfl⟩ | ⟨_, rfl⟩ | ⟨_, rfl⟩ <;>
      exact ⟨rfl, rfl, fun _ ↦ by decide⟩
  case h_3 =>
    cases h
    exact ⟨rfl, rfl, nofun⟩
  case h_4 =>
    simp only [Option.map_eq_some_iff, Prod.mk.injEq] at h
    obtain ⟨ty, _, rfl, _⟩ := h
    exact ⟨rfl, rfl, nofun⟩
  case h_5 =>
    simp only [bind, pure, Option.bind_eq_some_iff, Option.some.injEq, Prod.mk.injEq] at h
    obtain ⟨ty, _, length, _, rfl, _⟩ := h
    exact ⟨rfl, rfl, nofun⟩
  case h_6 => cases h

/-! ## Inferred wrappers -/

/-- What an expression elaborates to has no inferred wrapper at its root. -/
theorem Elaborates.not_isInferred {raw : Value} {expected : Option Ty} {core : Expr}
    (h : Elaborates raw expected core) : core.isInferred = false := by
  cases h with
  | scalar => rfl
  | call hform hcall =>
      cases hcall with
      | wrap hwrapper =>
          have hinferred := (Form.wrapper?_spec hform hwrapper).1
          simp [Expr.isInferred, Expr.stripInferred, hinferred]
      | coalesce => exact Expr.not_isInferred_assemble _ _
      | _ => rfl

/-- Nothing is taken off what an expression elaborates to. -/
theorem Elaborates.bare_eq {raw : Value} {expected : Option Ty} {core : Expr}
    (h : Elaborates raw expected core) : core.bare = core :=
  Expr.bare_of_not_isInferred h.not_isInferred

/-- What fits is the same as before, or in an inferred wrapper that checks the expected type, which
null does not have. -/
theorem Expr.Fits.eq_or_eq_wrap {core expr : Expr} {expected : Option Ty} {nullable : Bool}
    (h : core.Fits expected nullable expr) :
    expr = core ∨ ∃ ty, expected = some ty ∧ expr = .wrap ⟨ty.annotationKind, ty, true⟩ core ∧
      ty.accepts .null = false := by
  cases expected with
  | none => exact .inl h
  | some ty =>
      obtain ⟨rfl, -⟩ := h
      rcases inferWrapper_cases core ty with hsame | ⟨hwrap, hnull, -⟩
      · exact .inl hsame
      · exact .inr ⟨ty, rfl, hwrap, hnull⟩

/-- What fits is bare the same as it was before. -/
theorem Expr.Fits.bare {core expr : Expr} {expected : Option Ty} {nullable : Bool}
    (h : core.Fits expected nullable expr) (hcore : core.isInferred = false) :
    expr.bare = core := by
  rcases h.eq_or_eq_wrap with rfl | ⟨ty, -, rfl, -⟩
  · exact bare_of_not_isInferred hcore
  · rfl

/-! ## Operands -/

@[simp]
theorem knownAfter_some (ty : Ty) (operand : Expr) : knownAfter (some ty) operand = some ty :=
  rfl

/-- A type that is known stays known. -/
theorem ElaboratesOperands.eq_of_some {operands : List Value} {ty : Ty} {result : Option Ty}
    {exprs : List Expr} (h : ElaboratesOperands operands (some ty) result exprs) :
    result = some ty := by
  induction operands generalizing exprs with
  | nil =>
      cases h
      rfl
  | cons operand operands ih =>
      cases h with
      | cons hcore hfits hrest => exact ih hrest

/-- Every operand becomes one expression. -/
theorem ElaboratesOperands.length_eq {operands : List Value} {ty result : Option Ty}
    {exprs : List Expr} (h : ElaboratesOperands operands ty result exprs) :
    exprs.length = operands.length := by
  induction operands generalizing ty exprs with
  | nil =>
      cases h
      rfl
  | cons operand operands ih =>
      cases h with
      | cons hcore hfits hrest => rw [List.length_cons, List.length_cons, ih hrest]

/-- Operands become expressions if there are any. -/
theorem ElaboratesOperands.ne_nil {operands : List Value} {ty result : Option Ty}
    {exprs : List Expr} (h : ElaboratesOperands operands ty result exprs)
    (hoperands : operands ≠ []) : exprs ≠ [] := by
  rintro rfl
  exact hoperands (List.length_eq_zero_iff.mp h.length_eq.symm)

/-- Every operand elaborates under the type that is known, and becomes one of the expressions. -/
theorem ElaboratesOperands.exists_of_some {operands : List Value} {ty : Ty} {result : Option Ty}
    {exprs : List Expr} (h : ElaboratesOperands operands (some ty) result exprs) {operand : Value}
    (hmem : operand ∈ operands) :
    ∃ core, Elaborates operand (some ty) core ∧
      ∃ expr ∈ exprs, core.Fits (some ty) true expr := by
  induction operands generalizing exprs with
  | nil => simp at hmem
  | cons first operands ih =>
      cases h with
      | @cons _ _ _ _ core expr exprs hcore hfits hrest =>
          rcases List.mem_cons.mp hmem with rfl | hmem
          · exact ⟨core, hcore, expr, List.mem_cons_self, hfits⟩
          · obtain ⟨other, hother, fit, hfit, hfits⟩ := ih hrest hmem
            exact ⟨other, hother, fit, List.mem_cons_of_mem _ hfit, hfits⟩

/-- An inferred wrapper around an operand checks the type of the coalesce, which null does not
have. -/
theorem ElaboratesOperands.exists_wrap {operands : List Value} {ty result : Option Ty}
    {exprs : List Expr} (h : ElaboratesOperands operands ty result exprs) {expr : Expr}
    (hmem : expr ∈ exprs) (hinferred : expr.isInferred = true) :
    ∃ known input, result = some known ∧ expr = .wrap ⟨known.annotationKind, known, true⟩ input ∧
      known.accepts .null = false := by
  induction operands generalizing ty exprs with
  | nil =>
      cases h
      simp at hmem
  | cons operand operands ih =>
      cases h with
      | @cons _ _ _ _ core _ _ hcore hfits hrest =>
          rcases List.mem_cons.mp hmem with rfl | hmem
          · rcases hfits.eq_or_eq_wrap with rfl | ⟨known, rfl, hwrap, hnull⟩
            · rw [hcore.not_isInferred] at hinferred
              cases hinferred
            · exact ⟨known, core, hrest.eq_of_some, hwrap, hnull⟩
          · exact ih hrest hmem

/-- A wrapper is inferred only where null does not have the expected type. -/
theorem ElaboratesOperands.accepts_null_of_any {operands : List Value} {ty : Ty}
    {result : Option Ty} {exprs : List Expr}
    (h : ElaboratesOperands operands (some ty) result exprs)
    (hany : exprs.any Expr.isInferred = true) : ty.accepts .null = false := by
  obtain ⟨expr, hmem, hinferred⟩ := List.any_eq_true.mp hany
  obtain ⟨known, -, hresult, -, hnull⟩ := h.exists_wrap hmem hinferred
  rw [h.eq_of_some] at hresult
  cases hresult
  exact hnull

/-- Two lists of operands elaborate one after the other. -/
theorem ElaboratesOperands.append_iff {operands rest : List Value} {ty result : Option Ty}
    {exprs : List Expr} :
    ElaboratesOperands (operands ++ rest) ty result exprs ↔
      ∃ middle first second, ElaboratesOperands operands ty middle first ∧
        ElaboratesOperands rest middle result second ∧ exprs = first ++ second := by
  constructor
  · intro h
    induction operands generalizing ty exprs with
    | nil => exact ⟨ty, [], exprs, .nil, h, rfl⟩
    | cons operand operands ih =>
        cases h with
        | cons hcore hfits htail =>
            obtain ⟨middle, first, second, hfirst, hsecond, rfl⟩ := ih htail
            exact ⟨middle, _ :: first, second, .cons hcore hfits hfirst, hsecond, rfl⟩
  · intro h
    obtain ⟨middle, first, second, hfirst, hsecond, rfl⟩ := h
    induction operands generalizing ty first with
    | nil =>
        cases hfirst
        exact hsecond
    | cons operand operands ih =>
        cases hfirst with
        | cons hcore hfits htail => exact .cons hcore hfits (ih _ htail)

/-- Each operand of a coalesce comes from a source, and its type is null or one that the type of the
coalesce accepts. -/
theorem ElaboratesOperands.exists_of_mem {operands : List Value} {ty result : Option Ty}
    {exprs : List Expr} (h : ElaboratesOperands operands ty result exprs) {expr : Expr}
    (hmem : expr ∈ exprs) :
    ∃ operand ∈ operands, ∃ expected core, Elaborates operand expected core ∧
      core.Fits expected true expr ∧
      (expr.ty = .null ∨ (result.getD .null).accepts expr.ty = true) := by
  induction operands generalizing ty exprs with
  | nil =>
      cases h
      simp at hmem
  | cons operand operands ih =>
      cases h with
      | @cons _ _ _ _ core head tail hcore hfits hrest =>
          rcases List.mem_cons.mp hmem with rfl | hmem
          · refine ⟨operand, List.mem_cons_self, ty, core, hcore, hfits, ?_⟩
            cases ty with
            | some ty =>
                obtain rfl := hrest.eq_of_some
                exact hfits.2.imp_left (·.2)
            | none =>
                by_cases hnull : expr.ty = .null
                · exact .inl hnull
                · rw [knownAfter, if_neg hnull] at hrest
                  obtain rfl := hrest.eq_of_some
                  exact .inr (Ty.accepts_self _)
          · obtain ⟨source, hsource, hrest⟩ := ih hrest hmem
            exact ⟨source, List.mem_cons_of_mem _ hsource, hrest⟩

/-! ## Coalesces -/

/-- A coalesce fits as it is wherever its operands elaborate. -/
theorem ElaboratesOperands.fits_assemble_iff {operands : List Value} {expected result : Option Ty}
    {exprs : List Expr}
    (h : ElaboratesOperands operands (expected.filter (·.isConcrete)) result exprs)
    {nullable : Bool} {expr : Expr} :
    (Expr.assemble (result.getD .null) exprs).Fits expected nullable expr ↔
      expr = .assemble (result.getD .null) exprs := by
  cases expected with
  | none => exact Iff.rfl
  | some ty =>
      by_cases hvalue : ty = .value
      · subst hvalue
        exact Expr.fits_value_iff
      · rw [Option.filter_some_pos (Ty.isConcrete_iff.mpr hvalue)] at h
        obtain rfl := h.eq_of_some
        have hsame := Expr.inferWrapper_self (.assemble ty exprs)
        rw [Expr.ty_assemble] at hsame
        rw [Option.getD_some, Expr.Fits, hsame]
        constructor
        · exact And.left
        · rintro rfl
          exact ⟨rfl, .inr (by simp)⟩

/-- A coalesce elaborates as its operands do. -/
theorem Elaborates.coalesce_iff {operands : List Value} {expected : Option Ty} {core : Expr} :
    Elaborates (.call "coalesce" operands) expected core ↔
      operands ≠ [] ∧ ∃ result exprs,
        ElaboratesOperands operands (expected.filter (·.isConcrete)) result exprs ∧
          core = .assemble (result.getD .null) exprs := by
  constructor
  · intro h
    cases h.of_call rfl with
    | coalesce hoperands hexprs => exact ⟨hoperands, _, _, hexprs, rfl⟩
    | wrap hwrapper => cases hwrapper
  · intro h
    obtain ⟨hoperands, result, exprs, hexprs, rfl⟩ := h
    exact .call rfl (.coalesce hoperands hexprs)

end StyleLang
