import StyleLang.Proofs.Typing

/-!
# Sources of which no type is expected

Where no type is expected, or the universal type, sources compile alike, errors included
(`compileExpression_value`). Such an expression is null only if its type is null or the universal
type (`Elaborates.ty_of_evaluate_null`). So an operand of a coalesce that settles the type settles
the value, too, and an annotation that the operands after it bring about checks nothing
(`ElaboratesOperands.evaluate_assemble_of_none`).
-/

namespace StyleLang

/-! ## The universal type -/

/-- Where a type is expected that is not one of arrays, constants are the same as where no type
is. -/
theorem Expr.constant_of_ne_array {ty : Ty} (h : ∀ item length, ty ≠ .array item length)
    (value : Value) : constant value (some ty) = constant value none := by
  unfold constant literalType
  split <;> simp_all

/-- Where the universal type is expected, every expression fits as it is. -/
theorem Position.enforce_value (location : List Nat) (nullable : Bool) (expr : Expr) :
    (Position.mk location (some .value) nullable).enforce expr = .ok expr :=
  enforce_eq_ok_iff.mpr (Expr.fits_value_iff.mpr rfl)

/-- Operands of a coalesce depend on its position only through the place. -/
theorem compileOperands_congr {position other : Position}
    (h : position.location = other.location) (operands : List Value) (index : Nat)
    (ty : Option Ty) :
    compileOperands operands position index ty = compileOperands operands other index ty := by
  induction operands generalizing index ty with
  | nil => rfl
  | cons operand operands ih => simp only [compileOperands, Position.operand, h, ih]

/-- The type that is expected of a call matters to constants and, if it is concrete, to the operands
of a coalesce. -/
theorem compileForm_congr {position other : Position}
    (hlocation : position.location = other.location)
    (hconstant : ∀ value,
      Expr.constant value position.expected = Expr.constant value other.expected)
    (hfilter : position.expected.filter (·.isConcrete) = other.expected.filter (·.isConcrete))
    (form : Form) (items : List Value) :
    compileForm form items position = compileForm form items other := by
  have hoperand : ∀ index ty, position.operand index ty = other.operand index ty := by
    intro index ty
    rw [Position.operand, Position.operand, hlocation]
  have harray : ∀ args, arrayType position args = arrayType other args := by
    intro args
    simp only [arrayType, Position.failAt, hlocation]
  fun_cases compileForm form items position
  case case1 value => rw [compileForm, hconstant]
  case case2 key | case3 key => rw [compileForm, hoperand]
  case case4 => rfl
  case case5 input | case6 input => rw [compileForm, hoperand]
  case case7 input | case8 input | case9 input => rw [compileForm, harray, hoperand]
  case case10 hempty => rw [compileForm, if_pos hempty, Position.fail, Position.fail, hlocation]
  case case11 operands hempty =>
    rw [compileForm, if_neg hempty, hfilter, compileOperands_congr hlocation]
  case case12 =>
    rw [compileForm, Position.fail, Position.fail, hlocation]
    all_goals assumption

/-- Where the universal type is expected, a source compiles to the same or fails with the same error
as where no type is, whether null is taken there or not. -/
theorem compile_value (raw : Value) (location : List Nat) (nullable other : Bool) :
    compile raw ⟨location, some .value, nullable⟩ = compile raw ⟨location, none, other⟩ := by
  have hform := @compileForm_congr ⟨location, some .value, nullable⟩ ⟨location, none, other⟩ rfl
    (Expr.constant_of_ne_array nofun) rfl
  cases raw with
  | array items =>
      rw [compile, compile]
      simp only [hform, Position.fail, Position.failAt, Position.enforce_value]
      rfl
  | object fields => rfl
  | _ => exact Position.enforce_value location nullable _

/-- The universal type is no constraint. A whole source compiles where it is expected to the same
expression as where no type is, or is refused with the same errors; and so does every operand in
every session, whether null is taken there or not, to the same result and the same record. -/
theorem compileExpression_value (raw : Value) :
    compileExpression raw (some .value) = compileExpression raw none ∧
      ∀ (session : Session) (index : Nat) (nullable other : Bool),
        session.compileOperand raw index (some .value) nullable =
          session.compileOperand raw index none other := by
  refine ⟨?_, fun session index nullable other ↦ ?_⟩
  · rw [compileExpression_eq_mapError, compileExpression_eq_mapError,
      compile_value raw [] false false]
  · rw [Session.compileOperand_eq_record, Session.compileOperand_eq_record, Position.operand,
      Position.operand, compile_value]

/-- Where the universal type is expected, a source elaborates as where no type is. -/
theorem Elaborates.value_iff {raw : Value} {core : Expr} :
    Elaborates raw (some .value) core ↔ Elaborates raw none core := by
  have hvalue := @compile_eq_ok_iff raw { expected := some .value } core
  have hnone : compile raw { expected := none } = .ok core ↔
      ∃ inner, Elaborates raw none inner ∧ core = inner := compile_eq_ok_iff
  rw [compile_value raw [] false false, hnone] at hvalue
  simpa using hvalue.symm

/-- A source elaborates in one way where no type is expected. -/
theorem Elaborates.unique_of_none {raw : Value} {core core' : Expr} (h : Elaborates raw none core)
    (h' : Elaborates raw none core') : core = core' :=
  h.fits_unique (show core.Fits none false core from rfl) h' rfl

/-! ## Operands with nothing known of their type -/

/-- Nothing is known of the type of values if no type is known, or only the universal type. -/
def Unspecific (known : Option Ty) : Prop :=
  known = none ∨ known = some .value

/-- Nothing is known if the type does not constrain values. -/
theorem unspecific_iff {known : Option Ty} :
    Unspecific known ↔ known.filter (·.isConcrete) = none := by
  cases known with
  | none => simp [Unspecific]
  | some ty => simp [Unspecific, Ty.isConcrete_iff]

namespace Unspecific

variable {known : Option Ty} {operand : Value} {core expr : Expr} {nullable : Bool}

/-- An operand elaborates as where no type is expected. -/
theorem elaborates_iff (h : Unspecific known) :
    Elaborates operand known core ↔ Elaborates operand none core := by
  rcases h with rfl | rfl
  · exact Iff.rfl
  · exact Elaborates.value_iff

/-- An operand stays as it is. -/
theorem fits_iff (h : Unspecific known) : core.Fits known nullable expr ↔ expr = core := by
  rcases h with rfl | rfl
  · exact Iff.rfl
  · exact Expr.fits_value_iff

/-- After an operand that might be null by its type there is still nothing known. -/
theorem knownAfter (h : Unspecific known) (hcore : core.ty = .value ∨ core.ty = .null) :
    Unspecific (knownAfter known core) := by
  rcases h with rfl | rfl
  · rcases hcore with hty | hty
    · right
      rw [StyleLang.knownAfter, hty]
      rfl
    · left
      rw [StyleLang.knownAfter, hty]
      rfl
  · exact .inr rfl

end Unspecific

variable {context : EvalContext}

/-- After operands that are null there is still nothing known, if each of them might be null by its
type. -/
theorem ElaboratesOperands.unspecific_of {operands : List Value} {known result : Option Ty}
    {exprs : List Expr} (h : ElaboratesOperands operands known result exprs)
    (hknown : Unspecific known)
    (hoperands : ∀ operand ∈ operands, ∀ {core : Expr}, Elaborates operand none core →
      core.evaluate context = .ok .null → core.ty = .value ∨ core.ty = .null)
    (hnull : Expr.evaluateFirst (exprs.map Expr.bare) context = .ok .null) :
    Unspecific result := by
  induction operands generalizing known exprs with
  | nil =>
      cases h
      exact hknown
  | cons operand operands ih =>
      cases h with
      | @cons _ _ _ _ core expr exprs hcore hfits hrest =>
          rw [hknown.elaborates_iff] at hcore
          obtain rfl := hknown.fits_iff.mp hfits
          rw [List.map_cons, hcore.bare_eq, Expr.evaluateFirst_cons_eq_null_iff] at hnull
          have hty := hoperands operand List.mem_cons_self hcore hnull.1
          exact ih hrest (hknown.knownAfter hty)
            (fun other hmem ↦ hoperands other (List.mem_cons_of_mem _ hmem)) hnull.2

/-- An expression that is null where no type is expected has the universal type or the type null. -/
theorem Elaborates.ty_of_evaluate_null {raw : Value} {core : Expr} (h : Elaborates raw none core)
    (hnull : core.evaluate context = .ok .null) : core.ty = .value ∨ core.ty = .null := by
  generalize hexpected : (none : Option Ty) = expected at h
  have htyped := h.wellTyped
  rw [← Ty.accepts_null_iff, ← Bool.not_eq_false]
  intro hty
  induction h using Elaborates.induction with
  | @coalesce _ operands _ result exprs hform hoperands hexprs ih =>
      subst hexpected
      rw [Expr.ty_assemble] at hty
      -- Operands that are null leave the type of the coalesce open, so it would accept null.
      have hfirst := (Expr.evaluate_assemble_eq_null hty hnull).2
      have hresult : Unspecific result := by
        refine hexprs.unspecific_of (.inl rfl) (fun operand hmem core hcore hcoreNull ↦ ?_) hfirst
        rw [← Ty.accepts_null_iff, ← Bool.not_eq_false]
        exact ih operand hmem hcore hcoreNull rfl hcore.wellTyped
      rcases hresult with rfl | rfl <;> cases hty
  | _ => exact htyped.ne_null nofun hty hnull rfl

/-- After operands that are null there is still nothing known. -/
theorem ElaboratesOperands.unspecific {operands : List Value} {known result : Option Ty}
    {exprs : List Expr} (h : ElaboratesOperands operands known result exprs)
    (hknown : Unspecific known)
    (hnull : Expr.evaluateFirst (exprs.map Expr.bare) context = .ok .null) :
    Unspecific result :=
  h.unspecific_of hknown (fun _ _ _ hcore ↦ hcore.ty_of_evaluate_null) hnull

/-- As long as nothing is known of their type, operands evaluate to the same: as soon as a type is
known, so is the value. -/
theorem ElaboratesOperands.evaluateFirst_congr {operands : List Value}
    {known known' result result' : Option Ty} {exprs exprs' : List Expr}
    (h : ElaboratesOperands operands known result exprs) (hknown : Unspecific known)
    (h' : ElaboratesOperands operands known' result' exprs') (hknown' : Unspecific known') :
    Expr.evaluateFirst (exprs.map Expr.bare) context =
      Expr.evaluateFirst (exprs'.map Expr.bare) context := by
  induction operands generalizing known known' exprs exprs' with
  | nil =>
      cases h
      cases h'
      rfl
  | cons operand operands ih =>
      cases h with
      | @cons _ _ _ _ core expr exprs hcore hfits hrest =>
      cases h' with
      | @cons _ _ _ _ core' expr' exprs' hcore' hfits' hrest' =>
          rw [hknown.elaborates_iff] at hcore
          rw [hknown'.elaborates_iff] at hcore'
          obtain rfl := hknown.fits_iff.mp hfits
          obtain rfl := hknown'.fits_iff.mp hfits'
          obtain rfl := hcore.unique_of_none hcore'
          rw [List.map_cons, List.map_cons, hcore.bare_eq]
          -- Only an operand that is not null can make the operands after it elaborate differently.
          refine Expr.evaluateFirst_cons_congr fun hnull ↦ ?_
          exact ih hrest (hknown.knownAfter (hcore.ty_of_evaluate_null hnull)) hrest'
            (hknown'.knownAfter (hcore.ty_of_evaluate_null hnull))

/-! ## Annotations that check nothing -/

/-- If an operand where no type is expected had an inferred wrapper, then the value of the operands
has the type that they come to. -/
theorem ElaboratesOperands.accepts_of_none {operands : List Value} {result : Option Ty}
    {exprs : List Expr} (h : ElaboratesOperands operands none result exprs)
    (hany : exprs.any Expr.isInferred = true) {value : Value}
    (hvalue : Expr.evaluateFirst (exprs.map Expr.bare) context = .ok value) :
    (result.getD .null).accepts value.type = true := by
  induction operands generalizing exprs with
  | nil =>
      cases h
      cases hany
  | cons operand operands ih =>
      cases h with
      | @cons _ _ _ _ core expr exprs hcore hfits hrest =>
          obtain rfl : expr = core := hfits
          rw [List.any_cons, hcore.not_isInferred, Bool.false_or] at hany
          rw [List.map_cons, hcore.bare_eq, Expr.evaluateFirst_cons, bind_eq_ok_iff] at hvalue
          obtain ⟨first, hfirst, hvalue⟩ := hvalue
          by_cases hnull : expr.ty = .null
          · obtain rfl := hcore.wellTyped.eq_null_of_ty hnull hfirst
            rw [knownAfter, if_pos hnull] at hrest
            exact ih hrest hany hvalue
          · rw [knownAfter, if_neg hnull] at hrest
            obtain rfl : result = some expr.ty := hrest.eq_of_some
            -- This operand settles the type: it gives the value, or it has the universal type.
            rw [Option.getD_some]
            split at hvalue
            · rename_i hfirstNull
              rw [Value.isNull_iff.mp hfirstNull] at hfirst
              rw [(hcore.ty_of_evaluate_null hfirst).resolve_right hnull]
              exact Ty.value_accepts _
            · rename_i hfirstNull
              cases hvalue
              exact (hcore.wellTyped.type_of_evaluate hfirst).resolve_left
                (hfirstNull <| Value.isNull_iff.mpr ·)

/-- A coalesce of which no type is expected evaluates as its operands do, also if an annotation
stands around it. -/
theorem ElaboratesOperands.evaluate_assemble_of_none {operands : List Value} {result : Option Ty}
    {exprs : List Expr} (h : ElaboratesOperands operands none result exprs) :
    (Expr.assemble (result.getD .null) exprs).evaluate context =
      Expr.evaluateFirst (exprs.map Expr.bare) context := by
  rw [Expr.evaluate_assemble]
  cases hfirst : Expr.evaluateFirst (exprs.map Expr.bare) context with
  | error e => rfl
  | ok value =>
      rw [ok_bind]
      split
      · rename_i hany
        exact Ty.check_of_accepts (h.accepts_of_none hany hfirst)
      · rfl

end StyleLang
