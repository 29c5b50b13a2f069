import StyleLang.Proofs.Elaboration
import StyleLang.Proofs.Recording

/-!
# Compilation computes elaboration

`compile_eq_ok_iff` shows that compilation gives what the relations of `Elaboration` say, in one
direction by following the calls of the compiler and in the other by induction on elaboration.
`compileExpression_eq_ok_iff` is the same for whole expressions.
-/

namespace StyleLang

/-- What enforcing a position makes of an expression is what fits there. -/
theorem Position.enforce_eq_ok_iff {position : Position} {core expr : Expr} :
    position.enforce core = .ok expr ↔ core.Fits position.expected position.nullable expr := by
  obtain ⟨location, expected, nullable⟩ := position
  cases expected with
  | none => simp [enforce, Expr.Fits, eq_comm]
  | some ty =>
      simp only [enforce, Expr.Fits, fail]
      split
      · rename_i h
        simp only [Bool.or_eq_true, Bool.and_eq_true, beq_iff_eq] at h
        constructor
        · intro heq
          cases heq
          exact ⟨rfl, h⟩
        · rintro ⟨rfl, -⟩
          rfl
      · rename_i h
        simp only [Bool.or_eq_true, Bool.and_eq_true, beq_iff_eq] at h
        constructor
        · intro heq
          cases heq
        · rintro ⟨rfl, hsuits⟩
          exact absurd hsuits h

/-- The array type that a call of `array` gives is the type of its wrapper. -/
theorem Form.wrapper?_array {position : Position} {before : List Value} {input : Value} {ty : Ty}
    (hlength : before.length ≤ 2) (h : arrayType position before = .ok ty) :
    Form.array.wrapper? (before ++ [input]) = some (⟨.array, ty, false⟩, input) := by
  match before with
  | [] =>
      cases h
      rfl
  | [item] =>
      rw [arrayType] at h
      split at h <;> cases h
      rename_i ty hitem
      simp [wrapper?, hitem]
  | [item, length] =>
      rw [arrayType] at h
      split at h <;> cases h
      rename_i ty length hitem hlength
      simp [wrapper?, hitem, hlength]
  | _ :: _ :: _ :: _ => simp at hlength

/-- A call of an operator compiles as its form does, and is then made to fit its position. -/
theorem compile_call {name : String} {form : Form} (h : Form.ofOperator? name = some form)
    (args : List Value) (position : Position) :
    compile (.call name args) position =
      compileForm form (.string name :: args) position >>= position.enforce := by
  rw [Value.call, compile]
  simp only [List.head?_cons, h]

mutual

/-- What compiles, elaborates. -/
theorem compile_sound {raw : Value} {position : Position} {expr : Expr}
    (h : compile raw position = .ok expr) :
    ∃ core, Elaborates raw position.expected core ∧
      core.Fits position.expected position.nullable expr := by
  cases raw with
  | array items =>
      cases items with
      | nil =>
          rw [compile] at h
          cases h
      | cons head args =>
          cases head with
          | string name =>
              cases hform : Form.ofOperator? name with
              | none =>
                  rw [compile] at h
                  simp only [List.head?_cons, hform] at h
                  cases h
              | some form =>
                  rw [compile_call hform, bind_eq_ok_iff] at h
                  obtain ⟨core, hcore, hfits⟩ := h
                  exact ⟨core, .call hform (compileForm_sound hcore),
                    Position.enforce_eq_ok_iff.mp hfits⟩
          | _ =>
              rw [compile] at h
              cases h
  | object fields => cases h
  | _ =>
      rw [compile, Position.enforce_eq_ok_iff] at h
      · exact ⟨_, .scalar rfl, h⟩
      all_goals simp
termination_by (sizeOf raw, 0)

/-- A call that compiles, elaborates. -/
theorem compileForm_sound {form : Form} {head : Value} {args : List Value} {position : Position}
    {expr : Expr} (h : compileForm form (head :: args) position = .ok expr) :
    ElaboratesForm form args position.expected expr := by
  unfold compileForm at h
  split at h
  case h_1 =>
    rename_i heq
    cases heq
    cases h
    exact .literal
  case h_2 =>
    rename_i heq
    cases heq
    obtain ⟨key, hkey, rfl⟩ := map_eq_ok_iff.mp h
    obtain ⟨core, hcore, hfits⟩ := compile_sound hkey
    exact .get hcore hfits
  case h_3 =>
    rename_i heq
    cases heq
    obtain ⟨key, hkey, rfl⟩ := map_eq_ok_iff.mp h
    obtain ⟨core, hcore, hfits⟩ := compile_sound hkey
    exact .has hcore hfits
  case h_4 =>
    rename_i heq
    cases heq
    cases h
    exact .zoom
  case h_5 | h_6 =>
    rename_i heq
    cases heq
    obtain ⟨input, hinput, rfl⟩ := map_eq_ok_iff.mp h
    obtain ⟨core, hcore, hfits⟩ := compile_sound hinput
    cases Expr.fits_value_iff.mp hfits
    exact .wrap rfl hcore
  case h_7 | h_8 | h_9 =>
    rename_i heq
    cases heq
    obtain ⟨ty, hty, h⟩ := bind_eq_ok_iff.mp h
    obtain ⟨input, hinput, rfl⟩ := map_eq_ok_iff.mp h
    obtain ⟨core, hcore, hfits⟩ := compile_sound hinput
    cases Expr.fits_value_iff.mp hfits
    exact .wrap (Form.wrapper?_array (by simp) hty) hcore
  case h_10 =>
    rename_i heq
    cases heq
    split at h
    · cases h
    · rename_i hoperands
      obtain ⟨⟨result, exprs⟩, hexprs, h⟩ := bind_eq_ok_iff.mp h
      cases h
      exact .coalesce (by simpa using hoperands) (compileOperands_sound hexprs)
  case h_11 => cases h
termination_by (sizeOf args, 1)

/-- The operands of a coalesce that compile, elaborate. -/
theorem compileOperands_sound {operands : List Value} {position : Position} {index : Nat}
    {ty result : Option Ty} {exprs : List Expr}
    (h : compileOperands operands position index ty = .ok (result, exprs)) :
    ElaboratesOperands operands ty result exprs := by
  cases operands with
  | nil =>
    cases h
    exact .nil
  | cons operand operands =>
    rw [compileOperands, bind_eq_ok_iff] at h
    obtain ⟨expr, hexpr, h⟩ := h
    obtain ⟨⟨rest, restExprs⟩, hrest, h⟩ := bind_eq_ok_iff.mp h
    cases h
    obtain ⟨core, hcore, hfits⟩ := compile_sound hexpr
    exact .cons hcore hfits (compileOperands_sound hrest)
termination_by (sizeOf operands, 0)

end

/-- A call that writes a wrapper compiles as its input does, whose index is the number of arguments,
since the input is the last of them. -/
theorem compileForm_wrap {form : Form} {head : Value} {args : List Value} {wrapper : Wrapper}
    {input : Value} (h : form.wrapper? args = some (wrapper, input)) (position : Position) :
    compileForm form (head :: args) position =
      Expr.wrap wrapper <$> compile input (position.operand args.length (some .value)) := by
  unfold Form.wrapper? at h
  split at h
  case h_1 | h_2 | h_3 =>
    cases h
    rw [compileForm]
    rfl
  case h_4 =>
    rename_i item input
    cases hitem : arrayItem? item with
    | none => simp [hitem] at h
    | some ty =>
        simp only [hitem, Option.map_some, Option.some.injEq, Prod.mk.injEq] at h
        obtain ⟨rfl, rfl⟩ := h
        simp [compileForm, arrayType, hitem]
  case h_5 =>
    rename_i item length input
    cases hitem : arrayItem? item with
    | none => simp [hitem] at h
    | some ty =>
        cases hlength : arrayLength? length with
        | none => simp [hitem, hlength] at h
        | some n =>
            simp [hitem, hlength] at h
            obtain ⟨rfl, rfl⟩ := h
            simp [compileForm, arrayType, hitem, hlength]
  case h_6 => cases h

/-- Operands that elaborate compile at every place, if each of them does. -/
theorem compileOperands_complete_of {operands : List Value} {ty result : Option Ty}
    {exprs : List Expr}
    (hoperands : ∀ operand ∈ operands, ∀ {ty : Option Ty} {core : Expr},
      Elaborates operand ty core → ∀ {location : List Nat} {nullable : Bool} {expr : Expr},
        core.Fits ty nullable expr → compile operand ⟨location, ty, nullable⟩ = .ok expr)
    (h : ElaboratesOperands operands ty result exprs) (position : Position) (index : Nat) :
    compileOperands operands position index ty = .ok (result, exprs) := by
  induction operands generalizing ty exprs index with
  | nil =>
      cases h
      rw [compileOperands]
  | cons operand operands ih =>
      cases h with
      | cons hcore hfits hrest =>
          have hrest := ih (fun other hmem ↦ hoperands other (List.mem_cons_of_mem _ hmem)) hrest
          rw [compileOperands, Position.operand, hoperands operand List.mem_cons_self hcore hfits,
            ok_bind]
          exact bind_eq_ok_iff.mpr ⟨_, hrest (index + 1), rfl⟩

/-- What elaborates, compiles at every place where it fits. -/
theorem compile_complete {raw : Value} {expected : Option Ty} {core : Expr}
    (h : Elaborates raw expected core) {location : List Nat} {nullable : Bool} {expr : Expr}
    (hfits : core.Fits expected nullable expr) :
    compile raw ⟨location, expected, nullable⟩ = .ok expr := by
  induction h using Elaborates.induction generalizing location nullable expr with
  | @scalar value _ hscalar =>
      cases value with
      | array | object => cases hscalar
      | _ =>
          rw [compile, Position.enforce_eq_ok_iff]
          · exact hfits
          all_goals simp
  | literal hform =>
      rw [compile_call hform, compileForm, ok_bind]
      exact Position.enforce_eq_ok_iff.mpr hfits
  | get hform hkey hkeyFits ih | has hform hkey hkeyFits ih =>
      rw [compile_call hform, compileForm, Position.operand, ih hkeyFits]
      exact Position.enforce_eq_ok_iff.mpr hfits
  | zoom hform =>
      rw [compile_call hform, compileForm, ok_bind]
      exact Position.enforce_eq_ok_iff.mpr hfits
  | wrap hform hwrapper hinput ih =>
      rw [compile_call hform, compileForm_wrap hwrapper, Position.operand,
        ih (Expr.fits_value_iff.mpr rfl)]
      exact Position.enforce_eq_ok_iff.mpr hfits
  | @coalesce _ _ expected _ _ hform hoperands hexprs ih =>
      have hcompiled := compileOperands_complete_of ih hexprs ⟨location, expected, nullable⟩ 1
      rw [compile_call hform, compileForm]
      simp only [List.isEmpty_iff, hoperands, if_false, hcompiled, ok_bind]
      exact Position.enforce_eq_ok_iff.mpr hfits

/-- A raw value compiles to what it elaborates to and fits as. -/
theorem compile_eq_ok_iff {raw : Value} {position : Position} {expr : Expr} :
    compile raw position = .ok expr ↔
      ∃ core, Elaborates raw position.expected core ∧
        core.Fits position.expected position.nullable expr :=
  ⟨compile_sound, fun ⟨_, hcore, hfits⟩ ↦ compile_complete hcore hfits⟩

/-- Operands compile, at every place, to what they elaborate to. -/
theorem compileOperands_eq_ok_iff {operands : List Value} {position : Position} {index : Nat}
    {ty result : Option Ty} {exprs : List Expr} :
    compileOperands operands position index ty = .ok (result, exprs) ↔
      ElaboratesOperands operands ty result exprs :=
  ⟨compileOperands_sound, fun h ↦
    compileOperands_complete_of (fun _ _ _ _ h ↦ compile_complete h) h position index⟩

/-- A whole expression compiles to what it elaborates to and fits as. -/
theorem compileExpression_eq_ok_iff {raw : Value} {expected : Option Ty} {expr : Expr} :
    compileExpression raw expected = .ok expr ↔
      ∃ core, Elaborates raw expected core ∧ core.Fits expected false expr := by
  have hposition := @compile_eq_ok_iff raw { expected } expr
  rw [← hposition, compileExpression_eq_mapError]
  cases compile raw { expected } <;> simp

/-! ## Determinism -/

/-- A source fits into a place as at most one expression. -/
theorem Elaborates.fits_unique {raw : Value} {expected : Option Ty} {nullable : Bool}
    {core core' expr expr' : Expr} (h : Elaborates raw expected core)
    (hfits : core.Fits expected nullable expr) (h' : Elaborates raw expected core')
    (hfits' : core'.Fits expected nullable expr') : expr = expr' := by
  have hcompile : compile raw ⟨[], expected, nullable⟩ = .ok expr := compile_complete h hfits
  rw [compile_complete h' hfits'] at hcompile
  cases hcompile
  rfl

/-- The operands of a coalesce elaborate in one way. -/
theorem ElaboratesOperands.unique {operands : List Value} {ty result result' : Option Ty}
    {exprs exprs' : List Expr} (h : ElaboratesOperands operands ty result exprs)
    (h' : ElaboratesOperands operands ty result' exprs') : result = result' ∧ exprs = exprs' := by
  have hcompile : compileOperands operands {} 1 ty = .ok (result, exprs) :=
    compileOperands_eq_ok_iff.mpr h
  rw [compileOperands_eq_ok_iff.mpr h'] at hcompile
  cases hcompile
  exact ⟨rfl, rfl⟩

/-! ## Coalesces -/

/-- A whole coalesce compiles as its operands do. -/
theorem compileExpression_coalesce_iff {operands : List Value} {expected : Option Ty}
    {root : Expr} :
    compileExpression (.call "coalesce" operands) expected = .ok root ↔
      operands ≠ [] ∧ ∃ result exprs,
        ElaboratesOperands operands (expected.filter (·.isConcrete)) result exprs ∧
          root = .assemble (result.getD .null) exprs := by
  rw [compileExpression_eq_ok_iff]
  constructor
  · intro h
    obtain ⟨core, hcore, hfits⟩ := h
    obtain ⟨hoperands, result, exprs, hexprs, rfl⟩ := Elaborates.coalesce_iff.mp hcore
    exact ⟨hoperands, result, exprs, hexprs, hexprs.fits_assemble_iff.mp hfits⟩
  · intro h
    obtain ⟨hoperands, result, exprs, hexprs, rfl⟩ := h
    exact ⟨_, Elaborates.coalesce_iff.mpr ⟨hoperands, result, exprs, hexprs, rfl⟩,
      hexprs.fits_assemble_iff.mpr rfl⟩

/-- Where operands elaborate, a coalesce of them compiles to what they elaborate to. -/
theorem ElaboratesOperands.compile_coalesce_iff {operands : List Value}
    {expected result : Option Ty} {exprs : List Expr}
    (h : ElaboratesOperands operands (expected.filter (·.isConcrete)) result exprs)
    (hoperands : operands ≠ []) {root : Expr} :
    compileExpression (.call "coalesce" operands) expected = .ok root ↔
      root = .assemble (result.getD .null) exprs := by
  rw [compileExpression_coalesce_iff]
  constructor
  · intro hcompile
    obtain ⟨-, result', exprs', hexprs, rfl⟩ := hcompile
    obtain ⟨rfl, rfl⟩ := h.unique hexprs
    rfl
  · rintro rfl
    exact ⟨hoperands, result, exprs, h, rfl⟩

end StyleLang
