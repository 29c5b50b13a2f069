import StyleLang.Proofs.Compilation
import StyleLang.Proofs.Nodes

/-!
# Type soundness

`Expr.WellTyped` is the typing of expressions whose nodes say what type their values have. Every
expression that compiles is well typed (`Elaborates.wellTyped`), and a value of a well-typed
expression is null or has the type of the expression (`Expr.WellTyped.type_of_evaluate`). Null comes
past its type only where a coalesce has no argument that is not null.
-/

namespace StyleLang

/-- A wrapper is sound if the values that it gives have its type. -/
def Wrapper.Sound (wrapper : Wrapper) : Prop :=
  ∀ value result : Value, wrapper.apply value = .ok result →
    wrapper.ty.accepts result.type = true

/-- The wrappers that enforce a type are sound. -/
theorem Wrapper.sound_annotationKind (ty : Ty) (inferred : Bool) :
    (Wrapper.mk ty.annotationKind ty inferred).Sound := by
  intro value result h
  rw [apply_annotationKind] at h
  exact Ty.accepts_of_check h

/-- The values that a conversion gives have the type that it converts to. -/
theorem Ty.accepts_of_convert {ty : Ty} {value result : Value} (hty : ty ∈ targets)
    (h : ty.convert value = .ok result) : ty.accepts result.type = true := by
  simp only [targets, List.mem_cons, List.not_mem_nil, or_false] at hty
  rcases hty with rfl | rfl | rfl | rfl
  · cases h
    rfl
  · exact @accepts_of_check .color value result h
  · rw [convert] at h
    split at h <;> cases h
    rfl
  · cases h
    rfl

/-- The wrappers that are written are sound. -/
theorem Form.sound_of_wrapper? {name : String} {form : Form} {args : List Value}
    {wrapper : Wrapper} {input : Value} (hform : ofOperator? name = some form)
    (h : form.wrapper? args = some (wrapper, input)) : wrapper.Sound := by
  obtain ⟨kind, ty, inferred⟩ := wrapper
  obtain ⟨-, -, htarget⟩ := wrapper?_spec hform h
  intro value result happly
  cases kind with
  | coercion => exact Ty.accepts_of_convert (htarget rfl) happly
  | assertion | array =>
      simp only [Wrapper.apply] at happly
      split at happly <;> cases happly
      assumption

namespace Expr

/-- An expression is well typed if its literals have their types, its wrappers are sound, its keys
are strings, and the type of each coalesce accepts its arguments, apart from those of type null. -/
inductive WellTyped : Expr → Prop where
  | literal {ty : Ty} {value : Value} :
      ty.accepts value.type = true → WellTyped (.literal ty value)
  | get {key : Expr} :
      WellTyped key → Ty.string.accepts key.ty = true → WellTyped (.get key)
  | has {key : Expr} :
      WellTyped key → Ty.string.accepts key.ty = true → WellTyped (.has key)
  | zoom : WellTyped .zoom
  | wrap {wrapper : Wrapper} {input : Expr} :
      wrapper.Sound → WellTyped input → WellTyped (.wrap wrapper input)
  | coalesce {ty : Ty} {args : List Expr} :
      (∀ arg ∈ args, WellTyped arg) →
      (∀ arg ∈ args, arg.ty = .null ∨ ty.accepts arg.ty = true) →
      WellTyped (.coalesce ty args)

variable {context : EvalContext}

/-- A value of a well-typed expression is null or has the type of the expression. -/
theorem WellTyped.type_of_evaluate {expr : Expr} (h : expr.WellTyped) {value : Value}
    (hvalue : expr.evaluate context = .ok value) :
    value = .null ∨ expr.ty.accepts value.type = true := by
  induction h generalizing value with
  | literal haccepts =>
      cases hvalue
      exact .inr haccepts
  | get => exact .inr (Ty.value_accepts _)
  | has =>
      rw [evaluate_has, bind_eq_ok_iff] at hvalue
      obtain ⟨name, _, hvalue⟩ := hvalue
      cases hvalue
      exact .inr rfl
  | zoom =>
      rw [evaluate_zoom] at hvalue
      split at hvalue <;> cases hvalue
      exact .inr rfl
  | wrap hsound =>
      rw [evaluate_wrap, bind_eq_ok_iff] at hvalue
      obtain ⟨input, _, happly⟩ := hvalue
      exact .inr (hsound input value happly)
  | coalesce _ haccepts ih =>
      by_cases hnull : value = .null
      · exact .inl hnull
      rw [evaluate_coalesce] at hvalue
      obtain ⟨arg, hmem, harg⟩ := exists_of_evaluateFirst hvalue hnull
      -- The value has the type of the argument that gives it, and with that the accepting type.
      have htype := (ih arg hmem harg).resolve_left hnull
      rcases haccepts arg hmem with hty | hty
      · rw [hty, Ty.null_accepts_iff, Value.type_eq_null_iff] at htype
        exact absurd htype hnull
      · exact .inr (Ty.accepts_trans hty htype)

/-- A well-typed expression of type null has no other value. -/
theorem WellTyped.eq_null_of_ty {expr : Expr} (h : expr.WellTyped) (hty : expr.ty = .null)
    {value : Value} (hvalue : expr.evaluate context = .ok value) : value = .null := by
  rcases h.type_of_evaluate hvalue with hnull | haccepts
  · exact hnull
  · rwa [hty, Ty.null_accepts_iff, Value.type_eq_null_iff] at haccepts

/-- Apart from a coalesce, a well-typed expression of another type than null or the universal type
is never null. -/
theorem WellTyped.ne_null {expr : Expr} (h : expr.WellTyped)
    (hcoalesce : ∀ ty args, expr ≠ .coalesce ty args) (hty : expr.ty.accepts .null = false)
    {value : Value} (hvalue : expr.evaluate context = .ok value) : value ≠ .null := by
  rintro rfl
  have haccepts : expr.ty.accepts .null = true := by
    cases h with
    | literal haccepts =>
        cases hvalue
        exact haccepts
    | get => exact Ty.value_accepts _
    | has =>
        rw [evaluate_has, bind_eq_ok_iff] at hvalue
        obtain ⟨name, _, hvalue⟩ := hvalue
        cases hvalue
    | zoom =>
        rw [evaluate_zoom] at hvalue
        split at hvalue <;> cases hvalue
    | wrap hsound =>
        rw [evaluate_wrap, bind_eq_ok_iff] at hvalue
        obtain ⟨input, _, happly⟩ := hvalue
        exact hsound input .null happly
    | coalesce => exact absurd rfl (hcoalesce _ _)
  rw [hty] at haccepts
  cases haccepts

/-- The nodes of a well-typed expression are well typed. -/
theorem WellTyped.of_mem_nodes {expr : Expr} (h : expr.WellTyped) :
    ∀ node ∈ expr.nodes, node.WellTyped := by
  induction h with
  | literal haccepts => exact forall_mem_nodes_iff.mpr ⟨.literal haccepts, by simp [children]⟩
  | get hkey hty ih => exact forall_mem_nodes_iff.mpr ⟨.get hkey hty, by simpa [children] using ih⟩
  | has hkey hty ih => exact forall_mem_nodes_iff.mpr ⟨.has hkey hty, by simpa [children] using ih⟩
  | zoom => exact forall_mem_nodes_iff.mpr ⟨.zoom, by simp [children]⟩
  | wrap hsound hinput ih =>
      exact forall_mem_nodes_iff.mpr ⟨.wrap hsound hinput, by simpa [children] using ih⟩
  | coalesce hargs haccepts ih => exact forall_mem_nodes_iff.mpr ⟨.coalesce hargs haccepts, ih⟩

/-- A constant is well typed, also where it takes on the type that is expected. -/
theorem WellTyped.constant (value : Value) (expected : Option Ty) :
    (constant value expected).WellTyped := by
  refine .literal ?_
  unfold literalType
  split
  case h_1 | h_2 =>
    rename_i htype
    -- An array without items fits every array type that the literal can take on.
    obtain rfl := Value.item_of_type_eq_array_zero htype
    rw [htype, Ty.array_accepts_array_iff]
    exact ⟨.inl ⟨rfl, rfl⟩, by simp⟩
  case h_3 => exact Ty.accepts_self _

/-- An annotation keeps an expression well typed. -/
theorem WellTyped.annotate {expr : Expr} (h : expr.WellTyped) (ty : Ty) :
    (annotate ty expr).WellTyped := by
  by_cases hvalue : ty = .value
  · subst hvalue
    exact h
  · rw [annotate_eq_wrap hvalue]
    exact .wrap (Wrapper.sound_annotationKind ty false) h

/-- A coalesce of well-typed operands whose types it accepts is well typed. -/
theorem WellTyped.assemble {ty : Ty} {operands : List Expr}
    (hoperands : ∀ operand ∈ operands, operand.WellTyped ∧ operand.bare.WellTyped ∧
      (operand.ty = .null ∨ ty.accepts operand.ty = true)) :
    (assemble ty operands).WellTyped := by
  rw [assemble_eq]
  split
  · refine .annotate (.coalesce ?_ fun _ _ ↦ .inr (Ty.value_accepts _)) ty
    intro arg hmem
    obtain ⟨operand, hoperand, rfl⟩ := List.mem_map.mp hmem
    exact (hoperands operand hoperand).2.1
  · exact .coalesce (fun operand hmem ↦ (hoperands operand hmem).1)
      fun operand hmem ↦ (hoperands operand hmem).2.2

/-- What a well-typed expression becomes where a type is expected is well typed. -/
theorem Fits.wellTyped {core expr : Expr} {expected : Option Ty} {nullable : Bool}
    (h : core.Fits expected nullable expr) (hcore : core.WellTyped) : expr.WellTyped := by
  rcases h.eq_or_eq_wrap with rfl | ⟨ty, -, rfl, -⟩
  · exact hcore
  · exact .wrap (Wrapper.sound_annotationKind ty true) hcore

end Expr

/-- What elaborates is well typed. -/
theorem Elaborates.wellTyped {raw : Value} {expected : Option Ty} {core : Expr}
    (h : Elaborates raw expected core) : core.WellTyped := by
  induction h using Elaborates.induction with
  | scalar | literal => exact .constant _ _
  | get _ _ hfits ih => exact .get (hfits.wellTyped ih) (by simpa using hfits.2)
  | has _ _ hfits ih => exact .has (hfits.wellTyped ih) (by simpa using hfits.2)
  | zoom => exact .zoom
  | wrap hform hwrapper _ ih => exact .wrap (Form.sound_of_wrapper? hform hwrapper) ih
  | coalesce _ _ hexprs ih =>
      refine .assemble fun expr hmem ↦ ?_
      obtain ⟨operand, hoperand, ty, core, hcore, hfits, hty⟩ := hexprs.exists_of_mem hmem
      have hcoreTyped := ih operand hoperand hcore
      exact ⟨hfits.wellTyped hcoreTyped, hfits.bare hcore.not_isInferred ▸ hcoreTyped, hty⟩

/-- Operands with the wrappers inferred around them make a well-typed coalesce, too. -/
theorem ElaboratesOperands.wellTyped_coalesce {operands : List Value} {ty result : Option Ty}
    {exprs : List Expr} (h : ElaboratesOperands operands ty result exprs) :
    (Expr.coalesce (result.getD .null) exprs).WellTyped := by
  refine .coalesce ?_ ?_
  · intro expr hmem
    obtain ⟨_, _, _, core, hcore, hfits, -⟩ := h.exists_of_mem hmem
    exact hfits.wellTyped hcore.wellTyped
  · intro expr hmem
    obtain ⟨_, _, _, _, -, -, hty⟩ := h.exists_of_mem hmem
    exact hty

/-- What operands evaluate to is null or has the type that they come to. -/
theorem ElaboratesOperands.type_of_evaluateFirst {operands : List Value} {ty result : Option Ty}
    {exprs : List Expr} (h : ElaboratesOperands operands ty result exprs) {context : EvalContext}
    {value : Value} (hvalue : Expr.evaluateFirst exprs context = .ok value) :
    value = .null ∨ (result.getD .null).accepts value.type = true := by
  rw [← Expr.evaluate_coalesce (result.getD .null)] at hvalue
  exact h.wellTyped_coalesce.type_of_evaluate hvalue

/-- What fits where a type is expected, and null is not taken in spite of it, has a type that the
expected one accepts. -/
theorem Expr.Fits.accepts {core expr : Expr} {ty : Ty}
    (h : core.Fits (some ty) false expr) : ty.accepts expr.ty = true := by
  simpa using h.2

/-- A value of an expression that was compiled where a type is expected is null or has the type. -/
theorem type_of_compileExpression {raw : Value} {ty : Ty} {root : Expr}
    (h : compileExpression raw (some ty) = .ok root) {context : EvalContext} {value : Value}
    (hvalue : root.evaluate context = .ok value) :
    value = .null ∨ ty.accepts value.type = true := by
  obtain ⟨core, hcore, hfits⟩ := compileExpression_eq_ok_iff.mp h
  exact ((hfits.wellTyped hcore.wellTyped).type_of_evaluate hvalue).imp_right
    (Ty.accepts_trans hfits.accepts)

/-- Every node of a compiled expression tells the types of its values, except that a node may give
null; and among the nodes of another type than null and the universal type only a coalesce may. The
expected type accepts the type of the whole. -/
theorem compileExpression_sound {raw : Value} {expected : Option Ty} {root : Expr}
    (h : compileExpression raw expected = .ok root) :
    (∀ node ∈ root.nodes, ∀ (context : EvalContext) (value : Value),
      node.evaluate context = .ok value →
        (value = .null ∨ node.ty.accepts value.type = true) ∧
          ((∀ ty args, node ≠ .coalesce ty args) → node.ty ≠ .value → node.ty ≠ .null →
            value ≠ .null)) ∧
      ∀ ty, expected = some ty → ty.accepts root.ty = true := by
  obtain ⟨core, hcore, hfits⟩ := compileExpression_eq_ok_iff.mp h
  constructor
  · intro node hmem context value hvalue
    have htyped : node.WellTyped := (hfits.wellTyped hcore.wellTyped).of_mem_nodes node hmem
    refine ⟨htyped.type_of_evaluate hvalue, fun hcoalesce hvalueTy hnullTy ↦ ?_⟩
    have haccepts : node.ty.accepts .null = false := by
      rw [← Bool.not_eq_true, Ty.accepts_null_iff]
      exact fun hty ↦ hty.elim hvalueTy hnullTy
    exact htyped.ne_null hcoalesce haccepts hvalue
  · rintro ty rfl
    exact hfits.accepts

/-- A lookup with a default, where a number is expected: an assertion stands around a coalesce of
the lookup and the default. -/
theorem compileExpression_sound_lookup :
    ∃ root,
      compileExpression (.call "coalesce" [.call "get" [.string "a"], .number 0]) (some .number) =
        .ok root ∧
      root.nodes.length = 5 ∧
      (∀ node ∈ root.nodes, ∀ (context : EvalContext) (value : Value),
        node.evaluate context = .ok value →
          (value = .null ∨ node.ty.accepts value.type = true) ∧
            ((∀ ty args, node ≠ .coalesce ty args) → node.ty ≠ .value → node.ty ≠ .null →
              value ≠ .null)) ∧
      Ty.number.accepts root.ty = true := by
  have hroot :
      compileExpression (.call "coalesce" [.call "get" [.string "a"], .number 0]) (some .number) =
        .ok (.annotate .number (.coalesce .value
          [.get (.literal .string (.string "a")), .literal .number (.number 0)])) := rfl
  have hsound := compileExpression_sound hroot
  exact ⟨_, hroot, rfl, hsound.1, hsound.2 .number rfl⟩

end StyleLang
