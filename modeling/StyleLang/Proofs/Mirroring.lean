import Mathlib.Data.List.Forall2
import StyleLang.Proofs.Typing

/-!
# The shape of compiled expressions

A compiled expression mirrors its source, whatever type is expected (`Elaborates.mirrors`). To the
nodes that the source writes the compiler adds only two kinds: an inferred wrapper around the whole
or around the key of a lookup, and one annotation around a coalesce of the universal type. So no
inferred wrapper is left where it could refuse the null of an operand, and every wrapper that the
source writes is there (`compileExpression_mirrors`).
-/

namespace StyleLang

/-- `raw.Mirrors expr` says that an expression has the shape of its source: every call becomes one
node over what its operands become, and the wrapper that it writes is not inferred. Only the key of
a lookup may stand in an inferred wrapper, and a coalesce in an annotation. -/
inductive Value.Mirrors : Value → Expr → Prop where
  | scalar {value : Value} {ty : Ty} : value.isScalar = true → Mirrors value (.literal ty value)
  | literal {value : Value} {ty : Ty} : Mirrors (.call "literal" [value]) (.literal ty value)
  | get {key : Value} {core expr : Expr} :
      Mirrors key core → (expr = core ∨ expr = .wrap ⟨.assertion, .string, true⟩ core) →
      Mirrors (.call "get" [key]) (.get expr)
  | has {key : Value} {core expr : Expr} :
      Mirrors key core → (expr = core ∨ expr = .wrap ⟨.assertion, .string, true⟩ core) →
      Mirrors (.call "has" [key]) (.has expr)
  | zoom : Mirrors (.call "zoom" []) .zoom
  | wrap {name : String} {form : Form} {args : List Value} {wrapper : Wrapper} {input : Value}
      {core : Expr} :
      Form.ofOperator? name = some form → form.wrapper? args = some (wrapper, input) →
      wrapper.inferred = false → Mirrors input core → Mirrors (.call name args) (.wrap wrapper core)
  | coalesce {operands : List Value} {args : List Expr} {ty : Ty} :
      operands ≠ [] → List.Forall₂ Mirrors operands args →
      Mirrors (.call "coalesce" operands) (.coalesce ty args)
  | annotated {operands : List Value} {args : List Expr} {ty : Ty} :
      ty ≠ .value → operands ≠ [] → List.Forall₂ Mirrors operands args →
      Mirrors (.call "coalesce" operands)
        (.wrap ⟨ty.annotationKind, ty, false⟩ (.coalesce .value args))

/-- An expression that mirrors a source is not in an inferred wrapper. -/
theorem Value.Mirrors.not_isInferred {raw : Value} {expr : Expr} (h : raw.Mirrors expr) :
    expr.isInferred = false := by
  cases h with
  | wrap _ _ hinferred => simp [Expr.isInferred, Expr.stripInferred, hinferred]
  | _ => rfl

/-- What fits where a string is expected may stand as the key of a lookup. -/
theorem Expr.Fits.key {core expr : Expr} (h : core.Fits (some .string) false expr) :
    expr = core ∨ expr = .wrap ⟨.assertion, .string, true⟩ core := by
  refine h.eq_or_eq_wrap.imp_right fun hwrap ↦ ?_
  obtain ⟨ty, hty, hwrap, -⟩ := hwrap
  cases hty
  exact hwrap

/-- Operands become, one by one, what they elaborate to. -/
theorem ElaboratesOperands.forall₂_bare {operands : List Value} {ty result : Option Ty}
    {exprs : List Expr} (h : ElaboratesOperands operands ty result exprs)
    {relation : Value → Expr → Prop}
    (hrelation : ∀ operand ∈ operands, ∀ {ty : Option Ty} {core : Expr},
      Elaborates operand ty core → relation operand core) :
    List.Forall₂ relation operands (exprs.map Expr.bare) := by
  induction operands generalizing ty exprs with
  | nil =>
      cases h
      exact .nil
  | cons operand operands ih =>
      cases h with
      | cons hcore hfits hrest =>
          refine .cons ?_ (ih hrest fun other hmem ↦ hrelation other (List.mem_cons_of_mem _ hmem))
          rw [hfits.bare hcore.not_isInferred]
          exact hrelation operand List.mem_cons_self hcore

/-- What elaborates mirrors its source. -/
theorem Elaborates.mirrors {raw : Value} {expected : Option Ty} {core : Expr}
    (h : Elaborates raw expected core) : raw.Mirrors core := by
  induction h using Elaborates.induction with
  | scalar hscalar => exact .scalar hscalar
  | literal hform =>
      rw [Form.operator_unique hform (rfl : Form.ofOperator? "literal" = _)]
      exact .literal
  | get hform _ hfits ih =>
      rw [Form.operator_unique hform (rfl : Form.ofOperator? "get" = _)]
      exact .get ih hfits.key
  | has hform _ hfits ih =>
      rw [Form.operator_unique hform (rfl : Form.ofOperator? "has" = _)]
      exact .has ih hfits.key
  | zoom hform =>
      rw [Form.operator_unique hform (rfl : Form.ofOperator? "zoom" = _)]
      exact .zoom
  | wrap hform hwrapper _ ih => exact .wrap hform hwrapper (Form.wrapper?_spec hform hwrapper).1 ih
  | @coalesce _ _ _ result exprs hform hoperands hexprs ih =>
      rw [Form.operator_unique hform (rfl : Form.ofOperator? "coalesce" = _)]
      have hargs := hexprs.forall₂_bare ih
      rcases Expr.assemble_cases (result.getD .null) exprs with ⟨ty, heq⟩ | ⟨hvalue, heq⟩
      · rw [heq]
        exact .coalesce hoperands hargs
      · rw [heq]
        exact .annotated hvalue hoperands hargs

/-! ## Inferred wrappers -/

namespace Expr

/-- An expression keeps its inferred wrappers to keys if those of its nodes that are in one are the
keys of lookups. The expression itself may be in one. -/
def KeepsInferredToKeys (expr : Expr) : Prop :=
  ∀ node ∈ expr.nodes, ∀ child ∈ node.children, child.isInferred = true →
    node = .get child ∨ node = .has child

/-- It is enough to look at the children of an expression. -/
theorem KeepsInferredToKeys.of_children {expr : Expr}
    (hexpr : ∀ child ∈ expr.children, child.isInferred = true →
      expr = .get child ∨ expr = .has child)
    (hchildren : ∀ child ∈ expr.children, child.KeepsInferredToKeys) :
    expr.KeepsInferredToKeys :=
  forall_mem_nodes_iff.mpr ⟨hexpr, hchildren⟩

theorem KeepsInferredToKeys.get {key : Expr} (h : key.KeepsInferredToKeys) :
    (Expr.get key).KeepsInferredToKeys := by
  refine .of_children ?_ ?_ <;> simp [children, h]

theorem KeepsInferredToKeys.has {key : Expr} (h : key.KeepsInferredToKeys) :
    (Expr.has key).KeepsInferredToKeys := by
  refine .of_children ?_ ?_ <;> simp [children, h]

/-- A wrapper around what is in no inferred wrapper. -/
theorem KeepsInferredToKeys.wrap {input : Expr} (h : input.KeepsInferredToKeys)
    (hinput : input.isInferred = false) (wrapper : Wrapper) :
    (Expr.wrap wrapper input).KeepsInferredToKeys := by
  refine .of_children ?_ ?_ <;> simp [children, hinput, h]

/-- A coalesce of arguments that are in no inferred wrappers. -/
theorem KeepsInferredToKeys.coalesce {args : List Expr}
    (h : ∀ arg ∈ args, arg.isInferred = false ∧ arg.KeepsInferredToKeys) (ty : Ty) :
    (Expr.coalesce ty args).KeepsInferredToKeys := by
  refine .of_children (fun arg hmem hinferred ↦ ?_) fun arg hmem ↦ (h arg hmem).2
  rw [(h arg hmem).1] at hinferred
  cases hinferred

end Expr

/-- On the right of a relation between lists stands only what is related to something on the
left. -/
theorem exists_of_forall₂_of_mem {α β : Type} {relation : α → β → Prop} {xs : List α} {ys : List β}
    (h : List.Forall₂ relation xs ys) {y : β} (hmem : y ∈ ys) : ∃ x ∈ xs, relation x y := by
  obtain ⟨i, hi, rfl⟩ := List.getElem_of_mem hmem
  obtain ⟨hlength, hget⟩ := List.forall₂_iff_get.mp h
  exact ⟨_, List.get_mem xs ⟨i, hlength ▸ hi⟩, hget i (hlength ▸ hi) hi⟩

/-- An expression that mirrors a source has inferred wrappers only around keys. -/
theorem Value.Mirrors.keepsInferredToKeys {raw : Value} {expr : Expr} (h : raw.Mirrors expr) :
    expr.KeepsInferredToKeys := by
  induction raw using Value.induction generalizing expr with
  | array items ih =>
      have hkey : ∀ {key : Value} {core expr : Expr}, key ∈ items → key.Mirrors core →
          (expr = core ∨ expr = .wrap ⟨.assertion, .string, true⟩ core) →
          expr.KeepsInferredToKeys := by
        rintro key core expr hmem hcore (rfl | rfl)
        · exact ih key hmem hcore
        · exact (ih key hmem hcore).wrap hcore.not_isInferred _
      have hargs : ∀ {operands : List Value} {args : List Expr},
          (∀ operand ∈ operands, operand ∈ items) → List.Forall₂ Value.Mirrors operands args →
          ∀ arg ∈ args, arg.isInferred = false ∧ arg.KeepsInferredToKeys := by
        intro operands args hmem hforall arg harg
        obtain ⟨operand, hoperand, hmirrors⟩ := exists_of_forall₂_of_mem hforall harg
        exact ⟨hmirrors.not_isInferred, ih operand (hmem operand hoperand) hmirrors⟩
      cases h with
      | scalar | literal | zoom => exact .of_children nofun nofun
      | get hcore hexpr => exact .get (hkey (by simp) hcore hexpr)
      | has hcore hexpr => exact .has (hkey (by simp) hcore hexpr)
      | wrap _ hwrapper _ hinput =>
          have hmem := Form.mem_of_wrapper? hwrapper
          exact (ih _ (List.mem_cons_of_mem _ hmem) hinput).wrap hinput.not_isInferred _
      | coalesce _ hforall =>
          exact .coalesce (hargs (fun _ ↦ List.mem_cons_of_mem _) hforall) _
      | annotated _ _ hforall =>
          exact .wrap (.coalesce (hargs (fun _ ↦ List.mem_cons_of_mem _) hforall) _) rfl _
  | _ =>
      cases h
      exact .of_children nofun nofun

/-! ## Compiled expressions -/

/-- A compiled expression has the shape of its source, possibly in an inferred wrapper that enforces
the expected type. Below its root there are inferred wrappers only around the keys of lookups, so no
argument of a coalesce and no input of a wrapper is in one. -/
theorem compileExpression_mirrors {raw : Value} {expected : Option Ty} {root : Expr}
    (h : compileExpression raw expected = .ok root) :
    (∃ core, raw.Mirrors core ∧
      (root = core ∨
        ∃ ty, expected = some ty ∧ root = .wrap ⟨ty.annotationKind, ty, true⟩ core)) ∧
    ∀ node ∈ root.nodes, ∀ child ∈ node.children, child.isInferred = true →
      node = .get child ∨ node = .has child := by
  obtain ⟨core, hcore, hfits⟩ := compileExpression_eq_ok_iff.mp h
  have hmirrors := hcore.mirrors
  rcases hfits.eq_or_eq_wrap with rfl | ⟨ty, hty, rfl, -⟩
  · exact ⟨⟨root, hmirrors, .inl rfl⟩, hmirrors.keepsInferredToKeys⟩
  · exact ⟨⟨core, hmirrors, .inr ⟨ty, hty, rfl⟩⟩,
      hmirrors.keepsInferredToKeys.wrap hcore.not_isInferred _⟩

/-- A lookup under a looked-up key and a written assertion, where a number is expected: the key
keeps its inferred wrapper, the operand loses its own to an annotation, and the written one
stays. -/
theorem compileExpression_mirrors_lookup :
    ∃ root,
      compileExpression
          (.call "coalesce" [.call "get" [.call "get" [.string "a"]],
            .call "number" [.call "get" [.string "b"]]]) (some .number) = .ok root ∧
        (Value.call "coalesce" [.call "get" [.call "get" [.string "a"]],
          .call "number" [.call "get" [.string "b"]]]).Mirrors root ∧
        root.nodes.map Expr.kind =
          ["assertion", "coalesce", "get", "assertion", "get", "literal", "assertion", "get",
            "literal"] ∧
        ∀ node ∈ root.nodes, ∀ child ∈ node.children, child.isInferred = true →
          node = .get child ∨ node = .has child := by
  have hroot :
      compileExpression
          (.call "coalesce" [.call "get" [.call "get" [.string "a"]],
            .call "number" [.call "get" [.string "b"]]]) (some .number) =
        .ok (.wrap ⟨.assertion, .number, false⟩ (.coalesce .value
          [.get (.wrap ⟨.assertion, .string, true⟩ (.get (.literal .string (.string "a")))),
            .wrap ⟨.assertion, .number, false⟩ (.get (.literal .string (.string "b")))])) := rfl
  obtain ⟨⟨core, hmirrors, hcore⟩, hkeys⟩ := compileExpression_mirrors hroot
  rcases hcore with rfl | ⟨ty, -, hwrap⟩
  · exact ⟨_, hroot, hmirrors, rfl, hkeys⟩
  · simp at hwrap

end StyleLang
