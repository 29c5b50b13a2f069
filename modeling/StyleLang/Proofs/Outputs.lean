import StyleLang.Expr.Outputs
import StyleLang.Proofs.Typing

/-!
# Outputs known in advance

What an expression evaluates to is among its possible outputs, as long as no coalesce in it is
without arguments (`Expr.exists_allows`). A coalesce of nothing would be null without an output that
says so, but no such coalesce compiles (`Elaborates.supplied`), so the possible outputs of every
compiled expression are sound (`compileExpression_possibleOutputs`). An expression none of whose
outputs is unknown runs in the same way in every context, without a lookup
(`Expr.exists_run_eq_ofResult`).
-/

namespace StyleLang

/-- A possible output allows the value that it says, or every value if it is unknown. -/
def PossibleOutput.Allows : PossibleOutput → Value → Prop
  | .known output, value => output = value
  | .unknown, _ => True

/-- Outputs of which one allows a value say that value or leave it open. -/
theorem PossibleOutput.exists_allows_iff {outputs : List PossibleOutput} {value : Value} :
    (∃ output ∈ outputs, output.Allows value) ↔ .unknown ∈ outputs ∨ .known value ∈ outputs := by
  constructor
  · rintro ⟨_ | _, hmem, hallows⟩
    · obtain rfl : _ = value := hallows
      exact .inr hmem
    · exact .inl hmem
  · rintro (hmem | hmem)
    · exact ⟨.unknown, hmem, trivial⟩
    · exact ⟨.known value, hmem, rfl⟩

/-- The output of a wrapper allows what the wrapper makes of a value that the output of its input
allows. -/
theorem Wrapper.allows_output {wrapper : Wrapper} {input : PossibleOutput} {value result : Value}
    (h : input.Allows value) (happly : wrapper.apply value = .ok result) :
    (wrapper.output input).Allows result := by
  cases input with
  | unknown => trivial
  | known original =>
      obtain rfl : original = value := h
      obtain ⟨kind, ty, inferred⟩ := wrapper
      cases kind with
      | assertion | array =>
          simp only [apply] at happly
          split at happly <;> cases happly
          rfl
      | coercion =>
          have hconvert : ty.convert original = .ok result := happly
          simp only [output, hconvert]
          rfl

namespace Expr

/-! ## Coalesces without arguments -/

/-- Every coalesce in an expression has arguments. -/
def Supplied (expr : Expr) : Prop :=
  ∀ ty, .coalesce ty [] ∉ expr.nodes

/-- Each node of an expression is looked at. -/
theorem supplied_iff {expr : Expr} :
    expr.Supplied ↔ ∀ node ∈ expr.nodes, ∀ ty, node ≠ .coalesce ty [] :=
  ⟨fun h _ hmem ty heq ↦ h ty (heq ▸ hmem), fun h ty hmem ↦ h _ hmem ty rfl⟩

/-- It is enough that an expression is not such a coalesce and that its children have none. -/
theorem supplied_iff_children {expr : Expr} :
    expr.Supplied ↔ (∀ ty, expr ≠ .coalesce ty []) ∧ ∀ child ∈ expr.children, child.Supplied := by
  simp only [supplied_iff]
  exact forall_mem_nodes_iff

@[simp]
theorem supplied_wrap_iff {wrapper : Wrapper} {input : Expr} :
    (wrap wrapper input).Supplied ↔ input.Supplied := by
  rw [supplied_iff_children]
  simp [children]

theorem supplied_coalesce_iff {ty : Ty} {args : List Expr} :
    (coalesce ty args).Supplied ↔ args ≠ [] ∧ ∀ arg ∈ args, arg.Supplied := by
  rw [supplied_iff_children]
  simp [children]

/-- What an expression becomes where a type is expected has no coalesce without arguments either. -/
theorem Fits.supplied {core expr : Expr} {expected : Option Ty} {nullable : Bool}
    (h : core.Fits expected nullable expr) (hcore : core.Supplied) : expr.Supplied :=
  supplied_iff.mpr (h.forall_mem_nodes nofun (supplied_iff.mp hcore))

/-! ## Soundness -/

/-- An output of several expressions is an output of one of them. -/
theorem mem_possibleOutputsOfAll {output : PossibleOutput} {exprs : List Expr} :
    output ∈ possibleOutputsOfAll exprs ↔ ∃ expr ∈ exprs, output ∈ expr.possibleOutputs := by
  induction exprs with
  | nil => simp [possibleOutputsOfAll]
  | cons expr exprs ih => simp [possibleOutputsOfAll, ih]

/-- One of the possible outputs of an expression allows what it evaluates to, if every coalesce in
it has arguments. -/
theorem exists_allows {expr : Expr} (h : expr.Supplied) {context : EvalContext} {value : Value}
    (hvalue : expr.evaluate context = .ok value) :
    ∃ output ∈ expr.possibleOutputs, output.Allows value := by
  induction expr using Expr.induction generalizing value with
  | literal ty known =>
      rw [possibleOutputs]
      cases hvalue
      exact ⟨.known known, List.mem_singleton_self _, rfl⟩
  | get | has | zoom =>
      rw [possibleOutputs]
      exact ⟨.unknown, List.mem_singleton_self _, trivial⟩
  | wrap wrapper input ih =>
      rw [evaluate_wrap, bind_eq_ok_iff] at hvalue
      obtain ⟨inner, hinner, happly⟩ := hvalue
      obtain ⟨output, hmem, hallows⟩ := ih (supplied_wrap_iff.mp h) hinner
      rw [possibleOutputs]
      exact ⟨_, List.mem_map_of_mem hmem, Wrapper.allows_output hallows happly⟩
  | coalesce ty args ih =>
      obtain ⟨hargs, hsupplied⟩ := supplied_coalesce_iff.mp h
      rw [evaluate_coalesce] at hvalue
      -- The value is that of an argument, also if it is null and so is every argument.
      have harg : ∃ arg ∈ args, arg.evaluate context = .ok value := by
        by_cases hnull : value = .null
        · subst hnull
          obtain ⟨arg, hmem⟩ := List.exists_mem_of_ne_nil args hargs
          exact ⟨arg, hmem, evaluateFirst_eq_null_iff.mp hvalue arg hmem⟩
        · exact exists_of_evaluateFirst hvalue hnull
      obtain ⟨arg, hmem, harg⟩ := harg
      obtain ⟨output, houtput, hallows⟩ := ih arg hmem (hsupplied arg hmem) harg
      rw [possibleOutputs]
      exact ⟨output, mem_possibleOutputsOfAll.mpr ⟨arg, hmem, houtput⟩, hallows⟩

/-- A coalesce without arguments is null, and null is not among its outputs, as there are none. -/
example : (coalesce .null []).evaluate {} = .ok .null ∧ (coalesce .null []).possibleOutputs = [] :=
  ⟨rfl, rfl⟩

end Expr

/-- Every coalesce in what elaborates has arguments. -/
theorem Elaborates.supplied {raw : Value} {expected : Option Ty} {core : Expr}
    (h : Elaborates raw expected core) : core.Supplied := by
  refine Expr.supplied_iff.mpr (h.forall_mem_nodes nofun nofun nofun ?_ fun _ _ _ _ _ _ ↦
    ⟨nofun, nofun⟩)
  intro ty args hargs other heq
  cases heq
  exact hargs rfl

/-- What a compiled expression evaluates to is among its possible outputs, unless one of them is
unknown. -/
theorem compileExpression_possibleOutputs {raw : Value} {expected : Option Ty} {root : Expr}
    (h : compileExpression raw expected = .ok root) {context : EvalContext} {value : Value}
    (hvalue : root.evaluate context = .ok value) :
    .unknown ∈ root.possibleOutputs ∨ .known value ∈ root.possibleOutputs := by
  obtain ⟨core, hcore, hfits⟩ := compileExpression_eq_ok_iff.mp h
  have hsupplied : root.Supplied := hfits.supplied hcore.supplied
  exact PossibleOutput.exists_allows_iff.mp (Expr.exists_allows hsupplied hvalue)

/-- A literal that is converted after a null: the result is one of the outputs that were converted
in advance. -/
theorem compileExpression_possibleOutputs_conversion :
    ∃ root,
      compileExpression (.call "coalesce" [.null, .call "to-boolean" [.string "a"]]) none =
        .ok root ∧
      root.possibleOutputs = [.known .null, .known (.bool true)] ∧
      root.evaluate {} = .ok (.bool true) ∧
      (.unknown ∈ root.possibleOutputs ∨ .known (.bool true) ∈ root.possibleOutputs) := by
  have hroot :
      compileExpression (.call "coalesce" [.null, .call "to-boolean" [.string "a"]]) none =
        .ok (.coalesce .boolean
          [.literal .null .null,
            .wrap ⟨.coercion, .boolean, false⟩ (.literal .string (.string "a"))]) := rfl
  have houtputs :=
    compileExpression_possibleOutputs hroot (show Expr.evaluate _ {} = .ok (.bool true) from rfl)
  exact ⟨_, hroot, rfl, rfl, houtputs⟩

/-! ## Constants -/

namespace Expr

/-- Arguments of a coalesce that run in the same way in every context, without a lookup, do so one
after the other. -/
theorem exists_runFirst_eq_ofResult {args : List Expr}
    (h : ∀ arg ∈ args, ∃ result, ∀ context, arg.run context = .ofResult result) :
    ∃ result, ∀ context, runFirst context args = .ofResult result := by
  induction args with
  | nil =>
      refine ⟨.ok .null, fun context ↦ ?_⟩
      rw [runFirst]
      rfl
  | cons arg args ih =>
      obtain ⟨⟨first, hfirst⟩, hrest⟩ := List.forall_mem_cons.mp h
      obtain ⟨rest, hrest⟩ := ih hrest
      -- Which argument decides is settled by results that are the same in every context.
      refine ⟨first >>= fun value ↦ if value.isNull then rest else .ok value, fun context ↦ ?_⟩
      rw [runFirst, hfirst, hrest, ← Run.ofResult_bind_ofResult]
      congr 1
      funext value
      split <;> rfl

/-- An expression without an unknown output runs in the same way in every context, without a
lookup. -/
theorem exists_run_eq_ofResult {expr : Expr} (h : .unknown ∉ expr.possibleOutputs) :
    ∃ result, ∀ context, expr.run context = .ofResult result := by
  induction expr using Expr.induction with
  | literal ty value =>
      refine ⟨.ok value, fun context ↦ ?_⟩
      rw [run]
      rfl
  | get | has | zoom =>
      rw [possibleOutputs] at h
      exact absurd (List.mem_singleton_self _) h
  | wrap wrapper input ih =>
      rw [possibleOutputs] at h
      -- What is unknown of the input stays unknown, also if every known output converts.
      obtain ⟨result, hresult⟩ := ih fun hmem ↦ h (List.mem_map_of_mem hmem)
      refine ⟨result >>= wrapper.apply, fun context ↦ ?_⟩
      rw [run, hresult, Run.ofResult_bind_ofResult]
  | coalesce ty args ih =>
      rw [possibleOutputs] at h
      obtain ⟨result, hresult⟩ := exists_runFirst_eq_ofResult fun arg hmem ↦
        ih arg hmem fun hunknown ↦ h (mem_possibleOutputsOfAll.mpr ⟨arg, hmem, hunknown⟩)
      refine ⟨result, fun context ↦ ?_⟩
      rw [run, hresult]

end Expr

/-- A compiled expression without an unknown output is a constant: in every context it evaluates to
the same value, which is one of its outputs, or fails with the same error, and looks up nothing. -/
theorem compileExpression_constant {raw : Value} {expected : Option Ty} {root : Expr}
    (h : compileExpression raw expected = .ok root) (hknown : .unknown ∉ root.possibleOutputs) :
    ∃ result, (∀ value, result = .ok value → .known value ∈ root.possibleOutputs) ∧
      ∀ context, root.evaluate context = result ∧ root.lookups context = [] := by
  obtain ⟨result, hresult⟩ := Expr.exists_run_eq_ofResult hknown
  have hsame : ∀ context, root.evaluate context = result ∧ root.lookups context = [] :=
    fun context ↦ ⟨congrArg Run.result (hresult context), congrArg Run.lookups (hresult context)⟩
  refine ⟨result, fun value hvalue ↦ ?_, hsame⟩
  exact (compileExpression_possibleOutputs h ((hsame {}).1.trans hvalue)).resolve_left hknown

/-- An assertion that its literal fails, after a null: every output is known, and every evaluation
fails alike. -/
theorem compileExpression_constant_failure :
    ∃ root,
      compileExpression (.call "coalesce" [.null, .call "number" [.string "a"]]) none =
        .ok root ∧
      root.possibleOutputs = [.known .null, .known (.string "a")] ∧
      ∀ context, root.evaluate context = .error (.typeMismatch .number .string) ∧
        root.lookups context = [] := by
  have hroot :
      compileExpression (.call "coalesce" [.null, .call "number" [.string "a"]]) none =
        .ok (.coalesce .number [.literal .null .null,
          .wrap ⟨.assertion, .number, false⟩ (.literal .string (.string "a"))]) := rfl
  obtain ⟨result, -, hsame⟩ := compileExpression_constant hroot
    (by simp [Expr.possibleOutputs, Expr.possibleOutputsOfAll, Wrapper.output])
  have hresult : .error (.typeMismatch .number .string) = result := (hsame {}).1
  exact ⟨_, hroot, rfl, fun context ↦ hresult ▸ hsame context⟩

end StyleLang
