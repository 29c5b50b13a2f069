import StyleLang.Proofs.Hoisting

/-!
# Operands after the deciding one

The operands of a coalesce up to the first that fails or is not null decide what it evaluates to and
which properties are looked up. The operands after it are not evaluated, and what they do when they
are compiled, which is to bring about an annotation, changes nothing
(`ElaboratesOperands.run_assemble_append`). So two coalesces with the same deciding operands cannot
be told apart (`compileExpression_coalesce_deciding`).
-/

namespace StyleLang

variable {context : EvalContext}

/-- The arguments of a coalesce, also of one within an annotation. -/
def Expr.coalesceArgs : Expr → List Expr
  | .coalesce _ args | .wrap _ (.coalesce _ args) => args
  | _ => []

/-- The arguments of a compiled coalesce are its operands without their inferred wrappers. -/
@[simp]
theorem Expr.coalesceArgs_assemble (ty : Ty) (operands : List Expr) :
    (assemble ty operands).coalesceArgs = operands.map bare := by
  rcases assemble_cases ty operands with ⟨result, heq⟩ | ⟨-, heq⟩ <;> rw [heq, coalesceArgs]

namespace ElaboratesOperands

variable {operands rest : List Value} {ty known result : Option Ty} {exprs restExprs : List Expr}

/-- After operands of which one is not null the type of the coalesce is known. -/
theorem exists_eq_some (h : ElaboratesOperands operands ty known exprs) {value : Value}
    (hvalue : Expr.evaluateFirst (exprs.map Expr.bare) context = .ok value) (hne : value ≠ .null) :
    ∃ type, known = some type := by
  cases known with
  | some type => exact ⟨type, rfl⟩
  | none =>
      -- Nothing is inferred as long as the type is open, and without a type there is only null.
      have hany : exprs.any Expr.isInferred = false := by
        rw [List.any_eq_false]
        intro expr hmem hinferred
        obtain ⟨type, input, htype, -⟩ := h.exists_wrap hmem hinferred
        cases htype
      rw [Expr.map_bare_of_not_any hany] at hvalue
      have htype := (h.type_of_evaluateFirst hvalue).resolve_left hne
      rw [Option.getD_none, Ty.null_accepts_iff, Value.type_eq_null_iff] at htype
      exact absurd htype hne

/-- Operands of which one fails or is not null run as a coalesce of their own, whatever operands
come after them. -/
theorem run_assemble_append (h : ElaboratesOperands operands ty known exprs)
    (hrest : ElaboratesOperands rest known result restExprs)
    (hdecides : Expr.evaluateFirst (exprs.map Expr.bare) context ≠ .ok .null) :
    (Expr.assemble (result.getD .null) (exprs ++ restExprs)).run context =
      (Expr.assemble (known.getD .null) exprs).run context := by
  rw [Expr.run_assemble, Expr.run_assemble, List.map_append,
    Expr.runFirst_append_of_ne_null hdecides]
  refine Run.bind_congr_of_result fun value hvalue ↦ ?_
  have hne : value ≠ .null := by
    rintro rfl
    exact hdecides hvalue
  obtain ⟨type, rfl⟩ := h.exists_eq_some hvalue hne
  obtain rfl := hrest.eq_of_some
  rw [List.any_append]
  cases hany : exprs.any Expr.isInferred with
  | true => rfl
  | false =>
      -- An annotation that the rest brings about finds a value that has the type.
      rw [Expr.map_bare_of_not_any hany] at hvalue
      rw [h.check_evaluateFirst hvalue hne, ite_self, ite_self]

end ElaboratesOperands

/-- If one of the operands of a coalesce fails or is not null, then the operands after them have no
influence: with any others in their place the coalesce evaluates to the same and looks up the same
properties in the same order. -/
theorem compileExpression_coalesce_deciding {operands rest other : List Value}
    {expected : Option Ty} {root otherRoot : Expr}
    (h : compileExpression (.call "coalesce" (operands ++ rest)) expected = .ok root)
    (hother : compileExpression (.call "coalesce" (operands ++ other)) expected = .ok otherRoot)
    (hdecides : ∃ arg ∈ root.coalesceArgs.take operands.length,
      arg.evaluate context ≠ .ok .null) :
    root.evaluate context = otherRoot.evaluate context ∧
      root.lookups context = otherRoot.lookups context := by
  obtain ⟨-, result, exprs, hexprs, rfl⟩ := compileExpression_coalesce_iff.mp h
  obtain ⟨-, otherResult, otherExprs, hotherExprs, rfl⟩ := compileExpression_coalesce_iff.mp hother
  obtain ⟨known, first, second, hfirst, hsecond, rfl⟩ :=
    ElaboratesOperands.append_iff.mp hexprs
  obtain ⟨otherKnown, otherFirst, otherSecond, hotherFirst, hotherSecond, rfl⟩ :=
    ElaboratesOperands.append_iff.mp hotherExprs
  obtain ⟨rfl, rfl⟩ := hfirst.unique hotherFirst
  have hne : Expr.evaluateFirst (first.map Expr.bare) context ≠ .ok .null := by
    rw [Expr.coalesceArgs_assemble, List.map_append, ← hfirst.length_eq,
      ← List.length_map Expr.bare, List.take_left] at hdecides
    rw [Ne, Expr.evaluateFirst_eq_null_iff]
    obtain ⟨arg, hmem, harg⟩ := hdecides
    exact fun hnull ↦ harg (hnull arg hmem)
  have hrun := (hfirst.run_assemble_append hsecond hne).trans
    (hfirst.run_assemble_append hotherSecond hne).symm
  exact ⟨congrArg Run.result hrun, congrArg Run.lookups hrun⟩

/-- A number that decides, once alone and once before a lookup, which brings about an annotation. -/
theorem compileExpression_coalesce_deciding_lookup :
    ∃ root otherRoot,
      compileExpression (.call "coalesce" [.call "number" [.call "get" [.string "a"]]]) none =
        .ok root ∧
      compileExpression (.call "coalesce"
          [.call "number" [.call "get" [.string "a"]], .call "get" [.string "b"]]) none =
        .ok otherRoot ∧
      root.kind = "coalesce" ∧ otherRoot.kind = "assertion" ∧
      root.lookups { property? := fun _ ↦ some (.number 1) } = ["a"] ∧
      root.evaluate { property? := fun _ ↦ some (.number 1) } =
        otherRoot.evaluate { property? := fun _ ↦ some (.number 1) } ∧
      root.lookups { property? := fun _ ↦ some (.number 1) } =
        otherRoot.lookups { property? := fun _ ↦ some (.number 1) } := by
  have hroot :
      compileExpression
          (.call "coalesce" ([.call "number" [.call "get" [.string "a"]]] ++ [])) none =
        .ok (.coalesce .number
          [.wrap ⟨.assertion, .number, false⟩ (.get (.literal .string (.string "a")))]) := rfl
  have hotherRoot :
      compileExpression
          (.call "coalesce"
            ([.call "number" [.call "get" [.string "a"]]] ++ [.call "get" [.string "b"]])) none =
        .ok (.annotate .number (.coalesce .value
          [.wrap ⟨.assertion, .number, false⟩ (.get (.literal .string (.string "a"))),
            .get (.literal .string (.string "b"))])) := rfl
  refine ⟨_, _, hroot, hotherRoot, rfl, rfl, rfl, ?_⟩
  refine compileExpression_coalesce_deciding hroot hotherRoot ⟨_, List.mem_singleton_self _, ?_⟩
  exact nofun

end StyleLang
