import StyleLang.Proofs.Rendering

/-!
# Warnings of a run

The warnings that were given are the only state of a property expression. In a run they are the
distinct messages of the failed evaluations, in the order of their first occurrence
(`PropertyExpression.flatMap_warnings_evaluateAll`): an evaluation warns if its message comes up for
the first time, and not otherwise (`PropertyExpression.map_warnings_evaluateAll`).
-/

namespace StyleLang

section

variable {α : Type} [BEq α] [LawfulBEq α]

/-- What is removed depends only on the members of the second list. -/
theorem removeAll_congr {ys zs : List α} (h : ∀ x, x ∈ ys ↔ x ∈ zs) (xs : List α) :
    xs.removeAll ys = xs.removeAll zs := by
  refine List.filter_congr fun x _ ↦ ?_
  rw [Bool.eq_iff_iff]
  simp [h]

/-- Two lists are removed one after the other. -/
theorem removeAll_append (xs ys zs : List α) :
    xs.removeAll (ys ++ zs) = (xs.removeAll ys).removeAll zs := by
  simp [List.removeAll, List.filter_filter, Bool.and_comm]

end

/-- What is said of an evaluation, if it fails. -/
def Expr.failure? (expr : Expr) (context : EvalContext) : Option String :=
  match expr.evaluate context with
  | .ok _ => none
  | .error e => some e.message

namespace PropertyExpression

/-- A property expression that has given no warnings. -/
def fresh (expression : Expr) (default : Value) : PropertyExpression :=
  { expression, default }

variable (property : PropertyExpression)

/-- An evaluation warns of its failure, unless the warning was given before. -/
theorem warnings_evaluate (context : EvalContext) :
    (property.evaluate context).warnings =
      (property.expression.failure? context).toList.removeAll property.warned := by
  rw [evaluate, Expr.failure?]
  cases property.expression.evaluate context with
  | ok value => rfl
  | error e =>
      by_cases hwarned : e.message ∈ property.warned <;> simp [warn, hwarned, List.removeAll]

/-- An evaluation does not give a warning again. -/
theorem nodup_warned_evaluate (h : property.warned.Nodup) (context : EvalContext) :
    (property.warned ++ (property.evaluate context).warnings).Nodup := by
  rw [warnings_evaluate, List.nodup_append]
  refine ⟨h, List.Pairwise.filter _ ?_, fun warning hwarned message hmessage ↦ ?_⟩
  · cases property.expression.failure? context <;> simp
  · rintro rfl
    simp [List.removeAll, hwarned] at hmessage

/-! ## Runs -/

/-- No warning of a run is given twice, or was given before. -/
theorem nodup_warned_evaluateAll (h : property.warned.Nodup) (contexts : List EvalContext) :
    (property.warned ++ (property.evaluateAll contexts).flatMap (·.warnings)).Nodup := by
  induction contexts generalizing property with
  | nil => simpa [evaluateAll] using h
  | cons context contexts ih =>
      have hrest := ih (property.evaluate context).after
      rw [after_evaluate] at hrest
      rw [evaluateAll, List.flatMap_cons, ← List.append_assoc, after_evaluate]
      exact hrest (property.nodup_warned_evaluate h context)

/-- The warnings of a run are the distinct messages of its failures that were not given before, in
the order of their first occurrence. -/
theorem flatMap_warnings_evaluateAll (contexts : List EvalContext) :
    (property.evaluateAll contexts).flatMap (·.warnings) =
      ((contexts.filterMap property.expression.failure?).removeAll property.warned).eraseDups := by
  induction contexts generalizing property with
  | nil => rfl
  | cons context contexts ih =>
      rw [evaluateAll, List.flatMap_cons, ih, after_evaluate, warnings_evaluate]
      dsimp only
      rw [removeAll_append]
      cases hfailure : property.expression.failure? context with
      | none => simp [hfailure]
      | some message =>
          by_cases hwarned : message ∈ property.warned
          · simp [hfailure, hwarned, List.cons_removeAll]
          · simp [hfailure, hwarned, List.cons_removeAll, List.removeAll_cons, List.eraseDups_cons]

/-- An evaluation in a run warns of its failure, unless the warning was given before the run or the
same was said of an earlier failure. -/
theorem map_warnings_evaluateAll (contexts : List EvalContext) :
    (property.evaluateAll contexts).map (·.warnings) =
      contexts.mapIdx fun i context ↦
        (property.expression.failure? context).toList.removeAll
          (property.warned ++ (contexts.take i).filterMap property.expression.failure?) := by
  induction contexts generalizing property with
  | nil => rfl
  | cons context contexts ih =>
      rw [evaluateAll, List.map_cons, List.mapIdx_cons, ih, after_evaluate, warnings_evaluate]
      dsimp only
      rw [List.take_zero, List.filterMap_nil, List.append_nil]
      congr 2
      funext i later
      -- Without the messages that were given before, the same messages are there.
      refine removeAll_congr (fun message ↦ ?_) _
      rw [List.take_succ_cons]
      by_cases hwarned : message ∈ property.warned
      · simp [hwarned]
      · cases hfailure : property.expression.failure? context <;>
          simp [hfailure, hwarned, List.removeAll]

/-- The warnings of a fresh property expression in a run are the distinct messages of the failed
evaluations, each once, in the order of their first occurrence; an evaluation that succeeds, also
with null, gives none, and one that fails gives its message if no evaluation before it failed with
the same. Every value is the one that a fresh property expression gives in that context alone. -/
theorem evaluateAll_fresh (expression : Expr) (default : Value) (contexts : List EvalContext) :
    ((fresh expression default).evaluateAll contexts).flatMap (·.warnings) =
        (contexts.filterMap expression.failure?).eraseDups ∧
      (((fresh expression default).evaluateAll contexts).flatMap (·.warnings)).Nodup ∧
      ((fresh expression default).evaluateAll contexts).map (·.warnings) =
        (contexts.mapIdx fun i context ↦
          (expression.failure? context).toList.removeAll
            ((contexts.take i).filterMap expression.failure?)) ∧
      ((fresh expression default).evaluateAll contexts).map (·.value) =
        contexts.map fun context ↦ ((fresh expression default).evaluate context).value := by
  have hnone : (fresh expression default).warned = [] := rfl
  have hwarnings := flatMap_warnings_evaluateAll (fresh expression default) contexts
  have hnodup := nodup_warned_evaluateAll (fresh expression default) List.nodup_nil contexts
  have heach := map_warnings_evaluateAll (fresh expression default) contexts
  simp only [hnone, List.removeAll_nil, List.nil_append] at hwarnings hnodup heach
  exact ⟨hwarnings, hnodup, heach, map_value_evaluateAll _ contexts⟩

/-- A zoom level where there is none, twice, with a zoom level in between: the second failure is not
reported again. -/
example :
    ((fresh .zoom .null).evaluateAll [{}, { zoom? := some 3 }, {}]).map (·.warnings) =
      [["The 'zoom' global is not available in this evaluation context."], [], []] := by
  rfl

end PropertyExpression

end StyleLang
