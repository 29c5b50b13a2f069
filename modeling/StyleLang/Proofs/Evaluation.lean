import StyleLang.Expr.Eval
import StyleLang.Proofs.Results
import StyleLang.Proofs.Subtyping

/-!
# Equations of evaluation

What each node makes of the results of its children. `Expr.evaluateFirst` is the result of the
arguments of a coalesce, and `Expr.evaluateFirst_append` cuts a list of arguments in two.
-/

namespace StyleLang.Expr

variable {context : EvalContext}

/-- A list of arguments is evaluated from the front, and its rest only if the front is null. -/
theorem runFirst_append (args rest : List Expr) :
    runFirst context (args ++ rest) =
      runFirst context args >>= fun value ↦
        if value.isNull then runFirst context rest else pure value := by
  induction args with
  | nil => simp [runFirst, Value.isNull]
  | cons arg args ih =>
      rw [List.cons_append, runFirst, runFirst, bind_assoc]
      congr 1
      funext value
      by_cases hnull : value.isNull = true <;> simp [hnull, ih]

/-- The result of the arguments of a coalesce: the first value that is not null, or null. -/
def evaluateFirst (args : List Expr) (context : EvalContext) : Except EvalError Value :=
  (runFirst context args).result

theorem evaluate_get (key : Expr) :
    (Expr.get key).evaluate context =
      (key.evaluate context >>= Value.toKey) >>= fun name ↦
        .ok ((context.property? name).getD .null) := by
  simp only [evaluate, run, Run.bind_eq, Run.result_bind]
  rfl

theorem evaluate_has (key : Expr) :
    (Expr.has key).evaluate context =
      (key.evaluate context >>= Value.toKey) >>= fun name ↦
        .ok (.bool (context.property? name).isSome) := by
  simp only [evaluate, run, Run.bind_eq, Run.result_bind]
  rfl

theorem evaluate_wrap (wrapper : Wrapper) (input : Expr) :
    (Expr.wrap wrapper input).evaluate context = input.evaluate context >>= wrapper.apply := by
  simp [evaluate, run]

theorem evaluate_coalesce (ty : Ty) (args : List Expr) :
    (Expr.coalesce ty args).evaluate context = evaluateFirst args context := by
  rw [evaluate, run, evaluateFirst]

@[simp]
theorem evaluateFirst_nil : evaluateFirst [] context = .ok .null := by
  simp [evaluateFirst, runFirst]

theorem evaluateFirst_cons (arg : Expr) (args : List Expr) :
    evaluateFirst (arg :: args) context =
      arg.evaluate context >>= fun value ↦
        if value.isNull then evaluateFirst args context else .ok value := by
  rw [evaluateFirst, runFirst, Run.result_bind, evaluate]
  congr 1
  funext value
  split <;> rfl

theorem evaluateFirst_append (args rest : List Expr) :
    evaluateFirst (args ++ rest) context =
      evaluateFirst args context >>= fun value ↦
        if value.isNull then evaluateFirst rest context else .ok value := by
  rw [evaluateFirst, runFirst_append, Run.result_bind]
  congr 1
  funext value
  split <;> rfl

/-- An argument and others give null if and only if it does and the others do. -/
theorem evaluateFirst_cons_eq_null_iff {arg : Expr} {args : List Expr} :
    evaluateFirst (arg :: args) context = .ok .null ↔
      arg.evaluate context = .ok .null ∧ evaluateFirst args context = .ok .null := by
  rw [evaluateFirst_cons, bind_eq_ok_iff]
  constructor
  · intro h
    obtain ⟨value, harg, hrest⟩ := h
    split at hrest
    · rename_i hnull
      obtain rfl := Value.isNull_iff.mp hnull
      exact ⟨harg, hrest⟩
    · rename_i hnull
      cases hrest
      exact absurd rfl hnull
  · intro h
    obtain ⟨harg, hrest⟩ := h
    exact ⟨.null, harg, hrest⟩

/-- The arguments give null if and only if each of them does. -/
theorem evaluateFirst_eq_null_iff {args : List Expr} :
    evaluateFirst args context = .ok .null ↔ ∀ arg ∈ args, arg.evaluate context = .ok .null := by
  induction args with
  | nil => simp
  | cons arg args ih => rw [evaluateFirst_cons_eq_null_iff, List.forall_mem_cons, ih]

/-- Two lists of arguments give null if and only if each of them does. -/
theorem evaluateFirst_append_eq_null_iff {args rest : List Expr} :
    evaluateFirst (args ++ rest) context = .ok .null ↔
      evaluateFirst args context = .ok .null ∧ evaluateFirst rest context = .ok .null := by
  simp only [evaluateFirst_eq_null_iff, List.forall_mem_append]

/-- After arguments that are null, the others decide. -/
theorem evaluateFirst_append_of_null {args : List Expr}
    (h : evaluateFirst args context = .ok .null) (rest : List Expr) :
    evaluateFirst (args ++ rest) context = evaluateFirst rest context := by
  rw [evaluateFirst_append, h]
  rfl

/-- After arguments that fail or give another value than null, the others are not run, so that they
look up nothing either. -/
theorem runFirst_append_of_ne_null {args : List Expr}
    (h : evaluateFirst args context ≠ .ok .null) (rest : List Expr) :
    runFirst context (args ++ rest) = runFirst context args := by
  rw [runFirst_append]
  refine Eq.trans (Run.bind_congr_of_result fun value hvalue ↦ if_neg fun hnull ↦ ?_) (bind_pure _)
  rw [Value.isNull_iff.mp hnull] at hvalue
  exact h hvalue

/-- After arguments that fail or give another value than null, the others do not matter. -/
theorem evaluateFirst_append_of_ne_null {args : List Expr}
    (h : evaluateFirst args context ≠ .ok .null) (rest : List Expr) :
    evaluateFirst (args ++ rest) context = evaluateFirst args context :=
  congrArg Run.result (runFirst_append_of_ne_null h rest)

/-- A single argument runs as it does alone. -/
theorem runFirst_singleton (arg : Expr) : runFirst context [arg] = arg.run context := by
  have hlast : ∀ value : Value, (if value.isNull then runFirst context [] else pure value) =
      (pure value : Run Value) := by
    intro value
    split
    · rename_i hnull
      rw [Value.isNull_iff.mp hnull, runFirst]
    · rfl
  rw [runFirst]
  simp only [hlast, bind_pure]

/-- A single argument decides alone. -/
@[simp]
theorem evaluateFirst_singleton (arg : Expr) :
    evaluateFirst [arg] context = arg.evaluate context :=
  congrArg Run.result (runFirst_singleton arg)

/-- A constant null is passed over. -/
theorem runFirst_null_cons (ty : Ty) (args : List Expr) :
    runFirst context (.literal ty .null :: args) = runFirst context args := by
  rw [runFirst, run, pure_bind]
  rfl

/-- After an argument that fails or gives another value than null, the others do not matter. -/
theorem evaluateFirst_cons_of_ne_null {arg : Expr} (h : arg.evaluate context ≠ .ok .null)
    (rest : List Expr) : evaluateFirst (arg :: rest) context = arg.evaluate context := by
  rw [← evaluateFirst_singleton] at h
  rw [← List.singleton_append, evaluateFirst_append_of_ne_null h, evaluateFirst_singleton]

/-- After an argument that is null, the others decide. -/
theorem evaluateFirst_cons_of_null {arg : Expr} (h : arg.evaluate context = .ok .null)
    (rest : List Expr) : evaluateFirst (arg :: rest) context = evaluateFirst rest context := by
  rw [evaluateFirst_cons, h]
  rfl

/-- The first argument that fails or gives another value than null decides. -/
theorem evaluateFirst_of_deciding {before : List Expr} {arg : Expr}
    (hbefore : ∀ other ∈ before, other.evaluate context = .ok .null)
    (h : arg.evaluate context ≠ .ok .null) (after : List Expr) :
    evaluateFirst (before ++ arg :: after) context = arg.evaluate context := by
  rw [evaluateFirst_append_of_null (evaluateFirst_eq_null_iff.mpr hbefore),
    evaluateFirst_cons_of_ne_null h]

/-- Among arguments that are not all null there is a first one that is not, and it decides. -/
theorem exists_deciding {args : List Expr} (h : evaluateFirst args context ≠ .ok .null) :
    ∃ before arg after, args = before ++ arg :: after ∧
      (∀ other ∈ before, other.evaluate context = .ok .null) ∧
      arg.evaluate context ≠ .ok .null ∧
      evaluateFirst args context = arg.evaluate context := by
  induction args with
  | nil => exact absurd evaluateFirst_nil h
  | cons first args ih =>
      by_cases hfirst : first.evaluate context = .ok .null
      · rw [evaluateFirst_cons_of_null hfirst] at h ⊢
        obtain ⟨before, arg, after, rfl, hbefore, harg, hvalue⟩ := ih h
        exact ⟨first :: before, arg, after, rfl, List.forall_mem_cons.mpr ⟨hfirst, hbefore⟩, harg,
          hvalue⟩
      · exact ⟨[], first, args, rfl, by simp, hfirst, evaluateFirst_cons_of_ne_null hfirst args⟩

/-- What comes after arguments matters only if they are null. -/
theorem evaluateFirst_append_congr {args rest other : List Expr}
    (h : evaluateFirst args context = .ok .null →
      evaluateFirst rest context = evaluateFirst other context) :
    evaluateFirst (args ++ rest) context = evaluateFirst (args ++ other) context := by
  by_cases hargs : evaluateFirst args context = .ok .null
  · rw [evaluateFirst_append_of_null hargs, evaluateFirst_append_of_null hargs, h hargs]
  · rw [evaluateFirst_append_of_ne_null hargs, evaluateFirst_append_of_ne_null hargs]

/-- What comes after an argument matters only if it is null. -/
theorem evaluateFirst_cons_congr {arg : Expr} {rest other : List Expr}
    (h : arg.evaluate context = .ok .null →
      evaluateFirst rest context = evaluateFirst other context) :
    evaluateFirst (arg :: rest) context = evaluateFirst (arg :: other) context := by
  rw [← evaluateFirst_singleton] at h
  exact evaluateFirst_append_congr h

/-- A value that is not null comes from one of the arguments. -/
theorem exists_of_evaluateFirst {args : List Expr} {value : Value}
    (h : evaluateFirst args context = .ok value) (hvalue : value ≠ .null) :
    ∃ arg ∈ args, arg.evaluate context = .ok value := by
  induction args with
  | nil =>
      rw [evaluateFirst_nil] at h
      cases h
      exact absurd rfl hvalue
  | cons arg args ih =>
      rw [evaluateFirst_cons, bind_eq_ok_iff] at h
      obtain ⟨first, harg, hrest⟩ := h
      split at hrest
      · obtain ⟨other, hmem, hother⟩ := ih hrest
        exact ⟨other, List.mem_cons_of_mem _ hmem, hother⟩
      · cases hrest
        exact ⟨arg, List.mem_cons_self, harg⟩

end StyleLang.Expr
