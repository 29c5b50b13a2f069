import StyleLang.Eval.Run

/-!
# Laws of results and runs

How a result goes on to the next step, for compilation and for evaluation. Runs form a lawful monad,
and `Run.result_bind` says that the result of a run does not depend on what was looked up.
-/

namespace StyleLang

section

variable {ε ε' α β : Type}

/-- A step after a success has what the success gave. -/
@[simp]
theorem ok_bind (x : α) (next : α → Except ε β) : (Except.ok x >>= next) = next x :=
  rfl

/-- A step after a failure is not taken. -/
@[simp]
theorem error_bind (e : ε) (next : α → Except ε β) : (Except.error e >>= next) = .error e :=
  rfl

@[simp]
theorem mapError_ok (x : α) (f : ε → ε') : (Except.ok x).mapError f = .ok x :=
  rfl

@[simp]
theorem mapError_error (e : ε) (f : ε → ε') :
    (Except.error e : Except ε α).mapError f = .error (f e) :=
  rfl

/-- A changed error of two steps is the changed error of the step that fails. -/
theorem mapError_bind (result : Except ε α) (next : α → Except ε β) (f : ε → ε') :
    (result >>= next).mapError f = result.mapError f >>= fun x ↦ (next x).mapError f := by
  cases result <;> rfl

/-- An error does not see how a result is changed. -/
theorem mapError_map (result : Except ε α) (g : α → β) (f : ε → ε') :
    (g <$> result).mapError f = g <$> result.mapError f := by
  cases result <;> rfl

/-- Two steps succeed if and only if the first does, and the second does with what it gave. -/
theorem bind_eq_ok_iff {result : Except ε α} {next : α → Except ε β} {y : β} :
    result >>= next = .ok y ↔ ∃ x, result = .ok x ∧ next x = .ok y := by
  cases result <;> simp

/-- Two steps fail if and only if the first does, or the second does with what the first gave. -/
theorem bind_eq_error_iff {result : Except ε α} {next : α → Except ε β} {e : ε} :
    result >>= next = .error e ↔ result = .error e ∨ ∃ x, result = .ok x ∧ next x = .error e := by
  cases result <;> simp

/-- A mapped result fails if and only if the result does. -/
theorem map_eq_error_iff {result : Except ε α} {f : α → β} {e : ε} :
    f <$> result = .error e ↔ result = .error e := by
  cases result <;> simp [Functor.map, Except.map]

/-- A mapped result succeeds if and only if the result does. -/
theorem map_eq_ok_iff {result : Except ε α} {f : α → β} {y : β} :
    f <$> result = .ok y ↔ ∃ x, result = .ok x ∧ f x = y := by
  cases result <;> simp [Functor.map, Except.map]

end

namespace Run

variable {α β : Type}

/-- A run that only returns is followed by the next one alone. -/
@[simp]
theorem ofResult_ok_bind (x : α) (next : α → Run β) : ofResult (.ok x) >>= next = next x := by
  rw [bind_of_ok (x := x) rfl]
  rfl

/-- Sequences of runs can be grouped in either way. -/
theorem bind_bind {γ : Type} (run : Run α) (next : α → Run β) (last : β → Run γ) :
    run >>= next >>= last = run >>= fun x ↦ next x >>= last := by
  obtain ⟨result, lookups⟩ := run
  cases result with
  | error e => rfl
  | ok x =>
      change Run.bind ⟨(next x).result, lookups ++ (next x).lookups⟩ last =
        ⟨((next x).bind last).result, lookups ++ ((next x).bind last).lookups⟩
      cases hnext : (next x).result <;> simp [Run.bind, hnext]

instance : LawfulMonad Run :=
  LawfulMonad.mk' Run
    (by
      rintro α ⟨result, lookups⟩
      cases result <;> simp [Functor.map, Run.bind, ofResult])
    ofResult_ok_bind
    bind_bind

@[simp]
theorem result_pure (x : α) : (pure x : Run α).result = .ok x :=
  rfl

@[simp]
theorem result_ofResult (result : Except EvalError α) : (ofResult result).result = result :=
  rfl

theorem bind_eq (run : Run α) (next : α → Run β) : run.bind next = run >>= next :=
  rfl

/-- Runs that only return a result follow each other as their results do. -/
theorem ofResult_bind_ofResult (result : Except EvalError α) (next : α → Except EvalError β) :
    (ofResult result >>= fun x ↦ ofResult (next x)) = ofResult (result >>= next) := by
  cases result <;> rfl

/-- What follows a run matters only for the result that the run has. -/
theorem bind_congr_of_result {run : Run α} {next other : α → Run β}
    (h : ∀ x, run.result = .ok x → next x = other x) : run >>= next = run >>= other := by
  cases hresult : run.result with
  | error e => rw [bind_of_error hresult, bind_of_error hresult]
  | ok x => rw [bind_of_ok hresult, bind_of_ok hresult, h x hresult]

/-- The result of two runs is what the results of each give. -/
@[simp]
theorem result_bind (run : Run α) (next : α → Run β) :
    (run >>= next).result = run.result >>= fun x ↦ (next x).result := by
  obtain ⟨result, lookups⟩ := run
  cases result <;> rfl

end Run

end StyleLang
