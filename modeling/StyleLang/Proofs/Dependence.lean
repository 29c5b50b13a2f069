import StyleLang.Proofs.Evaluation

/-!
# What an evaluation depends on

An evaluation depends on its context only through the zoom level and the properties that it looks
up. The keys are themselves results of lookups, and what is looked up first decides what is looked
up next; `Run.Lockstep` relates two runs that stay together as long as their contexts answer alike.
Every expression runs in lockstep in two contexts with one zoom level (`Expr.lockstep`), so what one
run has looked up determines the other (`Expr.evaluate_eq_of_agree`).
-/

namespace StyleLang

/-- Two contexts agree on a key if they give the same property for it, or none. -/
def EvalContext.Agree (context other : EvalContext) (key : String) : Prop :=
  context.property? key = other.property? key

namespace Run

variable {α β : Type} {agree : String → Prop}

/-- Two runs are in lockstep if they are the same as long as all keys that the first looks up are
ones on which there is agreement. -/
def Lockstep (agree : String → Prop) (run other : Run α) : Prop :=
  (∀ key ∈ run.lookups, agree key) → run = other

/-- A run is in lockstep with itself. -/
theorem Lockstep.refl (run : Run α) : Lockstep agree run run :=
  fun _ ↦ rfl

/-- Runs in lockstep that go on in lockstep stay in lockstep. -/
theorem Lockstep.bind {run other : Run α} {next otherNext : α → Run β}
    (hrun : Lockstep agree run other) (hnext : ∀ x, Lockstep agree (next x) (otherNext x)) :
    Lockstep agree (run >>= next) (other >>= otherNext) := by
  intro hkeys
  cases hresult : run.result with
  | error e =>
      rw [bind_of_error hresult] at hkeys
      rw [← hrun hkeys, bind_of_error hresult, bind_of_error hresult]
  | ok x =>
      -- The keys of the whole run are those of the first part and those of what follows it.
      rw [bind_of_ok hresult] at hkeys
      obtain ⟨hfirst, hrest⟩ := List.forall_mem_append.mp hkeys
      rw [← hrun hfirst, bind_of_ok hresult, bind_of_ok hresult, hnext x hrest]

/-- Lookups of one property in two contexts are in lockstep. -/
theorem Lockstep.property {context other : EvalContext} (key : String) :
    Lockstep (context.Agree other) (Run.property context key) (Run.property other key) := by
  intro hkeys
  have hkey : context.property? key = other.property? key := hkeys key (List.mem_singleton_self key)
  rw [Run.property, Run.property, hkey]

end Run

namespace Expr

variable {context other : EvalContext}

/-- Arguments of a coalesce run in lockstep if each of them does. -/
theorem lockstep_runFirst {args : List Expr}
    (h : ∀ arg ∈ args, Run.Lockstep (context.Agree other) (arg.run context) (arg.run other)) :
    Run.Lockstep (context.Agree other) (runFirst context args) (runFirst other args) := by
  induction args with
  | nil => exact .refl _
  | cons arg args ih =>
      obtain ⟨harg, hargs⟩ := List.forall_mem_cons.mp h
      rw [runFirst, runFirst]
      refine harg.bind fun value ↦ ?_
      -- Both runs go on after a null and stop at the same other value.
      by_cases hnull : value.isNull = true
      · rw [if_pos hnull, if_pos hnull]
        exact ih hargs
      · rw [if_neg hnull, if_neg hnull]
        exact .refl _

/-- An expression runs in lockstep in two contexts of one zoom level. -/
theorem lockstep (hzoom : context.zoom? = other.zoom?) (expr : Expr) :
    Run.Lockstep (context.Agree other) (expr.run context) (expr.run other) := by
  induction expr using Expr.induction with
  | literal ty value => exact .refl _
  | get key ih | has key ih =>
      have hname := ih.bind fun value ↦ .refl (Run.ofResult value.toKey)
      rw [run, run]
      exact hname.bind fun name ↦ (Run.Lockstep.property name).bind fun _ ↦ .refl _
  | zoom =>
      rw [run, run, hzoom]
      exact .refl _
  | wrap wrapper input ih =>
      rw [run, run]
      exact ih.bind fun _ ↦ .refl _
  | coalesce ty args ih =>
      rw [run, run]
      exact lockstep_runFirst ih

/-- An expression evaluates to the same in two contexts of one zoom level, and looks up the same
properties in the same order, if the contexts give the same for each property that it looks up in
the first. -/
theorem evaluate_eq_of_agree {expr : Expr} (hzoom : context.zoom? = other.zoom?)
    (hkeys : ∀ key ∈ expr.lookups context, context.property? key = other.property? key) :
    expr.evaluate context = expr.evaluate other ∧
      expr.lookups context = expr.lookups other := by
  have hrun : expr.run context = expr.run other := expr.lockstep hzoom hkeys
  exact ⟨congrArg Run.result hrun, congrArg Run.lookups hrun⟩

/-- A lookup under a looked-up key after a property that is null: a property that the two features
do not share is not looked up. -/
theorem evaluate_eq_of_agree_lookup :
    ∃ expr context other,
      expr = Expr.coalesce .value
        [.get (.literal .string (.string "a")), .get (.get (.literal .string (.string "b")))] ∧
      context = ({ property? := fun key ↦
        if key = "b" then some (.string "c") else if key = "c" then some (.number 5) else none } :
          EvalContext) ∧
      other = ({ property? := fun key ↦
        if key = "b" then some (.string "c") else if key = "a" then none else some (.number 5) } :
          EvalContext) ∧
      context.property? "d" ≠ other.property? "d" ∧
      expr.lookups context = ["a", "b", "c"] ∧
      expr.evaluate context = .ok (.number 5) ∧
      expr.evaluate context = expr.evaluate other ∧
      expr.lookups context = expr.lookups other := by
  refine ⟨_, _, _, rfl, rfl, rfl, by simp, rfl, rfl, ?_⟩
  refine evaluate_eq_of_agree rfl fun key hkey ↦ ?_
  have hmem : key ∈ ["a", "b", "c"] := hkey
  simp only [List.mem_cons, List.not_mem_nil, or_false] at hmem
  rcases hmem with rfl | rfl | rfl <;> rfl

end Expr

end StyleLang
