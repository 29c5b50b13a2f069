import StyleLang.Proofs.Nodes

/-!
# Where evaluation fails

`Expr.FailsAt` relates an expression to the node at which its evaluation fails: one that evaluation
comes to, and that fails although its children do not. Every evaluation that fails does so at a node
(`Expr.exists_failsAt`), and its error is that of the node (`Expr.FailsAt.exists_error`). By the
error one can tell what node it is (`Expr.FailsAt.node_cases`).
-/

namespace StyleLang

/-- Only a text is a key. -/
theorem Value.toKey_eq_error_iff {value : Value} {e : EvalError} :
    value.toKey = .error e ↔
      (∀ text, value ≠ .string text) ∧ e = .invalidPropertyKey value.type := by
  cases value <;> simp [toKey, eq_comm]

/-- A wrapper does not complain of keys. -/
theorem Wrapper.apply_ne_invalidPropertyKey (wrapper : Wrapper) (value : Value) (found : Ty) :
    wrapper.apply value ≠ .error (.invalidPropertyKey found) := by
  intro h
  unfold apply Ty.convert at h
  split at h
  · split at h
    · cases h
    · cases h
    · split at h <;> cases h
    · split at h <;> cases h
    · cases h
  all_goals split at h <;> cases h

namespace Expr

/-- The key of a lookup. -/
def key? : Expr → Option Expr
  | .get key | .has key => some key
  | _ => none

/-- `expr.FailsAt context node` says that the evaluation of an expression comes to a node, past
arguments that are null, and fails there and not in a child of it. -/
inductive FailsAt (context : EvalContext) : Expr → Expr → Prop where
  | here {expr : Expr} {e : EvalError} :
      expr.evaluate context = .error e →
      (∀ child ∈ expr.children, ∃ value, child.evaluate context = .ok value) →
      FailsAt context expr expr
  | child {expr child node : Expr} {before after : List Expr} :
      expr.children = before ++ child :: after →
      (∀ other ∈ before, other.evaluate context = .ok .null) →
      FailsAt context child node → FailsAt context expr node

/-- `expr.FailsAtWrapper context` says that the evaluation of an expression fails at a wrapper. -/
def FailsAtWrapper (expr : Expr) (context : EvalContext) : Prop :=
  ∃ wrapper input, expr.FailsAt context (.wrap wrapper input)

variable {context : EvalContext} {expr child node : Expr} {before after : List Expr}
  {e : EvalError}

/-- A lookup fails if and only if its key does, or is none. -/
theorem evaluate_eq_error_iff_of_key? {key : Expr} (h : node.key? = some key) :
    node.evaluate context = .error e ↔ key.evaluate context >>= Value.toKey = .error e := by
  cases node <;> cases h
  · simp [evaluate_get, bind_eq_error_iff]
  · simp [evaluate_has, bind_eq_error_iff]

/-- An expression fails with the child that its evaluation comes to. -/
theorem evaluate_eq_error_of_child (hchildren : expr.children = before ++ child :: after)
    (hbefore : ∀ other ∈ before, other.evaluate context = .ok .null)
    (h : child.evaluate context = .error e) : expr.evaluate context = .error e := by
  have hfirst : evaluateFirst (before ++ child :: after) context = .error e := by
    rw [evaluateFirst_of_deciding hbefore (by rw [h]; nofun), h]
  have hsingle : ∀ only : Expr, [only] = before ++ child :: after →
      only.evaluate context = .error e := by
    intro only honly
    rw [← evaluateFirst_singleton, honly, hfirst]
  cases expr with
  | literal | zoom => simp [children] at hchildren
  | get key | has key =>
      rw [evaluate_eq_error_iff_of_key? rfl, hsingle key hchildren, error_bind]
  | wrap wrapper input => rw [evaluate_wrap, hsingle input hchildren, error_bind]
  | coalesce ty args =>
      obtain rfl : args = before ++ child :: after := hchildren
      rw [evaluate_coalesce, hfirst]

/-- The error of an expression is that of the node at which it fails. -/
theorem FailsAt.exists_error (h : expr.FailsAt context node) :
    ∃ e, expr.evaluate context = .error e ∧ node.evaluate context = .error e ∧
      ∀ child ∈ node.children, ∃ value, child.evaluate context = .ok value := by
  induction h with
  | here hnode hchildren => exact ⟨_, hnode, hnode, hchildren⟩
  | child hchildren hbefore _ ih =>
      obtain ⟨e, hchild, hnode⟩ := ih
      exact ⟨e, evaluate_eq_error_of_child hchildren hbefore hchild, hnode⟩

/-- An expression fails at one of its nodes. -/
theorem FailsAt.mem_nodes (h : expr.FailsAt context node) : node ∈ expr.nodes := by
  induction h with
  | here => exact mem_nodes_iff.mpr (.inl rfl)
  | child hchildren _ _ ih =>
      refine mem_nodes_iff.mpr (.inr ⟨_, ?_, ih⟩)
      rw [hchildren]
      exact List.mem_append_right _ List.mem_cons_self

/-- Where the only child of an expression fails, the expression fails at the same node. -/
theorem FailsAt.of_child (hchildren : expr.children = [child]) (h : child.FailsAt context node) :
    expr.FailsAt context node := by
  have hsplit : expr.children = [] ++ child :: [] := hchildren
  exact .child hsplit nofun h

/-- Where an argument fails that a coalesce comes to, the coalesce fails at the same node. -/
theorem FailsAt.coalesce (ty : Ty) (hbefore : ∀ other ∈ before, other.evaluate context = .ok .null)
    (h : child.FailsAt context node) :
    (Expr.coalesce ty (before ++ child :: after)).FailsAt context node :=
  .child rfl hbefore h

/-- Where an operand fails that a compiled coalesce comes to, the coalesce fails at the same
node. -/
theorem FailsAt.assemble (ty : Ty) {operands : List Expr}
    (hoperands : operands.map bare = before ++ child :: after)
    (hbefore : ∀ other ∈ before, other.evaluate context = .ok .null)
    (h : child.FailsAt context node) : (assemble ty operands).FailsAt context node := by
  rcases assemble_cases ty operands with ⟨result, heq⟩ | ⟨-, heq⟩
  · rw [heq, hoperands]
    exact h.coalesce result hbefore
  · rw [heq, hoperands]
    exact .of_child rfl (h.coalesce .value hbefore)

/-- A compiled coalesce whose operands give a value can only fail at its annotation. -/
theorem failsAtWrapper_assemble {ty : Ty} {operands : List Expr} {value : Value}
    (hvalue : evaluateFirst (operands.map bare) context = .ok value)
    (h : (assemble ty operands).evaluate context = .error e) :
    (assemble ty operands).FailsAtWrapper context := by
  rcases assemble_cases ty operands with ⟨result, heq⟩ | ⟨-, heq⟩
  · rw [heq, evaluate_coalesce, hvalue] at h
    cases h
  · rw [heq] at h ⊢
    exact ⟨_, _, .here h (by simp [children, evaluate_coalesce, hvalue])⟩

/-- An expression with one child fails at a node, if the child does. -/
theorem exists_failsAt_of_child (hchildren : expr.children = [child])
    (hchild : ∀ e, child.evaluate context = .error e → ∃ node, child.FailsAt context node)
    (h : expr.evaluate context = .error e) : ∃ node, expr.FailsAt context node := by
  cases hresult : child.evaluate context with
  | error e =>
      obtain ⟨node, hnode⟩ := hchild e hresult
      exact ⟨node, .of_child hchildren hnode⟩
  | ok value =>
      refine ⟨expr, .here h fun other hmem ↦ ?_⟩
      rw [hchildren, List.mem_singleton] at hmem
      exact ⟨value, hmem ▸ hresult⟩

/-- Every evaluation that fails does so at a node. -/
theorem exists_failsAt (h : expr.evaluate context = .error e) :
    ∃ node, expr.FailsAt context node := by
  induction expr using Expr.induction generalizing e with
  | literal => cases h
  | get key ih | has key ih | wrap wrapper key ih =>
      exact exists_failsAt_of_child rfl (fun _ ↦ ih) h
  | zoom => exact ⟨_, .here h nofun⟩
  | coalesce ty args ih =>
      rw [evaluate_coalesce] at h
      have hne : evaluateFirst args context ≠ .ok .null := by
        rw [h]
        nofun
      obtain ⟨before, arg, after, rfl, hbefore, -, hdecides⟩ := exists_deciding hne
      have harg : arg.evaluate context = .error e := by rw [← hdecides, h]
      obtain ⟨node, hnode⟩ := ih arg (List.mem_append_right _ List.mem_cons_self) harg
      exact ⟨node, .coalesce ty hbefore hnode⟩

/-- An expression fails at a lookup whose key is none, at the zoom level, or at a wrapper that
refuses the value of its input. -/
theorem FailsAt.node_cases (h : expr.FailsAt context node)
    (hexpr : expr.evaluate context = .error e) :
    (∃ key value, node.key? = some key ∧ key.evaluate context = .ok value ∧
        value.toKey = .error e) ∨
      (node = .zoom ∧ e = .missingZoom) ∨
      ∃ wrapper input value, node = .wrap wrapper input ∧ input.evaluate context = .ok value ∧
        wrapper.apply value = .error e := by
  obtain ⟨_, hsame, hnode, hchildren⟩ := h.exists_error
  rw [hexpr] at hsame
  cases hsame
  cases node with
  | literal => cases hnode
  | get key | has key =>
      obtain ⟨value, hvalue⟩ := hchildren key List.mem_cons_self
      rw [evaluate_eq_error_iff_of_key? rfl, hvalue, ok_bind] at hnode
      exact .inl ⟨key, value, rfl, hvalue, hnode⟩
  | zoom =>
      rw [evaluate_zoom] at hnode
      split at hnode <;> cases hnode
      exact .inr (.inl ⟨rfl, rfl⟩)
  | wrap wrapper input =>
      obtain ⟨value, hvalue⟩ := hchildren input List.mem_cons_self
      rw [evaluate_wrap, hvalue, ok_bind] at hnode
      exact .inr (.inr ⟨wrapper, input, value, rfl, hvalue, hnode⟩)
  | coalesce ty args =>
      -- A coalesce only passes on what an argument does.
      rw [evaluate_coalesce] at hnode
      have hne : evaluateFirst args context ≠ .ok .null := by
        rw [hnode]
        nofun
      obtain ⟨before, arg, after, rfl, -, -, hdecides⟩ := exists_deciding hne
      obtain ⟨value, hvalue⟩ := hchildren arg (List.mem_append_right _ List.mem_cons_self)
      rw [hdecides, hvalue] at hnode
      cases hnode

/-- Where an expression fails at a wrapper, its error is what the wrapper makes of the value of its
input. -/
theorem FailsAt.apply_eq_error {wrapper : Wrapper} {input : Expr}
    (h : expr.FailsAt context (.wrap wrapper input)) :
    ∃ value e, input.evaluate context = .ok value ∧ wrapper.apply value = .error e ∧
      expr.evaluate context = .error e := by
  obtain ⟨e, hexpr, hnode, hchildren⟩ := h.exists_error
  obtain ⟨value, hvalue⟩ := hchildren input List.mem_cons_self
  rw [evaluate_wrap, hvalue, ok_bind] at hnode
  exact ⟨value, e, hvalue, hnode, hexpr⟩

/-- Where evaluation complains of a key, it fails at a lookup with a key that is not a text. -/
theorem FailsAt.exists_key {found : Ty} (h : expr.FailsAt context node)
    (hfound : expr.evaluate context = .error (.invalidPropertyKey found)) :
    ∃ key value, node.key? = some key ∧ key.evaluate context = .ok value ∧
      (∀ text, value ≠ .string text) ∧ found = value.type := by
  rcases h.node_cases hfound with
    ⟨key, value, hkey, hvalue, htoKey⟩ | ⟨-, hzoom⟩ | ⟨wrapper, _, value, -, -, happly⟩
  · obtain ⟨htext, heq⟩ := Value.toKey_eq_error_iff.mp htoKey
    cases heq
    exact ⟨key, value, hkey, hvalue, htext, rfl⟩
  · cases hzoom
  · exact absurd happly (wrapper.apply_ne_invalidPropertyKey value found)

end Expr

end StyleLang
