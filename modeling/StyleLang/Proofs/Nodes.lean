import StyleLang.Proofs.Compilation
import StyleLang.Value.Parts

/-!
# Nodes of expressions

The nodes of an expression are the expression and the nodes of its children (`Expr.mem_nodes_iff`).
`Elaborates.forall_mem_nodes` proves a property of every node of a compiled expression node by node:
each coalesce has arguments, and the key of each lookup comes from a part of the source of which a
string is expected.
-/

namespace StyleLang

namespace Expr

/-- The nodes of several expressions are the nodes of each. -/
theorem mem_nodesOfAll {node : Expr} {exprs : List Expr} :
    node ∈ nodesOfAll exprs ↔ ∃ expr ∈ exprs, node ∈ expr.nodes := by
  induction exprs with
  | nil => simp [nodesOfAll]
  | cons expr exprs ih => simp [nodesOfAll, ih]

/-- The nodes of an expression are itself and the nodes of its children. -/
theorem mem_nodes_iff {node expr : Expr} :
    node ∈ expr.nodes ↔ node = expr ∨ ∃ child ∈ expr.children, node ∈ child.nodes := by
  cases expr <;> simp [nodes, children, mem_nodesOfAll]

/-- What holds of every node of an expression holds of the expression and of every node of its
children. -/
theorem forall_mem_nodes_iff {motive : Expr → Prop} {expr : Expr} :
    (∀ node ∈ expr.nodes, motive node) ↔
      motive expr ∧ ∀ child ∈ expr.children, ∀ node ∈ child.nodes, motive node := by
  constructor
  · intro h
    refine ⟨h expr (mem_nodes_iff.mpr (.inl rfl)), fun child hchild node hnode ↦ ?_⟩
    exact h node (mem_nodes_iff.mpr (.inr ⟨child, hchild, hnode⟩))
  · rintro ⟨hexpr, hchildren⟩ node hnode
    rcases mem_nodes_iff.mp hnode with rfl | ⟨child, hchild, hnode⟩
    · exact hexpr
    · exact hchildren child hchild node hnode

variable {motive : Expr → Prop}

/-- What holds of every node of an expression and of wrappers holds of every node of what the
expression becomes where a type is expected. -/
theorem Fits.forall_mem_nodes {core expr : Expr} {expected : Option Ty} {nullable : Bool}
    (h : core.Fits expected nullable expr) (wrap : ∀ wrapper input, motive (.wrap wrapper input))
    (hcore : ∀ node ∈ core.nodes, motive node) : ∀ node ∈ expr.nodes, motive node := by
  rcases h.eq_or_eq_wrap with rfl | ⟨ty, -, rfl, -⟩
  · exact hcore
  · exact forall_mem_nodes_iff.mpr ⟨wrap _ _, by simpa [children] using hcore⟩

/-- What holds of wrappers and of coalesces with arguments, and of every node of operands without
their inferred wrappers, holds of every node of the coalesce that they compile to. -/
theorem forall_mem_nodes_assemble {ty : Ty} {operands : List Expr} (hoperands : operands ≠ [])
    (wrap : ∀ wrapper input, motive (.wrap wrapper input))
    (coalesce : ∀ ty args, args ≠ [] → motive (.coalesce ty args))
    (h : ∀ operand ∈ operands, ∀ node ∈ operand.bare.nodes, motive node) :
    ∀ node ∈ (assemble ty operands).nodes, motive node := by
  have hcoalesce : ∀ result, ∀ node ∈ (Expr.coalesce result (operands.map bare)).nodes,
      motive node := by
    intro result
    refine forall_mem_nodes_iff.mpr ⟨coalesce _ _ (by simpa using hoperands), ?_⟩
    exact List.forall_mem_map.mpr h
  rcases assemble_cases ty operands with ⟨result, heq⟩ | ⟨-, heq⟩
  · rw [heq]
    exact hcoalesce result
  · rw [heq]
    exact forall_mem_nodes_iff.mpr ⟨wrap _ _, by simpa [children] using hcoalesce .value⟩

end Expr

/-- The arguments of a call are parts of it. -/
theorem Value.mem_parts_call {name : String} {args : List Value} {arg part : Value}
    (hmem : arg ∈ args) (hpart : part ∈ arg.parts) : part ∈ (Value.call name args).parts :=
  mem_parts_iff.mpr (.inr ⟨arg, List.mem_cons_of_mem _ hmem, hpart⟩)

/-- A property holds of every node of what elaborates if it holds of literals whose values are parts
of the source, of the zoom level, of wrappers, of coalesces with arguments, and of lookups whose
keys fit as strings, each elaborated from a part of the source. -/
theorem Elaborates.forall_mem_nodes {motive : Expr → Prop} {raw : Value} {expected : Option Ty}
    {core : Expr} (h : Elaborates raw expected core)
    (literal : ∀ value ∈ raw.parts, ∀ ty, motive (.literal ty value)) (zoom : motive .zoom)
    (wrap : ∀ wrapper input, motive (.wrap wrapper input))
    (coalesce : ∀ ty args, args ≠ [] → motive (.coalesce ty args))
    (lookup : ∀ source ∈ raw.parts, ∀ inner key, Elaborates source (some .string) inner →
      inner.Fits (some .string) false key → motive (.get key) ∧ motive (.has key)) :
    ∀ node ∈ core.nodes, motive node := by
  have hself : ∀ value : Value, value ∈ value.parts :=
    fun value ↦ Value.mem_parts_iff.mpr (.inl rfl)
  induction h using Elaborates.induction with
  | scalar =>
      refine Expr.forall_mem_nodes_iff.mpr ⟨literal _ (hself _) _, ?_⟩
      simp [Expr.constant, Expr.children]
  | @literal name value _ _ =>
      have hvalue : value ∈ (Value.call name [value]).parts :=
        Value.mem_parts_call List.mem_cons_self (hself value)
      refine Expr.forall_mem_nodes_iff.mpr ⟨literal value hvalue _, ?_⟩
      simp [Expr.constant, Expr.children]
  | zoom => exact Expr.forall_mem_nodes_iff.mpr ⟨zoom, by simp [Expr.children]⟩
  | get _ hkey hfits ih | has _ hkey hfits ih =>
      have hnodes := hfits.forall_mem_nodes wrap <| ih
        (fun value hvalue ↦ literal value (Value.mem_parts_call List.mem_cons_self hvalue))
        fun source hsource ↦ lookup source (Value.mem_parts_call List.mem_cons_self hsource)
      obtain ⟨hget, hhas⟩ :=
        lookup _ (Value.mem_parts_call List.mem_cons_self (hself _)) _ _ hkey hfits
      exact Expr.forall_mem_nodes_iff.mpr ⟨by assumption, by simpa [Expr.children] using hnodes⟩
  | wrap _ hwrapper _ ih =>
      have hmem := Form.mem_of_wrapper? hwrapper
      have hnodes := ih
        (fun value hvalue ↦ literal value (Value.mem_parts_call hmem hvalue))
        fun source hsource ↦ lookup source (Value.mem_parts_call hmem hsource)
      exact Expr.forall_mem_nodes_iff.mpr ⟨wrap _ _, by simpa [Expr.children] using hnodes⟩
  | coalesce _ hoperands hexprs ih =>
      have hne := hexprs.ne_nil hoperands
      refine Expr.forall_mem_nodes_assemble hne wrap coalesce fun expr hmem ↦ ?_
      obtain ⟨operand, hoperand, ty, core, hcore, hfits, -⟩ := hexprs.exists_of_mem hmem
      have hnodes := ih operand hoperand hcore
        (fun value hvalue ↦ literal value (Value.mem_parts_call hoperand hvalue))
        fun source hsource ↦ lookup source (Value.mem_parts_call hoperand hsource)
      exact hfits.bare hcore.not_isInferred ▸ hnodes

/-- A property holds of every node of a compiled expression under the same conditions, where the key
of a lookup is what its source compiles to where a string is expected. -/
theorem forall_mem_nodes_of_compileExpression {motive : Expr → Prop} {raw : Value}
    {expected : Option Ty} {root : Expr} (h : compileExpression raw expected = .ok root)
    (literal : ∀ value ∈ raw.parts, ∀ ty, motive (.literal ty value)) (zoom : motive .zoom)
    (wrap : ∀ wrapper input, motive (.wrap wrapper input))
    (coalesce : ∀ ty args, args ≠ [] → motive (.coalesce ty args))
    (lookup : ∀ source ∈ raw.parts, ∀ key, compileExpression source (some .string) = .ok key →
      motive (.get key) ∧ motive (.has key)) :
    ∀ node ∈ root.nodes, motive node := by
  obtain ⟨core, hcore, hfits⟩ := compileExpression_eq_ok_iff.mp h
  refine hfits.forall_mem_nodes wrap (hcore.forall_mem_nodes literal zoom wrap coalesce ?_)
  intro source hsource inner key hinner hkey
  exact lookup source hsource key (compileExpression_eq_ok_iff.mpr ⟨inner, hinner, hkey⟩)

end StyleLang
