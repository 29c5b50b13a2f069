import StyleLang.Ty.OfValue

/-!
# Expressions

The typed trees that style expressions compile to. A node that checks or converts the type of its
one input is a wrapper; it is *inferred* if no author wrote it. `Expr.stripInferred` takes an
inferred wrapper off, and `Expr.induction` is the induction over trees.
-/

namespace StyleLang

/-- What a wrapper does with its input: checks its type, converts it, or checks the type of an
array. -/
inductive WrapperKind where
  | assertion
  | coercion
  | array
  deriving DecidableEq

/-- A wrapper without its input: what it does, the type of its results, and whether it is
inferred. -/
structure Wrapper where
  kind : WrapperKind
  ty : Ty
  inferred : Bool
  deriving DecidableEq

/-- An expression. -/
inductive Expr where
  | literal (ty : Ty) (value : Value)
  | get (key : Expr)
  | has (key : Expr)
  | zoom
  | wrap (wrapper : Wrapper) (input : Expr)
  | coalesce (ty : Ty) (args : List Expr)

namespace Expr

/-- A property of all expressions follows if it passes from the children of a node to the node. -/
@[elab_as_elim]
theorem induction {motive : Expr → Prop} (literal : ∀ ty value, motive (.literal ty value))
    (get : ∀ key, motive key → motive (.get key)) (has : ∀ key, motive key → motive (.has key))
    (zoom : motive .zoom) (wrap : ∀ wrapper input, motive input → motive (.wrap wrapper input))
    (coalesce : ∀ ty (args : List Expr), (∀ arg ∈ args, motive arg) → motive (.coalesce ty args))
    (expr : Expr) : motive expr := by
  refine Expr.rec (motive_1 := motive) (motive_2 := fun args ↦ ∀ arg ∈ args, motive arg)
    literal get has zoom wrap coalesce ?_ ?_ expr
  · simp
  · intro head tail ihHead ihTail
    exact List.forall_mem_cons.mpr ⟨ihHead, ihTail⟩

/-- The type of the values of an expression. -/
def ty : Expr → Ty
  | .literal ty _ => ty
  | .get _ => .value
  | .has _ => .boolean
  | .zoom => .number
  | .wrap wrapper _ => wrapper.ty
  | .coalesce ty _ => ty

/-- The name of the kind of a node. -/
def kind : Expr → String
  | .literal _ _ => "literal"
  | .get _ => "get"
  | .has _ => "has"
  | .zoom => "zoom"
  | .wrap ⟨.assertion, _, _⟩ _ => "assertion"
  | .wrap ⟨.coercion, _, _⟩ _ => "coercion"
  | .wrap ⟨.array, _, _⟩ _ => "array"
  | .coalesce _ _ => "coalesce"

/-- The direct children of a node, in order. -/
def children : Expr → List Expr
  | .literal _ _ | .zoom => []
  | .get key | .has key => [key]
  | .wrap _ input => [input]
  | .coalesce _ args => args

mutual

/-- A node and all its descendants, each before its children. -/
def nodes : Expr → List Expr
  | .literal ty value => [.literal ty value]
  | .get key => .get key :: nodes key
  | .has key => .has key :: nodes key
  | .zoom => [.zoom]
  | .wrap wrapper input => .wrap wrapper input :: nodes input
  | .coalesce ty args => .coalesce ty args :: nodesOfAll args

/-- The nodes of several expressions, one expression after the other. -/
def nodesOfAll : List Expr → List Expr
  | [] => []
  | expr :: exprs => nodes expr ++ nodesOfAll exprs

end

/-- The wrapper and its input, if the node is a wrapper. -/
def wrapper? : Expr → Option (Wrapper × Expr)
  | .wrap wrapper input => some (wrapper, input)
  | _ => none

/-- The input of a wrapper that is inferred. -/
def stripInferred : Expr → Option Expr
  | .wrap wrapper input => if wrapper.inferred then some input else none
  | _ => none

mutual

/-- The comparison of expressions, which compares the values of literals as values. -/
def equal : Expr → Expr → Bool
  | .literal t v, .literal u w => t == u && v == w
  | .get k, .get l => equal k l
  | .has k, .has l => equal k l
  | .zoom, .zoom => true
  | .wrap w e, .wrap x f => w == x && equal e f
  | .coalesce t as, .coalesce u bs => t == u && equalAll as bs
  | _, _ => false

/-- The comparison of lists of expressions, one by one. -/
def equalAll : List Expr → List Expr → Bool
  | [], [] => true
  | a :: as, b :: bs => equal a b && equalAll as bs
  | _, _ => false

end

instance : BEq Expr :=
  ⟨equal⟩

/-- The type of a literal. An array without items takes on the type that is expected of it if that
is an array type without a length other than zero. -/
def literalType (value : Value) (expected : Option Ty) : Ty :=
  match value.type, expected with
  | .array _ (some 0), some (.array item none) => .array item none
  | .array _ (some 0), some (.array item (some 0)) => .array item (some 0)
  | ty, _ => ty

/-- A constant in a place where a type may be expected. -/
def constant (value : Value) (expected : Option Ty) : Expr :=
  .literal (literalType value expected) value

end Expr

end StyleLang
