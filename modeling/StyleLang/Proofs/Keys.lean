import StyleLang.Proofs.CommonType
import StyleLang.Proofs.Expectation
import StyleLang.Proofs.Outputs

/-!
# Keys of lookups

A key is compiled where a string is expected, so its value is a text or null. Null comes past the
type of a key as it comes past any other, through a coalesce all of whose arguments are null
(`Expr.WellTyped.coalescesNulls`), and it is the one value that a lookup itself refuses. Every other
source of a key that gives no text is refused before: when it is compiled, if its own type tells
(`exists_error_of_not_keyTyped`), and else by a wrapper in the key
(`coalescesNulls_or_failsAtWrapper`). `compileExpression_keys` states this for all lookups of a
compiled expression.
-/

namespace StyleLang

variable {context : EvalContext}

/-! ## Null in spite of a type -/

/-- `expr.CoalescesNulls context` says that an expression is a coalesce with arguments, each of
which is null. -/
def Expr.CoalescesNulls (expr : Expr) (context : EvalContext) : Prop :=
  ∃ ty args, expr = .coalesce ty args ∧ args ≠ [] ∧
    ∀ arg ∈ args, arg.evaluate context = .ok .null

/-- A coalesce of nulls is null. -/
theorem Expr.CoalescesNulls.evaluate {expr : Expr} (h : expr.CoalescesNulls context) :
    expr.evaluate context = .ok .null := by
  obtain ⟨ty, args, rfl, -, hnull⟩ := h
  rw [evaluate_coalesce, evaluateFirst_eq_null_iff]
  exact hnull

/-- A well-typed expression that is null in spite of its type is a coalesce of nulls. -/
theorem Expr.WellTyped.coalescesNulls {expr : Expr} (h : expr.WellTyped) (hsupplied : expr.Supplied)
    (hty : expr.ty.accepts .null = false) (hnull : expr.evaluate context = .ok .null) :
    expr.CoalescesNulls context := by
  cases expr with
  | coalesce ty args =>
      rw [evaluate_coalesce, evaluateFirst_eq_null_iff] at hnull
      exact ⟨ty, args, rfl, (supplied_coalesce_iff.mp hsupplied).1, hnull⟩
  | _ => exact absurd rfl (h.ne_null nofun hty hnull)

/-- The value of an expression that was compiled where a string is expected is a text, or it is null
and the expression a coalesce of nulls. -/
theorem string_or_coalescesNulls {source : Value} {key : Expr}
    (h : compileExpression source (some .string) = .ok key) {value : Value}
    (hvalue : key.evaluate context = .ok value) :
    (∃ text, value = .string text) ∨ value = .null ∧ key.CoalescesNulls context := by
  rcases type_of_compileExpression h hvalue with rfl | haccepts
  · obtain ⟨core, hcore, hfits⟩ := compileExpression_eq_ok_iff.mp h
    have hty : key.ty = .string := Ty.string_accepts_iff.mp hfits.accepts
    refine .inr ⟨rfl, (hfits.wellTyped hcore.wellTyped).coalescesNulls ?_ ?_ hvalue⟩
    · exact hfits.supplied hcore.supplied
    · rw [hty]
      rfl
  · rw [Ty.string_accepts_iff, Value.type_eq_string_iff] at haccepts
    exact .inl haccepts

/-! ## Types of keys -/

/-- The types of what may stand where a string is expected, or null is taken in its place. -/
def Ty.keyTypes : List Ty :=
  [.null, .string, .value]

/-- An expression of which no type is expected is typed as a key if its type is string or leaves the
value open, or if it is a coalesce of type null. -/
def Expr.KeyTyped (expr : Expr) : Prop :=
  expr.ty = .string ∨ expr.ty = .value ∨ ∃ args, expr = .coalesce .null args

/-- Where a string is expected, constants are the same as where no type is. -/
theorem Expr.constant_string (value : Value) :
    constant value (some .string) = constant value none :=
  constant_of_ne_array (by nofun) value

/-- What may stand where a string is expected, or at least null, has one of the types of keys. It is
not null if null may not stand there. -/
theorem Expr.Fits.ty_mem_keyTypes {core expr : Expr} {nullable : Bool}
    (h : core.Fits (some .string) nullable expr) :
    core.ty ∈ Ty.keyTypes ∧ (nullable = false → core.ty ≠ .null) := by
  obtain ⟨rfl, hty⟩ := h
  rw [inferWrapper] at hty
  cases hcore : core.ty <;> simp_all [Ty.keyTypes, WrapperKind.inferred?]

/-- After an operand of one of the types of keys it is still open whether the type is string, or it
is that. -/
theorem Unspecific.knownAfter_of_keyTypes {known : Option Ty} (h : Unspecific known) {core : Expr}
    (hty : core.ty ∈ Ty.keyTypes) :
    Unspecific (StyleLang.knownAfter known core) ∨
      StyleLang.knownAfter known core = some .string := by
  simp only [Ty.keyTypes, List.mem_cons, List.not_mem_nil, or_false] at hty
  rcases hty with hnull | hstring | hvalue
  · exact .inl (h.knownAfter (.inr hnull))
  · rcases h with rfl | rfl
    · right
      rw [StyleLang.knownAfter, hstring]
      rfl
    · exact .inl (.inr rfl)
  · exact .inl (h.knownAfter (.inl hvalue))

/-- Operands that elaborate where a string is expected also elaborate where nothing is known of
their type, or string, and leave it at that. Each of them has to elaborate where no type is
expected, with one of the types of keys. -/
theorem ElaboratesOperands.exists_untyped {operands : List Value} {result : Option Ty}
    {exprs : List Expr} (h : ElaboratesOperands operands (some .string) result exprs)
    (hoperands : ∀ operand ∈ operands, ∀ {typed expr : Expr},
      Elaborates operand (some .string) typed → typed.Fits (some .string) true expr →
        ∃ core, Elaborates operand none core ∧ core.ty ∈ Ty.keyTypes)
    {known : Option Ty} (hknown : Unspecific known ∨ known = some .string) :
    ∃ result exprs, ElaboratesOperands operands known result exprs ∧
      (Unspecific result ∨ result = some .string) := by
  induction operands generalizing known exprs with
  | nil => exact ⟨known, [], .nil, hknown⟩
  | cons operand operands ih =>
      cases h with
      | @cons _ _ _ _ typed expr exprs htyped hfits hrest =>
          have hrest := @ih _ hrest fun other hmem ↦ hoperands other (List.mem_cons_of_mem _ hmem)
          rcases hknown with hknown | rfl
          · obtain ⟨core, hcore, hty⟩ := hoperands operand List.mem_cons_self htyped hfits
            obtain ⟨result, exprs, hexprs, hresult⟩ := hrest (hknown.knownAfter_of_keyTypes hty)
            exact ⟨result, core :: exprs,
              .cons (hknown.elaborates_iff.mpr hcore) (hknown.fits_iff.mpr rfl) hexprs, hresult⟩
          · obtain ⟨result, exprs, hexprs, hresult⟩ := hrest (.inr rfl)
            exact ⟨result, expr :: exprs, .cons htyped hfits hexprs, hresult⟩

/-- What elaborates to what may stand where a string is expected, or at least null, also elaborates
where no type is expected, and has one of the types of keys then. -/
theorem Elaborates.exists_untyped {raw : Value} {typed expr : Expr} {nullable : Bool}
    (h : Elaborates raw (some .string) typed) (hfits : typed.Fits (some .string) nullable expr) :
    ∃ core, Elaborates raw none core ∧ core.ty ∈ Ty.keyTypes := by
  have hty := hfits.ty_mem_keyTypes.1
  generalize hexpected : some Ty.string = expected at h
  induction h using Elaborates.induction generalizing expr nullable with
  | scalar hscalar =>
      subst hexpected
      exact ⟨_, .scalar hscalar, Expr.constant_string _ ▸ hty⟩
  | literal hform =>
      subst hexpected
      exact ⟨_, .call hform .literal, Expr.constant_string _ ▸ hty⟩
  | get hform hkey hkeyFits => exact ⟨_, .call hform (.get hkey hkeyFits), hty⟩
  | has hform hkey hkeyFits => exact ⟨_, .call hform (.has hkey hkeyFits), hty⟩
  | zoom hform => exact ⟨_, .call hform .zoom, hty⟩
  | wrap hform hwrapper hinput => exact ⟨_, .call hform (.wrap hwrapper hinput), hty⟩
  | coalesce hform hoperands hexprs ih =>
      subst hexpected
      obtain ⟨result, exprs, hexprs, hresult⟩ := ElaboratesOperands.exists_untyped hexprs
        (fun operand hmem _ _ htyped hfits ↦
          ih operand hmem htyped hfits hfits.ty_mem_keyTypes.1 rfl)
        (.inl (.inl rfl))
      refine ⟨_, .call hform (.coalesce hoperands hexprs), ?_⟩
      rw [Expr.ty_assemble]
      rcases hresult with (rfl | rfl) | rfl <;> decide

/-- A coalesce of type null has no annotation. -/
theorem ElaboratesOperands.exists_assemble_eq {operands : List Value} {ty result : Option Ty}
    {exprs : List Expr} (h : ElaboratesOperands operands ty result exprs)
    (hnull : (Expr.assemble (result.getD .null) exprs).ty = .null) :
    ∃ args, Expr.assemble (result.getD .null) exprs = .coalesce .null args := by
  rw [Expr.ty_assemble] at hnull
  rcases h.assemble_cases with ⟨-, heq⟩ | ⟨⟨expr, hmem, hinferred⟩, -⟩
  · exact ⟨exprs, by rw [heq, hnull]⟩
  · -- An inferred wrapper tells the type of the coalesce, which null does not have.
    obtain ⟨known, -, rfl, -, haccepts⟩ := h.exists_wrap hmem hinferred
    obtain rfl : known = .null := hnull
    cases haccepts

/-- Where a string is expected, what has the type null without keeps it, unless it is a coalesce. -/
theorem Elaborates.ty_null_or_coalesce {raw : Value} {core typed : Expr}
    (h : Elaborates raw none core) (htyped : Elaborates raw (some .string) typed)
    (hnull : core.ty = .null) : typed.ty = .null ∨ ∃ args, core = .coalesce .null args := by
  refine Elaborates.induction₂ (motive := fun core typed ↦ core.ty = .null →
    typed.ty = .null ∨ ∃ args, core = .coalesce .null args) ?_ (fun _ ↦ .inl) ?_ h htyped hnull
  · intro value hnull
    rw [Expr.constant_string]
    exact .inl hnull
  · intro operands result exprs exprs' hexprs _ _ hnull
    exact .inr (hexprs.exists_assemble_eq hnull)

/-- What compiles where a string is expected also compiles where no type is, and is typed as a
key. -/
theorem exists_keyTyped {source : Value} {key : Expr}
    (h : compileExpression source (some .string) = .ok key) :
    ∃ plain, compileExpression source none = .ok plain ∧ plain.KeyTyped := by
  obtain ⟨typed, htyped, hfits⟩ := compileExpression_eq_ok_iff.mp h
  obtain ⟨core, hcore, hty⟩ := htyped.exists_untyped hfits
  refine ⟨core, compileExpression_eq_ok_iff.mpr ⟨core, hcore, rfl⟩, ?_⟩
  simp only [Ty.keyTypes, List.mem_cons, List.not_mem_nil, or_false] at hty
  rcases hty with hcoreNull | hstring | hvalue
  · have hcoalesce := hcore.ty_null_or_coalesce htyped hcoreNull
    exact .inr (.inr (hcoalesce.resolve_left (hfits.ty_mem_keyTypes.2 rfl)))
  · exact .inl hstring
  · exact .inr (.inl hvalue)

/-- A source that is not typed as a key where no type is expected is not the key of a lookup. -/
theorem exists_error_of_not_keyTyped {source : Value} {plain : Expr}
    (h : compileExpression source none = .ok plain) (hkey : ¬ plain.KeyTyped) {name : String}
    (hname : name ∈ ["get", "has"]) (expected : Option Ty) :
    ∃ errors, compileExpression (.call name [source]) expected = .error errors := by
  have hrefused : ∀ {inner key : Expr}, Elaborates source (some .string) inner →
      ¬ inner.Fits (some .string) false key := by
    intro inner key hinner hfits
    obtain ⟨other, hother, htyped⟩ :=
      exists_keyTyped (compileExpression_eq_ok_iff.mpr ⟨inner, hinner, hfits⟩)
    rw [h] at hother
    cases hother
    exact hkey htyped
  cases hcompile : compileExpression (.call name [source]) expected with
  | error errors => exact ⟨errors, rfl⟩
  | ok root =>
      obtain ⟨core, hcore, -⟩ := compileExpression_eq_ok_iff.mp hcompile
      simp only [List.mem_cons, List.not_mem_nil, or_false] at hname
      rcases hname with rfl | rfl
      · cases hcore.of_call rfl with
        | get hinner hfits => exact absurd hfits (hrefused hinner)
        | wrap hwrapper => cases hwrapper
      · cases hcore.of_call rfl with
        | has hinner hfits => exact absurd hfits (hrefused hinner)
        | wrap hwrapper => cases hwrapper

/-! ## Lookups -/

/-- The key from a source that gives another value than a text fails at a wrapper, unless the value
is null and the key a coalesce of nulls. -/
theorem coalescesNulls_or_failsAtWrapper {source : Value} {plain key : Expr}
    (hplain : compileExpression source none = .ok plain)
    (hkey : compileExpression source (some .string) = .ok key) {value : Value}
    (hvalue : plain.evaluate context = .ok value) (htext : ∀ text, value ≠ .string text) :
    value = .null ∧ key.CoalescesNulls context ∨ key.FailsAtWrapper context := by
  cases hresult : key.evaluate context with
  | error e => exact .inr (failsAtWrapper_of_compileExpression hplain hkey hvalue hresult)
  | ok result =>
      obtain ⟨original, horiginal, hpasses⟩ :=
        refines_of_compileExpression hplain hkey result hresult
      rw [hvalue] at horiginal
      cases horiginal
      have hsame : result = value := hpasses.elim id (Ty.eq_of_check nofun)
      subst hsame
      rcases string_or_coalescesNulls hkey hresult with ⟨text, rfl⟩ | hnulls
      · exact absurd rfl (htext text)
      · exact .inl hnulls

/-- The keys of lookups in a compiled expression are texts or null. Where evaluation fails with an
error about a key, it fails at a lookup, what was found is null, and the key is a coalesce of nulls.
Every other key whose source gives another value than a text, where no string is expected of it,
fails at a wrapper, and the lookup with the error of that; and no lookup compiles whose key has a
source that is not typed as a key. -/
theorem compileExpression_keys {raw : Value} {expected : Option Ty} {root : Expr}
    (h : compileExpression raw expected = .ok root) (context : EvalContext) :
    (∀ found, root.evaluate context = .error (.invalidPropertyKey found) →
      found = .null ∧ (∃ node, root.FailsAt context node) ∧
        ∀ node, root.FailsAt context node →
          ∃ key, node.key? = some key ∧ key.CoalescesNulls context) ∧
    (∀ node ∈ root.nodes, ∀ key, node.key? = some key →
      (∀ value, key.evaluate context = .ok value →
        (∃ text, value = .string text) ∨ value = .null ∧ key.CoalescesNulls context) ∧
      (∃ source ∈ raw.parts, compileExpression source (some .string) = .ok key) ∧
      ∀ source, compileExpression source (some .string) = .ok key →
        ∃ plain, compileExpression source none = .ok plain ∧ plain.KeyTyped ∧
          ∀ value, plain.evaluate context = .ok value → (∀ text, value ≠ .string text) →
            value = .null ∧ key.CoalescesNulls context ∧
                node.evaluate context = .error (.invalidPropertyKey .null) ∨
              ∃ wrapper input refused e, key.FailsAt context (.wrap wrapper input) ∧
                input.evaluate context = .ok refused ∧ wrapper.apply refused = .error e ∧
                node.evaluate context = .error e) ∧
    ∀ source plain, compileExpression source none = .ok plain → ¬ plain.KeyTyped →
      ∀ name ∈ ["get", "has"], ∀ ty, ∃ errors,
        compileExpression (.call name [source]) ty = .error errors := by
  have hkeys : ∀ node ∈ root.nodes, ∀ key, node.key? = some key →
      ∃ source ∈ raw.parts, compileExpression source (some .string) = .ok key := by
    refine forall_mem_nodes_of_compileExpression h nofun nofun nofun nofun ?_
    intro source hsource key hkey
    constructor <;> rintro _ ⟨⟩ <;> exact ⟨source, hsource, hkey⟩
  refine ⟨fun found hfound ↦ ?_, fun node hmem key hkey ↦ ?_,
    fun source plain hplain hty name hname ↦ exists_error_of_not_keyTyped hplain hty hname⟩
  · have hnode : ∀ node, root.FailsAt context node →
        found = .null ∧ ∃ key, node.key? = some key ∧ key.CoalescesNulls context := by
      intro node hfails
      obtain ⟨key, value, hkey, hvalue, htext, rfl⟩ := hfails.exists_key hfound
      obtain ⟨source, -, hsource⟩ := hkeys node hfails.mem_nodes key hkey
      rcases string_or_coalescesNulls hsource hvalue with ⟨text, rfl⟩ | ⟨rfl, hnulls⟩
      · exact absurd rfl (htext text)
      · exact ⟨rfl, key, hkey, hnulls⟩
    obtain ⟨node, hfails⟩ := Expr.exists_failsAt hfound
    exact ⟨(hnode node hfails).1, ⟨node, hfails⟩, fun other hother ↦ (hnode other hother).2⟩
  · obtain ⟨source, hpart, hsource⟩ := hkeys node hmem key hkey
    refine ⟨fun value ↦ string_or_coalescesNulls hsource, ⟨source, hpart, hsource⟩,
      fun source hsource ↦ ?_⟩
    obtain ⟨plain, hplain, hty⟩ := exists_keyTyped hsource
    refine ⟨plain, hplain, hty, fun value hvalue htext ↦ ?_⟩
    rw [Expr.evaluate_eq_error_iff_of_key? hkey]
    rcases coalescesNulls_or_failsAtWrapper hplain hsource hvalue htext with
      ⟨hnull, hnulls⟩ | ⟨wrapper, input, hfails⟩
    · exact .inl ⟨hnull, hnulls, by rw [hnulls.evaluate]; rfl⟩
    · obtain ⟨refused, e, hrefused, happly, hfailed⟩ := hfails.apply_eq_error
      refine .inr ⟨wrapper, input, refused, e, hfails, hrefused, happly, ?_⟩
      rw [Expr.evaluate_eq_error_iff_of_key? hkey, hfailed, error_bind]

/-- A lookup under a looked-up key, and one under a coalesce of null after it. Without the property
the first fails at the wrapper around its key. With it the second fails, as its key is null. Null
alone does not compile as a key. -/
theorem compileExpression_keys_lookups :
    ∃ root key context,
      compileExpression (.call "coalesce" [.call "get" [.call "get" [.string "a"]],
        .call "get" [.call "coalesce" [.null]]]) none = .ok root ∧
      context = ({ property? := fun name ↦ if name = "a" then some (.string "b") else none } :
        EvalContext) ∧
      root.evaluate context = .error (.invalidPropertyKey .null) ∧
      (∀ node, root.FailsAt context node →
        ∃ key, node.key? = some key ∧ key.CoalescesNulls context) ∧
      root = .coalesce .value [.get key, .get (.coalesce .string [.literal .null .null])] ∧
      compileExpression (.call "get" [.string "a"]) (some .string) = .ok key ∧
      (∃ wrapper input refused e, key.FailsAt {} (.wrap wrapper input) ∧
        input.evaluate {} = .ok refused ∧ wrapper.apply refused = .error e ∧
        (Expr.get key).evaluate {} = .error e) ∧
      ∃ errors, compileExpression (.call "get" [.null]) none = .error errors := by
  have hroot :
      compileExpression (.call "coalesce" [.call "get" [.call "get" [.string "a"]],
          .call "get" [.call "coalesce" [.null]]]) none =
        .ok (.coalesce .value
          [.get (.wrap ⟨.assertion, .string, true⟩ (.get (.literal .string (.string "a")))),
            .get (.coalesce .string [.literal .null .null])]) := rfl
  have hkey : compileExpression (.call "get" [.string "a"]) (some .string) =
      .ok (.wrap ⟨.assertion, .string, true⟩ (.get (.literal .string (.string "a")))) := rfl
  have hplain : compileExpression (.call "get" [.string "a"]) none =
      .ok (.get (.literal .string (.string "a"))) := rfl
  obtain ⟨hfailure, -, -⟩ := compileExpression_keys hroot
    { property? := fun name ↦ if name = "a" then some (.string "b") else none }
  obtain ⟨-, hlookups, hrefused⟩ := compileExpression_keys hroot {}
  obtain ⟨-, -, hnulls⟩ := hfailure .null rfl
  obtain ⟨-, -, hsources⟩ := hlookups
    (.get (.wrap ⟨.assertion, .string, true⟩ (.get (.literal .string (.string "a")))))
    (by simp [Expr.nodes, Expr.nodesOfAll]) _ rfl
  obtain ⟨plain, hsame, -, hvalues⟩ := hsources _ hkey
  rw [hplain] at hsame
  cases hsame
  refine ⟨_, _, _, hroot, rfl, rfl, hnulls, rfl, hkey, ?_, ?_⟩
  · refine (hvalues .null rfl (by simp)).resolve_left ?_
    rintro ⟨-, ⟨ty, args, hcoalesce, -⟩, -⟩
    cases hcoalesce
  · exact hrefused .null (.literal .null .null) rfl (by simp [Expr.KeyTyped, Expr.ty]) "get"
      List.mem_cons_self none

end StyleLang
