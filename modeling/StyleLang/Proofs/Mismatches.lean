import StyleLang.Proofs.Numerals
import StyleLang.Proofs.Warnings

/-!
# Type mismatches and their messages

The text of a type is the name of its kind, which starts no other name, and the parameters of an
array type. So a type is told even from what follows its text (`Ty.text_append_inj`), types with one
text are the same, and so are type mismatches with one message. A warning that was given before thus
never stands for another mismatch (`Ty.text_unambiguous`).
-/

namespace StyleLang

namespace Ty

/-- The end of the text of an array type with parameters, after the text of its items. -/
def lengthText : Option Nat → List Char
  | none => ['>']
  | some length => ',' :: ' ' :: ((Digit.ofNat length).map Digit.toChar ++ ['>'])

/-- The text of a type after the name of its kind. -/
def parameterText : Ty → List Char
  | array item length =>
      if item = value ∧ length = none then [] else '<' :: (item.text.toList ++ lengthText length)
  | _ => []

/-- The text of a type is the name of its kind and the parameters. -/
theorem toList_text (ty : Ty) : ty.text.toList = ty.kind.toList ++ ty.parameterText := by
  fun_cases text ty with
  | case1 => rfl
  | case2 item hitem =>
      rw [parameterText, if_neg (fun h ↦ hitem h.1)]
      simp [kind, lengthText]
  | case3 item length => simp [parameterText, lengthText, kind, Digit.text]
  | case4 ty hvalue hnone hsome =>
      cases ty with
      | array item length =>
          cases length with
          | none => exact (hnone item rfl).elim
          | some length => exact (hsome item length rfl).elim
      | _ =>
          rw [parameterText, List.append_nil]
          intro item length harray
          cases harray

/-- The names of the kinds of types. -/
def kinds : List String :=
  ["null", "number", "string", "boolean", "color", "object", "value", "array"]

theorem kind_mem_kinds (ty : Ty) : ty.kind ∈ kinds := by
  cases ty <;> simp [kind, kinds]

/-- No name of a kind starts another one. -/
theorem kind_eq_of_isPrefix {a b : Ty} (h : a.kind.toList <+: b.kind.toList) : a.kind = b.kind := by
  have hkinds : ∀ k ∈ kinds, ∀ l ∈ kinds, k.toList <+: l.toList → k = l := by decide
  exact hkinds _ a.kind_mem_kinds _ b.kind_mem_kinds h

/-- The name of a kind is told from what follows it. -/
theorem kind_append_inj {a b : Ty} {rest other : List Char}
    (h : a.kind.toList ++ rest = b.kind.toList ++ other) : a.kind = b.kind ∧ rest = other := by
  have hkind : a.kind = b.kind := by
    rcases List.prefix_or_prefix_of_prefix (List.prefix_append a.kind.toList rest)
        (h ▸ List.prefix_append b.kind.toList other) with hprefix | hprefix
    · exact kind_eq_of_isPrefix hprefix
    · exact (kind_eq_of_isPrefix hprefix).symm
  rw [hkind] at h
  exact ⟨hkind, List.append_cancel_left h⟩

/-- The length of an array type, and that there is none, is told from what follows it. -/
theorem lengthText_append_inj {length length' : Option Nat} {rest other : List Char}
    (h : lengthText length ++ rest = lengthText length' ++ other) :
    length = length' ∧ rest = other := by
  have hend : ∀ rest : List Char, ∀ c ∈ ('>' :: rest).head?, Digit.ofChar? c = none := by
    simp [Digit.ofChar?]
  cases length with
  | none =>
      cases length' with
      | none => exact ⟨rfl, (List.cons.inj h).2⟩
      | some n => simp [lengthText] at h
  | some n =>
      cases length' with
      | none => simp [lengthText] at h
      | some m =>
          simp only [lengthText, List.cons_append, List.append_assoc, List.nil_append,
            List.cons.injEq, true_and] at h
          have hscan := Digit.scan_append (Digit.ofNat n) (hend rest)
          rw [h, Digit.scan_append (Digit.ofNat m) (hend other)] at hscan
          obtain ⟨hdigits, hrest⟩ := Prod.mk.inj hscan
          have hn := Digit.number_ofNat n
          rw [← hdigits, Digit.number_ofNat] at hn
          exact ⟨congrArg some hn.symm, (List.cons.inj hrest).2.symm⟩

/-- The end of the text of an array type does not start as parameters do. -/
theorem head?_lengthText_append_ne (length : Option Nat) (rest : List Char) :
    (lengthText length ++ rest).head? ≠ some '<' := by
  cases length <;> simp [lengthText]

/-- A type is told from what follows its text, unless that might be its parameters. -/
theorem text_append_inj {a b : Ty} {rest other : List Char} (hrest : rest.head? ≠ some '<')
    (hother : other.head? ≠ some '<') (h : a.text.toList ++ rest = b.text.toList ++ other) :
    a = b ∧ rest = other := by
  rw [toList_text, toList_text, List.append_assoc, List.append_assoc] at h
  obtain ⟨hkind, hparameters⟩ := kind_append_inj h
  clear h
  induction a generalizing b rest other with
  | array item length ih =>
      cases b with
      | array item' length' =>
          rw [parameterText, parameterText] at hparameters
          split at hparameters <;> split at hparameters
          · rename_i hplain hplain'
            obtain ⟨rfl, rfl⟩ := hplain
            obtain ⟨rfl, rfl⟩ := hplain'
            exact ⟨rfl, hparameters⟩
          · exact absurd (congrArg List.head? hparameters) hrest
          · exact absurd (congrArg List.head? hparameters.symm) hother
          · simp only [List.cons_append, List.append_assoc, List.cons.injEq, true_and, toList_text]
              at hparameters
            obtain ⟨hitemKind, hitem⟩ := kind_append_inj hparameters
            obtain ⟨rfl, hlengths⟩ := ih (head?_lengthText_append_ne length rest)
              (head?_lengthText_append_ne length' other) hitemKind hitem
            obtain ⟨rfl, rfl⟩ := lengthText_append_inj hlengths
            exact ⟨rfl, rfl⟩
      | _ => simp [kind] at hkind
  | _ =>
      cases b with
      | array => simp [kind] at hkind
      | _ => simp_all [kind, parameterText]

end Ty

namespace EvalError

theorem toList_message_typeMismatch (expected found : Ty) :
    (typeMismatch expected found).message.toList =
      "Expected value to be of type ".toList ++ (expected.text.toList ++
        (", but found ".toList ++ (found.text.toList ++ " instead.".toList))) := by
  unfold message
  simp only [String.toList_append, List.append_assoc]

/-- What is said of a type mismatch tells the types, and is said of no other error. -/
theorem eq_typeMismatch_of_message {e : EvalError} {expected found : Ty}
    (h : e.message = (typeMismatch expected found).message) :
    e = .typeMismatch expected found := by
  have htext := congrArg String.toList h
  rw [toList_message_typeMismatch] at htext
  cases e with
  | typeMismatch expected' found' =>
      rw [toList_message_typeMismatch] at htext
      obtain ⟨rfl, hrest⟩ :=
        Ty.text_append_inj (by simp) (by simp) (List.append_cancel_left htext)
      obtain ⟨rfl, -⟩ := Ty.text_append_inj (by simp) (by simp) (List.append_cancel_left hrest)
      rfl
  | _ =>
      -- Other messages have another first letter.
      have hfirst := congrArg List.head? htext
      unfold message at hfirst
      simp at hfirst

end EvalError

/-- A failure in a run of a fresh property expression is reported, unless the same was said of an
earlier one. -/
theorem PropertyExpression.getElem?_warnings_evaluateAll {expression : Expr}
    {contexts : List EvalContext} {i : Nat} {context : EvalContext}
    (hcontext : contexts[i]? = some context) {message : String}
    (h : expression.failure? context = some message) (default : Value) :
    (((fresh expression default).evaluateAll contexts).map (·.warnings))[i]? =
      some (if message ∈ (contexts.take i).filterMap expression.failure? then [] else [message]) := by
  rw [map_warnings_evaluateAll, List.getElem?_mapIdx, hcontext, Option.map_some]
  show some ((expression.failure? context).toList.removeAll
    ((contexts.take i).filterMap expression.failure?)) = _
  rw [h, Option.toList_some]
  generalize (contexts.take i).filterMap expression.failure? = before
  by_cases hbefore : message ∈ before <;> simp [List.cons_removeAll, hbefore]

/-- A failure with the message of a type mismatch is this type mismatch. -/
theorem Expr.failure?_eq_mismatch_iff {expr : Expr} {context : EvalContext} {expected found : Ty} :
    expr.failure? context = some (EvalError.typeMismatch expected found).message ↔
      expr.evaluate context = .error (.typeMismatch expected found) := by
  rw [failure?]
  cases hresult : expr.evaluate context with
  | ok value => simp
  | error e =>
      simp only [Option.some.injEq, Except.error.injEq]
      exact ⟨EvalError.eq_typeMismatch_of_message, fun he ↦ he ▸ rfl⟩

/-- Types with the same text are the same, and errors with the message of a type mismatch are this
type mismatch. So in a run of a fresh property expression a type mismatch goes unreported only if
one of the same types was reported: every evaluation that fails with a type mismatch gives its
message, unless an earlier one failed with the same type mismatch. -/
theorem Ty.text_unambiguous :
    (∀ a b : Ty, a.text = b.text → a = b) ∧
      (∀ (e : EvalError) (expected found : Ty),
        e.message = (EvalError.typeMismatch expected found).message →
        e = .typeMismatch expected found) ∧
      ∀ (expression : Expr) (default : Value) (contexts : List EvalContext) (i : Nat)
        (context : EvalContext) (expected found : Ty), contexts[i]? = some context →
        expression.evaluate context = .error (.typeMismatch expected found) →
        (((PropertyExpression.fresh expression default).evaluateAll contexts).map
            (·.warnings))[i]? = some [(EvalError.typeMismatch expected found).message] ∨
          (((PropertyExpression.fresh expression default).evaluateAll contexts).map
            (·.warnings))[i]? = some [] ∧
          ∃ earlier ∈ contexts.take i,
            expression.evaluate earlier = .error (.typeMismatch expected found) := by
  refine ⟨fun a b h ↦ ?_, fun e expected found ↦ EvalError.eq_typeMismatch_of_message,
    fun expression default contexts i context expected found hcontext hresult ↦ ?_⟩
  · have htext : a.text.toList ++ [] = b.text.toList ++ [] := by rw [h]
    exact (text_append_inj (by simp) (by simp) htext).1
  · have hfailure := Expr.failure?_eq_mismatch_iff.mpr hresult
    rw [PropertyExpression.getElem?_warnings_evaluateAll hcontext hfailure default]
    split
    · rename_i hearlier
      obtain ⟨earlier, hmem, hearlier⟩ := List.mem_filterMap.mp hearlier
      exact .inr ⟨rfl, earlier, hmem, Expr.failure?_eq_mismatch_iff.mp hearlier⟩
    · exact .inl rfl

/-- Texts and a truth value are refused where a number is asserted. The truth value is reported after
a text, and the second text is not. -/
theorem Ty.text_unambiguous_number :
    ∃ (expression : Expr) (contexts : List EvalContext),
      expression = .wrap ⟨.assertion, .number, false⟩ (.get (.literal .string (.string "a"))) ∧
      contexts = [.string "b", .bool true, .string "c"].map (fun value : Value ↦
        { property? := fun _ ↦ some value }) ∧
      ((PropertyExpression.fresh expression .null).evaluateAll contexts).map (·.warnings) =
        [["Expected value to be of type number, but found string instead."],
          ["Expected value to be of type number, but found boolean instead."], []] ∧
      ∃ earlier ∈ contexts.take 2,
        expression.evaluate earlier = .error (.typeMismatch .number .string) := by
  refine ⟨_, _, rfl, rfl, rfl, ?_⟩
  have hlast := Ty.text_unambiguous.2.2
    (.wrap ⟨.assertion, .number, false⟩ (.get (.literal .string (.string "a")))) .null
    ([.string "b", .bool true, .string "c"].map fun value : Value ↦
      { property? := fun _ ↦ some value }) 2 _ .number .string rfl rfl
  rcases hlast with hreported | ⟨-, hearlier⟩
  · exact absurd hreported (by decide)
  · exact hearlier

end StyleLang
