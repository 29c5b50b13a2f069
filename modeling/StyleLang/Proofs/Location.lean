import StyleLang.Proofs.Compilation

/-!
# Places of errors

Compilation does not depend on where an expression stands: at another place it gives the same
expression, or fails for the same reason at the same place relative to it (`compile_under`). The
place of an error is one in the source (`liesIn_of_compile_eq_error`), which follows from what a
call does with each of its items (`exists_of_compileForm_eq_error`).
-/

namespace StyleLang

/-- The error as it is seen from further out. -/
def CompileError.under (e : CompileError) (outer : List Nat) : CompileError :=
  { e with location := outer ++ e.location }

namespace Position

/-- The position as it is seen from further out. -/
def under (place : Position) (outer : List Nat) : Position :=
  { place with location := outer ++ place.location }

variable {α : Type} (place : Position) (outer : List Nat)

@[simp]
theorem expected_under : (place.under outer).expected = place.expected :=
  rfl

@[simp]
theorem nullable_under : (place.under outer).nullable = place.nullable :=
  rfl

@[simp]
theorem operand_under (index : Nat) (expected : Option Ty) (nullable : Bool) :
    (place.under outer).operand index expected nullable =
      (place.operand index expected nullable).under outer := by
  simp [operand, under]

@[simp]
theorem fail_under (cause : CompileError.Cause) :
    ((place.under outer).fail cause : Except CompileError α) =
      (place.fail cause).mapError (·.under outer) :=
  rfl

@[simp]
theorem failAt_under (index : Nat) (cause : CompileError.Cause) :
    ((place.under outer).failAt index cause : Except CompileError α) =
      (place.failAt index cause).mapError (·.under outer) := by
  simp [failAt, under, CompileError.under]

theorem enforce_under (expr : Expr) :
    (place.under outer).enforce expr = (place.enforce expr).mapError (·.under outer) := by
  simp only [enforce, expected_under, nullable_under]
  cases place.expected with
  | none => rfl
  | some expected =>
      dsimp only
      rw [apply_ite (Except.mapError _)]
      rfl

end Position

theorem arrayType_under (place : Position) (outer : List Nat) (args : List Value) :
    arrayType (place.under outer) args = (arrayType place args).mapError (·.under outer) := by
  fun_cases arrayType place args
  case case1 => rfl
  all_goals simp_all [arrayType]

/-- Operands compile in the same way at every place, if each of them does. -/
theorem compileOperands_under_of {operands : List Value} {outer : List Nat}
    (hoperands : ∀ operand ∈ operands, ∀ place,
      compile operand (Position.under place outer) =
        (compile operand place).mapError (·.under outer))
    (place : Position) (index : Nat) (ty : Option Ty) :
    compileOperands operands (place.under outer) index ty =
      (compileOperands operands place index ty).mapError (·.under outer) := by
  induction operands generalizing index ty with
  | nil => rfl
  | cons operand operands ih =>
      have hrest := ih fun other hmem ↦ hoperands other (List.mem_cons_of_mem _ hmem)
      simp only [compileOperands, Position.operand_under, hoperands operand List.mem_cons_self,
        hrest, mapError_bind]
      rfl

/-- A call compiles in the same way at every place, if its items do. -/
theorem compileForm_under_of {items : List Value} {outer : List Nat}
    (hitems : ∀ item ∈ items, ∀ place,
      compile item (Position.under place outer) = (compile item place).mapError (·.under outer))
    (form : Form) (place : Position) :
    compileForm form items (place.under outer) =
      (compileForm form items place).mapError (·.under outer) := by
  fun_cases compileForm form items place
  case case1 | case4 => rfl
  case case2 key | case3 key =>
    rw [compileForm, Position.operand_under, hitems key (by simp), mapError_map]
  case case5 input | case6 input =>
    rw [compileForm, Position.operand_under, hitems input (by simp), mapError_map]
  case case7 input | case8 input | case9 input =>
    rw [compileForm, Position.operand_under, hitems input (by simp), arrayType_under, mapError_bind]
    simp only [mapError_map]
  case case10 hempty =>
    rw [compileForm, if_pos hempty, Position.fail_under]
  case case11 operands hempty =>
    rw [compileForm, if_neg hempty, mapError_bind, Position.expected_under,
      compileOperands_under_of fun operand hmem ↦ hitems operand (List.mem_cons_of_mem _ hmem)]
    rfl
  case case12 =>
    rw [compileForm]
    · exact Position.fail_under place outer _
    all_goals assumption

/-- An expression compiles in the same way at every place. -/
theorem compile_under (raw : Value) (place : Position) (outer : List Nat) :
    compile raw (place.under outer) = (compile raw place).mapError (·.under outer) := by
  induction raw using Value.induction generalizing place with
  | array items ih =>
      rw [compile, compile]
      cases items.head? with
      | none => rfl
      | some operator =>
          cases operator with
          | string name =>
              cases hform : Form.ofOperator? name <;>
                simp only [hform, Position.failAt_under, compileForm_under_of ih, mapError_bind,
                  Position.enforce_under]
          | _ => rfl
  | object fields => rfl
  | _ => exact Position.enforce_under place outer _

/-! ## Failing expressions -/

/-- An expression that does not fit fails at its own place. -/
theorem Position.location_of_enforce_eq_error {place : Position} {expr : Expr} {e : CompileError}
    (h : place.enforce expr = .error e) : e.location = place.location := by
  unfold enforce at h
  split at h
  · cases h
  · dsimp only at h
    split at h <;> cases h
    rfl

/-- The operands of `array` before the last fail at one of them. -/
theorem exists_of_arrayType_eq_error {place : Position} {args : List Value} {e : CompileError}
    (h : arrayType place args = .error e) :
    ∃ index item, args[index]? = some item ∧ e.location = place.location ++ [index + 1] := by
  unfold arrayType at h
  split at h
  · cases h
  · split at h <;> cases h
    exact ⟨0, _, rfl, rfl⟩
  · split at h <;> cases h
    · exact ⟨1, _, rfl, rfl⟩
    · exact ⟨0, _, rfl, rfl⟩

/-- A coalesce whose operands do not compile fails at one of them. -/
theorem exists_of_compileOperands_eq_error {operands : List Value} {place : Position} {index : Nat}
    {ty : Option Ty} {e : CompileError} (h : compileOperands operands place index ty = .error e) :
    ∃ i operand expected, operands[i]? = some operand ∧
      compile operand (place.operand (index + i) expected true) = .error e := by
  induction operands generalizing index ty with
  | nil => cases h
  | cons operand operands ih =>
      rw [compileOperands, bind_eq_error_iff] at h
      rcases h with h | ⟨expr, -, h⟩
      · exact ⟨0, operand, ty, rfl, h⟩
      · rcases bind_eq_error_iff.mp h with h | ⟨_, -, h⟩
        · obtain ⟨i, other, expected, hother, hfails⟩ := ih h
          exact ⟨i + 1, other, expected, hother, by rwa [Nat.add_right_comm] at hfails⟩
        · cases h

/-- A call fails as a whole, at one of its items, or because an item does not compile in its
place. -/
theorem exists_of_compileForm_eq_error {form : Form} {items : List Value} {place : Position}
    {e : CompileError} (h : compileForm form items place = .error e) :
    e.location = place.location ∨ ∃ index item, items[index]? = some item ∧
      (e.location = place.location ++ [index] ∨ ∃ expected nullable,
        compile item (place.operand index expected nullable) = .error e) := by
  have hitems : ∀ {head input : Value} {args : List Value} {index : Nat} {item : Value},
      args[index]? = some item → (head :: (args ++ [input]))[index + 1]? = some item := by
    intro head input args index item hitem
    rw [List.getElem?_cons_succ,
      List.getElem?_append_left (List.getElem?_eq_some_iff.mp hitem).1, hitem]
  unfold compileForm at h
  split at h
  case h_1 | h_4 => cases h
  case h_2 | h_3 | h_5 | h_6 =>
    exact .inr ⟨1, _, rfl, .inr ⟨_, _, map_eq_error_iff.mp h⟩⟩
  case h_7 | h_8 | h_9 =>
    rcases bind_eq_error_iff.mp h with h | ⟨ty, -, h⟩
    · obtain ⟨index, item, hitem, hlocation⟩ := exists_of_arrayType_eq_error h
      exact .inr ⟨index + 1, item, hitems hitem, .inl hlocation⟩
    · exact .inr ⟨_, _, rfl, .inr ⟨_, _, map_eq_error_iff.mp h⟩⟩
  case h_10 head operands =>
    split at h
    · cases h
      exact .inl rfl
    · rcases bind_eq_error_iff.mp h with h | ⟨_, -, h⟩
      · obtain ⟨i, operand, expected, hoperand, hfails⟩ := exists_of_compileOperands_eq_error h
        refine .inr ⟨1 + i, operand, ?_, .inr ⟨expected, true, hfails⟩⟩
        rwa [Nat.add_comm, List.getElem?_cons_succ]
      · cases h
  case h_11 =>
    cases h
    exact .inl rfl

/-! ## Places in the source -/

namespace Value

/-- The value that a path of item positions leads to. -/
def at? : Value → List Nat → Option Value
  | value, [] => some value
  | .array items, index :: path => items[index]? >>= fun item ↦ item.at? path
  | _, _ :: _ => none

/-- `raw.Locates path cause` says that a path leads through the source to a place at which it can
fail for a reason. On its way are calls of operators, and only an unknown operator stands in a call
that has none. -/
def Locates (raw : Value) (path : List Nat) (cause : CompileError.Cause) : Prop :=
  (∃ value, raw.at? path = some value) ∧
    ∀ outer inner, path = outer ++ inner → inner ≠ [] →
      ∃ name args, raw.at? outer = some (.call name args) ∧
        ((∃ form, Form.ofOperator? name = some form) ∨
          inner = [0] ∧ cause = .unknownOperator name)

variable {name : String} {args : List Value} {path : List Nat} {cause : CompileError.Cause}

theorem Locates.nil (raw : Value) (cause : CompileError.Cause) : raw.Locates [] cause := by
  refine ⟨⟨raw, rfl⟩, fun outer inner hpath hinner ↦ ?_⟩
  exact absurd (List.nil_eq_append_iff.mp hpath).2 hinner

/-- The place of an unknown operator. -/
theorem Locates.operator (name : String) (args : List Value) :
    (call name args).Locates [0] (.unknownOperator name) := by
  refine ⟨⟨.string name, rfl⟩, fun outer inner hpath hinner ↦ ?_⟩
  rcases List.append_eq_singleton_iff.mp hpath.symm with ⟨rfl, rfl⟩ | ⟨rfl, rfl⟩
  · exact ⟨name, args, rfl, .inr ⟨rfl, rfl⟩⟩
  · exact absurd rfl hinner

/-- A place in an item of a call. -/
theorem Locates.item {form : Form} (hform : Form.ofOperator? name = some form) {index : Nat}
    {item : Value} (hitem : (string name :: args)[index]? = some item)
    (h : item.Locates path cause) : (call name args).Locates (index :: path) cause := by
  have hat : ∀ path, (call name args).at? (index :: path) = item.at? path := fun path ↦ by
    rw [call, at?, hitem]
    rfl
  refine ⟨by rw [hat]; exact h.1, fun outer inner hpath hinner ↦ ?_⟩
  rcases List.cons_eq_append_iff.mp hpath with ⟨rfl, rfl⟩ | ⟨outer, rfl, rfl⟩
  · exact ⟨name, args, rfl, .inl ⟨form, hform⟩⟩
  · rw [hat]
    exact h.2 outer inner rfl hinner

end Value

/-- `e.LiesIn raw outer` says that the place of an error is one in a source that stands at `outer`. -/
def CompileError.LiesIn (e : CompileError) (raw : Value) (outer : List Nat) : Prop :=
  ∃ path, e.location = outer ++ path ∧ raw.Locates path e.cause

/-- An error in the whole of a source lies in it. -/
theorem CompileError.LiesIn.of_location_eq {e : CompileError} {raw : Value} {outer : List Nat}
    (h : e.location = outer) : e.LiesIn raw outer :=
  ⟨[], by rw [h, List.append_nil], .nil raw e.cause⟩

/-- An error in an item of a call lies in the call. -/
theorem CompileError.LiesIn.item {e : CompileError} {name : String} {form : Form}
    {args : List Value} (hform : Form.ofOperator? name = some form) {index : Nat} {item : Value}
    (hitem : (Value.string name :: args)[index]? = some item) {outer : List Nat}
    (h : e.LiesIn item (outer ++ [index])) : e.LiesIn (.call name args) outer := by
  obtain ⟨path, hpath, hlocates⟩ := h
  exact ⟨index :: path, by rw [hpath, ← List.append_cons], hlocates.item hform hitem⟩

/-- An expression that does not compile fails at a place in its source. -/
theorem liesIn_of_compile_eq_error {raw : Value} {place : Position} {e : CompileError}
    (h : compile raw place = .error e) : e.LiesIn raw place.location := by
  induction raw using Value.induction generalizing place with
  | array items ih =>
      cases items with
      | nil =>
          cases h
          exact .of_location_eq rfl
      | cons head args =>
          cases head with
          | string name =>
              cases hform : Form.ofOperator? name with
              | none =>
                  rw [compile] at h
                  simp only [List.head?_cons, hform] at h
                  cases h
                  exact ⟨[0], rfl, .operator name args⟩
              | some form =>
                  rw [compile_call hform, bind_eq_error_iff] at h
                  rcases h with h | ⟨expr, -, h⟩
                  · rcases exists_of_compileForm_eq_error h with
                      hwhole | ⟨index, item, hitem, hitself | ⟨expected, nullable, hfails⟩⟩
                    · exact .of_location_eq hwhole
                    · exact .item hform hitem (.of_location_eq hitself)
                    · exact .item hform hitem (ih item (List.mem_of_getElem? hitem) hfails)
                  · exact .of_location_eq (Position.location_of_enforce_eq_error h)
          | _ =>
              cases h
              exact .of_location_eq rfl
  | object fields =>
      cases h
      exact .of_location_eq rfl
  | _ => exact .of_location_eq (Position.location_of_enforce_eq_error h)

/-! ## Whole expressions -/

/-- The text of a place within a place. -/
theorem locationText_append (outer inner : List Nat) :
    locationText (outer ++ inner) = locationText outer ++ locationText inner := by
  rw [locationText, List.map_append, String.join_append]
  rfl

/-- As an operand of any session a source compiles to the same expression as alone, or fails with
the same message under the key of the operand; and the key of an error of the whole leads into the
source: there is a value at it, and on the way to it are calls of operators only, unless it is the
key of an operator that is unknown. -/
theorem compileExpression_located (raw : Value) (expected : Option Ty) :
    (∀ (session : Session) (index : Nat),
      (∃ expr, compileExpression raw expected = .ok expr ∧
        session.compileOperand raw index expected = (some expr, session)) ∨
      ∃ e inner, compileExpression raw expected = .error [e] ∧
        session.compileOperand raw index expected =
          (none, { session with errors := session.errors ++ [inner] }) ∧
        inner.key = session.key ++ ("[" ++ Digit.text (Digit.ofNat index) ++ "]") ++ e.key ∧
        inner.message = e.message) ∧
    ∀ errors, compileExpression raw expected = .error errors → ∀ e ∈ errors,
      e.key = locationText e.location ∧ raw.Locates e.location e.cause := by
  rw [compileExpression_eq_mapError]
  refine ⟨fun session index ↦ ?_, ?_⟩
  · have hplace : session.position.operand index expected =
        ({ expected : Position }).under (session.position.location ++ [index]) := by
      simp [Position.operand, Position.under]
    rw [Session.compileOperand_eq_record, hplace, compile_under]
    cases compile raw { expected : Position } with
    | ok expr => exact .inl ⟨expr, rfl, rfl⟩
    | error e =>
        refine .inr ⟨e, e.under (session.position.location ++ [index]), rfl, rfl, ?_, rfl⟩
        rw [CompileError.key, CompileError.under, locationText_append, locationText_append]
        simp [locationText, Session.key, CompileError.key]
  · cases hresult : compile raw { expected : Position } with
    | ok expr =>
        intro errors herrors
        cases herrors
    | error e =>
        intro errors herrors e' hmem
        cases herrors
        rw [List.mem_singleton] at hmem
        subst hmem
        obtain ⟨path, hpath, hlocates⟩ := liesIn_of_compile_eq_error hresult
        rw [List.nil_append] at hpath
        exact ⟨rfl, hpath ▸ hlocates⟩

/-- An unknown operator in the key of a lookup that is the second operand of a coalesce: its place
is that of the operator itself. -/
theorem compileExpression_located_operator :
    ∃ e,
      compileExpression
          (.call "coalesce" [.null, .call "get" [.call "foo" []]]) none = .error [e] ∧
        e.location = [2, 1, 0] ∧ e.key = "[2][1][0]" ∧
        (Value.call "coalesce" [.null, .call "get" [.call "foo" []]]).Locates [2, 1, 0]
          (.unknownOperator "foo") := by
  have he :
      compileExpression (.call "coalesce" [.null, .call "get" [.call "foo" []]]) none =
        .error [⟨[2, 1, 0], .unknownOperator "foo"⟩] := rfl
  have hlocated := (compileExpression_located
    (.call "coalesce" [.null, .call "get" [.call "foo" []]]) none).2 _ he _ (List.mem_singleton_self _)
  exact ⟨_, he, rfl, by decide +kernel, hlocated.2⟩

end StyleLang
