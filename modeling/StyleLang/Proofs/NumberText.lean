import StyleLang.Proofs.Conversions
import StyleLang.Proofs.Equality
import StyleLang.Proofs.Literals

/-!
# Numbers as text

The text of an integer up to `2 ^ 53` is that of its numeral (`Binary64.numeral?_of_place`), and the
conversion to numbers reads the integer from it (`Value.numberOfText?_ofInt`). So the conversion to
a text and back keeps such a number, but for the sign of zero
(`Value.exists_numberOfText?_toPlainText`), and two of them have one text only if they are equal
(`Value.toPlainText_eq_iff`).
-/

namespace StyleLang

open Binary64

theorem Binary64.zero_eq_finite (negative : Bool) :
    zero negative = finite negative ⟨0, by decide⟩ :=
  ofRank_of_lt negative ⟨0, by decide⟩

/-- A number in the place of an integer is written as the integer. -/
theorem Binary64.numeral?_of_place {x : Binary64} {n : Int} (hn : n.natAbs ≤ greatestInteger)
    (h : x.place? = some (n * unitsPerOne)) : x.numeral? = some (.ofInt n) := by
  obtain ⟨negative, rank, m, rfl, hm, hunits⟩ := isInteger_iff.mp ⟨n, hn, h⟩
  have hplace : signed negative m * unitsPerOne = n * unitsPerOne := by
    rw [place?, hunits, signed_mul] at h
    exact Option.some.inj h
  have hpos : (unitsPerOne : Int) ≠ 0 := Int.natCast_ne_zero.mpr unitsPerOne_pos.ne'
  rw [numeral?_of_units hm hunits, Int.eq_of_mul_eq_mul_right hpos hplace]

/-- The characters of the numeral of an integer are its digits after an optional minus. -/
theorem Numeral.toList_text_ofInt (n : Int) :
    (ofInt n).text.toList =
      (if decide (n < 0) then ['-'] else []) ++ (Digit.ofNat n.natAbs).map Digit.toChar := by
  rw [toList_text, ofInt]
  cases decide (n < 0) <;> simp [unsignedText, fractionText, exponentText]

namespace Value

/-- A text without blanks denotes the finite number of its literal. -/
theorem numberOfText?_of_ofLiteral? {text : String} {x : Binary64}
    (htext : ∀ c ∈ text.toList, Text.isBlank c = false) (h : ofLiteral? text.toList = some x)
    (hfinite : x.isFinite = true) : numberOfText? text = some x := by
  rw [numberOfText?, Text.trim_eq_self htext]
  split
  · rename_i hempty
    rw [hempty] at h
    cases h
  · rw [h, Option.filter_some_pos hfinite]

/-- The integer is read from the text of its numeral. -/
theorem numberOfText?_ofInt {rank : Fin overflowRank} {n : Int}
    (h : units rank = n.natAbs * unitsPerOne) :
    numberOfText? (Numeral.ofInt n).text = some (finite (decide (n < 0)) rank) := by
  have hdigit : ∀ digit : Digit, Text.isBlank digit.toChar = false := by decide
  refine numberOfText?_of_ofLiteral? ?_ ?_ rfl
  · intro c hc
    rw [Numeral.toList_text_ofInt, List.mem_append] at hc
    rcases hc with hsign | hwhole
    · obtain rfl : c = '-' := by
        split at hsign
        · exact List.mem_singleton.mp hsign
        · cases hsign
      decide
    · obtain ⟨digit, -, rfl⟩ := List.mem_map.mp hwhole
      exact hdigit digit
  · rw [Numeral.toList_text_ofInt]
    exact ofLiteral?_integer _ h

/-- The plain text of a number in the place of an integer is that of the numeral of the integer. -/
theorem toPlainText_of_place {x : Binary64} {n : Int} (hn : n.natAbs ≤ greatestInteger)
    (h : x.place? = some (n * unitsPerOne)) :
    (Value.number x).toPlainText = (Numeral.ofInt n).text := by
  show x.jsonText = _
  rw [jsonText, numeral?_of_place hn h, Option.map_some, Option.getD_some]

/-- Two integers have one text if and only if they are equal as numbers. -/
theorem toPlainText_eq_iff {x z : Binary64} (hx : x.IsInteger) (hz : z.IsInteger) :
    (Value.number x).toPlainText = (Value.number z).toPlainText ↔ (x == z) = true := by
  obtain ⟨n, hn, hxplace⟩ := hx
  obtain ⟨m, hm, hzplace⟩ := hz
  have hpos : (unitsPerOne : Int) ≠ 0 := Int.natCast_ne_zero.mpr unitsPerOne_pos.ne'
  rw [toPlainText_of_place hn hxplace, toPlainText_of_place hm hzplace, beq_iff, hxplace, hzplace]
  constructor
  · intro heq
    have hnumeral : Numeral.ofInt n = Numeral.ofInt m := by
      have hread := Numeral.ofText?_text (Numeral.ofInt n)
      rw [heq, Numeral.ofText?_text] at hread
      exact (Option.some.inj hread).symm
    have hnegative : decide (n < 0) = decide (m < 0) := congrArg Numeral.negative hnumeral
    have hwhole : n.natAbs = m.natAbs := congrArg Numeral.whole hnumeral
    obtain rfl : n = m := by
      have hsign := decide_eq_decide.mp hnegative
      omega
    exact ⟨_, rfl, rfl⟩
  · rintro ⟨place, hxeq, hzeq⟩
    have hplace : n * unitsPerOne = m * unitsPerOne :=
      (Option.some.inj hxeq).trans (Option.some.inj hzeq).symm
    rw [Int.eq_of_mul_eq_mul_right hpos hplace]

/-- An integer is read from its plain text as the same number, but without the sign of zero. -/
theorem exists_numberOfText?_toPlainText {x : Binary64} (hx : x.IsInteger) :
    ∃ y, numberOfText? (Value.number x).toPlainText = some y ∧ (y == x) = true ∧
      (x ≠ .zero true → y = x) ∧ (x = .zero true → y = 0) := by
  obtain ⟨negative, rank, n, rfl, hn, hunits⟩ := isInteger_iff.mp hx
  have hplace : (finite negative rank).place? = some (signed negative n * unitsPerOne) := by
    rw [place?, hunits, signed_mul]
  have hsame : (finite (decide (signed negative n < 0)) rank).place? =
      some (signed negative n * unitsPerOne) := by
    rw [place?, hunits, signed_decide_signed_lt, signed_mul]
  have hread : numberOfText? (Value.number (finite negative rank)).toPlainText =
      some (finite (decide (signed negative n < 0)) rank) := by
    rw [toPlainText_of_place _ hplace]
    · apply numberOfText?_ofInt
      rw [natAbs_signed, hunits]
    · rw [natAbs_signed]
      exact hn
  refine ⟨_, hread, beq_iff.mpr ⟨_, hsame, hplace⟩, ?_⟩
  by_cases hn : n = 0
  · obtain rfl : rank = ⟨0, by decide⟩ := by
      refine Fin.ext (units_strictMono.injective ?_)
      rw [hunits, hn, Nat.zero_mul, units_zero]
    have hsign : decide (signed negative n < 0) = false := by simp [hn, signed]
    rw [hsign, zero_eq_finite, zero_eq]
    cases negative <;> simp
  · have hsign : decide (signed negative n < 0) = negative := by
      cases negative <;> simp [signed, Nat.pos_iff_ne_zero, hn]
    rw [hsign, zero_eq_finite]
    refine ⟨fun _ ↦ rfl, fun heq ↦ ?_⟩
    obtain rfl := (Binary64.finite.inj heq).2
    rw [units_zero] at hunits
    exact absurd hunits.symm (Nat.mul_ne_zero hn unitsPerOne_pos.ne')

end Value

/-- A conversion to numbers stays as it is where a number may stand. -/
theorem Expr.fits_number {input : Expr} {expected : Option Ty}
    (hexpected : ∀ ty ∈ expected, ty.accepts .number = true) :
    (Expr.wrap ⟨.coercion, .number, false⟩ input).Fits expected false
      (.wrap ⟨.coercion, .number, false⟩ input) := by
  cases expected with
  | none => rfl
  | some ty =>
      refine ⟨?_, .inr (hexpected ty rfl)⟩
      cases ty <;> rfl

/-- The conversion of a literal number to a text compiles. -/
theorem compileExpression_text (x : Binary64) :
    compileExpression (.call "to-string" [.call "literal" [.number x]]) none =
      .ok (.wrap ⟨.coercion, .string, false⟩ (.literal .number (.number x))) :=
  compileExpression_wrap rfl rfl (compileExpression_eq_ok_iff.mpr ⟨_, .call rfl .literal, rfl⟩)

/-- The conversion of a literal number to a text gives its plain text. -/
theorem Expr.evaluate_text (x : Binary64) (context : EvalContext) :
    (Expr.wrap ⟨.coercion, .string, false⟩ (.literal .number (.number x))).evaluate context =
      .ok (.string (Value.number x).toPlainText) := by
  rw [evaluate_wrap, evaluate_literal]
  rfl

theorem Expr.possibleOutputs_text (x : Binary64) :
    (Expr.wrap ⟨.coercion, .string, false⟩ (.literal .number (.number x))).possibleOutputs =
      [.known (.string (Value.number x).toPlainText)] := by
  rw [possibleOutputs, possibleOutputs]
  rfl

/-- The conversion of a literal integer to a text and back to a number compiles wherever a number
may stand. It gives the same number in every context, but zero without its sign, and that is its
only possible output. The texts of two integers are the same only if the integers are equal. -/
theorem compileExpression_number_text {x : Binary64} (hx : x.IsInteger) {expected : Option Ty}
    (hexpected : ∀ ty ∈ expected, ty.accepts .number = true) :
    ∃ root text y,
      compileExpression (.call "to-number" [.call "to-string" [.call "literal" [.number x]]])
        expected = .ok root ∧
      compileExpression (.call "to-string" [.call "literal" [.number x]]) none = .ok text ∧
      (y == x) = true ∧ (x ≠ .zero true → y = x) ∧ (x = .zero true → y = 0) ∧
      root.possibleOutputs = [.known (.number y)] ∧
      (∀ context, root.evaluate context = .ok (.number y)) ∧
      ∀ z : Binary64, z.IsInteger → ∃ other,
        compileExpression (.call "to-string" [.call "literal" [.number z]]) none = .ok other ∧
        ∀ context context', text.evaluate context = other.evaluate context' ↔ (x == z) = true := by
  obtain ⟨y, hread, hequal, hsame, hzero⟩ := Value.exists_numberOfText?_toPlainText hx
  have hconvert : Ty.number.convert (.string (Value.number x).toPlainText) = .ok (.number y) :=
    Ty.number_convert_eq_ok_iff.mpr ⟨y, hread, rfl⟩
  have htext := compileExpression_text x
  obtain ⟨core, hcore, rfl⟩ := compileExpression_eq_ok_iff.mp htext
  have helaborates : Elaborates
      (.call "to-number" [.call "to-string" [.call "literal" [.number x]]]) expected
      (.wrap ⟨.coercion, .number, false⟩ _) :=
    .call rfl (.wrap rfl (Elaborates.value_iff.mpr hcore))
  refine ⟨_, _, y, compileExpression_eq_ok_iff.mpr ⟨_, helaborates, Expr.fits_number hexpected⟩,
    htext, hequal, hsame, hzero, ?_, fun context ↦ ?_, fun z hz ↦
    ⟨_, compileExpression_text z, fun context context' ↦ ?_⟩⟩
  · rw [Expr.possibleOutputs, Expr.possibleOutputs_text, List.map_singleton, Wrapper.output]
    dsimp only
    rw [hconvert]
  · rw [Expr.evaluate_wrap, Expr.evaluate_text, ok_bind]
    exact hconvert
  · rw [Expr.evaluate_text, Expr.evaluate_text, ← Value.toPlainText_eq_iff hx hz]
    simp

/-- A negative zero comes back without its sign. -/
theorem compileExpression_number_text_zero :
    ∃ root,
      (Binary64.zero true).IsInteger ∧ (∀ ty ∈ (none : Option Ty), ty.accepts .number = true) ∧
      compileExpression
        (.call "to-number" [.call "to-string" [.call "literal" [.number (.zero true)]]]) none =
        .ok root ∧
      root.possibleOutputs = [.known (.number 0)] ∧
      ∀ context, root.evaluate context = .ok (.number 0) := by
  have hinteger : (Binary64.zero true).IsInteger := by
    refine isInteger_iff.mpr ⟨true, ⟨0, by decide⟩, 0, zero_eq_finite true, Nat.zero_le _, ?_⟩
    rw [units_zero, Nat.zero_mul]
  have hexpected : ∀ ty ∈ (none : Option Ty), ty.accepts .number = true := nofun
  obtain ⟨root, _, y, hroot, -, -, -, hzero, houtputs, hevaluate, -⟩ :=
    compileExpression_number_text hinteger hexpected
  rw [hzero rfl] at houtputs hevaluate
  exact ⟨root, hinteger, hexpected, hroot, houtputs, hevaluate⟩

end StyleLang
