import StyleLang.Json.Token
import StyleLang.Proofs.Magnitudes

/-!
# Numerals

Every numeral is read back from its text (`Numeral.ofText?_text`). The numeral of an integer up to
`2 ^ 53` in turn denotes a number that is equal to the one it was written for
(`Binary64.IsInteger.exists_toBinary64?`).
-/

namespace StyleLang

namespace Digit

/-- A digit is read back from its character. -/
@[simp]
theorem ofChar?_toChar (digit : Digit) : ofChar? digit.toChar = some digit := by
  revert digit
  decide

/-- Written digits are taken off the front of a text up to a character that is no digit. -/
theorem scan_append (digits : List Digit) {rest : List Char}
    (h : ∀ c ∈ rest.head?, ofChar? c = none) :
    scan (digits.map toChar ++ rest) = (digits, rest) := by
  induction digits with
  | nil =>
      cases rest with
      | nil => rfl
      | cons c rest => simp [scan, h c rfl]
  | cons digit digits ih => simp [scan, ih]

/-- Further digits make no number smaller. -/
theorem le_number (start : Nat) (digits : List Digit) : start ≤ number start digits := by
  induction digits generalizing start with
  | nil => exact Nat.le_refl start
  | cons digit digits ih =>
      have hnext : 10 * start + digit.val ≤ number start (digit :: digits) := ih _
      omega

theorem ofNat_ne_nil (n : Nat) : ofNat n ≠ [] := by
  rw [ofNat]
  split <;> simp

/-- The first digit of a number is not zero, unless the number is. -/
theorem head?_ofNat_ne {n : Nat} (h : n ≠ 0) : (ofNat n).head? ≠ some zero := by
  fun_induction ofNat n with
  | case1 n hsmall =>
      intro hzero
      have hval : n % 10 = 0 := congrArg Fin.val (Option.some.inj hzero)
      omega
  | case2 n hlarge ih =>
      obtain ⟨digit, digits, hdigits⟩ := List.exists_cons_of_ne_nil (ofNat_ne_nil (n / 10))
      rw [hdigits] at ih ⊢
      exact ih (by omega)

end Digit

namespace Numeral

/-! ## Reading -/

/-- The digits of a number are read back as a whole part. -/
theorem whole?_ofNat (n : Nat) : whole? (Digit.ofNat n) = some n := by
  have hnumber := Digit.number_ofNat n
  have hhead := Digit.head?_ofNat_ne (n := n)
  obtain ⟨digit, digits, hdigits⟩ := List.exists_cons_of_ne_nil (Digit.ofNat_ne_nil n)
  rw [hdigits] at hnumber hhead ⊢
  have hfirst : Digit.number digit digits = n := by
    simpa only [Digit.number, List.foldl_cons, Nat.mul_zero, Nat.zero_add] using hnumber
  cases digits with
  | nil => exact congrArg some hfirst
  | cons next digits =>
      by_cases hzero : digit = .zero
      · -- A zero in front of other digits would make the number zero, which has one digit.
        have hn : n = 0 := by
          by_contra hne
          exact hhead hne (congrArg some hzero)
        rw [hn, Digit.ofNat] at hdigits
        simp at hdigits
      · rw [whole?, if_neg hzero, hfirst]
        simp

/-- The characters of a fraction. -/
def fractionText : List Digit → List Char
  | [] => []
  | digit :: digits => '.' :: (digit :: digits).map Digit.toChar

/-- The characters of a numeral after its sign. -/
def unsignedText (numeral : Numeral) : List Char :=
  (Digit.ofNat numeral.whole).map Digit.toChar ++
    (fractionText numeral.fraction ++ (exponentText numeral.exponent).toList)

/-- The text of a numeral is a minus or nothing, and the rest. -/
theorem toList_text (numeral : Numeral) :
    numeral.text.toList =
      if numeral.negative then '-' :: numeral.unsignedText else numeral.unsignedText := by
  obtain ⟨negative, whole, fraction, exponent⟩ := numeral
  cases negative <;> cases fraction <;> simp [text, unsignedText, fractionText, Digit.text]

/-- A fraction is read back if neither a digit nor a point follows. -/
theorem fraction?_append (fraction : List Digit) {rest : List Char}
    (h : ∀ c ∈ rest.head?, Digit.ofChar? c = none ∧ c ≠ '.') :
    fraction? (fractionText fraction ++ rest) = some (fraction, rest) := by
  cases fraction with
  | nil =>
      cases rest with
      | nil => rfl
      | cons c rest =>
          show fraction? (c :: rest) = _
          rw [fraction?]
          intro _ heq
          exact (h c rfl).2 (List.cons.inj heq).1
  | cons digit digits =>
      have hscan := Digit.scan_append (digit :: digits) fun c hc ↦ (h c hc).1
      rw [fractionText, List.cons_append, fraction?, hscan]

/-- The text of an exponent is read back. -/
theorem exponent?_exponentText (exponent : Option Int) :
    Literal.exponent? (exponentText exponent).toList = some exponent := by
  cases exponent with
  | none => rfl
  | some exponent =>
      have hscan : Digit.scan ((Digit.ofNat exponent.natAbs).map Digit.toChar ++ []) =
          (Digit.ofNat exponent.natAbs, []) := Digit.scan_append _ (by simp)
      have hnumber := Digit.number_ofNat exponent.natAbs
      obtain ⟨digit, digits, hdigits⟩ :=
        List.exists_cons_of_ne_nil (Digit.ofNat_ne_nil exponent.natAbs)
      rw [List.append_nil, hdigits] at hscan
      rw [hdigits] at hnumber
      by_cases hnegative : exponent < 0
      · have htext : (exponentText (some exponent)).toList =
            'e' :: '-' :: (digit :: digits).map Digit.toChar := by
          simp [exponentText, hnegative, hdigits, Digit.text]
        have hvalue : -(exponent.natAbs : Int) = exponent := by omega
        simp only [htext, Literal.exponent?, Literal.sign, hscan, hnumber, Binary64.signed, if_true,
          hvalue]
      · have htext : (exponentText (some exponent)).toList =
            'e' :: '+' :: (digit :: digits).map Digit.toChar := by
          simp [exponentText, hnegative, hdigits, Digit.text]
        have hvalue : (exponent.natAbs : Int) = exponent := by omega
        simp only [htext, Literal.exponent?, Literal.sign, hscan, hnumber, Binary64.signed,
          Bool.false_eq_true, if_false, hvalue]

/-- The text of an exponent starts with a letter, if it is not empty. -/
theorem head?_exponentText {exponent : Option Int} {c : Char}
    (h : c ∈ (exponentText exponent).toList.head?) : c = 'e' := by
  cases exponent with
  | none => cases h
  | some exponent =>
      rw [exponentText, String.toList_append] at h
      split at h <;> exact (Option.some.inj h).symm

/-- A numeral without its sign is read back. -/
theorem unsigned?_unsignedText (numeral : Numeral) :
    unsigned? numeral.negative numeral.unsignedText = some numeral := by
  have hletter : ∀ c ∈ (exponentText numeral.exponent).toList.head?,
      Digit.ofChar? c = none ∧ c ≠ '.' := by
    intro c hc
    rw [head?_exponentText hc]
    decide
  have hwhole : Digit.scan numeral.unsignedText = (Digit.ofNat numeral.whole,
      fractionText numeral.fraction ++ (exponentText numeral.exponent).toList) := by
    refine Digit.scan_append _ fun c hc ↦ ?_
    -- What follows the whole part is a point, a letter or nothing.
    cases hfraction : numeral.fraction with
    | nil =>
        rw [hfraction] at hc
        exact (hletter c hc).1
    | cons digit digits =>
        rw [hfraction] at hc
        obtain rfl : '.' = c := Option.some.inj hc
        rfl
  simp only [unsigned?, hwhole, whole?_ofNat, fraction?_append _ hletter, exponent?_exponentText,
    bind, pure, Option.bind_some]

/-- Every numeral is read back from its text. -/
theorem ofText?_text (numeral : Numeral) : ofText? numeral.text.toList = some numeral := by
  have hunsigned := unsigned?_unsignedText numeral
  rw [toList_text]
  cases hnegative : numeral.negative with
  | true =>
      rw [hnegative] at hunsigned
      rw [if_pos rfl, ofText?, hunsigned]
  | false =>
      rw [hnegative] at hunsigned
      rw [if_neg Bool.false_ne_true, ofText?, hunsigned]
      -- A text that starts with a digit has no sign.
      intro rest htext
      obtain ⟨digit, digits, hdigits⟩ :=
        List.exists_cons_of_ne_nil (Digit.ofNat_ne_nil numeral.whole)
      rw [unsignedText, hdigits] at htext
      have hsign : digit.toChar = '-' := (List.cons.inj htext).1
      have hdigit := Digit.ofChar?_toChar digit
      rw [hsign] at hdigit
      cases hdigit

/-! ## Integers -/

/-- Digits of a number of 64 bits are collected in full. -/
theorem collect_of_lt {significand : Nat} {digits : List Digit}
    (h : Digit.number significand digits < UInt64.size) :
    collect significand digits = (Digit.number significand digits, 0) := by
  induction digits generalizing significand with
  | nil => rfl
  | cons digit digits ih =>
      have hle := Digit.le_number (10 * significand + digit.val) digits
      rw [collect, if_pos (Nat.lt_of_le_of_lt hle h)]
      exact ih h

end Numeral

namespace Binary64

/-- The number is an integer of magnitude at most `2 ^ 53`. Both zeros are. -/
def IsInteger (x : Binary64) : Prop :=
  ∃ n : Int, n.natAbs ≤ greatestInteger ∧ x.place? = some (n * unitsPerOne)

/-- The rank of one. -/
def oneRank : Fin overflowRank :=
  ⟨1023 * binade, by decide⟩

theorem units_oneRank : units oneRank = unitsPerOne :=
  (units_succ_mul_binade 1022).trans (Nat.shiftLeft_add 1 52 1022).symm

theorem unitsPerOne_pos : 0 < unitsPerOne := by
  rw [← units_oneRank, ← units_zero]
  exact units_strictMono (by decide)

theorem ofRank_of_lt (negative : Bool) (rank : Fin overflowRank) :
    ofRank negative rank = finite negative rank := by
  rw [ofRank, dif_pos rank.isLt]

/-- A natural number that is a magnitude is not rounded. -/
theorem ofRatio_of_units {negative : Bool} {rank : Fin overflowRank} {n : Nat}
    (h : units rank = n * unitsPerOne) : ofRatio negative n 1 = finite negative rank := by
  rw [ofRatio, ← h, ← Nat.mul_one (units rank), nearestRank_units_mul Nat.one_pos, ofRank_of_lt]

theorem ofNat_of_units {rank : Fin overflowRank} {n : Nat} (h : units rank = n * unitsPerOne) :
    ofNat n = finite false rank :=
  ofRatio_of_units h

theorem one_eq : (1 : Binary64) = finite false oneRank :=
  ofNat_of_units (units_oneRank.trans (Nat.one_mul unitsPerOne).symm)

theorem zero_eq : (0 : Binary64) = finite false ⟨0, by decide⟩ :=
  ofNat_of_units (units_zero.trans (Nat.zero_mul unitsPerOne).symm)

theorem place?_zero : (0 : Binary64).place? = some 0 := by
  rw [zero_eq, place?]
  exact congrArg (fun magnitude : Nat ↦ some (magnitude : Int)) units_zero

theorem place?_one : (1 : Binary64).place? = some (unitsPerOne : Int) := by
  rw [one_eq, place?, units_oneRank]
  rfl

theorem power_zero : Numeral.power 0 = finite false oneRank := by
  have hnearest : nearestRank (1 * unitsPerOne) 1 = oneRank := by
    rw [Nat.one_mul, ← units_oneRank, ← Nat.mul_one (units oneRank)]
    exact nearestRank_units_mul Nat.one_pos oneRank
  have hratio : Decimal.ratio ⟨1, 0⟩ = (1, 1) := by decide
  have hrank : Decimal.rank ⟨1, 0⟩ = oneRank := by
    rw [Decimal.rank, if_neg (by decide), if_neg (by decide), hratio]
    show min overflowRank (nearestRank (1 * unitsPerOne) 1) = _
    rw [hnearest]
    exact Nat.min_eq_right oneRank.isLt.le
  show ofRank false (Decimal.rank ⟨1, 0⟩) = _
  rw [hrank, ofRank_of_lt]

/-- A number times one is the number. -/
theorem mul_power_zero (negative : Bool) (rank : Fin overflowRank) :
    finite negative rank * Numeral.power 0 = finite negative rank := by
  rw [power_zero]
  show ofRank (negative != false) (nearestRank (units rank * units oneRank) unitsPerOne) = _
  rw [units_oneRank, nearestRank_units_mul unitsPerOne_pos, ofRank_of_lt, Bool.bne_false]

theorem neg_finite (negative : Bool) (rank : Fin overflowRank) :
    -finite negative rank = finite (!negative) rank :=
  rfl

/-- The numeral of an integer denotes the number of its magnitude and sign. -/
theorem toBinary64?_ofInt {rank : Fin overflowRank} {n : Int} (hn : n.natAbs ≤ greatestInteger)
    (h : units rank = n.natAbs * unitsPerOne) :
    (Numeral.ofInt n).toBinary64? = some (finite (decide (n < 0)) rank) := by
  have hsize : Digit.number 0 (Digit.ofNat n.natAbs) < UInt64.size := by
    rw [Digit.number_ofNat]
    exact Nat.lt_of_le_of_lt hn (by decide)
  have hcollect := Numeral.collect_of_lt hsize
  rw [Digit.number_ofNat] at hcollect
  have hscale : Numeral.scaleUp (finite false rank) 0 = some (finite false rank) := by
    rw [Numeral.scaleUp, if_neg (Nat.not_lt_zero _), mul_power_zero]
    exact if_pos rfl
  rw [Numeral.toBinary64?, Numeral.ofInt]
  simp only [hcollect, Numeral.collect, ofNat_of_units h]
  by_cases hnegative : n < 0
  · simp [hscale, hnegative, neg_finite]
  · simp [hscale, hnegative]

/-- What `numeral?` is with any function in the place of `integer?`. With `integer?` itself, the
comparison of a single application with one of its branches would compute with the magnitudes. -/
def numeralBy (integral? : Binary64 → Option Nat) : Binary64 → Option Numeral
  | finite negative rank =>
      match (integral? (finite negative rank)).filter (· ≤ greatestInteger) with
      | some n => some (.ofInt (signed negative n))
      | none => some (.ofDecimal negative (Decimal.shortest .toEven rank))
  | _ => none

theorem numeral?_eq_numeralBy : numeral? = numeralBy integer? :=
  rfl

theorem numeralBy_of_eq_some {integral? : Binary64 → Option Nat} {negative : Bool}
    {rank : Fin overflowRank} {n : Nat} (h : integral? (finite negative rank) = some n)
    (hn : n ≤ greatestInteger) :
    numeralBy integral? (finite negative rank) = some (.ofInt (signed negative n)) := by
  rw [numeralBy, h, Option.filter_some_pos (by simpa using hn)]

/-- A finite number is an integer if its magnitude is one. -/
theorem integer?_finite_eq_some_iff {negative : Bool} {rank : Fin overflowRank} {n : Nat} :
    (finite negative rank).integer? = some n ↔ units rank = n * unitsPerOne := by
  simp only [integer?, Option.ite_none_right_eq_some, Option.some.injEq]
  constructor
  · rintro ⟨hmod, rfl⟩
    exact (Nat.div_mul_cancel (Nat.dvd_of_mod_eq_zero hmod)).symm
  · intro h
    exact ⟨h ▸ Nat.mul_mod_left n unitsPerOne, h ▸ Nat.mul_div_cancel n unitsPerOne_pos⟩

/-- An integer is written as an integer. -/
theorem numeral?_of_units {negative : Bool} {rank : Fin overflowRank} {n : Nat}
    (hn : n ≤ greatestInteger) (h : units rank = n * unitsPerOne) :
    (finite negative rank).numeral? = some (.ofInt (signed negative n)) := by
  rw [numeral?_eq_numeralBy]
  exact numeralBy_of_eq_some (integer?_finite_eq_some_iff.mpr h) hn

@[simp]
theorem natAbs_signed (negative : Bool) (magnitude : Nat) :
    (signed negative magnitude).natAbs = magnitude := by
  cases negative <;> simp [signed]

/-- A magnitude whose sign leaves it at zero or above is zero or has no sign. -/
theorem signed_nonneg_iff {negative : Bool} {magnitude : Nat} :
    0 ≤ signed negative magnitude ↔ negative = false ∨ magnitude = 0 := by
  cases negative <;> simp [signed]

theorem signed_mul (negative : Bool) (n scale : Nat) :
    signed negative (n * scale) = signed negative n * scale := by
  cases negative with
  | false => exact Int.natCast_mul n scale
  | true =>
      show -((n * scale : Nat) : Int) = -(n : Int) * scale
      rw [Int.natCast_mul, Int.neg_mul]

/-- The sign of a magnitude is that of the number, unless the magnitude is zero. -/
theorem signed_decide_signed_lt (negative : Bool) (n scale : Nat) :
    signed (decide (signed negative n < 0)) (n * scale) = signed negative (n * scale) := by
  by_cases hzero : n = 0
  · simp [hzero, signed]
  · cases negative <;> simp [signed, hzero, Nat.pos_iff_ne_zero]

/-- The rank of the greatest integer. -/
def greatestRank : Fin overflowRank :=
  ⟨(1075 + 1) * binade, by decide⟩

theorem units_greatestRank : units greatestRank = greatestInteger * unitsPerOne := by
  have hshift : ∀ exponent, binade <<< (exponent + 1) = greatestInteger * 1 <<< exponent := by
    intro exponent
    have hdouble : 2 * binade = greatestInteger := rfl
    rw [Nat.shiftLeft_succ_inside, hdouble, Nat.shiftLeft_eq, Nat.shiftLeft_eq, Nat.one_mul]
  exact (units_succ_mul_binade 1075).trans (hshift 1074)

/-- An integer is a finite number whose magnitude is one. -/
theorem isInteger_iff {x : Binary64} :
    x.IsInteger ↔ ∃ negative rank n, x = finite negative rank ∧ n ≤ greatestInteger ∧
      units rank = n * unitsPerOne := by
  constructor
  · intro h
    obtain ⟨n, hn, hplace⟩ := h
    have hmagnitude : ∀ {negative magnitude}, signed negative magnitude = n * unitsPerOne →
        magnitude = n.natAbs * unitsPerOne := by
      intro negative magnitude heq
      have habs := congrArg Int.natAbs heq
      rw [Int.natAbs_mul, Int.natAbs_natCast, natAbs_signed] at habs
      exact habs
    cases x with
    | nan => cases hplace
    | infinite negative =>
        -- Infinity stands behind the greatest integer.
        have hunits := hmagnitude (Option.some.inj hplace)
        have hle := Nat.mul_le_mul_right unitsPerOne hn
        have hlt : units greatestRank < units overflowRank := units_strictMono greatestRank.isLt
        rw [units_greatestRank] at hlt
        omega
    | finite negative rank =>
        exact ⟨negative, rank, n.natAbs, rfl, hn, hmagnitude (Option.some.inj hplace)⟩
  · intro h
    obtain ⟨negative, rank, n, rfl, hn, hunits⟩ := h
    refine ⟨signed negative n, ?_, ?_⟩
    · rw [natAbs_signed]
      exact hn
    · rw [place?, hunits, signed_mul]

/-- The numeral that an integer is written as denotes a number in the same place. -/
theorem IsInteger.exists_toBinary64? {x : Binary64} (h : x.IsInteger) :
    ∃ numeral y, x.numeral? = some numeral ∧ numeral.toBinary64? = some y ∧
      y.place? = x.place? := by
  obtain ⟨negative, rank, n, rfl, hn, hunits⟩ := isInteger_iff.mp h
  have hnumber : (Numeral.ofInt (signed negative n)).toBinary64? =
      some (finite (decide (signed negative n < 0)) rank) := by
    apply toBinary64?_ofInt
    · rw [natAbs_signed]
      exact hn
    · rw [natAbs_signed]
      exact hunits
  refine ⟨_, _, numeral?_of_units hn hunits, hnumber, ?_⟩
  rw [place?, place?, hunits, signed_decide_signed_lt]

end Binary64

end StyleLang
