import StyleLang.Decimal.Shortest
import StyleLang.Proofs.Decimals
import StyleLang.Text.Characters

/-!
# Number literals

Digits around a point are a literal of the decimal they write (`Binary64.ofLiteral?_digits`). So
every finite number is read back from its positional text, with its sign
(`Binary64.ofLiteral?_positional`), and an integer from its digits (`Binary64.ofLiteral?_integer`).
No literal ends in a percent sign (`Binary64.ofLiteral?_append_percent`).
-/

namespace StyleLang

/-- A text without blanks is trimmed already. -/
theorem Text.trim_eq_self {text : List Char} (h : ∀ c ∈ text, isBlank c = false) :
    trim text = text := by
  have hdrop : ∀ {cs : List Char}, (∀ c ∈ cs, isBlank c = false) → cs.dropWhile isBlank = cs := by
    intro cs hcs
    cases cs with
    | nil => rfl
    | cons c cs => simp [hcs c List.mem_cons_self]
  have hreverse : ∀ c ∈ text.reverse, isBlank c = false := fun c hc ↦ h c (List.mem_reverse.mp hc)
  rw [trim, hdrop h, hdrop hreverse, List.reverse_reverse]

namespace Digit

@[simp]
theorem length_fixed (count n : Nat) : (fixed count n).length = count := by
  induction count generalizing n with
  | zero => rfl
  | succ count ih => rw [fixed, List.length_append, ih, List.length_singleton]

/-- The last digits of a number denote its remainder. -/
theorem number_fixed (start count n : Nat) :
    number start (fixed count n) = start * 10 ^ count + n % 10 ^ count := by
  induction count generalizing n with
  | zero => simp [fixed, number, Nat.mod_one]
  | succ count ih =>
      have hlast : number start (fixed (count + 1) n) =
          10 * number start (fixed count (n / 10)) + n % 10 := by
        rw [fixed, number_append]
        rfl
      rw [hlast, ih, Nat.pow_succ', Nat.mod_mul, Nat.mul_add, Nat.mul_left_comm start]
      omega

end Digit

namespace Decimal

/-- The characters of a decimal are the digits of its whole part and its fraction. -/
theorem toList_positional (d : Decimal) :
    d.positional.toList =
      (Digit.ofNat d.whole).map Digit.toChar ++ Numeral.fractionText d.fraction := by
  rw [positional]
  cases d.fraction <;> simp [Digit.text, Numeral.fractionText]

/-- The positional digits of a decimal denote a decimal of the same rank. -/
theorem rank_digits (d : Decimal) :
    rank ⟨Digit.number 0 (Digit.ofNat d.whole ++ d.fraction), -(d.fraction.length : Int)⟩ =
      d.rank := by
  obtain ⟨significand, exponent⟩ := d
  rw [Digit.number_append, Digit.number_ofNat, fraction, Digit.number_fixed, Digit.length_fixed,
    whole]
  by_cases hexponent : 0 ≤ exponent
  · obtain ⟨k, rfl⟩ := Int.eq_ofNat_of_zero_le hexponent
    have hcount : (-(k : Int)).toNat = 0 := by omega
    apply rank_congr
    rw [ratio_natCast, hcount, ratio_neg_natCast]
    simp [Nat.mod_one]
  · obtain ⟨k, rfl⟩ : ∃ k : Nat, exponent = -k := ⟨(-exponent).toNat, by omega⟩
    have hcount : (-(-(k : Int))).toNat = k := by omega
    rw [ratio_neg_natCast, hcount]
    dsimp only
    rw [Nat.div_add_mod']

end Decimal

namespace Literal

/-- A fraction is taken off in full. -/
theorem fraction_fractionText (digits : List Digit) :
    fraction (Numeral.fractionText digits) = (digits, []) := by
  cases digits with
  | nil => rfl
  | cons digit digits =>
      have hscan : Digit.scan ((digit :: digits).map Digit.toChar ++ []) = (digit :: digits, []) :=
        Digit.scan_append _ (by simp)
      rwa [List.append_nil] at hscan

/-- Digits around a point are read. -/
theorem decimal?_digits {whole : List Digit} (hwhole : whole ≠ []) (fraction : List Digit) :
    decimal? (whole.map Digit.toChar ++ Numeral.fractionText fraction) =
      some ⟨Digit.number 0 (whole ++ fraction), -(fraction.length : Int)⟩ := by
  have hscan : Digit.scan (whole.map Digit.toChar ++ Numeral.fractionText fraction) =
      (whole, Numeral.fractionText fraction) := by
    refine Digit.scan_append whole fun c hc ↦ ?_
    cases fraction with
    | nil => cases hc
    | cons digit digits =>
        obtain rfl : '.' = c := Option.some.inj hc
        rfl
  have hempty : (whole.isEmpty && fraction.isEmpty) = false := by simp [hwhole]
  simp [decimal?, hscan, fraction_fractionText, hempty, exponent?]

/-! ## Percent signs -/

theorem scan_append_percent (text : List Char) :
    Digit.scan (text ++ ['%']) = ((Digit.scan text).1, (Digit.scan text).2 ++ ['%']) := by
  induction text with
  | nil => rfl
  | cons c text ih =>
      rw [List.cons_append, Digit.scan, Digit.scan]
      cases Digit.ofChar? c with
      | none => rfl
      | some digit => simp only [ih]

theorem sign_append_percent (text : List Char) :
    sign (text ++ ['%']) = ((sign text).1, (sign text).2 ++ ['%']) := by
  cases text with
  | nil => rfl
  | cons c text =>
      by_cases hminus : c = '-'
      · subst hminus
        rfl
      · by_cases hplus : c = '+'
        · subst hplus
          rfl
        · simp [sign, hminus, hplus]

theorem fraction_append_percent (text : List Char) :
    fraction (text ++ ['%']) = ((fraction text).1, (fraction text).2 ++ ['%']) := by
  cases text with
  | nil => rfl
  | cons c text =>
      by_cases hpoint : c = '.'
      · subst hpoint
        exact scan_append_percent text
      · simp [fraction, hpoint]

theorem exponent?_append_percent (text : List Char) : exponent? (text ++ ['%']) = none := by
  cases text with
  | nil => rfl
  | cons c text =>
      rw [List.cons_append]
      unfold exponent?
      split
      · rename_i heq
        cases heq
      -- After the sign and the digits the percent sign is left, for either letter.
      iterate 2
        · rename_i heq
          obtain rfl := (List.cons.inj heq).2
          rw [sign_append_percent]
          dsimp only
          rw [scan_append_percent]
          split
          · rename_i hscan
            simp at hscan
          · rfl
      · rfl

/-- No decimal ends in a percent sign. -/
theorem decimal?_append_percent (text : List Char) : decimal? (text ++ ['%']) = none := by
  simp only [decimal?, scan_append_percent, fraction_append_percent, exponent?_append_percent]
  simp

end Literal

namespace Binary64

/-- A text that starts with a digit, after an optional minus, is not the name of a number. -/
theorem ofLiteral?_cons (negative : Bool) (digit : Digit) (rest : List Char) :
    ofLiteral? ((if negative then ['-'] else []) ++ digit.toChar :: rest) =
      (Literal.decimal? (digit.toChar :: rest)).map (·.toBinary64 negative) := by
  have hletter : ∀ digit : Digit, digit.toChar.toLower ≠ 'i' ∧ digit.toChar.toLower ≠ 'n' ∧
      digit.toChar ≠ '-' ∧ digit.toChar ≠ '+' := by decide
  obtain ⟨hi, hn, hminus, hplus⟩ := hletter digit
  have hsign : Literal.sign ((if negative then ['-'] else []) ++ digit.toChar :: rest) =
      (negative, digit.toChar :: rest) := by
    cases negative with
    | true => rfl
    | false => simp [Literal.sign, hminus, hplus]
  have hname : ∀ {c : Char} {name : List Char}, digit.toChar.toLower ≠ c →
      String.ofList ((digit.toChar :: rest).map Char.toLower) ≠ String.ofList (c :: name) := by
    intro c name hne heq
    exact hne (List.cons.inj (String.ofList_injective heq)).1
  unfold ofLiteral?
  rw [hsign]
  dsimp only
  split
  · rename_i heq
    exact absurd heq (hname hi)
  · rename_i heq
    exact absurd heq (hname hi)
  · rename_i heq
    exact absurd heq (hname hn)
  · rfl

/-- Digits around a point are read as the decimal that they write, with its sign. -/
theorem ofLiteral?_digits (negative : Bool) {whole : List Digit} (hwhole : whole ≠ [])
    (fraction : List Digit) :
    ofLiteral? ((if negative then ['-'] else []) ++
        (whole.map Digit.toChar ++ Numeral.fractionText fraction)) =
      some (Decimal.toBinary64 negative
        ⟨Digit.number 0 (whole ++ fraction), -(fraction.length : Int)⟩) := by
  have hdecimal := Literal.decimal?_digits hwhole fraction
  obtain ⟨digit, digits, rfl⟩ := List.exists_cons_of_ne_nil hwhole
  rw [List.map_cons, List.cons_append] at hdecimal ⊢
  rw [ofLiteral?_cons, hdecimal, Option.map_some]

/-- Every finite number is read back from its positional text. -/
theorem ofLiteral?_positional (negative : Bool) (rank : Fin overflowRank) :
    ofLiteral? (finite negative rank).positional.toList = some (finite negative rank) := by
  have htext : (finite negative rank).positional.toList = (if negative then ['-'] else []) ++
      (Decimal.shortest .up rank).positional.toList := by
    cases negative <;> simp [positional]
  rw [htext, Decimal.toList_positional, ofLiteral?_digits negative (Digit.ofNat_ne_nil _),
    Decimal.toBinary64, Decimal.rank_digits, Decimal.rank_shortest, ofRank_of_lt]

/-- An integer is read from its digits. -/
theorem ofLiteral?_integer (negative : Bool) {rank : Fin overflowRank} {n : Nat}
    (h : units rank = n * unitsPerOne) :
    ofLiteral? ((if negative then ['-'] else []) ++ (Digit.ofNat n).map Digit.toChar) =
      some (finite negative rank) := by
  have hdigits := ofLiteral?_digits negative (Digit.ofNat_ne_nil n) []
  have hrank : Decimal.rank ⟨n, -((0 : Nat) : Int)⟩ = rank := by
    rw [Decimal.rank_eq, Decimal.ratio_neg_natCast, Nat.pow_zero, ← h, ← Nat.mul_one (units rank),
      nearestRank_units_mul Nat.one_pos]
    exact Nat.min_eq_right rank.isLt.le
  rw [Numeral.fractionText, List.append_nil, List.append_nil, Digit.number_ofNat, List.length_nil,
    Decimal.toBinary64, hrank, ofRank_of_lt] at hdigits
  exact hdigits

/-- The positional text of a finite number consists of digits, a point and a minus. -/
theorem mem_toList_positional {negative : Bool} {rank : Fin overflowRank} {c : Char}
    (h : c ∈ (finite negative rank).positional.toList) :
    c = '-' ∨ c = '.' ∨ ∃ digit : Digit, c = digit.toChar := by
  have hdigits : ∀ {digits : List Digit}, c ∈ digits.map Digit.toChar →
      ∃ digit : Digit, c = digit.toChar := by
    intro digits hc
    obtain ⟨digit, -, rfl⟩ := List.mem_map.mp hc
    exact ⟨digit, rfl⟩
  have hdecimal : ∀ {d : Decimal}, c ∈ d.positional.toList →
      c = '.' ∨ ∃ digit : Digit, c = digit.toChar := by
    intro d hc
    rw [Decimal.toList_positional, List.mem_append] at hc
    rcases hc with hwhole | hfraction
    · exact .inr (hdigits hwhole)
    · cases hd : d.fraction with
      | nil =>
          rw [hd] at hfraction
          cases hfraction
      | cons digit digits =>
          rw [hd, Numeral.fractionText, List.mem_cons] at hfraction
          exact hfraction.imp_right hdigits
  rw [positional] at h
  cases negative with
  | false => exact .inr (hdecimal h)
  | true =>
      rw [if_pos rfl, String.toList_append, List.mem_append] at h
      exact h.imp List.mem_singleton.mp hdecimal

/-! ## Percent signs -/

/-- No literal ends in a percent sign. -/
theorem ofLiteral?_append_percent (text : List Char) : ofLiteral? (text ++ ['%']) = none := by
  have hname : ∀ (init : List Char) {unsigned : List Char} {last : Char}, '%' ≠ last →
      String.ofList ((unsigned ++ ['%']).map Char.toLower) ≠ String.ofList (init ++ [last]) := by
    intro init unsigned last hlast heq
    rw [List.map_append] at heq
    exact hlast (List.append_singleton_inj.mp (String.ofList_injective heq)).2
  unfold ofLiteral?
  rw [Literal.sign_append_percent]
  dsimp only
  split
  · rename_i heq
    exact absurd heq (hname ['i', 'n'] (by decide : '%' ≠ 'f'))
  · rename_i heq
    exact absurd heq (hname ['i', 'n', 'f', 'i', 'n', 'i', 't'] (by decide : '%' ≠ 'y'))
  · rename_i heq
    exact absurd heq (hname ['n', 'a'] (by decide : '%' ≠ 'n'))
  · rw [Literal.decimal?_append_percent, Option.map_none]

end Binary64

end StyleLang
