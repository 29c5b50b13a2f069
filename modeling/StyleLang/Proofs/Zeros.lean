import StyleLang.Proofs.Bytes
import StyleLang.Proofs.NumberText

/-!
# Zeros with and without a sign

Numbers are equal only if they are the same or the two zeros (`Binary64.beq_cases`). The text that
JSON has for numbers hides the difference (`Binary64.numeral?_congr`). The positional text of the
channels of a color shows it, so of the colors that are equal to a color only itself has its text
(`Color.eq_of_css_eq`).
-/

namespace StyleLang

namespace Binary64

/-- Signed magnitudes are the same if the magnitudes are, and the signs unless these are zero. -/
theorem eq_of_signed_eq {s t : Bool} {m n : Nat} (h : signed s m = signed t n) :
    m = n ∧ (s = t ∨ m = 0) := by
  have hmagnitude : m = n := by
    have habs := congrArg Int.natAbs h
    rwa [natAbs_signed, natAbs_signed] at habs
  subst hmagnitude
  refine ⟨rfl, ?_⟩
  cases s <;> cases t <;> simp [signed] at h ⊢ <;> omega

/-- Every number on the line, an infinity too, has the sign and the magnitude of a rank. -/
theorem exists_ofRank_of_place? {x : Binary64} {place : Int} (h : x.place? = some place) :
    ∃ negative rank, x = ofRank negative rank ∧ place = signed negative (units rank) := by
  cases x with
  | nan => cases h
  | infinite negative =>
      refine ⟨negative, overflowRank, ?_, (Option.some.inj h).symm⟩
      rw [ofRank, dif_neg (Nat.lt_irrefl _)]
  | finite negative rank =>
      exact ⟨negative, rank, (ofRank_of_lt negative rank).symm, (Option.some.inj h).symm⟩

/-- Equal numbers are the same, or the zeros with and without a sign. -/
theorem beq_cases {x y : Binary64} (h : (x == y) = true) :
    x = y ∨ ∃ negative, x = zero negative ∧ y = zero !negative := by
  obtain ⟨place, hx, hy⟩ := beq_iff.mp h
  obtain ⟨s, rank, rfl, hplace⟩ := exists_ofRank_of_place? hx
  obtain ⟨t, other, rfl, hother⟩ := exists_ofRank_of_place? hy
  obtain ⟨hunits, hsign⟩ := eq_of_signed_eq (hplace.symm.trans hother)
  obtain rfl : rank = other := units_strictMono.injective hunits
  by_cases hst : s = t
  · exact .inl (by rw [hst])
  · have ht : t = !s := by
      rw [Bool.eq_not]
      exact Ne.symm hst
    obtain rfl : rank = 0 := units_strictMono.injective ((hsign.resolve_left hst).trans
      units_zero.symm)
    exact .inr ⟨s, rfl, ht ▸ rfl⟩

/-- The zeros stand in the middle of the line. -/
theorem place?_zero_sign (negative : Bool) : (zero negative).place? = some 0 := by
  rw [zero_eq_finite, place?, units_zero]
  cases negative <;> simp [signed]

/-- The zeros are equal. -/
theorem zero_beq_zero (s t : Bool) : (zero s == zero t) = true :=
  beq_iff.mpr ⟨0, place?_zero_sign s, place?_zero_sign t⟩

/-! ## Numerals -/

/-- The zeros have the numeral of the integer zero. -/
theorem numeral?_zero (negative : Bool) : (zero negative).numeral? = some (.ofInt 0) := by
  refine numeral?_of_place (Nat.zero_le _) ?_
  rw [place?_zero_sign, Int.zero_mul]

/-- Equal numbers have one numeral. -/
theorem numeral?_congr {x y : Binary64} (h : (x == y) = true) : x.numeral? = y.numeral? := by
  rcases beq_cases h with rfl | ⟨negative, rfl, rfl⟩
  · rfl
  · rw [numeral?_zero, numeral?_zero]

/-! ## Positional texts -/

/-- The positional text of a zero shows its sign. -/
theorem positional_zero (negative : Bool) :
    (zero negative).positional = if negative then "-0" else "0" := by
  rw [zero_eq_finite]
  have hdecimal : (⟨0, 0⟩ : Decimal).positional = "0" := by
    apply String.toList_injective
    rw [Decimal.toList_positional, Digit.ofNat]
    rfl
  cases negative <;> simp [positional, Decimal.shortest, hdecimal]

/-- Equal numbers with one positional text are the same, also where something follows the text. -/
theorem positional_append_inj {x y : Binary64} (h : (x == y) = true) {rest other : List Char}
    (htext : x.positional.toList ++ rest = y.positional.toList ++ other) :
    x = y ∧ rest = other := by
  rcases beq_cases h with rfl | ⟨negative, rfl, rfl⟩
  · exact ⟨rfl, List.append_cancel_left htext⟩
  · -- The texts of the zeros start with different characters.
    rw [positional_zero, positional_zero] at htext
    cases negative <;> simp at htext

/-- A zero stays the zero that it is when a channel is scaled and rounded. -/
theorem round_zero_mul_byte (negative : Bool) : (zero negative * 255).round = zero negative := by
  have hpos : 0 < unitsPerOne := unitsPerOne_pos
  have hproduct : zero negative * 255 = zero negative := by
    rw [zero_eq_finite, mul_byte, units_zero, Nat.zero_mul, nearestRank_eq_zero (by omega)]
    exact zero_eq_finite negative
  rw [hproduct, zero_eq_finite]
  refine round_finite (Nat.div_eq_of_lt ?_) ?_
  · rw [units_zero]
    omega
  · rw [units_zero, Nat.zero_mul]

/-- Equal numbers are the same if they have one text as channels, which are scaled and rounded. -/
theorem channel_append_inj {x y : Binary64} (h : (x == y) = true) {rest other : List Char}
    (htext : (x * 255).round.positional.toList ++ rest =
      (y * 255).round.positional.toList ++ other) : x = y ∧ rest = other := by
  rcases beq_cases h with rfl | ⟨negative, rfl, rfl⟩
  · exact ⟨rfl, List.append_cancel_left htext⟩
  · rw [round_zero_mul_byte, round_zero_mul_byte] at htext
    exact positional_append_inj h htext

end Binary64

namespace Color

/-- Colors are equal if their channels are. -/
theorem beq_iff {c d : Color} : (c == d) = true ↔ (c.red == d.red) = true ∧
    (c.green == d.green) = true ∧ (c.blue == d.blue) = true ∧ (c.alpha == d.alpha) = true := by
  change c.equal d = true ↔ _
  rw [equal, Bool.and_eq_true, Bool.and_eq_true, Bool.and_eq_true, and_assoc, and_assoc]

/-- Equal colors have one text only if they are the same. -/
theorem eq_of_css_eq {c d : Color} (h : (c == d) = true) (hcss : c.css = d.css) : c = d := by
  obtain ⟨hred, hgreen, hblue, halpha⟩ := beq_iff.mp h
  have htext := congrArg String.toList hcss
  unfold css at htext
  simp only [String.toList_append, List.append_assoc] at htext
  obtain ⟨redEq, htext⟩ := Binary64.channel_append_inj hred (List.append_cancel_left htext)
  obtain ⟨greenEq, htext⟩ := Binary64.channel_append_inj hgreen (List.append_cancel_left htext)
  obtain ⟨blueEq, htext⟩ := Binary64.channel_append_inj hblue (List.append_cancel_left htext)
  obtain ⟨alphaEq, -⟩ := Binary64.positional_append_inj halpha (List.append_cancel_left htext)
  cases c
  cases d
  congr

end Color

end StyleLang
