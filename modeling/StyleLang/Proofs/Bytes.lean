import StyleLang.Proofs.Channels

/-!
# Channels between 0 and 255

A channel between zero and one is written as an integer from 0 to 255 (`Binary64.isByte_round`). If
such an integer is divided by 255 and multiplied by it again, the two errors are far below one half,
so that rounding gives the integer back (`Binary64.round_div_mul_byte`).
-/

namespace StyleLang.Binary64

/-- An integer from 0 to 255. Zero may have a sign. -/
def IsByte (x : Binary64) : Prop :=
  x.IsInteger ∧ x.within 0 255 = true

theorem isByte_iff {x : Binary64} :
    x.IsByte ↔ ∃ negative rank n, x = finite negative rank ∧ n ≤ 255 ∧
      units rank = n * unitsPerOne ∧ (negative = false ∨ n = 0) := by
  rw [IsByte, isInteger_iff, byte_eq, within_zero_iff, units_byteRank]
  constructor
  · rintro ⟨⟨negative, rank, n, rfl, -, hunits⟩, _, _, heq, hle, hsign⟩
    obtain ⟨rfl, rfl⟩ := Binary64.finite.inj heq
    rw [hunits] at hle hsign
    exact ⟨_, _, n, rfl, Nat.le_of_mul_le_mul_right hle unitsPerOne_pos, hunits,
      hsign.imp_right fun hzero ↦ (Nat.mul_eq_zero.mp hzero).resolve_right unitsPerOne_pos.ne'⟩
  · rintro ⟨negative, rank, n, rfl, hn, hunits, hsign⟩
    refine ⟨⟨negative, rank, n, rfl, hn.trans (by decide), hunits⟩, negative, rank, rfl, ?_, ?_⟩
    · rw [hunits]
      exact Nat.mul_le_mul_right _ hn
    · exact hsign.imp_right fun hzero ↦ by rw [hunits, hzero, Nat.zero_mul]

/-! ## A grid -/

/-- All small multiples of a small part of one are magnitudes. -/
theorem exists_grid : ∃ grid, unitsPerOne = 1048576 * grid ∧ 0 < grid ∧
    ∀ {n : Nat}, n < 2 * binade → ∃ rank, units rank = n * grid := by
  obtain ⟨exponent, hexponent⟩ : ∃ exponent, unitsPerOne = 1 <<< (20 + exponent) := ⟨1054, rfl⟩
  refine ⟨2 ^ exponent, ?_, Nat.two_pow_pos exponent, fun hn ↦ ?_⟩
  · rw [hexponent, Nat.one_shiftLeft, Nat.pow_add]
  · obtain ⟨rank, hrank⟩ := exists_units_eq_shiftLeft exponent hn
    exact ⟨rank, hrank.trans (Nat.shiftLeft_eq _ _)⟩

/-- Natural numbers up to 255 are magnitudes. -/
theorem exists_units_of_le_byte {n : Nat} (hn : n ≤ 255) :
    ∃ rank : Fin overflowRank, units rank = n * unitsPerOne := by
  obtain ⟨grid, hgrid, -, hmagnitude⟩ := exists_grid
  have hsmall : n * 1048576 < 2 * binade := by
    simp only [binade]
    omega
  obtain ⟨rank, hrank⟩ := hmagnitude hsmall
  have hunits : units rank = n * unitsPerOne := by rw [hrank, hgrid, Nat.mul_assoc]
  have hle : units rank ≤ units byteRank := by
    rw [hunits, units_byteRank]
    exact Nat.mul_le_mul_right _ hn
  exact ⟨⟨rank, (units_strictMono.le_iff_le.mp hle).trans_lt byteRank.isLt⟩, hunits⟩

/-- The integers from 0 to 255. -/
theorem isByte_ofNat {n : Nat} (hn : n ≤ 255) : (ofNat n).IsByte := by
  obtain ⟨rank, hrank⟩ := exists_units_of_le_byte hn
  rw [ofNat_of_units hrank, isByte_iff]
  exact ⟨false, rank, n, rfl, hn, hrank, .inl rfl⟩

theorem within_ofNat {n : Nat} (hn : n ≤ 255) : (ofNat n).within 0 255 = true :=
  (isByte_ofNat hn).2

theorem within_one : (1 : Binary64).within 0 1 = true := by
  rw [one_eq]
  exact within_zero_iff.mpr ⟨false, oneRank, rfl, Nat.le_refl _, .inl rfl⟩

/-! ## Rounding -/

theorem div_byte (negative : Bool) (rank : Fin overflowRank) :
    finite negative rank / 255 =
      ofRank negative (nearestRank (units rank * unitsPerOne) (255 * unitsPerOne)) := by
  rw [byte_eq, div_finite_of_pos (by decide), Bool.bne_false, ofRatio, units_byteRank]

theorem mul_byte (negative : Bool) (rank : Fin overflowRank) :
    finite negative rank * 255 =
      ofRank negative (nearestRank (units rank * (255 * unitsPerOne)) unitsPerOne) := by
  rw [byte_eq]
  show ofRank (negative != false) (nearestRank (units rank * units byteRank) unitsPerOne) = _
  rw [Bool.bne_false, units_byteRank]

theorem byte_div_byte : (255 : Binary64) / 255 = 1 := by
  have hpos : 0 < 255 * unitsPerOne := Nat.mul_pos (by decide) unitsPerOne_pos
  have hrank := nearestRank_units_mul hpos oneRank
  have hquotient := div_byte false byteRank
  rw [units_oneRank] at hrank
  rwa [← byte_eq, units_byteRank, Nat.mul_comm (255 * unitsPerOne), hrank, ofRank_of_lt,
    ← one_eq] at hquotient

/-- A number is rounded to a natural number that is a magnitude. -/
theorem round_finite {negative : Bool} {rank result : Fin overflowRank} {n : Nat}
    (hn : (2 * units rank + unitsPerOne) / (2 * unitsPerOne) = n)
    (hresult : units result = n * unitsPerOne) :
    (finite negative rank).round = finite negative result := by
  rw [round, hn, ofRatio_of_units hresult]

/-- The product of a magnitude up to one with 255 is not rounded past 255. -/
theorem nearestRank_mul_byte {magnitude : Nat} (h : magnitude ≤ unitsPerOne) :
    nearestRank (magnitude * (255 * unitsPerOne)) unitsPerOne ≤ byteRank := by
  apply nearestRank_le unitsPerOne_pos
  rw [units_byteRank, Nat.mul_comm]
  exact Nat.mul_le_mul_left _ h

/-- A number from zero to one, multiplied by 255 and rounded, is an integer from 0 to 255. -/
theorem isByte_round {x : Binary64} (h : x.within 0 1 = true) : (x * 255).round.IsByte := by
  rw [one_eq] at h
  obtain ⟨negative, rank, rfl, hle, hsign⟩ := within_zero_iff.mp h
  rw [units_oneRank] at hle
  have hproduct := nearestRank_mul_byte hle
  have hzero : units rank = 0 →
      nearestRank (units rank * (255 * unitsPerOne)) unitsPerOne = 0 := by
    intro hrank
    rw [hrank, Nat.zero_mul]
    exact nearestRank_eq_zero unitsPerOne_pos
  rw [mul_byte]
  generalize nearestRank (units rank * (255 * unitsPerOne)) unitsPerOne = product at hproduct hzero
  obtain ⟨product, rfl⟩ : ∃ rank : Fin overflowRank, rank.val = product :=
    ⟨⟨product, hproduct.trans_lt byteRank.isLt⟩, rfl⟩
  have hunits : units product ≤ 255 * unitsPerOne :=
    units_byteRank ▸ units_strictMono.monotone hproduct
  obtain ⟨n, hn⟩ : ∃ n, (2 * units product + unitsPerOne) / (2 * unitsPerOne) = n := ⟨_, rfl⟩
  have hpos := unitsPerOne_pos
  have hbyte : n ≤ 255 := by
    rw [← hn, ← Nat.lt_succ_iff, Nat.div_lt_iff_lt_mul (by omega)]
    omega
  obtain ⟨result, hresult⟩ := exists_units_of_le_byte hbyte
  rw [ofRank_of_lt, round_finite hn hresult, isByte_iff]
  refine ⟨negative, result, n, rfl, hbyte, hresult, hsign.imp_right fun hrank ↦ ?_⟩
  rw [← hn, hzero hrank, units_zero]
  exact Nat.div_eq_of_lt (by omega)

/-- The quotient of a number up to 255 by 255 is rounded to a place between the two multiples of the
grid around it, and the product with 255 to one between 255 times these. -/
theorem units_nearestRank_byte {n grid k : Nat} (hgrid : unitsPerOne = 1048576 * grid)
    (hmagnitude : ∀ {n : Nat}, n < 2 * binade → ∃ rank, units rank = n * grid) (hn : n ≤ 255)
    (hlow : 255 * k ≤ n * 1048576) (hhigh : n * 1048576 ≤ 255 * (k + 1)) :
    ∃ product, units (nearestRank (units (nearestRank (n * unitsPerOne * unitsPerOne)
        (255 * unitsPerOne)) * (255 * unitsPerOne)) unitsPerOne) = product ∧
      255 * k * grid ≤ product ∧ product ≤ 255 * (k + 1) * grid := by
  have hpos := unitsPerOne_pos
  have hscaled : n * unitsPerOne = n * 1048576 * grid := by rw [hgrid, Nat.mul_assoc]
  have hfactor : ∀ m, m * grid * (255 * unitsPerOne) = 255 * m * grid * unitsPerOne := by
    intro m
    ac_rfl
  have hsmall : k + 1 < 2 * binade ∧ 255 * (k + 1) < 2 * binade := by
    simp only [binade]
    omega
  obtain ⟨hquotientLow, hquotientHigh⟩ := units_nearestRank_mem (by omega)
    (hmagnitude (n := k) (by omega)) (hmagnitude hsmall.1)
    (show k * grid * (255 * unitsPerOne) ≤ n * unitsPerOne * unitsPerOne by
      rw [hfactor, hscaled]
      exact Nat.mul_le_mul_right _ (Nat.mul_le_mul_right _ hlow))
    (show n * unitsPerOne * unitsPerOne ≤ (k + 1) * grid * (255 * unitsPerOne) by
      rw [hfactor, hscaled]
      exact Nat.mul_le_mul_right _ (Nat.mul_le_mul_right _ hhigh))
  refine ⟨_, rfl, units_nearestRank_mem hpos (hmagnitude (by omega)) (hmagnitude hsmall.2) ?_ ?_⟩
  · rw [← hfactor]
    exact Nat.mul_le_mul_right _ hquotientLow
  · rw [← hfactor]
    exact Nat.mul_le_mul_right _ hquotientHigh

/-- An integer from 0 to 255 is what is nearest to the product of 255 and its quotient by 255. -/
theorem round_trip_byte {n : Nat} (hn : n ≤ 255) :
    (2 * units (nearestRank (units (nearestRank (n * unitsPerOne * unitsPerOne)
      (255 * unitsPerOne)) * (255 * unitsPerOne)) unitsPerOne) + unitsPerOne) /
        (2 * unitsPerOne) = n := by
  obtain ⟨grid, hgrid, hpos, hmagnitude⟩ := exists_grid
  obtain ⟨k, hlow, hhigh⟩ : ∃ k, 255 * k ≤ n * 1048576 ∧ n * 1048576 ≤ 255 * (k + 1) :=
    ⟨n * 1048576 / 255, by omega, by omega⟩
  obtain ⟨product, hproduct, hle, hge⟩ := units_nearestRank_byte hgrid hmagnitude hn hlow hhigh
  have hscaledLow := Nat.mul_le_mul_right grid hlow
  have hscaledHigh := Nat.mul_le_mul_right grid hhigh
  have hnext : 255 * (k + 1) * grid = 255 * k * grid + 255 * grid := by
    rw [Nat.mul_add, Nat.add_mul]
  have hdouble : n * (2 * (1048576 * grid)) = 2 * (n * 1048576 * grid) := by ac_rfl
  rw [hproduct, hgrid]
  apply Nat.div_eq_of_lt_le
  · omega
  · rw [Nat.add_mul, hdouble]
    omega

/-- An integer from 0 to 255, divided by 255, is a number whose product with 255 is rounded back to
the integer. -/
theorem round_div_mul_byte {x : Binary64} (h : x.IsByte) : (x / 255 * 255).round = x := by
  obtain ⟨negative, rank, n, rfl, hn, hunits, -⟩ := isByte_iff.mp h
  have hbyte : units rank ≤ units byteRank := by
    rw [hunits, units_byteRank]
    exact Nat.mul_le_mul_right _ hn
  have htrip := round_trip_byte hn
  have hquotient := (nearestRank_byte hbyte).1
  rw [units_byteRank] at hquotient
  rw [← hunits] at htrip
  rw [div_byte]
  generalize nearestRank (units rank * unitsPerOne) (255 * unitsPerOne) = quotient
    at hquotient htrip
  obtain ⟨quotient, rfl⟩ : ∃ rank : Fin overflowRank, rank.val = quotient :=
    ⟨⟨quotient, hquotient.trans_lt oneRank.isLt⟩, rfl⟩
  have hone : units quotient ≤ unitsPerOne := by
    rw [← units_oneRank]
    exact units_strictMono.monotone hquotient
  have hproduct := nearestRank_mul_byte hone
  rw [ofRank_of_lt, mul_byte]
  generalize nearestRank (units quotient * (255 * unitsPerOne)) unitsPerOne = product
    at hproduct htrip
  obtain ⟨product, rfl⟩ : ∃ rank : Fin overflowRank, rank.val = product :=
    ⟨⟨product, hproduct.trans_lt byteRank.isLt⟩, rfl⟩
  rw [ofRank_of_lt, round_finite htrip hunits]

end StyleLang.Binary64
