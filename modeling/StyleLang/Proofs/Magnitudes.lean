import Mathlib.Order.Monotone.Basic
import StyleLang.Binary64.Rounding

/-!
# Ranks and magnitudes

The magnitudes increase with their ranks (`Binary64.units_strictMono`), and `Binary64.floorRank`
finds the last one up to a bound. So rounding to the nearest rank keeps what is a magnitude already
(`Binary64.nearestRank_units_mul`) and does not pass by a magnitude (`Binary64.nearestRank_le`,
`Binary64.le_nearestRank`).
-/

namespace StyleLang.Binary64

/-! ## Order -/

/-- Up to the end of the second binade the magnitudes are consecutive. -/
theorem units_of_lt {rank : Nat} (h : rank < 2 * binade) : units rank = rank := by
  have hexponent : rank / binade - 1 = 0 := by
    simp only [binade] at h ⊢
    omega
  simp [units, hexponent]

/-- A rank from the second binade on is that of a significand scaled by a power of two. -/
theorem exists_eq_scaled {rank : Nat} (h : binade ≤ rank) :
    ∃ exponent significand, rank = exponent * binade + significand ∧ binade ≤ significand ∧
      significand < 2 * binade := by
  refine ⟨rank / binade - 1, rank - (rank / binade - 1) * binade, ?_⟩
  simp only [binade] at h ⊢
  omega

/-- The magnitude of a scaled significand. -/
theorem units_scaled (exponent : Nat) {significand : Nat} (hlow : binade ≤ significand)
    (hhigh : significand < 2 * binade) :
    units (exponent * binade + significand) = significand <<< exponent := by
  have hexponent : (exponent * binade + significand) / binade - 1 = exponent := by
    simp only [binade] at hlow hhigh ⊢
    omega
  simp [units, hexponent]

/-- The magnitude after that of a scaled significand, also where a binade ends. -/
theorem units_scaled_succ (exponent : Nat) {significand : Nat} (hlow : binade ≤ significand)
    (hhigh : significand < 2 * binade) :
    units (exponent * binade + significand + 1) = (significand + 1) <<< exponent := by
  by_cases hlast : significand + 1 < 2 * binade
  · rw [Nat.add_assoc, units_scaled exponent (Nat.le_succ_of_le hlow) hlast]
  · have hnext : exponent * binade + significand + 1 = (exponent + 1) * binade + binade := by
      simp only [binade] at hhigh hlast ⊢
      omega
    have hsignificand : significand + 1 = 2 * binade := by omega
    rw [hnext, units_scaled (exponent + 1) (Nat.le_refl _) (by decide), hsignificand,
      Nat.shiftLeft_succ_inside]

/-- The first magnitude of a binade. -/
theorem units_succ_mul_binade (exponent : Nat) :
    units ((exponent + 1) * binade) = binade <<< exponent := by
  rw [Nat.succ_mul, units_scaled exponent (Nat.le_refl _) (by decide)]

theorem units_lt_units_succ (rank : Nat) : units rank < units (rank + 1) := by
  by_cases hsmall : rank < binade
  · have hrank : units rank = rank := units_of_lt (by simp only [binade] at hsmall ⊢; omega)
    have hnext : units (rank + 1) = rank + 1 :=
      units_of_lt (by simp only [binade] at hsmall ⊢; omega)
    omega
  · obtain ⟨exponent, significand, rfl, hlow, hhigh⟩ := exists_eq_scaled (Nat.le_of_not_lt hsmall)
    rw [units_scaled exponent hlow hhigh, units_scaled_succ exponent hlow hhigh, Nat.shiftLeft_eq,
      Nat.shiftLeft_eq]
    exact Nat.mul_lt_mul_of_pos_right (Nat.lt_succ_self _) (Nat.two_pow_pos _)

/-- The magnitudes increase with their ranks. -/
theorem units_strictMono : StrictMono units :=
  strictMono_nat_of_lt_succ units_lt_units_succ

@[simp]
theorem units_zero : units 0 = 0 :=
  units_of_lt (by decide)

/-- Every scaled number below the end of the second binade is a magnitude. -/
theorem exists_units_eq_shiftLeft (exponent : Nat) {significand : Nat}
    (h : significand < 2 * binade) : ∃ rank, units rank = significand <<< exponent := by
  induction exponent generalizing significand with
  | zero => exact ⟨significand, units_of_lt h⟩
  | succ exponent ih =>
      by_cases hlow : binade ≤ significand
      · exact ⟨_, units_scaled (exponent + 1) hlow h⟩
      · have hdouble : 2 * significand < 2 * binade := by omega
        obtain ⟨rank, hrank⟩ := ih hdouble
        exact ⟨rank, hrank.trans (Nat.shiftLeft_succ_inside significand exponent).symm⟩

/-! ## Rounding -/

/-- A number of units that is not below the first binade is a significand scaled by a power of two,
and less than a whole such power. -/
theorem floorRank_eq {magnitude : Nat} (h : binade ≤ magnitude) :
    ∃ exponent significand, floorRank magnitude = exponent * binade + significand ∧
      binade ≤ significand ∧ significand < 2 * binade ∧
      significand <<< exponent ≤ magnitude ∧ magnitude < (significand + 1) <<< exponent := by
  have hbinade : binade = 2 ^ 52 := rfl
  have hzero : magnitude ≠ 0 := by
    simp only [binade] at h
    omega
  have hlog : 52 ≤ magnitude.log2 := (Nat.le_log2 hzero).mpr (hbinade ▸ h)
  refine ⟨magnitude.log2 - 52, magnitude >>> (magnitude.log2 - 52), rfl, ?_⟩
  obtain ⟨exponent, hexponent⟩ := Nat.exists_eq_add_of_le hlog
  have hlow : binade * 2 ^ exponent ≤ magnitude := by
    rw [hbinade, ← Nat.pow_add, ← hexponent]
    exact Nat.log2_self_le hzero
  have hhigh : magnitude < 2 * binade * 2 ^ exponent := by
    have hself := Nat.lt_log2_self (n := magnitude)
    rwa [hexponent, Nat.pow_succ, Nat.pow_add, ← hbinade, Nat.mul_comm _ 2, ← Nat.mul_assoc]
      at hself
  rw [hexponent, Nat.add_sub_cancel_left, Nat.shiftRight_eq_div_pow, Nat.shiftLeft_eq,
    Nat.shiftLeft_eq]
  have hpos : 0 < 2 ^ exponent := Nat.two_pow_pos exponent
  refine ⟨(Nat.le_div_iff_mul_le hpos).mpr hlow, (Nat.div_lt_iff_lt_mul hpos).mpr hhigh,
    Nat.div_mul_le_self _ _, ?_⟩
  rw [Nat.succ_mul]
  exact Nat.lt_div_mul_add hpos

/-- The magnitude of the rank below a number of units is at most that number, and the next one is
greater. -/
theorem units_floorRank (magnitude : Nat) :
    units (floorRank magnitude) ≤ magnitude ∧ magnitude < units (floorRank magnitude + 1) := by
  by_cases hsmall : magnitude < binade
  · have hlog : magnitude.log2 - 52 = 0 := by
      by_cases hzero : magnitude = 0
      · subst hzero
        rfl
      · have hlt : magnitude.log2 < 52 := (Nat.log2_lt hzero).mpr hsmall
        omega
    have hfloor : floorRank magnitude = magnitude := by
      simp only [floorRank, hlog, Nat.zero_mul, Nat.shiftRight_zero, Nat.zero_add]
    have hunits : units magnitude = magnitude :=
      units_of_lt (by simp only [binade] at hsmall ⊢; omega)
    have hnext := units_lt_units_succ magnitude
    rw [hunits] at hnext
    rw [hfloor]
    exact ⟨hunits.le, hnext⟩
  · obtain ⟨exponent, significand, hfloor, hlow, hhigh, hle, hlt⟩ :=
      floorRank_eq (Nat.le_of_not_lt hsmall)
    rw [hfloor, units_scaled exponent hlow hhigh, units_scaled_succ exponent hlow hhigh]
    exact ⟨hle, hlt⟩

/-- The definition of the nearest rank. It is an equation of functions, since the comparison of a
single application with its body would compute with the magnitudes. -/
theorem nearestRank_def :
    nearestRank = fun num den ↦
      let low := floorRank (num / den)
      match compare (2 * num) ((units low + units (low + 1)) * den) with
      | .lt => low
      | .eq => if low % 2 = 0 then low else low + 1
      | .gt => low + 1 :=
  rfl

/-- The nearest rank is that of the magnitude below or the next one. -/
theorem nearestRank_eq_or (num den : Nat) :
    nearestRank num den = floorRank (num / den) ∨
      nearestRank num den = floorRank (num / den) + 1 := by
  rw [nearestRank_def]
  dsimp only
  generalize floorRank (num / den) = low
  generalize compare (2 * num) ((units low + units (low + 1)) * den) = order
  cases order with
  | lt => exact .inl rfl
  | eq => exact (Decidable.em (low % 2 = 0)).imp (if_pos ·) (if_neg ·)
  | gt => exact .inr rfl

/-- Below the midpoint the nearest rank is that of the magnitude below. -/
theorem nearestRank_of_lt {num den : Nat}
    (h : 2 * num < (units (floorRank (num / den)) + units (floorRank (num / den) + 1)) * den) :
    nearestRank num den = floorRank (num / den) := by
  have hcompare := Nat.compare_eq_lt.mpr h
  rw [nearestRank_def]
  dsimp only
  rw [hcompare]

/-- A quotient below one half is rounded to zero. -/
theorem nearestRank_eq_zero {num den : Nat} (h : 2 * num < den) : nearestRank num den = 0 := by
  have hquotient : num / den = 0 := Nat.div_eq_of_lt (by omega)
  have hfloor : floorRank 0 = 0 := rfl
  have hone : units 1 = 1 := units_of_lt (by decide)
  rw [nearestRank_of_lt, hquotient, hfloor]
  rw [hquotient, hfloor, units_zero, hone]
  omega

/-- A common factor does not matter to what a quotient is rounded to. -/
theorem nearestRank_mul_right {factor : Nat} (hfactor : 0 < factor) (num den : Nat) :
    nearestRank (num * factor) (den * factor) = nearestRank num den := by
  have hcompare : ∀ sum, compare (2 * (num * factor)) (sum * (den * factor)) =
      compare (2 * num) (sum * den) := by
    intro sum
    rw [← Nat.mul_assoc, ← Nat.mul_assoc]
    simp only [Nat.compare_eq_ite_lt, Nat.mul_lt_mul_right hfactor]
  rw [nearestRank_def]
  dsimp only
  rw [Nat.mul_div_mul_right num den hfactor, hcompare]

/-- Equal quotients are rounded to the same rank. -/
theorem nearestRank_congr {num den num' den' : Nat} (hden : 0 < den) (hden' : 0 < den')
    (h : num * den' = num' * den) : nearestRank num den = nearestRank num' den' := by
  rw [← nearestRank_mul_right hden' num den, h, Nat.mul_comm den, nearestRank_mul_right hden]

/-- A quotient that is at most a magnitude is not rounded past it. -/
theorem nearestRank_le {num den rank : Nat} (hden : 0 < den) (h : num ≤ units rank * den) :
    nearestRank num den ≤ rank := by
  have hquotient : num / den ≤ units rank := Nat.div_le_of_le_mul (Nat.mul_comm .. ▸ h)
  have hfloor : floorRank (num / den) ≤ rank :=
    units_strictMono.le_iff_le.mp ((units_floorRank (num / den)).1.trans hquotient)
  rcases Nat.lt_or_eq_of_le hfloor with hlt | heq
  · rcases nearestRank_eq_or num den with hnearest | hnearest <;> omega
  · -- The quotient lies below the midpoint above the magnitude.
    have hbelow : 2 * num < (units rank + units (rank + 1)) * den := by
      have hnext := Nat.mul_lt_mul_of_pos_right (units_lt_units_succ rank) hden
      rw [Nat.add_mul]
      omega
    rw [← heq] at hbelow
    exact (nearestRank_of_lt hbelow).trans_le hfloor

/-- A quotient that is at least a magnitude is not rounded below it. -/
theorem le_nearestRank {num den rank : Nat} (hden : 0 < den) (h : units rank * den ≤ num) :
    rank ≤ nearestRank num den := by
  have hquotient : units rank ≤ num / den := (Nat.le_div_iff_mul_le hden).mpr h
  have hfloor : rank < floorRank (num / den) + 1 :=
    units_strictMono.lt_iff_lt.mp (hquotient.trans_lt (units_floorRank (num / den)).2)
  rcases nearestRank_eq_or num den with hnearest | hnearest <;> omega

/-- A quotient that is a magnitude is rounded to it. -/
theorem nearestRank_units_mul {den : Nat} (hden : 0 < den) (rank : Nat) :
    nearestRank (units rank * den) den = rank :=
  Nat.le_antisymm (nearestRank_le hden (Nat.le_refl _)) (le_nearestRank hden (Nat.le_refl _))

/-- A quotient between two magnitudes is rounded to one between them. -/
theorem units_nearestRank_mem {num den low high : Nat} (hden : 0 < den)
    (hlow : ∃ rank, units rank = low) (hhigh : ∃ rank, units rank = high)
    (hle : low * den ≤ num) (hge : num ≤ high * den) :
    low ≤ units (nearestRank num den) ∧ units (nearestRank num den) ≤ high := by
  obtain ⟨lowRank, rfl⟩ := hlow
  obtain ⟨highRank, rfl⟩ := hhigh
  exact ⟨units_strictMono.monotone (le_nearestRank hden hle),
    units_strictMono.monotone (nearestRank_le hden hge)⟩

end StyleLang.Binary64
