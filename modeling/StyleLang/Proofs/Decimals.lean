import Mathlib.Algebra.Group.Nat.Defs
import StyleLang.Decimal.Shortest
import StyleLang.Proofs.Numerals

/-!
# Rounding of decimals

The rank of a decimal is that of its quotient, also where its exponent alone decides
(`Decimal.rank_eq`), so decimals of one value have one rank (`Decimal.rank_congr`). The shortest
decimal of a magnitude has the rank of the magnitude (`Decimal.rank_shortest`): every decimal that
the search finds was read back, and the exact one, which stands in where the search finds none, is
the magnitude itself.
-/

namespace StyleLang

open Binary64

/-- Infinity stands at `2 ^ 1024`. -/
theorem Binary64.units_overflowRank : units overflowRank = unitsPerOne <<< 1024 :=
  ((units_succ_mul_binade 2046).trans (Nat.shiftLeft_add 1 52 2046).symm).trans
    (Nat.shiftLeft_add 1 1074 1024)

namespace Decimal

/-! ## Quotients -/

/-- The quotient of a decimal that is a natural number. -/
theorem ratio_natCast (significand k : Nat) :
    ratio ⟨significand, k⟩ = (significand * 10 ^ k, 1) := by
  simp [ratio]

/-- The quotient of a decimal with digits after its point. -/
theorem ratio_neg_natCast (significand k : Nat) :
    ratio ⟨significand, -k⟩ = (significand, 10 ^ k) := by
  simp [ratio]

theorem ratio_snd_pos (d : Decimal) : 0 < d.ratio.2 :=
  Nat.pow_pos (by decide)

theorem two_pow_le_ten_pow {m n : Nat} (h : m ≤ 3 * n) : 2 ^ m ≤ 10 ^ n :=
  calc
    2 ^ m ≤ 2 ^ (3 * n) := Nat.pow_le_pow_right (by decide) h
    _ = 8 ^ n := Nat.pow_mul 2 3 n
    _ ≤ 10 ^ n := Nat.pow_le_pow_left (by decide) n

/-- The quotient of a decimal with a small exponent is rounded to zero. -/
theorem nearestRank_of_small {d : Decimal} (h : d.exponent + d.significand.log2 < -400) :
    nearestRank (d.ratio.1 * unitsPerOne) d.ratio.2 = 0 := by
  obtain ⟨significand, exponent⟩ := d
  dsimp only at h
  obtain ⟨k, rfl⟩ : ∃ k : Nat, exponent = -k := ⟨(-exponent).toNat, by omega⟩
  obtain ⟨p, hp, hunits⟩ : ∃ p, p = 1074 ∧ unitsPerOne = 1 <<< p := ⟨_, rfl, rfl⟩
  rw [Nat.one_shiftLeft] at hunits
  rw [ratio_neg_natCast]
  apply nearestRank_eq_zero
  calc
    2 * (significand * unitsPerOne) = significand * 2 ^ (p + 1) := by
      rw [hunits, Nat.mul_left_comm, ← Nat.pow_succ']
    _ < 2 ^ (significand.log2 + 1) * 2 ^ (p + 1) :=
      Nat.mul_lt_mul_of_pos_right Nat.lt_log2_self (Nat.two_pow_pos _)
    _ = 2 ^ (significand.log2 + 1 + (p + 1)) := (Nat.pow_add 2 _ _).symm
    _ ≤ 10 ^ k := two_pow_le_ten_pow (by omega)

/-- The quotient of a decimal with a great exponent is rounded to infinity, unless it is zero. -/
theorem overflowRank_le_of_great {d : Decimal} (hsignificand : d.significand ≠ 0)
    (h : 400 < d.exponent) : overflowRank ≤ nearestRank (d.ratio.1 * unitsPerOne) d.ratio.2 := by
  obtain ⟨significand, exponent⟩ := d
  dsimp only at h
  obtain ⟨k, rfl⟩ : ∃ k : Nat, exponent = k := ⟨exponent.toNat, by omega⟩
  obtain ⟨p, hp, hunits⟩ : ∃ p, p = 1024 ∧ units overflowRank = unitsPerOne <<< p :=
    ⟨_, rfl, units_overflowRank⟩
  rw [ratio_natCast]
  apply le_nearestRank Nat.one_pos
  calc
    units overflowRank * 1 = 2 ^ p * unitsPerOne := by
      rw [hunits, Nat.mul_one, Nat.shiftLeft_eq, Nat.mul_comm]
    _ ≤ 10 ^ k * unitsPerOne := Nat.mul_le_mul_right _ (two_pow_le_ten_pow (by omega))
    _ ≤ significand * 10 ^ k * unitsPerOne :=
      Nat.mul_le_mul_right _ (Nat.le_mul_of_pos_left _ (Nat.pos_of_ne_zero hsignificand))

/-- The rank of a decimal is the one nearest to its quotient, up to that of infinity. -/
theorem rank_eq (d : Decimal) :
    d.rank = min overflowRank (nearestRank (d.ratio.1 * unitsPerOne) d.ratio.2) := by
  rw [rank]
  split
  · rename_i h
    have hnearest : nearestRank (d.ratio.1 * unitsPerOne) d.ratio.2 = 0 := by
      rcases h with hzero | hsmall
      · rw [ratio, hzero, Nat.zero_mul, Nat.zero_mul]
        exact nearestRank_eq_zero d.ratio_snd_pos
      · exact nearestRank_of_small hsmall
    rw [hnearest, Nat.min_zero]
  · rename_i h
    split
    · rename_i hgreat
      exact (Nat.min_eq_left (overflowRank_le_of_great (fun hzero ↦ h (.inl hzero)) hgreat)).symm
    · rfl

/-- Decimals of one value have one rank. -/
theorem rank_congr {d e : Decimal} (h : d.ratio.1 * e.ratio.2 = e.ratio.1 * d.ratio.2) :
    d.rank = e.rank := by
  have hunits : d.ratio.1 * unitsPerOne * e.ratio.2 = e.ratio.1 * unitsPerOne * d.ratio.2 := by
    rw [Nat.mul_right_comm, h, Nat.mul_right_comm]
  rw [rank_eq, rank_eq, nearestRank_congr d.ratio_snd_pos e.ratio_snd_pos hunits]

/-! ## Shortest decimals -/

/-- A zero at the end of a significand can be moved to the exponent. -/
theorem rank_mul_ten (significand : Nat) (exponent : Int) :
    rank ⟨significand * 10, exponent⟩ = rank ⟨significand, exponent + 1⟩ := by
  apply rank_congr
  by_cases hexponent : 0 ≤ exponent
  · obtain ⟨k, rfl⟩ := Int.eq_ofNat_of_zero_le hexponent
    have hsucc : (k : Int) + 1 = (k + 1 : Nat) := rfl
    rw [hsucc, ratio_natCast, ratio_natCast]
    dsimp only
    rw [Nat.pow_succ', Nat.mul_assoc significand]
  · obtain ⟨k, rfl⟩ : ∃ k : Nat, exponent = -(k + 1 : Nat) := ⟨(-exponent - 1).toNat, by omega⟩
    have hpred : -((k + 1 : Nat) : Int) + 1 = -k := by omega
    rw [hpred, ratio_neg_natCast, ratio_neg_natCast]
    dsimp only
    rw [Nat.pow_succ', Nat.mul_assoc significand]

/-- The rank of a decimal does not depend on the zeros at the end of its significand. -/
theorem rank_strip (d : Decimal) : d.strip.rank = d.rank := by
  fun_induction strip d with
  | case1 d h ih =>
      rw [ih, ← rank_mul_ten, Nat.div_mul_cancel (Nat.dvd_of_mod_eq_zero h.2)]
  | case2 => rfl

/-- The exact decimal of a magnitude has its rank. -/
theorem rank_exact (rank : Fin overflowRank) : (exact rank).rank = rank := by
  have hscaled : ∀ (k : Nat) (exponent : Int), unitsPerOne = 1 <<< k → exponent = -k →
      Decimal.rank ⟨units rank * .pow 5 k, exponent⟩ = rank := by
    rintro k _ hunits rfl
    have hten : 10 ^ k = .pow 5 k * unitsPerOne := by
      rw [hunits, Nat.one_shiftLeft, Nat.pow_eq, ← Nat.mul_pow]
    have hpos : 0 < .pow 5 k * unitsPerOne := Nat.mul_pos (Nat.pow_pos (by decide)) unitsPerOne_pos
    rw [rank_eq, ratio_neg_natCast, hten, Nat.mul_assoc, nearestRank_units_mul hpos]
    exact Nat.min_eq_right rank.isLt.le
  -- With a variable as the exponent no power is computed.
  rw [Decimal.exact]
  generalize hk : 1074 = k
  exact hscaled k (-1074) (congrArg (1 <<< ·) hk) (congrArg (fun n : Nat ↦ -(n : Int)) hk)

/-- What the search finds on a grid was read back. -/
theorem rank_of_onGrid? {tie : Tie} {rank : Nat} {exponent : Int} {d : Decimal}
    (h : onGrid? tie rank exponent = some d) : d.rank = rank := by
  unfold onGrid? at h
  dsimp only at h
  split at h
  · rename_i hbelow
    split at h
    · rename_i habove
      cases h
      exact habove.1
    · cases h
      exact hbelow
  · split at h
    · rename_i habove
      cases h
      exact habove
    · cases h

/-- The shortest decimal of a magnitude has its rank. -/
theorem rank_shortest (tie : Tie) (rank : Fin overflowRank) : (shortest tie rank).rank = rank := by
  rw [shortest]
  split
  · rename_i hzero
    rw [Decimal.rank, if_pos (.inl rfl), hzero]
  · rw [rank_strip]
    cases hfound : (List.range 20).findSome? fun (finer : Nat) ↦
        onGrid? tie rank (coarsest rank - finer) with
    | none => exact rank_exact rank
    | some d =>
        obtain ⟨finer, -, hd⟩ := List.exists_of_findSome?_eq_some hfound
        exact rank_of_onGrid? hd

end Decimal

end StyleLang
