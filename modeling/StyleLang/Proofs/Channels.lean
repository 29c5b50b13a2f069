import StyleLang.Color.Css
import StyleLang.Eval.Coercion
import StyleLang.Proofs.Numerals

/-!
# Channels of colors

Every color that is read, from a CSS text or from the channels of an array, has all its channels
between zero and one (`Color.inRange_of_ofCss?`, `Value.inRange_of_toColor?`). A channel is a
quotient of a number up to 255, which is not rounded past one, and a number out of its range, among
them NaN, is refused before.
-/

namespace StyleLang

namespace Binary64

/-! ## Quotients by 255 -/

/-- A number lies between two bounds if its place lies between theirs. -/
theorem within_iff {x low high : Binary64} :
    x.within low high = true ↔ ∃ l p h, low.place? = some l ∧ x.place? = some p ∧
      high.place? = some h ∧ l ≤ p ∧ p ≤ h := by
  rw [within, atMost, atMost]
  cases low.place? <;> cases x.place? <;> cases high.place? <;> simp

/-- The rank of 255, in the binade that starts at 128. -/
def byteRank : Fin overflowRank :=
  ⟨1029 * binade + 255 * (binade / 128), by decide⟩

theorem units_byteRank : units byteRank = 255 * unitsPerOne := by
  have hshift : ∀ exponent, (255 * 1 <<< 45) <<< exponent = 255 * 1 <<< (45 + exponent) := by
    intro exponent
    rw [Nat.shiftLeft_add, Nat.shiftLeft_eq _ exponent, Nat.shiftLeft_eq _ exponent, Nat.mul_assoc]
  have hlow : binade ≤ 255 * (binade / 128) := by decide
  have hhigh : 255 * (binade / 128) < 2 * binade := by decide
  exact (units_scaled 1029 hlow hhigh).trans (hshift 1029)

theorem byte_eq : (255 : Binary64) = finite false byteRank :=
  ofNat_of_units units_byteRank

/-- A number lies between zero and a finite bound if and only if it is finite, its magnitude is at
most that of the bound, and it has no sign unless it is zero. -/
theorem within_zero_iff {x : Binary64} {bound : Fin overflowRank} :
    x.within 0 (finite false bound) = true ↔ ∃ negative rank, x = finite negative rank ∧
      units rank ≤ units bound ∧ (negative = false ∨ units rank = 0) := by
  have hmagnitude : ∀ {negative magnitude}, signed negative magnitude ≤ units bound →
      0 ≤ signed negative magnitude → magnitude ≤ units bound := by
    intro negative magnitude hhigh hlow
    have habs := natAbs_signed negative magnitude
    omega
  rw [within_iff]
  constructor
  · rintro ⟨_, place, _, hzero, hplace, hbound, hlow, hhigh⟩
    obtain rfl := Option.some.inj (place?_zero.symm.trans hzero)
    obtain rfl := Option.some.inj hbound
    cases x with
    | nan => cases hplace
    | infinite negative =>
        obtain rfl := Option.some.inj hplace
        have hle := hmagnitude hhigh hlow
        have hlt : units bound < units overflowRank := units_strictMono bound.isLt
        omega
    | finite negative rank =>
        obtain rfl := Option.some.inj hplace
        exact ⟨negative, rank, rfl, hmagnitude hhigh hlow, signed_nonneg_iff.mp hlow⟩
  · rintro ⟨negative, rank, rfl, hle, hsign⟩
    refine ⟨_, _, _, place?_zero, rfl, rfl, signed_nonneg_iff.mpr hsign, ?_⟩
    show signed negative (units rank) ≤ units bound
    unfold signed
    split <;> omega

theorem div_finite_of_pos {s t : Bool} {a b : Fin overflowRank} (h : b.val ≠ 0) :
    finite s a / finite t b = ofRatio (s != t) (units a) (units b) :=
  if_neg h

/-- The quotient of a magnitude up to 255 is not rounded past one, and that of zero stays zero. -/
theorem nearestRank_byte {magnitude : Nat} (h : magnitude ≤ units byteRank) :
    nearestRank (magnitude * unitsPerOne) (units byteRank) ≤ oneRank ∧
      (magnitude = 0 → nearestRank (magnitude * unitsPerOne) (units byteRank) = 0) := by
  have hpos : 0 < units byteRank := by
    rw [← units_zero]
    exact units_strictMono (by decide)
  constructor
  · apply nearestRank_le hpos
    rw [units_oneRank, Nat.mul_comm]
    exact Nat.mul_le_mul_left unitsPerOne h
  · intro hzero
    rw [hzero, Nat.zero_mul]
    exact Nat.le_zero.mp (nearestRank_le hpos (Nat.zero_le _))

/-- A number from zero to 255, divided by 255, is a number from zero to one. -/
theorem within_div_byte {x : Binary64} (h : x.within 0 255 = true) :
    (x / 255).within 0 1 = true := by
  rw [byte_eq] at h
  obtain ⟨negative, rank, rfl, hle, hsign⟩ := within_zero_iff.mp h
  obtain ⟨hone, hzero⟩ := nearestRank_byte hle
  have hquotient : finite negative rank / 255 =
      ofRank negative (nearestRank (units rank * unitsPerOne) (units byteRank)) := by
    rw [byte_eq, div_finite_of_pos (by decide), Bool.bne_false, ofRatio]
  rw [hquotient, one_eq, within_zero_iff]
  generalize nearestRank (units rank * unitsPerOne) (units byteRank) = result at hone hzero
  have hlt : result < overflowRank := Nat.lt_of_le_of_lt hone oneRank.isLt
  refine ⟨negative, ⟨result, hlt⟩, ofRank_of_lt negative ⟨result, hlt⟩,
    units_strictMono.monotone hone, hsign.imp_right fun hrank ↦ ?_⟩
  exact (congrArg units (hzero hrank)).trans units_zero

end Binary64

namespace Color

/-! ## Colors that are read -/

/-- The channels of a color. -/
def channels (c : Color) : List Binary64 :=
  [c.red, c.green, c.blue, c.alpha]

/-- All channels are between zero and one. -/
def InRange (c : Color) : Prop :=
  ∀ channel ∈ c.channels, channel.within 0 1 = true

/-- A channel in its range is a number. -/
theorem InRange.not_isNaN {c : Color} (h : c.InRange) :
    ∀ channel ∈ c.channels, channel.isNaN = false := by
  intro channel hchannel
  obtain ⟨_, _, _, _, hplace, _⟩ := Binary64.within_iff.mp (h channel hchannel)
  cases channel with
  | nan => cases hplace
  | _ => rfl

/-- A color of channels up to 255 is in range, since the others are refused. -/
theorem inRange_of_ofRgba8? {red green blue alpha : Binary64} {c : Color}
    (h : ofRgba8? red green blue alpha = some c) : c.InRange := by
  unfold ofRgba8? at h
  split at h
  · rename_i hwithin
    simp only [Bool.and_eq_true] at hwithin
    obtain ⟨⟨⟨hred, hgreen⟩, hblue⟩, halpha⟩ := hwithin
    obtain rfl := Option.some.inj h
    simp only [InRange, channels, List.forall_mem_cons, List.not_mem_nil, false_implies,
      implies_true, and_true]
    exact ⟨Binary64.within_div_byte hred, Binary64.within_div_byte hgreen,
      Binary64.within_div_byte hblue, halpha⟩
  · cases h

theorem inRange_of_ofHex? {text : List Char} {c : Color} (h : ofHex? text = some c) :
    c.InRange := by
  unfold ofHex? at h
  split at h
  · exact inRange_of_ofRgba8? h
  · exact inRange_of_ofRgba8? h
  · exact inRange_of_ofRgba8? h
  · exact inRange_of_ofRgba8? h
  · cases h

theorem inRange_of_ofRgb? {text : List Char} {c : Color} (h : ofRgb? text = some c) :
    c.InRange := by
  unfold ofRgb? at h
  split at h
  · simp only [bind, Option.bind_eq_some_iff] at h
    obtain ⟨_, _, _, _, _, _, h⟩ := h
    exact inRange_of_ofRgba8? h
  · cases h

theorem inRange_of_ofRgba? {text : List Char} {c : Color} (h : ofRgba? text = some c) :
    c.InRange := by
  unfold ofRgba? at h
  split at h
  · simp only [bind, Option.bind_eq_some_iff] at h
    obtain ⟨_, _, _, _, _, _, _, _, h⟩ := h
    exact inRange_of_ofRgba8? h
  · cases h

theorem inRange_of_ofName? {name : String} {c : Color} (h : ofName? name = some c) :
    c.InRange := by
  obtain ⟨_, _, h⟩ := Option.bind_eq_some_iff.mp h
  exact inRange_of_ofRgba8? h

/-- Every color in CSS notation is in range. -/
theorem inRange_of_ofCss? {text : String} {c : Color} (h : ofCss? text = some c) : c.InRange := by
  unfold ofCss? ofNormalized? at h
  split at h
  · exact inRange_of_ofHex? h
  · exact inRange_of_ofRgba? h
  · exact inRange_of_ofRgb? h
  · exact inRange_of_ofName? h

end Color

/-- A value that is converted to a color is a color before, or the color is in range. -/
theorem Value.inRange_of_toColor? {value : Value} {c : Color} (h : value.toColor? = some c) :
    value = .color c ∨ c.InRange := by
  unfold toColor? at h
  split at h
  · exact .inl (congrArg Value.color (Option.some.inj h))
  · exact .inr (Color.inRange_of_ofCss? h)
  · exact .inr (Color.inRange_of_ofRgba8? h)
  · exact .inr (Color.inRange_of_ofRgba8? h)
  · cases h

end StyleLang
