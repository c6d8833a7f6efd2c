import Mathlib.Algebra.Order.Field.Basic
import Mathlib.Algebra.Order.Ring.Abs
import Mathlib.Data.Nat.Log
import Mathlib.Data.Rat.Cast.Order
import Mathlib.Tactic.FieldSimp
import Mathlib.Tactic.Linarith
import Mathlib.Tactic.Ring
import ScriptTypes.Confidence.Levels

/-!
# The arithmetic of confidences

Confidences are in linear order. A product of doubles is rounded, but not beyond a double that the
exact product stays below. Each factor of a product of confidences is such a double, so no
confidence grows when it fades. Nor is what exceeds half of the smallest double rounded to zero, so
none is lost altogether. In a text two confidences look alike if and only if their exact values
round to the same millionth.

* `Binary64.RoundsTo`: rounding to the nearest whole number, a half to the even one.
* `Binary64.roundsTo_roundHalfEven`: quotients are rounded so.
* `Binary64.magnitude_mono`: the order of patterns is the order of values.
* `Binary64.nearest_le`: rounding does not go beyond a double above the exact value.
* `Confidence.mul_le_left`, `Confidence.mul_le_right`: a product is at most each of its factors.
* `Confidence.mul_pos`: a product is positive if one factor is and the other exceeds one half.
* `Confidence.percent_le_signatureMax`: the levels that a guess may have without being certain.
* `Confidence.sixPlaces_eq_iff`: which confidences are printed alike.
-/

namespace ScriptTypes

namespace Binary64

/-! ## Quotients -/

/-- The whole number is within one half of the value, and even if the value is half away from it. -/
structure RoundsTo (x : ℚ) (n : ℕ) : Prop where
  within : |x - n| ≤ 1 / 2
  even : |x - n| = 1 / 2 → Even n

namespace RoundsTo

variable {x rest : ℚ} {m n : ℕ}

/-- A value rounds to one whole number only. -/
theorem unique (hm : RoundsTo x m) (hn : RoundsTo x n) : m = n := by
  wlog hlt : m < n generalizing m n with hsymm
  · by_contra hne
    exact hne (hsymm hn hm (by omega)).symm
  have hbelow := (abs_le.1 hm.within).2
  have habove := (abs_le.1 hn.within).1
  have hnext : (m : ℚ) + 1 ≤ n := by exact_mod_cast hlt
  -- The value is half away from both, so they are neighbours, and both are even.
  have hm' : x - m = 1 / 2 := by linarith
  have hn' : x - n = -(1 / 2) := by linarith
  obtain rfl : n = m + 1 := by
    have hcast : (n : ℚ) = m + 1 := by linarith
    exact_mod_cast hcast
  have heven := hm.even (by rw [hm', abs_of_pos one_half_pos])
  have heven' := hn.even (by rw [hn', abs_neg, abs_of_pos one_half_pos])
  exact absurd heven (Nat.even_add_one.1 heven')

theorem down (hnonneg : 0 ≤ rest) (hle : rest ≤ 1 / 2) (heven : rest = 1 / 2 → Even n) :
    RoundsTo (n + rest) n := by
  have hdistance : |n + rest - n| = rest := by
    rw [add_sub_cancel_left, abs_of_nonneg hnonneg]
  exact ⟨hdistance.trans_le hle, fun htie => heven (hdistance.symm.trans htie)⟩

theorem up (hle : rest ≤ 1) (hge : 1 / 2 ≤ rest) (heven : rest = 1 / 2 → Even (n + 1)) :
    RoundsTo (n + rest) (n + 1) := by
  have hdistance : |n + rest - (n + 1 : ℕ)| = 1 - rest := by
    rw [Nat.cast_succ, abs_sub_comm, abs_of_nonneg] <;> linarith
  refine ⟨hdistance.trans_le (by linarith), fun htie => heven ?_⟩
  linarith [hdistance.symm.trans htie]

end RoundsTo

/-- Quotients are rounded to the nearest whole number, a half to the even one. -/
theorem roundsTo_roundHalfEven (num : ℕ) {den : ℕ} (hden : 0 < den) :
    RoundsTo (num / den) (roundHalfEven num den) := by
  have hpos : (0 : ℚ) < den := Nat.cast_pos.2 hden
  have hsplit : (num : ℚ) / den = (num / den : ℕ) + (num % den : ℕ) / (den : ℚ) := by
    have hnum : (num : ℚ) = den * (num / den : ℕ) + (num % den : ℕ) := by
      exact_mod_cast (Nat.div_add_mod num den).symm
    rw [div_eq_iff hpos.ne', hnum]
    field_simp
  have hover : den < 2 * (num % den) ↔ 1 / 2 < (num % den : ℕ) / (den : ℚ) := by
    rw [div_lt_div_iff₀ two_pos hpos, one_mul, mul_comm]
    exact_mod_cast Iff.rfl
  have hhalf : 2 * (num % den) = den ↔ (num % den : ℕ) / (den : ℚ) = 1 / 2 := by
    rw [div_eq_div_iff hpos.ne' two_ne_zero, one_mul, mul_comm _ (2 : ℚ)]
    exact_mod_cast Iff.rfl
  rw [hsplit]
  unfold roundHalfEven
  split
  · rename_i hup
    rw [hover, hhalf] at hup
    refine .up ?_ ?_ fun htie => ?_
    · exact (div_le_one hpos).2 (Nat.cast_le.2 (Nat.mod_lt num hden).le)
    · rcases hup with hmore | ⟨htie, -⟩
      · exact hmore.le
      · exact htie.ge
    · have hodd := (hup.resolve_left htie.not_gt).2
      exact Nat.even_iff.2 (by omega)
  · rename_i hdown
    rw [hover, hhalf, not_or, not_and, not_lt] at hdown
    refine .down (by positivity) hdown.1 fun htie => ?_
    have hnotodd := hdown.2 htie
    exact Nat.even_iff.2 (by omega)

theorem roundHalfEven_le {num den bound : Nat} (h : num ≤ bound * den) :
    roundHalfEven num den ≤ bound := by
  rcases Nat.eq_zero_or_pos den with rfl | hden
  · obtain rfl : num = 0 := by simpa using h
    simp [roundHalfEven]
  have hquotient : num / den ≤ bound := Nat.div_le_of_le_mul (by rwa [Nat.mul_comm])
  unfold roundHalfEven
  split
  · rename_i hup
    rcases Nat.lt_or_eq_of_le hquotient with hlt | heq
    · exact hlt
    · -- The quotient is the bound, so nothing is left to round up.
      have hsplit := Nat.div_add_mod num den
      rw [heq, Nat.mul_comm den bound] at hsplit
      omega
  · exact hquotient

theorem roundHalfEven_pos {num den : Nat} (h : den < 2 * num) : 0 < roundHalfEven num den := by
  unfold roundHalfEven
  split
  · exact Nat.succ_pos _
  · rename_i hdown
    rcases Nat.lt_or_ge num den with hsmall | hlarge
    · rw [Nat.mod_eq_of_lt hsmall] at hdown
      exact absurd (.inl h) hdown
    · rcases Nat.eq_zero_or_pos den with rfl | hden
      · rw [Nat.mod_zero] at hdown
        exact absurd (.inl h) hdown
      · exact Nat.div_pos hlarge hden

/-! ## Doubles -/

/-- What is more than half a unit is not rounded to zero. -/
theorem nearest_pos {num den : Nat} (h : den < 2 * num) : 0 < nearest num den := by
  show 0 < ((num / den).log2 - 52) * binade + roundHalfEven num (den <<< ((num / den).log2 - 52))
  cases (num / den).log2 - 52 with
  | zero => simpa using roundHalfEven_pos h
  | succ k =>
    have hbinade : 0 < (k + 1) * binade := Nat.mul_pos (Nat.succ_pos k) (by decide)
    omega

/-- A pattern is an exponent and a significand, and its magnitude is the significand moved by the
exponent. Only subnormal doubles have a short significand. -/
theorem exists_significand (pattern : Nat) :
    ∃ exponent significand, pattern = exponent * binade + significand ∧
      magnitude pattern = significand * 2 ^ exponent ∧ significand < 2 * binade ∧
      (exponent = 0 ∨ binade ≤ significand) := by
  have hbinade : 0 < binade := by decide
  by_cases hsubnormal : pattern < binade
  · exact ⟨0, pattern, by omega, by simp [magnitude, hsubnormal], by omega, .inl rfl⟩
  · have hmod := Nat.mod_lt pattern hbinade
    have hpos : 1 ≤ pattern / binade := (Nat.le_div_iff_mul_le hbinade).2 (by omega)
    obtain ⟨exponent, hexponent⟩ : ∃ k, pattern / binade = k + 1 :=
      ⟨pattern / binade - 1, by omega⟩
    refine ⟨exponent, binade + pattern % binade, ?_, ?_, by omega, .inr (by omega)⟩
    · have hsplit := Nat.div_add_mod pattern binade
      rw [hexponent, Nat.mul_comm, Nat.add_mul] at hsplit
      omega
    · rw [magnitude, if_neg hsubnormal, hexponent, Nat.shiftLeft_eq, Nat.add_sub_cancel]

theorem magnitude_pos {pattern : Nat} (h : 0 < pattern) : 0 < magnitude pattern := by
  obtain ⟨exponent, significand, hpattern, hmagnitude, -, hnormal⟩ := exists_significand pattern
  have hbinade : 0 < binade := by decide
  have hsignificand : 0 < significand := by
    rcases hnormal with rfl | hnormal <;> omega
  rw [hmagnitude]
  exact Nat.mul_pos hsignificand (Nat.two_pow_pos exponent)

/-- The order of patterns is the order of values. -/
theorem magnitude_mono {pattern other : Nat} (h : pattern ≤ other) :
    magnitude pattern ≤ magnitude other := by
  obtain ⟨e, m, hpattern, hmagnitude, hshort, hnormal⟩ := exists_significand pattern
  obtain ⟨e', m', hpattern', hmagnitude', hshort', hnormal'⟩ := exists_significand other
  rw [hmagnitude, hmagnitude']
  rw [hpattern, hpattern'] at h
  rcases Nat.lt_trichotomy e e' with hlt | rfl | hgt
  · calc m * 2 ^ e ≤ 2 * binade * 2 ^ e := Nat.mul_le_mul_right _ (by omega)
      _ = binade * 2 ^ (e + 1) := by ring
      _ ≤ m' * 2 ^ e' :=
        Nat.mul_le_mul (by omega) (Nat.pow_le_pow_right (by decide) (by omega))
  · exact Nat.mul_le_mul_right _ (by omega)
  · have hbinades := Nat.mul_le_mul_right binade (show e' + 1 ≤ e from hgt)
    rw [Nat.add_mul] at hbinades
    omega

/-- Rounding does not go beyond a double above the exact value. -/
theorem nearest_le {num den pattern : Nat} (h : num ≤ magnitude pattern * den) :
    nearest num den ≤ pattern := by
  obtain ⟨exponent, significand, hpattern, hmagnitude, hshort, hnormal⟩ :=
    exists_significand pattern
  rcases Nat.eq_zero_or_pos den with rfl | hden
  · obtain rfl : num = 0 := by simpa using h
    simp [nearest, roundHalfEven]
  rw [hmagnitude] at h
  have hbinade : binade = 2 ^ 52 := rfl
  have hquotient : num / den ≤ significand * 2 ^ exponent :=
    Nat.div_le_of_le_mul (by rwa [Nat.mul_comm])
  show ((num / den).log2 - 52) * binade + roundHalfEven num (den <<< ((num / den).log2 - 52)) ≤ _
  rw [Nat.shiftLeft_eq]
  generalize hk : (num / den).log2 - 52 = k
  -- The exponent of the rounded value is at most that of the bound.
  have hexponent : k ≤ exponent := by
    by_contra hlarge
    have hlog : exponent + 53 ≤ (num / den).log2 := by omega
    have hne : num / den ≠ 0 := by
      intro hzero
      rw [hzero, Nat.log2_zero] at hlog
      omega
    have hpower := (Nat.le_log2 hne).1 hlog
    have hbound : significand * 2 ^ exponent < 2 ^ (exponent + 53) := by
      rw [Nat.pow_add, Nat.mul_comm]
      exact Nat.mul_lt_mul_of_pos_left (by omega) (Nat.two_pow_pos exponent)
    omega
  rcases Nat.lt_or_eq_of_le hexponent with hlt | rfl
  · -- In a lower binade even the largest significand stays below the bound.
    have hsignificand : roundHalfEven num (den * 2 ^ k) ≤ 2 * binade := by
      have hpower : num / den < 2 ^ (k + 53) := Nat.lt_of_lt_of_le Nat.lt_log2_self
        (Nat.pow_le_pow_right (by decide) (by omega))
      refine roundHalfEven_le (Nat.le_of_lt ?_)
      calc num < 2 ^ (k + 53) * den := (Nat.div_lt_iff_lt_mul hden).1 hpower
        _ = 2 * binade * (den * 2 ^ k) := by rw [hbinade]; ring
    have hbinades : (k + 2) * binade ≤ (exponent + 1) * binade :=
      Nat.mul_le_mul_right _ (by omega)
    rw [Nat.add_mul, Nat.add_mul] at hbinades
    omega
  · have hrounded : roundHalfEven num (den * 2 ^ k) ≤ significand := by
      refine roundHalfEven_le ?_
      calc num ≤ significand * 2 ^ k * den := h
        _ = significand * (den * 2 ^ k) := by ring
    omega

end Binary64

namespace Confidence

open Binary64

/-! ## Order -/

theorem pattern_injective : Function.Injective pattern := by
  rintro ⟨_, _⟩ ⟨_, _⟩ rfl
  rfl

instance : Ord Confidence := ⟨fun a b => compare a.pattern b.pattern⟩

instance : LinearOrder Confidence :=
  pattern_injective.linearOrder pattern Iff.rfl Iff.rfl
    (fun a b => (apply_ite pattern (a ≤ b) a b).trans (min_def _ _).symm)
    (fun a b => (apply_ite pattern (a ≤ b) b a).trans (max_def _ _).symm) fun _ _ => rfl

/-! ## Products -/

/-- The value of a confidence is at most one. -/
theorem magnitude_le_unitsPerOne (c : Confidence) : magnitude c.pattern ≤ unitsPerOne := by
  have hone : magnitude onePattern = unitsPerOne := by decide +kernel
  exact hone ▸ magnitude_mono c.le_one

/-- A product is at most its second factor. -/
theorem mul_le_right (c d : Confidence) : c * d ≤ d := by
  refine Nat.le_trans (Nat.min_le_left _ _) (nearest_le ?_)
  rw [Nat.mul_comm]
  exact Nat.mul_le_mul_left _ c.magnitude_le_unitsPerOne

/-- A product is at most its first factor. -/
theorem mul_le_left (c d : Confidence) : c * d ≤ c :=
  Nat.le_trans (Nat.min_le_left _ _)
    (nearest_le (Nat.mul_le_mul_left _ d.magnitude_le_unitsPerOne))

theorem upToOne_pos {pattern : Nat} (h : 0 < pattern) : zero < upToOne pattern :=
  Nat.lt_min.2 ⟨h, by decide⟩

theorem percent_pos {n : Nat} (h : 0 < n) : zero < percent n := by
  have hhundred : 100 < 2 * unitsPerOne := by decide +kernel
  refine upToOne_pos (nearest_pos (Nat.lt_of_lt_of_le hhundred ?_))
  exact Nat.mul_le_mul_left 2 (Nat.le_mul_of_pos_left _ h)

/-- However little confidence there is, a factor of more than one half leaves some of it. -/
theorem mul_pos {c d : Confidence} (hc : zero < c) (hd : unitsPerOne < 2 * magnitude d.pattern) :
    zero < c * d := by
  refine upToOne_pos (nearest_pos (Nat.lt_of_lt_of_le hd ?_))
  exact Nat.mul_le_mul_left 2 (Nat.le_mul_of_pos_left _ (magnitude_pos hc))

/-- The levels that a guess may have without being certain. -/
theorem percent_le_signatureMax {n : Nat} (h : n ≤ 95) : percent n ≤ signatureMax := by
  have hbelow : 94 * unitsPerOne ≤ magnitude signatureMax.pattern * 100 := by decide +kernel
  rcases Nat.lt_or_eq_of_le h with hlt | rfl
  · refine Nat.le_trans (Nat.min_le_left _ _) (nearest_le (Nat.le_trans ?_ hbelow))
    exact Nat.mul_le_mul_right _ (by omega)
  · exact le_refl _

/-- A confidence that faded is worth no more than a signature. -/
theorem mul_percent_le_signatureMax {c : Confidence} {n : Nat} (h : n ≤ 95) :
    c * percent n ≤ signatureMax := (mul_le_right c _).trans (percent_le_signatureMax h)

/-! ## Texts -/

/-- The exact value. -/
def value (c : Confidence) : ℚ := magnitude c.pattern / unitsPerOne

theorem roundsTo_millionths (c : Confidence) : RoundsTo (c.value * 10 ^ 6) c.millionths := by
  have hpos : 0 < unitsPerOne := by decide +kernel
  have hvalue : c.value * 10 ^ 6 = (magnitude c.pattern * 1000000 : ℕ) / (unitsPerOne : ℚ) := by
    rw [value, Nat.cast_mul, div_mul_eq_mul_div]
    norm_num
  rw [hvalue]
  exact roundsTo_roundHalfEven _ hpos

theorem millionths_le (c : Confidence) : c.millionths ≤ 1000000 := by
  refine roundHalfEven_le ?_
  rw [Nat.mul_comm 1000000]
  exact Nat.mul_le_mul_right 1000000 c.magnitude_le_unitsPerOne

/-- The exact values round to the same number of millionths. -/
def AgreeToSixPlaces (c d : Confidence) : Prop :=
  ∃ n, RoundsTo (c.value * 10 ^ 6) n ∧ RoundsTo (d.value * 10 ^ 6) n

variable {c d : Confidence}

theorem agreeToSixPlaces_iff : c.AgreeToSixPlaces d ↔ c.millionths = d.millionths := by
  constructor
  · rintro ⟨n, hc, hd⟩
    exact (c.roundsTo_millionths.unique hc).trans (hd.unique d.roundsTo_millionths)
  · intro h
    refine ⟨c.millionths, c.roundsTo_millionths, ?_⟩
    rw [h]
    exact d.roundsTo_millionths

instance (c d : Confidence) : Decidable (c.AgreeToSixPlaces d) :=
  decidable_of_iff _ agreeToSixPlaces_iff.symm

/-- The characters of the digits at a place tell the digits apart, and with the places above it the
numbers as far as the place. -/
theorem div_eq_of_digitChar_eq {m n place : ℕ} (habove : m / (place * 10) = n / (place * 10))
    (hdigit : Nat.digitChar (m / place % 10) = Nat.digitChar (n / place % 10)) :
    m / place = n / place := by
  have hcode := congrArg Char.toNat hdigit
  rw [Nat.toNat_digitChar_of_lt_ten (Nat.mod_lt _ (by decide)),
    Nat.toNat_digitChar_of_lt_ten (Nat.mod_lt _ (by decide))] at hcode
  rw [← Nat.div_div_eq_div_mul, ← Nat.div_div_eq_div_mul] at habove
  omega

/-- Confidences are printed alike if and only if their exact values round to the same millionth. -/
theorem sixPlaces_eq_iff : c.sixPlaces = d.sixPlaces ↔ c.AgreeToSixPlaces d := by
  rw [agreeToSixPlaces_iff]
  constructor
  · intro h
    simp only [sixPlaces, String.ofList_inj, List.map_cons, List.map_nil, List.cons.injEq, true_and,
      and_true] at h
    obtain ⟨h₆, h₅, h₄, h₃, h₂, h₁, h₀⟩ := h
    have hmost : ∀ e : Confidence, e.millionths / (1000000 * 10) = 0 :=
      fun e => Nat.div_eq_of_lt (Nat.lt_of_le_of_lt e.millionths_le (by decide))
    have heq₆ := div_eq_of_digitChar_eq ((hmost c).trans (hmost d).symm) h₆
    have heq₅ := div_eq_of_digitChar_eq heq₆ h₅
    have heq₄ := div_eq_of_digitChar_eq heq₅ h₄
    have heq₃ := div_eq_of_digitChar_eq heq₄ h₃
    have heq₂ := div_eq_of_digitChar_eq heq₃ h₂
    have heq₁ := div_eq_of_digitChar_eq heq₂ h₁
    have heq₀ := div_eq_of_digitChar_eq heq₁ h₀
    simpa using heq₀
  · intro h
    rw [sixPlaces, sixPlaces, h]

theorem length_sixPlaces (c : Confidence) : c.sixPlaces.toList.length = 8 := by
  simp [sixPlaces]

end Confidence

end ScriptTypes
