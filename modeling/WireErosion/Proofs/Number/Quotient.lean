import WireErosion.Proofs.Number.Nearest

/-!
# The double of a decimal

Quotients and products of doubles are rounded from the exact ones (`of_div_rounds`,
`of_mul_rounds`), and so is the double that a decimal numeral stands for (`Double.ofGrid_rounds`):
small numerals are a whole number and a power of ten, both of them exact, and all others are rounded
from the exact number at once.

A double is what it is nearest to (`Nearest.exact`).
-/

namespace WireErosion

open Float.Model (UnpackedFloat Format totalExponent)
open Float.Model.UnpackedFloat (Sign Accuracy ExtendedMantissa roundWithAccuracy accuracyOfFraction
  divCore)
open DoubleValue (Canonical IsMagnitude Packable magnitude packed)

/-! ## Quotients -/

/-- The quotient of two natural numbers, with the remainder in the bits. -/
theorem holds_quotient (n : ℕ) {d : ℕ} (hd : 0 < d) :
    Holds (ExtendedMantissa.ofMantissaAndAccuracy (n / d) (accuracyOfFraction (n % d) d))
      (n / d) := by
  rw [div_eq_add_rest n hd, accuracyOfFraction]
  split
  next hzero =>
    rw [hzero]
    simp [Holds, ExtendedMantissa.ofMantissaAndAccuracy]
  next hzero =>
    have hd' : (0 : ℚ) < d := Nat.cast_pos.mpr hd
    have hpos : (0 : ℚ) < (n % d : ℕ) / d :=
      div_pos (Nat.cast_pos.mpr (Nat.pos_of_ne_zero hzero)) hd'
    have hone := rest_lt_one n hd
    rcases lt_trichotomy (2 * (n % d)) d with hside | hside | hside
    · rw [Nat.compare_eq_lt.mpr hside]
      have hless := (div_lt_half hd).mpr hside
      change ((n / d : ℕ) : ℚ) < _ ∧ _ < ((n / d : ℕ) : ℚ) + 1 / 2
      exact ⟨by linarith, by linarith⟩
    · rw [Nat.compare_eq_eq.mpr hside]
      change _ = ((n / d : ℕ) : ℚ) + 1 / 2
      rw [(div_eq_half hd).mpr hside]
    · rw [Nat.compare_eq_gt.mpr hside]
      have hmore := (half_lt_div hd).mpr hside
      change ((n / d : ℕ) : ℚ) + 1 / 2 < _ ∧ _ < ((n / d : ℕ) : ℚ) + 1
      exact ⟨by linarith, by linarith⟩

/-- A quotient is rounded once. -/
theorem div_rounds {m₁ m₂ : ℕ} (h₁ : 0 < m₁) (h₂ : 0 < m₂) (e₁ e₂ : ℤ) :
    RoundsTo (magnitude m₁ e₁ / magnitude m₂ e₂) (packed (UnpackedFloat.div Format.binary64
      (.finite .positive m₁ e₁ h₁) (.finite .positive m₂ e₂ h₂))) := by
  have htarget : Format.binary64.targetExponent (totalExponent m₁ e₁ - totalExponent m₂ e₂)
      = max (m₁.log2 + 1 + e₁ - (m₂.log2 + 1 + e₂) - 53) (-1074) := rfl
  generalize he : min (e₁ - e₂)
    (max (m₁.log2 + 1 + e₁ - (m₂.log2 + 1 + e₂) - 53) (-1074)) = e
  obtain ⟨k, hk⟩ : ∃ k : ℕ, e₁ - e₂ - e = k := Int.eq_ofNat_of_zero_le (by omega)
  have hcore : divCore Format.binary64 m₁ e₁ m₂ e₂
      = (m₁ * 2 ^ k / m₂, e, accuracyOfFraction (m₁ * 2 ^ k % m₂) m₂) := by
    rw [divCore, htarget, he, hk, Int.toNat_natCast, Nat.shiftLeft_eq]
  have hdiv : UnpackedFloat.div Format.binary64 (.finite .positive m₁ e₁ h₁)
      (.finite .positive m₂ e₂ h₂) = roundWithAccuracy Format.binary64 .positive
        (m₁ * 2 ^ k / m₂) e (accuracyOfFraction (m₁ * 2 ^ k % m₂) m₂) := by
    simp only [UnpackedFloat.div, hcore]
    rfl
  rw [hdiv]
  apply roundWithAccuracy_rounds
  · have hscale : magnitude m₁ e₁ / magnitude m₂ e₂ / 2 ^ e = (m₁ * 2 ^ k : ℕ) / m₂ := by
      have hm₂ : (m₂ : ℚ) ≠ 0 := Nat.cast_ne_zero.mpr h₂.ne'
      have he₁ : e₁ = e + e₂ + k := by omega
      rw [magnitude, magnitude, he₁, zpow_add₀ two_ne_zero, zpow_add₀ two_ne_zero, zpow_natCast]
      push_cast
      field_simp
    rw [hscale]
    exact holds_quotient _ h₂
  · -- Enough bits are put in front for a quotient that is not too small.
    refine or_iff_not_imp_right.mpr fun hnormal => ?_
    rw [Nat.le_div_iff_mul_le h₂]
    calc 2 ^ 52 * m₂ ≤ 2 ^ 52 * 2 ^ (m₂.log2 + 1) := Nat.mul_le_mul_left _ Nat.lt_log2_self.le
      _ ≤ 2 ^ m₁.log2 * 2 ^ k := by
        rw [← pow_add, ← pow_add]
        exact Nat.pow_le_pow_right two_pos (by omega)
      _ ≤ m₁ * 2 ^ k := Nat.mul_le_mul_right _ (Nat.log2_self_le h₁.ne')

/-! ## Exact results -/

/-- A double is what it is nearest to. -/
theorem Nearest.exact {x : ℚ} {v : DoubleValue} (h : Nearest x v) (hx : IsMagnitude x) :
    ∃ m q, v = .finite false m q ∧ magnitude m q = x := by
  cases v with
  | notANumber => exact h.elim
  | infinite s => exact absurd (h.2 x hx) (lt_irrefl x)
  | finite s m q =>
      obtain ⟨rfl, hnear⟩ := h
      have hsame := hnear x hx
      rw [sub_self, abs_zero, abs_nonpos_iff, sub_eq_zero] at hsame
      exact ⟨m, q, rfl, hsame⟩

/-- A double without a sign that stands for a number that is not zero. -/
theorem exists_packed_finite {x : Float} {m : ℕ} {q : ℤ} (h : DoubleValue.of x = .finite false m q)
    (hm : 0 < m) : x = packed (.finite .positive m q hm) ∧ Canonical m q := by
  have hcanonical : Canonical m q := by
    rcases DoubleValue.canonical_of h with ⟨rfl, -⟩ | ⟨-, hcanonical⟩
    · exact absurd hm (lt_irrefl 0)
    · exact hcanonical
  refine ⟨DoubleValue.of_injective ?_, hcanonical⟩
  rw [h, DoubleValue.of_packed (u := .finite .positive m q hm) hcanonical]
  rfl

theorem eq_packed_zero {x : Float} {q : ℤ} (h : DoubleValue.of x = .finite false 0 q) :
    x = packed (.zero .positive) := by
  rcases DoubleValue.canonical_of h with ⟨-, rfl⟩ | ⟨hm, -⟩
  · refine DoubleValue.of_injective ?_
    rw [h, DoubleValue.of_packed (u := .zero .positive) trivial]
    rfl
  · exact absurd hm (lt_irrefl 0)

theorem packed_div {u v : UnpackedFloat} (hu : Packable u) (hv : Packable v) :
    packed u / packed v = packed (UnpackedFloat.div Format.binary64 u v) := by
  have hdiv : packed u / packed v = packed (UnpackedFloat.div Format.binary64
      (packed u).toModel.unpack (packed v).toModel.unpack) := rfl
  rw [hdiv, DoubleValue.toModel_packed hu, DoubleValue.toModel_packed hv]

theorem packed_mul {u v : UnpackedFloat} (hu : Packable u) (hv : Packable v) :
    packed u * packed v = packed (UnpackedFloat.mul Format.binary64 u v) := by
  have hmul : packed u * packed v = packed (UnpackedFloat.mul Format.binary64
      (packed u).toModel.unpack (packed v).toModel.unpack) := rfl
  rw [hmul, DoubleValue.toModel_packed hu, DoubleValue.toModel_packed hv]

section

variable {x y : Float} {m m' : ℕ} {q q' : ℤ}

/-- The quotient of two doubles is rounded from that of what they stand for. -/
theorem of_div_rounds (hx : DoubleValue.of x = .finite false m q)
    (hy : DoubleValue.of y = .finite false m' q') (hm' : 0 < m') :
    RoundsTo (magnitude m q / magnitude m' q') (x / y) := by
  obtain ⟨rfl, hy'⟩ := exists_packed_finite hy hm'
  have hv : Packable (.finite .positive m' q' hm') := hy'
  rcases Nat.eq_zero_or_pos m with rfl | hm
  · have hzero : Packable (.zero .positive) := trivial
    rw [eq_packed_zero hx, packed_div hzero hv]
    exact rounds_zero (by simp [magnitude]) (by simp [magnitude])
  · obtain ⟨rfl, hx'⟩ := exists_packed_finite hx hm
    have hu : Packable (.finite .positive m q hm) := hx'
    rw [packed_div hu hv]
    exact div_rounds hm hm' q q'

/-- The product of two doubles is rounded from that of what they stand for. -/
theorem of_mul_rounds (hx : DoubleValue.of x = .finite false m q)
    (hy : DoubleValue.of y = .finite false m' q') (hm' : 0 < m') :
    RoundsTo (magnitude m q * magnitude m' q') (x * y) := by
  obtain ⟨rfl, hy'⟩ := exists_packed_finite hy hm'
  have hv : Packable (.finite .positive m' q' hm') := hy'
  rcases Nat.eq_zero_or_pos m with rfl | hm
  · have hzero : Packable (.zero .positive) := trivial
    rw [eq_packed_zero hx, packed_mul hzero hv]
    exact rounds_zero (by simp [magnitude]) (by simp [magnitude])
  · obtain ⟨rfl, hx'⟩ := exists_packed_finite hx hm
    have hu : Packable (.finite .positive m q hm) := hx'
    rw [packed_mul hu hv]
    apply roundWithAccuracy_rounds
    · change _ = ((m * m' : ℕ) : ℚ)
      rw [magnitude, magnitude, zpow_add₀ two_ne_zero]
      push_cast
      field_simp
    · -- Of two numbers without a full mantissa the product is too small for one.
      rcases hx'.full with hq | hbit
      · rcases hy'.full with hq' | hbit'
        · exact .inr (by omega)
        · exact .inl (hbit'.trans (Nat.le_mul_of_pos_left _ hm))
      · exact .inl (hbit.trans (Nat.le_mul_of_pos_right _ hm'))

end

/-! ## Whole numbers -/

/-- The first bit of a number is shifted to the front of a mantissa. -/
theorem le_shifted {n : ℕ} (hpos : 0 < n) : 2 ^ 52 ≤ n * 2 ^ (52 - n.log2) :=
  calc 2 ^ 52 ≤ 2 ^ n.log2 * 2 ^ (52 - n.log2) := by
        rw [← pow_add]
        exact Nat.pow_le_pow_right two_pos (by omega)
    _ ≤ n * 2 ^ (52 - n.log2) := Nat.mul_le_mul_right _ (Nat.log2_self_le hpos.ne')

/-- A mantissa with an exponent is rounded once. -/
theorem round_rounds {m : ℕ} (hm : 0 < m) (e : ℤ) : RoundsTo (magnitude m e)
    (packed (UnpackedFloat.round Format.binary64 .positive m e)) := by
  generalize hk : (e - max ((m.log2 : ℤ) + 1 + e - 53) (-1074)).toNat = k
  rw [UnpackedFloat.round, targetExponent_eq, UnpackedFloat.decreaseExponent, hk, Nat.shiftLeft_eq]
  apply roundWithAccuracy_rounds
  · change _ = ((m * 2 ^ k : ℕ) : ℚ)
    rw [magnitude, zpow_sub₀ two_ne_zero, zpow_natCast]
    push_cast
    field_simp
  · refine or_iff_not_imp_right.mpr fun hnormal => ?_
    have hlog : 52 - m.log2 ≤ k := by omega
    exact (le_shifted hm).trans (Nat.mul_le_mul_left _ (Nat.pow_le_pow_right two_pos hlog))

theorem round_nearest {m : ℕ} (hm : 0 < m) (e : ℤ) : Nearest (magnitude m e)
    (.of (packed (UnpackedFloat.round Format.binary64 .positive m e))) :=
  (round_rounds hm e).nearest

/-- A whole number of at most 53 bits is a double. -/
theorem isMagnitude_natCast {n : ℕ} (hn : n < 2 ^ 53) : IsMagnitude n := by
  rcases Nat.eq_zero_or_pos n with rfl | hpos
  · rw [Nat.cast_zero]
    exact DoubleValue.isMagnitude_zero
  · have hlog : n.log2 < 53 := (Nat.log2_lt hpos.ne').mpr hn
    refine ⟨n * 2 ^ (52 - n.log2), -((52 - n.log2 : ℕ) : ℤ), ⟨?_, by omega, by omega, .inr ?_⟩, ?_⟩
    · calc n * 2 ^ (52 - n.log2) < 2 ^ (n.log2 + 1) * 2 ^ (52 - n.log2) :=
          Nat.mul_lt_mul_of_pos_right Nat.lt_log2_self (by positivity)
        _ = 2 ^ 53 := by
          rw [← pow_add]
          congr 1
          omega
    · exact le_shifted hpos
    · rw [magnitude, zpow_neg, zpow_natCast]
      push_cast
      field_simp

theorem toFloat_nearest {n : ℕ} (hn : n < 2 ^ 53) :
    ∃ m q, DoubleValue.of n.toUInt64.toFloat = .finite false m q ∧ magnitude m q = n := by
  refine Nearest.exact ?_ (isMagnitude_natCast hn)
  have hconvert : n.toUInt64.toFloat = packed (UnpackedFloat.ofNat Format.binary64 n) := by
    have hn64 : n.toUInt64.toNat = n := UInt64.toNat_ofNat_of_lt' (hn.trans (by decide))
    change packed (UnpackedFloat.ofNat Format.binary64 n.toUInt64.toNat) = _
    rw [hn64]
  rw [hconvert, UnpackedFloat.ofNat, UnpackedFloat.ofInt, UnpackedFloat.normalize]
  rcases Nat.eq_zero_or_pos n with rfl | hpos
  · exact nearest_zero fun a _ => by simp
  · have hcompare : compare (n : ℤ) 0 = .gt := Int.compare_eq_gt.mpr (by omega)
    rw [hcompare]
    have hnearest := round_nearest hpos 0
    rw [magnitude, zpow_zero, mul_one] at hnearest
    exact hnearest

/-! ## Decimals -/

/-- The powers of ten that are listed are exact. -/
theorem of_powerOfTen : ∀ k : Fin Float.exactlyRepresentablePowersOfTen.size,
    DoubleValue.of Float.exactlyRepresentablePowersOfTen[k.val]
        = .finite false (10 ^ k.val * 2 ^ 52 / 2 ^ (10 ^ k.val).log2) ((10 ^ k.val).log2 - 52) ∧
      DoubleValue.numerator (10 ^ k.val * 2 ^ 52 / 2 ^ (10 ^ k.val).log2) ((10 ^ k.val).log2 - 52)
        = 10 ^ k.val * DoubleValue.denominator ((10 ^ k.val).log2 - 52) := by
  decide +kernel

theorem exists_powerOfTen {k : ℕ} (hk : k < Float.exactlyRepresentablePowersOfTen.size) :
    ∃ m q, 0 < m ∧ DoubleValue.of Float.exactlyRepresentablePowersOfTen[k] = .finite false m q ∧
      magnitude m q = 10 ^ k := by
  obtain ⟨hvalue, hexact⟩ := of_powerOfTen ⟨k, hk⟩
  have hmagnitude : magnitude (10 ^ k * 2 ^ 52 / 2 ^ (10 ^ k).log2) ((10 ^ k).log2 - 52)
      = 10 ^ k := by
    have hden : ((DoubleValue.denominator ((10 ^ k).log2 - 52) : ℕ) : ℚ) ≠ 0 :=
      Nat.cast_ne_zero.mpr (DoubleValue.denominator_pos _).ne'
    rw [DoubleValue.magnitude_eq, div_eq_iff hden]
    exact_mod_cast hexact
  refine ⟨_, _, Nat.pos_of_ne_zero fun hzero => ?_, hvalue, hmagnitude⟩
  rw [hzero, magnitude, Nat.cast_zero, zero_mul] at hmagnitude
  exact (pow_pos (by norm_num) k).ne hmagnitude

theorem le_scientific {n : ℕ} (hn : 0 < n) {e : ℤ} (he : 2048 < e) :
    (2 : ℚ) ^ 1024 ≤ n * 10 ^ e := by
  have hone : (1 : ℚ) ≤ n := by exact_mod_cast hn
  calc (2 : ℚ) ^ 1024 ≤ 10 ^ 1024 := pow_le_pow_left₀ (by norm_num) (by norm_num) 1024
    _ = 10 ^ (1024 : ℤ) := (zpow_natCast 10 1024).symm
    _ ≤ 10 ^ e := zpow_le_zpow_right₀ (by norm_num) (by omega)
    _ ≤ n * 10 ^ e := le_mul_of_one_le_left (by positivity) hone

theorem scientific_le {n : ℕ} {e : ℤ} (he : e < -(2048 + n.log2)) :
    (n * 10 ^ e : ℚ) ≤ 2 ^ (-1075 : ℤ) := by
  obtain ⟨k, rfl⟩ : ∃ k : ℕ, e = -(k : ℤ) := ⟨(-e).toNat, by omega⟩
  have hten : (10 : ℚ) ^ (-(k : ℤ)) ≤ 2 ^ (-(k : ℤ)) := by
    rw [zpow_neg, zpow_neg, zpow_natCast, zpow_natCast]
    exact inv_anti₀ (by positivity) (pow_le_pow_left₀ (by norm_num) (by norm_num) k)
  have hbits : (n : ℚ) ≤ 2 ^ ((n.log2 : ℤ) + 1) := by
    exact_mod_cast (Nat.lt_log2_self (n := n)).le
  calc (n : ℚ) * 10 ^ (-(k : ℤ)) ≤ 2 ^ ((n.log2 : ℤ) + 1) * 2 ^ (-(k : ℤ)) :=
        mul_le_mul hbits hten (by positivity) (by positivity)
    _ = 2 ^ ((n.log2 : ℤ) + 1 - k) := (zpow_add₀ two_ne_zero _ _).symm
    _ ≤ 2 ^ (-1075 : ℤ) := zpow_le_zpow_right₀ one_le_two (by omega)

/-- The exact decimal is rounded once. -/
theorem ofScientific_rounds (n : ℕ) (e : ℤ) :
    RoundsTo (n * 10 ^ e) (packed (UnpackedFloat.ofScientific Format.binary64 n e)) := by
  rw [UnpackedFloat.ofScientific]
  split
  next hzero =>
    rw [hzero, Nat.cast_zero, zero_mul]
    exact rounds_zero le_rfl (by positivity)
  next hzero =>
    have hpos : 0 < n := Nat.pos_of_ne_zero hzero
    split
    next hlarge => exact rounds_large (le_scientific hpos hlarge)
    next =>
      split
      next hsmall => exact rounds_zero (by positivity) (scientific_le hsmall)
      next =>
        split
        next hup =>
          obtain ⟨k, rfl⟩ := Int.eq_ofNat_of_zero_le hup
          change RoundsTo _ (packed (roundWithAccuracy Format.binary64 .positive
            (n <<< 53 * 10 ^ k) (-53 + 0) .exact))
          rw [Nat.shiftLeft_eq]
          apply roundWithAccuracy_rounds
          · change _ = ((n * 2 ^ 53 * 10 ^ k : ℕ) : ℚ)
            rw [add_zero, zpow_neg, zpow_natCast, div_inv_eq_mul]
            push_cast
            ring
          · left
            calc 2 ^ 52 ≤ 1 * 2 ^ 53 * 1 := by norm_num
              _ ≤ n * 2 ^ 53 * 10 ^ k :=
                Nat.mul_le_mul (Nat.mul_le_mul_right _ hpos) (Nat.pos_of_ne_zero (by positivity))
        next hdown =>
          obtain ⟨k, rfl⟩ : ∃ k : ℕ, e = -(k : ℤ) := ⟨(-e).toNat, by omega⟩
          have hdiv := div_rounds hpos (Nat.pow_pos (n := k) (by norm_num : 0 < 10)) 0 0
          have hquotient : magnitude n 0 / magnitude (10 ^ k) 0 = n * 10 ^ (-(k : ℤ)) := by
            rw [magnitude, magnitude, zpow_neg, zpow_natCast, div_eq_mul_inv]
            simp
          have hnat : (- -(k : ℤ)).toNat = k := by omega
          rw [hquotient] at hdiv
          simp only [hnat]
          exact hdiv

namespace Double

/-- A decimal stands for the double that it is rounded to. -/
theorem ofGrid_rounds (n : ℕ) (places : ℤ) :
    RoundsTo (n * 10 ^ (-places)) (ofGrid n places) := by
  rw [ofGrid, Float.ofScientific]
  split
  next hfast =>
    obtain ⟨hn, hk⟩ := hfast
    obtain ⟨m, q, hx, hmagnitude⟩ := toFloat_nearest hn
    have hlisted : places.natAbs < Float.exactlyRepresentablePowersOfTen.size :=
      show places.natAbs < 23 by omega
    obtain ⟨m', q', hm', hy, hpower⟩ := exists_powerOfTen hlisted
    dsimp only
    split
    next hsign =>
      have hdiv := of_div_rounds hx hy hm'
      have habs : (places.natAbs : ℤ) = places := Int.natAbs_of_nonneg (of_decide_eq_true hsign)
      rwa [hmagnitude, hpower, div_eq_mul_inv, ← zpow_natCast, ← zpow_neg, habs] at hdiv
    next hsign =>
      have hmul := of_mul_rounds hx hy hm'
      have habs : (places.natAbs : ℤ) = -places := by
        have hneg := of_decide_eq_false (Bool.not_eq_true _ ▸ hsign)
        omega
      rwa [hmagnitude, hpower, ← zpow_natCast, habs] at hmul
  next =>
    have hexponent : (if decide (0 ≤ places) = true then Int.negOfNat places.natAbs
        else Int.ofNat places.natAbs) = -places := by
      rw [Int.negOfNat_eq, Int.ofNat_eq_natCast]
      split
      next hsign => rw [Int.natAbs_of_nonneg (of_decide_eq_true hsign)]
      next hsign =>
        have hneg := of_decide_eq_false (Bool.not_eq_true _ ▸ hsign)
        omega
    dsimp only
    rw [hexponent]
    exact ofScientific_rounds n (-places)

theorem ofGrid_nearest (n places : ℕ) : Nearest (n / 10 ^ places) (.of (ofGrid n places)) := by
  have hnearest := (ofGrid_rounds n places).nearest
  rwa [zpow_neg, zpow_natCast, ← div_eq_mul_inv] at hnearest

end Double

end WireErosion
