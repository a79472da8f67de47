import WireErosion.Proofs.Number.HalfEven
import WireErosion.Proofs.Number.Packing

/-!
# The nearest double

Arithmetic on doubles cuts the mantissa of an exact result off, keeps what is needed of the rest in
two bits, and rounds.  `Holds` is what the mantissa and the two bits say of the number.  It survives
the shifts (`Holds.shiftRight`), so the number is rounded to 53 bits, ties to even
(`roundWithAccuracy_rounds`).

`RoundsTo` says this of a double without reference to the way it was computed, and there is one such
double only (`RoundsTo.unique`).  No finite double is nearer to the number, and if the double is an
infinity then the number is above them all (`RoundsTo.nearest`).
-/

namespace WireErosion

open Float.Model (UnpackedFloat Format totalExponent)
open Float.Model.UnpackedFloat (Sign Accuracy ExtendedMantissa roundWithAccuracy
  shiftToTargetExponent shiftToExponent)
open DoubleValue (IsMagnitude magnitude packed)

/-- No finite double without a sign is nearer to a number. -/
def Nearest (x : ℚ) : DoubleValue → Prop
  | .notANumber => False
  | .infinite s => s = false ∧ ∀ a, IsMagnitude a → a < x
  | .finite s m q => s = false ∧ ∀ a, IsMagnitude a → |magnitude m q - x| ≤ |a - x|

theorem nearest_zero {x : ℚ} (hx : ∀ a, IsMagnitude a → |x| ≤ |a - x|) :
    Nearest x (.of (packed (.zero .positive))) := by
  rw [DoubleValue.of_packed (u := .zero .positive) trivial]
  refine ⟨rfl, fun a ha => ?_⟩
  rw [magnitude, Nat.cast_zero, zero_mul, zero_sub, abs_neg]
  exact hx a ha

/-! ## The bits that are cut off -/

/-- A number has a mantissa as its floor, and the bits say on which side of the middle it is. -/
def Holds (em : ExtendedMantissa) (y : ℚ) : Prop :=
  match em.roundBit, em.stickyBit with
  | false, false => y = em.mantissa
  | false, true => em.mantissa < y ∧ y < em.mantissa + 1 / 2
  | true, false => y = em.mantissa + 1 / 2
  | true, true => em.mantissa + 1 / 2 < y ∧ y < em.mantissa + 1

namespace Holds

variable {em : ExtendedMantissa} {y : ℚ}

theorem floor (h : Holds em y) : (em.mantissa : ℚ) ≤ y ∧ y < em.mantissa + 1 := by
  obtain ⟨m, r, s⟩ := em
  cases r <;> cases s <;> simp only [Holds] at h ⊢ <;> constructor <;> linarith

theorem shiftRightOne (h : Holds em y) : Holds em.shiftRightOne (y / 2) := by
  obtain ⟨m, r, s⟩ := em
  have hdivide : (2 * (m / 2 : ℕ) + (m % 2 : ℕ) : ℚ) = m := by exact_mod_cast Nat.div_add_mod m 2
  have hbit : (1 != 0) = true := rfl
  rcases Nat.mod_two_eq_zero_or_one m with hm | hm <;> rw [hm] at hdivide <;>
    push_cast at hdivide <;> cases r <;> cases s <;>
    simp only [Holds, ExtendedMantissa.shiftRightOne, hm, bne_self_eq_false, hbit, Bool.or_self,
      Bool.or_true, Bool.or_false] at h ⊢ <;>
    first | linarith | constructor <;> linarith

theorem mantissa_shiftRight (em : ExtendedMantissa) (k : ℕ) :
    (em >>> k).mantissa = em.mantissa / 2 ^ k := by
  change (k.repeat ExtendedMantissa.shiftRightOne em).mantissa = _
  induction k with
  | zero => simp [Nat.repeat]
  | succ k ih =>
      rw [Nat.repeat, ExtendedMantissa.shiftRightOne, ih, pow_succ, Nat.div_div_eq_div_mul]

theorem shiftRight (h : Holds em y) (k : ℕ) : Holds (em >>> k) (y / 2 ^ k) := by
  change Holds (k.repeat ExtendedMantissa.shiftRightOne em) _
  induction k with
  | zero => simpa [Nat.repeat] using h
  | succ k ih =>
      rw [Nat.repeat, pow_succ, ← div_div]
      exact ih.shiftRightOne

/-- The mantissa is rounded like the number. -/
theorem isHalfEven (h : Holds em y) : Decimal.IsHalfEven em.roundedMantissa y := by
  have hnear : ∀ {n : ℕ}, -(1 / 2) < (n : ℚ) - y → (n : ℚ) - y < 1 / 2 → Decimal.IsHalfEven n y :=
    fun hlow hhigh => .inl (abs_lt.mpr ⟨hlow, hhigh⟩)
  obtain ⟨m, r, s⟩ := em
  cases r <;> cases s <;> simp only [Holds] at h <;>
    simp only [ExtendedMantissa.roundedMantissa, ExtendedMantissa.accuracy,
      Accuracy.roundToNearestEven]
  case false.false => exact hnear (by linarith) (by linarith)
  case false.true => exact hnear (by linarith) (by linarith)
  case true.false =>
    -- The number is in the middle.
    rcases Nat.mod_two_eq_zero_or_one m with hm | hm <;> rw [hm]
    · refine .inr ⟨?_, hm⟩
      rw [h, add_zero, sub_add_cancel_left, abs_neg, abs_of_pos one_half_pos]
    · refine .inr ⟨?_, by omega⟩
      rw [h, Nat.cast_succ, add_sub_add_left_eq_sub, abs_of_pos (by norm_num)]
      norm_num
  case true.true => exact hnear (by push_cast; linarith) (by push_cast; linarith)

end Holds

/-! ## Steps between doubles -/

/-- The largest finite double. -/
theorem isMagnitude_le {a : ℚ} (ha : IsMagnitude a) : a ≤ (2 ^ 53 - 1) * 2 ^ (971 : ℤ) := by
  obtain ⟨m, q, h, rfl⟩ := ha
  have hm : (m : ℚ) ≤ 2 ^ 53 - 1 := by
    have hlt : m + 1 ≤ 2 ^ 53 := h.mantissa_lt
    have hlt : ((m + 1 : ℕ) : ℚ) ≤ ((2 ^ 53 : ℕ) : ℚ) := Nat.cast_le.mpr hlt
    push_cast at hlt
    linarith
  have hq : (2 : ℚ) ^ q ≤ 2 ^ (971 : ℤ) := zpow_le_zpow_right₀ one_le_two h.most
  exact mul_le_mul hm hq (by positivity) (by norm_num)

/-- The nearest multiple of a power of two is as near as any double if the number is not too small
for that power. -/
theorem nearest_of_multiple {x : ℚ} {r : ℕ} {t : ℤ}
    (hr : ∀ j : ℤ, |(r : ℚ) - x / 2 ^ t| ≤ |(j : ℚ) - x / 2 ^ t|)
    (hlong : t = -1074 ∨ 2 ^ 52 ≤ x / 2 ^ t) {a : ℚ} (ha : IsMagnitude a) :
    |magnitude r t - x| ≤ |a - x| := by
  have hpow : (0 : ℚ) < 2 ^ t := by positivity
  have hscale : ∀ b : ℚ, |b * 2 ^ t - x| = |b - x / 2 ^ t| * 2 ^ t := by
    intro b
    rw [← abs_of_pos hpow, ← abs_mul, abs_of_pos hpow, sub_mul, div_mul_cancel₀ _ hpow.ne']
  have hmultiple : ∀ j : ℤ, |magnitude r t - x| ≤ |j * 2 ^ t - x| := by
    intro j
    rw [magnitude, hscale, hscale]
    exact mul_le_mul_of_nonneg_right (hr j) hpow.le
  obtain ⟨m, q, h, rfl⟩ := ha
  rcases le_or_gt t q with hq | hq
  · obtain ⟨k, rfl⟩ := Int.le.dest hq
    have hbound := hmultiple ((m * 2 ^ k : ℕ) : ℤ)
    rw [Int.cast_natCast] at hbound
    rwa [DoubleValue.magnitude_add]
  · -- A double of a smaller exponent is below a multiple that is below the number.
    have hlow : 2 ^ 52 ≤ x / 2 ^ t := hlong.resolve_left (by have := h.least; omega)
    have hlow : 2 ^ 52 * 2 ^ t ≤ x := (le_div_iff₀ hpow).mp hlow
    have hsmall : magnitude m q ≤ 2 ^ 52 * 2 ^ t := by
      have hm : (m : ℚ) ≤ 2 ^ 53 := by exact_mod_cast h.mantissa_lt.le
      have hq : (2 : ℚ) ^ q ≤ 2 ^ (t - 1) := zpow_le_zpow_right₀ one_le_two (by omega)
      calc magnitude m q ≤ 2 ^ 53 * 2 ^ (t - 1) := mul_le_mul hm hq (by positivity) (by norm_num)
        _ = 2 ^ 52 * 2 ^ t := by
          rw [zpow_sub_one₀ two_ne_zero]
          ring
    have hbound := hmultiple (2 ^ 52)
    rw [Int.cast_pow, Int.cast_ofNat] at hbound
    rw [abs_of_nonpos (by linarith : (2 : ℚ) ^ 52 * 2 ^ t - x ≤ 0)] at hbound
    rw [abs_of_nonpos (by linarith : magnitude m q - x ≤ 0)]
    linarith

/-! ## Rounding -/

theorem targetExponent_eq (m : ℕ) (e : ℤ) :
    Format.binary64.targetExponent (totalExponent m e) = max (m.log2 + 1 + e - 53) (-1074) := rfl

theorem shiftToTargetExponent_eq {m : ℕ} {e : ℤ} (acc : Accuracy) {k : ℕ}
    (hk : (max (m.log2 + 1 + e - 53) (-1074) - e).toNat = k) :
    shiftToTargetExponent Format.binary64 m e acc
      = (ExtendedMantissa.ofMantissaAndAccuracy m acc >>> k, e + k) := by
  rw [shiftToTargetExponent, shiftToExponent, targetExponent_eq, hk]

/-- A mantissa is shifted until it has 53 bits or its exponent is the least one. -/
theorem shift_bounds {m : ℕ} {e : ℤ} (hlong : 2 ^ 52 ≤ m ∨ e ≤ -1074) {k : ℕ}
    (hk : (max (m.log2 + 1 + e - 53) (-1074) - e).toNat = k) :
    -1074 ≤ e + k ∧ m / 2 ^ k < 2 ^ 53 ∧ (e + k = -1074 ∨ 2 ^ 52 ≤ m / 2 ^ k) := by
  refine ⟨by omega, ?_, or_iff_not_imp_left.mpr fun hnormal => ?_⟩
  · rw [Nat.div_lt_iff_lt_mul (by positivity), ← pow_add]
    calc m < 2 ^ (m.log2 + 1) := Nat.lt_log2_self
      _ ≤ 2 ^ (53 + k) := Nat.pow_le_pow_right two_pos (by omega)
  · have hm : m ≠ 0 := by
      rintro rfl
      rw [Nat.log2_zero] at hk
      omega
    have hlog : 2 ^ 52 ≤ m → 52 ≤ m.log2 := (Nat.le_log2 hm).mpr
    rw [Nat.le_div_iff_mul_le (by positivity), ← pow_add]
    calc 2 ^ (52 + k) = 2 ^ m.log2 := congrArg _ (by omega)
      _ ≤ m := Nat.log2_self_le hm

/-- A rounded mantissa with its exponent.  One that rounding made too long is halved. -/
def carried (s : Sign) (r : ℕ) (t : ℤ) : UnpackedFloat :=
  if h : r = 0 then .zero s
  else if r < 2 ^ 53 then .finite s r t (Nat.pos_of_ne_zero h)
  else .finite s (2 ^ 52) (t + 1) (Nat.two_pow_pos 52)

theorem roundWithAccuracy_eq (s : Sign) {m : ℕ} {e : ℤ} (acc : Accuracy) {k r : ℕ}
    (hk : (max (m.log2 + 1 + e - 53) (-1074) - e).toNat = k) (hleast : -1074 ≤ e + k)
    (hr : (ExtendedMantissa.ofMantissaAndAccuracy m acc >>> k).roundedMantissa = r)
    (hle : r ≤ 2 ^ 53) :
    roundWithAccuracy Format.binary64 s m e acc = carried s r (e + k) := by
  rw [roundWithAccuracy, shiftToTargetExponent_eq acc hk, carried]
  dsimp only
  rw [hr]
  by_cases hlt : r < 2 ^ 53
  · have hlog : r.log2 < 53 := by
      by_cases hzero : r = 0
      · rw [hzero, Nat.log2_zero]
        norm_num
      · exact (Nat.log2_lt hzero).mpr hlt
    rw [shiftToTargetExponent_eq .exact (k := 0) (by omega)]
    change (if h : r = 0 then _ else UnpackedFloat.finite s r (e + k + (0 : ℕ)) _) = _
    simp only [if_pos hlt, Nat.cast_zero, add_zero]
  · obtain rfl : r = 2 ^ 53 := by omega
    rw [shiftToTargetExponent_eq .exact (k := 1) (by rw [Nat.log2_two_pow]; omega)]
    rfl

/-- The exponent of the last bit that is kept of a number. -/
structure LastBit (x : ℚ) (t : ℤ) : Prop where
  /-- It is not below the least exponent. -/
  least : -1074 ≤ t
  /-- At most 53 bits are kept. -/
  short : x / 2 ^ t < 2 ^ 53
  /-- There are 53 bits unless the exponent is the least one. -/
  full : t = -1074 ∨ 2 ^ 52 ≤ x / 2 ^ t

theorem LastBit.unique {x : ℚ} {t t' : ℤ} (h : LastBit x t) (h' : LastBit x t') : t = t' := by
  wlog hlt : t < t' generalizing t t'
  · rcases (not_lt.mp hlt).lt_or_eq with hlt | heq
    · exact (this h' h hlt).symm
    · exact heq.symm
  have hleast := h.least
  have hlow := (le_div_iff₀ (by positivity)).mp (h'.full.resolve_left (by omega))
  have hhigh := (div_lt_iff₀ (by positivity)).mp h.short
  have hnext : (2 : ℚ) ^ (t + 1) ≤ 2 ^ t' := zpow_le_zpow_right₀ one_le_two (by omega)
  rw [zpow_add_one₀ two_ne_zero] at hnext
  linarith

/-- A double without a sign that a number is rounded to, ties to the even mantissa. -/
def RoundsTo (x : ℚ) (y : Float) : Prop :=
  ∃ r t, LastBit x t ∧ Decimal.IsHalfEven r (x / 2 ^ t) ∧ y = packed (carried .positive r t)

theorem RoundsTo.unique {x : ℚ} {y y' : Float} (h : RoundsTo x y) (h' : RoundsTo x y') :
    y = y' := by
  obtain ⟨r, t, ht, hr, rfl⟩ := h
  obtain ⟨r', t', ht', hr', rfl⟩ := h'
  obtain rfl := ht.unique ht'
  rw [hr.unique hr']

/-- A number that is not above half the least double is rounded to zero. -/
theorem rounds_zero {x : ℚ} (hx : 0 ≤ x) (hsmall : x ≤ 2 ^ (-1075 : ℤ)) :
    RoundsTo x (packed (.zero .positive)) := by
  have hhalf : x / 2 ^ (-1074 : ℤ) ≤ 1 / 2 := by
    have hdouble : (2 : ℚ) ^ (-1074 : ℤ) = 2 ^ (-1075 : ℤ) * 2 := zpow_add_one₀ two_ne_zero (-1075)
    rw [div_le_iff₀ (by positivity), hdouble]
    linarith
  have hnonneg : 0 ≤ x / 2 ^ (-1074 : ℤ) := by positivity
  refine ⟨0, -1074, ⟨le_rfl, by linarith, .inl rfl⟩, ?_, rfl⟩
  rw [Decimal.IsHalfEven, Nat.cast_zero, zero_sub, abs_neg, abs_of_nonneg hnonneg]
  exact hhalf.lt_or_eq.imp_right fun heq => ⟨heq, rfl⟩

/-- What an exact result is rounded to. -/
theorem roundWithAccuracy_rounds {x : ℚ} {m : ℕ} {e : ℤ} {acc : Accuracy}
    (hx : Holds (ExtendedMantissa.ofMantissaAndAccuracy m acc) (x / 2 ^ e))
    (hlong : 2 ^ 52 ≤ m ∨ e ≤ -1074) :
    RoundsTo x (packed (roundWithAccuracy Format.binary64 .positive m e acc)) := by
  generalize hk : (max (m.log2 + 1 + e - 53) (-1074) - e).toNat = k
  obtain ⟨hleast, hlt, hfull⟩ := shift_bounds hlong hk
  have hholds := hx.shiftRight k
  have hmantissa : (ExtendedMantissa.ofMantissaAndAccuracy m acc >>> k).mantissa = m / 2 ^ k := by
    rw [Holds.mantissa_shiftRight]
    cases acc with
    | exact => rfl
    | inexact o => cases o <;> rfl
  rw [div_div, ← zpow_natCast, ← zpow_add₀ two_ne_zero] at hholds
  obtain ⟨hlow, hhigh⟩ := hholds.floor
  rw [hmantissa] at hlow hhigh
  have hshort : x / 2 ^ (e + k) < (2 ^ 53 : ℕ) :=
    hhigh.trans_le (by exact_mod_cast Nat.succ_le_of_lt hlt)
  have hround := hholds.isHalfEven
  refine ⟨_, e + k, ⟨hleast, by exact_mod_cast hshort, ?_⟩, hround, ?_⟩
  · exact hfull.imp_right fun hbit => le_trans (by exact_mod_cast hbit) hlow
  · rw [roundWithAccuracy_eq .positive acc hk hleast rfl (hround.le_natCast hshort)]

theorem packed_large {m : ℕ} {q : ℤ} {s : Sign} (hm : 0 < m) (hq : 971 < q) :
    packed (.finite s m q hm) = packed (.infinity s) := by
  simp only [packed, Float.Model.pack, DoubleValue.pack_large s hm hq]

/-- A number that is too large is rounded to an infinity. -/
theorem rounds_large {x : ℚ} (hlarge : 2 ^ 1024 ≤ x) :
    RoundsTo x (packed (.infinity .positive)) := by
  have hx : 0 < x := lt_of_lt_of_le (by positivity) hlarge
  have hlog : (1024 : ℤ) ≤ Int.log 2 x := (Int.zpow_le_iff_le_log one_lt_two hx).mp hlarge
  obtain ⟨t, ht⟩ : ∃ t, Int.log 2 x = t + 52 := ⟨Int.log 2 x - 52, by omega⟩
  have hlow : 2 ^ 52 ≤ x / 2 ^ t := by
    have hfirst : (2 : ℚ) ^ Int.log 2 x ≤ x := Int.zpow_log_le_self one_lt_two hx
    rw [le_div_iff₀ (by positivity), mul_comm]
    rw [ht, zpow_add₀ two_ne_zero] at hfirst
    exact_mod_cast hfirst
  have hhigh : x / 2 ^ t < 2 ^ 53 := by
    have hnext : x < (2 : ℚ) ^ (Int.log 2 x + 1) := Int.lt_zpow_succ_log_self one_lt_two x
    rw [div_lt_iff₀ (by positivity), mul_comm]
    rw [ht, add_assoc, zpow_add₀ two_ne_zero] at hnext
    exact_mod_cast hnext
  obtain ⟨r, hr⟩ := Decimal.exists_isHalfEven (hlow.trans' (by positivity))
  have hbit : 2 ^ 52 ≤ r := hr.natCast_le (by exact_mod_cast hlow)
  refine ⟨r, t, ⟨by omega, hhigh, .inr hlow⟩, hr, ?_⟩
  rw [carried, dif_neg (by omega)]
  split
  · rw [packed_large _ (by omega)]
  · rw [packed_large _ (by omega)]

/-- A canonical pair as near as any other is nearest, and so is an infinity in the place of one that
is too large. -/
theorem nearest_packed {x : ℚ} {r : ℕ} {t : ℤ} (hpos : 0 < r) (hshort : r < 2 ^ 53)
    (hleast : -1074 ≤ t) (hfull : t = -1074 ∨ 2 ^ 52 ≤ r)
    (hnearest : ∀ a, IsMagnitude a → |magnitude r t - x| ≤ |a - x|)
    (hlarge : 971 < t → (2 ^ 53 - 1) * 2 ^ (971 : ℤ) < x) :
    Nearest x (.of (packed (.finite .positive r t hpos))) := by
  rcases le_or_gt t 971 with hmost | hmost
  · rw [DoubleValue.of_packed (u := .finite .positive r t hpos) ⟨hshort, hleast, hmost, hfull⟩]
    exact ⟨rfl, hnearest⟩
  · rw [packed_large hpos hmost, DoubleValue.of_packed (u := .infinity .positive) trivial]
    exact ⟨rfl, fun a ha => (isMagnitude_le ha).trans_lt (hlarge hmost)⟩

/-- A number with a long mantissa and a large exponent is above all doubles. -/
theorem lt_of_large {x : ℚ} {t : ℤ} (ht : 971 ≤ t) (hlong : 2 ^ 53 - 1 < x / 2 ^ t) :
    (2 ^ 53 - 1) * 2 ^ (971 : ℤ) < x :=
  calc ((2 : ℚ) ^ 53 - 1) * 2 ^ (971 : ℤ) ≤ (2 ^ 53 - 1) * 2 ^ t :=
      mul_le_mul_of_nonneg_left (zpow_le_zpow_right₀ one_le_two ht) (by norm_num)
    _ < x := (lt_div_iff₀ (by positivity)).mp hlong

/-- What a number is rounded to is nearest to it. -/
theorem RoundsTo.nearest {x : ℚ} {y : Float} (h : RoundsTo x y) : Nearest x (.of y) := by
  obtain ⟨r, t, ⟨hleast, hshortx, hfullx⟩, hround, rfl⟩ := h
  have hall : ∀ a, IsMagnitude a → |magnitude r t - x| ≤ |a - x| := fun a ha =>
    nearest_of_multiple hround.nearest hfullx ha
  have hle : r ≤ 2 ^ 53 := hround.le_natCast (by exact_mod_cast hshortx)
  rw [carried]
  by_cases hzero : r = 0
  · rw [dif_pos hzero]
    refine nearest_zero fun a ha => ?_
    have hbound := hall a ha
    rwa [hzero, magnitude, Nat.cast_zero, zero_mul, zero_sub, abs_neg] at hbound
  rw [dif_neg hzero]
  by_cases hshort : r < 2 ^ 53
  · rw [if_pos hshort]
    have hfull : t = -1074 ∨ 2 ^ 52 ≤ r := hfullx.imp_right fun hbit =>
      hround.natCast_le (by exact_mod_cast hbit)
    refine nearest_packed _ hshort hleast hfull hall fun hlarge =>
      lt_of_large (t := t - 1) (by omega) ?_
    have hbit := hfullx.resolve_left (by omega)
    rw [zpow_sub_one₀ two_ne_zero, ← div_div, div_inv_eq_mul]
    linarith
  · rw [if_neg hshort]
    obtain rfl : r = 2 ^ 53 := by omega
    have hsame : magnitude (2 ^ 52) (t + 1) = magnitude (2 ^ 53) t :=
      DoubleValue.magnitude_add _ _ 1
    refine nearest_packed _ (by norm_num) (by omega) (.inr le_rfl) (hsame ▸ hall) fun hlarge =>
      lt_of_large (t := t) (by omega) ?_
    obtain ⟨-, hhigh⟩ := abs_le.mp hround.abs_le_half
    push_cast at hhigh
    linarith

end WireErosion
