import WireErosion.Proofs.Number.Quotient

/-!
# Doubles on a decimal grid

A double that is rounded to decimal places is the one nearest to a place of the grid, and then that
place is also the one nearest to the double: the double is no farther from the place than the number
that was rounded, and a tie goes to the same even place again.  So a rounded double is written as
its place and read back as itself (`Double.settled_of_roundTo`).
-/

namespace WireErosion

open DoubleValue (IsMagnitude magnitude numerator denominator)

namespace Decimal

theorem isHalfEven_onGrid (m : ℕ) (q : ℤ) (places : ℕ) :
    IsHalfEven (onGrid (numerator m q) (denominator q) places) (magnitude m q * 10 ^ places) := by
  rw [onGrid, Int.toNat_natCast, DoubleValue.magnitude_eq, div_mul_eq_mul_div]
  have hzero : (-(places : ℤ)).toNat = 0 := by omega
  rw [hzero, Nat.pow_eq, Nat.pow_eq, pow_zero, mul_one]
  exact_mod_cast isHalfEven_roundHalfEven (numerator m q * 10 ^ places)
    (DoubleValue.denominator_pos q)

end Decimal

namespace Double

/-- The place of a finite double on the grid of `places` decimal places, without its sign. -/
def place (places : ℕ) (m : ℕ) (q : ℤ) : ℕ :=
  Decimal.onGrid (numerator m q) (denominator q) places

/-- The largest finite double. -/
def mostMagnitude : ℕ := (2 ^ 53 - 1) * 2 ^ 971

theorem mostMagnitude_lt : mostMagnitude < 10 ^ 309 := by decide +kernel

theorem cast_mostMagnitude : (mostMagnitude : ℚ) = magnitude (2 ^ 53 - 1) 971 := by
  rw [mostMagnitude, magnitude, Nat.cast_mul, Nat.cast_pow, zpow_ofNat]
  rfl

theorem le_mostMagnitude {a : ℚ} (h : IsMagnitude a) : a ≤ mostMagnitude := by
  have hmost : magnitude (2 ^ 53 - 1) 971 = (2 ^ 53 - 1) * 2 ^ (971 : ℤ) := by
    rw [magnitude]
    norm_num
  rw [cast_mostMagnitude, hmost]
  exact isMagnitude_le h

theorem place_le (places : ℕ) {m : ℕ} {q : ℤ} (h : IsMagnitude (magnitude m q)) :
    place places m q ≤ mostMagnitude * 10 ^ places := by
  refine (Decimal.isHalfEven_onGrid m q places).le (.natCast (mostMagnitude * 10 ^ places)) ?_
  rw [Nat.cast_mul, Nat.cast_pow, Nat.cast_ofNat]
  exact mul_le_mul_of_nonneg_right (le_mostMagnitude h) (by positivity)

/-- A finite double that is the one nearest to its place on the grid. -/
def Settled (places : ℕ) (x : Float) : Prop :=
  ∃ s m q, DoubleValue.of x = .finite s m q ∧
    DoubleValue.of (ofGrid (place places m q) places) = .finite false m q

/-- Whether a double is a number and not an infinity. -/
def isFinite (x : Float) : Bool :=
  match DoubleValue.of x with
  | .finite _ _ _ => true
  | _ => false

theorem exists_of_isFinite {x : Float} (h : isFinite x = true) :
    ∃ s m q, DoubleValue.of x = .finite s m q := by
  rw [isFinite] at h
  split at h
  next s m q hx => exact ⟨s, m, q, hx⟩
  next => cases h

theorem isInf_eq_false {x : Float} (h : x.isInf = false) (s : Bool) :
    DoubleValue.of x ≠ .infinite s := by
  intro hx
  obtain ⟨u, hu, rfl⟩ := DoubleValue.exists_packed x
  rw [Float.isInf, Float.Model.isInf, DoubleValue.toModel_packed hu] at h
  rw [DoubleValue.of_packed hu] at hx
  cases u <;> simp [DoubleValue.ofUnpacked, Float.Model.UnpackedFloat.isInf] at h hx

/-- The double nearest to the place of a double has the same place. -/
theorem place_ofGrid {places m m' : ℕ} {q q' : ℤ} (hm : IsMagnitude (magnitude m q))
    (h : DoubleValue.of (ofGrid (place places m q) places) = .finite false m' q') :
    place places m' q' = place places m q := by
  have hpow : (0 : ℚ) < 10 ^ places := by positivity
  have hgrid := Decimal.isHalfEven_onGrid m q places
  have hnearest := ofGrid_nearest (place places m q) places
  rw [h] at hnearest
  refine (Decimal.isHalfEven_onGrid m' q' places).unique (hgrid.of_nearer ?_)
  have hscale : ∀ a : ℚ, |(place places m q : ℚ) - a * 10 ^ places|
      = |a - place places m q / 10 ^ places| * 10 ^ places := by
    intro a
    rw [abs_sub_comm, ← abs_of_pos hpow, ← abs_mul, abs_of_pos hpow, sub_mul,
      div_mul_cancel₀ _ hpow.ne']
  have hbound := mul_le_mul_of_nonneg_right (hnearest.2 _ hm) hpow.le
  rw [← hscale, ← hscale] at hbound
  exact hbound

theorem place_zero (places : ℕ) (q : ℤ) : place places 0 q = 0 := by
  simp [place, Decimal.onGrid, Decimal.roundHalfEven, numerator]

/-- The double nearest to the place of a double is zero only if the place is. -/
theorem eq_zero_iff_place_eq_zero {places m m' : ℕ} {q q' : ℤ} (hm : IsMagnitude (magnitude m q))
    (h : DoubleValue.of (ofGrid (place places m q) places) = .finite false m' q') :
    m' = 0 ↔ place places m q = 0 := by
  constructor
  · rintro rfl
    rw [← place_ofGrid hm h, place_zero]
  · intro hplace
    have hnearest := ofGrid_nearest (place places m q) places
    rw [h, hplace, Nat.cast_zero, zero_div] at hnearest
    have hsmall := hnearest.2 0 DoubleValue.isMagnitude_zero
    rw [sub_zero, sub_zero, abs_zero, abs_nonpos_iff, magnitude] at hsmall
    exact_mod_cast (mul_eq_zero.mp hsmall).resolve_right (zpow_ne_zero _ two_ne_zero)

/-- A double that needs no more decimal places than the grid has is at its place. -/
theorem ofGrid_place {places : ℕ} {x : Float} {s : Bool} {m : ℕ} {q : ℤ}
    (hx : DoubleValue.of x = .finite s m q) (hplaces : 1074 ≤ places) :
    DoubleValue.of (ofGrid (place places m q) places) = .finite false m q := by
  have hleast : -1074 ≤ q := by
    rcases DoubleValue.canonical_of hx with ⟨-, rfl⟩ | ⟨-, hcanonical⟩
    · norm_num
    · exact hcanonical.least
  obtain ⟨k, hk⟩ := Int.eq_ofNat_of_zero_le (show 0 ≤ q + places by omega)
  have hwhole : magnitude m q * 10 ^ places = (m * 2 ^ k * 5 ^ places : ℕ) := by
    have htwo : (2 : ℚ) ^ q * 2 ^ places = 2 ^ k := by
      rw [← zpow_natCast, ← zpow_natCast, ← zpow_add₀ two_ne_zero, hk]
    have hten : (10 : ℚ) ^ places = 2 ^ places * 5 ^ places := by
      rw [← mul_pow]
      norm_num
    rw [magnitude, hten]
    push_cast
    rw [← htwo]
    ring
  have hplace : place places m q = m * 2 ^ k * 5 ^ places := by
    have hgrid := Decimal.isHalfEven_onGrid m q places
    rw [hwhole] at hgrid
    refine hgrid.unique (.inl ?_)
    norm_num
  have hnumber : (place places m q : ℚ) / 10 ^ places = magnitude m q := by
    rw [hplace, ← hwhole, mul_div_cancel_right₀ _ (by positivity)]
  have hnearest := ofGrid_nearest (place places m q) places
  rw [hnumber] at hnearest
  obtain ⟨m', q', hvalue, hmagnitude⟩ := hnearest.exact (DoubleValue.isMagnitude_of hx)
  obtain ⟨rfl, rfl⟩ := DoubleValue.eq_of_magnitude_eq hvalue hx hmagnitude
  exact hvalue

/-- A finite double that was rounded to decimal places is settled. -/
theorem settled_of_roundTo {places : ℕ} {x y : Float} (h : roundTo places x = some y)
    (hfinite : isFinite y = true) : Settled places y := by
  obtain ⟨s, m, q, hy⟩ := exists_of_isFinite hfinite
  rw [roundTo] at h
  split at h
  next negative m₀ q₀ hx =>
    have hmany : ¬ (places : ℤ) < fewestPlaces := by
      rw [fewestPlaces]
      omega
    split_ifs at h with hplaces
    · obtain rfl := Option.some.inj h
      exact ⟨_, _, _, hx, ofGrid_place hx (by rw [mostPlaces] at hplaces; omega)⟩
    · dsimp only at h
      split at h
      next => cases h
      next hinf =>
        obtain rfl := Option.some.inj h
        have hnearest := ofGrid_nearest (place places m₀ q₀) places
        have hfinite := isInf_eq_false (Bool.not_eq_true _ ▸ hinf)
        obtain ⟨m', q', hvalue⟩ : ∃ m' q', DoubleValue.of (ofGrid (place places m₀ q₀) places)
            = .finite false m' q' := by
          cases hvalue : DoubleValue.of (ofGrid (place places m₀ q₀) places) with
          | notANumber => exact (hvalue ▸ hnearest).elim
          | infinite s => exact absurd hvalue (hfinite s)
          | finite s m' q' =>
              obtain ⟨rfl, -⟩ : s = false ∧ _ := hvalue ▸ hnearest
              exact ⟨m', q', rfl⟩
        have hplace := place_ofGrid (DoubleValue.isMagnitude_of hx) hvalue
        obtain ⟨rfl, rfl, rfl⟩ : negative = s ∧ m' = m ∧ q' = q := by
          simpa using (DoubleValue.of_withSign_finite negative hvalue).symm.trans hy
        exact ⟨negative, m', q', hy, hplace ▸ hvalue⟩
  next hx =>
    obtain rfl := Option.some.inj h
    exact absurd hy (hx _ _ _)

end Double

end WireErosion
