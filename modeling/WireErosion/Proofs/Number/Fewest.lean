import WireErosion.Number.Text
import WireErosion.Proofs.Number.Digits
import WireErosion.Proofs.Number.Quotient
import WireErosion.Proofs.Ordered

/-!
# The fewest digits that read back

A number is rounded to a double that it is close to (`RoundsTo.of_close`).  Of the two numbers with
seventeen digits next to a double one is as close as that (`Double.exists_readingBack`).  So there
always are digits that read back as a positive double, and the fewest digits do
(`Double.readsBack_fewestDigits`).
-/

namespace WireErosion

open DoubleValue (Packable magnitude numerator denominator packed)

/-! ## Equal doubles -/

/-- A positive double is equal only to itself. -/
theorem Double.beq_iff_of_pos {x y : Float} {m : ℕ} {q : ℤ}
    (hy : DoubleValue.of y = .finite false m q) (hm : 0 < m) : (x == y) = true ↔ x = y := by
  obtain ⟨rfl, hcanonical⟩ := exists_packed_finite hy hm
  obtain ⟨u, hu, rfl⟩ := DoubleValue.exists_packed x
  have hv : Packable (.finite .positive m q hm) := hcanonical
  have hbeq : (packed u == packed (.finite .positive m q hm))
      = (u.compare (.finite .positive m q hm) == some .eq) := by
    change ((packed u).toModel.unpack.compare (packed (.finite .positive m q hm)).toModel.unpack
      == some .eq) = _
    rw [DoubleValue.toModel_packed hu, DoubleValue.toModel_packed hv]
  rw [hbeq, beq_iff_eq, compare_eq_rank]
  constructor
  · intro h
    obtain ⟨i, hi, hcompare⟩ := Option.bind_eq_some_iff.mp h
    obtain rfl := compare_eq_iff_eq.mp (Option.some.inj hcompare)
    rcases u with (_ | _) | _ | _ | ⟨(_ | _), m', q', hm'⟩ <;> cases hi
    rfl
  · intro h
    have hu' : u = .finite .positive m q hm := by
      rw [← DoubleValue.toModel_packed hu, h, DoubleValue.toModel_packed hv]
    rw [hu']
    exact congrArg some (compare_eq_iff_eq.mpr rfl)

/-! ## Numbers close to a double -/

/-- A number is rounded to a double from which it differs by at most one part in `2 ^ 54`. -/
theorem RoundsTo.of_close {x : Float} {m : ℕ} {q : ℤ} (hx : DoubleValue.of x = .finite false m q)
    (hm : 0 < m) {y : ℚ} (hy : 2 ^ 54 * |y - magnitude m q| ≤ magnitude m q) : RoundsTo y x := by
  obtain ⟨rfl, hcanonical⟩ := exists_packed_finite hx hm
  have hpow : (0 : ℚ) < 2 ^ q := by positivity
  obtain ⟨u, rfl⟩ : ∃ u, y = u * 2 ^ q := ⟨y / 2 ^ q, (div_mul_cancel₀ _ hpow.ne').symm⟩
  have hclose : 2 ^ 54 * |u - m| ≤ m := by
    rw [magnitude, ← sub_mul, abs_mul, abs_of_pos hpow, ← mul_assoc] at hy
    exact (mul_le_mul_iff_left₀ hpow).mp hy
  have hscale : u * 2 ^ q / 2 ^ q = u := mul_div_cancel_right₀ _ hpow.ne'
  have hlt : (m : ℚ) + 1 ≤ 2 ^ 53 := by exact_mod_cast Nat.succ_le_of_lt hcanonical.mantissa_lt
  obtain ⟨hlow, hhigh⟩ := abs_le.mp (show |u - m| ≤ m / 2 ^ 54 by linarith)
  by_cases hfull : q = -1074 ∨ 2 ^ 52 ≤ u
  · refine ⟨m, q, ⟨hcanonical.least, ?_, ?_⟩, .inl ?_, ?_⟩
    · rw [hscale]
      linarith
    · rwa [hscale]
    · rw [hscale, abs_sub_comm]
      linarith
    · rw [carried, dif_neg hm.ne', if_pos hcanonical.mantissa_lt]
  · -- The number is below the least double with the exponent, where doubles are closer.
    obtain ⟨hq, hless⟩ := not_or.mp hfull
    have hbit : 2 ^ 52 ≤ m := hcanonical.full.resolve_left hq
    obtain rfl : m = 2 ^ 52 := by
      have hle : (m : ℚ) < 2 ^ 52 + 1 := by linarith
      have hle : m < 2 ^ 52 + 1 := by exact_mod_cast hle
      omega
    have hdouble : u * 2 ^ q / 2 ^ (q - 1) = 2 * u := by
      rw [zpow_sub_one₀ two_ne_zero]
      field_simp
    have hleast := hcanonical.least
    push_cast at hlow hhigh
    refine ⟨2 ^ 53, q - 1, ⟨by omega, ?_, .inr ?_⟩, ?_, ?_⟩
    · rw [hdouble]
      linarith
    · rw [hdouble]
      linarith
    · have hhalf : |((2 ^ 53 : ℕ) : ℚ) - 2 * u| ≤ 1 / 2 := by
        push_cast
        rw [abs_le]
        constructor <;> linarith
      rw [hdouble]
      exact hhalf.lt_or_eq.imp_right fun heq => ⟨heq, by norm_num⟩
    · rw [carried, dif_neg (by norm_num), if_neg (by norm_num)]
      congr 2
      omega

/-! ## Significant digits -/

namespace Decimal

/-- The power of ten of the first digit of a quotient. -/
theorem leadingExponent_spec {num den : ℕ} (hnum : 0 < num) (hden : 0 < den) :
    (10 : ℚ) ^ leadingExponent num den ≤ num / den ∧
      (num / den : ℚ) < 10 ^ (leadingExponent num den + 1) := by
  have hnum' : (0 : ℚ) < num := Nat.cast_pos.mpr hnum
  have hden' : (0 : ℚ) < den := Nat.cast_pos.mpr hden
  rw [leadingExponent]
  split
  next hle =>
    obtain ⟨k, hk, hlow, hhigh⟩ := exists_length_digits (Nat.div_pos hle hden)
    rw [Nat.le_div_iff_mul_le hden] at hlow
    rw [Nat.div_lt_iff_lt_mul hden] at hhigh
    rw [hk, Nat.cast_succ, add_sub_cancel_right, le_div_iff₀ hden', div_lt_iff₀ hden', zpow_natCast,
      zpow_add_one₀ (by norm_num), zpow_natCast, ← pow_succ]
    exact ⟨by exact_mod_cast hlow, by exact_mod_cast hhigh⟩
  next hlt =>
    obtain ⟨k, hk, hlow, hhigh⟩ := exists_length_digits (Nat.div_pos (not_le.mp hlt).le hnum)
    rw [Nat.le_div_iff_mul_le hnum] at hlow
    rw [Nat.div_lt_iff_lt_mul hnum] at hhigh
    dsimp only
    rw [hk, Nat.add_sub_cancel, Nat.cast_succ, add_sub_cancel_right]
    have hlow' : (10 ^ k : ℚ) * num ≤ den := by exact_mod_cast hlow
    have hhigh' : (den : ℚ) < 10 ^ (k + 1) * num := by exact_mod_cast hhigh
    have hpow : (0 : ℚ) < 10 ^ k := by positivity
    split
    next hexact =>
      have hexact' : (den : ℚ) ≤ num * 10 ^ k := by exact_mod_cast hexact
      rw [zpow_add_one₀ (by norm_num), zpow_neg, zpow_natCast, le_div_iff₀ hden',
        div_lt_iff₀ hden', inv_mul_le_iff₀ hpow, mul_assoc, lt_inv_mul_iff₀ hpow]
      constructor <;> linarith
    next hinexact =>
      have hinexact' : (num : ℚ) * 10 ^ k < den := by exact_mod_cast not_le.mp hinexact
      have hnext : -((k : ℤ) + 1) + 1 = -k := by ring
      rw [hnext, zpow_neg, zpow_neg, zpow_natCast, ← Nat.cast_succ, zpow_natCast,
        le_div_iff₀ hden', div_lt_iff₀ hden', inv_mul_le_iff₀ (by positivity),
        lt_inv_mul_iff₀ hpow]
      exact ⟨hhigh'.le, by linarith⟩

/-- A quotient in steps of a power of ten. -/
theorem quotient_in_steps (num den : ℕ) (places : ℤ) :
    ((num * Nat.pow 10 places.toNat : ℕ) : ℚ) / (den * Nat.pow 10 (-places).toNat : ℕ)
      * 10 ^ (-places) = num / den := by
  have hten : (10 : ℚ) ^ places = 10 ^ places.toNat / 10 ^ (-places).toNat := by
    obtain ⟨k, rfl | rfl⟩ := places.eq_nat_or_neg <;> simp
  rw [Nat.cast_mul, Nat.cast_mul, mul_div_mul_comm, Nat.pow_eq, Nat.pow_eq, Nat.cast_pow,
    Nat.cast_pow, Nat.cast_ofNat, ← hten, zpow_neg, mul_inv_cancel_right₀ (by positivity)]

namespace Significant

/-- The number that significant digits write. -/
def value (s : Significant) : ℚ := s.mantissa * 10 ^ (s.exponent + 1 - (digits s.mantissa).length)

/-- A number is written with some digits after the first one. -/
structure Writes (s : Significant) (k : ℕ) (y : ℚ) : Prop where
  /-- There are enough digits. -/
  low : 10 ^ k ≤ s.mantissa
  /-- There are no more digits. -/
  high : s.mantissa < 10 ^ (k + 1)
  /-- The digits stand for the number. -/
  eq_mul : y = s.mantissa * 10 ^ (s.exponent - k)

theorem Writes.value_eq {s : Significant} {k : ℕ} {y : ℚ} (h : s.Writes k y) : s.value = y := by
  rw [value, length_digits h.low h.high, h.eq_mul, Nat.cast_succ, add_sub_add_right_eq_sub]

/-- The number after one that is written with some digits.  After nines only it has a one and zeros,
and its first digit is one place higher. -/
theorem writes_succ {n k : ℕ} (hlow : 10 ^ k ≤ n) (hhigh : n < 10 ^ (k + 1)) (e : ℤ) :
    (if n + 1 < 10 ^ (k + 1) then ⟨n + 1, e⟩ else ⟨10 ^ k, e + 1⟩ : Significant).Writes k
      ((n + 1) * 10 ^ (e - k)) := by
  split
  next hlt => exact ⟨hlow.trans n.le_succ, hlt, by push_cast; rfl⟩
  next hcarry =>
    obtain rfl : n = 10 ^ (k + 1) - 1 := by omega
    refine ⟨le_rfl, Nat.pow_lt_pow_succ (by norm_num), ?_⟩
    have hnext : e + 1 - k = e - k + 1 := by ring
    rw [hnext, zpow_add_one₀ (by norm_num), Nat.cast_sub (Nat.one_le_pow _ _ (by norm_num))]
    push_cast
    ring

/-- A number has as many digits in steps as there are steps from its first digit down. -/
theorem digits_in_steps {n k : ℕ} {e : ℤ} {rest : ℚ} (hrest : 0 ≤ rest) (hrest' : rest < 1)
    (hlow : (10 : ℚ) ^ e ≤ (n + rest) * 10 ^ (e - k))
    (hhigh : (n + rest) * 10 ^ (e - k) < (10 : ℚ) ^ (e + 1)) : 10 ^ k ≤ n ∧ n < 10 ^ (k + 1) := by
  have hstep : (0 : ℚ) < 10 ^ (e - k) := by positivity
  have hscale : (10 : ℚ) ^ e = 10 ^ k * 10 ^ (e - k) := by
    rw [← zpow_natCast, ← zpow_add₀ (by norm_num), add_sub_cancel]
  constructor
  · rw [hscale, mul_le_mul_iff_left₀ hstep] at hlow
    have hlt : (10 ^ k : ℚ) < n + 1 := by linarith
    exact Nat.lt_succ_iff.mp (by exact_mod_cast hlt)
  · rw [zpow_add_one₀ (by norm_num), hscale, mul_right_comm, mul_lt_mul_iff_left₀ hstep,
      ← pow_succ] at hhigh
    have hlt : (n : ℚ) < 10 ^ (k + 1) := by linarith
    exact_mod_cast hlt

end Significant

end Decimal

namespace Double

open Decimal (Significant digits leadingExponent)

/-- The two numbers with some digits next to a positive quotient are one step apart. -/
theorem exists_neighbours {num den : ℕ} (hnum : 0 < num) (hden : 0 < den) (k : ℕ) :
    ∃ n : ℕ, (n : ℚ) * 10 ^ (leadingExponent num den - k) ≤ num / den ∧
      (num / den : ℚ) < (n + 1) * 10 ^ (leadingExponent num den - k) ∧
      (neighbours (k + 1) num den).1.Writes k (n * 10 ^ (leadingExponent num den - k)) ∧
      (neighbours (k + 1) num den).2.Writes k ((n + 1) * 10 ^ (leadingExponent num den - k)) := by
  obtain ⟨hlow, hhigh⟩ := Decimal.leadingExponent_spec hnum hden
  rw [neighbours]
  generalize leadingExponent num den = e at hlow hhigh ⊢
  have hplaces : ((k + 1 : ℕ) : ℤ) - 1 - e = k - e := by omega
  have hstep : (0 : ℚ) < 10 ^ (e - k) := by positivity
  have hquotient := Decimal.quotient_in_steps num den (k - e)
  have hden' : 0 < den * Nat.pow 10 (-(k - e : ℤ)).toNat := by
    rw [Nat.pow_eq]
    positivity
  dsimp only
  rw [hplaces, Nat.add_sub_cancel]
  generalize num * Nat.pow 10 (k - e : ℤ).toNat = a at hquotient ⊢
  generalize den * Nat.pow 10 (-(k - e : ℤ)).toNat = b at hquotient hden' ⊢
  rw [neg_sub, div_eq_add_rest a hden'] at hquotient
  rw [← hquotient] at hlow hhigh ⊢
  have hrest : (0 : ℚ) ≤ (a % b : ℕ) / b := by positivity
  have hrest' := rest_lt_one a hden'
  generalize ((a % b : ℕ) : ℚ) / b = rest at hrest hrest' hlow hhigh ⊢
  generalize a / b = n at hlow hhigh ⊢
  obtain ⟨hfirst, hlast⟩ := Significant.digits_in_steps hrest hrest' hlow hhigh
  refine ⟨n, ?_, ?_, ⟨hfirst, hlast, rfl⟩, Significant.writes_succ hfirst hlast e⟩
  · exact mul_le_mul_of_nonneg_right (by linarith) hstep.le
  · exact mul_lt_mul_of_pos_right (by linarith) hstep

/-- Digits that are read as a double, and at most seventeen of them. -/
structure ReadsBack (x : Float) (s : Significant) : Prop where
  /-- The number is positive. -/
  pos : 0 < s.mantissa
  /-- There are at most seventeen digits. -/
  short : s.mantissa < 10 ^ 17
  /-- The double is what the digits are rounded to. -/
  rounds : RoundsTo s.value x

theorem ofSignificant_rounds {s : Significant} {k : ℕ} {y : ℚ} (h : s.Writes k y) :
    RoundsTo y (ofSignificant (k + 1) s) := by
  have hrounds := ofGrid_rounds s.mantissa (((k + 1 : ℕ) : ℤ) - 1 - s.exponent)
  have hplaces : -(((k + 1 : ℕ) : ℤ) - 1 - s.exponent) = s.exponent - k := by omega
  rw [hplaces, ← h.eq_mul] at hrounds
  exact hrounds

theorem readsBack_of_beq {x : Float} {m : ℕ} {q : ℤ} (hx : DoubleValue.of x = .finite false m q)
    (hm : 0 < m) {s : Significant} {k : ℕ} (hk : k < 17) {y : ℚ} (h : s.Writes k y)
    (hback : (ofSignificant (k + 1) s == x) = true) : ReadsBack x s := by
  rw [beq_iff_of_pos hx hm] at hback
  refine ⟨(Nat.pow_pos (by norm_num)).trans_le h.low,
    h.high.trans_le (Nat.pow_le_pow_right (by norm_num) hk), ?_⟩
  rw [h.value_eq, ← hback]
  exact ofSignificant_rounds h

section

variable {x : Float} {m : ℕ} {q : ℤ}

/-- The digits that are taken are read as the double. -/
theorem readsBack_of_readingBack (hx : DoubleValue.of x = .finite false m q) (hm : 0 < m)
    {num den k : ℕ} (hk : k < 17) (hnum : 0 < num) (hden : 0 < den) {s : Significant}
    (h : readingBack? x num den (k + 1) = some s) : ReadsBack x s := by
  obtain ⟨n, -, -, hbelow, habove⟩ := exists_neighbours hnum hden k
  rw [readingBack?] at h
  generalize neighbours (k + 1) num den = pair at h hbelow habove
  obtain ⟨below, above⟩ := pair
  dsimp only at h hbelow habove
  split at h
  next hback hback' =>
    split at h <;> obtain rfl := Option.some.inj h
    · exact readsBack_of_beq hx hm hk habove hback'
    · exact readsBack_of_beq hx hm hk hbelow hback
  next hback _ =>
    obtain rfl := Option.some.inj h
    exact readsBack_of_beq hx hm hk hbelow hback
  next _ hback =>
    obtain rfl := Option.some.inj h
    exact readsBack_of_beq hx hm hk habove hback
  next => cases h

/-- Seventeen digits can be read as the double. -/
theorem exists_readingBack (hx : DoubleValue.of x = .finite false m q) (hm : 0 < m) :
    ∃ s, readingBack? x (numerator m q) (denominator q) 17 = some s := by
  have hden := DoubleValue.denominator_pos q
  have hnum : 0 < numerator m q := by
    rw [numerator, Nat.pow_eq]
    positivity
  obtain ⟨n, hlow, hhigh, hbelow, habove⟩ := exists_neighbours hnum hden 16
  obtain ⟨hlead, -⟩ := Decimal.leadingExponent_spec hnum hden
  rw [← DoubleValue.magnitude_eq] at hlow hhigh hlead
  -- One of the two numbers is at most half a step away.
  have hstep : (10 : ℚ) ^ (leadingExponent (numerator m q) (denominator q) - (16 : ℕ)) * 10 ^ 16
      ≤ magnitude m q := by
    refine le_trans (le_of_eq ?_) hlead
    rw [← zpow_natCast, ← zpow_add₀ (by norm_num), sub_add_cancel]
  have hback : ∀ {s : Significant} {y : ℚ}, s.Writes 16 y →
      2 * |y - magnitude m q| ≤ 10 ^ (leadingExponent (numerator m q) (denominator q) - (16 : ℕ)) →
      (ofSignificant 17 s == x) = true := by
    intro s y hs hy
    rw [beq_iff_of_pos hx hm]
    refine (ofSignificant_rounds hs).unique (RoundsTo.of_close hx hm ?_)
    linarith
  rw [readingBack?]
  generalize neighbours 17 (numerator m q) (denominator q) = pair at hbelow habove
  obtain ⟨below, above⟩ := pair
  dsimp only at hbelow habove ⊢
  generalize (10 : ℚ) ^ (leadingExponent (numerator m q) (denominator q) - (16 : ℕ)) = step
    at hlow hhigh hbelow habove hback
  split
  next => exact ⟨_, rfl⟩
  next => exact ⟨_, rfl⟩
  next => exact ⟨_, rfl⟩
  next hbelow' habove' =>
    rcases le_total (magnitude m q - n * step) ((n + 1) * step - magnitude m q) with hle | hle
    · refine absurd (hback hbelow ?_) (Bool.not_eq_true _ ▸ hbelow')
      rw [abs_of_nonpos (by linarith)]
      linarith
    · refine absurd (hback habove ?_) (Bool.not_eq_true _ ▸ habove')
      rw [abs_of_pos (by linarith)]
      linarith

/-- The fewest digits are read as the double. -/
theorem readsBack_fewestDigits (hx : DoubleValue.of x = .finite false m q) (hm : 0 < m) :
    ReadsBack x (fewestDigits x (numerator m q) (denominator q)) := by
  have hnum : 0 < numerator m q := by
    rw [numerator, Nat.pow_eq]
    positivity
  rw [fewestDigits]
  split
  next s hs =>
    obtain ⟨k, hlt, hk⟩ := List.exists_of_findSome?_eq_some hs
    exact readsBack_of_readingBack hx hm (List.mem_range.mp hlt) hnum
      (DoubleValue.denominator_pos q) hk
  next hnone =>
    obtain ⟨s, hs⟩ := exists_readingBack hx hm
    rw [List.findSome?_eq_none_iff] at hnone
    rw [hnone 16 (by simp)] at hs
    cases hs

end

end Double

end WireErosion
