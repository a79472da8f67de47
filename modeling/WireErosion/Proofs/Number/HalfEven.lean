import Mathlib.Algebra.Order.Field.Rat
import Mathlib.Data.Rat.Cast.Order
import Mathlib.Tactic.FieldSimp
import Mathlib.Tactic.Linarith
import Mathlib.Tactic.Positivity
import WireErosion.Number.Decimal

/-!
# The nearest whole number

A number is rounded to the nearest whole number and a tie to the even one (`Decimal.IsHalfEven`).
There is exactly one such number, and it is what a quotient is rounded to.
-/

namespace WireErosion

/-! ## Remainders -/

theorem div_eq_add_rest (n : ℕ) {d : ℕ} (hd : 0 < d) :
    (n : ℚ) / d = (n / d : ℕ) + (n % d : ℕ) / d := by
  have hd' : (d : ℚ) ≠ 0 := Nat.cast_ne_zero.mpr hd.ne'
  rw [eq_comm, eq_div_iff hd', add_mul, div_mul_cancel₀ _ hd']
  exact_mod_cast Nat.div_add_mod' n d

theorem div_lt_half {r d : ℕ} (hd : 0 < d) : (r : ℚ) / d < 1 / 2 ↔ 2 * r < d := by
  rw [div_lt_div_iff₀ (Nat.cast_pos.mpr hd) two_pos, one_mul, mul_comm]
  exact_mod_cast Iff.rfl

theorem half_lt_div {r d : ℕ} (hd : 0 < d) : 1 / 2 < (r : ℚ) / d ↔ d < 2 * r := by
  rw [div_lt_div_iff₀ two_pos (Nat.cast_pos.mpr hd), one_mul, mul_comm]
  exact_mod_cast Iff.rfl

theorem div_eq_half {r d : ℕ} (hd : 0 < d) : (r : ℚ) / d = 1 / 2 ↔ 2 * r = d := by
  rw [div_eq_div_iff (Nat.cast_ne_zero.mpr hd.ne') two_ne_zero, one_mul, mul_comm]
  exact_mod_cast Iff.rfl

theorem rest_lt_one (n : ℕ) {d : ℕ} (hd : 0 < d) : ((n % d : ℕ) : ℚ) / d < 1 :=
  (div_lt_one (Nat.cast_pos.mpr hd)).mpr (Nat.cast_lt.mpr (Nat.mod_lt n hd))

namespace Decimal

/-- A place that a number is rounded to, the even one of two. -/
def IsHalfEven (n : ℕ) (y : ℚ) : Prop := |n - y| < 1 / 2 ∨ |n - y| = 1 / 2 ∧ n % 2 = 0

namespace IsHalfEven

variable {n n' : ℕ} {y y' : ℚ}

theorem abs_le_half (h : IsHalfEven n y) : |(n : ℚ) - y| ≤ 1 / 2 := h.elim le_of_lt fun h => h.1.le

theorem natCast (n : ℕ) : IsHalfEven n n := .inl (by simp)

theorem unique (h : IsHalfEven n y) (h' : IsHalfEven n' y) : n = n' := by
  wlog hlt : n < n' generalizing n n'
  · rcases (not_lt.mp hlt).lt_or_eq with hlt | heq
    · exact (this h' h hlt).symm
    · exact heq.symm
  obtain ⟨hlow, -⟩ := abs_le.mp h.abs_le_half
  obtain ⟨-, hhigh⟩ := abs_le.mp h'.abs_le_half
  have hnext : n' = n + 1 := by
    have hcast : (n' : ℚ) ≤ n + 1 := by linarith
    have hle : n' ≤ n + 1 := by exact_mod_cast hcast
    omega
  subst hnext
  push_cast at hhigh h'
  -- Both are half a step away, so both are even.
  have hmiddle : y = n + 1 / 2 := by linarith
  rw [hmiddle] at h h'
  have heven := h.resolve_left (by norm_num)
  have heven' := h'.resolve_left (by norm_num [← sub_sub])
  omega

/-- A number that is nearer to the place is rounded to it too. -/
theorem of_nearer (h : IsHalfEven n y) (hle : |n - y'| ≤ |n - y|) : IsHalfEven n y' := by
  rcases h with h | ⟨h, heven⟩
  · exact .inl (hle.trans_lt h)
  · rcases (hle.trans_eq h).lt_or_eq with h' | h'
    · exact .inl h'
    · exact .inr ⟨h', heven⟩

/-- A larger number is not rounded to a smaller place. -/
theorem le (h : IsHalfEven n y) (h' : IsHalfEven n' y') (hle : y ≤ y') : n ≤ n' := by
  by_contra hlt
  have hstep : (n' : ℚ) + 1 ≤ n := by exact_mod_cast not_le.mp hlt
  obtain ⟨-, hhigh⟩ := abs_le.mp h.abs_le_half
  obtain ⟨hlow, -⟩ := abs_le.mp h'.abs_le_half
  -- Both numbers are in the middle of the two places, so they are rounded alike.
  obtain rfl : y = y' := by linarith
  exact hlt (h.unique h').le

/-- No whole number is nearer. -/
theorem nearest (h : IsHalfEven n y) (j : ℤ) : |(n : ℚ) - y| ≤ |(j : ℚ) - y| := by
  obtain ⟨hlow, hhigh⟩ := abs_le.mp h.abs_le_half
  rcases lt_trichotomy j n with hj | rfl | hj
  · have hj : (j : ℚ) + 1 ≤ n := by exact_mod_cast hj
    exact h.abs_le_half.trans (le_abs.mpr (.inr (by linarith)))
  · rw [Int.cast_natCast]
  · have hj : (n : ℚ) + 1 ≤ j := by exact_mod_cast hj
    exact h.abs_le_half.trans (le_abs.mpr (.inl (by linarith)))

theorem le_natCast (h : IsHalfEven n y) (hy : y < n') : n ≤ n' := by
  by_contra hlt
  obtain ⟨-, hhigh⟩ := abs_le.mp h.abs_le_half
  have hlt : (n' : ℚ) + 1 ≤ n := by exact_mod_cast not_le.mp hlt
  linarith

theorem natCast_le (h : IsHalfEven n y) (hy : n' ≤ y) : n' ≤ n := by
  by_contra hlt
  obtain ⟨hlow, -⟩ := abs_le.mp h.abs_le_half
  have hlt : (n : ℚ) + 1 ≤ n' := by exact_mod_cast not_le.mp hlt
  linarith

end IsHalfEven

theorem isHalfEven_roundHalfEven (num : ℕ) {den : ℕ} (hden : 0 < den) :
    IsHalfEven (roundHalfEven num den) (num / den) := by
  have hdivide := div_eq_add_rest num hden
  have hrest : (0 : ℚ) ≤ (num % den : ℕ) / den := by positivity
  have hrest' := rest_lt_one num hden
  have hdown : |((num / den : ℕ) : ℚ) - num / den| = (num % den : ℕ) / den := by
    rw [hdivide, sub_add_cancel_left, abs_neg, abs_of_nonneg hrest]
  have hup : |((num / den + 1 : ℕ) : ℚ) - num / den| = 1 - (num % den : ℕ) / den := by
    rw [hdivide, Nat.cast_succ, add_sub_add_left_eq_sub, abs_of_pos (by linarith)]
  unfold roundHalfEven
  dsimp only
  split_ifs with hless hmore heven
  · exact .inl (hdown.trans_lt ((div_lt_half hden).mpr hless))
  · left
    have hmore := (half_lt_div hden).mpr hmore
    rw [hup]
    linarith
  all_goals
    right
    have hhalf := (div_eq_half hden).mpr (show 2 * (num % den) = den by omega)
  · exact ⟨hdown.trans hhalf, heven⟩
  · refine ⟨hup.trans ?_, by omega⟩
    rw [hhalf]
    norm_num

/-- Every number that is not negative is rounded to a natural number. -/
theorem exists_isHalfEven {y : ℚ} (hy : 0 ≤ y) : ∃ n, IsHalfEven n y := by
  have hround := isHalfEven_roundHalfEven y.num.toNat y.den_pos
  have hnum : ((y.num.toNat : ℕ) : ℚ) = (y.num : ℚ) := by
    exact_mod_cast Int.toNat_of_nonneg (Rat.num_nonneg.mpr hy)
  rw [hnum, Rat.num_div_den] at hround
  exact ⟨_, hround⟩

end Decimal

end WireErosion
