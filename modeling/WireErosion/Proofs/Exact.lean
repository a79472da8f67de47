import Mathlib.Analysis.Real.Sqrt
import Mathlib.Tactic.Linarith
import Mathlib.Tactic.Positivity
import Mathlib.Tactic.Ring
import WireErosion.Number.Scalar

/-!
# Exact numbers

The real numbers are scalars, with the Euclidean length as the diagonal and decimal rounding to the
nearest multiple, ties to even.  What the compiler and the wear pass do over them is what they do on
doubles without the rounding errors.

`IsRounding f r` says that `f` rounds as the monotone function `r` does and never fails.  Decimal
rounding is of that kind (`isRounding_roundTo`).
-/

namespace WireErosion

/-! ## Numerals -/

namespace Exact

-- A numeral over the real numbers carries a proof that it is at least two.  These name the proof
-- for the numerals that definitions of more than one module have, which are then one term in all.
scoped instance atLeastTwo_two : Nat.AtLeastTwo 2 := ⟨le_rfl⟩

scoped instance atLeastTwo_three : Nat.AtLeastTwo 3 := ⟨by decide⟩

scoped instance atLeastTwo_five : Nat.AtLeastTwo 5 := ⟨by decide⟩

scoped instance atLeastTwo_six : Nat.AtLeastTwo 6 := ⟨by decide⟩

scoped instance atLeastTwo_ten : Nat.AtLeastTwo 10 := ⟨by decide⟩

scoped instance atLeastTwo_sixty : Nat.AtLeastTwo 60 := ⟨by decide⟩

scoped instance atLeastTwo_twoHundred : Nat.AtLeastTwo 200 := ⟨by decide⟩

end Exact

open scoped Exact

/-! ## Rounding to whole numbers -/

/-- The nearest whole number, ties to even. -/
noncomputable def nearestInt (x : ℝ) : ℤ :=
  if Int.fract x < 1 / 2 then ⌊x⌋
  else if 1 / 2 < Int.fract x then ⌊x⌋ + 1
  else if Even ⌊x⌋ then ⌊x⌋ else ⌊x⌋ + 1

theorem floor_le_nearestInt (x : ℝ) : ⌊x⌋ ≤ nearestInt x := by
  unfold nearestInt
  split_ifs <;> omega

theorem nearestInt_le_floor_add_one (x : ℝ) : nearestInt x ≤ ⌊x⌋ + 1 := by
  unfold nearestInt
  split_ifs <;> omega

theorem monotone_nearestInt : Monotone nearestInt := by
  intro x y hxy
  rcases (Int.floor_mono hxy).lt_or_eq with hlt | heq
  · calc nearestInt x ≤ ⌊x⌋ + 1 := nearestInt_le_floor_add_one x
      _ ≤ ⌊y⌋ := hlt
      _ ≤ nearestInt y := floor_le_nearestInt y
  · have hfract : Int.fract x ≤ Int.fract y := by
      unfold Int.fract
      rw [heq]
      linarith
    unfold nearestInt
    rw [heq]
    split_ifs <;> first | omega | linarith

theorem nearestInt_intCast (n : ℤ) : nearestInt n = n := by
  have hfract : Int.fract (n : ℝ) < 1 / 2 := by
    rw [Int.fract_intCast]
    norm_num
  rw [nearestInt, if_pos hfract, Int.floor_intCast]

/-! ## Real numbers as scalars -/

noncomputable instance : Scalar ℝ where
  beq a b := decide (a = b)
  decLT := inferInstance
  decLE := inferInstance
  sqrt := Real.sqrt
  hypot x y := Real.sqrt (x ^ 2 + y ^ 2)
  floor x := .ok ⌊x⌋
  roundTo places x := .ok (nearestInt (x * 10 ^ places) / 10 ^ places)
  nearestWhole x := nearestInt x

namespace Exact

@[simp] theorem zero_eq : (Scalar.zero : ℝ) = 0 := Nat.cast_zero

@[simp] theorem one_eq : (Scalar.one : ℝ) = 1 := Nat.cast_one

@[simp] theorem two_eq : (Scalar.two : ℝ) = 2 := Nat.cast_ofNat

@[simp] theorem max_eq (a b : ℝ) : Scalar.max a b = max a b := by
  unfold Scalar.max
  split_ifs with h
  · exact (max_eq_right h.le).symm
  · exact (max_eq_left (not_lt.mp h)).symm

@[simp] theorem min_eq (a b : ℝ) : Scalar.min a b = min a b := by
  unfold Scalar.min
  split_ifs with h
  · exact (min_eq_right h.le).symm
  · exact (min_eq_left (not_lt.mp h)).symm

theorem quotient_eq {a b : ℝ} (h : b ≠ 0) : Scalar.quotient a b = .ok (a / b) := by
  have hb : (b == (Scalar.zero : ℝ)) = false := decide_eq_false (by rw [zero_eq]; exact h)
  rw [Scalar.quotient, hb]
  rfl

theorem floor_eq (x : ℝ) : Scalar.floor x = .ok ⌊x⌋ := rfl

theorem distance_eq (x₁ y₁ x₂ y₂ : ℝ) :
    Scalar.distance x₁ y₁ x₂ y₂ = Real.sqrt ((x₂ - x₁) ^ 2 + (y₂ - y₁) ^ 2) := rfl

theorem distance_nonneg (x₁ y₁ x₂ y₂ : ℝ) : 0 ≤ Scalar.distance x₁ y₁ x₂ y₂ :=
  Real.sqrt_nonneg _

theorem distance_comm (x₁ y₁ x₂ y₂ : ℝ) :
    Scalar.distance x₁ y₁ x₂ y₂ = Scalar.distance x₂ y₂ x₁ y₁ := by
  rw [distance_eq, distance_eq]
  congr 1
  ring

end Exact

/-! ## Rounding -/

/-- A rounding that never fails and keeps the order of numbers. -/
structure IsRounding (round : ℝ → Except Fault ℝ) (r : ℝ → ℝ) : Prop where
  /-- What it rounds to. -/
  eq_ok : ∀ x, round x = .ok (r x)
  /-- It keeps the order. -/
  mono : Monotone r

/-- Whole numbers stay as they are. -/
theorem roundTo_intCast (places : ℤ) (hplaces : 0 ≤ places) (n : ℤ) :
    Scalar.roundTo places (n : ℝ) = .ok (n : ℝ) := by
  obtain ⟨k, rfl⟩ := Int.eq_ofNat_of_zero_le hplaces
  have hscaled : (n : ℝ) * 10 ^ (k : ℤ) = ((n * 10 ^ k : ℤ) : ℝ) := by
    push_cast
    rfl
  have hpos : (10 : ℝ) ^ (k : ℤ) ≠ 0 := zpow_ne_zero _ (by norm_num)
  change Except.ok ((nearestInt ((n : ℝ) * 10 ^ (k : ℤ)) : ℝ) / 10 ^ (k : ℤ)) = _
  rw [hscaled, nearestInt_intCast, ← hscaled, mul_div_cancel_right₀ _ hpos]

/-- Rounding to a count of decimal places. -/
theorem isRounding_roundTo (places : ℤ) :
    IsRounding (Scalar.roundTo places)
      (fun x : ℝ => (nearestInt (x * 10 ^ places) : ℝ) / 10 ^ places) := by
  refine ⟨fun _ => rfl, fun x y hxy => ?_⟩
  have hpos : (0 : ℝ) < 10 ^ places := zpow_pos (by norm_num) places
  have hscaled : x * 10 ^ places ≤ y * 10 ^ places := mul_le_mul_of_nonneg_right hxy hpos.le
  have hnearest : (nearestInt (x * 10 ^ places) : ℝ) ≤ nearestInt (y * 10 ^ places) :=
    Int.cast_le.mpr (monotone_nearestInt hscaled)
  exact div_le_div_of_nonneg_right hnearest hpos.le

end WireErosion
