import Mathlib.Data.Prod.Lex
import WireErosion.Proofs.Exact

/-!
# Scalars in order

Two laws of comparison that hold of the real numbers and of doubles alike.  On doubles comparisons
with what is not a number are false, so the order is not total there, and zeros with different signs
are not the same though neither is below the other.

A double that is a number has a rank, and doubles compare as their ranks do (`compare_eq_rank`).
-/

namespace WireErosion

/-- Scalars that compare as numbers do. -/
class OrderedScalar (α : Type) [Scalar α] : Prop where
  /-- The strict order is part of the other one. -/
  le_of_lt {a b : α} : a < b → a ≤ b
  /-- Both orders compose. -/
  lt_of_lt_of_le {a b c : α} : a < b → b ≤ c → a < c

instance : OrderedScalar ℝ where
  le_of_lt := fun h => h.le
  lt_of_lt_of_le := fun h h' => lt_of_lt_of_le h h'

/-! ## Doubles -/

open Float.Model (UnpackedFloat)

namespace Double

/-- The rank of a double, `none` if it is not a number.  The members are the sign and the kind, the
exponent and the mantissa. -/
def rank : UnpackedFloat → Option (ℤ ×ₗ ℤ ×ₗ ℤ)
  | .notANumber => none
  | .infinity .negative => some (toLex (-2, toLex (0, 0)))
  | .finite .negative m e _ => some (toLex (-1, toLex (-e, -m)))
  | .zero _ => some (toLex (0, toLex (0, 0)))
  | .finite .positive m e _ => some (toLex (1, toLex (e, m)))
  | .infinity .positive => some (toLex (2, toLex (0, 0)))

theorem compare_toLex {β γ : Type} [Ord β] [Ord γ] (a a' : β) (b b' : γ) :
    compare (toLex (a, b)) (toLex (a', b')) = (compare a a').then (compare b b') := rfl

theorem compare_neg (a b : ℤ) : compare (-a) (-b) = compare b a := by
  rcases lt_trichotomy a b with h | rfl | h
  · rw [compare_gt_iff_gt.mpr h, compare_gt_iff_gt.mpr (neg_lt_neg h)]
  · simp
  · rw [compare_lt_iff_lt.mpr h, compare_lt_iff_lt.mpr (neg_lt_neg h)]

theorem compare_natCast (m n : Nat) : compare (m : ℤ) n = compare m n := by
  rcases lt_trichotomy m n with h | rfl | h
  · rw [compare_lt_iff_lt.mpr h, compare_lt_iff_lt.mpr (Int.ofNat_lt.mpr h)]
  · simp
  · rw [compare_gt_iff_gt.mpr h, compare_gt_iff_gt.mpr (Int.ofNat_lt.mpr h)]

/-- Doubles compare as their ranks do. -/
theorem compare_eq_rank (a b : UnpackedFloat) :
    a.compare b = (rank a).bind fun i => (rank b).map fun j => compare i j := by
  rcases a with (_ | _) | _ | _ | ⟨(_ | _), m, e, _⟩ <;>
    rcases b with (_ | _) | _ | _ | ⟨(_ | _), n, k, _⟩ <;>
    try rfl
  · have hrank : compare (toLex ((-1 : ℤ), toLex (-e, -(m : ℤ))))
        (toLex (-1, toLex (-k, -(n : ℤ)))) = (compare k e).then (compare n m) := by
      rw [compare_toLex, compare_toLex, compare_neg e, compare_neg (m : ℤ), compare_natCast]
      rfl
    -- Of two negative numbers the one with the larger magnitude is the smaller one.
    have hswap : ((compare e k).then (compare m n)).swap = (compare k e).then (compare n m) := by
      rw [Ordering.swap_then, ← Std.OrientedCmp.eq_swap, ← Std.OrientedCmp.eq_swap]
    exact congrArg some (hswap.trans hrank.symm)
  · have hrank : compare (toLex ((1 : ℤ), toLex (e, (m : ℤ)))) (toLex (1, toLex (k, (n : ℤ))))
        = (compare e k).then (compare m n) := by
      rw [compare_toLex, compare_toLex, compare_natCast]
      rfl
    exact congrArg some hrank.symm

theorem lt_iff {a b : Float} :
    a < b ↔ ∃ i j, rank a.toModel.unpack = some i ∧ rank b.toModel.unpack = some j ∧
      compare i j = .lt := by
  have hlt : a < b ↔ a.lt b = true := Iff.rfl
  have hcompare : a.toModel < b.toModel ↔ a.toModel.unpack.compare b.toModel.unpack = some .lt :=
    beq_iff_eq
  rw [hlt, Float.lt, decide_eq_true_iff, hcompare, compare_eq_rank, Option.bind_eq_some_iff]
  simp only [Option.map_eq_some_iff, exists_and_left]

theorem le_iff {a b : Float} :
    a ≤ b ↔ ∃ i j, rank a.toModel.unpack = some i ∧ rank b.toModel.unpack = some j ∧
      (compare i j).isLE := by
  have hle : a ≤ b ↔ a.le b = true := Iff.rfl
  have hcompare : a.toModel ≤ b.toModel ↔
      ∃ o, a.toModel.unpack.compare b.toModel.unpack = some o ∧ o.isLE :=
    Option.any_eq_true _ _
  rw [hle, Float.le, decide_eq_true_iff, hcompare]
  simp only [compare_eq_rank, Option.bind_eq_some_iff, Option.map_eq_some_iff]
  constructor
  · rintro ⟨_, ⟨i, hi, j, hj, rfl⟩, h⟩
    exact ⟨i, j, hi, hj, h⟩
  · rintro ⟨i, j, hi, hj, h⟩
    exact ⟨_, ⟨i, hi, j, hj, rfl⟩, h⟩

/-- A double that is a number has a rank. -/
theorem exists_rank {a : Float} (h : a.isNaN = false) : ∃ i, rank a.toModel.unpack = some i := by
  have hnumber : a.toModel.unpack.isNaN = false := h
  revert hnumber
  rcases a.toModel.unpack with (_ | _) | _ | _ | ⟨(_ | _), _⟩ <;> intro hnumber
  case notANumber => cases hnumber
  all_goals exact ⟨_, rfl⟩

theorem not_lt_iff {a b : Float} (ha : a.isNaN = false) (hb : b.isNaN = false) :
    ¬ a < b ↔ b ≤ a := by
  obtain ⟨i, hi⟩ := exists_rank ha
  obtain ⟨j, hj⟩ := exists_rank hb
  have hlt : a < b ↔ compare i j = .lt := by
    rw [lt_iff]
    simp [hi, hj]
  have hle : b ≤ a ↔ (compare j i).isLE := by
    rw [le_iff]
    simp [hi, hj]
  have hswap : compare j i = (compare i j).swap := Std.OrientedCmp.eq_swap
  rw [hlt, hle, hswap]
  cases compare i j <;> decide

theorem not_le_iff {a b : Float} (ha : a.isNaN = false) (hb : b.isNaN = false) :
    ¬ a ≤ b ↔ b < a := by
  rw [← not_lt_iff hb ha, not_not]

/-- Only numbers compare. -/
theorem numbers_of_le {a b : Float} (h : a ≤ b) : a.isNaN = false ∧ b.isNaN = false := by
  have hnumber : ∀ {x : Float} {i}, rank x.toModel.unpack = some i → x.isNaN = false := by
    intro x i hi
    have hkind : x.toModel.unpack.isNaN = false := by
      revert hi
      rcases x.toModel.unpack with _ | _ | _ | _ <;> intro hi <;> first | rfl | cases hi
    exact hkind
  obtain ⟨i, j, ha, hb, -⟩ := le_iff.mp h
  exact ⟨hnumber ha, hnumber hb⟩

theorem trans_le {a b c : Float} (h : a ≤ b) (h' : b ≤ c) : a ≤ c := by
  obtain ⟨i, j, ha, hb, hle⟩ := le_iff.mp h
  obtain ⟨j', k, hb', hc, hle'⟩ := le_iff.mp h'
  obtain rfl := Option.some.inj (hb.symm.trans hb')
  exact le_iff.mpr ⟨i, k, ha, hc, Std.TransCmp.isLE_trans hle hle'⟩

end Double

instance : OrderedScalar Float where
  le_of_lt := by
    intro a b h
    obtain ⟨i, j, ha, hb, hlt⟩ := Double.lt_iff.mp h
    exact Double.le_iff.mpr ⟨i, j, ha, hb, Ordering.isLE_of_eq_lt hlt⟩
  lt_of_lt_of_le := by
    intro a b c h h'
    obtain ⟨i, j, ha, hb, hlt⟩ := Double.lt_iff.mp h
    obtain ⟨j', k, hb', hc, hle⟩ := Double.le_iff.mp h'
    obtain rfl := Option.some.inj (hb.symm.trans hb')
    exact Double.lt_iff.mpr ⟨i, k, ha, hc, Std.TransCmp.lt_of_lt_of_isLE hlt hle⟩

end WireErosion
