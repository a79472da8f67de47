import WireErosion.Proofs.Number.Quotient
import WireErosion.Proofs.Ordered

/-!
# Differences of doubles

A double less a positive one is never above it.  Either the difference is below it, or the step is
lost in rounding and the difference is the same double (`Double.sub_lt_or_eq`).  The reason is that
the difference is rounded to the nearest double, and the double that it is taken from is one
(`Nearest.lt_or_eq_of_le`).

`SteppingScalar` is this law together with those of a zero, for the real numbers and for doubles.  A
loop that goes down by such steps either makes progress or stands still for ever.
-/

namespace WireErosion

open Float.Model (UnpackedFloat Format)
open Float.Model.UnpackedFloat (Sign packComponents)
open DoubleValue (Packable Canonical IsMagnitude magnitude packed toModel_packed of_packed
  packed_unpack)

/-! ## Signs -/

theorem unpack_packComponents_neg (s : Sign) (e : BitVec 11) (m : BitVec 52) :
    UnpackedFloat.unpack Format.binary64 (packComponents Format.binary64 (-s) e m)
      = (UnpackedFloat.unpack Format.binary64 (packComponents Format.binary64 s e m)).neg := by
  unfold UnpackedFloat.unpack
  simp only [UnpackedFloat.unpackMantissa_packComponents,
    UnpackedFloat.unpackExponent_packComponents, UnpackedFloat.unpackSign_packComponents,
    Sign.ofBitVec_toBitVec]
  split_ifs <;> rfl

/-- Packing keeps the sign apart from the rest, also where the exponent is too large. -/
theorem packed_neg (u : UnpackedFloat) : packed u.neg = -packed u := by
  have hneg : -packed u = packed (packed u).toModel.unpack.neg := rfl
  have hunpack : (packed u.neg).toModel.unpack = (packed u).toModel.unpack.neg := by
    change UnpackedFloat.unpack Format.binary64 (UnpackedFloat.pack Format.binary64 u.neg) =
      (UnpackedFloat.unpack Format.binary64 (UnpackedFloat.pack Format.binary64 u)).neg
    cases u with
    | notANumber => rfl
    | infinity s => exact unpack_packComponents_neg s _ _
    | zero s => exact unpack_packComponents_neg s _ _
    | finite s m q hm =>
        simp only [UnpackedFloat.neg, UnpackedFloat.pack]
        split_ifs <;> exact unpack_packComponents_neg s _ _
  rw [hneg, ← hunpack, packed_unpack]

theorem packable_neg {u : UnpackedFloat} (h : Packable u) : Packable u.neg := by
  cases u with
  | finite => exact h
  | _ => trivial

theorem round_negative (m : ℕ) (e : ℤ) : UnpackedFloat.round Format.binary64 .negative m e
    = (UnpackedFloat.round Format.binary64 .positive m e).neg := by
  simp only [UnpackedFloat.round, UnpackedFloat.roundWithAccuracy]
  split <;> rfl

/-! ## Order -/

namespace Double

/-- Doubles compare by their signs and kinds first. -/
theorem packed_lt {u v : UnpackedFloat} (hu : Packable u) (hv : Packable v) {i j : ℤ}
    {b b' : ℤ ×ₗ ℤ} (hi : rank u = some (toLex (i, b))) (hj : rank v = some (toLex (j, b')))
    (h : i < j) : packed u < packed v := by
  refine lt_iff.mpr ⟨_, _, by rw [toModel_packed hu, hi], by rw [toModel_packed hv, hj], ?_⟩
  rw [compare_toLex, compare_lt_iff_lt.mpr h]
  rfl

theorem rank_neg (u : UnpackedFloat) :
    rank u.neg = (rank u).map fun i => toLex (-i.1, toLex (-i.2.1, -i.2.2)) := by
  rcases u with (_ | _) | _ | (_ | _) | ⟨(_ | _), m, q, _⟩
  case finite.negative =>
    change some (toLex (1, toLex (q, (m : ℤ)))) = some (toLex (1, toLex (- -q, - -(m : ℤ))))
    rw [neg_neg, neg_neg]
  all_goals rfl

theorem neg_lt_neg {x y : Float} (h : x < y) : -y < -x := by
  obtain ⟨u, hu, rfl⟩ := DoubleValue.exists_packed x
  obtain ⟨v, hv, rfl⟩ := DoubleValue.exists_packed y
  obtain ⟨i, j, hi, hj, hlt⟩ := lt_iff.mp h
  rw [toModel_packed hu] at hi
  rw [toModel_packed hv] at hj
  rw [← packed_neg, ← packed_neg]
  refine lt_iff.mpr ⟨toLex (-j.1, toLex (-j.2.1, -j.2.2)), toLex (-i.1, toLex (-i.2.1, -i.2.2)),
    ?_, ?_, ?_⟩
  · rw [toModel_packed (packable_neg hv), rank_neg, hj]
    rfl
  · rw [toModel_packed (packable_neg hu), rank_neg, hi]
    rfl
  · rw [compare_toLex, compare_toLex, compare_neg, compare_neg, compare_neg]
    exact hlt

/-- A double without a sign is below the infinity. -/
theorem lt_infinity {x y : Float} {m : ℕ} {q : ℤ} (hx : DoubleValue.of x = .finite false m q)
    (hy : DoubleValue.of y = .infinite false) : x < y := by
  obtain ⟨u, hu, rfl⟩ := DoubleValue.exists_packed x
  obtain ⟨v, hv, rfl⟩ := DoubleValue.exists_packed y
  rw [of_packed hu] at hx
  rw [of_packed hv] at hy
  rcases v with (_ | _) | _ | (_ | _) | ⟨(_ | _), _⟩ <;> cases hy
  rcases u with (_ | _) | _ | (_ | _) | ⟨(_ | _), _⟩ <;> cases hx
  · exact packed_lt hu hv rfl rfl (by decide)
  · exact packed_lt hu hv rfl rfl (by decide)

/-- A canonical pair stands for more if its exponent is larger. -/
theorem magnitude_lt_of_lt {m m' : ℕ} {q q' : ℤ} (h : Canonical m q) (h' : Canonical m' q')
    (hq : q < q') : magnitude m q < magnitude m' q' := by
  have hleast := h.least
  have hm' : 2 ^ 52 ≤ (m' : ℚ) := by exact_mod_cast h'.full.resolve_left (by omega)
  have hm : (m : ℚ) < 2 ^ 53 := by exact_mod_cast h.mantissa_lt
  calc magnitude m q < 2 ^ 53 * 2 ^ q := mul_lt_mul_of_pos_right hm (by positivity)
    _ = 2 ^ 52 * 2 ^ (q + 1) := by
      rw [zpow_add_one₀ two_ne_zero]
      ring
    _ ≤ magnitude m' q' := by
      have hpow : (2 : ℚ) ^ (q + 1) ≤ 2 ^ q' := zpow_le_zpow_right₀ one_le_two hq
      exact mul_le_mul hm' hpow (by positivity) (by positivity)

/-- Of two doubles without a sign the one that stands for less is the smaller one. -/
theorem lt_of_magnitude_lt {x y : Float} {m m' : ℕ} {q q' : ℤ}
    (hx : DoubleValue.of x = .finite false m q) (hy : DoubleValue.of y = .finite false m' q')
    (h : magnitude m q < magnitude m' q') : x < y := by
  have hm' : 0 < m' := by
    refine Nat.pos_of_ne_zero ?_
    rintro rfl
    rw [magnitude, magnitude, Nat.cast_zero, zero_mul] at h
    exact absurd h (not_lt.mpr (by positivity))
  obtain ⟨rfl, hy'⟩ := exists_packed_finite hy hm'
  rcases Nat.eq_zero_or_pos m with rfl | hm
  · obtain ⟨u, hu, rfl⟩ := DoubleValue.exists_packed x
    rw [of_packed hu] at hx
    rcases u with (_ | _) | _ | (_ | _) | ⟨(_ | _), _⟩ <;> cases hx
    · exact packed_lt hu hy' rfl rfl one_pos
    · omega
  · obtain ⟨rfl, hx'⟩ := exists_packed_finite hx hm
    have hle : q ≤ q' := not_lt.mp fun hq => lt_asymm h (magnitude_lt_of_lt hy' hx' hq)
    refine lt_iff.mpr ⟨toLex (1, toLex (q, (m : ℤ))), toLex (1, toLex (q', (m' : ℤ))), ?_, ?_, ?_⟩
    · rw [toModel_packed (u := .finite .positive m q hm) hx']
      rfl
    · rw [toModel_packed (u := .finite .positive m' q' hm') hy']
      rfl
    rw [compare_toLex, compare_toLex, compare_eq_iff_eq.mpr rfl]
    rcases hle.lt_or_eq with hq | rfl
    · rw [compare_lt_iff_lt.mpr hq]
      rfl
    · have hmantissa : (m : ℤ) < m' := by
        exact_mod_cast (mul_lt_mul_iff_left₀ (by positivity)).mp h
      rw [compare_eq_iff_eq.mpr rfl, compare_lt_iff_lt.mpr hmantissa]
      rfl

/-- A double with a sign is below one that is positive. -/
theorem neg_lt_of_nearest {x y : Float} {r : ℚ} (hx : Nearest r (.of x)) {m : ℕ} {q : ℤ}
    (hy : DoubleValue.of y = .finite false m q) (hm : 0 < m) : -x < y := by
  obtain ⟨rfl, hy'⟩ := exists_packed_finite hy hm
  obtain ⟨u, hu, rfl⟩ := DoubleValue.exists_packed x
  rw [of_packed hu] at hx
  rw [← packed_neg]
  rcases u with (_ | _) | _ | (_ | _) | ⟨(_ | _), _⟩
  case infinity.positive => exact packed_lt (packable_neg hu) hy' rfl rfl (by decide)
  case zero.positive => exact packed_lt (packable_neg hu) hy' rfl rfl (by decide)
  case finite.positive => exact packed_lt (packable_neg hu) hy' rfl rfl (by decide)
  case notANumber => exact hx.elim
  all_goals cases hx.1

end Double

/-- What is nearest to a number below a double is not above the double. -/
theorem Nearest.lt_or_eq_of_le {x : ℚ} {r a : Float} {m : ℕ} {q : ℤ} (h : Nearest x (.of r))
    (ha : DoubleValue.of a = .finite false m q) (hx : x ≤ magnitude m q) : r < a ∨ r = a := by
  have hmagnitude := DoubleValue.isMagnitude_of ha
  generalize hr : DoubleValue.of r = v at h
  cases v with
  | notANumber => exact h.elim
  | infinite s => exact absurd (h.2 _ hmagnitude) (not_lt.mpr hx)
  | finite s n t =>
      obtain ⟨rfl, hnear⟩ := h
      have hle : magnitude n t ≤ magnitude m q := by
        have hbound := hnear _ hmagnitude
        rw [abs_of_nonneg (sub_nonneg.mpr hx)] at hbound
        linarith [le_abs_self (magnitude n t - x)]
      rcases hle.lt_or_eq with hlt | heq
      · exact .inl (Double.lt_of_magnitude_lt hr ha hlt)
      · obtain ⟨rfl, rfl⟩ := DoubleValue.eq_of_magnitude_eq hr ha heq
        exact .inr (DoubleValue.of_injective (hr.trans ha.symm))

/-- What is nearest to a number above a double is not below the double. -/
theorem Nearest.gt_or_eq_of_ge {x : ℚ} {r a : Float} {m : ℕ} {q : ℤ} (h : Nearest x (.of r))
    (ha : DoubleValue.of a = .finite false m q) (hx : magnitude m q ≤ x) : a < r ∨ r = a := by
  have hmagnitude := DoubleValue.isMagnitude_of ha
  generalize hr : DoubleValue.of r = v at h
  cases v with
  | notANumber => exact h.elim
  | infinite s =>
      obtain rfl : s = false := h.1
      exact .inl (Double.lt_infinity ha hr)
  | finite s n t =>
      obtain ⟨rfl, hnear⟩ := h
      have hle : magnitude m q ≤ magnitude n t := by
        have hbound := hnear _ hmagnitude
        rw [abs_of_nonpos (sub_nonpos.mpr hx)] at hbound
        linarith [neg_abs_le (magnitude n t - x)]
      rcases hle.lt_or_eq with hlt | heq
      · exact .inl (Double.lt_of_magnitude_lt ha hr hlt)
      · obtain ⟨rfl, rfl⟩ := DoubleValue.eq_of_magnitude_eq hr ha heq.symm
        exact .inr (DoubleValue.of_injective (hr.trans ha.symm))

/-! ## Differences -/

theorem sub_packed {u v : UnpackedFloat} (hu : Packable u) (hv : Packable v) :
    packed u - packed v = packed (UnpackedFloat.sub Format.binary64 u v) := by
  have hsub : packed u - packed v = packed (UnpackedFloat.sub Format.binary64
    (packed u).toModel.unpack (packed v).toModel.unpack) := rfl
  rw [hsub, toModel_packed hu, toModel_packed hv]

/-- A mantissa and an exponent stand for the same number when zeros are put behind the mantissa. -/
theorem magnitude_decreaseExponent (m : ℕ) {e t : ℤ} (h : t ≤ e) :
    magnitude (UnpackedFloat.decreaseExponent m e t).1 t = magnitude m e := by
  obtain ⟨k, rfl⟩ := Int.le.dest h
  rw [UnpackedFloat.decreaseExponent, DoubleValue.magnitude_add, Nat.shiftLeft_eq]
  simp

namespace Double

variable {m n : ℕ} {q t : ℤ}

/-- A positive double less another one. -/
theorem sub_finite_positive (hm : 0 < m) (hn : 0 < n) (hu : Canonical m q) (hv : Canonical n t) :
    packed (.finite .positive m q hm) - packed (.finite .positive n t hn)
        < packed (.finite .positive m q hm) ∨
      packed (.finite .positive m q hm) - packed (.finite .positive n t hn)
        = packed (.finite .positive m q hm) := by
  have ha : DoubleValue.of (packed (.finite .positive m q hm)) = .finite false m q :=
    of_packed (u := .finite .positive m q hm) hu
  have hn' := magnitude_decreaseExponent n (min_le_right q t)
  have hm' := magnitude_decreaseExponent m (min_le_left q t)
  rw [sub_packed (u := .finite .positive m q hm) (v := .finite .positive n t hn) hu hv]
  simp only [UnpackedFloat.sub, UnpackedFloat.normalize, Sign.apply]
  generalize (UnpackedFloat.decreaseExponent m q (min q t)).1 = a at hm' ⊢
  generalize (UnpackedFloat.decreaseExponent n t (min q t)).1 = b at hn' ⊢
  rcases lt_trichotomy b a with hlt | rfl | hlt
  · have hcompare : compare ((a : ℤ) - b) 0 = .gt := Int.compare_eq_gt.mpr (by omega)
    have htoNat : ((a : ℤ) - b).toNat = a - b := by omega
    have hle : magnitude (a - b) (min q t) ≤ magnitude m q := by
      rw [← hm']
      exact mul_le_mul_of_nonneg_right (by exact_mod_cast Nat.sub_le a b) (by positivity)
    rw [hcompare]
    dsimp only
    rw [htoNat]
    exact (round_nearest (Nat.sub_pos_of_lt hlt) (min q t)).lt_or_eq_of_le ha hle
  · have hcompare : compare ((b : ℤ) - b) 0 = .eq := by simp
    rw [hcompare]
    exact .inl (packed_lt (u := .zero .positive) trivial hu rfl rfl one_pos)
  · have hcompare : compare ((a : ℤ) - b) 0 = .lt := Int.compare_eq_lt.mpr (by omega)
    have htoNat : (-((a : ℤ) - b)).toNat = b - a := by omega
    rw [hcompare]
    dsimp only
    rw [htoNat, round_negative, packed_neg]
    exact .inl (neg_lt_of_nearest (round_nearest (Nat.sub_pos_of_lt hlt) _) ha hm)

/-- A negative double less a positive one. -/
theorem sub_finite_negative (hm : 0 < m) (hn : 0 < n) (hu : Canonical m q) (hv : Canonical n t) :
    packed (.finite .negative m q hm) - packed (.finite .positive n t hn)
        < packed (.finite .negative m q hm) ∨
      packed (.finite .negative m q hm) - packed (.finite .positive n t hn)
        = packed (.finite .negative m q hm) := by
  have ha : DoubleValue.of (packed (.finite .positive m q hm)) = .finite false m q :=
    of_packed (u := .finite .positive m q hm) hu
  have hneg : packed (.finite .negative m q hm) = -packed (.finite .positive m q hm) :=
    packed_neg (.finite .positive m q hm)
  have hm' := magnitude_decreaseExponent m (min_le_left q t)
  rw [sub_packed (u := .finite .negative m q hm) (v := .finite .positive n t hn) hu hv]
  simp only [UnpackedFloat.sub, UnpackedFloat.normalize, Sign.apply]
  have hpos : 0 < (UnpackedFloat.decreaseExponent m q (min q t)).1 := by
    rw [UnpackedFloat.decreaseExponent, Nat.shiftLeft_eq]
    positivity
  generalize (UnpackedFloat.decreaseExponent m q (min q t)).1 = a at hm' hpos ⊢
  generalize (UnpackedFloat.decreaseExponent n t (min q t)).1 = b
  have hcompare : compare (-(a : ℤ) - b) 0 = .lt := Int.compare_eq_lt.mpr (by omega)
  have htoNat : (-(-(a : ℤ) - b)).toNat = a + b := by omega
  have hle : magnitude m q ≤ magnitude (a + b) (min q t) := by
    rw [← hm']
    exact mul_le_mul_of_nonneg_right (by exact_mod_cast Nat.le_add_right a b) (by positivity)
  rw [hcompare]
  dsimp only
  rw [htoNat, round_negative, packed_neg, hneg]
  rcases (round_nearest (by omega : 0 < a + b) (min q t)).gt_or_eq_of_ge ha hle with hlt | heq
  · exact .inl (neg_lt_neg hlt)
  · exact .inr (congrArg _ heq)

/-- A double less a positive one is below it unless the step is lost in rounding. -/
theorem sub_lt_or_eq {a b d : Float} (hd : Scalar.zero < d) (hb : b < a - d) :
    a - d < a ∨ a - d = a := by
  obtain ⟨u, hu, rfl⟩ := DoubleValue.exists_packed a
  obtain ⟨v, hv, rfl⟩ := DoubleValue.exists_packed d
  have hpositive : v = .infinity .positive ∨ ∃ n t hn, v = .finite .positive n t hn := by
    obtain ⟨i, j, hi, hj, hlt⟩ := lt_iff.mp hd
    rw [toModel_packed hv] at hj
    obtain rfl : toLex (0, toLex (0, 0)) = i := Option.some.inj hi
    rcases v with (_ | _) | _ | (_ | _) | ⟨(_ | _), n, t, hn⟩
    case infinity.positive => exact .inl rfl
    case finite.positive => exact .inr ⟨n, t, hn, rfl⟩
    all_goals
      cases hj
      try cases hlt
  have hnumber : UnpackedFloat.sub Format.binary64 u v ≠ .notANumber := by
    intro hnan
    obtain ⟨i, j, -, hj, -⟩ := lt_iff.mp hb
    rw [sub_packed hu hv, hnan, toModel_packed (u := .notANumber) trivial] at hj
    cases hj
  rcases hpositive with rfl | ⟨n, t, hn, rfl⟩
  · have hbelow : ∀ {i : ℤ} {r : ℤ ×ₗ ℤ}, rank u = some (toLex (i, r)) → -2 < i →
        packed (.infinity .negative) < packed u := fun hr hi =>
      packed_lt (u := .infinity .negative) trivial hu rfl hr hi
    cases u with
    | notANumber => exact absurd rfl hnumber
    | infinity s =>
        cases s with
        | negative => exact .inr (sub_packed hu hv)
        | positive => exact absurd rfl hnumber
    | zero s =>
        rw [sub_packed hu hv]
        exact .inl (hbelow rfl (by decide))
    | finite s m q hm =>
        rw [sub_packed hu hv]
        cases s with
        | negative => exact .inl (hbelow rfl (by decide))
        | positive => exact .inl (hbelow rfl (by decide))
  · cases u with
    | notANumber => exact absurd rfl hnumber
    | infinity s => exact .inr (sub_packed hu hv)
    | zero s =>
        rw [sub_packed hu hv]
        have hneg : Packable (.finite .negative n t hn) := hv
        exact .inl (packed_lt hneg hu rfl rfl (by decide))
    | finite s m q hm =>
        cases s with
        | negative => exact sub_finite_negative hm hn hu hv
        | positive => exact sub_finite_positive hm hn hu hv

end Double

/-! ## Scalars -/

/-- Scalars that do not rise when a positive one is taken from them. -/
class SteppingScalar (α : Type) [Scalar α] : Prop extends OrderedScalar α where
  /-- No number is below itself. -/
  lt_irrefl (a : α) : ¬ a < a
  /-- Zero is a number. -/
  zero_le_zero : (Scalar.zero : α) ≤ Scalar.zero
  /-- Taking away goes down, unless it is lost in rounding. -/
  sub_lt_or_eq {a b d : α} : Scalar.zero < d → b < a - d → a - d < a ∨ a - d = a

instance : SteppingScalar ℝ where
  lt_irrefl := fun a => lt_irrefl a
  zero_le_zero := by rw [Exact.zero_eq]
  sub_lt_or_eq := by
    intro a b d hd _
    rw [Exact.zero_eq] at hd
    exact .inl (sub_lt_self a hd)

instance : SteppingScalar Float where
  lt_irrefl a h := by
    obtain ⟨i, j, hi, hj, hlt⟩ := Double.lt_iff.mp h
    obtain rfl := Option.some.inj (hi.symm.trans hj)
    rw [compare_eq_iff_eq.mpr rfl] at hlt
    cases hlt
  zero_le_zero := by decide
  sub_lt_or_eq := Double.sub_lt_or_eq

end WireErosion
