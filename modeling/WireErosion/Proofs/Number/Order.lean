import WireErosion.Proofs.Number.Difference
import WireErosion.Proofs.Number.Reading

/-!
# Numbers stay in order when they are written

Away from what is not a number, doubles compare as the extended real numbers that they stand for
(`Double.lt_iff_extended`).  A larger number has a place on the decimal grid that is not smaller
(`Decimal.IsHalfEven.le`), the double nearest to a larger place is not smaller
(`Nearest.extended_le`), and signs turn the order round on both ways.  So two doubles that are in
order when they are read from their texts were in order before (`Double.lt_of_reread_lt`).

The converse fails, since both may have the same place.
-/

namespace WireErosion

open Float.Model (UnpackedFloat)
open DoubleValue (IsMagnitude Canonical Packable magnitude packed ofUnpacked toModel_packed
  of_packed)

/-! ## Doubles as extended real numbers -/

namespace DoubleValue

/-- The extended real number that a double stands for, zero if it is not a number. -/
noncomputable def extended : DoubleValue → EReal
  | .notANumber => 0
  | .infinite s => if s then ⊥ else ⊤
  | .finite s m q => if s then -((magnitude m q : ℝ) : EReal) else ((magnitude m q : ℝ) : EReal)

theorem magnitude_nonneg (m : ℕ) (q : ℤ) : 0 ≤ magnitude m q := by
  unfold magnitude
  positivity

theorem magnitude_zero (q : ℤ) : magnitude 0 q = 0 := by
  rw [magnitude, Nat.cast_zero, zero_mul]

/-- Of two doubles without a sign the one that stands for less is below. -/
theorem extended_lt {m m' : ℕ} {q q' : ℤ} :
    extended (.finite false m q) < extended (.finite false m' q') ↔
      magnitude m q < magnitude m' q' := by
  rw [extended, extended, if_neg Bool.false_ne_true, if_neg Bool.false_ne_true,
    EReal.coe_lt_coe_iff, Rat.cast_lt]

theorem extended_zero (s : Bool) (q : ℤ) : extended (.finite s 0 q) = 0 := by
  cases s <;> simp [extended, magnitude_zero]

theorem extended_nonneg (m : ℕ) (q : ℤ) : 0 ≤ extended (.finite false m q) := by
  rw [← extended_zero false 0, ← not_lt, extended_lt, not_lt, magnitude_zero]
  exact magnitude_nonneg m q

theorem extended_pos {m : ℕ} (hm : 0 < m) (q : ℤ) : 0 < extended (.finite false m q) := by
  rw [← extended_zero false 0, extended_lt, magnitude_zero]
  unfold magnitude
  positivity

theorem bot_lt_extended (s : Bool) (m : ℕ) (q : ℤ) : ⊥ < extended (.finite s m q) := by
  cases s <;> simp [extended, bot_lt_iff_ne_bot]

theorem extended_lt_top (s : Bool) (m : ℕ) (q : ℤ) : extended (.finite s m q) < ⊤ := by
  cases s <;> simp [extended, lt_top_iff_ne_top]

theorem extended_negate (v : DoubleValue) : extended (negate v) = -extended v := by
  cases v with
  | notANumber => exact neg_zero.symm
  | infinite s => cases s <;> simp [extended, negate]
  | finite s m q => cases s <;> simp [extended, negate]

theorem extended_withSign (s : Bool) (x : Float) :
    extended (of (Double.withSign s x)) = if s then -extended (of x) else extended (of x) := by
  rw [of_withSign]
  split
  · exact extended_negate _
  · rfl

end DoubleValue

open DoubleValue (extended extended_lt extended_pos extended_nonneg extended_zero bot_lt_extended
  extended_lt_top)

namespace Double

/-- A canonical pair stands for more if its exponent is larger, or its mantissa at the same
exponent. -/
theorem magnitude_lt_of_toLex_lt {m m' : ℕ} {q q' : ℤ} (h : Canonical m q) (h' : Canonical m' q')
    (hlt : toLex (q, (m : ℤ)) < toLex (q', (m' : ℤ))) : magnitude m q < magnitude m' q' := by
  rcases Prod.Lex.toLex_lt_toLex.mp hlt with hq | ⟨hq, hm⟩
  · exact magnitude_lt_of_lt h h' hq
  · obtain rfl : q = q' := hq
    have hm : (m : ℤ) < m' := hm
    exact mul_lt_mul_of_pos_right (by exact_mod_cast hm) (by positivity)

/-- The negative finite double of a pair stands for the negative number. -/
theorem extended_negative (m : ℕ) (q : ℤ) :
    extended (.finite true m q) = -extended (.finite false m q) :=
  DoubleValue.extended_negate (.finite false m q)

/-- A double of a smaller sign or kind stands for less. -/
theorem extended_lt_of_kind_lt {u v : UnpackedFloat} {i j : ℤ} {b b' : ℤ ×ₗ ℤ}
    (hi : rank u = some (toLex (i, b))) (hj : rank v = some (toLex (j, b'))) (h : i < j) :
    extended (ofUnpacked u) < extended (ofUnpacked v) := by
  have hneg : ∀ {m : ℕ} (q : ℤ), 0 < m → extended (.finite true m q) < 0 := by
    intro m q hm
    rw [extended_negative]
    simpa using extended_pos hm q
  rcases u with (_ | _) | _ | _ | ⟨(_ | _), m, q, hm⟩ <;> cases hi <;>
    rcases v with (_ | _) | _ | _ | ⟨(_ | _), m', q', hm'⟩ <;> cases hj <;>
    try exact absurd h (by decide)
  · exact bot_lt_top
  · exact bot_lt_extended _ _ _
  · exact bot_lt_extended _ _ _
  · exact bot_lt_extended _ _ _
  · exact extended_lt_top _ _ _
  · exact (extended_zero _ _).trans_lt (extended_pos hm' _)
  · exact extended_lt_top _ _ _
  · exact (hneg q hm).trans_eq (extended_zero _ _).symm
  · exact (hneg q hm).trans (extended_pos hm' q')
  · exact extended_lt_top _ _ _

/-- Doubles of one sign and kind stand for extended real numbers in the order of their exponents and
mantissas. -/
theorem extended_lt_of_rest_lt {u v : UnpackedFloat} (hu : Packable u) (hv : Packable v) {i : ℤ}
    {b b' : ℤ ×ₗ ℤ} (hi : rank u = some (toLex (i, b))) (hj : rank v = some (toLex (i, b')))
    (h : b < b') : extended (ofUnpacked u) < extended (ofUnpacked v) := by
  -- There are several such doubles only if they are finite and no zeros.
  rcases u with (_ | _) | _ | _ | ⟨(_ | _), m, q, hm⟩ <;> cases hi <;>
    rcases v with (_ | _) | _ | _ | ⟨(_ | _), m', q', hm'⟩ <;> cases hj <;>
    try exact absurd h (lt_irrefl _)
  · have hlt : toLex (q', (m' : ℤ)) < toLex (q, (m : ℤ)) := by
      rcases Prod.Lex.toLex_lt_toLex.mp h with hq | ⟨hq, hm⟩
      · exact Prod.Lex.toLex_lt_toLex.mpr (.inl (neg_lt_neg_iff.mp hq))
      · exact Prod.Lex.toLex_lt_toLex.mpr (.inr ⟨neg_injective hq.symm, neg_lt_neg_iff.mp hm⟩)
    change extended (.finite true m q) < extended (.finite true m' q')
    rw [extended_negative, extended_negative, EReal.neg_lt_neg_iff, extended_lt]
    exact magnitude_lt_of_toLex_lt hv hu hlt
  · exact extended_lt.mpr (magnitude_lt_of_toLex_lt hu hv h)

/-- Doubles stand for extended real numbers in the order of their ranks. -/
theorem extended_lt_of_rank_lt {u v : UnpackedFloat} (hu : Packable u) (hv : Packable v)
    {i j : ℤ ×ₗ ℤ ×ₗ ℤ} (hi : rank u = some i) (hj : rank v = some j) (h : i < j) :
    extended (ofUnpacked u) < extended (ofUnpacked v) := by
  obtain ⟨i, b⟩ := i
  obtain ⟨j, b'⟩ := j
  rcases Prod.Lex.toLex_lt_toLex.mp h with hkind | ⟨hkind, hrest⟩
  · exact extended_lt_of_kind_lt hi hj hkind
  · obtain rfl : i = j := hkind
    exact extended_lt_of_rest_lt hu hv hi hj hrest

/-- Doubles of one rank stand for the same. -/
theorem extended_eq_of_rank_eq {u v : UnpackedFloat} {i : ℤ ×ₗ ℤ ×ₗ ℤ} (hi : rank u = some i)
    (hj : rank v = some i) : extended (ofUnpacked u) = extended (ofUnpacked v) := by
  obtain ⟨k, e, n⟩ := i
  rcases u with (_ | _) | _ | s | ⟨(_ | _), m, q, hm⟩ <;> cases hi <;>
    rcases v with (_ | _) | _ | t | ⟨(_ | _), m', q', hm'⟩ <;> try cases hj <;> try rfl
  case zero.refl.zero.refl => exact (extended_zero _ _).trans (extended_zero _ _).symm
  case finite.negative.refl.finite.negative =>
    obtain ⟨hq, hm⟩ := Prod.mk.inj (Prod.mk.inj (Option.some.inj hj)).2
    obtain rfl : q' = q := neg_injective hq
    obtain rfl : m' = m := by exact_mod_cast neg_injective hm
    rfl

/-- Away from what is not a number, doubles compare as what they stand for. -/
theorem lt_iff_extended {x y : Float} (hx : DoubleValue.of x ≠ .notANumber)
    (hy : DoubleValue.of y ≠ .notANumber) :
    x < y ↔ extended (.of x) < extended (.of y) := by
  have hrank : ∀ {u : UnpackedFloat}, ofUnpacked u ≠ .notANumber → ∃ i, rank u = some i := by
    intro u hu
    rcases u with (_ | _) | _ | _ | ⟨(_ | _), _⟩
    case notANumber => exact absurd rfl hu
    all_goals exact ⟨_, rfl⟩
  obtain ⟨u, hu, rfl⟩ := DoubleValue.exists_packed x
  obtain ⟨v, hv, rfl⟩ := DoubleValue.exists_packed y
  rw [of_packed hu] at hx ⊢
  rw [of_packed hv] at hy ⊢
  obtain ⟨i, hi⟩ := hrank hx
  obtain ⟨j, hj⟩ := hrank hy
  have hlt : packed u < packed v ↔ i < j := by
    rw [lt_iff, toModel_packed hu, toModel_packed hv]
    simp only [hi, hj, Option.some.injEq, exists_and_left, exists_eq_left', compare_lt_iff_lt]
  rw [hlt]
  rcases lt_trichotomy i j with h | rfl | h
  · exact iff_of_true h (extended_lt_of_rank_lt hu hv hi hj h)
  · exact iff_of_false (lt_irrefl i) (extended_eq_of_rank_eq hi hj).not_lt
  · exact iff_of_false h.not_gt (extended_lt_of_rank_lt hv hu hj hi h).not_gt

/-- What compares with something is a number. -/
theorem numbers_of_lt {x y : Float} (h : x < y) :
    DoubleValue.of x ≠ .notANumber ∧ DoubleValue.of y ≠ .notANumber := by
  have hnumber : ∀ {z : Float} {i}, rank z.toModel.unpack = some i →
      DoubleValue.of z ≠ .notANumber := by
    intro z i hi hz
    obtain ⟨u, hu, rfl⟩ := DoubleValue.exists_packed z
    rw [of_packed hu] at hz
    rw [toModel_packed hu] at hi
    cases u <;> cases hz
    cases hi
  obtain ⟨i, j, hi, hj, -⟩ := lt_iff.mp h
  exact ⟨hnumber hi, hnumber hj⟩

end Double

/-! ## The decimal grid -/

theorem add_le_of_abs_sub_le {a b r : ℚ} (h : |a - r| ≤ |b - r|) (hlt : b < a) :
    a + b ≤ 2 * r := by
  nlinarith [sq_le_sq.mpr h]

theorem le_add_of_abs_sub_le {a b r : ℚ} (h : |b - r| ≤ |a - r|) (hlt : b < a) :
    2 * r ≤ a + b := by
  nlinarith [sq_le_sq.mpr h]

/-- What is nearest to a larger number stands for no less. -/
theorem Nearest.extended_le {r r' : ℚ} {x y : Float} {m : ℕ} {q : ℤ} (h : Nearest r (.of x))
    (h' : Nearest r' (.of y)) (hx : DoubleValue.of x = .finite false m q) (hlt : r < r') :
    extended (.of x) ≤ extended (.of y) := by
  rw [hx] at h ⊢
  generalize hy : DoubleValue.of y = w at h' ⊢
  cases w with
  | notANumber => exact h'.elim
  | infinite s =>
      obtain rfl : s = false := h'.1
      exact le_top
  | finite s n t =>
      obtain rfl : s = false := h'.1
      rw [← not_lt, extended_lt]
      intro hmagnitude
      have hnear := h.2 _ (DoubleValue.isMagnitude_of hy)
      have hnear' := h'.2 _ (DoubleValue.isMagnitude_of hx)
      -- The middle of the two doubles is not above the first number and not below the second one.
      have hmiddle := add_le_of_abs_sub_le hnear hmagnitude
      have hmiddle' := le_add_of_abs_sub_le hnear' hmagnitude
      linarith

namespace Double

variable {places : ℕ}

/-- The place of a double on the grid is in its range, so the double nearest to it is finite. -/
theorem exists_ofGrid_place (places : ℕ) {m : ℕ} {q : ℤ} (h : IsMagnitude (magnitude m q)) :
    ∃ m' q', DoubleValue.of (ofGrid (place places m q) places) = .finite false m' q' := by
  have hpow : (0 : ℚ) < 10 ^ places := by positivity
  have hplace := place_le places h
  have hcanonical : Canonical (2 ^ 53 - 1) 971 :=
    ⟨by norm_num, by norm_num, le_rfl, .inr (by norm_num)⟩
  have hnearest := ofGrid_nearest (place places m q) places
  generalize DoubleValue.of (ofGrid (place places m q) places) = w at hnearest
  cases w with
  | notANumber => exact hnearest.elim
  | infinite s =>
      have hlarge := hnearest.2 _ ⟨2 ^ 53 - 1, 971, hcanonical, rfl⟩
      rw [← cast_mostMagnitude, lt_div_iff₀ hpow] at hlarge
      exact absurd hlarge (not_lt.mpr (by exact_mod_cast hplace))
  | finite s m' q' =>
      obtain rfl : s = false := hnearest.1
      exact ⟨m', q', rfl⟩

/-- What the double nearest to a place of the grid stands for. -/
noncomputable def gridValue (places n : ℕ) : EReal := extended (.of (ofGrid n places))

theorem gridValue_zero : gridValue places 0 = 0 := by
  have hnearest := ofGrid_nearest 0 places
  rw [Nat.cast_zero, zero_div] at hnearest
  obtain ⟨m, q, hvalue, hzero⟩ := hnearest.exact DoubleValue.isMagnitude_zero
  rw [gridValue, hvalue, extended, hzero]
  simp

theorem gridValue_nonneg {m : ℕ} {q : ℤ} (h : IsMagnitude (magnitude m q)) :
    0 ≤ gridValue places (place places m q) := by
  obtain ⟨m', q', hvalue⟩ := exists_ofGrid_place places h
  rw [gridValue, hvalue]
  exact extended_nonneg m' q'

/-- A larger number is put at a place that stands for no less. -/
theorem gridValue_le {m m' : ℕ} {q q' : ℤ} (h : IsMagnitude (magnitude m q))
    (hle : magnitude m q ≤ magnitude m' q') :
    gridValue places (place places m q) ≤ gridValue places (place places m' q') := by
  have hpow : (0 : ℚ) < 10 ^ places := by positivity
  have hplace : place places m q ≤ place places m' q' :=
    (Decimal.isHalfEven_onGrid m q places).le (Decimal.isHalfEven_onGrid m' q' places)
      (mul_le_mul_of_nonneg_right hle hpow.le)
  rcases hplace.lt_or_eq with hlt | heq
  · obtain ⟨n, t, hvalue⟩ := exists_ofGrid_place places h
    have hdiv : (place places m q : ℚ) / 10 ^ places < place places m' q' / 10 ^ places :=
      div_lt_div_of_pos_right (by exact_mod_cast hlt) hpow
    exact (ofGrid_nearest _ places).extended_le (ofGrid_nearest _ places) hvalue hdiv
  · rw [heq]

/-- A double is read as what its place stands for, with its sign. -/
theorem extended_reread {x : Float} {s : Bool} {m : ℕ} {q : ℤ}
    (hx : DoubleValue.of x = .finite s m q) : extended (.of (reread places x)) =
      if s then -gridValue places (place places m q) else gridValue places (place places m q) := by
  rw [reread, hx]
  dsimp only
  rw [DoubleValue.extended_withSign]
  cases s with
  | false => rfl
  | true =>
      by_cases hzero : place places m q = 0
      · rw [hzero]
        exact gridValue_zero.trans (by simp [gridValue_zero])
      · simp [hzero, gridValue]

theorem reread_infinite {x : Float} {s : Bool} (hx : DoubleValue.of x = .infinite s) :
    reread places x = x := by
  rw [reread, hx]

/-- Finite doubles are read in the same order. -/
theorem extended_reread_le_of_finite {x y : Float} {s t : Bool} {m n : ℕ} {q k : ℤ}
    (hx : DoubleValue.of x = .finite s m q) (hy : DoubleValue.of y = .finite t n k)
    (hle : extended (.finite s m q) ≤ extended (.finite t n k)) :
    extended (.of (reread places x)) ≤ extended (.of (reread places y)) := by
  have hm := DoubleValue.isMagnitude_of hx
  have hn := DoubleValue.isMagnitude_of hy
  rw [extended_reread hx, extended_reread hy]
  -- The signs decide which of the two magnitudes is the larger one.
  cases s <;> cases t
  case false.false => exact gridValue_le hm (not_lt.mp fun h => hle.not_gt (extended_lt.mpr h))
  case true.true =>
    rw [extended_negative, extended_negative, EReal.neg_le_neg_iff] at hle
    exact EReal.neg_le_neg_iff.mpr
      (gridValue_le hn (not_lt.mp fun h => hle.not_gt (extended_lt.mpr h)))
  case true.false =>
    have hneg : -gridValue places (place places m q) ≤ 0 := by simpa using gridValue_nonneg hm
    exact hneg.trans (gridValue_nonneg hn)
  case false.true =>
    rw [extended_negative] at hle
    have hzero : ∀ {j : ℕ} {e : ℤ}, extended (.finite false j e) ≤ 0 → j = 0 := by
      intro j e hj
      exact Nat.eq_zero_of_not_pos fun hpos => hj.not_gt (extended_pos hpos e)
    have hm' := hzero (hle.trans (by simpa using extended_nonneg n k))
    have hn' := hzero (EReal.neg_nonneg.mp ((extended_nonneg m q).trans hle))
    simp [hm', hn', place_zero, gridValue_zero]

/-- Doubles that are numbers are read in the same order. -/
theorem extended_reread_le {x y : Float} (hx : DoubleValue.of x ≠ .notANumber)
    (hy : DoubleValue.of y ≠ .notANumber) (hle : extended (.of x) ≤ extended (.of y)) :
    extended (.of (reread places x)) ≤ extended (.of (reread places y)) := by
  cases hx' : DoubleValue.of x with
  | notANumber => exact absurd hx' hx
  | infinite s =>
      cases hy' : DoubleValue.of y with
      | notANumber => exact absurd hy' hy
      | infinite t => rwa [reread_infinite hx', reread_infinite hy']
      | finite t n k =>
          rw [reread_infinite hx', hx']
          rw [hx', hy'] at hle
          cases s with
          | true => exact bot_le
          | false => exact absurd hle (extended_lt_top t n k).not_ge
  | finite s m q =>
      cases hy' : DoubleValue.of y with
      | notANumber => exact absurd hy' hy
      | infinite t =>
          rw [reread_infinite hy', hy']
          rw [hx', hy'] at hle
          cases t with
          | true => exact absurd hle (bot_lt_extended s m q).not_ge
          | false => exact le_top
      | finite t n k =>
          rw [hx', hy'] at hle
          exact extended_reread_le_of_finite hx' hy' hle

/-- Doubles that are in order when they are read from their texts were in order before. -/
theorem lt_of_reread_lt {x y : Float} (h : reread places x < reread places y) : x < y := by
  have hnumber : ∀ {z : Float}, DoubleValue.of (reread places z) ≠ .notANumber →
      DoubleValue.of z ≠ .notANumber := by
    intro z hz hnan
    rw [reread, hnan] at hz
    exact hz hnan
  obtain ⟨hx, hy⟩ := numbers_of_lt h
  rw [lt_iff_extended hx hy] at h
  rw [lt_iff_extended (hnumber hx) (hnumber hy)]
  by_contra hle
  exact h.not_ge (extended_reread_le (hnumber hy) (hnumber hx) (not_lt.mp hle))

end Double

end WireErosion
