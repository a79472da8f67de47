import Mathlib
import WireErosion.Number.Double

/-!
# The finite doubles

A finite double is a sign, a mantissa of at most 53 bits and an exponent that is as small as the
mantissa allows (`DoubleValue.Canonical`).  Every pair of that kind is packed into a double from
which it is read again (`DoubleValue.unpack_pack`), one with a larger exponent into an infinity
(`DoubleValue.pack_large`), and a double is determined by what it stands for
(`DoubleValue.of_injective`).

Mathlib is imported as a whole, since only so it brings the lemmas on the bits of doubles.
-/

namespace WireErosion

open Float.Model (UnpackedFloat Format)
open Float.Model.UnpackedFloat (Sign packComponents unpackExponent unpackMantissa unpackSign)

namespace DoubleValue

/-- A mantissa and an exponent of a finite double. -/
structure Canonical (m : ℕ) (q : ℤ) : Prop where
  /-- The mantissa has at most 53 bits. -/
  mantissa_lt : m < 2 ^ 53
  /-- The exponent is not below the least one. -/
  least : -1074 ≤ q
  /-- The exponent is not above the largest one. -/
  most : q ≤ 971
  /-- The first bit of the mantissa is set unless the exponent is the least one. -/
  full : q = -1074 ∨ 2 ^ 52 ≤ m

/-! ## Unpacking -/

/-- A mantissa with its first bit set. -/
theorem toNat_append_one (m : BitVec 52) : (1#1 ++ m).toNat = 2 ^ 52 + m.toNat := by
  rw [BitVec.toNat_append, ← Nat.shiftLeft_add_eq_or_of_lt m.isLt]
  simp [Nat.shiftLeft_eq]

/-- Without an exponent the first bit of the mantissa is not set. -/
theorem unpack_subnormal (s : Sign) {m : BitVec 52} (hm : m ≠ 0#52) (hpos : 0 < m.toNat) :
    UnpackedFloat.unpack Format.binary64 (packComponents Format.binary64 s 0#11 m)
      = .finite s m.toNat (-1074) hpos := by
  unfold UnpackedFloat.unpack
  simp only [UnpackedFloat.unpackMantissa_packComponents,
    UnpackedFloat.unpackExponent_packComponents, UnpackedFloat.unpackSign_packComponents,
    Sign.ofBitVec_toBitVec]
  rw [if_neg (by decide), if_pos trivial, dif_neg hm]
  rfl

/-- With an exponent it is. -/
theorem unpack_normal (s : Sign) {e : BitVec 11} (hzero : e ≠ 0#11) (hones : e ≠ -1#11)
    (m : BitVec 52) (hpos : 0 < 2 ^ 52 + m.toNat) :
    UnpackedFloat.unpack Format.binary64 (packComponents Format.binary64 s e m)
      = .finite s (2 ^ 52 + m.toNat) (e.toNat - 1075) hpos := by
  unfold UnpackedFloat.unpack
  simp only [UnpackedFloat.unpackMantissa_packComponents,
    UnpackedFloat.unpackExponent_packComponents, UnpackedFloat.unpackSign_packComponents,
    Sign.ofBitVec_toBitVec, toNat_append_one]
  rw [if_neg hones, if_neg hzero]
  rfl

/-! ## Packing -/

theorem pack_subnormal (s : Sign) {m : ℕ} (hm : 0 < m) (hlt : m < 2 ^ 52) :
    UnpackedFloat.pack Format.binary64 (.finite s m (-1074) hm)
      = packComponents Format.binary64 s 0#11 (BitVec.ofNat 52 m) := by
  have hlog : ¬ m.log2 + 1 = 53 := by
    have hhigh := (Nat.log2_lt hm.ne').mpr hlt
    omega
  have hsmall : ¬ 2 ^ 11 ≤ ((-1074 : ℤ) + 1023 + 52).toNat + 1 := by decide
  unfold UnpackedFloat.pack
  exact (if_neg hsmall).trans (if_neg hlog)

theorem pack_normal (s : Sign) {m : ℕ} {q : ℤ} (hm : 0 < m) (hbit : 2 ^ 52 ≤ m) (hlt : m < 2 ^ 53)
    (hmost : q ≤ 971) :
    UnpackedFloat.pack Format.binary64 (.finite s m q hm)
      = packComponents Format.binary64 s (BitVec.ofNat 11 (q + 1023 + 52).toNat)
        (BitVec.ofNat 52 m) := by
  have hlog : m.log2 + 1 = 53 := by
    have hlow := (Nat.le_log2 hm.ne').mpr hbit
    have hhigh := (Nat.log2_lt hm.ne').mpr hlt
    omega
  have hsmall : ¬ 2 ^ 11 ≤ (q + 1023 + 52).toNat + 1 := by omega
  unfold UnpackedFloat.pack
  exact (if_neg hsmall).trans (if_pos hlog)

theorem pack_large (s : Sign) {m : ℕ} {q : ℤ} (hm : 0 < m) (hq : 971 < q) :
    UnpackedFloat.pack Format.binary64 (.finite s m q hm)
      = UnpackedFloat.pack Format.binary64 (.infinity s) := by
  have hlarge : 2 ^ 11 ≤ (q + 1023 + 52).toNat + 1 := by omega
  unfold UnpackedFloat.pack
  exact if_pos hlarge

/-- A canonical pair is read off the bits that it is packed into. -/
theorem unpack_pack_finite {m : ℕ} {q : ℤ} (h : Canonical m q) (s : Sign) (hm : 0 < m) :
    UnpackedFloat.unpack Format.binary64 (UnpackedFloat.pack Format.binary64 (.finite s m q hm))
      = .finite s m q hm := by
  obtain ⟨hlt, hleast, hmost, hfull⟩ := h
  by_cases hbit : 2 ^ 52 ≤ m
  · have hexponent : (BitVec.ofNat 11 (q + 1023 + 52).toNat).toNat = (q + 1023 + 52).toNat := by
      rw [BitVec.toNat_ofNat, Nat.mod_eq_of_lt (by omega)]
    have hmantissa : 2 ^ 52 + (BitVec.ofNat 52 m).toNat = m := by
      rw [BitVec.toNat_ofNat]
      omega
    have hpacked : ∀ e : BitVec 11, e.toNat ≠ (q + 1023 + 52).toNat →
        BitVec.ofNat 11 (q + 1023 + 52).toNat ≠ e := by
      rintro e he rfl
      exact he hexponent
    rw [pack_normal s hm hbit hlt hmost, unpack_normal s (hpacked _ _) (hpacked _ _) _ (by omega)]
    · simp only [hmantissa, hexponent]
      congr 1
      omega
    · rw [BitVec.toNat_ofNat]
      omega
    · rw [show (-1#11).toNat = 2047 from rfl]
      omega
  · obtain rfl : q = -1074 := hfull.resolve_right hbit
    have hmantissa : (BitVec.ofNat 52 m).toNat = m := by
      rw [BitVec.toNat_ofNat]
      omega
    rw [pack_subnormal s hm (not_le.mp hbit), unpack_subnormal s (fun h => ?_) (by omega)]
    · simp only [hmantissa]
    · rw [h, BitVec.toNat_zero] at hmantissa
      omega

/-- What is rounded so that it can be packed. -/
def Packable : UnpackedFloat → Prop
  | .finite _ m q _ => Canonical m q
  | _ => True

theorem unpack_pack : ∀ {u : UnpackedFloat}, Packable u →
    UnpackedFloat.unpack Format.binary64 (UnpackedFloat.pack Format.binary64 u) = u
  | .notANumber, _ => rfl
  | .infinity s, _ => by cases s <;> rfl
  | .zero s, _ => by cases s <;> rfl
  | .finite s _ _ hm, h => unpack_pack_finite h s hm

/-- What is read off bits can be packed. -/
theorem packable_unpack (b : BitVec 64) : Packable (UnpackedFloat.unpack Format.binary64 b) := by
  have hmantissa : (@unpackMantissa Format.binary64 b).toNat < 2 ^ 52 := BitVec.isLt _
  have hexponent : (@unpackExponent Format.binary64 b).toNat < 2048 := BitVec.isLt _
  unfold UnpackedFloat.unpack
  dsimp only
  split_ifs with hones _ hzero _
  · trivial
  · trivial
  · trivial
  · change Canonical _ ((@unpackExponent Format.binary64 b).toNat - 1075 + 1)
    rw [hzero]
    exact ⟨hmantissa.trans (by norm_num), le_rfl, by decide, .inl rfl⟩
  · change Canonical _ ((@unpackExponent Format.binary64 b).toNat - 1075)
    have hpos : (@unpackExponent Format.binary64 b).toNat ≠ 0 := fun h =>
      hzero (BitVec.eq_of_toNat_eq h)
    have hmost : (@unpackExponent Format.binary64 b).toNat ≠ 2047 := fun h =>
      hones (BitVec.eq_of_toNat_eq h)
    rw [toNat_append_one]
    exact ⟨by omega, by omega, by omega, .inr (by omega)⟩

/-! ## What a double stands for -/

/-- The double that is packed. -/
def packed (u : UnpackedFloat) : Float := .ofModel (.pack u)

/-- What an unpacked double stands for. -/
def ofUnpacked : UnpackedFloat → DoubleValue
  | .notANumber => .notANumber
  | .infinity s => .infinite (isNegative s)
  | .zero s => .finite (isNegative s) 0 0
  | .finite s m q _ => .finite (isNegative s) m q

theorem toModel_packed {u : UnpackedFloat} (h : Packable u) : (packed u).toModel.unpack = u :=
  unpack_pack h

theorem of_packed {u : UnpackedFloat} (h : Packable u) : of (packed u) = ofUnpacked u := by
  rw [of, toModel_packed h]
  cases u <;> rfl

theorem packed_unpack (x : Float) : packed x.toModel.unpack = x := by
  rw [← Float.toBits_inj, ← UInt64.toBitVec_inj]
  exact UnpackedFloat.pack_unpack_of_valid x.toModel.valid

theorem exists_packed (x : Float) : ∃ u, Packable u ∧ x = packed u :=
  ⟨x.toModel.unpack, packable_unpack _, (packed_unpack x).symm⟩

theorem isNegative_injective : Function.Injective isNegative := by
  intro s t h
  cases s <;> cases t <;> first | rfl | cases h

theorem ofUnpacked_injective : Function.Injective ofUnpacked := by
  intro u v h
  cases u <;> cases v <;> simp only [ofUnpacked, infinite.injEq, finite.injEq, reduceCtorEq] at h
  case notANumber.notANumber => rfl
  case infinity.infinity => rw [isNegative_injective h]
  case zero.zero => rw [isNegative_injective h.1]
  case zero.finite hm => omega
  case finite.zero hm _ => omega
  case finite.finite =>
    obtain ⟨hs, rfl, rfl⟩ := h
    rw [isNegative_injective hs]

/-- A double is determined by what it stands for. -/
theorem of_injective : Function.Injective of := by
  intro x y h
  obtain ⟨u, hu, rfl⟩ := exists_packed x
  obtain ⟨v, hv, rfl⟩ := exists_packed y
  rw [of_packed hu, of_packed hv] at h
  rw [ofUnpacked_injective h]

/-- The finite doubles are the zeros and the canonical pairs. -/
theorem canonical_of {x : Float} {s : Bool} {m : ℕ} {q : ℤ} (h : of x = .finite s m q) :
    m = 0 ∧ q = 0 ∨ 0 < m ∧ Canonical m q := by
  obtain ⟨u, hu, rfl⟩ := exists_packed x
  rw [of_packed hu] at h
  cases u <;> simp only [ofUnpacked, finite.injEq, reduceCtorEq] at h
  case zero => exact .inl ⟨h.2.1.symm, h.2.2.symm⟩
  case finite hm =>
    obtain ⟨-, rfl, rfl⟩ := h
    exact .inr ⟨hm, hu⟩

/-! ## Signs -/

/-- What the negative of a double stands for. -/
def negate : DoubleValue → DoubleValue
  | .notANumber => .notANumber
  | .infinite s => .infinite !s
  | .finite s m q => .finite (!s) m q

theorem of_neg (x : Float) : of (-x) = negate (of x) := by
  obtain ⟨u, hu, rfl⟩ := exists_packed x
  have hneg : -packed u = packed (packed u).toModel.unpack.neg := rfl
  rw [toModel_packed hu] at hneg
  have hpackable : Packable u.neg := by
    cases u with
    | finite => exact hu
    | _ => trivial
  rw [hneg, of_packed hpackable, of_packed hu]
  cases u with
  | notANumber => rfl
  | _ s => cases s <;> rfl

theorem of_withSign (negative : Bool) (x : Float) :
    of (Double.withSign negative x) = if negative then negate (of x) else of x := by
  cases negative with
  | true => exact of_neg x
  | false => rfl

theorem of_withSign_finite {x : Float} {m : ℕ} {q : ℤ} (negative : Bool)
    (h : of x = .finite false m q) : of (Double.withSign negative x) = .finite negative m q := by
  rw [of_withSign, h]
  cases negative <;> rfl

/-! ## Magnitudes -/

/-- The number `m · 2 ^ q`. -/
def magnitude (m : ℕ) (q : ℤ) : ℚ := m * 2 ^ q

theorem denominator_pos (q : ℤ) : 0 < denominator q := by
  rw [denominator, Nat.pow_eq]
  positivity

theorem magnitude_eq (m : ℕ) (q : ℤ) : magnitude m q = numerator m q / denominator q := by
  rw [magnitude, numerator, denominator, Nat.pow_eq, Nat.pow_eq]
  obtain ⟨k, rfl | rfl⟩ := q.eq_nat_or_neg
  · simp
  · simp [div_eq_mul_inv]

theorem magnitude_add (m : ℕ) (q : ℤ) (k : ℕ) : magnitude m (q + k) = magnitude (m * 2 ^ k) q := by
  rw [magnitude, magnitude, zpow_add₀ two_ne_zero, zpow_natCast]
  push_cast
  ring

/-- Canonical pairs of one magnitude are the same. -/
theorem Canonical.eq_of_magnitude_eq {m m' : ℕ} {q q' : ℤ} (h : Canonical m q)
    (h' : Canonical m' q') (heq : magnitude m q = magnitude m' q') : m = m' ∧ q = q' := by
  wlog hle : q ≤ q' generalizing m m' q q'
  · obtain ⟨rfl, rfl⟩ := this h' h heq.symm (not_le.mp hle).le
    exact ⟨rfl, rfl⟩
  obtain ⟨k, rfl⟩ := Int.le.dest hle
  rw [magnitude_add, magnitude, magnitude, mul_left_inj' (zpow_ne_zero _ two_ne_zero),
    Nat.cast_inj] at heq
  cases k with
  | zero => exact ⟨by rw [heq, pow_zero, mul_one], by simp⟩
  | succ k =>
      -- The mantissa of the larger exponent has its first bit set, so the other one is too long.
      have hleast := h.least
      have hbit : 2 ^ 52 ≤ m' := h'.full.resolve_left (by push_cast; omega)
      have hlong : 2 ^ 52 * 2 ^ 1 ≤ m' * 2 ^ (k + 1) :=
        Nat.mul_le_mul hbit (Nat.pow_le_pow_right two_pos (by omega))
      have hshort := h.mantissa_lt
      omega

/-- A number that is the magnitude of a finite double. -/
def IsMagnitude (a : ℚ) : Prop := ∃ m q, Canonical m q ∧ a = magnitude m q

theorem isMagnitude_zero : IsMagnitude 0 :=
  ⟨0, -1074, ⟨by norm_num, le_rfl, by norm_num, .inl rfl⟩, by simp [magnitude]⟩

theorem isMagnitude_of {x : Float} {s : Bool} {m : ℕ} {q : ℤ} (h : of x = .finite s m q) :
    IsMagnitude (magnitude m q) := by
  rcases canonical_of h with ⟨rfl, rfl⟩ | ⟨-, hcanonical⟩
  · rw [magnitude, Nat.cast_zero, zero_mul]
    exact isMagnitude_zero
  · exact ⟨m, q, hcanonical, rfl⟩

/-- Finite doubles of one magnitude have one mantissa and one exponent. -/
theorem eq_of_magnitude_eq {x y : Float} {s t : Bool} {m m' : ℕ} {q q' : ℤ}
    (hx : of x = .finite s m q) (hy : of y = .finite t m' q')
    (heq : magnitude m q = magnitude m' q') : m = m' ∧ q = q' := by
  have hpos : ∀ {n : ℕ} {e : ℤ}, 0 < n → 0 < magnitude n e := by
    intro n e hn
    unfold magnitude
    positivity
  have hzero : magnitude 0 0 = 0 := by simp [magnitude]
  rcases canonical_of hx with ⟨rfl, rfl⟩ | ⟨hm, h⟩ <;>
    rcases canonical_of hy with ⟨rfl, rfl⟩ | ⟨hm', h'⟩
  · exact ⟨rfl, rfl⟩
  · exact absurd (hzero.symm.trans heq) (hpos hm').ne
  · exact absurd (heq.trans hzero) (hpos hm).ne'
  · exact h.eq_of_magnitude_eq h' heq

end DoubleValue

end WireErosion
