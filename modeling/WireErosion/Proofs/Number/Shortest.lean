import WireErosion.Proofs.Number.Fewest
import WireErosion.Proofs.Number.Reading

/-!
# The shortest text of a double

The text of a finite double has its fewest digits around a point, or before a power of ten
(`Decimal.Written`).  In whichever form it is, it stands for the number of these digits, and so for
the double, and is short enough to be read (`Double.exists_shortest`).
-/

namespace WireErosion

open DoubleValue (Packable packed)

namespace Decimal

/-! ## Digits -/

/-- The zeros at the end are left out. -/
theorem exists_zeros (ds : List Char) : ∃ k, ds = dropZeros ds ++ List.replicate k '0' := by
  have hzeros : ∀ c ∈ List.rtakeWhile (· == '0') ds, c = '0' := fun c hc => by
    simpa using List.mem_rtakeWhile_imp hc
  refine ⟨(List.rtakeWhile (· == '0') ds).length, ?_⟩
  rw [← List.eq_replicate_of_mem hzeros]
  exact List.rdropWhile_append_rtakeWhile.symm

theorem length_dropZeros_le (ds : List Char) : (dropZeros ds).length ≤ ds.length := by
  obtain ⟨k, hk⟩ := exists_zeros ds
  have hlength := congrArg List.length hk
  rw [List.length_append] at hlength
  omega

theorem isLeading_dropZeros {ds : List Char} (h : IsLeading ds) : IsLeading (dropZeros ds) := by
  obtain ⟨k, hk⟩ := exists_zeros ds
  refine ⟨fun c hc => h.digits c (hk ▸ List.mem_append_left _ hc), ?_⟩
  obtain ⟨c, cs, hcs, hc⟩ := h.first
  rw [hcs] at hk ⊢
  generalize dropZeros (c :: cs) = es at hk
  cases es with
  | nil =>
      rw [List.nil_append] at hk
      exact absurd (List.eq_of_mem_replicate (hk ▸ List.mem_cons_self : c ∈ _)) hc
  | cons d ds =>
      obtain ⟨rfl, -⟩ := List.cons.inj hk
      exact ⟨c, ds, rfl, hc⟩

/-- The natural number that digits write. -/
abbrev natOf (ds : List Char) : ℕ := Nat.ofDigitChars 10 ds 0

theorem natOf_append_zeros (ds : List Char) (k : ℕ) :
    natOf (ds ++ List.replicate k '0') = natOf ds * 10 ^ k := by
  rw [natOf, Nat.ofDigitChars_append, Nat.ofDigitChars_replicate_zero, mul_comm]

theorem natOf_zeros_append (k : ℕ) (ds : List Char) :
    natOf (List.replicate k '0' ++ ds) = natOf ds := by
  rw [natOf, Nat.ofDigitChars_append, Nat.ofDigitChars_replicate_zero, mul_zero]

/-! ## Numerals -/

/-- A decimal numeral without a sign. -/
structure Written where
  /-- The digits before the point. -/
  whole : List Char
  /-- The digits after the point. -/
  fraction : List Char
  /-- The power of ten. -/
  exponent : Option ℤ

namespace Written

/-- The characters after the whole part.  There is no point without digits after it. -/
def pointChars : List Char → List Char
  | [] => []
  | ds => '.' :: ds

/-- The characters of a power of ten, if there is one. -/
def exponentChars : Option ℤ → List Char
  | none => []
  | some e => (exponentText e).toList

/-- The characters of a numeral. -/
def chars (t : Written) : List Char :=
  t.whole ++ pointChars t.fraction ++ exponentChars t.exponent

/-- The whole part is a zero or does not start with one. -/
structure IsNumeral (t : Written) : Prop where
  /-- Only a zero starts with a zero. -/
  whole : t.whole = ['0'] ∨ IsLeading t.whole
  /-- After the point there are digits. -/
  fraction : AreDigits t.fraction

/-- The digits and the power of ten of a numeral. -/
def parts (t : Written) : Numeral.Parts :=
  ⟨Numeral.values (t.whole ++ t.fraction), t.fraction.length, t.exponent.getD 0⟩

/-- How many digits a numeral has, without those of its power of ten. -/
def length (t : Written) : ℕ := t.whole.length + t.fraction.length

theorem isReadable_parts {t : Written} (h : t.length ≤ Numeral.mostDoubleDigits) :
    t.parts.isReadable = true := by
  have hdrop := List.length_dropWhile_le (· == 0) (Numeral.values (t.whole ++ t.fraction))
  rw [Numeral.values, List.length_map, List.length_append] at hdrop
  rw [length] at h
  rw [Numeral.Parts.isReadable, parts, Bool.and_eq_true, decide_eq_true_eq, decide_eq_true_eq]
  exact ⟨(Nat.le_add_left _ _).trans h, hdrop.trans h⟩

/-- The number that a numeral stands for. -/
def value (t : Written) : ℚ :=
  natOf (t.whole ++ t.fraction) * 10 ^ (t.exponent.getD 0 - t.fraction.length)

theorem rounds (t : Written) : RoundsTo t.value t.parts.toFloat := by
  have hrounds := Double.ofGrid_rounds (natOf (t.whole ++ t.fraction))
    (t.fraction.length - t.exponent.getD 0)
  rw [neg_sub] at hrounds
  rw [Numeral.Parts.toFloat, parts, Numeral.values, Text.ofDigits_map]
  exact hrounds

end Written

theorem Written.pointChars_eq {ds : List Char} (h : ds ≠ []) : pointChars ds = '.' :: ds := by
  cases ds with
  | nil => exact absurd rfl h
  | cons d ds => rfl

/-! ## Digits around a point -/

/-- Digits after a point and zeros. -/
theorem Written.value_of_zeros (ds : List Char) (k : ℕ) :
    (⟨['0'], List.replicate k '0' ++ ds, none⟩ : Written).value
      = natOf ds * 10 ^ (-(k + ds.length : ℤ)) := by
  have hnumber : natOf (['0'] ++ (List.replicate k '0' ++ ds)) = natOf ds :=
    natOf_zeros_append (k + 1) ds
  rw [Written.value, hnumber, List.length_append, List.length_replicate, Option.getD_none, zero_sub,
    Nat.cast_add]

/-- Digits before a point, with zeros where they are too few, and those that are left after it. -/
theorem Written.value_of_split (ds : List Char) (k : ℕ) :
    (⟨ds.take k ++ List.replicate (k - ds.length) '0', ds.drop k, none⟩ : Written).value
      = natOf ds * 10 ^ ((k : ℤ) - ds.length) := by
  rw [Written.value]
  dsimp only
  rw [Option.getD_none]
  rcases le_total ds.length k with hle | hle
  · rw [List.drop_eq_nil_of_le hle, List.take_of_length_le hle, List.append_nil, natOf_append_zeros,
      ← Nat.cast_sub hle, zpow_natCast]
    simp
  · rw [Nat.sub_eq_zero_of_le hle, List.replicate_zero, List.append_nil, List.take_append_drop,
      List.length_drop, Nat.cast_sub hle, zero_sub, neg_sub]

/-- Digits are written around a point, with the first one at its power of ten. -/
theorem exists_positional {ds : List Char} (hds : IsLeading ds) (e : ℤ) :
    ∃ t : Written, (positionalText ds e).toList = t.chars ∧ t.IsNumeral ∧ t.exponent = none ∧
      t.length ≤ ds.length + e.natAbs + 1 ∧ t.value = natOf ds * 10 ^ (e + 1 - ds.length) := by
  rw [positionalText]
  split
  next hneg =>
    obtain ⟨k, hk⟩ : ∃ k : ℕ, -e - 1 = k := Int.eq_ofNat_of_zero_le (by omega)
    have hne : List.replicate k '0' ++ ds ≠ [] := by
      obtain ⟨c, cs, rfl, -⟩ := hds.first
      simp
    have hplaces : e + 1 - ds.length = -(k + ds.length : ℤ) := by omega
    rw [hk, Int.toNat_natCast, hplaces]
    refine ⟨⟨['0'], List.replicate k '0' ++ ds, none⟩, ?_,
      ⟨.inl rfl, (areDigits_replicate k).append hds.digits⟩, rfl, ?_, Written.value_of_zeros ds k⟩
    · rw [String.toList_ofList, Written.chars, Written.pointChars_eq hne]
      simp [Written.exponentChars]
    · simp only [Written.length, List.length_singleton, List.length_append, List.length_replicate]
      omega
  next hnonneg =>
    obtain ⟨k, rfl⟩ := Int.eq_ofNat_of_zero_le (not_lt.mp hnonneg)
    rw [Int.toNat_natCast, ← Nat.cast_succ]
    dsimp only
    have hwhole : IsLeading (ds.take (k + 1) ++ List.replicate (k + 1 - ds.length) '0') := by
      obtain ⟨hdigits, c, cs, rfl, hc⟩ := hds
      refine ⟨.append (fun d hd => hdigits d (List.mem_of_mem_take hd)) (areDigits_replicate _), ?_⟩
      exact ⟨c, _, by rw [List.take_succ_cons, List.cons_append], hc⟩
    have hfraction : AreDigits (ds.drop (k + 1)) := fun d hd =>
      hds.digits d (List.mem_of_mem_drop hd)
    refine ⟨⟨_, ds.drop (k + 1), none⟩, ?_, ⟨.inr hwhole, hfraction⟩, rfl, ?_,
      Written.value_of_split ds (k + 1)⟩
    · rw [Written.chars]
      split
      next hnil => simp [hnil, Written.pointChars, Written.exponentChars]
      next hne =>
        rw [Written.pointChars_eq hne, String.toList_ofList]
        simp [Written.exponentChars]
    · simp only [Written.length, List.length_append, List.length_take, List.length_replicate,
        List.length_drop, Int.natAbs_natCast]
      omega

theorem pointless_iff {t : Written} (ht : t.IsNumeral) (hexponent : t.exponent = none)
    {text : String} (htext : text.toList = t.chars) :
    Double.pointless text = true ↔ t.fraction = [] := by
  have hpoint : '.' ∉ t.whole := fun hmem => by
    rcases ht.whole with hzero | hwhole
    · rw [hzero] at hmem
      exact absurd (List.mem_singleton.mp hmem) (by decide)
    · cases hwhole.digits _ hmem
  rw [Double.pointless, htext, Written.chars, hexponent]
  cases hfraction : t.fraction with
  | nil => simp [Written.pointChars, Written.exponentChars, hpoint]
  | cons d ds => simp [Written.pointChars]

/-- A digit after the point is added where there is none. -/
theorem exists_pointed {ds : List Char} (hds : IsLeading ds) (e : ℤ) :
    ∃ t : Written, (if Double.pointless (positionalText ds e) then positionalText ds e ++ ".0"
        else positionalText ds e).toList = t.chars ∧ t.IsNumeral ∧ t.fraction ≠ [] ∧
      t.length ≤ ds.length + e.natAbs + 2 ∧ t.value = natOf ds * 10 ^ (e + 1 - ds.length) := by
  obtain ⟨t, htext, ht, hexponent, hlength, hvalue⟩ := exists_positional hds e
  split
  next hpointless =>
    rw [pointless_iff ht hexponent htext] at hpointless
    rw [Written.length, hpointless] at hlength
    refine ⟨{ t with fraction := ['0'] }, ?_, ⟨ht.whole, areDigits_replicate 1⟩, by simp,
      Nat.succ_le_succ hlength, ?_⟩
    · rw [String.toList_append, htext, Written.chars, Written.chars, hpointless, hexponent]
      simp [Written.pointChars, Written.exponentChars]
    · have hnumber : natOf (t.whole ++ ['0']) = natOf t.whole * 10 ^ 1 :=
        natOf_append_zeros t.whole 1
      rw [← hvalue, Written.value, Written.value, hpointless, hexponent, hnumber]
      simp
  next hpoint =>
    rw [pointless_iff ht hexponent htext] at hpoint
    exact ⟨t, htext, ht, hpoint, hlength.trans (Nat.le_succ _), hvalue⟩

/-- Digits are written before a power of ten. -/
theorem exists_scientific {ds : List Char} (hds : IsLeading ds) (e : ℤ) :
    ∃ t : Written, (scientificText ds e).toList = t.chars ∧ t.IsNumeral ∧ t.exponent ≠ none ∧
      t.length ≤ ds.length + 1 ∧ t.value = natOf ds * 10 ^ (e + 1 - ds.length) := by
  obtain ⟨t, htext, ht, hexponent, hlength, hvalue⟩ := exists_positional hds 0
  refine ⟨{ t with exponent := some e }, ?_, ⟨ht.whole, ht.fraction⟩, by simp, hlength, ?_⟩
  · rw [scientificText, String.toList_append, htext, Written.chars, Written.chars, hexponent]
    simp [Written.exponentChars]
  · rw [Written.value, hexponent, Option.getD_none, zero_sub] at hvalue
    have hpower : e + 1 - (ds.length : ℤ) = 0 + 1 - ds.length + e := by ring
    rw [Written.value, Option.getD_some, sub_eq_neg_add, zpow_add₀ (by norm_num), ← mul_assoc,
      hvalue, hpower, zpow_add₀ (by norm_num), mul_assoc]

/-- Without the zeros at their end digits write the same number. -/
theorem Significant.value_eq (d : Significant) : d.value = natOf (dropZeros (digits d.mantissa))
      * 10 ^ (d.exponent + 1 - (dropZeros (digits d.mantissa)).length) := by
  obtain ⟨k, hk⟩ := exists_zeros (digits d.mantissa)
  have hmantissa : natOf (digits d.mantissa) = d.mantissa := Nat.ofDigitChars_ten_toDigits
  rw [value]
  nth_rewrite 1 [← hmantissa]
  generalize dropZeros (digits d.mantissa) = ds at hk ⊢
  rw [hk, natOf_append_zeros, List.length_append, List.length_replicate]
  have hpower : d.exponent + 1 - (ds.length : ℤ) = k + (d.exponent + 1 - (ds.length + k : ℕ)) := by
    push_cast
    ring
  rw [hpower, zpow_add₀ (by norm_num), zpow_natCast]
  push_cast
  ring

end Decimal

/-! ## Doubles -/

namespace Double

open Decimal (Written)

theorem of_abs {x : Float} {s : Bool} {m : ℕ} {q : ℤ} (hx : DoubleValue.of x = .finite s m q) :
    DoubleValue.of x.abs = .finite false m q := by
  obtain ⟨u, hu, rfl⟩ := DoubleValue.exists_packed x
  have habs : (packed u).abs = packed (packed u).toModel.unpack.abs := rfl
  have hpackable : Packable u.abs := by
    cases u with
    | finite => exact hu
    | _ => trivial
  rw [DoubleValue.of_packed hu] at hx
  rw [habs, DoubleValue.toModel_packed hu, DoubleValue.of_packed hpackable]
  cases u <;> cases hx <;> rfl

/-- The text of a finite double is a decimal numeral that stands for it, and can be read. -/
theorem exists_shortest {x : Float} {s : Bool} {m : ℕ} {q : ℤ}
    (hx : DoubleValue.of x = .finite s m q) :
    ∃ t : Written, (shortest x).toList = (signText s).toList ++ t.chars ∧ t.IsNumeral ∧
      (t.fraction ≠ [] ∨ t.exponent ≠ none) ∧ t.parts.isReadable = true ∧
      withSign s t.parts.toFloat = x := by
  have habs := of_abs hx
  have hread : ∀ {t : Written}, RoundsTo t.value x.abs → withSign s t.parts.toFloat = x := by
    intro t ht
    apply DoubleValue.of_injective
    rw [t.rounds.unique ht, DoubleValue.of_withSign_finite s habs, hx]
  rw [shortest, hx]
  dsimp only
  split
  next hzero =>
    subst hzero
    refine ⟨⟨['0'], ['0'], none⟩, ?_, ⟨.inl rfl, Decimal.areDigits_replicate 1⟩, .inl (by simp),
      by decide, hread ?_⟩
    · simp [Written.chars, Written.pointChars, Written.exponentChars]
    · have hvalue : (⟨['0'], ['0'], none⟩ : Written).value = 0 := by
        have hnumber : Decimal.natOf (['0'] ++ ['0']) = 0 := rfl
        rw [Written.value, hnumber, Nat.cast_zero, zero_mul]
      rw [eq_packed_zero habs, hvalue]
      exact rounds_zero le_rfl (by positivity)
  next hpos =>
    have hback := readsBack_fewestDigits habs (Nat.pos_of_ne_zero hpos)
    generalize fewestDigits x.abs (DoubleValue.numerator m q) (DoubleValue.denominator q) = d
      at hback ⊢
    have hvalue := d.value_eq ▸ hback.rounds
    have hleading := Decimal.isLeading_dropZeros (Decimal.isLeading_digits hback.pos)
    have hlength : (Decimal.dropZeros (Decimal.digits d.mantissa)).length ≤ 17 :=
      (Decimal.length_dropZeros_le _).trans (Decimal.length_digits_le (by norm_num) hback.short)
    have hmost : 35 ≤ Numeral.mostDoubleDigits := by decide
    split
    next =>
      obtain ⟨t, htext, ht, hexponent, htlength, htvalue⟩ :=
        Decimal.exists_scientific hleading d.exponent
      exact ⟨t, by rw [String.toList_append, htext], ht, .inr hexponent,
        Written.isReadable_parts (by omega), hread (htvalue ▸ hvalue)⟩
    next hexponent =>
      obtain ⟨t, htext, ht, hfraction, htlength, htvalue⟩ :=
        Decimal.exists_pointed hleading d.exponent
      exact ⟨t, by rw [String.toList_append, htext], ht, .inl hfraction,
        Written.isReadable_parts (by omega), hread (htvalue ▸ hvalue)⟩

end Double

end WireErosion
