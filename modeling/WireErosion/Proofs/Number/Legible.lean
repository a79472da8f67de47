import WireErosion.Program.Encode
import WireErosion.Proofs.Number.Order

/-!
# Which numbers are written, and which of them are read

A number is legible with some decimal places if its text has few enough digits to be read.  Every
double is, up to 309 places less than there may be digits (`Double.isLegible_of_le`), and what is
read is legible again and has the same text (`Double.isLegible_reread`, `Double.word_reread`).

The sign of a zero is dropped after the text with the sign was read.  So a number without a sign is
written whether it is legible or not, and one with a sign only if it is (`numberWord_eq_ok`).
-/

namespace WireErosion

open DoubleValue (IsMagnitude magnitude packed toModel_packed of_packed)

namespace Double

variable {places : ℕ} {x : Float}

/-! ## Legible numbers -/

theorem isLegible_of_finite {s : Bool} {m : ℕ} {q : ℤ} (hx : DoubleValue.of x = .finite s m q) :
    isLegible places x = Numeral.isShort (place places m q) places := by
  rw [isLegible, hx]

/-- Every double is legible if the decimal places are well below the digits that are read. -/
theorem isLegible_of_le (h : places + 309 ≤ Numeral.mostDoubleDigits) (x : Float) :
    isLegible places x = true := by
  cases hx : DoubleValue.of x with
  | notANumber => rw [isLegible, hx]
  | infinite s => rw [isLegible, hx]
  | finite s m q =>
      have hplace : place places m q < 10 ^ (309 + places) := by
        refine (place_le places (DoubleValue.isMagnitude_of hx)).trans_lt ?_
        rw [pow_add]
        exact Nat.mul_lt_mul_of_pos_right mostMagnitude_lt (by positivity)
      rw [isLegible_of_finite hx]
      exact Numeral.isShort_of_lt (by omega) hplace (by omega)

/-- What is read from the text of a finite double has the same place on the grid. -/
theorem of_reread (places : ℕ) {s : Bool} {m : ℕ} {q : ℤ} (hx : DoubleValue.of x = .finite s m q) :
    ∃ m' q', DoubleValue.of (reread places x) = .finite (s && place places m q != 0) m' q' ∧
      place places m' q' = place places m q := by
  have hm := DoubleValue.isMagnitude_of hx
  obtain ⟨m', q', hvalue⟩ := exists_ofGrid_place places hm
  refine ⟨m', q', ?_, place_ofGrid hm hvalue⟩
  rw [reread, hx]
  exact DoubleValue.of_withSign_finite _ hvalue

theorem isLegible_reread (places : ℕ) (x : Float) :
    isLegible places (reread places x) = isLegible places x := by
  cases hx : DoubleValue.of x with
  | notANumber => rw [reread, hx]
  | infinite s => rw [reread, hx]
  | finite s m q =>
      obtain ⟨m', q', hread, hplace⟩ := of_reread places hx
      rw [isLegible_of_finite hread, isLegible_of_finite hx, hplace]

/-- A number with decimal places is written as the same text after it was read. -/
theorem word_reread (places : ℕ) (x : Float) : word places (reread places x) = word places x := by
  cases hx : DoubleValue.of x with
  | notANumber => rw [reread, hx]
  | infinite s => rw [reread, hx]
  | finite s m q =>
      obtain ⟨m', q', hread, hplace⟩ := of_reread places hx
      rw [word, hread, word, hx]
      simp only [hplace, Bool.and_assoc, Bool.and_self]

theorem reread_reread (places : ℕ) (x : Float) :
    reread places (reread places x) = reread places x := by
  have hsame : (∀ s m q, DoubleValue.of x ≠ .finite s m q) → reread places x = x := by
    intro h
    unfold reread
    split
    next s m q hx => exact absurd hx (h s m q)
    next => rfl
  cases hx : DoubleValue.of x with
  | notANumber => rw [hsame (by simp [hx]), hsame (by simp [hx])]
  | infinite s => rw [hsame (by simp [hx]), hsame (by simp [hx])]
  | finite s m q =>
      obtain ⟨m', q', hread, hplace⟩ := of_reread places hx
      rw [reread, hread, reread, hx]
      simp only [hplace, Bool.and_assoc, Bool.and_self]

/-! ## Signs -/

/-- Whether a double is written with a sign, that of a zero included. -/
def isSigned (x : Float) : Bool :=
  match DoubleValue.of x with
  | .notANumber => false
  | .infinite s => s
  | .finite s _ _ => s

/-- A double can be written with decimal places: they are not too many, and if it has a sign then
its text can be read. -/
structure Writable (places : ℕ) (x : Float) : Prop where
  /-- The decimal places are not too many. -/
  places_le : (places : ℤ) ≤ mostWrittenPlaces
  /-- The text can be read if there is a sign. -/
  legible : isSigned x = true → isLegible places x = true

/-- A finite double equals zero if its mantissa is zero. -/
theorem beq_zero_iff {s : Bool} {m : ℕ} {q : ℤ} (hx : DoubleValue.of x = .finite s m q) :
    (x == 0) = true ↔ m = 0 := by
  obtain ⟨u, hu, rfl⟩ := DoubleValue.exists_packed x
  have hbeq : (packed u == 0) = (u.compare (.zero .positive) == some .eq) := by
    change ((packed u).toModel.unpack.compare (0 : Float).toModel.unpack == some .eq) = _
    rw [toModel_packed hu]
    rfl
  rw [of_packed hu] at hx
  rw [hbeq]
  rcases u with (_ | _) | _ | (_ | _) | ⟨(_ | _), m', q', hm'⟩ <;> cases hx
  · exact iff_of_true rfl rfl
  · exact iff_of_true rfl rfl
  · exact iff_of_false Bool.false_ne_true hm'.ne'
  · exact iff_of_false Bool.false_ne_true hm'.ne'

end Double

/-! ## Words -/

open Double (isSigned isLegible signText)

theorem dropZeroSign_unsigned {text : String} (h : ∀ c ∈ text.toList, c ≠ '-') :
    dropZeroSign text = .ok text := by
  rw [dropZeroSign]
  split
  next rest hrest => exact absurd rfl (h '-' (hrest ▸ List.mem_cons_self ..))
  next => rfl

/-- The sign of a number is dropped if it is written with zeros only, and if its text can be read.
-/
theorem dropZeroSign_fixed (places : ℕ) (x : Float) :
    dropZeroSign (Double.fixed places x)
      = if isSigned x && !isLegible places x then .error (.notANumeral (Double.fixed places x))
        else .ok (Double.word places x) := by
  cases hx : DoubleValue.of x with
  | notANumber =>
      simp only [Double.fixed, Double.word, isSigned, hx]
      rfl
  | infinite s =>
      simp only [Double.fixed, Double.word, isSigned, isLegible, hx]
      cases s <;> rfl
  | finite s m q =>
      have hm := DoubleValue.isMagnitude_of hx
      have hunsigned := Double.fixedText_unsigned (Double.place places m q) places
      have hfixed : Double.fixed places x
          = signText s ++ Decimal.fixedText (Double.place places m q) places := by
        rw [Double.fixed, hx]
        rfl
      rw [hfixed, Double.isLegible_of_finite hx]
      simp only [Double.word, isSigned, hx]
      cases s with
      | false =>
          rw [Bool.false_and, Bool.false_and, if_neg Bool.false_ne_true]
          refine dropZeroSign_unsigned fun c hc => ?_
          rw [signText, if_neg Bool.false_ne_true, String.empty_append] at hc
          exact (Double.ne_sign_of_isUnsigned (hunsigned c hc)).1
      | true =>
          -- The text with the sign is read, and it is zero only at the zero of the grid.
          obtain ⟨m', q', hvalue⟩ := Double.exists_ofGrid_place places hm
          have hsigned := DoubleValue.of_withSign_finite true hvalue
          have hzero := Double.beq_zero_iff hsigned
          rw [Double.eq_zero_iff_place_eq_zero hm hvalue] at hzero
          have hread := Double.double?_signed hunsigned true
          have htext : (signText true ++ Decimal.fixedText (Double.place places m q) places).toList
              = '-' :: (Decimal.fixedText (Double.place places m q) places).toList :=
            String.toList_append
          rw [Numeral.unsigned?_fixedText, ← String.toList_append, htext] at hread
          rw [dropZeroSign, htext]
          simp only [hread]
          cases Numeral.isShort (Double.place places m q) places with
          | false => rfl
          | true =>
              simp only [if_true, Option.map_some, Bool.true_and, Bool.not_true,
                Bool.false_eq_true, if_false]
              by_cases hplace : Double.place places m q = 0
              · rw [if_pos (hzero.mpr hplace), bne_eq_false_iff_eq.mpr hplace, String.ofList_toList]
                exact congrArg Except.ok String.empty_append.symm
              · rw [if_neg (mt hzero.mp hplace), bne_iff_ne.mpr hplace]

section

variable {places : Int} {x : Float} {t : String}

/-- A number is written as its text without the sign of a zero. -/
theorem numberWord_eq_ok : numberWord places x = .ok t ↔
    0 ≤ places ∧ Double.Writable places.toNat x ∧ Double.word places.toNat x = t := by
  rw [numberWord]
  split
  next hplaces =>
    have hle : (places.toNat : ℤ) ≤ mostWrittenPlaces := by omega
    rw [dropZeroSign_fixed]
    split
    next hunread =>
      rw [Bool.and_eq_true, Bool.not_eq_true'] at hunread
      simp only [reduceCtorEq, false_iff]
      rintro ⟨-, ⟨-, hlegible⟩, -⟩
      rw [hlegible hunread.1] at hunread
      cases hunread.2
    next hread =>
      have hwritable : Double.Writable places.toNat x := ⟨hle, by simpa using hread⟩
      simp [hplaces, hwritable]
  next hplaces =>
    simp only [reduceCtorEq, false_iff]
    rintro ⟨hnonneg, ⟨hle, -⟩, -⟩
    omega

theorem exists_numberWord (h : 0 ≤ places) :
    (∃ t, numberWord places x = .ok t) ↔ Double.Writable places.toNat x := by
  simp [numberWord_eq_ok, h]

end

end WireErosion
