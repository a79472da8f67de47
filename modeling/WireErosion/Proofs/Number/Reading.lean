import WireErosion.Number.Numeral
import WireErosion.Number.Text
import WireErosion.Proofs.Number.Digits
import WireErosion.Proofs.Number.Grid
import WireErosion.Proofs.Text.Pieces

/-!
# Numbers are read as they are written

The text of a double with decimal places is a numeral again, if it has few enough digits to be read
(`Double.isLegible`).  It stands for the double nearest to the place at which the first one was
written (`Double.double?_word`), which for a double that was rounded to as many places is the double
itself (`Double.reread_of_settled`).  A whole number is written with all its digits and read as
itself (`Double.double?_wholeText`).  A zero loses its sign both ways.

All characters of such a text are plain (`Double.word_plain`, `Double.wholeText_plain`), so it can
be told from what stands around it.
-/

namespace WireErosion

open DoubleValue (IsMagnitude magnitude numerator denominator)

/-! ## Digits of ASCII -/

namespace Text

theorem toNat_of_isDigit {c : Char} (h : c.isDigit = true) : 48 ≤ c.toNat ∧ c.toNat ≤ 57 := by
  rw [Char.isDigit, Bool.and_eq_true, decide_eq_true_eq, decide_eq_true_eq] at h
  exact ⟨UInt32.le_iff_toNat_le.mp h.1, UInt32.le_iff_toNat_le.mp h.2⟩

theorem isPlain_of_isDigit {c : Char} (h : c.isDigit = true) : isPlain c = true := by
  obtain ⟨hlow, hhigh⟩ := toNat_of_isDigit h
  refine isPlain_iff.mpr ⟨by omega, ?_⟩
  rintro rfl
  cases h

/-- The value of a digit of ASCII. -/
theorem digitValue?_of_isDigit {c : Char} (h : c.isDigit = true) :
    digitValue? c = some (c.toNat - 48) := by
  obtain ⟨-, hhigh⟩ := toNat_of_isDigit h
  rw [Char.isDigit, Bool.and_eq_true, decide_eq_true_eq, decide_eq_true_eq] at h
  rw [digitValue?, if_pos (by omega)]
  exact if_pos h

/-- The number that digits of ASCII write. -/
theorem ofDigits_map (cs : List Char) :
    ofDigits (cs.map fun c => c.toNat - 48) = Nat.ofDigitChars 10 cs 0 := by
  rw [ofDigits, List.foldl_map]
  rfl

end Text

/-! ## Digits -/

namespace Numeral

open Text (digitValue? isPlain)

/-- The values of digits of ASCII. -/
def values (cs : List Char) : List Nat := cs.map fun c => c.toNat - 48

theorem map_of_digits {cs : List Char} (h : ∀ c ∈ cs, c.isDigit = true) :
    cs.map Sign.of = (values cs).map .digit := by
  rw [values, List.map_map]
  refine List.map_congr_left fun c hc => ?_
  rw [Sign.of, Text.digitValue?_of_isDigit (h c hc)]
  rfl

/-- A numeral without low lines stays as it is. -/
theorem joinDigits?_eq : ∀ {signs : List Sign}, (∀ s ∈ signs, s ≠ .other '_') →
    ∀ afterDigit, joinDigits? afterDigit signs = some signs
  | [], _, _ => rfl
  | .digit v :: rest, h, _ => by
      rw [joinDigits?, joinDigits?_eq (fun s hs => h s (List.mem_cons_of_mem _ hs))]
      rfl
  | .other c :: rest, h, _ => by
      have hc : c ≠ '_' := fun hc => h _ (List.mem_cons_self ..) (congrArg Sign.other hc)
      rw [joinDigits?, if_neg hc, joinDigits?_eq (fun s hs => h s (List.mem_cons_of_mem _ hs))]
      · rfl
      · exact fun _ _ _ => hc

theorem takeDigits_append {rest : List Sign} (hrest : takeDigits rest = ([], rest)) :
    ∀ ds : List Nat, takeDigits (ds.map .digit ++ rest) = (ds, rest)
  | [] => hrest
  | d :: ds => by
      rw [List.map_cons, List.cons_append, takeDigits, takeDigits_append hrest ds]

/-- The parts of digits without a point. -/
theorem parts?_whole {ds : List Nat} (h : ds ≠ []) :
    parts? (ds.map .digit) = some ⟨ds, 0, 0⟩ := by
  have htake : takeDigits (ds.map .digit ++ []) = (ds, []) := takeDigits_append rfl ds
  rw [List.append_nil] at htake
  rw [parts?, htake]
  simp [h, exponent?]

/-- The parts of digits around a point. -/
theorem parts?_fixed {whole fraction : List Nat} (h : whole ≠ []) :
    parts? (whole.map .digit ++ Sign.other '.' :: fraction.map .digit)
      = some ⟨whole ++ fraction, fraction.length, 0⟩ := by
  have htake : takeDigits (fraction.map .digit ++ []) = (fraction, []) :=
    takeDigits_append rfl fraction
  rw [List.append_nil] at htake
  rw [parts?, takeDigits_append rfl whole]
  simp [h, htake, exponent?]

/-! ## Numerals -/

theorem takeSign_eq {signs : List Sign}
    (h : ∀ s ∈ signs.head?, s ≠ .other '-' ∧ s ≠ .other '+') : takeSign signs = (false, signs) := by
  rw [takeSign]
  · rintro rest rfl
    exact (h _ rfl).1 rfl
  · rintro rest rfl
    exact (h _ rfl).2 rfl

theorem eq_of_of_eq_other {c d : Char} (h : Sign.of c = .other d) : c = d := by
  rw [Sign.of] at h
  split at h
  next => cases h
  next => exact Sign.other.inj h

theorem signText_plain (negative : Bool) :
    ∀ c ∈ (Double.signText negative).toList, isPlain c = true :=
  List.all_eq_true.mp (by cases negative <;> decide)

/-- What stands after a sign is read without it. -/
theorem double?_signed {cs : List Char} (hplain : ∀ c ∈ cs, isPlain c = true)
    (hfront : ∀ c ∈ cs.head?, c ≠ '-' ∧ c ≠ '+') (negative : Bool) :
    double? ((Double.signText negative).toList ++ cs)
      = (unsigned? (cs.map Sign.of)).map (Double.withSign negative) := by
  have hall : ∀ c ∈ (Double.signText negative).toList ++ cs, isPlain c = true :=
    List.forall_mem_append.mpr ⟨signText_plain negative, hplain⟩
  have htrim : Text.trim Text.isNumeralBlank ((Double.signText negative).toList ++ cs)
      = (Double.signText negative).toList ++ cs := by
    refine Text.trim_eq fun c hc => ?_
    rw [Text.isNumeralBlank, Text.isBlank_of_isPlain (hall c hc), Bool.false_and]
  have hjoin : joinDigits? false (((Double.signText negative).toList ++ cs).map Sign.of)
      = some (((Double.signText negative).toList ++ cs).map Sign.of) := by
    refine joinDigits?_eq (fun s hs hlow => ?_) false
    obtain ⟨c, hc, rfl⟩ := List.mem_map.mp hs
    exact (Text.isPlain_iff.mp (hall c hc)).2 (eq_of_of_eq_other hlow)
  have hsign : takeSign (((Double.signText negative).toList ++ cs).map Sign.of)
      = (negative, cs.map Sign.of) := by
    cases negative with
    | true => rfl
    | false =>
        refine takeSign_eq fun s hs => ?_
        change s ∈ (cs.map Sign.of).head? at hs
        rw [List.head?_map, Option.mem_map] at hs
        obtain ⟨c, hc, rfl⟩ := hs
        exact ⟨fun h => (hfront c hc).1 (eq_of_of_eq_other h),
          fun h => (hfront c hc).2 (eq_of_of_eq_other h)⟩
  rw [double?, htrim, hjoin]
  simp only [Option.bind_eq_bind, Option.bind_some, hsign]

theorem unsigned?_digits {ds : List Nat} (h : ds ≠ []) (rest : List Sign) :
    unsigned? (ds.map .digit ++ rest) = (parts? (ds.map .digit ++ rest)).bind Parts.toFloat? := by
  cases ds with
  | nil => exact absurd rfl h
  | cons d ds => rfl

/-- The digits of a number, with zeros in front, stand for it. -/
theorem ofDigits_paddedDigits (width n : ℕ) :
    Text.ofDigits (values (Decimal.paddedDigits width n)) = n := by
  rw [values, Text.ofDigits_map, Decimal.paddedDigits, Nat.ofDigitChars_append,
    Nat.ofDigitChars_replicate_zero, mul_zero, Decimal.digits, Nat.ofDigitChars_ten_toDigits]

theorem isDigit_of_mem_paddedDigits {width n : ℕ} {c : Char}
    (hc : c ∈ Decimal.paddedDigits width n) : c.isDigit = true := by
  rw [Decimal.paddedDigits, List.mem_append] at hc
  rcases hc with hc | hc
  · rw [List.eq_of_mem_replicate hc]
    rfl
  · exact Nat.isDigit_of_mem_toDigits (by norm_num) le_rfl hc

/-- A place of the grid is written with few enough digits to be read. -/
def isShort (n places : ℕ) : Bool :=
  places ≤ mostDoubleDigits && (Decimal.digits n).length ≤ mostDoubleDigits

theorem isShort_of_lt {n places k : ℕ} (hplaces : places ≤ mostDoubleDigits) (hn : n < 10 ^ k)
    (hk : k ≤ mostDoubleDigits) : isShort n places = true := by
  rw [isShort, Bool.and_eq_true, decide_eq_true_eq, decide_eq_true_eq]
  refine ⟨hplaces, ?_⟩
  rcases Nat.eq_zero_or_pos k with rfl | hpos
  · obtain rfl : n = 0 := by omega
    decide
  · exact (Decimal.length_digits_le hpos hn).trans hk

/-- The digits of a number count without the zeros in front of it. -/
theorem isReadable_paddedDigits (width n places : ℕ) :
    Parts.isReadable ⟨values (Decimal.paddedDigits width n), places, 0⟩ = isShort n places := by
  have hzeros : ∀ k, ((values (List.replicate k '0' ++ Decimal.digits n)).dropWhile (· == 0)).length
      = ((values (Decimal.digits n)).dropWhile (· == 0)).length := by
    intro k
    rw [values, List.map_append, List.map_replicate]
    refine congrArg List.length (List.dropWhile_append_of_pos fun v hv => ?_)
    rw [List.eq_of_mem_replicate hv]
    rfl
  rw [Parts.isReadable, isShort, Decimal.paddedDigits, hzeros]
  congr 1
  rcases Nat.eq_zero_or_pos n with rfl | hn
  · decide
  · obtain ⟨hdigits, c, cs, hcs, hc⟩ := Decimal.isLeading_digits hn
    have hfirst : (c.toNat - 48 == 0) = false := by
      obtain ⟨hlow, -⟩ := Text.toNat_of_isDigit (hdigits c (hcs ▸ List.mem_cons_self ..))
      refine beq_false_of_ne fun hzero => hc (Char.toNat_inj.mp ?_)
      change c.toNat = 48
      omega
    rw [hcs, values, List.map_cons, List.dropWhile_cons, hfirst, if_neg Bool.false_ne_true,
      List.length_cons, List.length_map, List.length_cons]

theorem unsigned?_fixedText (n places : ℕ) :
    unsigned? ((Decimal.fixedText n places).toList.map Sign.of)
      = if isShort n places then some (Double.ofGrid n places) else none := by
  rw [Decimal.fixedText]
  split
  next hzero =>
    have hdigits : ∀ c ∈ Decimal.digits n, c.isDigit = true := fun c hc =>
      Nat.isDigit_of_mem_toDigits (by norm_num) le_rfl hc
    have hne : values (Decimal.digits n) ≠ [] := by simp [values, Decimal.digits]
    have hread := unsigned?_digits hne []
    have hshort := isReadable_paddedDigits 0 n 0
    rw [Decimal.paddedDigits, Nat.zero_sub, List.replicate_zero, List.nil_append] at hshort
    rw [List.append_nil, parts?_whole hne] at hread
    rw [String.toList_ofList, map_of_digits hdigits, hread, hzero, Option.bind_some,
      Parts.toFloat?, hshort, Parts.toFloat, values, Text.ofDigits_map, Decimal.digits,
      Nat.ofDigitChars_ten_toDigits]
    rfl
  next hzero =>
    have hlength : places + 1 ≤ (Decimal.paddedDigits (places + 1) n).length := by
      rw [Decimal.paddedDigits, List.length_append, List.length_replicate]
      omega
    have hdigits : ∀ c ∈ Decimal.paddedDigits (places + 1) n, c.isDigit = true := fun c hc =>
      isDigit_of_mem_paddedDigits hc
    have hnumber := ofDigits_paddedDigits (places + 1) n
    have hshort := isReadable_paddedDigits (places + 1) n places
    dsimp only
    generalize Decimal.paddedDigits (places + 1) n = ds at hlength hdigits hnumber hshort
    generalize hwhole : ds.length - places = whole
    have hne : values (ds.take whole) ≠ [] := by
      rw [values, Ne, List.map_eq_nil_iff, List.take_eq_nil_iff]
      rintro (rfl | rfl)
      · omega
      · rw [List.length_nil] at hlength
        omega
    have hpoint : Sign.of '.' = .other '.' := by decide
    have hfraction : (values (ds.drop whole)).length = places := by
      rw [values, List.length_map, List.length_drop]
      omega
    have hall : values (ds.take whole) ++ values (ds.drop whole) = values ds := by
      rw [values, values, ← List.map_append, List.take_append_drop, values]
    rw [String.toList_ofList, List.map_append, List.map_cons, hpoint,
      map_of_digits fun c hc => hdigits c (List.mem_of_mem_take hc),
      map_of_digits fun c hc => hdigits c (List.mem_of_mem_drop hc), unsigned?_digits hne,
      parts?_fixed hne, hall, hfraction, Option.bind_some, Parts.toFloat?, hshort, Parts.toFloat,
      hnumber, sub_zero]

end Numeral

/-! ## Doubles -/

namespace Double

open Text (isPlain)

/-- A double with decimal places, where a number written with zeros only has no sign. -/
def word (places : ℕ) (x : Float) : String :=
  match DoubleValue.of x with
  | .notANumber => "nan"
  | .infinite s => infinityText s
  | .finite s m q =>
    signText (s && place places m q != 0) ++ Decimal.fixedText (place places m q) places

/-- Whether the text of a double with decimal places has few enough digits to be read. -/
def isLegible (places : ℕ) (x : Float) : Bool :=
  match DoubleValue.of x with
  | .finite _ m q => Numeral.isShort (place places m q) places
  | _ => true

/-- What the text of a double with decimal places stands for, if it can be read. -/
def reread (places : ℕ) (x : Float) : Float :=
  match DoubleValue.of x with
  | .finite s m q => withSign (s && place places m q != 0) (ofGrid (place places m q) places)
  | _ => x

/-- A double without the sign of a zero. -/
def unsignZero (x : Float) : Float :=
  match DoubleValue.of x with
  | .finite _ 0 _ => 0
  | _ => x

/-- Whether a character is plain and no sign. -/
def isUnsigned (c : Char) : Bool := isPlain c && c != '-' && c != '+'

theorem isUnsigned_of_isDigit {c : Char} (h : c.isDigit = true) : isUnsigned c = true := by
  rw [isUnsigned, Text.isPlain_of_isDigit h, Bool.true_and, Bool.and_eq_true, bne_iff_ne,
    bne_iff_ne]
  constructor <;> rintro rfl <;> cases h

theorem fixedText_unsigned (n places : ℕ) :
    ∀ c ∈ (Decimal.fixedText n places).toList, isUnsigned c = true := by
  intro c hc
  rw [Decimal.fixedText] at hc
  split at hc
  next =>
    rw [String.toList_ofList] at hc
    exact isUnsigned_of_isDigit (Nat.isDigit_of_mem_toDigits (by norm_num) le_rfl hc)
  next =>
    dsimp only at hc
    rw [String.toList_ofList, List.mem_append, List.mem_cons] at hc
    rcases hc with hc | rfl | hc
    · exact isUnsigned_of_isDigit (Numeral.isDigit_of_mem_paddedDigits (List.mem_of_mem_take hc))
    · decide
    · exact isUnsigned_of_isDigit (Numeral.isDigit_of_mem_paddedDigits (List.mem_of_mem_drop hc))

theorem of_one_div_zero : DoubleValue.of (1 / 0) = .infinite false := by rfl

theorem of_zero_div_zero : DoubleValue.of (0 / 0) = .notANumber := by rfl

theorem of_zero : DoubleValue.of 0 = .finite false 0 0 := by rfl

/-- The text of a double: a sign, and a numeral without one. -/
theorem exists_word (places : ℕ) (x : Float) :
    ∃ (negative : Bool) (cs : List Char),
      (word places x).toList = (signText negative).toList ++ cs ∧
      (∀ c ∈ cs, isUnsigned c = true) ∧
      (Numeral.unsigned? (cs.map Numeral.Sign.of)).map (withSign negative)
        = if isLegible places x then some (reread places x) else none := by
  unfold word isLegible reread
  cases hx : DoubleValue.of x with
  | notANumber =>
      obtain rfl : x = 0 / 0 := DoubleValue.of_injective (hx.trans of_zero_div_zero.symm)
      exact ⟨false, ['n', 'a', 'n'], by simp [signText], List.all_eq_true.mp (by decide), rfl⟩
  | infinite s =>
      obtain rfl : x = withSign s (1 / 0) := by
        apply DoubleValue.of_injective
        rw [hx, DoubleValue.of_withSign, of_one_div_zero]
        cases s <;> rfl
      refine ⟨s, ['i', 'n', 'f'], ?_, List.all_eq_true.mp (by decide), rfl⟩
      simp [infinityText]
  | finite s m q =>
      refine ⟨s && place places m q != 0, _, String.toList_append .., fixedText_unsigned _ _, ?_⟩
      rw [Numeral.unsigned?_fixedText]
      dsimp only
      split <;> rfl

theorem isPlain_of_isUnsigned {c : Char} (h : isUnsigned c = true) : isPlain c = true := by
  rw [isUnsigned, Bool.and_eq_true, Bool.and_eq_true] at h
  exact h.1.1

theorem ne_sign_of_isUnsigned {c : Char} (h : isUnsigned c = true) : c ≠ '-' ∧ c ≠ '+' := by
  rw [isUnsigned, Bool.and_eq_true, Bool.and_eq_true, bne_iff_ne, bne_iff_ne] at h
  exact ⟨h.1.2, h.2⟩

/-- A numeral of characters that are no signs is read with the sign in front of it. -/
theorem double?_signed {cs : List Char} (h : ∀ c ∈ cs, isUnsigned c = true) (negative : Bool) :
    Numeral.double? ((signText negative).toList ++ cs)
      = (Numeral.unsigned? (cs.map Numeral.Sign.of)).map (withSign negative) :=
  Numeral.double?_signed (fun c hc => isPlain_of_isUnsigned (h c hc))
    (fun c hc => ne_sign_of_isUnsigned (h c (List.mem_of_mem_head? hc))) negative

theorem word_plain (places : ℕ) (x : Float) : ∀ c ∈ (word places x).toList, isPlain c = true := by
  obtain ⟨negative, cs, hword, hcs, -⟩ := exists_word places x
  rw [hword, List.forall_mem_append]
  exact ⟨Numeral.signText_plain negative, fun c hc => isPlain_of_isUnsigned (hcs c hc)⟩

/-- The text of a double with decimal places is a numeral, if it is not too long. -/
theorem double?_word (places : ℕ) (x : Float) :
    Numeral.double? (word places x).toList
      = if isLegible places x then some (reread places x) else none := by
  obtain ⟨negative, cs, hword, hcs, hread⟩ := exists_word places x
  rw [hword, double?_signed hcs, hread]

/-! ## Zeros -/

/-- The magnitude of a double with its sign is the double, but for the sign of a zero. -/
theorem withSign_eq_unsignZero {x y : Float} {s : Bool} {m n : ℕ} {q : ℤ}
    (hx : DoubleValue.of x = .finite s m q) (hy : DoubleValue.of y = .finite false m q)
    (hn : n = 0 ↔ m = 0) : withSign (s && n != 0) y = unsignZero x := by
  apply DoubleValue.of_injective
  rw [DoubleValue.of_withSign_finite _ hy, unsignZero, hx]
  cases m with
  | zero =>
      obtain rfl : q = 0 := by
        rcases DoubleValue.canonical_of hx with ⟨-, hq⟩ | ⟨hm, -⟩
        · exact hq
        · exact absurd hm (lt_irrefl 0)
      rw [hn.mpr rfl, bne_self_eq_false, Bool.and_false]
      exact of_zero.symm
  | succ m =>
      have hne : (n != 0) = true := bne_iff_ne.mpr fun h => Nat.succ_ne_zero m (hn.mp h)
      rw [hne, Bool.and_true]
      exact hx.symm

/-- A double that was rounded to decimal places is read as itself. -/
theorem reread_of_settled {places : ℕ} {x : Float} (h : Settled places x) :
    reread places x = unsignZero x := by
  obtain ⟨s, m, q, hx, hy⟩ := h
  have hzero := (eq_zero_iff_place_eq_zero (DoubleValue.isMagnitude_of hx) hy).symm
  rw [reread, hx]
  exact withSign_eq_unsignZero hx hy hzero

/-- The text of a whole number is one without decimal places. -/
theorem wholeText_eq {x : Float} (h : isWhole x = true) :
    ∃ negative n, wholeText x = signText negative ++ Decimal.fixedText n 0 := by
  rw [isWhole] at h
  cases hx : DoubleValue.of x with
  | notANumber => simp [hx] at h
  | infinite s => simp [hx] at h
  | finite s m q => exact ⟨_, numerator m q / denominator q, by rw [wholeText, hx]; rfl⟩

theorem wholeText_plain {x : Float} (h : isWhole x = true) :
    ∀ c ∈ (wholeText x).toList, isPlain c = true := by
  obtain ⟨negative, n, hword⟩ := wholeText_eq h
  rw [hword, String.toList_append, List.forall_mem_append]
  exact ⟨Numeral.signText_plain negative,
    fun c hc => isPlain_of_isUnsigned (fixedText_unsigned n 0 c hc)⟩

/-- A double that is a natural number has at most 309 digits. -/
theorem lt_pow_of_magnitude_eq {x : Float} {s : Bool} {m n : ℕ} {q : ℤ}
    (hx : DoubleValue.of x = .finite s m q) (hn : magnitude m q = n) : n < 10 ^ 309 := by
  have hmost := le_mostMagnitude (DoubleValue.isMagnitude_of hx)
  rw [hn, Nat.cast_le] at hmost
  exact hmost.trans_lt mostMagnitude_lt

/-- A whole number is read as itself. -/
theorem double?_wholeText {x : Float} (h : isWhole x = true) :
    Numeral.double? (wholeText x).toList = some (unsignZero x) := by
  rw [isWhole] at h
  cases hx : DoubleValue.of x with
  | notANumber => simp [hx] at h
  | infinite s => simp [hx] at h
  | finite s m q =>
      simp only [hx, beq_iff_eq] at h
      have hden := DoubleValue.denominator_pos q
      have hnumerator : numerator m q = numerator m q / denominator q * denominator q :=
        (Nat.div_mul_cancel (Nat.dvd_of_mod_eq_zero h)).symm
      have hwhole : magnitude m q = (numerator m q / denominator q : ℕ) := by
        rw [DoubleValue.magnitude_eq, div_eq_iff (Nat.cast_ne_zero.mpr hden.ne')]
        exact_mod_cast hnumerator
      have hnearest := ofGrid_nearest (numerator m q / denominator q) 0
      rw [pow_zero, div_one, ← hwhole] at hnearest
      obtain ⟨m', q', hvalue, hmagnitude⟩ := hnearest.exact (DoubleValue.isMagnitude_of hx)
      obtain ⟨rfl, rfl⟩ := DoubleValue.eq_of_magnitude_eq hvalue hx hmagnitude
      have hzero : numerator m' q' / denominator q' = 0 ↔ m' = 0 := by
        rw [← Nat.cast_eq_zero (R := ℚ), ← hwhole, magnitude, mul_eq_zero, Nat.cast_eq_zero]
        exact or_iff_left (zpow_ne_zero _ two_ne_zero)
      have hword : wholeText x = signText (s && numerator m' q' / denominator q' != 0)
          ++ Decimal.fixedText (numerator m' q' / denominator q') 0 := by
        rw [wholeText, hx, Decimal.fixedText, if_pos rfl]
      have hshort : Numeral.isShort (numerator m' q' / denominator q') 0 = true :=
        Numeral.isShort_of_lt (by decide) (lt_pow_of_magnitude_eq hx hwhole) (by decide)
      rw [hword, String.toList_append, double?_signed (fixedText_unsigned _ _),
        Numeral.unsigned?_fixedText, if_pos hshort, Option.map_some]
      exact congrArg some (withSign_eq_unsignZero hx hvalue hzero)

end Double

end WireErosion
