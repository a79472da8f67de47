import WireErosion.Json.Reader
import WireErosion.Json.Writer
import WireErosion.Proofs.Number.Shortest

/-!
# Numbers and texts of JSON are read as they are written

A number is read up to a character that does not go on with it (`Stops`).  An integer is read as
itself, unless it has too many digits (`value_integer`).  A double is read as itself too, an
infinity and what is not a number included (`value_number`).

Of a text every character is read as itself (`textFrom_charText`), one beyond the first plane from
the two halves of its surrogate pair.
-/

namespace WireErosion.Json

open Decimal (Written AreDigits IsLeading)

/-! ## Numbers -/

/-- What follows a number does not go on with it. -/
def Stops (rest : List Char) : Prop :=
  ∀ c ∈ rest.head?, c.isDigit = false ∧ c ≠ '.' ∧ c ≠ 'e' ∧ c ≠ 'E'

theorem span_digits {ds rest : List Char} (hds : AreDigits ds)
    (hrest : ∀ c ∈ rest.head?, c.isDigit = false) :
    (ds ++ rest).takeWhile isDigit = ds ∧ (ds ++ rest).dropWhile isDigit = rest := by
  have hdigits : ∀ c ∈ ds, isDigit c = true := hds
  rw [List.takeWhile_append_of_pos hdigits, List.dropWhile_append_of_pos hdigits]
  cases rest with
  | nil => simp
  | cons c rest =>
      have hc : isDigit c = false := hrest c rfl
      simp [hc]

theorem wholePart?_eq {whole rest : List Char} (hwhole : whole = ['0'] ∨ IsLeading whole)
    (hrest : ∀ c ∈ rest.head?, c.isDigit = false) :
    wholePart? (whole ++ rest) = some (whole, rest) := by
  rcases hwhole with rfl | ⟨hdigits, c, cs, rfl, hc⟩
  · rfl
  · obtain ⟨htake, hdrop⟩ := span_digits hdigits hrest
    rw [wholePart?, htake, hdrop]
    · rfl
    · rintro ds hds
      exact hc (List.cons.inj hds).1

theorem fractionPart_eq {fraction rest : List Char} (hfraction : AreDigits fraction)
    (hrest : ∀ c ∈ rest.head?, c.isDigit = false ∧ c ≠ '.') :
    fractionPart (Written.pointChars fraction ++ rest) = (fraction, rest) := by
  cases fraction with
  | nil =>
      rw [Written.pointChars, List.nil_append, fractionPart]
      rintro ds rfl
      exact (hrest '.' rfl).2 rfl
  | cons d ds =>
      obtain ⟨htake, hdrop⟩ := span_digits hfraction fun c hc => (hrest c hc).1
      rw [Written.pointChars_eq (List.cons_ne_nil d ds), List.cons_append, fractionPart, htake,
        hdrop]
      rfl

/-- A power of ten is a letter, a sign and digits. -/
theorem exponentText_toList (e : ℤ) : (Decimal.exponentText e).toList
    = 'e' :: (if e < 0 then '-' else '+') :: Decimal.paddedDigits 2 e.natAbs := by
  rw [Decimal.exponentText, String.toList_append, String.toList_ofList]
  split <;> rfl

theorem exponentPart_eq (exponent : Option ℤ) {rest : List Char} (hrest : Stops rest) :
    exponentPart (Written.exponentChars exponent ++ rest) = (exponent, rest) := by
  cases exponent with
  | none =>
      rw [Written.exponentChars, List.nil_append]
      cases rest with
      | nil => rfl
      | cons c rest =>
          obtain ⟨-, -, hlower, hupper⟩ := hrest c rfl
          exact if_neg (not_or.mpr ⟨hlower, hupper⟩)
  | some e =>
      have hdigits : AreDigits (Decimal.paddedDigits 2 e.natAbs) := fun c hc =>
        Numeral.isDigit_of_mem_paddedDigits hc
      have hnumber := Numeral.ofDigits_paddedDigits 2 e.natAbs
      have hne : Decimal.paddedDigits 2 e.natAbs ≠ [] := by
        rw [Decimal.paddedDigits, Ne, List.append_eq_nil_iff]
        exact fun h => Nat.toDigits_ne_nil h.2
      obtain ⟨htake, hdrop⟩ := span_digits hdigits fun c hc => (hrest c hc).1
      rw [Written.exponentChars, exponentText_toList]
      generalize Decimal.paddedDigits 2 e.natAbs = ds at hnumber hne htake hdrop
      change Text.ofDigits (digitValues ds) = e.natAbs at hnumber
      rw [List.cons_append, List.cons_append]
      split
      next hneg =>
        change (if (ds ++ rest).takeWhile isDigit |>.isEmpty then _ else _) = _
        rw [htake, hdrop, hnumber, if_neg (by simpa using hne)]
        simp only [if_true, Int.natCast_natAbs, abs_of_neg hneg, neg_neg]
      next hnonneg =>
        change (if (ds ++ rest).takeWhile isDigit |>.isEmpty then _ else _) = _
        rw [htake, hdrop, hnumber, if_neg (by simpa using hne)]
        simp [abs_of_nonneg (not_lt.mp hnonneg)]

/-- A decimal numeral is read as the number that its parts stand for, or as an integer. -/
theorem number_written {t : Written} (ht : t.IsNumeral) (negative : Bool) {rest : List Char}
    (hrest : Stops rest) (hpart : t.fraction ≠ [] ∨ t.exponent ≠ none)
    (hread : t.parts.isReadable = true) :
    number negative (t.chars ++ rest)
      = .ok (.number (Double.withSign negative t.parts.toFloat), rest) := by
  have hexponent : ∀ c ∈ (Written.exponentChars t.exponent ++ rest).head?,
      c.isDigit = false ∧ c ≠ '.' := by
    cases t.exponent with
    | none => exact fun c hc => ⟨(hrest c hc).1, (hrest c hc).2.1⟩
    | some e =>
        rw [Written.exponentChars, exponentText_toList]
        rintro c ⟨⟩
        decide
  have hfraction : ∀ c ∈ (Written.pointChars t.fraction
      ++ (Written.exponentChars t.exponent ++ rest)).head?, c.isDigit = false := by
    cases t.fraction with
    | nil => exact fun c hc => (hexponent c hc).1
    | cons d ds =>
        rintro c ⟨⟩
        rfl
  rw [Written.chars, List.append_assoc, List.append_assoc, number,
    wholePart?_eq ht.whole hfraction]
  dsimp only
  rw [fractionPart_eq ht.fraction hexponent]
  dsimp only
  rw [exponentPart_eq t.exponent hrest]
  have hnumber : ¬ (t.fraction.isEmpty && t.exponent.isNone) = true := by
    simpa [← not_and_or] using hpart
  have hfloat : Numeral.Parts.toFloat?
      ⟨digitValues (t.whole ++ t.fraction), t.fraction.length, t.exponent.getD 0⟩
        = some t.parts.toFloat := if_pos hread
  dsimp only
  rw [if_neg hnumber, hfloat]

/-- Digits that do not start with a zero are read as an integer, if they are not too many. -/
theorem number_digits {whole : List Char} (hwhole : whole = ['0'] ∨ IsLeading whole)
    (negative : Bool) {rest : List Char} (hrest : Stops rest) :
    number negative (whole ++ rest)
      = if Numeral.mostDigits < whole.length then .error (.numeralTooLong whole.length)
        else .ok (.integer (if negative then -Decimal.natOf whole else Decimal.natOf whole),
          rest) := by
  have hpoint : ∀ c ∈ rest.head?, c.isDigit = false ∧ c ≠ '.' := fun c hc =>
    ⟨(hrest c hc).1, (hrest c hc).2.1⟩
  have hfraction := fractionPart_eq (List.forall_mem_nil _ : AreDigits []) hpoint
  have hexponent := exponentPart_eq none hrest
  rw [Written.pointChars, List.nil_append] at hfraction
  rw [Written.exponentChars, List.nil_append] at hexponent
  rw [number, wholePart?_eq hwhole fun c hc => (hrest c hc).1]
  dsimp only
  rw [hfraction]
  dsimp only
  rw [hexponent]
  change (if Numeral.mostDigits < whole.length then _ else _) = _
  rw [digitValues, Text.ofDigits_map]

theorem isLeading_or_zero (n : ℕ) :
    Decimal.digits n = ['0'] ∨ IsLeading (Decimal.digits n) := by
  rcases Nat.eq_zero_or_pos n with rfl | hn
  · exact .inl rfl
  · exact .inr (Decimal.isLeading_digits hn)

theorem exists_digit {whole : List Char} (h : whole = ['0'] ∨ IsLeading whole) :
    ∃ c cs, whole = c :: cs ∧ c.isDigit = true := by
  rcases h with rfl | ⟨hdigits, c, cs, rfl, -⟩
  · exact ⟨'0', [], rfl, rfl⟩
  · exact ⟨c, cs, rfl, hdigits c (List.mem_cons_self ..)⟩

theorem toList_toString (n : ℤ) : (toString n).toList
    = (Double.signText (decide (n < 0))).toList ++ Decimal.digits n.natAbs := by
  cases n with
  | ofNat n =>
      have hsign : decide (Int.ofNat n < 0) = false := by simp
      rw [hsign]
      exact String.toList_ofList
  | negSucc n =>
      have hsign : decide (Int.negSucc n < 0) = true := by simp [Int.negSucc_lt_zero]
      rw [hsign]
      change ("-" ++ String.ofList (Decimal.digits (n + 1))).toList = _
      rw [String.toList_append, String.toList_ofList]
      simp [Double.signText, Int.natAbs_negSucc]

/-! ## Atoms -/

theorem afterWord?_of_ne {w c : Char} (h : w ≠ c) (ws cs : List Char) :
    afterWord? (w :: ws) (c :: cs) = none := if_neg h

theorem ne_of_isDigit {c d : Char} (hc : c.isDigit = true) (hd : d.isDigit = false) : c ≠ d := by
  rintro rfl
  rw [hc] at hd
  cases hd

/-- What is no text, list or object is read as an atom. -/
theorem value_eq_atom (fuel : ℕ) {c : Char} (hc : c ≠ '"' ∧ c ≠ '[' ∧ c ≠ '\x7b')
    (cs : List Char) : value (fuel + 1) (c :: cs) = atom (c :: cs) := by
  obtain ⟨htext, hlist, hobject⟩ := hc
  rw [value]
  · exact fun _ h => htext (List.cons.inj h).1
  · exact fun _ h => hlist (List.cons.inj h).1
  · exact fun _ h => hobject (List.cons.inj h).1

/-- A sign and digits are read as a number. -/
theorem value_signed (fuel : ℕ) (negative : Bool) {c : Char} (hc : c.isDigit = true)
    (cs : List Char) :
    value (fuel + 1) ((Double.signText negative).toList ++ c :: cs) =
      number negative (c :: cs) := by
  have hne : ∀ {d : Char}, d.isDigit = false → c ≠ d := ne_of_isDigit hc
  have hword : ∀ {w : Char} (ws : List Char), w.isDigit = false →
      afterWord? (w :: ws) (c :: cs) = none := fun _ hw => afterWord?_of_ne (hne hw).symm _ _
  cases negative with
  | true =>
      have hinfinity : afterWord? "Infinity".toList (c :: cs) = none := hword _ rfl
      change value (fuel + 1) ('-' :: c :: cs) = _
      rw [value_eq_atom fuel (by decide), atom, hinfinity]
  | false =>
      have hnull : afterWord? "null".toList (c :: cs) = none := hword _ rfl
      have htrue : afterWord? "true".toList (c :: cs) = none := hword _ rfl
      have hfalse : afterWord? "false".toList (c :: cs) = none := hword _ rfl
      have hnan : afterWord? "NaN".toList (c :: cs) = none := hword _ rfl
      have hinfinity : afterWord? "Infinity".toList (c :: cs) = none := hword _ rfl
      change value (fuel + 1) (c :: cs) = _
      rw [value_eq_atom fuel ⟨hne rfl, hne rfl, hne rfl⟩, atom]
      · rw [hnull, htrue, hfalse, hnan, hinfinity]
      · exact fun h => absurd h (List.cons_ne_nil c cs)
      · exact fun _ h => hne rfl (List.cons.inj h).1

/-- An integer is read as itself, if it has not too many digits. -/
theorem value_integer (fuel : ℕ) (n : ℤ) {rest : List Char} (hrest : Stops rest) :
    value (fuel + 1) ((toString n).toList ++ rest)
      = if Numeral.mostDigits < (Decimal.digits n.natAbs).length then
          .error (.numeralTooLong (Decimal.digits n.natAbs).length)
        else .ok (.integer n, rest) := by
  have hnumber : Decimal.natOf (Decimal.digits n.natAbs) = n.natAbs :=
    Nat.ofDigitChars_ten_toDigits
  have hread := number_digits (isLeading_or_zero n.natAbs) (decide (n < 0)) hrest
  rw [hnumber] at hread
  have hsign : (if decide (n < 0) = true then -(n.natAbs : ℤ) else n.natAbs) = n := by
    split
    next hneg =>
      have hneg := of_decide_eq_true hneg
      omega
    next hnonneg =>
      have hnonneg := of_decide_eq_false (Bool.not_eq_true _ ▸ hnonneg)
      omega
  rw [hsign] at hread
  rw [toList_toString, List.append_assoc]
  obtain ⟨c, cs, hcs, hc⟩ := exists_digit (isLeading_or_zero n.natAbs)
  rw [← hread, hcs, List.cons_append, value_signed fuel _ hc]

/-- A double is read as itself. -/
theorem value_number (fuel : ℕ) (x : Float) {rest : List Char} (hrest : Stops rest) :
    value (fuel + 1) ((numberLiteral x).toList ++ rest) = .ok (.number x, rest) := by
  rw [numberLiteral]
  split
  next hx =>
    obtain rfl : x = 0 / 0 := DoubleValue.of_injective (hx.trans Double.of_zero_div_zero.symm)
    rfl
  next s hx =>
    cases s with
    | true =>
        obtain rfl : x = -1 / 0 := DoubleValue.of_injective hx
        rfl
    | false =>
        obtain rfl : x = 1 / 0 := DoubleValue.of_injective (hx.trans Double.of_one_div_zero.symm)
        rfl
  next s m q hx =>
    obtain ⟨t, htext, ht, hpart, hreadable, hread⟩ := Double.exists_shortest hx
    have hnumber := number_written ht s hrest hpart hreadable
    rw [hread] at hnumber
    obtain ⟨c, cs, hcs, hc⟩ := exists_digit ht.whole
    rw [htext, List.append_assoc, ← hnumber, Written.chars, hcs]
    exact value_signed fuel s hc _

/-! ## Texts -/

/-- The last hexadecimal digit of a number with zeros in front. -/
theorem replicate_append_toDigits (k n : ℕ) :
    List.replicate (k + 2 - (Nat.toDigits 16 n).length) '0' ++ Nat.toDigits 16 n
      = List.replicate (k + 1 - (Nat.toDigits 16 (n / 16)).length) '0' ++ Nat.toDigits 16 (n / 16)
        ++ [(n % 16).digitChar] := by
  rcases lt_or_ge n 16 with hlt | hge
  · rw [Nat.toDigits_of_lt_base hlt, Nat.div_eq_of_lt hlt, Nat.mod_eq_of_lt hlt, Nat.toDigits_zero,
      List.length_singleton, List.length_singleton, ← List.replicate_succ']
    rfl
  · have hlength : k + 2 - ((Nat.toDigits 16 (n / 16)).length + 1)
        = k + 1 - (Nat.toDigits 16 (n / 16)).length := by omega
    rw [Nat.toDigits_of_base_le (by norm_num) hge, List.length_append, List.length_singleton,
      hlength, List.append_assoc]

theorem fourHexDigits_eq {n : ℕ} (hn : n < 65536) :
    fourHexDigits n = [(n / 4096).digitChar, (n / 256 % 16).digitChar, (n / 16 % 16).digitChar,
      (n % 16).digitChar] := by
  have hfirst : Nat.toDigits 16 (n / 4096) = [(n / 4096).digitChar] :=
    Nat.toDigits_of_lt_base (by omega)
  rw [fourHexDigits, replicate_append_toDigits 2, replicate_append_toDigits 1,
    replicate_append_toDigits 0, Nat.div_div_eq_div_mul, Nat.div_div_eq_div_mul,
    Nat.div_div_eq_div_mul, hfirst]
  rfl

theorem hexValue?_digitChar : ∀ {k : ℕ}, k < 16 → hexValue? k.digitChar = some k := by
  decide

theorem hexNumber?_eq {n : ℕ} (hn : n < 65536) :
    hexNumber? (n / 4096).digitChar (n / 256 % 16).digitChar (n / 16 % 16).digitChar
      (n % 16).digitChar = some n := by
  rw [hexNumber?, hexValue?_digitChar (by omega), hexValue?_digitChar (by omega),
    hexValue?_digitChar (by omega), hexValue?_digitChar (by omega)]
  simp only [Option.pure_def, Option.bind_eq_bind, Option.bind_some, Option.some.injEq]
  omega

theorem isHighHalf_iff {n : ℕ} : isHighHalf n = true ↔ 0xD800 ≤ n ∧ n ≤ 0xDBFF := by
  rw [isHighHalf, Bool.and_eq_true, decide_eq_true_eq, decide_eq_true_eq]

theorem isLowHalf_iff {n : ℕ} : isLowHalf n = true ↔ 0xDC00 ≤ n ∧ n ≤ 0xDFFF := by
  rw [isLowHalf, Bool.and_eq_true, decide_eq_true_eq, decide_eq_true_eq]

/-- A text with one more character. -/
def consChar (c : Char) (read : List Char × List Char) : List Char × List Char :=
  (c :: read.1, read.2)

section

variable {n : ℕ} (cs : List Char)

/-- A code unit is read as its character. -/
theorem textFrom_unit (hn : n < 0x10000) (hvalid : n.isValidChar) :
    textFrom none (unitEscape n ++ cs) = (textFrom none cs).map (consChar (Char.ofNat n)) := by
  have hhigh : ¬ isHighHalf n = true := by
    rw [isHighHalf_iff]
    rcases hvalid with hvalid | hvalid <;> omega
  have hlow : ¬ isLowHalf n = true := by
    rw [isLowHalf_iff]
    rcases hvalid with hvalid | hvalid <;> omega
  have hchar : unitChar n = Char.ofNat n := by
    rw [unitChar, Bool.eq_false_of_not_eq_true hhigh, Bool.eq_false_of_not_eq_true hlow]
    rfl
  rw [unitEscape, fourHexDigits_eq hn]
  simp only [List.cons_append, List.nil_append]
  rw [textFrom, hexNumber?_eq hn]
  dsimp only
  rw [if_neg hhigh, hchar]
  rfl

/-- The first half of a pair waits for the second one. -/
theorem textFrom_high (hn : n < 0x10000) (hhigh : isHighHalf n = true) :
    textFrom none (unitEscape n ++ cs) = textFrom (some n) cs := by
  rw [unitEscape, fourHexDigits_eq hn]
  simp only [List.cons_append, List.nil_append]
  rw [textFrom, hexNumber?_eq hn]
  exact if_pos hhigh

theorem textFrom_low (high : ℕ) (hn : n < 0x10000) (hlow : isLowHalf n = true) :
    textFrom (some high) (unitEscape n ++ cs) = (textFrom none cs).map
      (consChar (Char.ofNat (0x10000 + 0x400 * (high - 0xD800) + (n - 0xDC00)))) := by
  rw [unitEscape, fourHexDigits_eq hn]
  simp only [List.cons_append, List.nil_append]
  rw [textFrom, hexNumber?_eq hn]
  exact if_pos hlow

/-- A pair is read as its character. -/
theorem textFrom_pair (hlow : 0x10000 ≤ n) (hhigh : n < 0x110000) :
    textFrom none (unitEscape (0xD800 + (n - 0x10000) / 0x400)
        ++ unitEscape (0xDC00 + (n - 0x10000) % 0x400) ++ cs)
      = (textFrom none cs).map (consChar (Char.ofNat n)) := by
  have hnumber : 0x10000 + 0x400 * (0xD800 + (n - 0x10000) / 0x400 - 0xD800)
      + (0xDC00 + (n - 0x10000) % 0x400 - 0xDC00) = n := by omega
  rw [List.append_assoc, textFrom_high _ (by omega) (isHighHalf_iff.mpr (by omega)),
    textFrom_low _ _ (by omega) (isLowHalf_iff.mpr (by omega)), hnumber]

end

/-- A character is written with an escape of one letter, as it is, or with its code units. -/
theorem charText_cases (c : Char) :
    (∃ e : Char, (32 ≤ e.toNat ∧ e.toNat ≤ 126) ∧ escaped? e = some c ∧ charText c = ['\\', e]) ∨
    ((32 ≤ c.toNat ∧ c.toNat ≤ 126) ∧ c ≠ '"' ∧ c ≠ '\\' ∧ charText c = [c]) ∨
    (c.toNat < 0x10000 ∧ charText c = unitEscape c.toNat) ∨
    (0x10000 ≤ c.toNat ∧ charText c = unitEscape (0xD800 + (c.toNat - 0x10000) / 0x400)
      ++ unitEscape (0xDC00 + (c.toNat - 0x10000) % 0x400)) := by
  by_cases hletter : c ∈ ['"', '\\', '\n', '\r', '\t', '\x0c', '\x08']
  · simp only [List.mem_cons, List.not_mem_nil, or_false] at hletter
    left
    rcases hletter with rfl | rfl | rfl | rfl | rfl | rfl | rfl <;>
      exact ⟨_, by decide, rfl, rfl⟩
  · right
    simp only [List.mem_cons, List.not_mem_nil, or_false, not_or] at hletter
    obtain ⟨hquote, hbackslash, hline, hreturn, htab, hfeed, hback⟩ := hletter
    rw [charText, if_neg hquote, if_neg hbackslash, if_neg hline, if_neg hreturn, if_neg htab,
      if_neg hfeed, if_neg hback]
    dsimp only
    split
    next hprinted => exact .inl ⟨hprinted, hquote, hbackslash, rfl⟩
    next =>
      split
      next hplane => exact .inr (.inl ⟨hplane, rfl⟩)
      next hplane => exact .inr (.inr ⟨not_lt.mp hplane, rfl⟩)

theorem toNat_lt (c : Char) : c.toNat < 0x110000 := by
  have hvalid : c.toNat.isValidChar := c.valid
  rcases hvalid with hvalid | hvalid <;> omega

/-- A character is read as itself. -/
theorem textFrom_charText (c : Char) (cs : List Char) :
    textFrom none (charText c ++ cs) = (textFrom none cs).map (consChar c) := by
  obtain ⟨e, -, hescaped, htext⟩ | ⟨hprinted, hquote, hbackslash, htext⟩ | ⟨hplane, htext⟩ |
    ⟨hplane, htext⟩ := charText_cases c
  · have hunit : e ≠ 'u' := by
      rintro rfl
      cases hescaped
    rw [htext, List.cons_append, List.singleton_append, textFrom, hescaped]
    · rfl
    · exact fun _ _ _ _ _ h => absurd h hunit
  · rw [htext, List.singleton_append, textFrom]
    · rw [if_neg (not_or.mpr ⟨by omega, hbackslash⟩)]
      rfl
    · exact hquote
    · exact fun _ _ _ _ _ h => absurd h hbackslash
    · exact fun _ _ h => absurd h hbackslash
  · rw [htext, textFrom_unit cs hplane c.valid, Char.ofNat_toNat]
  · rw [htext, textFrom_pair cs hplane (toNat_lt c), Char.ofNat_toNat]

/-- The characters of a text are read up to the closing quote. -/
theorem textFrom_flatMap (rest : List Char) : ∀ cs : List Char,
    textFrom none (cs.flatMap charText ++ '"' :: rest) = some (cs, rest)
  | [] => rfl
  | c :: cs => by
      rw [List.flatMap_cons, List.append_assoc, textFrom_charText, textFrom_flatMap rest cs]
      rfl

theorem toList_textLiteral (s : String) :
    (textLiteral s).toList = '"' :: s.toList.flatMap charText ++ ['"'] := String.toList_ofList

/-- A text is read as itself. -/
theorem text_textLiteral (s : String) (rest : List Char) :
    text ((textLiteral s).toList ++ rest) = .ok (s, rest) := by
  rw [toList_textLiteral, List.append_assoc, List.cons_append, text, List.singleton_append,
    textFrom_flatMap]
  dsimp only
  rw [String.ofList_toList]

theorem value_textLiteral (fuel : ℕ) (s : String) (rest : List Char) :
    value (fuel + 1) ((textLiteral s).toList ++ rest) = .ok (.string s, rest) := by
  have htext := text_textLiteral s rest
  rw [toList_textLiteral, List.cons_append, List.cons_append] at htext ⊢
  rw [value, htext]
  rfl

end WireErosion.Json
