import WireErosion.Proofs.Program.Rereading

/-!
# What is read can be written and read again

Every text is read as a program whose lines are steady (`Program.exists_parse`), so its text is read
as the same lines again (`Program.parse_format_parse`).

A program cannot always be written: a count of decimal places has a bound (`mostWrittenPlaces`), and
a number with a sign is only written if its text can be read (`Program.exists_format_iff`).  Past
the bound only comments, whole speeds and moves without fields have a text.  A number that is not
finite has none either, although no decimal places would be written of it (`notANumber_unwritten`).
-/

namespace WireErosion

open Text (IsLine)

/-! ## Reading -/

namespace Line

theorem exists_takeWord (line : String) (m : Move Float) (word : List Char) :
    ∃ m', (takeWord line m word).outcome = .ok m' := by
  unfold takeWord
  split
  next => exact ⟨m, rfl⟩
  next =>
    split
    next => exact ⟨m, Report.outcome_bind (Report.outcome_tell _)⟩
    next field _ =>
      split
      next v _ => exact ⟨field.set v m, rfl⟩
      next => exact ⟨m, Report.outcome_bind (Report.outcome_tell _)⟩

theorem exists_takeWords (line : String) : ∀ (words : List (List Char)) (m : Move Float),
    ∃ m', (takeWords line m words).outcome = .ok m'
  | [], m => ⟨m, rfl⟩
  | word :: words, m => by
      obtain ⟨m', hm'⟩ := exists_takeWord line m word
      obtain ⟨m'', hm''⟩ := exists_takeWords line words m'
      exact ⟨m'', (Report.outcome_bind hm').trans hm''⟩

/-- A line is read as a comment with its text, or as a move. -/
theorem decode_of_isLine {text : String} (h : IsLine text.toList) :
    decode text = .of (.comment text) ∨ ∃ m, (decode text).outcome = .ok (.move m) := by
  rw [decode, trimEnd_of_isLine h, String.ofList_toList]
  split
  next => exact .inl rfl
  next opcode words _ =>
    split
    next => exact .inl rfl
    next motion _ =>
      obtain ⟨m, hm⟩ := exists_takeWords text words { motion }
      exact .inr ⟨m, Report.outcome_bind hm⟩

end Line

namespace Program

theorem exists_ofTexts : ∀ {ts : List (List Char)}, (∀ t ∈ ts, IsLine t) →
    ∃ p, (ofTexts ts).outcome = .ok p ∧ ∀ l ∈ p, l.Steady
  | [], _ => ⟨[], rfl, by simp⟩
  | t :: ts, h => by
      obtain ⟨ht, hts⟩ := List.forall_mem_cons.mp h
      obtain ⟨p, hp, hsteady⟩ := exists_ofTexts hts
      have hline : IsLine (String.ofList t).toList := String.toList_ofList.symm ▸ ht
      obtain ⟨l, hl, hl'⟩ : ∃ l, (Line.decode (String.ofList t)).outcome = .ok l ∧ l.Steady := by
        rcases Line.decode_of_isLine hline with hcomment | ⟨m, hm⟩
        · exact ⟨_, congrArg Report.outcome hcomment, hline, hcomment⟩
        · exact ⟨_, hm, trivial⟩
      refine ⟨l :: p, ?_, List.forall_mem_cons.mpr ⟨hl', hsteady⟩⟩
      rw [ofTexts, Report.outcome_bind hl, Report.outcome_bind hp, Report.outcome_of]

/-- Every text is read as a program, and each of its lines would be read as it is again. -/
theorem exists_parse (text : String) :
    ∃ p, (parse text).outcome = .ok p ∧ ∀ l ∈ p, l.Steady :=
  exists_ofTexts fun _ => Text.isLine_of_mem_lines

end Program

/-! ## Writing -/

section

variable {places : Int}

theorem exists_fieldWord {letter : String} {write : Float → Except Fault String}
    {v : Option Float} :
    (∃ ws, fieldWord letter write v = .ok ws) ↔ ∀ x ∈ v, ∃ t, write x = .ok t := by
  cases v with
  | none => simp [fieldWord]
  | some x => simp [fieldWord, Fault.map_eq_ok]

theorem exists_speedWord {x : Float} (h : 0 ≤ places) :
    (∃ t, speedWord places x = .ok t) ↔
      (Double.isWhole x = false → Double.Writable places.toNat x) := by
  rw [speedWord]
  split
  next hwhole => simp [hwhole]
  next hwhole => simp [exists_numberWord h, hwhole]

theorem Line.exists_encode {l : Line Float} (h : 0 ≤ places) :
    (∃ t, l.encode places = .ok t) ↔ ∀ v ∈ l.decimals, Double.Writable places.toNat v := by
  cases l with
  | comment text => simp [encode, decimals]
  | move m =>
      have hwords : (∃ t, encode places (.move m) = .ok t) ↔
          (((∃ x, fieldWord "X" (numberWord places) m.x = .ok x) ∧
            ∃ y, fieldWord "Y" (numberWord places) m.y = .ok y) ∧
            ∃ z, fieldWord "Z" (numberWord places) m.z = .ok z) ∧
          (∃ f, fieldWord "F" (numberWord places) m.f = .ok f) ∧
          ∃ s, fieldWord "S" (speedWord places) m.s = .ok s := by
        simp only [encode_move_eq_ok]
        constructor
        · rintro ⟨t, x, y, z, f, s, hx, hy, hz, hf, hs, -⟩
          exact ⟨⟨⟨⟨x, hx⟩, y, hy⟩, z, hz⟩, ⟨f, hf⟩, s, hs⟩
        · rintro ⟨⟨⟨⟨x, hx⟩, y, hy⟩, z, hz⟩, ⟨f, hf⟩, s, hs⟩
          exact ⟨_, x, y, z, f, s, hx, hy, hz, hf, hs, rfl⟩
      rw [hwords, forall_mem_decimals]
      simp only [exists_fieldWord, exists_numberWord h, exists_speedWord h]

/-- A program can be written if each of its numbers with decimal places can be. -/
theorem Program.exists_format_iff {p : Program Float} (h : 0 ≤ places) :
    (∃ written, p.format places = .ok written) ↔
      ∀ l ∈ p, ∀ v ∈ l.decimals, Double.Writable places.toNat v := by
  have hlines : (∃ written, p.format places = .ok written) ↔
      ∀ l ∈ p, ∃ t, Line.encode places l = .ok t := by
    rw [← Fault.exists_mapM_iff]
    simp only [format, encodeLines, Fault.map_eq_ok]
    constructor
    · rintro ⟨_, ts, hts, -⟩
      exact ⟨ts, hts⟩
    · rintro ⟨ts, hts⟩
      exact ⟨_, ts, hts, rfl⟩
  rw [hlines]
  simp only [Line.exists_encode h]

end

/-! ## Both -/

/-- Every text is read as a program.  The program can be written with some decimal places if these
are not too many for a number in it, and its numbers with a sign are legible.  Then its text is
read line by line, as the same comments and as moves with the same motions.  Each field is the
number that its text stands for, and a speed that is a whole number is the same.  The moves have
the same fields, and there are no notices, exactly if all numbers with decimal places are legible.
They are if the decimal places are 309 less than the digits that are read. -/
theorem Program.parse_format_parse (text : String) (places : ℕ) :
    ∃ p, (parse text).outcome = .ok p ∧
      ((∃ written, p.format places = .ok written) ↔
        ∀ l ∈ p, ∀ v ∈ l.decimals, Double.Writable places v) ∧
      (∀ written, p.format places = .ok written →
        ∃ q, (parse written).outcome = .ok q ∧ List.Forall₂ (Line.ReadAs places) p q ∧
          (q.map Line.shape = p.map Line.shape ↔
            ∀ l ∈ p, ∀ v ∈ l.decimals, Double.isLegible places v = true) ∧
          ((parse written).notices = [] ↔
            ∀ l ∈ p, ∀ v ∈ l.decimals, Double.isLegible places v = true)) ∧
      (places + 309 ≤ Numeral.mostDoubleDigits → ∀ v, Double.isLegible places v = true) := by
  obtain ⟨p, hp, hsteady⟩ := exists_parse text
  refine ⟨p, hp, exists_format_iff (Int.natCast_nonneg places), fun written h => ?_,
    Double.isLegible_of_le⟩
  obtain ⟨q, hq, hsilent, hread⟩ := parse_format hsteady h
  exact ⟨q, hq, hread, shape_eq_iff hread, hsilent.trans (shape_eq_iff hread)⟩

/-- What is no number is written without decimal places, but not past the largest count of them. -/
theorem notANumber_unwritten :
    ∃ p, (Program.parse "G1 Xnan").outcome = .ok p ∧
      p.format 2147483648 = .error .badPlaces :=
  ⟨_, rfl, rfl⟩

end WireErosion
