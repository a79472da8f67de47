import WireErosion.Files.Store
import WireErosion.Program.Encode

/-!
# Texts that fall apart again

Words with a blank between them are the fields of their text (`Text.fields_intercalate`), and
lines with a line end after each are its lines (`Text.lines_flatMap`).  A piece can be told from
what stands around it by its characters: no character of a word is blank, and none of a line is a
break.

A plain character is one of ASCII that is neither.  A text of ASCII is read from its bytes as it was
written, but for its breaks (`readAscii_toUTF8`), and that does not change its lines
(`Text.lines_unifyBreaks`).
-/

namespace WireErosion

namespace Text

/-! ## Characters -/

/-- Whether a character is one of ASCII that shows and is neither a blank nor a low line. -/
def isPlain (c : Char) : Bool := 33 ≤ c.toNat && c.toNat ≤ 126 && c != '_'

theorem isPlain_iff {c : Char} :
    isPlain c = true ↔ (33 ≤ c.toNat ∧ c.toNat ≤ 126) ∧ c ≠ '_' := by
  simp [isPlain]

theorem isBlank_of_isPlain {c : Char} (h : isPlain c = true) : isBlank c = false := by
  obtain ⟨⟨hlow, hhigh⟩, -⟩ := isPlain_iff.mp h
  have hwide : ∀ n ∈ wideBlanks, 126 < n := by decide
  have hnot : c.toNat ∉ wideBlanks := fun hc => absurd (hwide _ hc) (by omega)
  simp only [isBlank, Bool.or_eq_false_iff, Bool.and_eq_false_iff, decide_eq_false_iff_not,
    List.contains_eq_mem]
  exact ⟨⟨.inr (by omega), .inr (by omega)⟩, hnot⟩

theorem isBlank_of_isBreak {c : Char} (h : isBreak c = true) : isBlank c = true := by
  simp only [isBreak, Bool.or_eq_true, Bool.and_eq_true, decide_eq_true_eq, beq_iff_eq] at h
  simp only [isBlank, wideBlanks, Bool.or_eq_true, Bool.and_eq_true, decide_eq_true_eq,
    List.contains_eq_mem, List.mem_cons]
  omega

theorem isBreak_of_isPlain {c : Char} (h : isPlain c = true) : isBreak c = false := by
  cases hbreak : isBreak c with
  | false => rfl
  | true => exact (isBlank_of_isBreak hbreak).symm.trans (isBlank_of_isPlain h)

/-! ## Ends -/

theorem dropWhile_eq {p : Char → Bool} {cs : List Char} (h : ∀ c ∈ cs, p c = false) :
    cs.dropWhile p = cs := by
  cases cs with
  | nil => rfl
  | cons c cs => rw [List.dropWhile_cons_of_neg (by simp [h c])]

/-- Nothing is cut off the end of a text without the characters of a class. -/
theorem trimEnd_eq {p : Char → Bool} {cs : List Char} (h : ∀ c ∈ cs, p c = false) :
    trimEnd p cs = cs := by
  rw [trimEnd, dropWhile_eq fun c hc => h c (List.mem_reverse.mp hc), List.reverse_reverse]

/-- Nothing is cut off a text without the characters of a class. -/
theorem trim_eq {p : Char → Bool} {cs : List Char} (h : ∀ c ∈ cs, p c = false) :
    trim p cs = cs := by
  rw [trim, dropWhile_eq h]
  exact trimEnd_eq h

/-! ## Words -/

/-- A word is not empty and has no blank in it. -/
def IsWord (w : List Char) : Prop := w ≠ [] ∧ ∀ c ∈ w, isBlank c = false

theorem fieldsFrom_append (rest : List Char) : ∀ {cs : List Char} (word : List Char),
    (∀ c ∈ cs, isBlank c = false) →
      fieldsFrom word (cs ++ rest) = fieldsFrom (cs.reverse ++ word) rest
  | [], _, _ => rfl
  | c :: cs, word, h => by
      obtain ⟨hc, hcs⟩ := List.forall_mem_cons.mp h
      rw [List.cons_append, fieldsFrom, hc, fieldsFrom_append rest (c :: word) hcs,
        List.reverse_cons, List.append_assoc]
      rfl

/-- Words with a space between them are the fields of their text. -/
theorem fields_intercalate : ∀ {ws : List (List Char)}, (∀ w ∈ ws, IsWord w) →
    fields ([' '].intercalate ws) = ws
  | [], _ => rfl
  | [w], h => by
      obtain ⟨hne, hw⟩ := h w (List.mem_singleton_self w)
      have happend := fieldsFrom_append [] [] hw
      rw [List.append_nil, List.append_nil] at happend
      rw [List.intercalate_singleton, fields, happend, fieldsFrom]
      simp [hne]
  | w :: v :: ws, h => by
      obtain ⟨⟨hne, hw⟩, hws⟩ := List.forall_mem_cons.mp h
      rw [List.intercalate_cons_cons, List.append_assoc, fields, fieldsFrom_append _ _ hw,
        List.singleton_append, fieldsFrom]
      have hrest : fieldsFrom [] ([' '].intercalate (v :: ws)) = v :: ws := fields_intercalate hws
      have hspace : isBlank ' ' = true := by decide
      simp [hspace, hne, hrest]

/-- A text that does not start with a blank has its first character in its first field. -/
theorem exists_fieldsFrom {word : List Char} (hne : word ≠ []) (cs : List Char) :
    ∃ w ws, fieldsFrom word cs = (word.reverse ++ w) :: ws := by
  induction cs generalizing word with
  | nil => exact ⟨[], [], by simp [fieldsFrom, hne]⟩
  | cons c cs ih =>
      cases hc : isBlank c with
      | true => exact ⟨[], fieldsFrom [] cs, by simp [fieldsFrom, hc, hne]⟩
      | false =>
          obtain ⟨w, ws, hfields⟩ := ih (List.cons_ne_nil c word)
          exact ⟨c :: w, ws, by simp [fieldsFrom, hc, hfields]⟩

/-- A character of some words with a text between them is of that text or of a word. -/
theorem mem_intercalate {c : Char} {between : List Char} : ∀ {ws : List (List Char)},
    c ∈ between.intercalate ws → c ∈ between ∨ ∃ w ∈ ws, c ∈ w
  | [], h => nomatch h
  | [w], h => by
      rw [List.intercalate_singleton] at h
      exact .inr ⟨w, List.mem_singleton_self w, h⟩
  | w :: v :: ws, h => by
      rw [List.intercalate_cons_cons, List.mem_append, List.mem_append] at h
      rcases h with (h | h) | h
      · exact .inr ⟨w, List.mem_cons_self .., h⟩
      · exact .inl h
      · exact (mem_intercalate h).imp_right fun ⟨u, hu, hc⟩ => ⟨u, List.mem_cons_of_mem _ hu, hc⟩

/-! ## Lines -/

/-- A line has no break in it. -/
def IsLine (t : List Char) : Prop := ∀ c ∈ t, isBreak c = false

theorem linesFrom_cons {c : Char} (hc : isBreak c = false) (line cs : List Char) :
    linesFrom line (c :: cs) = linesFrom (c :: line) cs := by
  rw [linesFrom, hc]
  · rfl
  · rintro cs' rfl
    cases hc

theorem linesFrom_append (rest : List Char) : ∀ {cs : List Char} (line : List Char), IsLine cs →
    linesFrom line (cs ++ rest) = linesFrom (cs.reverse ++ line) rest
  | [], _, _ => rfl
  | c :: cs, line, h => by
      obtain ⟨hc, hcs⟩ := List.forall_mem_cons.mp h
      rw [List.cons_append, linesFrom_cons hc, linesFrom_append rest (c :: line) hcs,
        List.reverse_cons, List.append_assoc]
      rfl

/-- Lines with a line end after each are the lines of their text. -/
theorem lines_flatMap : ∀ {ts : List (List Char)}, (∀ t ∈ ts, IsLine t) →
    lines (ts.flatMap (· ++ ['\r', '\n'])) = ts
  | [], _ => rfl
  | t :: ts, h => by
      obtain ⟨ht, hts⟩ := List.forall_mem_cons.mp h
      have hrest : linesFrom [] (ts.flatMap (· ++ ['\r', '\n'])) = ts := lines_flatMap hts
      rw [List.flatMap_cons, List.append_assoc, lines, linesFrom_append _ _ ht, List.append_nil,
        List.cons_append, List.singleton_append, linesFrom, hrest, List.reverse_reverse]

theorem isLine_reverse {t : List Char} : IsLine t.reverse ↔ IsLine t := by
  simp [IsLine]

/-- Lines that are read have no break in them. -/
theorem isLine_of_mem_linesFrom {line cs t : List Char} (hline : IsLine line)
    (ht : t ∈ linesFrom line cs) : IsLine t := by
  fun_induction linesFrom line cs with
  | case1 line hempty => cases ht
  | case2 line hempty =>
      rw [List.mem_singleton.mp ht]
      exact isLine_reverse.mpr hline
  | case3 line cs ih =>
      rcases List.mem_cons.mp ht with rfl | ht
      · exact isLine_reverse.mpr hline
      · exact ih (by simp [IsLine]) ht
  | case4 line c cs hcrlf hbreak ih =>
      rcases List.mem_cons.mp ht with rfl | ht
      · exact isLine_reverse.mpr hline
      · exact ih (by simp [IsLine]) ht
  | case5 line c cs hcrlf hbreak ih =>
      exact ih (List.forall_mem_cons.mpr ⟨by simpa using hbreak, hline⟩) ht

theorem isLine_of_mem_lines {cs t : List Char} (ht : t ∈ lines cs) : IsLine t :=
  isLine_of_mem_linesFrom (by simp [IsLine]) ht

theorem linesFrom_break {c : Char} (hc : isBreak c = true) (hreturn : c ≠ '\r')
    (line cs : List Char) : linesFrom line (c :: cs) = line.reverse :: linesFrom [] cs := by
  rw [linesFrom, hc]
  · rfl
  · rintro cs' rfl
    exact absurd rfl hreturn

/-- A text whose breaks are all made line feeds has the same lines. -/
theorem linesFrom_unifyBreaks (line cs : List Char) :
    linesFrom line (unifyBreaks cs) = linesFrom line cs := by
  fun_induction linesFrom line cs with
  | case1 line hempty => simp [unifyBreaks, linesFrom, hempty]
  | case2 line hempty => simp [unifyBreaks, linesFrom, hempty]
  | case3 line cs ih =>
      rw [unifyBreaks, linesFrom_break rfl (by decide), ih]
  | case4 line c cs hcrlf hbreak ih =>
      rw [unifyBreaks, linesFrom_break, ih]
      · split
        next => rfl
        next => exact hbreak
      · split
        next => decide
        next hreturn => exact hreturn
      · exact hcrlf
  | case5 line c cs hcrlf hbreak ih =>
      have hreturn : c ≠ '\r' := by
        rintro rfl
        exact hbreak rfl
      rw [unifyBreaks, if_neg hreturn, linesFrom_cons (by simpa using hbreak), ih]
      exact hcrlf

theorem lines_unifyBreaks (cs : List Char) : lines (unifyBreaks cs) = lines cs :=
  linesFrom_unifyBreaks [] cs

/-- A text without carriage returns keeps its breaks. -/
theorem unifyBreaks_eq : ∀ {cs : List Char}, '\r' ∉ cs → unifyBreaks cs = cs
  | [], _ => rfl
  | c :: cs, h => by
      obtain ⟨hc, hcs⟩ := not_or.mp (mt List.mem_cons.mpr h)
      rw [unifyBreaks, if_neg (Ne.symm hc), unifyBreaks_eq hcs]
      exact fun _ heq => absurd heq (Ne.symm hc)

/-! ## Bytes -/

/-- A text of ASCII. -/
def IsAscii (cs : List Char) : Prop := ∀ c ∈ cs, c.toNat < 128

/-- A text of plain characters and spaces. -/
def IsPrinted (cs : List Char) : Prop := ∀ c ∈ cs, c = ' ' ∨ isPlain c = true

-- Both are decided by going through the text, not by going through the type of characters.
instance (cs : List Char) : Decidable (IsAscii cs) := List.decidableBAll _ cs

instance (cs : List Char) : Decidable (IsPrinted cs) := List.decidableBAll _ cs

theorem IsPrinted.isLine {cs : List Char} (h : IsPrinted cs) : IsLine cs := by
  intro c hc
  rcases h c hc with rfl | hc
  · decide
  · exact isBreak_of_isPlain hc

theorem IsPrinted.isAscii {cs : List Char} (h : IsPrinted cs) : IsAscii cs := by
  intro c hc
  rcases h c hc with rfl | hc
  · decide
  · have hrange := (isPlain_iff.mp hc).1
    omega

theorem toList_loop (bytes : ByteArray) (i : Nat) (before : List UInt8) :
    ByteArray.toList.loop bytes i before = before.reverse ++ bytes.data.toList.drop i := by
  fun_induction ByteArray.toList.loop bytes i before with
  | case1 i before hi ih =>
      have hlength : i < bytes.data.toList.length := hi
      rw [ih, List.drop_eq_getElem_cons hlength]
      simp [ByteArray.get!, getElem!_pos bytes.data i hi]
  | case2 i before hi =>
      have hlength : bytes.data.toList.length ≤ i := Nat.le_of_not_lt hi
      rw [List.drop_eq_nil_of_le hlength, List.append_nil]

theorem asciiChar_ofNat {c : Char} (h : c.toNat < 128) : asciiChar (UInt8.ofNat c.toNat) = c := by
  have hbyte : (UInt8.ofNat c.toNat).toNat = c.toNat := by
    rw [UInt8.toNat_ofNat', Nat.mod_eq_of_lt (by omega)]
  have hlow : UInt8.ofNat c.toNat < 128 := by
    rw [UInt8.lt_iff_toNat_lt, hbyte]
    exact h
  rw [asciiChar, if_pos hlow, hbyte, Char.ofNat_toNat]

/-- The bytes of a text of ASCII are its characters. -/
theorem map_asciiChar_utf8Encode {cs : List Char} (h : IsAscii cs) :
    cs.utf8Encode.toList.map asciiChar = cs := by
  have hbytes : cs.utf8Encode.toList = cs.flatMap String.utf8EncodeChar := by
    rw [ByteArray.toList, toList_loop, List.utf8Encode, List.toList_data_toByteArray]
    rfl
  rw [hbytes]
  clear hbytes
  induction cs with
  | nil => rfl
  | cons c cs ih =>
      obtain ⟨hc, hcs⟩ := List.forall_mem_cons.mp h
      have hbyte : String.utf8EncodeChar c = [UInt8.ofNat c.toNat] := by
        rw [String.utf8EncodeChar]
        exact if_pos (Nat.le_of_lt_succ hc)
      rw [List.flatMap_cons, List.map_append, ih hcs, hbyte, List.map_singleton, asciiChar_ofNat hc]
      rfl

end Text

open Text (IsAscii)

/-- A text of ASCII is written as it is. -/
theorem asciiText_eq {s : String} (h : IsAscii s.toList) : asciiText s = s := by
  rw [asciiText, ← String.toList_inj, String.toList_map]
  rw [List.map_congr_left fun c hc => if_pos (h c hc), List.map_id']

/-- A text of ASCII is read from its bytes as it was written, but for its breaks. -/
theorem readAscii_toUTF8 {s : String} (h : IsAscii s.toList) :
    readAscii s.toUTF8 = String.ofList (Text.unifyBreaks s.toList) := by
  have hbytes : s.toUTF8 = s.toList.utf8Encode := by
    rw [String.toUTF8_eq_toByteArray, ← String.toByteArray_ofList, String.ofList_toList]
  rw [readAscii, hbytes, Text.map_asciiChar_utf8Encode h]

/-- A text is read from its bytes as it was written, if it has no carriage returns. -/
theorem readUnicode_toUTF8 {s : String} (h : '\r' ∉ s.toList) : readUnicode s.toUTF8 = .ok s := by
  have hdecode : String.fromUTF8? s.toUTF8 = some s := by
    rw [String.fromUTF8?, String.toUTF8_eq_toByteArray, dif_pos s.isValidUTF8]
    rfl
  simp only [readUnicode, hdecode, Text.unifyBreaks_eq h, String.ofList_toList]

end WireErosion
