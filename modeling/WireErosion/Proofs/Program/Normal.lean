import WireErosion.Proofs.Program.RoundTrip

/-!
# Normal texts

Reading a text and writing its program again gives a normal text (`Program.normalize`).  A number
with decimal places is written as the same text again, since its place on the decimal grid is the
one of the number that the text stands for (`Double.word_reread`).  A number that is not legible is
left out the second time.

A speed has two forms.  It is written with decimal places if it is not whole, and may then be read
as a whole number, which is written as an integer.  So the first normal text is normal for itself
exactly if its numbers are legible and each speed keeps its form (`Line.KeepsForm`), as
`nearlyWhole_renormalized` does not, and the second one always is (`Program.normalize_settles`).
-/

namespace WireErosion

open Text (IsLine)

/-! ## Numbers -/

namespace Double

variable {places : ℕ} {x : Float}

theorem isWhole_unsignZero (x : Float) : isWhole (unsignZero x) = isWhole x := by
  unfold unsignZero
  split
  next hx =>
    rw [isWhole, isWhole, hx, of_zero]
    simp [DoubleValue.numerator]
  next => rfl

/-- A whole number is written as an integer like one without decimal places. -/
theorem wholeText_eq_word (h : isWhole x = true) : wholeText x = word 0 x := by
  rw [isWhole] at h
  rw [wholeText, word]
  split at h
  next s m q hx =>
    have hden := DoubleValue.denominator_pos q
    rw [beq_iff_eq] at h
    have hplace : Decimal.onGrid (DoubleValue.numerator m q) (DoubleValue.denominator q) (0 : ℕ)
        = DoubleValue.numerator m q / DoubleValue.denominator q := by
      simp [Decimal.onGrid, Decimal.roundHalfEven, h, hden]
    simp only [hx, place, hplace, Decimal.fixedText, if_true]
  next => cases h

theorem wholeText_unsignZero (h : isWhole x = true) : wholeText (unsignZero x) = wholeText x := by
  have hlegible : isLegible 0 x = true := isLegible_of_le (by decide) x
  have hread : unsignZero x = reread 0 x := by
    apply Option.some.inj
    rw [← double?_wholeText h, wholeText_eq_word h, double?_word, if_pos hlegible]
  rw [wholeText_eq_word ((isWhole_unsignZero x).trans h), hread, word_reread, wholeText_eq_word h]

theorem point_not_mem_signText (negative : Bool) : '.' ∉ (signText negative).toList := by
  cases negative <;> decide

/-- An integer has no point. -/
theorem point_not_mem_wholeText (h : isWhole x = true) : '.' ∉ (wholeText x).toList := by
  obtain ⟨negative, n, htext⟩ := wholeText_eq h
  rw [htext, String.toList_append, List.mem_append, Decimal.fixedText, if_pos rfl,
    String.toList_ofList]
  rintro (hpoint | hpoint)
  · exact point_not_mem_signText negative hpoint
  · cases Nat.isDigit_of_mem_toDigits (by norm_num) le_rfl hpoint

/-- A number that is read as a whole one is written with a point, if there are decimal places. -/
theorem point_mem_word (hplaces : places ≠ 0) (h : isWhole (reread places x) = true) :
    '.' ∈ (word places x).toList := by
  cases hx : DoubleValue.of x with
  | notANumber => simp [reread, isWhole, hx] at h
  | infinite s => simp [reread, isWhole, hx] at h
  | finite s m q =>
      rw [word, hx, String.toList_append, List.mem_append, Decimal.fixedText, if_neg hplaces]
      simp

/-- A number is written in one form before and after it was written as a speed and read: as an
integer, or with decimal places. -/
def KeepsForm (places : ℕ) (x : Float) : Prop :=
  isWhole (reread places x) = true → isWhole x = true ∨ places = 0

end Double

section

variable {places : ℕ} {v v' : Float} {t : String}

/-- What is read from a number with decimal places is written in the same way, and is legible. -/
theorem numberWord_of_read (ht : numberWord places v = .ok t)
    (hread : Numeral.double? t.toList = some v') :
    numberWord places v' = .ok t ∧ Double.isLegible places v' = true := by
  obtain ⟨hlegible, rfl⟩ := (numberReadAs_iff ht).mp hread
  obtain ⟨hnonneg, ⟨hle, -⟩, rfl⟩ := numberWord_eq_ok.mp ht
  rw [← Double.isLegible_reread] at hlegible
  refine ⟨numberWord_eq_ok.mpr ⟨hnonneg, ⟨hle, fun _ => hlegible⟩, ?_⟩, hlegible⟩
  rw [Int.toNat_natCast, Double.word_reread]

/-- What is read from a speed is written in the same way if the speed keeps its form.  It keeps its
own, and is legible unless it is whole. -/
theorem speedWord_of_read (ht : speedWord places v = .ok t)
    (hread : Numeral.double? t.toList = some v') :
    ∃ t', speedWord places v' = .ok t' ∧ (t' = t ↔ Double.KeepsForm places v) ∧
      Double.KeepsForm places v' ∧
      (Double.isWhole v' = false → Double.isLegible places v' = true) := by
  cases hwhole : Double.isWhole v with
  | true =>
      have hread' := hread.symm.trans (double?_of_isWhole ht hwhole)
      rw [speedWord, if_pos hwhole] at ht
      cases ht
      obtain rfl := Option.some.inj hread'
      have hwhole' : Double.isWhole (Double.unsignZero v) = true :=
        (Double.isWhole_unsignZero v).trans hwhole
      refine ⟨Double.wholeText (Double.unsignZero v), by rw [speedWord, if_pos hwhole'], ?_,
        fun _ => .inl hwhole', by simp [hwhole']⟩
      rw [Double.wholeText_unsignZero hwhole]
      exact iff_of_true rfl fun _ => .inl hwhole
  | false =>
      rw [speedWord, hwhole, if_neg Bool.false_ne_true] at ht
      obtain ⟨hword, hlegible⟩ := numberWord_of_read ht hread
      obtain ⟨-, hv'⟩ := (numberReadAs_iff ht).mp hread
      obtain ⟨-, -, rfl⟩ := numberWord_eq_ok.mp ht
      rw [Int.toNat_natCast] at hread hword hv' ⊢
      cases hwhole' : Double.isWhole v' with
      | true =>
          -- The integer is the text without decimal places, so it differs if there are some.
          refine ⟨Double.wholeText v', by rw [speedWord, if_pos hwhole'], ?_,
            fun _ => .inl hwhole', by simp⟩
          rw [Double.KeepsForm, ← hv', hwhole, or_iff_right Bool.false_ne_true,
            forall_prop_of_true hwhole']
          constructor
          · intro htext
            by_contra hplaces
            have hpoint := Double.point_mem_word hplaces (hv' ▸ hwhole')
            exact Double.point_not_mem_wholeText hwhole' (htext ▸ hpoint)
          · rintro rfl
            rw [Double.wholeText_eq_word hwhole', hv', Double.word_reread]
      | false =>
          have hkeeps : ¬ Double.isWhole (Double.reread places v) = true := by
            rw [← hv', hwhole']
            exact Bool.false_ne_true
          refine ⟨_, by rw [speedWord, hwhole', if_neg Bool.false_ne_true, hword],
            iff_of_true rfl fun h => absurd h hkeeps, fun h => ?_, fun _ => hlegible⟩
          rw [hv', Double.reread_reread] at h
          exact absurd h hkeeps

end

/-! ## Moves -/

section

variable {places : ℕ} {letter : String} {v v' : Option Float} {ws : List String}

/-- A field is written in the same way after it was read, unless it was left out. -/
theorem fieldWord_of_readAs (h : FieldReadAs (numberWord places) v v')
    (hws : fieldWord letter (numberWord places) v = .ok ws) :
    ∃ ws', fieldWord letter (numberWord places) v' = .ok ws' ∧ (ws' = [] ∨ ws' = ws) ∧
      (ws' = ws ↔ v'.isSome = v.isSome) ∧ ∀ x ∈ v', Double.isLegible places x = true := by
  cases v with
  | none =>
      obtain rfl : v' = none := h
      exact ⟨ws, hws, .inr rfl, iff_of_true rfl rfl, by simp⟩
  | some x =>
      obtain ⟨t, ht, rfl⟩ := h
      rw [fieldWord, ht] at hws
      cases hws
      cases hread : Numeral.double? t.toList with
      | none => exact ⟨[], rfl, .inl rfl, by simp, by simp⟩
      | some x' =>
          obtain ⟨hword, hlegible⟩ := numberWord_of_read ht hread
          exact ⟨[letter ++ t], by rw [fieldWord, hword]; rfl, .inr rfl, by simp, by simpa⟩

/-- A speed is written in the same way after it was read if it was not left out and keeps its
form. -/
theorem speedField_of_readAs (h : FieldReadAs (speedWord places) v v')
    (hws : fieldWord letter (speedWord places) v = .ok ws) :
    ∃ ws', fieldWord letter (speedWord places) v' = .ok ws' ∧ ws'.length ≤ ws.length ∧
      (ws' = ws ↔ v'.isSome = v.isSome ∧ ∀ x ∈ v, Double.KeepsForm places x) ∧
      (∀ x ∈ v', Double.KeepsForm places x) ∧
      ∀ x ∈ v', Double.isWhole x = false → Double.isLegible places x = true := by
  cases v with
  | none =>
      obtain rfl : v' = none := h
      exact ⟨ws, hws, le_rfl, by simp, by simp, by simp⟩
  | some x =>
      obtain ⟨t, ht, rfl⟩ := h
      rw [fieldWord, ht] at hws
      cases hws
      cases hread : Numeral.double? t.toList with
      | none => exact ⟨[], rfl, Nat.zero_le _, by simp, by simp, by simp⟩
      | some x' =>
          obtain ⟨t', ht', hsame, hkeeps, hlegible⟩ := speedWord_of_read ht hread
          refine ⟨[letter ++ t'], by rw [fieldWord, ht']; rfl, le_rfl, ?_, by simpa, by simpa⟩
          simpa [String.append_right_inj] using hsame

end

/-- Lists of which parts were left out are the same only part by part. -/
theorem append_eq_append_iff_of_left_out {β : Type} {xs xs' ys ys' : List β}
    (hxs : xs' = [] ∨ xs' = xs) (hys : ys'.length ≤ ys.length) :
    xs' ++ ys' = xs ++ ys ↔ xs' = xs ∧ ys' = ys := by
  constructor
  · intro h
    rcases hxs with rfl | rfl
    · have hlength := congrArg List.length h
      rw [List.nil_append, List.length_append] at hlength
      obtain rfl : xs = [] := List.length_eq_zero_iff.mp (by omega)
      exact ⟨rfl, h⟩
    · exact ⟨rfl, List.append_cancel_left h⟩
  · rintro ⟨rfl, rfl⟩
    rfl

namespace Line

variable {places : ℕ}

/-- The speed of a line keeps its form. -/
def KeepsForm (places : ℕ) : Line Float → Prop
  | .comment _ => True
  | .move m => ∀ v ∈ m.s, Double.KeepsForm places v

/-- A line is written in the same way after it was read: its numbers with decimal places are legible
and its speed keeps its form. -/
structure IsNormal (places : ℕ) (l : Line Float) : Prop where
  /-- The numbers with decimal places are legible. -/
  legible : ∀ v ∈ l.decimals, Double.isLegible places v = true
  /-- The speed keeps its form. -/
  keepsForm : l.KeepsForm places

theorem isNormal_comment (text : String) : (Line.comment text).IsNormal places :=
  ⟨List.forall_mem_nil _, trivial⟩

/-- The words of a written move are plain. -/
theorem arePlain_words {m : Move Float} {x y z f s : List String}
    (hx : fieldWord "X" (numberWord places) m.x = .ok x)
    (hy : fieldWord "Y" (numberWord places) m.y = .ok y)
    (hz : fieldWord "Z" (numberWord places) m.z = .ok z)
    (hf : fieldWord "F" (numberWord places) m.f = .ok f)
    (hs : fieldWord "S" (speedWord places) m.s = .ok s) :
    ArePlain ((x ++ y ++ z ++ f ++ s).map String.toList) := by
  obtain ⟨_, -, hx⟩ := exists_writesField rfl rfl rfl plain_of_numberWord hx
  obtain ⟨_, -, hy⟩ := exists_writesField rfl rfl rfl plain_of_numberWord hy
  obtain ⟨_, -, hz⟩ := exists_writesField rfl rfl rfl plain_of_numberWord hz
  obtain ⟨_, -, hf⟩ := exists_writesField rfl rfl rfl plain_of_numberWord hf
  obtain ⟨_, -, hs⟩ := exists_writesField rfl rfl rfl plain_of_speedWord hs
  simp only [List.map_append]
  exact (((hx.plain.append hy.plain).append hz.plain).append hf.plain).append hs.plain

/-- Plain words are read off the line that they make. -/
theorem words_inj {motion : Motion} {ws vs : List String} (hws : ArePlain (ws.map String.toList))
    (hvs : ArePlain (vs.map String.toList)) :
    " ".intercalate (motion.word :: ws) = " ".intercalate (motion.word :: vs) ↔ ws = vs := by
  refine ⟨fun h => ?_, fun h => h ▸ rfl⟩
  have hfields : ∀ {us : List String}, ArePlain (us.map String.toList) →
      Text.fields (" ".intercalate (motion.word :: us)).toList
        = (motion.word :: us).map String.toList := by
    intro us hus
    rw [toList_intercalate_opcode, Text.fields_intercalate (arePlain_opcode hus).isWord]
  have hmap := (hfields hws).symm.trans ((congrArg (fun t => Text.fields t.toList) h).trans
    (hfields hvs))
  exact (List.cons.inj (List.map_injective_iff.mpr (fun _ _ => String.toList_injective) hmap)).2

/-- A move is written in the same way after it was read exactly if it is normal, and what is read is
normal. -/
theorem encode_move_of_readAs {m m' : Move Float} {t : String}
    (h : encode places (.move m) = .ok t) (hread : m.ReadAs places m') :
    ∃ t', encode places (.move m') = .ok t' ∧ (t' = t ↔ (Line.move m).IsNormal places) ∧
      (Line.move m').IsNormal places := by
  obtain ⟨x, y, z, f, s, hx, hy, hz, hf, hs, rfl⟩ := encode_move_eq_ok.mp h
  obtain ⟨x', hx', hxs, hxsame, hxlegible⟩ := fieldWord_of_readAs hread.x hx
  obtain ⟨y', hy', hys, hysame, hylegible⟩ := fieldWord_of_readAs hread.y hy
  obtain ⟨z', hz', hzs, hzsame, hzlegible⟩ := fieldWord_of_readAs hread.z hz
  obtain ⟨f', hf', hfs, hfsame, hflegible⟩ := fieldWord_of_readAs hread.f hf
  obtain ⟨s', hs', hss, hssame, hkeeps, hslegible⟩ := speedField_of_readAs hread.s hs
  refine ⟨_, encode_move_eq_ok.mpr ⟨x', y', z', f', s', hx', hy', hz', hf', hs', rfl⟩, ?_,
    forall_mem_decimals.mpr ⟨⟨⟨hxlegible, hylegible⟩, hzlegible⟩, hflegible, hslegible⟩, hkeeps⟩
  have hshorter : ∀ {us vs ws ws' : List String}, (us = [] ∨ us = vs) → ws.length ≤ ws'.length →
      (us ++ ws).length ≤ (vs ++ ws').length := by
    rintro us vs ws ws' (rfl | rfl) hle <;> simp only [List.length_append, List.length_nil] <;>
      omega
  have hnormal : (Line.move m).IsNormal places ↔ (m'.map fun _ => ()) = (m.map fun _ => ()) ∧
      ∀ v ∈ m.s, Double.KeepsForm places v := by
    rw [hread.map_unit_eq_iff, Int.toNat_natCast]
    exact ⟨fun h => ⟨h.legible, h.keepsForm⟩, fun h => ⟨h.1, h.2⟩⟩
  rw [hnormal, Move.map_unit_eq_iff, hread.motion, ← hxsame, ← hysame, ← hzsame, ← hfsame]
  simp only [List.cons_append]
  rw [words_inj (arePlain_words hx' hy' hz' hf' hs') (arePlain_words hx hy hz hf hs)]
  simp only [List.append_assoc]
  rw [append_eq_append_iff_of_left_out hxs (hshorter hys (hshorter hzs (hshorter hfs hss))),
    append_eq_append_iff_of_left_out hys (hshorter hzs (hshorter hfs hss)),
    append_eq_append_iff_of_left_out hzs (hshorter hfs hss),
    append_eq_append_iff_of_left_out hfs hss, hssame]
  simp only [true_and, and_assoc]

/-- A steady line is written as one line, and so is the line that is read from it. -/
theorem encode_of_readAs {l l' : Line Float} {t : String} (hl : l.Steady)
    (h : l.encode places = .ok t) (hread : ReadAs places l l') :
    l'.Steady ∧ ∃ t', l'.encode places = .ok t' ∧ (t' = t ↔ l.IsNormal places) ∧
      l'.IsNormal places := by
  cases hread with
  | move hread => exact ⟨trivial, encode_move_of_readAs h hread⟩
  | comment text =>
      exact ⟨hl, t, h, iff_of_true rfl (isNormal_comment text), isNormal_comment text⟩

end Line

/-! ## Programs -/

namespace Program

/-- The text of the program that a text is read as. -/
def normalize (places : Int) (text : String) : Except Fault String :=
  (parse text).outcome.bind (format places)

variable {places : ℕ} {p q : Program Float}

theorem isLine_of_encodes {ts : List String} (hp : ∀ l ∈ p, l.Steady)
    (hts : List.Forall₂ (fun l t => Line.encode places l = .ok t) p ts) :
    ∀ t ∈ ts, IsLine t.toList := by
  induction hts with
  | nil => simp
  | cons hl _ ih =>
      obtain ⟨hsteady, hp⟩ := List.forall_mem_cons.mp hp
      exact List.forall_mem_cons.mpr ⟨(hsteady.decode hl).1, ih hp⟩

/-- The lines of a program that is read from a text are written in the same way exactly if they were
normal. -/
theorem encodes_of_readAs {ts : List String} (hp : ∀ l ∈ p, l.Steady)
    (hts : List.Forall₂ (fun l t => Line.encode places l = .ok t) p ts)
    (hread : List.Forall₂ (Line.ReadAs places) p q) :
    (∀ l ∈ q, l.Steady ∧ l.IsNormal places) ∧
      ∃ ts', List.Forall₂ (fun l t => Line.encode places l = .ok t) q ts' ∧
        (ts' = ts ↔ ∀ l ∈ p, l.IsNormal places) := by
  induction hts generalizing q with
  | nil =>
      cases hread
      exact ⟨by simp, [], .nil, by simp⟩
  | @cons l t p ts hl _ ih =>
      obtain ⟨hsteady, hp⟩ := List.forall_mem_cons.mp hp
      cases hread with
      | @cons _ l' _ q hl' hread =>
          obtain ⟨hsteady', t', ht', hsame, hnormal⟩ := Line.encode_of_readAs hsteady hl hl'
          obtain ⟨hq, ts', hts', hsames⟩ := ih hp hread
          refine ⟨List.forall_mem_cons.mpr ⟨⟨hsteady', hnormal⟩, hq⟩, t' :: ts', .cons ht' hts', ?_⟩
          rw [List.cons.injEq, hsame, hsames, List.forall_mem_cons]

/-- A written program is read as one that is written in the same way exactly if its lines are
normal, as those of the second one are. -/
theorem format_of_parse (hp : ∀ l ∈ p, l.Steady) {written : String}
    (h : p.format places = .ok written) :
    ∃ q, (parse written).outcome = .ok q ∧ (∀ l ∈ q, l.Steady ∧ l.IsNormal places) ∧
      ∃ again, q.format places = .ok again ∧
        (again = written ↔ ∀ l ∈ p, l.IsNormal places) := by
  obtain ⟨q, hq, -, hread⟩ := parse_format hp h
  obtain ⟨ts, hts, rfl⟩ := format_eq_ok.mp h
  obtain ⟨hnormal, ts', hts', hsame⟩ := encodes_of_readAs hp hts hread
  refine ⟨q, hq, hnormal, _, format_eq_ok.mpr ⟨ts', hts', rfl⟩, ?_⟩
  rw [← hsame]
  refine ⟨fun h => ?_, fun h => h ▸ rfl⟩
  -- The lines of the texts are their own, so equal texts have equal lines.
  have hlines := congrArg Text.lines (congrArg String.toList h)
  rw [lines_join (isLine_of_encodes hp hts),
    lines_join (isLine_of_encodes (fun l hl => (hnormal l hl).1) hts')] at hlines
  exact List.map_injective_iff.mpr (fun _ _ => String.toList_injective) hlines

/-- A text has a normal text unless the decimal places are too many for a number in it, or a
number with a sign is not legible.  The normal text is its own normal text if and only if the
numbers of the program with decimal places are legible and each speed keeps its form.  It always
has one, and that one is its own.  All numbers are legible if the decimal places are 309 less than
the digits that are read. -/
theorem normalize_settles (text : String) (places : ℕ) :
    ∃ p, (parse text).outcome = .ok p ∧
      ((∃ written, normalize places text = .ok written) ↔
        ∀ l ∈ p, ∀ v ∈ l.decimals, Double.Writable places v) ∧
      (∀ written, normalize places text = .ok written →
        (normalize places written = .ok written ↔ ∀ l ∈ p, l.IsNormal places) ∧
        ∃ again, normalize places written = .ok again ∧ normalize places again = .ok again) ∧
      (places + 309 ≤ Numeral.mostDoubleDigits → ∀ v, Double.isLegible places v = true) := by
  have hnormal : ∀ {t : String} {r : Program Float}, (parse t).outcome = .ok r →
      normalize places t = r.format places := by
    intro t r ht
    rw [normalize, ht]
    rfl
  obtain ⟨p, hp, hsteady⟩ := exists_parse text
  refine ⟨p, hp, hnormal hp ▸ exists_format_iff (Int.natCast_nonneg places), fun written h => ?_,
    Double.isLegible_of_le⟩
  rw [hnormal hp] at h
  obtain ⟨q, hq, hkeeps, again, hagain, hsame⟩ := format_of_parse hsteady h
  obtain ⟨r, hr, -, last, hlast, hsettled⟩ := format_of_parse (fun l hl => (hkeeps l hl).1) hagain
  rw [hnormal hq, hagain, Except.ok.injEq]
  refine ⟨hsame, again, rfl, ?_⟩
  rw [hnormal hr, hlast, hsettled.mpr fun l hl => (hkeeps l hl).2]

/-- A speed that is nearly a whole number is written with decimal places and read as a whole number,
which is written as an integer. -/
theorem nearlyWhole_renormalized :
    normalize 3 "G1 S0.9999" = .ok "G1 S1.000\r\n" ∧
      normalize 3 "G1 S1.000\r\n" ≠ .ok "G1 S1.000\r\n" := by
  have hinteger : normalize 3 "G1 S1.000\r\n" = .ok "G1 S1\r\n" := rfl
  refine ⟨rfl, ?_⟩
  rw [hinteger, Ne, Except.ok.injEq]
  decide

end Program

end WireErosion
