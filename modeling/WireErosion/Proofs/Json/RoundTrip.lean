import WireErosion.Proofs.Json.Literals

/-!
# Values of JSON are read as they are written

A value that is written on indented lines is read as itself (`parse_indented`).  No object in it may
have two fields of one name (`Value.Distinct`), as it is with every value that was read.  The only
other thing that stands in the way is an integer with too many digits, and reading fails with the
fault of the first one (`Value.fits`).
-/

namespace WireErosion.Json

/-! ## Values that can be read -/

mutual

/-- Whether the integers of a value have few enough digits, or the fault of the first one that has
not. -/
def Value.fits : Value → Except Fault Unit
  | .integer n =>
    if Numeral.mostDigits < (Decimal.digits n.natAbs).length then
      .error (.numeralTooLong (Decimal.digits n.natAbs).length)
    else .ok ()
  | .array ms => membersFit ms
  | .object fs => fieldsFit fs
  | _ => .ok ()

/-- Whether the integers of some members have few enough digits. -/
def membersFit : List Value → Except Fault Unit
  | [] => .ok ()
  | m :: ms => m.fits.bind fun _ => membersFit ms

/-- Whether the integers of some fields have few enough digits. -/
def fieldsFit : List (String × Value) → Except Fault Unit
  | [] => .ok ()
  | (_, v) :: fs => v.fits.bind fun _ => fieldsFit fs

end

theorem membersFit_cons (m : Value) (ms : List Value) :
    membersFit (m :: ms) = m.fits.bind fun _ => membersFit ms := by rw [membersFit]

theorem fieldsFit_cons (name : String) (v : Value) (fs : List (String × Value)) :
    fieldsFit ((name, v) :: fs) = v.fits.bind fun _ => fieldsFit fs := by rw [fieldsFit]

mutual

/-- No object in a value has two fields of one name. -/
def Value.Distinct : Value → Prop
  | .array ms => MembersDistinct ms
  | .object fs => (fs.map Prod.fst).Nodup ∧ FieldsDistinct fs
  | _ => True

/-- No object in some members has two fields of one name. -/
def MembersDistinct : List Value → Prop
  | [] => True
  | m :: ms => m.Distinct ∧ MembersDistinct ms

/-- No object in the values of some fields has two fields of one name. -/
def FieldsDistinct : List (String × Value) → Prop
  | [] => True
  | (_, v) :: fs => v.Distinct ∧ FieldsDistinct fs

end

/-! ## White space -/

theorem skipSpace_append {sp : List Char} (hsp : ∀ c ∈ sp, isSpace c = true) (cs : List Char) :
    skipSpace (sp ++ cs) = skipSpace cs := List.dropWhile_append_of_pos hsp

theorem skipSpace_cons {c : Char} (hc : isSpace c = false) (cs : List Char) :
    skipSpace (c :: cs) = c :: cs := List.dropWhile_cons_of_neg (Bool.eq_false_iff.mp hc)

theorem isSpace_newLine (depth : ℕ) : ∀ c ∈ (newLine depth).toList, isSpace c = true := by
  intro c hc
  rw [newLine, String.toList_append, List.mem_append] at hc
  rcases hc with hc | hc
  · obtain rfl : c = '\n' := List.mem_singleton.mp hc
    rfl
  · obtain rfl := List.eq_of_mem_replicate (String.toList_ofList ▸ hc)
    rfl

/-- A character that starts a value. -/
structure Starts (c : Char) : Prop where
  /-- It is no space. -/
  space : isSpace c = false
  /-- It does not end a list. -/
  close : c ≠ ']'

theorem starts_of_isDigit {c : Char} (hc : c.isDigit = true) : Starts c := by
  refine ⟨?_, ne_of_isDigit hc rfl⟩
  rw [isSpace]
  simp [ne_of_isDigit hc (d := ' ') rfl, ne_of_isDigit hc (d := '\t') rfl,
    ne_of_isDigit hc (d := '\n') rfl, ne_of_isDigit hc (d := '\r') rfl]

theorem exists_signed {cs : List Char} (h : ∃ c ds, cs = c :: ds ∧ c.isDigit = true)
    (negative : Bool) : ∃ c ds, (Double.signText negative).toList ++ cs = c :: ds ∧ Starts c := by
  obtain ⟨c, ds, rfl, hc⟩ := h
  cases negative with
  | true => exact ⟨'-', c :: ds, rfl, rfl, by decide⟩
  | false => exact ⟨c, ds, rfl, starts_of_isDigit hc⟩

theorem exists_start_number (x : Float) :
    ∃ c cs, (numberLiteral x).toList = c :: cs ∧ Starts c := by
  rw [numberLiteral]
  split
  next => exact ⟨'N', _, rfl, rfl, by decide⟩
  next s _ =>
    cases s with
    | true => exact ⟨'-', _, rfl, rfl, by decide⟩
    | false => exact ⟨'I', _, rfl, rfl, by decide⟩
  next s m q hx =>
    obtain ⟨t, htext, ht, -, -⟩ := Double.exists_shortest hx
    obtain ⟨c, cs, hwhole, hc⟩ := exists_digit ht.whole
    rw [htext, Decimal.Written.chars, hwhole]
    exact exists_signed ⟨c, _, rfl, hc⟩ s

/-- The characters of texts on lines of their own. -/
theorem toList_onLines (depth : ℕ) (opening closing : String) (texts : List String) :
    (onLines depth opening closing texts).toList
      = opening.toList ++ ((newLine (depth + 1)).toList
        ++ ((',' :: (newLine (depth + 1)).toList).intercalate (texts.map String.toList)
          ++ ((newLine depth).toList ++ closing.toList))) := by
  rw [onLines]
  simp only [String.toList_append, String.toList_intercalate, List.append_assoc]
  rfl

/-- The members of a list between its brackets. -/
def memberLines (depth : ℕ) (ms : List Value) : List Char :=
  (',' :: (newLine depth).toList).intercalate ((indentedMembers depth ms).map String.toList)

/-- The fields of an object between its brackets. -/
def fieldLines (depth : ℕ) (fs : List (String × Value)) : List Char :=
  (',' :: (newLine depth).toList).intercalate ((indentedFields depth fs).map String.toList)

theorem toList_indented_array (depth : ℕ) (m : Value) (ms : List Value) :
    (indented depth (.array (m :: ms))).toList
      = '[' :: ((newLine (depth + 1)).toList ++ (memberLines (depth + 1) (m :: ms)
          ++ ((newLine depth).toList ++ [']']))) := by
  rw [indented, toList_onLines]
  rfl

theorem toList_indented_object (depth : ℕ) (f : String × Value) (fs : List (String × Value)) :
    (indented depth (.object (f :: fs))).toList
      = '\x7b' :: ((newLine (depth + 1)).toList ++ (fieldLines (depth + 1) (f :: fs)
          ++ ((newLine depth).toList ++ ['\x7d']))) := by
  rw [indented, toList_onLines]
  rfl

/-- A value does not start with white space or the end of a list. -/
theorem exists_start (depth : ℕ) (v : Value) :
    ∃ c cs, (indented depth v).toList = c :: cs ∧ Starts c := by
  have hliteral : ∀ (text : String) (c : Char) (cs : List Char), text.toList = c :: cs →
      isSpace c = false → c ≠ ']' → ∃ c cs, text.toList = c :: cs ∧ Starts c :=
    fun _ c cs htext hspace hclose => ⟨c, cs, htext, hspace, hclose⟩
  cases v with
  | null => exact hliteral "null" 'n' ['u', 'l', 'l'] rfl rfl (by decide)
  | bool b =>
      cases b with
      | true => exact hliteral "true" 't' ['r', 'u', 'e'] rfl rfl (by decide)
      | false => exact hliteral "false" 'f' ['a', 'l', 's', 'e'] rfl rfl (by decide)
  | integer n =>
      obtain ⟨c, cs, hcs, hc⟩ := exists_signed (exists_digit (isLeading_or_zero n.natAbs)) _
      exact ⟨c, cs, (toList_toString n).trans hcs, hc⟩
  | number x => exact exists_start_number x
  | string s => exact hliteral (textLiteral s) '"' _ (toList_textLiteral s) rfl (by decide)
  | array ms =>
      cases ms with
      | nil => exact hliteral "[]" '[' [']'] rfl rfl (by decide)
      | cons m ms => exact hliteral _ '[' _ (toList_indented_array depth m ms) rfl (by decide)
  | object fs =>
      cases fs with
      | nil => exact hliteral "\x7b\x7d" '\x7b' ['\x7d'] rfl rfl (by decide)
      | cons f fs => exact hliteral _ '\x7b' _ (toList_indented_object depth f fs) rfl (by decide)

/-! ## Members and fields -/

section

variable {fuel : ℕ} {cs rest rest' sp : List Char} {r : Except Fault Unit} {v : Value}

/-- The last member of a list is read up to its end. -/
theorem members_last (hsp : ∀ c ∈ sp, isSpace c = true)
    (h : value fuel cs = r.map fun _ => (v, sp ++ ']' :: rest)) :
    members (fuel + 1) cs = r.map fun _ => ([v], rest) := by
  rw [members, h]
  cases r with
  | error e => rfl
  | ok =>
      have hskip : skipSpace (sp ++ ']' :: rest) = ']' :: rest := by
        rw [skipSpace_append hsp, skipSpace_cons rfl]
      simp only [Except.map, bind, Except.bind, hskip]
      rfl

/-- A member is read up to the next one. -/
theorem members_next (h : value fuel cs = r.map fun _ => (v, ',' :: rest)) :
    members (fuel + 1) cs = r.bind fun _ =>
      (members fuel (skipSpace rest)).map fun (vs, rest) => (v :: vs, rest) := by
  rw [members, h]
  cases r with
  | error e => rfl
  | ok =>
      have hskip : skipSpace (',' :: rest) = ',' :: rest := skipSpace_cons rfl rest
      simp only [Except.map, bind, Except.bind, hskip]
      cases members fuel (skipSpace rest) <;> rfl

variable {name : String} {before : List (String × Value)}

/-- The last field of an object is read up to its end. -/
theorem fields_last (hsp : ∀ c ∈ sp, isSpace c = true)
    (htext : text cs = .ok (name, ':' :: ' ' :: rest')) (hstart : skipSpace rest' = rest')
    (h : value fuel rest' = r.map fun _ => (v, sp ++ '\x7d' :: rest)) :
    fields (fuel + 1) before cs = r.map fun _ => (setField name v before, rest) := by
  have hcolon : skipSpace (':' :: ' ' :: rest') = ':' :: ' ' :: rest' := skipSpace_cons rfl _
  have hspace : skipSpace (' ' :: rest') = rest' := hstart
  rw [fields, htext]
  simp only [bind, Except.bind, hcolon, hspace, h]
  cases r with
  | error e => rfl
  | ok =>
      have hskip : skipSpace (sp ++ '\x7d' :: rest) = '\x7d' :: rest := by
        rw [skipSpace_append hsp, skipSpace_cons rfl]
      simp only [Except.map, hskip]
      rfl

/-- A field is read up to the next one. -/
theorem fields_next (htext : text cs = .ok (name, ':' :: ' ' :: rest'))
    (hstart : skipSpace rest' = rest') (h : value fuel rest' = r.map fun _ => (v, ',' :: rest)) :
    fields (fuel + 1) before cs
      = r.bind fun _ => fields fuel (setField name v before) (skipSpace rest) := by
  have hcolon : skipSpace (':' :: ' ' :: rest') = ':' :: ' ' :: rest' := skipSpace_cons rfl _
  have hspace : skipSpace (' ' :: rest') = rest' := hstart
  rw [fields, htext]
  simp only [bind, Except.bind, hcolon, hspace, h]
  cases r with
  | error e => rfl
  | ok =>
      have hskip : skipSpace (',' :: rest) = ',' :: rest := skipSpace_cons rfl rest
      simp only [Except.map, hskip]

/-- A list that is not empty is read member by member. -/
theorem value_list {c : Char} (h : skipSpace cs = c :: rest) (hc : c ≠ ']') :
    value (fuel + 1) ('[' :: cs) = (members fuel (c :: rest)).map fun (ms, rest) =>
      (.array ms, rest) := by
  rw [value, h]
  split
  next heq => exact absurd (List.cons.inj heq).1 hc
  next => rfl

/-- An object that is not empty is read field by field. -/
theorem value_object {c : Char} (h : skipSpace cs = c :: rest) (hc : c ≠ '\x7d') :
    value (fuel + 1) ('\x7b' :: cs) = (fields fuel [] (c :: rest)).map fun (fs, rest) =>
      (.object fs, rest) := by
  rw [value, h]
  split
  next heq => exact absurd (List.cons.inj heq).1 hc
  next => rfl

theorem setField_of_not_mem {fs : List (String × Value)} (h : name ∉ fs.map Prod.fst) :
    setField name v fs = fs ++ [(name, v)] := by
  induction fs with
  | nil => rfl
  | cons f fs ih =>
      rw [List.map_cons, List.mem_cons, not_or] at h
      rw [setField, if_neg (Ne.symm h.1), ih h.2, List.cons_append]

end

/-! ## Values -/

theorem stops_of_close {c : Char} (hc : c = ',' ∨ c = ']' ∨ c = '\x7d') (rest : List Char) :
    Stops (c :: rest) := by
  rintro _ ⟨⟩
  rcases hc with rfl | rfl | rfl <;> decide

theorem stops_of_isSpace {sp : List Char} (hsp : ∀ c ∈ sp, isSpace c = true) {rest : List Char}
    (hrest : Stops rest) : Stops (sp ++ rest) := by
  cases sp with
  | nil => exact hrest
  | cons c sp =>
      rintro _ ⟨⟩
      have hc := hsp c (List.mem_cons_self ..)
      simp only [isSpace, Bool.or_eq_true, decide_eq_true_eq, or_assoc] at hc
      rcases hc with rfl | rfl | rfl | rfl <;> decide

theorem memberLines_singleton (depth : ℕ) (m : Value) :
    memberLines depth [m] = (indented depth m).toList := by
  simp [memberLines, indentedMembers]

theorem memberLines_cons_cons (depth : ℕ) (m m' : Value) (ms : List Value) :
    memberLines depth (m :: m' :: ms) = (indented depth m).toList
      ++ ',' :: ((newLine depth).toList ++ memberLines depth (m' :: ms)) := by
  simp [memberLines, indentedMembers, List.intercalate_cons_cons]

theorem fieldLines_singleton (depth : ℕ) (name : String) (v : Value) :
    fieldLines depth [(name, v)]
      = (textLiteral name).toList ++ ':' :: ' ' :: (indented depth v).toList := by
  simp [fieldLines, indentedFields]

theorem fieldLines_cons_cons (depth : ℕ) (name : String) (v : Value) (f : String × Value)
    (fs : List (String × Value)) :
    fieldLines depth ((name, v) :: f :: fs)
      = (textLiteral name).toList ++ ':' :: ' ' :: ((indented depth v).toList
        ++ ',' :: ((newLine depth).toList ++ fieldLines depth (f :: fs))) := by
  simp [fieldLines, indentedFields, List.intercalate_cons_cons]

theorem exists_start_members (depth : ℕ) (m : Value) (ms : List Value) :
    ∃ c cs, memberLines depth (m :: ms) = c :: cs ∧ Starts c := by
  obtain ⟨c, cs, hcs, hc⟩ := exists_start depth m
  cases ms with
  | nil => exact ⟨c, cs, (memberLines_singleton depth m).trans hcs, hc⟩
  | cons m' ms => exact ⟨c, _, by rw [memberLines_cons_cons, hcs, List.cons_append], hc⟩

theorem exists_start_fields (depth : ℕ) (f : String × Value) (fs : List (String × Value)) :
    ∃ cs, fieldLines depth (f :: fs) = '"' :: cs := by
  obtain ⟨name, v⟩ := f
  cases fs with
  | nil => exact ⟨_, by rw [fieldLines_singleton, toList_textLiteral]; rfl⟩
  | cons f fs => exact ⟨_, by rw [fieldLines_cons_cons, toList_textLiteral]; rfl⟩

theorem skipSpace_newLine (depth : ℕ) {c : Char} (hc : isSpace c = false) (cs : List Char) :
    skipSpace ((newLine depth).toList ++ c :: cs) = c :: cs := by
  rw [skipSpace_append (isSpace_newLine depth), skipSpace_cons hc]

theorem skipSpace_indented (depth : ℕ) (v : Value) (rest : List Char) :
    skipSpace ((indented depth v).toList ++ rest) = (indented depth v).toList ++ rest := by
  obtain ⟨c, cs, hcs, hc⟩ := exists_start depth v
  rw [hcs, List.cons_append, skipSpace_cons hc.space]

/-- With some fuel every value that is not longer is read as itself. -/
def ReadsValues (fuel : ℕ) : Prop :=
  ∀ (depth : ℕ) (v : Value) (rest : List Char), v.Distinct →
    (indented depth v).toList.length ≤ fuel → Stops rest →
    value fuel ((indented depth v).toList ++ rest) = v.fits.map fun _ => (v, rest)

/-- With some fuel all members that are shorter are read up to the end of their list. -/
def ReadsMembers (fuel : ℕ) : Prop :=
  ∀ (depth : ℕ) (m : Value) (ms : List Value) (sp rest : List Char), MembersDistinct (m :: ms) →
    (memberLines depth (m :: ms)).length < fuel → (∀ c ∈ sp, isSpace c = true) →
    members fuel (memberLines depth (m :: ms) ++ (sp ++ ']' :: rest))
      = (membersFit (m :: ms)).map fun _ => (m :: ms, rest)

/-- With some fuel all fields that are shorter are read up to the end of their object. -/
def ReadsFields (fuel : ℕ) : Prop :=
  ∀ (depth : ℕ) (before : List (String × Value)) (f : String × Value)
    (fs : List (String × Value)) (sp rest : List Char),
    ((before ++ f :: fs).map Prod.fst).Nodup → FieldsDistinct (f :: fs) →
    (fieldLines depth (f :: fs)).length < fuel → (∀ c ∈ sp, isSpace c = true) →
    fields fuel before (fieldLines depth (f :: fs) ++ (sp ++ '\x7d' :: rest))
      = (fieldsFit (f :: fs)).map fun _ => (before ++ f :: fs, rest)

section

variable {fuel : ℕ}

theorem readsMembers_succ (hvalues : ReadsValues fuel) (hmembers : ReadsMembers fuel) :
    ReadsMembers (fuel + 1) := by
  intro depth m ms sp rest hdistinct hfuel hsp
  cases ms with
  | nil =>
      rw [memberLines_singleton] at hfuel ⊢
      have hvalue := hvalues depth m (sp ++ ']' :: rest) hdistinct.1 (by omega)
        (stops_of_isSpace hsp (stops_of_close (.inr (.inl rfl)) rest))
      rw [members_last hsp hvalue, membersFit]
      cases m.fits <;> rfl
  | cons m' ms =>
      obtain ⟨c, cs, hcs, hc⟩ := exists_start_members depth m' ms
      rw [memberLines_cons_cons] at hfuel ⊢
      rw [List.length_append, List.length_cons, List.length_append] at hfuel
      have hvalue := hvalues depth m
        (',' :: ((newLine depth).toList ++ (memberLines depth (m' :: ms) ++ (sp ++ ']' :: rest))))
        hdistinct.1 (by omega) (stops_of_close (.inl rfl) _)
      have hrest := hmembers depth m' ms sp rest hdistinct.2 (by omega) hsp
      have hskip := skipSpace_newLine depth hc.space (cs ++ (sp ++ ']' :: rest))
      rw [← List.cons_append, ← hcs] at hskip
      rw [List.append_assoc, List.cons_append, List.append_assoc, members_next hvalue, hskip,
        hrest, membersFit_cons m]
      cases m.fits with
      | error e => rfl
      | ok => cases membersFit (m' :: ms) <;> rfl

theorem readsFields_succ (hvalues : ReadsValues fuel) (hfields : ReadsFields fuel) :
    ReadsFields (fuel + 1) := by
  rintro depth before ⟨name, v⟩ fs sp rest hnames hdistinct hfuel hsp
  have hset : setField name v before = before ++ [(name, v)] := by
    refine setField_of_not_mem fun hmem => ?_
    rw [List.map_append, List.map_cons, List.nodup_append] at hnames
    exact hnames.2.2 _ hmem _ (List.mem_cons_self ..) rfl
  cases fs with
  | nil =>
      rw [fieldLines_singleton] at hfuel ⊢
      rw [List.length_append, List.length_cons, List.length_cons] at hfuel
      have hvalue := hvalues depth v (sp ++ '\x7d' :: rest) hdistinct.1 (by omega)
        (stops_of_isSpace hsp (stops_of_close (.inr (.inr rfl)) rest))
      rw [List.append_assoc, List.cons_append, List.cons_append, fields_last hsp
        (text_textLiteral name _) (skipSpace_indented depth v _) hvalue, hset, fieldsFit]
      cases v.fits <;> rfl
  | cons f fs =>
      obtain ⟨cs, hcs⟩ := exists_start_fields depth f fs
      rw [fieldLines_cons_cons] at hfuel ⊢
      rw [List.length_append, List.length_cons, List.length_cons, List.length_append,
        List.length_cons, List.length_append] at hfuel
      have hvalue := hvalues depth v
        (',' :: ((newLine depth).toList ++ (fieldLines depth (f :: fs) ++ (sp ++ '\x7d' :: rest))))
        hdistinct.1 (by omega) (stops_of_close (.inl rfl) _)
      have hrest := hfields depth (before ++ [(name, v)]) f fs sp rest
        (by rwa [List.append_assoc]) hdistinct.2 (by omega) hsp
      have hskip := skipSpace_newLine depth (c := '"') rfl (cs ++ (sp ++ '\x7d' :: rest))
      rw [← List.cons_append, ← hcs] at hskip
      rw [List.append_assoc, List.cons_append, List.cons_append, List.append_assoc,
        List.cons_append, List.append_assoc, fields_next (text_textLiteral name _)
          (skipSpace_indented depth v _) hvalue, hskip, hset, hrest, fieldsFit_cons name,
        List.append_assoc]
      cases v.fits with
      | error e => rfl
      | ok => cases fieldsFit (f :: fs) <;> rfl

theorem ReadsMembers.value (hmembers : ReadsMembers fuel) (depth : ℕ) {m : Value}
    {ms : List Value} (rest : List Char) (hdistinct : MembersDistinct (m :: ms))
    (hfuel : (indented depth (.array (m :: ms))).toList.length ≤ fuel + 1) :
    Json.value (fuel + 1) ((indented depth (.array (m :: ms))).toList ++ rest)
      = (membersFit (m :: ms)).map fun _ => (.array (m :: ms), rest) := by
  obtain ⟨c, cs, hcs, hc⟩ := exists_start_members (depth + 1) m ms
  rw [toList_indented_array] at hfuel ⊢
  rw [List.length_cons, List.length_append, List.length_append, List.length_append,
    List.length_singleton] at hfuel
  have hread := hmembers (depth + 1) m ms (newLine depth).toList rest hdistinct (by omega)
    (isSpace_newLine depth)
  have hskip := skipSpace_newLine (depth + 1) hc.space
    (cs ++ ((newLine depth).toList ++ ']' :: rest))
  rw [hcs, List.cons_append] at hread
  rw [hcs, List.cons_append, List.append_assoc, List.append_assoc, List.append_assoc,
    List.cons_append, List.singleton_append, value_list hskip hc.close, hread]
  cases membersFit (m :: ms) <;> rfl

theorem ReadsFields.value (hfields : ReadsFields fuel) (depth : ℕ) {f : String × Value}
    {fs : List (String × Value)} (rest : List Char) (hdistinct : (Value.object (f :: fs)).Distinct)
    (hfuel : (indented depth (.object (f :: fs))).toList.length ≤ fuel + 1) :
    Json.value (fuel + 1) ((indented depth (.object (f :: fs))).toList ++ rest)
      = (fieldsFit (f :: fs)).map fun _ => (.object (f :: fs), rest) := by
  obtain ⟨cs, hcs⟩ := exists_start_fields (depth + 1) f fs
  rw [toList_indented_object] at hfuel ⊢
  rw [List.length_cons, List.length_append, List.length_append, List.length_append,
    List.length_singleton] at hfuel
  have hread := hfields (depth + 1) [] f fs (newLine depth).toList rest hdistinct.1 hdistinct.2
    (by omega) (isSpace_newLine depth)
  have hskip := skipSpace_newLine (depth + 1) (c := '"') rfl
    (cs ++ ((newLine depth).toList ++ '\x7d' :: rest))
  rw [hcs, List.cons_append] at hread
  rw [hcs, List.cons_append, List.append_assoc, List.append_assoc, List.append_assoc,
    List.cons_append, List.singleton_append, value_object hskip (by decide), hread]
  cases fieldsFit (f :: fs) <;> rfl

theorem readsValues_succ (hmembers : ReadsMembers fuel) (hfields : ReadsFields fuel) :
    ReadsValues (fuel + 1) := by
  intro depth v rest hdistinct hfuel hrest
  cases v with
  | null =>
      change value (fuel + 1) ("null".toList ++ rest) = _
      exact value_eq_atom fuel (c := 'n') (by decide) ('u' :: 'l' :: 'l' :: rest)
  | bool b =>
      cases b with
      | true =>
          change value (fuel + 1) ("true".toList ++ rest) = _
          exact value_eq_atom fuel (c := 't') (by decide) ('r' :: 'u' :: 'e' :: rest)
      | false =>
          change value (fuel + 1) ("false".toList ++ rest) = _
          exact value_eq_atom fuel (c := 'f') (by decide) ('a' :: 'l' :: 's' :: 'e' :: rest)
  | integer n =>
      rw [Value.fits]
      refine (value_integer fuel n hrest).trans ?_
      split <;> rfl
  | number x => exact value_number fuel x hrest
  | string s => exact value_textLiteral fuel s rest
  | array ms =>
      cases ms with
      | nil =>
          change value (fuel + 1) ("[]".toList ++ rest) = _
          rw [Value.fits, membersFit]
          rfl
      | cons m ms =>
          rw [Value.fits]
          exact hmembers.value depth rest hdistinct hfuel
  | object fs =>
      cases fs with
      | nil =>
          change value (fuel + 1) ("\x7b\x7d".toList ++ rest) = _
          rw [Value.fits, fieldsFit]
          rfl
      | cons f fs =>
          rw [Value.fits]
          exact hfields.value depth rest hdistinct hfuel

end

/-- Every step down takes one character at least, so the length of a text is fuel enough for it. -/
theorem reads (fuel : ℕ) : ReadsValues fuel ∧ ReadsMembers fuel ∧ ReadsFields fuel := by
  induction fuel with
  | zero =>
      refine ⟨fun depth v rest _ hfuel _ => ?_, fun _ _ _ _ _ _ hfuel _ => ?_,
        fun _ _ _ _ _ _ _ _ hfuel _ => ?_⟩
      · obtain ⟨c, cs, hcs, -⟩ := exists_start depth v
        rw [hcs] at hfuel
        cases hfuel
      · cases hfuel
      · cases hfuel
  | succ fuel ih =>
      obtain ⟨hvalues, hmembers, hfields⟩ := ih
      exact ⟨readsValues_succ hmembers hfields, readsMembers_succ hvalues hmembers,
        readsFields_succ hvalues hfields⟩

/-- A value on indented lines is read as itself, or as the fault of its first integer with too many
digits. -/
theorem parse_indented {v : Value} (hdistinct : v.Distinct) (depth : ℕ) :
    parse (indented depth v) = v.fits.map fun _ => v := by
  have hread := (reads (2 * (indented depth v).toList.length + 2)).1 depth v [] hdistinct
    (by omega) (fun _ h => nomatch h)
  have hskip := skipSpace_indented depth v []
  rw [List.append_nil] at hread hskip
  rw [parse]
  simp only [hskip, hread]
  cases v.fits <;> rfl

end WireErosion.Json
