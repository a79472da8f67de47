import WireErosion.Proofs.Program.Rereading

/-!
# The words of a move

The words after an opcode are taken from left to right.  A word that can be used sets one field
(`Line.takeWord_of_read`), and one that cannot changes nothing and gives one notice
(`Line.takeWord_of_not_isUsable`).  So after all words a field has the number of the last usable
word with its letter, and it is absent if there is none (`Line.takeWords_eq`).

Hence a move does not depend on the words that cannot be used, nor on the order of words that set
different fields (`Rearranged`).  `Line.decode_lastUsable` says all of this of a whole line.
-/

namespace WireErosion

/-! ## Letters -/

namespace Text

/-- A character in upper case, as far as opcodes and fields go.  Their letters are those of ASCII,
and beside the small ones only the long s, U+017F, becomes one of them. -/
def upper (c : Char) : Char := if c = '\u017f' then 'S' else c.toUpper

theorem toNat_toUpper (c : Char) :
    c.toUpper.toNat = if 97 ≤ c.toNat ∧ c.toNat ≤ 122 then c.toNat - 32 else c.toNat := by
  have hrange : ('a'.val ≤ c.val ∧ c.val ≤ 'z'.val) ↔ 97 ≤ c.toNat ∧ c.toNat ≤ 122 := Iff.rfl
  have hstep : ('A'.val - 'a'.val).toNat = 2 ^ 32 - 32 := rfl
  unfold Char.toUpper
  split
  next h =>
    rw [if_pos (hrange.mp h)]
    obtain ⟨hlow, -⟩ := hrange.mp h
    change (c.val + ('A'.val - 'a'.val)).toNat = c.val.toNat - 32
    change 97 ≤ c.val.toNat at hlow
    rw [UInt32.toNat_add, hstep]
    have := c.val.toNat_lt
    omega
  next h => rw [if_neg (mt hrange.mpr h)]

/-- The characters that become a letter in upper case are the letter itself and its small one, and
for one letter also the long s. -/
theorem upper_eq_iff {c letter small : Char} (hletter : 65 ≤ letter.toNat ∧ letter.toNat ≤ 90)
    (hsmall : small.toNat = letter.toNat + 32) :
    upper c = letter ↔ c = letter ∨ c = small ∨ letter = 'S' ∧ c = '\u017f' := by
  have htoUpper : c.toUpper = letter ↔ c = letter ∨ c = small := by
    rw [← Char.toNat_inj, ← Char.toNat_inj, ← Char.toNat_inj, toNat_toUpper]
    split <;> omega
  rw [upper]
  split
  next hlong =>
    subst hlong
    constructor
    · rintro rfl
      exact .inr (.inr ⟨rfl, rfl⟩)
    · rintro (rfl | rfl | ⟨rfl, -⟩)
      · simp at hletter
      · simp at hsmall
        omega
      · rfl
  next hlong =>
    rw [htoUpper]
    simp [hlong]

/-- The characters that become a digit in upper case are the digit itself. -/
theorem upper_eq_iff_of_digit {c digit : Char} (hdigit : 48 ≤ digit.toNat ∧ digit.toNat ≤ 57) :
    upper c = digit ↔ c = digit := by
  rw [upper]
  split
  next hlong =>
    subst hlong
    constructor <;> rintro rfl <;> simp at hdigit
  next =>
    rw [← Char.toNat_inj, ← Char.toNat_inj, toNat_toUpper]
    split <;> omega

end Text

/-- The opcodes of a motion. -/
def Motion.opcodes : Motion → List String
  | .rapid => ["G0", "G00"]
  | .linear => ["G1", "G01"]

/-- The digit of the opcodes of a motion. -/
def Motion.digit : Motion → Char
  | .rapid => '0'
  | .linear => '1'

/-- A word that becomes an opcode in upper case has its letter in either case and then its digit,
or a zero and its digit. -/
theorem Motion.mem_opcodes_iff {word : List Char} {motion : Motion} :
    String.ofList (word.map Text.upper) ∈ motion.opcodes ↔
      ∃ g, (g = 'G' ∨ g = 'g') ∧ (word = [g, motion.digit] ∨ word = [g, '0', motion.digit]) := by
  have hg (c : Char) : Text.upper c = 'G' ↔ c = 'G' ∨ c = 'g' := by
    simpa using Text.upper_eq_iff (c := c) (by decide : 65 ≤ 'G'.toNat ∧ 'G'.toNat ≤ 90) rfl
  have hzero (c : Char) : Text.upper c = '0' ↔ c = '0' := Text.upper_eq_iff_of_digit (by decide)
  have hdigit (c : Char) : Text.upper c = motion.digit ↔ c = motion.digit := by
    cases motion <;> exact Text.upper_eq_iff_of_digit (by decide)
  have hopcodes : String.ofList (word.map Text.upper) ∈ motion.opcodes ↔
      word.map Text.upper = ['G', motion.digit] ∨
        word.map Text.upper = ['G', '0', motion.digit] := by
    cases motion <;> simp [opcodes, digit, ← String.toList_inj]
  rw [hopcodes]
  constructor
  · rintro (h | h)
    · obtain ⟨g, rest, rfl, hg', h⟩ := List.map_eq_cons_iff.mp h
      obtain ⟨d, rest, rfl, hd, h⟩ := List.map_eq_cons_iff.mp h
      rw [List.map_eq_nil_iff.mp h, (hdigit d).mp hd]
      exact ⟨g, (hg g).mp hg', .inl rfl⟩
    · obtain ⟨g, rest, rfl, hg', h⟩ := List.map_eq_cons_iff.mp h
      obtain ⟨z, rest, rfl, hz, h⟩ := List.map_eq_cons_iff.mp h
      obtain ⟨d, rest, rfl, hd, h⟩ := List.map_eq_cons_iff.mp h
      rw [List.map_eq_nil_iff.mp h, (hzero z).mp hz, (hdigit d).mp hd]
      exact ⟨g, (hg g).mp hg', .inr rfl⟩
  · rintro ⟨g, hg', rfl | rfl⟩
    · exact .inl (by simp [(hg g).mpr hg', (hdigit _).mpr rfl])
    · exact .inr (by simp [(hg g).mpr hg', (hzero _).mpr rfl, (hdigit _).mpr rfl])

/-- A word is the opcode of a motion in either case. -/
theorem Motion.ofOpcode?_eq_some_iff {word : List Char} {motion : Motion} :
    ofOpcode? word = some motion ↔ String.ofList (word.map Text.upper) ∈ motion.opcodes := by
  rw [mem_opcodes_iff]
  unfold ofOpcode?
  split
  case h_5 hrapid hrapid' hlinear hlinear' =>
    simp only [reduceCtorEq, false_iff]
    cases motion <;> rintro ⟨g, -, h | h⟩
    · exact hrapid g h
    · exact hrapid' g h
    · exact hlinear g h
    · exact hlinear' g h
  all_goals cases motion <;> simp [digit, or_iff_not_imp_left]

namespace Field

/-- All fields. -/
def all : List Field := [.x, .y, .z, .f, .s]

theorem mem_all (field : Field) : field ∈ all := by
  cases field <;> decide

/-- The letter of a field. -/
def letter : Field → Char
  | .x => 'X'
  | .y => 'Y'
  | .z => 'Z'
  | .f => 'F'
  | .s => 'S'

/-- The small letter of a field. -/
def small : Field → Char
  | .x => 'x'
  | .y => 'y'
  | .z => 'z'
  | .f => 'f'
  | .s => 's'

/-- A letter in either case names its field. -/
theorem ofLetter?_eq_some_iff {c : Char} {field : Field} :
    ofLetter? c = some field ↔ Text.upper c = field.letter := by
  have hupper : Text.upper c = field.letter ↔
      c = field.letter ∨ c = field.small ∨ field.letter = 'S' ∧ c = '\u017f' := by
    apply Text.upper_eq_iff <;> cases field <;> decide
  rw [hupper]
  constructor
  · intro h
    unfold ofLetter? at h
    split_ifs at h with hx hy hz hf hs <;> cases h
    · exact hx.imp_right .inl
    · exact hy.imp_right .inl
    · exact hz.imp_right .inl
    · exact hf.imp_right .inl
    · exact hs.imp_right (.imp_right fun h => ⟨rfl, h⟩)
  · rintro (rfl | rfl | ⟨hs, rfl⟩)
    · cases field <;> rfl
    · cases field <;> rfl
    · cases field <;> first | rfl | cases hs

/-- A field of a move. -/
def get {α : Type} (field : Field) (m : Move α) : Option α :=
  match field with
  | .x => m.x
  | .y => m.y
  | .z => m.z
  | .f => m.f
  | .s => m.s

theorem get_set {α : Type} (field other : Field) (v : α) (m : Move α) :
    field.get (other.set v m) = if other = field then some v else field.get m := by
  cases other <;> cases field <;> rfl

/-- A move is its motion and its fields. -/
theorem move_ext {α : Type} {m m' : Move α} (hmotion : m.motion = m'.motion)
    (hget : ∀ field : Field, field.get m = field.get m') : m = m' := by
  obtain ⟨motion, x, y, z, f, s⟩ := m
  rw [Move.mk.injEq]
  exact ⟨hmotion, hget .x, hget .y, hget .z, hget .f, hget .s⟩

@[simp] theorem motion_set {α : Type} (field : Field) (v : α) (m : Move α) :
    (field.set v m).motion = m.motion := by
  cases field <;> rfl

/-- The number of a word for a field: its first character is the letter of the field in either case,
and the rest of it is the numeral of the number. -/
def read? (field : Field) : List Char → Option Float
  | [] => none
  | c :: rest => if Text.upper c = field.letter then Numeral.double? rest else none

theorem read?_eq_some_iff {field : Field} {word : List Char} {v : Float} :
    field.read? word = some v ↔
      ∃ c rest, word = c :: rest ∧ ofLetter? c = some field ∧ Numeral.double? rest = some v := by
  cases word with
  | nil => simp [read?]
  | cons c rest => simp [read?, ofLetter?_eq_some_iff]

/-- A word sets no second field. -/
theorem read?_ne_some {field other : Field} {word : List Char} {v : Float}
    (h : field.read? word = some v) (hother : other ≠ field) : other.read? word = none := by
  rw [Option.eq_none_iff_forall_ne_some]
  intro v' h'
  obtain ⟨c, rest, rfl, hfield, -⟩ := read?_eq_some_iff.mp h
  obtain ⟨c', rest', heq, hfield', -⟩ := read?_eq_some_iff.mp h'
  obtain ⟨rfl, -⟩ := List.cons.inj heq
  exact hother (Option.some.inj (hfield'.symm.trans hfield))

end Field

/-! ## Words -/

/-- Whether a word sets a field. -/
def isUsable (word : List Char) : Bool := Field.all.any fun field => (field.read? word).isSome

theorem isUsable_iff {word : List Char} :
    isUsable word = true ↔ ∃ field v, Field.read? field word = some v := by
  simp [isUsable, Field.mem_all, Option.isSome_iff_exists]

theorem read?_of_not_isUsable {word : List Char} (h : isUsable word = false) (field : Field) :
    field.read? word = none := by
  rw [Option.eq_none_iff_forall_ne_some]
  intro v hv
  rw [isUsable_iff.mpr ⟨field, v, hv⟩] at h
  cases h

/-- What a line has to say of a word that sets no field. -/
def complaint (line : String) (word : List Char) : Notice Float :=
  if Field.all.any fun field => word.head?.map Text.upper = some field.letter then
    .malformedToken (String.ofList word) line
  else .unrecognizedToken (String.ofList word) line

theorem level_complaint (line : String) (word : List Char) :
    (complaint line word).level = .warning := by
  rw [complaint]
  split <;> rfl

namespace Line

variable {line : String}

/-- A word that can be used sets its field. -/
theorem takeWord_of_read {field : Field} {word : List Char} {v : Float}
    (h : field.read? word = some v) (m : Move Float) :
    takeWord line m word = .of (field.set v m) := by
  obtain ⟨c, rest, rfl, hfield, hnumber⟩ := Field.read?_eq_some_iff.mp h
  simp only [takeWord, hfield, hnumber]

/-- A word that cannot be used changes nothing and gives one notice. -/
theorem takeWord_of_not_isUsable {word : List Char} (hne : word ≠ [])
    (h : isUsable word = false) (m : Move Float) :
    takeWord line m word = ⟨[complaint line word], .ok m⟩ := by
  obtain ⟨c, rest, rfl⟩ := List.exists_cons_of_ne_nil hne
  cases hletter : Field.ofLetter? c with
  | none =>
      have hnone : ∀ field : Field, Text.upper c ≠ field.letter := fun field hc => by
        rw [Field.ofLetter?_eq_some_iff.mpr hc] at hletter
        cases hletter
      simp [takeWord, hletter, complaint, hnone, Report.bind, Report.tell, Report.of]
  | some field =>
      have hnumber : Numeral.double? rest = none := by
        have hread := read?_of_not_isUsable h field
        rwa [Field.read?, if_pos (Field.ofLetter?_eq_some_iff.mp hletter)] at hread
      have hfield : ∃ field ∈ Field.all, Text.upper c = field.letter :=
        ⟨field, Field.mem_all field, Field.ofLetter?_eq_some_iff.mp hletter⟩
      simp [takeWord, hletter, hnumber, complaint, hfield, Report.bind, Report.tell, Report.of]

/-- After all words a field has the number of the last word that sets it, and each word that cannot
be used has given one notice. -/
theorem takeWords_eq {words : List (List Char)} (hne : ∀ word ∈ words, word ≠ [])
    (m : Move Float) :
    ∃ m', takeWords line m words =
        ⟨(words.filter fun word => !isUsable word).map (complaint line), .ok m'⟩ ∧
      m'.motion = m.motion ∧
      ∀ field : Field,
        field.get m' = ((words.filterMap field.read?).getLast?).or (field.get m) := by
  induction words generalizing m with
  | nil => exact ⟨m, rfl, rfl, fun field => rfl⟩
  | cons word words ih =>
      obtain ⟨hword, hwords⟩ := List.forall_mem_cons.mp hne
      cases husable : isUsable word with
      | true =>
          obtain ⟨field, v, hread⟩ := isUsable_iff.mp husable
          obtain ⟨m', htake, hmotion, hget⟩ := ih hwords (field.set v m)
          refine ⟨m', ?_, ?_, fun other => ?_⟩
          · rw [takeWords, takeWord_of_read hread, Report.of_bind, htake]
            simp [husable]
          · rw [hmotion, Field.motion_set]
          · rw [hget, Field.get_set]
            split
            next heq =>
              subst heq
              rw [List.filterMap_cons_some hread, List.getLast?_cons]
              cases (List.filterMap field.read? words).getLast? <;> rfl
            next hother =>
              rw [List.filterMap_cons_none (Field.read?_ne_some hread (Ne.symm hother))]
      | false =>
          obtain ⟨m', htake, hmotion, hget⟩ := ih hwords m
          refine ⟨m', ?_, hmotion, fun other => ?_⟩
          · rw [takeWords, takeWord_of_not_isUsable hword husable]
            simp [Report.bind, htake, husable]
          · rw [hget, List.filterMap_cons_none (read?_of_not_isUsable husable other)]

end Line

/-! ## Other words with the same fields -/

/-- Words that were rearranged without a change of what they set.  Neighbours may change places
unless both set the same field, and words that cannot be used may come or go. -/
inductive Rearranged : List (List Char) → List (List Char) → Prop
  | refl (words : List (List Char)) : Rearranged words words
  | swap (before : List (List Char)) {word other : List Char} (after : List (List Char))
      (h : ∀ field : Field, field.read? word = none ∨ field.read? other = none) :
      Rearranged (before ++ word :: other :: after) (before ++ other :: word :: after)
  | insert (before : List (List Char)) {word : List Char} (after : List (List Char))
      (h : isUsable word = false) : Rearranged (before ++ after) (before ++ word :: after)
  | symm {words words' : List (List Char)} : Rearranged words words' → Rearranged words' words
  | trans {words words' words'' : List (List Char)} :
      Rearranged words words' → Rearranged words' words'' → Rearranged words words''

namespace Rearranged

variable {words words' : List (List Char)}

/-- Rearranged words give each field the same numbers in the same order. -/
theorem filterMap_eq (h : Rearranged words words') (field : Field) :
    words.filterMap field.read? = words'.filterMap field.read? := by
  induction h with
  | refl words => rfl
  | swap before after hdistinct =>
      rw [List.filterMap_append, List.filterMap_append]
      congr 1
      rcases hdistinct field with hnone | hnone <;> simp [List.filterMap_cons, hnone]
  | insert before after husable =>
      rw [List.filterMap_append, List.filterMap_append,
        List.filterMap_cons_none (read?_of_not_isUsable husable field)]
  | symm _ ih => exact ih.symm
  | trans _ _ ih₁ ih₂ => exact ih₁.trans ih₂

theorem cons (word : List Char) (h : Rearranged words words') :
    Rearranged (word :: words) (word :: words') := by
  induction h with
  | refl words => exact refl _
  | swap before after hdistinct => exact swap (word :: before) after hdistinct
  | insert before after husable => exact insert (word :: before) after husable
  | symm _ ih => exact ih.symm
  | trans _ _ ih₁ ih₂ => exact ih₁.trans ih₂

/-- Words of which no two set the same field may stand in any order. -/
theorem of_perm (h : words.Perm words') (hdistinct : words.Pairwise fun word other =>
      ∀ field : Field, field.read? word = none ∨ field.read? other = none) :
    Rearranged words words' := by
  induction h with
  | nil => exact refl []
  | cons word _ ih => exact (ih (List.pairwise_cons.mp hdistinct).2).cons word
  | swap word other words =>
      exact swap [] words ((List.pairwise_cons.mp hdistinct).1 word (List.mem_cons_self ..))
  | trans hperm _ ih₁ ih₂ =>
      refine (ih₁ hdistinct).trans (ih₂ ?_)
      exact hperm.pairwise hdistinct fun h field => (h field).symm

end Rearranged

/-! ## Lines -/

namespace Text

/-- No field of a text is empty. -/
theorem ne_nil_of_mem_fieldsFrom {word cs w : List Char} (hw : w ∈ fieldsFrom word cs) :
    w ≠ [] := by
  induction cs generalizing word with
  | nil =>
      rw [fieldsFrom] at hw
      split at hw
      next => cases hw
      next hword => simpa [List.mem_singleton.mp hw] using hword
  | cons c cs ih =>
      rw [fieldsFrom] at hw
      split at hw
      next =>
        split at hw
        next => exact ih hw
        next hword =>
          rcases List.mem_cons.mp hw with rfl | hw
          · simpa using hword
          · exact ih hw
      next => exact ih hw

/-- Blanks at the end of a text are no field of it. -/
theorem fieldsFrom_append_blanks {blanks : List Char} (h : ∀ c ∈ blanks, isBlank c = true)
    (word cs : List Char) : fieldsFrom word (cs ++ blanks) = fieldsFrom word cs := by
  induction cs generalizing word with
  | nil =>
      rw [List.nil_append]
      induction blanks generalizing word with
      | nil => rfl
      | cons c blanks ih =>
          obtain ⟨hc, hblanks⟩ := List.forall_mem_cons.mp h
          simp [fieldsFrom, hc, ih hblanks]
  | cons c cs ih => simp [fieldsFrom, ih]

/-- The fields of a text do not change if blanks are cut off its end. -/
theorem fields_trimEnd {p : Char → Bool} (hp : ∀ c, p c = true → isBlank c = true)
    (cs : List Char) : fields (trimEnd p cs) = fields cs := by
  have hcut : cs = trimEnd p cs ++ (cs.reverse.takeWhile p).reverse := by
    rw [trimEnd, ← List.reverse_append, List.takeWhile_append_dropWhile, List.reverse_reverse]
  have hblanks : ∀ c ∈ (cs.reverse.takeWhile p).reverse, isBlank c = true :=
    fun c hc => hp c (List.mem_takeWhile_imp (List.mem_reverse.mp hc))
  conv_rhs => rw [hcut]
  exact (fieldsFrom_append_blanks hblanks [] _).symm

end Text

namespace Line

/-- A line whose first word is an opcode. -/
theorem decode_opcode {text : String} {opcode : List Char} {words : List (List Char)}
    {motion : Motion} (hfields : Text.fields text.toList = opcode :: words)
    (hopcode : String.ofList (opcode.map Text.upper) ∈ motion.opcodes) :
    decode text =
      (takeWords (String.ofList (Text.trimEnd (fun c => c = '\r' || c = '\n') text.toList))
        { motion } words).bind fun m => .of (.move m) := by
  have hblank : ∀ c : Char, (c = '\r' || c = '\n') = true → Text.isBlank c = true := by
    intro c hc
    rcases (Bool.or_eq_true _ _).mp hc with hc | hc <;> rw [of_decide_eq_true hc] <;> rfl
  rw [decode, Text.fields_trimEnd hblank, hfields]
  dsimp only
  rw [Motion.ofOpcode?_eq_some_iff.mpr hopcode]

/-- What is read of a line whose first word is an opcode.  It is a move in which each field has the
number of the last word that sets it, with a warning for each word that cannot be used.  Rearranged
words give the same move. -/
theorem decode_lastUsable {text : String} {opcode : List Char} {words : List (List Char)}
    {motion : Motion} (hfields : Text.fields text.toList = opcode :: words)
    (hopcode : String.ofList (opcode.map Text.upper) ∈ motion.opcodes) :
    ∃ m : Move Float,
      (decode text).outcome = .ok (.move m) ∧ m.motion = motion ∧
      (∀ field : Field, field.get m = (words.filterMap field.read?).getLast?) ∧
      (decode text).notices = (words.filter fun word => !isUsable word).map
        (complaint (String.ofList (Text.trimEnd (fun c => c = '\r' || c = '\n') text.toList))) ∧
      (∀ notice ∈ (decode text).notices, notice.level = .warning) ∧
      ∀ (text' : String) (opcode' : List Char) (words' : List (List Char)),
        Text.fields text'.toList = opcode' :: words' →
        String.ofList (opcode'.map Text.upper) ∈ motion.opcodes →
        Rearranged words words' → (decode text').outcome = .ok (.move m) := by
  have hread {text : String} {opcode : List Char} {words : List (List Char)}
      (hfields : Text.fields text.toList = opcode :: words)
      (hopcode : String.ofList (opcode.map Text.upper) ∈ motion.opcodes) :
      ∃ m : Move Float, decode text = ⟨(words.filter fun word => !isUsable word).map (complaint
          (String.ofList (Text.trimEnd (fun c => c = '\r' || c = '\n') text.toList))),
          .ok (.move m)⟩ ∧
        m.motion = motion ∧
        ∀ field : Field, field.get m = (words.filterMap field.read?).getLast? := by
    have hne : ∀ word ∈ words, word ≠ [] := fun word hword => Text.ne_nil_of_mem_fieldsFrom
      (hfields ▸ List.mem_cons_of_mem opcode hword : word ∈ Text.fields text.toList)
    obtain ⟨m, htake, hmotion, hget⟩ := takeWords_eq hne { motion }
    refine ⟨m, ?_, hmotion, fun field => ?_⟩
    · rw [decode_opcode hfields hopcode, htake, Report.bind]
      simp [Report.of]
    · rw [hget]
      cases field <;> exact Option.or_none
  obtain ⟨m, hdecode, hmotion, hget⟩ := hread hfields hopcode
  refine ⟨m, by rw [hdecode], hmotion, hget, by rw [hdecode], fun notice hnotice => ?_,
    fun text' opcode' words' hfields' hopcode' hrearranged => ?_⟩
  · rw [hdecode] at hnotice
    obtain ⟨word, -, rfl⟩ := List.mem_map.mp hnotice
    exact level_complaint _ word
  · obtain ⟨m', hdecode', hmotion', hget'⟩ := hread hfields' hopcode'
    have heq : m' = m := Field.move_ext (hmotion'.trans hmotion.symm) fun field => by
      rw [hget', hget, hrearranged.filterMap_eq]
    rw [hdecode', heq]

/-- A line with a field that is set twice, once by a long s, and words that cannot be used. -/
theorem decode_crowdedLine : ∃ m : Move Float,
    (decode "g1 x1 \u017f3 Xe x5 q\r\n").outcome = .ok (.move m) ∧ m.motion = .linear ∧
    m.x = Numeral.double? ['5'] ∧ m.y = none ∧ m.s = Numeral.double? ['3'] ∧
    (decode "g1 x1 \u017f3 Xe x5 q\r\n").notices =
      [.malformedToken "Xe" "g1 x1 \u017f3 Xe x5 q",
        .unrecognizedToken "q" "g1 x1 \u017f3 Xe x5 q"] ∧
    (decode "G01 \u017f3 x1 x5").outcome = .ok (.move m) := by
  obtain ⟨m, houtcome, hmotion, hget, hnotices, -, hrearranged⟩ :=
    @decode_lastUsable "g1 x1 \u017f3 Xe x5 q\r\n" _ _ .linear rfl (by decide)
  refine ⟨m, houtcome, hmotion, hget .x, hget .y, hget .s, hnotices, ?_⟩
  refine hrearranged _ _ _ rfl (by decide) ?_
  -- The words that cannot be used go, the last one first, and two fields change places.
  have hlast : Rearranged [['x', '1'], ['\u017f', '3'], ['X', 'e'], ['x', '5']]
      [['x', '1'], ['\u017f', '3'], ['X', 'e'], ['x', '5'], ['q']] :=
    .insert [['x', '1'], ['\u017f', '3'], ['X', 'e'], ['x', '5']] [] rfl
  have hfirst : Rearranged [['x', '1'], ['\u017f', '3'], ['x', '5']]
      [['x', '1'], ['\u017f', '3'], ['X', 'e'], ['x', '5']] :=
    .insert [['x', '1'], ['\u017f', '3']] [['x', '5']] rfl
  refine hlast.symm.trans (hfirst.symm.trans (.swap [] [['x', '5']] fun field => ?_))
  cases field
  case s => exact .inl rfl
  all_goals exact .inr rfl

end Line

end WireErosion
