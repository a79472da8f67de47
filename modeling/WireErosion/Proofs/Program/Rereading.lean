import WireErosion.Program.Decode
import WireErosion.Proofs.Number.Legible
import WireErosion.Proofs.Outcome

/-!
# Programs are read as they are written

The text of a program is read as a program with the same lines (`Program.parse_format`).  Comments
come back as they are, and moves with the same fields, each of them the number that its text
stands for (`Line.ReadAs`).  Only a number that is not legible is left out, and then there is a
notice: the two programs have one shape exactly if reading is silent, which is if all numbers with
decimal places are legible (`Line.ReadAs.shape_eq_iff`).

Of a comment this asks that it is a line for itself and that its text is not one of a move
(`Line.Steady`).  If the numbers of a program were rounded to as many decimal places as are written,
and its speeds are whole, it is read as itself, but for the signs of zeros
(`Program.parse_format_of_settled`).
-/

namespace WireErosion

open Text (IsAscii IsLine IsPrinted IsWord isPlain)

/-! ## Numbers -/

/-- A number is read from the text that is written for another one. -/
def NumberReadAs (write : Float → Except Fault String) (v v' : Float) : Prop :=
  ∃ t, write v = .ok t ∧ Numeral.double? t.toList = some v'

section

variable {places : Int} {x v v' : Float} {t : String}

theorem plain_of_numberWord (h : numberWord places x = .ok t) :
    ∀ c ∈ t.toList, isPlain c = true := by
  obtain ⟨-, -, rfl⟩ := numberWord_eq_ok.mp h
  exact Double.word_plain _ x

theorem plain_of_speedWord (h : speedWord places x = .ok t) :
    ∀ c ∈ t.toList, isPlain c = true := by
  rw [speedWord] at h
  split at h
  next hwhole =>
    cases h
    exact Double.wholeText_plain hwhole
  next => exact plain_of_numberWord h

/-- What is read from a number with decimal places, if it is legible. -/
theorem double?_of_numberWord (h : numberWord places x = .ok t) :
    Numeral.double? t.toList = if Double.isLegible places.toNat x then
      some (Double.reread places.toNat x) else none := by
  obtain ⟨-, -, rfl⟩ := numberWord_eq_ok.mp h
  exact Double.double?_word _ x

/-- A number is read if it was legible, as what its text stands for. -/
theorem numberReadAs_iff (h : numberWord places v = .ok t) :
    Numeral.double? t.toList = some v' ↔
      Double.isLegible places.toNat v = true ∧ v' = Double.reread places.toNat v := by
  rw [double?_of_numberWord h]
  split
  next hlegible => simp [hlegible, eq_comm]
  next hlegible => simp [hlegible]

theorem NumberReadAs.legible (h : NumberReadAs (numberWord places) v v') :
    Double.isLegible places.toNat v = true ∧ v' = Double.reread places.toNat v := by
  obtain ⟨t, ht, hread⟩ := h
  exact (numberReadAs_iff ht).mp hread

/-- A number that was rounded to as many places as are written is read as itself. -/
theorem NumberReadAs.of_settled (h : NumberReadAs (numberWord places) v v')
    (hv : Double.Settled places.toNat v) : v' = Double.unsignZero v :=
  h.legible.2.trans (Double.reread_of_settled hv)

/-- A speed that is a whole number is read as itself. -/
theorem double?_of_isWhole (h : speedWord places v = .ok t) (hv : Double.isWhole v = true) :
    Numeral.double? t.toList = some (Double.unsignZero v) := by
  rw [speedWord, if_pos hv] at h
  cases h
  exact Double.double?_wholeText hv

end

/-- What is read for a field from the text that is written for it, which is nothing if it is no
numeral. -/
def FieldReadAs (write : Float → Except Fault String) : Option Float → Option Float → Prop
  | none, v' => v' = none
  | some v, v' => ∃ t, write v = .ok t ∧ v' = Numeral.double? t.toList

section

variable {write : Float → Except Fault String} {v v' : Option Float} {places : Int}

theorem FieldReadAs.exists_number (h : FieldReadAs write v v') {b : Float} (hb : b ∈ v') :
    ∃ a ∈ v, NumberReadAs write a b := by
  cases v with
  | none =>
      obtain rfl : v' = none := h
      cases hb
  | some a =>
      obtain ⟨t, ht, rfl⟩ := h
      exact ⟨a, rfl, t, ht, hb⟩

/-- A field is kept exactly if its number is legible. -/
theorem FieldReadAs.isSome_eq_iff (h : FieldReadAs (numberWord places) v v') :
    v'.isSome = v.isSome ↔ ∀ x ∈ v, Double.isLegible places.toNat x = true := by
  cases v with
  | none =>
      obtain rfl : v' = none := h
      simp
  | some a =>
      obtain ⟨t, ht, rfl⟩ := h
      rw [double?_of_numberWord ht]
      split <;> simp [*]

/-- A speed is kept exactly if it is whole or legible. -/
theorem FieldReadAs.isSome_eq_iff_of_speed (h : FieldReadAs (speedWord places) v v') :
    v'.isSome = v.isSome ↔
      ∀ x ∈ v, Double.isWhole x = false → Double.isLegible places.toNat x = true := by
  cases v with
  | none =>
      obtain rfl : v' = none := h
      simp
  | some a =>
      obtain ⟨t, ht, rfl⟩ := h
      cases hwhole : Double.isWhole a with
      | true =>
          rw [double?_of_isWhole ht hwhole]
          simp [hwhole]
      | false =>
          rw [speedWord, hwhole, if_neg Bool.false_ne_true] at ht
          rw [double?_of_numberWord ht]
          split <;> simp [*]

/-- A field that is kept is what its number is read as. -/
theorem FieldReadAs.eq_map (h : FieldReadAs write v v') (hkept : v'.isSome = v.isSome)
    {f : Float → Float} (hf : ∀ a ∈ v, ∀ b, NumberReadAs write a b → b = f a) : v' = v.map f := by
  cases v' with
  | none =>
      rw [Option.isSome_none, eq_comm, Option.isSome_eq_false_iff, Option.isNone_iff_eq_none]
        at hkept
      rw [hkept, Option.map_none]
  | some b =>
      obtain ⟨a, ha, hab⟩ := h.exists_number rfl
      rw [Option.mem_def.mp ha, Option.map_some, hf a ha b hab]

end

/-! ## Words -/

/-- Words of plain characters. -/
def ArePlain (ws : List (List Char)) : Prop := ∀ w ∈ ws, w ≠ [] ∧ ∀ c ∈ w, isPlain c = true

theorem arePlain_nil : ArePlain [] := List.forall_mem_nil _

theorem arePlain_cons {w : List Char} {ws : List (List Char)} :
    ArePlain (w :: ws) ↔ (w ≠ [] ∧ ∀ c ∈ w, isPlain c = true) ∧ ArePlain ws := List.forall_mem_cons

theorem ArePlain.append {ws vs : List (List Char)} (hws : ArePlain ws) (hvs : ArePlain vs) :
    ArePlain (ws ++ vs) :=
  List.forall_mem_append.mpr ⟨hws, hvs⟩

theorem ArePlain.isWord {ws : List (List Char)} (h : ArePlain ws) : ∀ w ∈ ws, IsWord w :=
  fun w hw => ⟨(h w hw).1, fun c hc => Text.isBlank_of_isPlain ((h w hw).2 c hc)⟩

theorem ArePlain.isPrinted {ws : List (List Char)} (h : ArePlain ws) :
    IsPrinted ([' '].intercalate ws) := by
  intro c hc
  rcases Text.mem_intercalate hc with hc | ⟨w, hw, hc⟩
  · exact .inl (List.mem_singleton.mp hc)
  · exact .inr ((h w hw).2 c hc)

/-! ## Fields -/

/-- A move with a field set, if there is a number for it. -/
def Field.put {α : Type} (field : Field) (v : Option α) (m : Move α) : Move α :=
  match v with
  | none => m
  | some v => field.set v m

/-- Words take a move to another one, and they do so silently exactly under a condition. -/
def Line.Takes (ws : List (List Char)) (m m' : Move Float) (silent : Prop) : Prop :=
  ∀ line, (takeWords line m ws).outcome = .ok m' ∧ ((takeWords line m ws).notices = [] ↔ silent)

theorem Line.takeWords_append (line : String) : ∀ (ws vs : List (List Char)) (m : Move Float),
    takeWords line m (ws ++ vs) = (takeWords line m ws).bind fun m => takeWords line m vs
  | [], vs, m => by rw [List.nil_append, takeWords, Report.of_bind]
  | w :: ws, vs, m => by
      rw [List.cons_append, takeWords, takeWords, Report.bind_bind]
      congr 1
      funext m
      exact takeWords_append line ws vs m

theorem Line.Takes.append {ws vs : List (List Char)} {m m' m'' : Move Float} {silent silent' : Prop}
    (h : Takes ws m m' silent) (h' : Takes vs m' m'' silent') :
    Takes (ws ++ vs) m m'' (silent ∧ silent') := by
  intro line
  obtain ⟨hm, hsilent⟩ := h line
  obtain ⟨hm', hsilent'⟩ := h' line
  rw [takeWords_append, Report.outcome_bind hm, Report.notices_bind hm, List.append_eq_nil_iff,
    hsilent, hsilent']
  exact ⟨hm', Iff.rfl⟩

/-- Words of a field, from which a value is taken.  They are taken silently if there is a value for
each of them. -/
structure WritesField (field : Field) (v v' : Option Float) (ws : List (List Char)) : Prop where
  /-- The words have no spaces or line ends. -/
  plain : ArePlain ws
  /-- The value is taken from the words. -/
  takes : ∀ m : Move Float, Line.Takes ws m (field.put v' m) (v'.isSome = v.isSome)

theorem fieldWord_eq_ok {letter : String} {write : Float → Except Fault String} {v : Option Float}
    {ws : List String} : fieldWord letter write v = .ok ws ↔
      v = none ∧ ws = [] ∨ ∃ x t, v = some x ∧ write x = .ok t ∧ ws = [letter ++ t] := by
  cases v with
  | none => simp [fieldWord, eq_comm]
  | some x =>
      rw [fieldWord, Fault.map_eq_ok]
      simp [eq_comm]

/-- A field is read from its word. -/
theorem exists_writesField {field : Field} {c : Char} {letter : String}
    {write : Float → Except Fault String} {v : Option Float} {ws : List String}
    (hletter : letter.toList = [c]) (hfield : Field.ofLetter? c = some field)
    (hplain : isPlain c = true)
    (hwrite : ∀ {x t}, write x = .ok t → ∀ c ∈ t.toList, isPlain c = true)
    (h : fieldWord letter write v = .ok ws) :
    ∃ v', FieldReadAs write v v' ∧ WritesField field v v' (ws.map String.toList) := by
  rcases fieldWord_eq_ok.mp h with ⟨rfl, rfl⟩ | ⟨x, t, rfl, ht, rfl⟩
  · exact ⟨none, rfl, arePlain_nil, fun m line => ⟨rfl, iff_of_true rfl rfl⟩⟩
  · have hword : (letter ++ t).toList = c :: t.toList := by
      rw [String.toList_append, hletter, List.singleton_append]
    refine ⟨_, ⟨t, ht, rfl⟩, ?_, fun m line => ?_⟩
    · rw [List.map_singleton, arePlain_cons, hword]
      exact ⟨⟨List.cons_ne_nil _ _, List.forall_mem_cons.mpr ⟨hplain, hwrite ht⟩⟩, arePlain_nil⟩
    · rw [List.map_singleton, hword, Line.takeWords, Line.takeWord, hfield]
      dsimp only
      cases Numeral.double? t.toList with
      | none => exact ⟨rfl, iff_of_false (List.cons_ne_nil _ _) Bool.false_ne_true⟩
      | some v => exact ⟨rfl, iff_of_true rfl rfl⟩

/-! ## Moves -/

/-- A move is read from the text of another one: it has the same motion, and each of its fields is
the number that the text of that field stands for.  A speed that is a whole number is the same. -/
structure Move.ReadAs (places : Int) (m m' : Move Float) : Prop where
  /-- The motion is the same. -/
  motion : m'.motion = m.motion
  /-- What is read of the first coordinate. -/
  x : FieldReadAs (numberWord places) m.x m'.x
  /-- What is read of the second coordinate. -/
  y : FieldReadAs (numberWord places) m.y m'.y
  /-- What is read of the depth. -/
  z : FieldReadAs (numberWord places) m.z m'.z
  /-- What is read of the feed. -/
  f : FieldReadAs (numberWord places) m.f m'.f
  /-- What is read of the speed. -/
  s : FieldReadAs (speedWord places) m.s m'.s
  /-- A whole speed is the same. -/
  wholeSpeed : ∀ v ∈ m.s, Double.isWhole v = true → m'.s = some (Double.unsignZero v)

/-- Moves have one shape if they have the same motion and the same fields. -/
theorem Move.map_unit_eq_iff {α β : Type} {m : Move α} {m' : Move β} :
    (m'.map fun _ => ()) = (m.map fun _ => ()) ↔ m'.motion = m.motion ∧
      (((m'.x.isSome = m.x.isSome ∧ m'.y.isSome = m.y.isSome) ∧ m'.z.isSome = m.z.isSome) ∧
        m'.f.isSome = m.f.isSome) ∧ m'.s.isSome = m.s.isSome := by
  have hfield : ∀ {v : Option α} {v' : Option β},
      (v'.map fun _ => ()) = (v.map fun _ => ()) ↔ v'.isSome = v.isSome := by
    intro v v'
    cases v <;> cases v' <;> simp
  rw [map, map, Move.mk.injEq, hfield, hfield, hfield, hfield, hfield, and_assoc, and_assoc,
    and_assoc]

/-- A line without the numbers of its fields. -/
def Line.shape {α : Type} (l : Line α) : Line Unit := l.map fun _ => ()

/-- The numbers of a line that are written with decimal places, which are all but a whole speed. -/
def Line.decimals : Line Float → List Float
  | .move m => m.x.toList ++ m.y.toList ++ m.z.toList ++ m.f.toList
      ++ m.s.toList.filter fun v => !Double.isWhole v
  | .comment _ => []

theorem Line.forall_mem_decimals {m : Move Float} {P : Float → Prop} :
    (∀ v ∈ (Line.move m).decimals, P v) ↔ (((∀ v ∈ m.x, P v) ∧ ∀ v ∈ m.y, P v) ∧ ∀ v ∈ m.z, P v) ∧
      (∀ v ∈ m.f, P v) ∧ ∀ v ∈ m.s, Double.isWhole v = false → P v := by
  simp only [decimals, List.forall_mem_append, List.mem_filter, Option.mem_toList, Option.mem_def,
    and_imp, Bool.not_eq_true', and_assoc]

/-- A move keeps its shape exactly if its numbers with decimal places are legible. -/
theorem Move.ReadAs.map_unit_eq_iff {places : Int} {m m' : Move Float} (h : m.ReadAs places m') :
    (m'.map fun _ => ()) = (m.map fun _ => ()) ↔
      ∀ v ∈ (Line.move m).decimals, Double.isLegible places.toNat v = true := by
  rw [Move.map_unit_eq_iff, h.x.isSome_eq_iff, h.y.isSome_eq_iff, h.z.isSome_eq_iff,
    h.f.isSome_eq_iff, h.s.isSome_eq_iff_of_speed, Line.forall_mem_decimals, and_assoc]
  exact and_iff_right h.motion

theorem Motion.ofOpcode?_word (motion : Motion) : ofOpcode? motion.word.toList = some motion := by
  cases motion <;> decide

theorem Motion.ofOpcode?_semicolon (w : List Char) : ofOpcode? (';' :: w) = none := by
  unfold ofOpcode?
  split
  case h_5 => rfl
  all_goals
    next heq =>
      obtain ⟨rfl, -⟩ := List.cons.inj heq
      rfl

namespace Line

variable {places : Int}

/-- The words of a written move. -/
theorem encode_move_eq_ok {m : Move Float} {t : String} :
    encode places (.move m) = .ok t ↔ ∃ x y z f s, fieldWord "X" (numberWord places) m.x = .ok x ∧
      fieldWord "Y" (numberWord places) m.y = .ok y ∧
      fieldWord "Z" (numberWord places) m.z = .ok z ∧
      fieldWord "F" (numberWord places) m.f = .ok f ∧
      fieldWord "S" (speedWord places) m.s = .ok s ∧
      " ".intercalate (m.motion.word :: x ++ y ++ z ++ f ++ s) = t := by
  simp only [encode, Fault.bind_eq_ok, pure, Except.pure, Except.ok.injEq]
  constructor
  · rintro ⟨x, hx, y, hy, z, hz, f, hf, s, hs, rfl⟩
    exact ⟨x, y, z, f, s, hx, hy, hz, hf, hs, rfl⟩
  · rintro ⟨x, y, z, f, s, hx, hy, hz, hf, hs, rfl⟩
    exact ⟨x, hx, y, hy, z, hz, f, hf, s, hs, rfl⟩

/-- A move is written as plain words after its opcode, from which a move is read. -/
theorem exists_words {m : Move Float} {t : String} (h : encode places (.move m) = .ok t) :
    ∃ words m', t = " ".intercalate (m.motion.word :: words) ∧ ArePlain (words.map String.toList) ∧
      Takes (words.map String.toList) { motion := m.motion } m'
        ((m'.map fun _ => ()) = (m.map fun _ => ())) ∧
      m.ReadAs places m' := by
  obtain ⟨x, y, z, f, s, hx, hy, hz, hf, hs, rfl⟩ := encode_move_eq_ok.mp h
  obtain ⟨x', hx', hxs⟩ := exists_writesField rfl rfl rfl plain_of_numberWord hx
  obtain ⟨y', hy', hys⟩ := exists_writesField rfl rfl rfl plain_of_numberWord hy
  obtain ⟨z', hz', hzs⟩ := exists_writesField rfl rfl rfl plain_of_numberWord hz
  obtain ⟨f', hf', hfs⟩ := exists_writesField rfl rfl rfl plain_of_numberWord hf
  obtain ⟨s', hs', hss⟩ := exists_writesField rfl rfl rfl plain_of_speedWord hs
  refine ⟨x ++ y ++ z ++ f ++ s, ⟨m.motion, x', y', z', f', s'⟩, by simp only [List.cons_append],
    ?_, ?_, rfl, hx', hy', hz', hf', hs', fun v hv hwhole => ?_⟩
  · simp only [List.map_append]
    exact (((hxs.plain.append hys.plain).append hzs.plain).append hfs.plain).append hss.plain
  · have htakes := ((((hxs.takes { motion := m.motion }).append (hys.takes _)).append
      (hzs.takes _)).append (hfs.takes _)).append (hss.takes _)
    simp only [List.map_append, Move.map_unit_eq_iff, true_and]
    refine fun line => ⟨(htakes line).1.trans ?_, (htakes line).2⟩
    cases x' <;> cases y' <;> cases z' <;> cases f' <;> cases s' <;> rfl
  · rw [Option.mem_def.mp hv] at hs'
    obtain ⟨t, ht, rfl⟩ := hs'
    exact double?_of_isWhole ht hwhole

theorem toList_intercalate_opcode {motion : Motion} {words : List String} :
    (" ".intercalate (motion.word :: words)).toList
      = [' '].intercalate ((motion.word :: words).map String.toList) := String.toList_intercalate

theorem arePlain_opcode {motion : Motion} {words : List String}
    (hplain : ArePlain (words.map String.toList)) :
    ArePlain ((motion.word :: words).map String.toList) := by
  rw [List.map_cons, arePlain_cons]
  refine ⟨⟨?_, List.all_eq_true.mp ?_⟩, hplain⟩ <;> cases motion <;> decide

theorem isPrinted_move {m : Move Float} {t : String} (h : encode places (.move m) = .ok t) :
    IsPrinted t.toList := by
  obtain ⟨words, m', rfl, hplain, -⟩ := exists_words h
  rw [toList_intercalate_opcode]
  exact (arePlain_opcode hplain).isPrinted

/-- A line has no break at its end. -/
theorem trimEnd_of_isLine {cs : List Char} (h : IsLine cs) :
    Text.trimEnd (fun c => c = '\r' || c = '\n') cs = cs := by
  refine Text.trimEnd_eq fun c hc => ?_
  rw [Bool.or_eq_false_iff, decide_eq_false_iff_not, decide_eq_false_iff_not]
  constructor <;> rintro rfl <;> cases h _ hc

/-- A move is read from its text, silently if it keeps its shape. -/
theorem decode_move {m : Move Float} {t : String} (h : encode places (.move m) = .ok t) :
    ∃ m', (decode t).outcome = .ok (.move m') ∧
      ((decode t).notices = [] ↔ (m'.map fun _ => ()) = (m.map fun _ => ())) ∧
      m.ReadAs places m' := by
  have htrim := trimEnd_of_isLine (isPrinted_move h).isLine
  obtain ⟨words, m', rfl, hplain, htakes, hread⟩ := exists_words h
  obtain ⟨houtcome, hsilent⟩ := htakes (" ".intercalate (m.motion.word :: words))
  refine ⟨m', ?_, ?_, hread⟩ <;>
    rw [decode, htrim, String.ofList_toList, toList_intercalate_opcode,
      Text.fields_intercalate (arePlain_opcode hplain).isWord, List.map_cons] <;>
    dsimp only <;> rw [Motion.ofOpcode?_word]
  · exact Report.outcome_bind houtcome
  · simp only [Report.notices_bind houtcome, Report.notices_of, List.append_nil, hsilent]

end Line

namespace Move

/-- A move whose numbers were rounded to the decimal places that are written, and with a whole
speed. -/
structure Settled (places : ℕ) (m : Move Float) : Prop where
  /-- The first coordinate is rounded. -/
  x : ∀ v ∈ m.x, Double.Settled places v
  /-- The second coordinate is rounded. -/
  y : ∀ v ∈ m.y, Double.Settled places v
  /-- The depth is rounded. -/
  z : ∀ v ∈ m.z, Double.Settled places v
  /-- The feed is rounded. -/
  f : ∀ v ∈ m.f, Double.Settled places v
  /-- The speed is whole. -/
  s : ∀ v ∈ m.s, Double.isWhole v = true

/-- A move without the signs of zeros. -/
def unsignZeros (m : Move Float) : Move Float where
  motion := m.motion
  x := m.x.map Double.unsignZero
  y := m.y.map Double.unsignZero
  z := m.z.map Double.unsignZero
  f := m.f.map Double.unsignZero
  s := m.s.map Double.unsignZero

/-- A settled move that keeps its shape is read as itself. -/
theorem ReadAs.eq_unsignZeros {places : ℕ} {m m' : Move Float} (h : m.ReadAs places m')
    (hshape : (m'.map fun _ => ()) = (m.map fun _ => ())) (hm : m.Settled places) :
    m' = m.unsignZeros := by
  obtain ⟨hmotion, ⟨⟨⟨hx, hy⟩, hz⟩, hf⟩, hs⟩ := Move.map_unit_eq_iff.mp hshape
  have hspeed : ∀ v ∈ m.s, ∀ w, NumberReadAs (speedWord places) v w → w = Double.unsignZero v := by
    rintro v hv w ⟨t, ht, hread⟩
    exact Option.some.inj (hread.symm.trans (double?_of_isWhole ht (hm.s v hv)))
  have heq : m' = ⟨m'.motion, m'.x, m'.y, m'.z, m'.f, m'.s⟩ := rfl
  rw [heq, unsignZeros, hmotion,
    h.x.eq_map hx fun a ha _ hb => hb.of_settled (hm.x a ha),
    h.y.eq_map hy fun a ha _ hb => hb.of_settled (hm.y a ha),
    h.z.eq_map hz fun a ha _ hb => hb.of_settled (hm.z a ha),
    h.f.eq_map hf fun a ha _ hb => hb.of_settled (hm.f a ha), h.s.eq_map hs hspeed]

end Move

/-! ## Lines -/

namespace Line

variable {places : Int}

/-- A line is read from the text of another one. -/
inductive ReadAs (places : Int) : Line Float → Line Float → Prop
  | move {m m' : Move Float} : m.ReadAs places m' → ReadAs places (.move m) (.move m')
  | comment (text : String) : ReadAs places (.comment text) (.comment text)

/-- A line keeps its shape exactly if its numbers with decimal places are legible. -/
theorem ReadAs.shape_eq_iff {l l' : Line Float} (h : ReadAs places l l') :
    l'.shape = l.shape ↔ ∀ v ∈ l.decimals, Double.isLegible places.toNat v = true := by
  cases h with
  | move hm => exact (Line.move.injEq ..).to_iff.trans hm.map_unit_eq_iff
  | comment text => exact iff_of_true rfl (List.forall_mem_nil _)

/-- A comment that is one line, and not the text of a move. -/
structure SteadyComment (text : String) : Prop where
  /-- The text is one line. -/
  isLine : IsLine text.toList
  /-- It is read as a comment. -/
  decode : Line.decode text = .of (.comment text)

/-- A line that starts with a semicolon is a comment. -/
theorem steadyComment_of_semicolon {text : String} {rest : List Char}
    (htext : text.toList = ';' :: rest) (hline : IsLine text.toList) : SteadyComment text := by
  refine ⟨hline, ?_⟩
  obtain ⟨w, ws, hfields⟩ := Text.exists_fieldsFrom (List.cons_ne_nil ';' []) rest
  have hwords : Text.fields text.toList = (';' :: w) :: ws := by
    rw [htext, Text.fields, Text.fieldsFrom]
    exact hfields
  rw [decode, trimEnd_of_isLine hline, String.ofList_toList, hwords]
  dsimp only
  rw [Motion.ofOpcode?_semicolon]

/-- A line that is no comment which would be read as something else. -/
def Steady : Line Float → Prop
  | .move _ => True
  | .comment text => SteadyComment text

/-- A steady line is written as one line, and is read from it, silently if it keeps its shape. -/
theorem Steady.decode {l : Line Float} (hl : l.Steady) {t : String} (h : l.encode places = .ok t) :
    IsLine t.toList ∧ ∃ l', (Line.decode t).outcome = .ok l' ∧
      ((Line.decode t).notices = [] ↔ l'.shape = l.shape) ∧ l.ReadAs places l' := by
  cases l with
  | move m =>
      obtain ⟨m', hm', hsilent, hread⟩ := decode_move h
      exact ⟨(isPrinted_move h).isLine, _, hm', hsilent.trans (Line.move.injEq ..).to_iff.symm,
        .move hread⟩
  | comment text =>
      obtain rfl : text = t := Except.ok.inj h
      obtain ⟨hline, hdecode⟩ : SteadyComment text := hl
      refine ⟨hline, .comment text, ?_, ?_, .comment text⟩
      · rw [hdecode, Report.outcome_of]
      · rw [hdecode]
        exact iff_of_true rfl rfl

/-- A line without the signs of zeros. -/
def unsignZeros : Line Float → Line Float
  | .move m => .move m.unsignZeros
  | .comment text => .comment text

end Line

/-! ## Programs -/

namespace Program

variable {places : Int}

theorem format_eq_ok {p : Program Float} {written : String} :
    p.format places = .ok written ↔
      ∃ ts, List.Forall₂ (fun l t => Line.encode places l = .ok t) p ts ∧
      String.join (ts.map (· ++ lineEnd)) = written := by
  rw [format, encodeLines, Fault.map_eq_ok]
  simp only [Fault.mapM_eq_ok]

/-- The lines of a program are those of its text. -/
theorem lines_join {ts : List String} (h : ∀ t ∈ ts, IsLine t.toList) :
    Text.lines (String.join (ts.map (· ++ lineEnd))).toList = ts.map String.toList := by
  have hlines : Text.lines ((ts.map String.toList).flatMap (· ++ ['\r', '\n']))
      = ts.map String.toList := Text.lines_flatMap (by simpa using h)
  rw [List.flatMap_map] at hlines
  rw [String.toList_join, List.flatMap_map, ← hlines]
  congr 2
  funext t
  exact String.toList_append

/-- A program with comments of ASCII is written in ASCII. -/
theorem isAscii_format {p : Program Float} (hp : ∀ t, .comment t ∈ p → IsAscii t.toList)
    {written : String} (h : p.format places = .ok written) : IsAscii written.toList := by
  obtain ⟨ts, hts, rfl⟩ := format_eq_ok.mp h
  have hlines : ∀ t ∈ ts, IsAscii t.toList := by
    clear h
    induction hts with
    | nil => simp
    | @cons l t p ts hl _ ih =>
        refine List.forall_mem_cons.mpr ⟨?_, ih fun t ht => hp t (List.mem_cons_of_mem _ ht)⟩
        cases l with
        | move m => exact (Line.isPrinted_move hl).isAscii
        | comment text =>
            obtain rfl : text = t := Except.ok.inj hl
            exact hp text (List.mem_cons_self ..)
  intro c hc
  rw [String.toList_join, List.flatMap_map, List.mem_flatMap] at hc
  obtain ⟨t, ht, hc⟩ := hc
  rw [String.toList_append, List.mem_append] at hc
  rcases hc with hc | hc
  · exact hlines t ht c hc
  · have hend : IsAscii lineEnd.toList := by decide
    exact hend c hc

/-- A program of steady lines is read from its text, silently if it keeps its shape. -/
theorem parse_format {p : Program Float} (hp : ∀ l ∈ p, l.Steady) {written : String}
    (h : p.format places = .ok written) :
    ∃ q, (parse written).outcome = .ok q ∧
      ((parse written).notices = [] ↔ q.map Line.shape = p.map Line.shape) ∧
      List.Forall₂ (Line.ReadAs places) p q := by
  obtain ⟨ts, hts, rfl⟩ := format_eq_ok.mp h
  have hread : (∀ t ∈ ts, IsLine t.toList) ∧ ∃ q, (ofTexts (ts.map String.toList)).outcome = .ok q ∧
      ((ofTexts (ts.map String.toList)).notices = [] ↔ q.map Line.shape = p.map Line.shape) ∧
      List.Forall₂ (Line.ReadAs places) p q := by
    clear h
    induction hts with
    | nil => exact ⟨by simp, [], rfl, iff_of_true rfl rfl, .nil⟩
    | @cons l t p ts hl _ ih =>
        obtain ⟨hsteady, hp⟩ := List.forall_mem_cons.mp hp
        obtain ⟨hlines, q, hq, hsilent, hpq⟩ := ih hp
        obtain ⟨hline, l', hl', hsilent', hread⟩ := hsteady.decode hl
        refine ⟨List.forall_mem_cons.mpr ⟨hline, hlines⟩, l' :: q, ?_, ?_, .cons hread hpq⟩ <;>
          rw [List.map_cons, ofTexts, String.ofList_toList]
        · rw [Report.outcome_bind hl', Report.outcome_bind hq, Report.outcome_of]
        · rw [Report.notices_bind hl', Report.notices_bind hq, Report.notices_of, List.append_nil,
            List.append_eq_nil_iff, hsilent, hsilent', List.map_cons, List.map_cons,
            List.cons.injEq]
  obtain ⟨hlines, q, hq, hsilent, hpq⟩ := hread
  rw [parse, lines_join hlines]
  exact ⟨q, hq, hsilent, hpq⟩

/-- A program keeps its shape exactly if its numbers with decimal places are legible. -/
theorem shape_eq_iff {p q : Program Float} (h : List.Forall₂ (Line.ReadAs places) p q) :
    q.map Line.shape = p.map Line.shape ↔
      ∀ l ∈ p, ∀ v ∈ l.decimals, Double.isLegible places.toNat v = true := by
  induction h with
  | nil => simp
  | cons hl _ ih =>
      rw [List.map_cons, List.map_cons, List.cons.injEq, List.forall_mem_cons, hl.shape_eq_iff, ih]

/-- A program of steady lines and settled moves is read as itself if its numbers with decimal places
are legible, and otherwise not silently. -/
theorem parse_format_of_settled {places : ℕ} {p : Program Float} (hp : ∀ l ∈ p, l.Steady)
    (hsettled : ∀ m, .move m ∈ p → m.Settled places) {written : String}
    (h : p.format places = .ok written) :
    parse written = .of (p.map Line.unsignZeros) ↔
      ∀ l ∈ p, ∀ v ∈ l.decimals, Double.isLegible places v = true := by
  obtain ⟨q, hq, hsilent, hpq⟩ := parse_format hp h
  rw [shape_eq_iff hpq, Int.toNat_natCast] at hsilent
  constructor
  · intro hread
    exact hsilent.mp (congrArg Report.notices hread)
  · intro hlegible
    suffices heq : q = p.map Line.unsignZeros from heq ▸ Report.eq_of (hsilent.mpr hlegible) hq
    clear hsilent hq h hp
    induction hpq with
    | nil => rfl
    | @cons l l' p q hl _ ih =>
        obtain ⟨hline, hlines⟩ := List.forall_mem_cons.mp hlegible
        rw [List.map_cons, ih (fun m hm => hsettled m (List.mem_cons_of_mem _ hm)) hlines]
        cases hl with
        | comment text => rfl
        | @move m m' hm =>
            rw [hm.eq_unsignZeros (hm.map_unit_eq_iff.mpr hline)
              (hsettled m (List.mem_cons_self ..))]
            rfl

end Program

end WireErosion
