import WireErosion.Proofs.Program.RoundTrip
import WireErosion.Proofs.Toolpath.Group

/-!
# A compiled program is read as it is written

The numbers of a compiled program are rounded to decimal places, but for the speed, which is that of
the tool wherever there is one (`ToolpathParams.keepsSpeed_plan`).  So a program with a whole speed
and legible numbers is the same, but for the signs of zeros, when it is written with as many places
and read again (`ToolpathParams.parse_format_compile`).  It is all ASCII, so nothing changes on the
way through a file either.

A compiled program starts with a rise, so it has a number with decimal places and cannot be written
with too many of them (`manyPlaces_unwritten`).
-/

namespace WireErosion

variable {α : Type}

/-! ## Speeds -/

/-- A planned line has no other speed than the given one. -/
def KeepsSpeed (speed : Option α) : Planned α → Prop
  | .ok (.move m) => ∀ s ∈ m.s, s ∈ speed
  | _ => True

section

variable {speed : Option α}

theorem keepsSpeed_without {m : Move α} (h : m.s = none) : KeepsSpeed speed (planMove m) := by
  rintro s hs
  rw [h] at hs
  cases hs

theorem keepsSpeed_with {m : Move α} (h : m.s = speed) : KeepsSpeed speed (planMove m) :=
  fun _ hs => h ▸ hs

theorem keepsSpeed_retractLines (z : α) : ∀ l ∈ retractLines z, KeepsSpeed speed l :=
  List.forall_mem_cons.mpr ⟨trivial, List.forall_mem_singleton.mpr (keepsSpeed_without rfl)⟩

theorem keepsSpeed_travelLines (p : Point α) (z : α) :
    ∀ l ∈ travelLines p z, KeepsSpeed speed l :=
  List.forall_mem_cons.mpr ⟨trivial, List.forall_mem_cons.mpr
    ⟨keepsSpeed_without rfl, List.forall_mem_singleton.mpr (keepsSpeed_without rfl)⟩⟩

end

variable [Scalar α]

section

variable {d : DescentParams α}

theorem keepsSpeed_rampMoves (fromZ toZ total : α) : ∀ (travelled : α) (a : Point α)
    (ps : List (Point α)), ∀ l ∈ rampMoves fromZ toZ total travelled a ps, KeepsSpeed d.toolSpeed l
  | _, _, [] => List.forall_mem_nil _
  | _, _, _ :: ps =>
      List.forall_mem_cons.mpr ⟨keepsSpeed_without rfl, keepsSpeed_rampMoves fromZ toZ total _ _ ps⟩

theorem keepsSpeed_rampFrom (fromZ toZ total time : α) (a : Point α) (ps : List (Point α)) :
    ∀ l ∈ rampFrom d fromZ toZ total time a ps, KeepsSpeed d.toolSpeed l := by
  cases ps with
  | nil => exact List.forall_mem_nil _
  | cons b ps =>
      rw [rampFrom, List.forall_mem_cons]
      refine ⟨?_, keepsSpeed_rampMoves fromZ toZ total _ _ ps⟩
      cases Scalar.quotient total time with
      | error f => trivial
      | ok most => exact keepsSpeed_with rfl

theorem keepsSpeed_descent (a : Point α) (rest : List (Point α)) (fromZ toZ : α) :
    ∀ l ∈ descent d a rest fromZ toZ, KeepsSpeed d.toolSpeed l := by
  have hstraight : ∀ l ∈ straightDown d toZ, KeepsSpeed d.toolSpeed l :=
    List.forall_mem_cons.mpr ⟨trivial, List.forall_mem_singleton.mpr (keepsSpeed_with rfl)⟩
  rw [descent]
  split
  next =>
    rw [ramp?]
    split
    next => exact List.forall_mem_singleton.mpr trivial
    next =>
      dsimp only
      split
      next => exact hstraight
      next => exact List.forall_mem_cons.mpr ⟨trivial, keepsSpeed_rampFrom _ _ _ _ _ _⟩
  next => exact hstraight

end

namespace ToolpathParams

variable {c : ToolpathParams α}

omit [Scalar α] in
theorem keepsSpeed_cutMoves (ps : List (Point α)) :
    ∀ l ∈ c.cutMoves ps, KeepsSpeed c.descents.toolSpeed l := by
  cases ps with
  | nil => exact List.forall_mem_nil _
  | cons p ps =>
      refine List.forall_mem_cons.mpr ⟨keepsSpeed_with rfl, fun l hl => ?_⟩
      obtain ⟨q, -, rfl⟩ := List.mem_map.mp hl
      exact keepsSpeed_without rfl

theorem keepsSpeed_entryLines (tabTop : α) (a : Point α) (rest : List (Point α)) (fromZ toZ : α) :
    ∀ l ∈ c.entryLines tabTop a rest fromZ toZ, KeepsSpeed c.descents.toolSpeed l := by
  rw [entryLines]
  split
  next => exact keepsSpeed_descent a rest fromZ toZ
  next =>
    split
    next =>
      exact List.forall_mem_cons.mpr
        ⟨trivial, List.forall_mem_singleton.mpr (keepsSpeed_without rfl)⟩
    next => exact List.forall_mem_nil _

theorem keepsSpeed_runLines (tabTop next : α) : ∀ (runs : List (List (Point α))) (inside : Bool)
    (z : α), ∀ l ∈ (c.runLines tabTop next inside z runs).1, KeepsSpeed c.descents.toolSpeed l
  | [], _, _ => List.forall_mem_nil _
  | [] :: runs, inside, z => keepsSpeed_runLines tabTop next runs (!inside) z
  | (a :: rest) :: runs, inside, z => by
      rw [runLines]
      dsimp only
      rw [List.append_assoc, List.forall_mem_append, List.cons_append, List.forall_mem_cons,
        List.forall_mem_append]
      refine ⟨?_, trivial, keepsSpeed_cutMoves rest, keepsSpeed_runLines tabTop next runs _ _⟩
      split
      next => exact List.forall_mem_nil _
      next => exact keepsSpeed_entryLines tabTop a rest z _

theorem keepsSpeed_passLines (tabs : Option (Tabs α)) (path : ReadyPath α) (z : α) (pass : Pass α) :
    ∀ l ∈ (c.passLines tabs path z pass).1, KeepsSpeed c.descents.toolSpeed l := by
  rw [passLines_eq, approachLines]
  dsimp only
  simp only [List.forall_mem_append]
  refine ⟨⟨?_, keepsSpeed_travelLines _ _⟩, keepsSpeed_runLines _ _ _ _ _⟩
  split
  next => exact keepsSpeed_retractLines _
  next => exact List.forall_mem_nil _

theorem keepsSpeed_passesLines (tabs : Option (Tabs α)) (path : ReadyPath α) :
    ∀ (passes : List (Pass α)) (z : α),
      ∀ l ∈ c.passesLines tabs path z passes, KeepsSpeed c.descents.toolSpeed l
  | [], _ => List.forall_mem_nil _
  | pass :: passes, z => by
      rw [passesLines]
      exact List.forall_mem_append.mpr
        ⟨keepsSpeed_passLines tabs path z pass, keepsSpeed_passesLines tabs path passes _⟩

theorem keepsSpeed_pathsLines (tabs : Option (Tabs α)) : ∀ (paths : List (CamPath α)) (i : Nat),
    ∀ l ∈ c.pathsLines tabs i paths, KeepsSpeed c.descents.toolSpeed l
  | [], _ => List.forall_mem_nil _
  | path :: paths, i => by
      rw [pathsLines, pathLines, List.forall_mem_append]
      refine ⟨?_, keepsSpeed_pathsLines tabs paths _⟩
      split
      next => exact List.forall_mem_nil _
      next =>
        simp only [List.cons_append, List.forall_mem_cons, List.forall_mem_append]
        exact ⟨trivial, trivial, keepsSpeed_passesLines tabs _ _ _, keepsSpeed_retractLines _⟩

/-- The only speed in a toolpath is that of the tool. -/
theorem keepsSpeed_plan (paths : List (CamPath α)) :
    ∀ l ∈ c.plan paths, KeepsSpeed c.descents.toolSpeed l := by
  rw [plan]
  exact List.forall_mem_append.mpr
    ⟨keepsSpeed_retractLines _, keepsSpeed_pathsLines _ paths 0⟩

end ToolpathParams

/-! ## Moves -/

/-- A move of a compiled program has rounded numbers, and no other speed than that of the tool. -/
theorem ToolpathParams.exists_roundsMove {c : ToolpathParams α} {paths : List (CamPath α)}
    {p : Program α} (h : c.compile paths = .ok p) {m' : Move α} (hm' : .move m' ∈ p) :
    ∃ m, RoundsMove c.round m m' ∧ ∀ s ∈ m'.s, s ∈ c.descents.toolSpeed := by
  have hplan : Rounds c.round (c.plan paths) p := Fault.mapM_eq_ok.mp h
  obtain ⟨m, hplanned, hm⟩ := hplan.exists_move hm'
  refine ⟨m, hm, ?_⟩
  rw [hm.s]
  exact c.keepsSpeed_plan paths _ hplanned

/-! ## Comments -/

omit [Scalar α] in
/-- The comments of a group are printed, and they are blank or start with a semicolon. -/
theorem MoveGroup.of_mem_comments {g : MoveGroup α} {t : String} (h : .comment t ∈ g.comments) :
    Text.IsPrinted t.toList ∧ (t = "" ∨ ∃ rest, t.toList = ';' :: rest) := by
  cases g <;> simp only [comments, Line.retract, Line.blank, Line.pathStart, Line.rapidToStart,
    Line.plunge, Line.ramp, Line.retractForTab, Line.cut, List.mem_cons, List.not_mem_nil, or_false,
    Line.comment.injEq] at h
  case header i =>
    rcases h with rfl | rfl
    · exact ⟨by simp [Text.IsPrinted], .inl rfl⟩
    · rw [toList_ofPath]
      have hmarker : Text.IsPrinted Marker.path.toList := by decide
      refine ⟨List.forall_mem_append.mpr ⟨hmarker, fun c hc => .inr ?_⟩, .inr ⟨_, rfl⟩⟩
      exact Text.isPlain_of_isDigit (Nat.isDigit_of_mem_toDigits (by decide) (by decide) hc)
  all_goals
    subst h
    refine ⟨?_, .inr ⟨_, rfl⟩⟩
    decide

/-- The comments of a compiled program are steady, and in ASCII. -/
theorem ToolpathParams.comment_of_compile {c : ToolpathParams α} {paths : List (CamPath α)}
    {p : Program α} (h : c.compile paths = .ok p) {t : String} (ht : .comment t ∈ p) :
    Line.SteadyComment t ∧ Text.IsAscii t.toList := by
  obtain ⟨rise, parts, rfl, -⟩ := exists_groups h
  obtain ⟨g, -, hg⟩ := List.mem_flatMap.mp ht
  rw [MoveGroup.lines, List.mem_append] at hg
  rcases hg with hg | hg
  · obtain ⟨hprinted, rfl | ⟨rest, hrest⟩⟩ := MoveGroup.of_mem_comments hg
    · exact ⟨⟨hprinted.isLine, rfl⟩, hprinted.isAscii⟩
    · exact ⟨Line.steadyComment_of_semicolon hrest hprinted.isLine, hprinted.isAscii⟩
  · obtain ⟨m, -, hm⟩ := List.mem_map.mp hg
    cases hm

/-! ## Programs -/

/-- The numbers of a line. -/
def Line.numbers {α : Type} : Line α → List α
  | .move m => m.x.toList ++ m.y.toList ++ m.z.toList ++ m.f.toList ++ m.s.toList
  | .comment _ => []

/-- Finite numbers that were rounded to decimal places, and a whole speed, are read as themselves.
-/
theorem RoundsMove.settled {places : ℕ} {m m' : Move Float}
    (h : RoundsMove (Scalar.roundTo places) m m')
    (hfinite : ∀ v ∈ (Line.move m').numbers, Double.isFinite v = true)
    (hspeed : ∀ s ∈ m'.s, Double.isWhole s = true) : m'.Settled places := by
  have hround : ∀ {v v' : Option Float}, roundField (Scalar.roundTo places) v = .ok v' →
      ∀ u ∈ v', Double.isFinite u = true → Double.Settled places u := by
    intro v v' hv u hu hfin
    subst hu
    cases v with
    | none => cases hv
    | some a =>
        obtain ⟨b, hb, hub⟩ := roundField_eq_some hv
        obtain rfl := Option.some.inj hub
        unfold Scalar.roundTo instScalarFloat at hb
        dsimp only at hb
        split at hb
        next y hy =>
          cases hb
          exact Double.settled_of_roundTo hy hfin
        next => cases hb
  simp only [Line.numbers, List.mem_append, Option.mem_toList] at hfinite
  exact {
    x := fun v hv => hround h.x v hv (hfinite v (.inl (.inl (.inl (.inl hv)))))
    y := fun v hv => hround h.y v hv (hfinite v (.inl (.inl (.inl (.inr hv)))))
    z := fun v hv => hround h.z v hv (hfinite v (.inl (.inl (.inr hv))))
    f := fun v hv => hround h.f v hv (hfinite v (.inl (.inr hv)))
    s := hspeed }

namespace ToolpathParams

variable {c : ToolpathParams Float} {places : ℕ} {paths : List (CamPath Float)} {p : Program Float}

/-- A compiled program can be written if the decimal places are not too many, and if its numbers
with a sign are legible. -/
theorem exists_format_compile (h : c.compile paths = .ok p) :
    (∃ text, p.format places = .ok text) ↔ (places : Int) ≤ mostWrittenPlaces ∧
      ∀ l ∈ p, ∀ v ∈ l.decimals, Double.isSigned v = true → Double.isLegible places v = true := by
  rw [Program.exists_format_iff (Int.natCast_nonneg places), Int.toNat_natCast]
  constructor
  · intro hwritable
    refine ⟨?_, fun l hl v hv => (hwritable l hl v hv).legible⟩
    obtain ⟨rise, parts, rfl, hrise, -⟩ := exists_groups h
    obtain ⟨z, -, hz⟩ := roundField_eq_some hrise.z
    refine (hwritable (.move rise) ?_ z ?_).places_le
    · simp [MoveGroup.lines, MoveGroup.moves]
    · simp [Line.decimals, hz]
  · rintro ⟨hle, hlegible⟩ l hl v hv
    exact ⟨hle, hlegible l hl v hv⟩

/-- A compiled program with finite numbers and a whole speed can be written with the decimal
places that its numbers are rounded to, if these are not too many and the numbers with a sign are
legible.  It is the same when it is read from its text, or from a file that it was written to, but
for the signs of zeros, exactly if all numbers with decimal places are legible.  They are if the
decimal places are 309 less than the digits that are read. -/
theorem parse_format_compile (hround : c.round = Scalar.roundTo places)
    (hspeed : ∀ s ∈ c.descents.toolSpeed, Double.isWhole s = true)
    (hcompile : c.compile paths = .ok p)
    (hfinite : ∀ l ∈ p, ∀ v ∈ l.numbers, Double.isFinite v = true) :
    ((∃ text, p.format places = .ok text) ↔ (places : Int) ≤ mostWrittenPlaces ∧
      ∀ l ∈ p, ∀ v ∈ l.decimals, Double.isSigned v = true → Double.isLegible places v = true) ∧
    (∀ text, p.format places = .ok text →
      (Program.parse text = .of (p.map Line.unsignZeros) ↔
        ∀ l ∈ p, ∀ v ∈ l.decimals, Double.isLegible places v = true) ∧
      Program.parse (readAscii (asciiText text).toUTF8) = Program.parse text) ∧
    (places + 309 ≤ Numeral.mostDoubleDigits → ∀ v, Double.isLegible places v = true) := by
  refine ⟨exists_format_compile hcompile, fun text htext => ?_, Double.isLegible_of_le⟩
  have hsteady : ∀ l ∈ p, l.Steady := by
    intro l hl
    cases l with
    | move m => trivial
    | comment t => exact (comment_of_compile hcompile hl).1
  have hsettled : ∀ m, .move m ∈ p → m.Settled places := by
    intro m' hm'
    obtain ⟨m, hm, hs⟩ := exists_roundsMove hcompile hm'
    rw [hround] at hm
    exact hm.settled (hfinite _ hm') fun s hs' => hspeed s (hs s hs')
  refine ⟨Program.parse_format_of_settled hsteady hsettled htext, ?_⟩
  have hascii := Program.isAscii_format (fun t ht => (comment_of_compile hcompile ht).2) htext
  rw [asciiText_eq hascii, readAscii_toUTF8 hascii, Program.parse, String.toList_ofList,
    Text.lines_unifyBreaks]
  rfl

end ToolpathParams

/-! ## A groove -/

/-- One pass along a path, rounded to decimal places. -/
def grooveToolpath (places : ℕ) : ToolpathParams Float where
  topZ := 0
  bottomZ := -1
  safeZ := 5
  passDepth := 1
  descents := ⟨false, 50, 200, some 1000⟩
  lengthScale := 1
  usePathZ := false
  offsetX := 0
  offsetY := 0
  tabs := none
  tabZ := none
  round := Scalar.roundTo places

/-- A straight path. -/
def groovePath : CamPath Float := ⟨[⟨0, 0, 0⟩, ⟨10, 0, 0⟩], false⟩

/-- A straight path is written with three decimal places and read again. -/
theorem grooveToolpath_parse_format : ∃ p text, (grooveToolpath 3).compile [groovePath] = .ok p ∧
    (∀ l ∈ p, ∀ v ∈ l.numbers, Double.isFinite v = true) ∧ Program.format 3 p = .ok text ∧
    Program.parse text = .of (p.map Line.unsignZeros) := by
  obtain ⟨p, hp⟩ : ∃ p, (grooveToolpath 3).compile [groovePath] = .ok p := ⟨_, rfl⟩
  have hfinite : ∀ l ∈ p, ∀ v ∈ l.numbers, Double.isFinite v = true := by
    obtain rfl : _ = p := Except.ok.inj hp
    decide +kernel
  obtain ⟨hwritten, hread, hlegible⟩ := ToolpathParams.parse_format_compile
    (c := grooveToolpath 3) rfl (by decide +kernel) hp hfinite
  have hlegible := hlegible (by decide)
  obtain ⟨text, htext⟩ := hwritten.mpr ⟨by decide, fun _ _ v _ _ => hlegible v⟩
  exact ⟨p, text, hp, hfinite, htext, (hread text htext).1.mpr fun _ _ v _ => hlegible v⟩

/-- A groove with more decimal places than can be written. -/
theorem manyPlaces_unwritten : ∃ p, (grooveToolpath 2147483648).compile [groovePath] = .ok p ∧
    (∀ l ∈ p, ∀ v ∈ l.numbers, Double.isFinite v = true) ∧
    Program.format 2147483648 p = .error .badPlaces := by
  refine ⟨_, rfl, ?_, rfl⟩
  decide +kernel

end WireErosion
