import WireErosion.Proofs.Wear.Cut
import WireErosion.Proofs.Wear.Replacing

/-!
# The rises of compensated strokes

A `Stroke` is one pass over one path, by its vertices and its depths.  After compensation its
descent ends where the cut before it ended, or at the depth of the pass if it goes on without a
rise, and its cut starts at the depth of one pass below zero.  So there are two places where the
depth may rise: at the last move of the descent, and at the first move of the cut.  `Stroke.rises`
counts them.

`bodyRises_placedLines` says that the depth check counts these, and `Descends` is the condition that
there are none.
-/

namespace WireErosion

/-! ## Strokes -/

/-- One pass over one path. -/
structure Stroke where
  /-- What comes before its travel. -/
  lead : Lead
  /-- The first vertex. -/
  start : Point ℝ
  /-- The vertices after it, which the cut goes through. -/
  rest : List (Point ℝ)
  /-- The pass. -/
  pass : Pass ℝ

namespace Stroke

/-- The depth before the last move of the descent. -/
noncomputable def approach (d : DescentParams ℝ) (s : Stroke) : ℝ :=
  approachZ d s.start s.rest s.pass.finished s.pass.next

/-- The depth that the descent ends at after compensation, where `before` is the depth that the cut
before it ended at. -/
noncomputable def bottom (before : Option ℝ) (s : Stroke) : ℝ :=
  if s.lead = .resumed then s.pass.next else before.getD s.pass.next

/-- The number of rises in a compensated stroke: one if the descent ends above the depth before its
last move, and one if the cut starts above the end of the descent. -/
noncomputable def rises (d : DescentParams ℝ) (passDepth : ℝ) (before : Option ℝ) (s : Stroke) :
    Nat :=
  (if s.approach d < s.bottom before then 1 else 0)
    + if s.rest ≠ [] ∧ s.bottom before < -passDepth then 1 else 0

end Stroke

/-- The number of rises in compensated strokes. -/
noncomputable def strokeRises (d : DescentParams ℝ) (ratio passDepth : ℝ) (before : Option ℝ) :
    List Stroke → Nat
  | [] => 0
  | s :: ss => s.rises d passDepth before
      + strokeRises d ratio passDepth (some (wornDepth ratio passDepth s.rest)) ss

/-- Every descent ends at or below the depth before its last move, and every cut starts at or below
the end of the descent. -/
def Descends (d : DescentParams ℝ) (ratio passDepth : ℝ) (before : Option ℝ) :
    List Stroke → Prop
  | [] => True
  | s :: ss => s.bottom before ≤ s.approach d ∧ (s.rest ≠ [] → -passDepth ≤ s.bottom before) ∧
      Descends d ratio passDepth (some (wornDepth ratio passDepth s.rest)) ss

theorem Stroke.rises_eq_zero {d : DescentParams ℝ} {passDepth : ℝ} {before : Option ℝ}
    {s : Stroke} : s.rises d passDepth before = 0 ↔
      s.bottom before ≤ s.approach d ∧ (s.rest ≠ [] → -passDepth ≤ s.bottom before) := by
  unfold rises
  rw [Nat.add_eq_zero_iff]
  refine and_congr ?_ ?_
  · split_ifs with h
    · simp [h]
    · simp [not_lt.mp h]
  · split_ifs with h
    · simp [h.1, h.2]
    · rw [not_and, not_lt] at h
      simpa using h

theorem strokeRises_eq_zero {d : DescentParams ℝ} {ratio passDepth : ℝ} :
    ∀ {before : Option ℝ} {ss : List Stroke},
      strokeRises d ratio passDepth before ss = 0 ↔ Descends d ratio passDepth before ss
  | _, [] => by simp [strokeRises, Descends]
  | before, s :: ss => by
      rw [strokeRises, Descends, Nat.add_eq_zero_iff, Stroke.rises_eq_zero, strokeRises_eq_zero,
        and_assoc]

/-! ## The moves of a stroke -/

/-- The moves of a stroke and its compensated cut, with the depths that they have. -/
structure Realizes (d : DescentParams ℝ) (w : WearParams ℝ) (s : Stroke)
    (moves : StrokeMoves ℝ × CutBlock ℝ) : Prop where
  /-- The moves start as the stroke does. -/
  lead : moves.1.lead = s.lead
  /-- They are of the kinds that the compiler makes them. -/
  regular : moves.1.Regular
  /-- The travel keeps the depth. -/
  travel : moves.1.travel.z = none
  /-- The stroke is entered at the finished depth. -/
  entry : moves.1.entry.z = some s.pass.finished
  /-- The descent falls to the depth before its last move. -/
  sink : Falls s.pass.finished moves.1.sink (s.approach d)
  /-- The descent ends at the depth of the pass. -/
  terminal : moves.1.terminal.z = some s.pass.next
  /-- The cut is compensated. -/
  compensate : CutBlock.compensate w moves.1.cutBlock = .ok moves.2
  /-- The compensated cut goes down as the tool wears. -/
  worn : ∃ worn, moves.2
      = ⟨.cut :: worn.map .move, some (wornDepth w.ratio w.passDepth s.rest)⟩ ∧
    WornMoves w.passDepth s.rest (wornDepth w.ratio w.passDepth s.rest) worn

namespace StrokeMoves

/-- The last move of the descent, at the depth that it has after compensation. -/
def resumedTerminal (s : StrokeMoves ℝ) (after : Option (Option ℝ)) : Move ℝ :=
  { s.terminal with z := if s.lifts then after.getD s.terminal.z else s.terminal.z }

/-- The depths of a placed descent are those of the descent, with its last one replaced. -/
theorem sameDepth_placed (s : StrokeMoves ℝ) (feeds : PlungeFeeds ℝ) (after : Option (Option ℝ)) :
    List.Forall₂ SameDepth (PlungeBlock.lines s.opening ++ [.move (s.resumedTerminal after)])
      (s.placed feeds after) := by
  unfold placed
  split
  next hlifts =>
    refine List.rel_append ?_ (.cons (.move ?_) .nil)
    · rw [PlungeBlock.lines, PlungeBlock.lines, List.forall₂_map_left_iff, List.map_map,
        List.forall₂_map_right_iff]
      refine List.forall₂_same.mpr fun step _ => ?_
      obtain ⟨line, role⟩ := step
      cases role with
      | none => exact .refl line
      | some role =>
          cases line with
          | move m => exact .move rfl
          | comment t => exact .comment t
    · simp [terminalAt, resumedTerminal, hlifts]
  next hlifts =>
    have hlines : s.descent.lines = PlungeBlock.lines s.opening ++ [.move s.terminal] := by
      rw [descent, PlungeBlock.lines, List.map_append]
      rfl
    rw [hlines]
    refine List.rel_append (List.forall₂_same.mpr fun l _ => .refl l) (.cons (.move ?_) .nil)
    simp [resumedTerminal, hlifts]

theorem kind_leadSteps {s : StrokeMoves ℝ} {l : Line ℝ}
    (h : l ∈ PlungeBlock.lines s.leadSteps) : l.kind ≠ .rapidToStart := by
  obtain ⟨step, hstep, rfl⟩ := List.mem_map.mp h
  rcases (mem_leadSteps hstep).2 with rfl | rfl | rfl | ⟨i, rfl⟩ <;> simp

/-- Whatever the depth before a stroke is, its travel ends the comparison with it. -/
theorem riseCount_lead {s : StrokeMoves ℝ} (htravel : s.travel.z = none) (before : Option ℝ)
    (p : Program ℝ) :
    riseCount before (PlungeBlock.lines s.leadSteps ++ Line.rapidToStart :: .move s.travel :: p)
      = riseCount none p := by
  have hrise : ∀ q : Program ℝ, riseCount before (.retract :: .move s.rise :: q)
      = riseCount s.rise.z q := by
    intro q
    have hretract : Comment.kind Marker.retract = .retract := Line.kind_retract (α := ℝ)
    rw [Line.retract, riseCount_retract (.inl hretract), riseCount_move]
    simp [riseAt?]
  have hstart : ∀ depth : Option ℝ, riseCount depth (.rapidToStart :: .move s.travel :: p)
      = riseCount none p := by
    intro depth
    have hkind : Comment.kind Marker.rapidToStart = .rapidToStart :=
      Line.kind_rapidToStart (α := ℝ)
    rw [Line.rapidToStart, riseCount_comment (by simp [hkind]), riseCount_level htravel]
  unfold leadSteps
  cases s.lead with
  | newPath i =>
      have hblank : Comment.kind "" = .generic := Line.kind_blank (α := ℝ)
      have hpath : Comment.kind (Comment.ofPath i) = .path := Line.kind_pathStart (α := ℝ) i
      simp only [PlungeBlock.lines, List.map_cons, List.map_nil, List.cons_append, List.nil_append]
      rw [hrise, Line.blank, riseCount_comment (by simp [hblank]), Line.pathStart,
        riseCount_comment (by simp [hpath]), hstart]
  | lifted =>
      simp only [PlungeBlock.lines, List.map_cons, List.map_nil, List.cons_append, List.nil_append]
      rw [hrise, hstart]
  | resumed => exact hstart before

end StrokeMoves

/-! ## The count -/

section

variable {d : DescentParams ℝ} {w : WearParams ℝ} {s : Stroke}
variable {moves : StrokeMoves ℝ × CutBlock ℝ}

/-- The depth of the last move of the descent after compensation. -/
theorem Realizes.resumedTerminal_z (h : Realizes d w s moves) (before : Option ℝ) :
    (moves.1.resumedTerminal (before.map some)).z = some (s.bottom before) := by
  rw [StrokeMoves.resumedTerminal, Stroke.bottom, StrokeMoves.lifts, h.lead, h.terminal]
  by_cases hlead : s.lead = .resumed
  · simp [hlead]
  · cases before <;> simp [hlead]

/-- The cut of a stroke counts once if it starts above the depth before it. -/
theorem Realizes.riseCount_cut (h : Realizes d w s moves) (before : ℝ) (p : Program ℝ) :
    ∃ depth, riseCount (some before) (moves.2.lines ++ p) =
      (if s.rest ≠ [] ∧ before < -w.passDepth then 1 else 0) + riseCount (some depth) p := by
  obtain ⟨worn, hlines, hworn⟩ := h.worn
  have hkind : Comment.kind Marker.cut = .cut := Line.kind_cut (α := ℝ)
  rw [hlines, List.cons_append, Line.cut, riseCount_comment (by simp [hkind])]
  cases hrest : s.rest with
  | nil =>
      rw [hrest] at hworn
      cases hworn with
      | nil => exact ⟨before, by simp⟩
  | cons q qs =>
      rw [hrest] at hworn
      generalize wornDepth w.ratio w.passDepth (q :: qs) = depth at hworn
      cases hworn with
      | cons hz hfalls =>
          refine ⟨depth, ?_⟩
          rw [List.map_cons, List.cons_append, riseCount_next hz, riseCount_falls hfalls]
          simp

/-- The rises of a stroke.  What comes after it is compared with some depth. -/
theorem Realizes.riseCount_stroke (h : Realizes d w s moves) (before depth : Option ℝ)
    (p : Program ℝ) :
    ∃ depth', riseCount depth (PlungeBlock.lines moves.1.opening
        ++ [Line.move (moves.1.resumedTerminal (before.map some))] ++ moves.2.lines ++ p) =
      s.rises d w.passDepth before + riseCount (some depth') p := by
  obtain ⟨depth', hcut⟩ := h.riseCount_cut (s.bottom before) p
  refine ⟨depth', ?_⟩
  have hopening : PlungeBlock.lines moves.1.opening = PlungeBlock.lines moves.1.leadSteps
      ++ Line.rapidToStart :: .move moves.1.travel :: .move moves.1.entry :: moves.1.marker
        :: moves.1.sink.map .move := by
    simp [StrokeMoves.opening, PlungeBlock.lines, Function.comp_def]
  have hmarker : ∀ q : Program ℝ, riseCount (some s.pass.finished) (moves.1.marker :: q)
      = riseCount (some s.pass.finished) q := by
    intro q
    unfold StrokeMoves.marker
    split
    · have hkind : Comment.kind Marker.ramp = .ramp := Line.kind_ramp (α := ℝ)
      rw [Line.ramp, riseCount_comment (by simp [hkind])]
    · have hkind : Comment.kind Marker.plunge = .plunge := Line.kind_plunge (α := ℝ)
      rw [Line.plunge, riseCount_comment (by simp [hkind])]
  rw [hopening]
  simp only [List.append_assoc, List.cons_append, List.nil_append]
  rw [StrokeMoves.riseCount_lead h.travel, riseCount_first h.entry, hmarker, riseCount_falls h.sink,
    riseCount_next (h.resumedTerminal_z before), hcut, Stroke.rises, Nat.add_assoc]

end

/-- The depths of compensated strokes, with the last move of each descent where it ends. -/
def resumedLines (rise : Move ℝ) (before : Option (Option ℝ)) :
    List (StrokeMoves ℝ × CutBlock ℝ) → Program ℝ
  | [] => [.retract, .move rise]
  | (s, c) :: rest => PlungeBlock.lines s.opening ++ [.move (s.resumedTerminal before)] ++ c.lines
      ++ resumedLines rise (some c.lastZ) rest

theorem sameDepth_placedLines (feeds : PlungeFeeds ℝ) (rise : Move ℝ) :
    ∀ (before : Option (Option ℝ)) (ss : List (StrokeMoves ℝ × CutBlock ℝ)),
      List.Forall₂ SameDepth (resumedLines rise before ss) (placedLines feeds rise before ss)
  | _, [] => .cons (.comment _) (.cons (.move rfl) .nil)
  | before, (s, c) :: ss =>
    List.rel_append
      (List.rel_append (s.sameDepth_placed feeds before) (List.forall₂_same.mpr fun l _ => .refl l))
      (sameDepth_placedLines feeds rise (some c.lastZ) ss)

theorem riseCount_resumedLines {d : DescentParams ℝ} {w : WearParams ℝ} (rise : Move ℝ)
    {ss : List Stroke} {moves : List (StrokeMoves ℝ × CutBlock ℝ)}
    (h : List.Forall₂ (Realizes d w) ss moves) : ∀ before depth : Option ℝ,
      riseCount depth (resumedLines rise (before.map some) moves)
        = strokeRises d w.ratio w.passDepth before ss := by
  induction h with
  | nil =>
      intro before depth
      have hkind : Comment.kind Marker.retract = .retract := Line.kind_retract (α := ℝ)
      rw [resumedLines, Line.retract, riseCount_retract (.inl hkind), riseCount_move]
      rfl
  | @cons s m ss moves hs _ ih =>
      intro before depth
      obtain ⟨depth', hcount⟩ := hs.riseCount_stroke before depth
        (resumedLines rise (some m.2.lastZ) moves)
      obtain ⟨worn, hlines, -⟩ := hs.worn
      have hlast : m.2.lastZ = some (wornDepth w.ratio w.passDepth s.rest) := by rw [hlines]
      rw [resumedLines, hcount, strokeRises, hlast]
      exact congrArg _ (ih (some _) _)

/-- The depth check counts the rises of compensated strokes, after lines without a travel marker. -/
theorem bodyRises_placedLines {d : DescentParams ℝ} {w : WearParams ℝ} (rise : Move ℝ)
    {ss : List Stroke} {moves : List (StrokeMoves ℝ × CutBlock ℝ)}
    (h : List.Forall₂ (Realizes d w) ss moves) {pre : Program ℝ}
    (hpre : ∀ l ∈ pre, l.kind ≠ .rapidToStart) :
    bodyRises (pre ++ placedLines w.feeds rise none moves)
      = strokeRises d w.ratio w.passDepth none ss := by
  have hsame : List.Forall₂ SameDepth (pre ++ resumedLines rise none moves)
      (pre ++ placedLines w.feeds rise none moves) :=
    List.rel_append (List.forall₂_same.mpr fun l _ => .refl l)
      (sameDepth_placedLines w.feeds rise none moves)
  have hcount := riseCount_resumedLines rise h none none
  rw [bodyRises_congr hsame]
  cases h with
  | nil =>
      refine bodyRises_eq_zero fun l hl => ?_
      simp only [resumedLines, List.mem_append, List.mem_cons, List.not_mem_nil, or_false] at hl
      rcases hl with hl | rfl | rfl
      · exact hpre l hl
      · simp
      · simp
  | @cons s m ss moves hs _ =>
      obtain ⟨body, hbody⟩ : ∃ body, resumedLines rise none (m :: moves)
          = PlungeBlock.lines m.1.leadSteps ++ Line.rapidToStart :: .move m.1.travel :: body := by
        simp [resumedLines, StrokeMoves.opening, PlungeBlock.lines]
      have hlead : ∀ l ∈ pre ++ PlungeBlock.lines m.1.leadSteps, l.kind ≠ .rapidToStart := by
        intro l hl
        rcases List.mem_append.mp hl with hl | hl
        · exact hpre l hl
        · exact StrokeMoves.kind_leadSteps hl
      rw [Option.map_none] at hcount
      rw [← hcount, hbody, ← List.append_assoc, bodyRises_append hlead, riseCount_level hs.travel,
        StrokeMoves.riseCount_lead hs.travel]

end WireErosion
