import WireErosion.Proofs.Program.Markers
import WireErosion.Proofs.Residue.Frame

/-!
# Compensating a program made of strokes

A stroke is what the compiler makes of one pass over one path: perhaps a rise to the clearance
height, the travel to the path, the descent and the cut.  `StrokeMoves` holds its moves, and
`StrokeMoves.lines` are its lines.  A program of strokes ends with a rise.

Taking such a program apart gives the cut of every stroke as a block, and the descent of every
stroke that starts with a rise (`part_strokes`).  A stroke that goes on from the one before without
a rise keeps its descent in the residue.  Putting the program together again resumes each block
where the cut before it ended, and leaves a descent in the residue as it is (`placeFrom_strokes`).
`compensate_strokes` is the whole way.
-/

namespace WireErosion

variable {α : Type}

/-! ## Strokes -/

/-- How a stroke starts. -/
inductive Lead where
  /-- The tool rises and goes on to the path with the given index. -/
  | newPath (index : Nat)
  /-- The tool rises. -/
  | lifted
  /-- The tool stays down. -/
  | resumed
deriving DecidableEq

/-- The moves of a stroke. -/
structure StrokeMoves (α : Type) where
  /-- What comes before the travel. -/
  lead : Lead
  /-- The rise to the clearance height, if the stroke starts with one. -/
  rise : Move α
  /-- The travel to the first vertex. -/
  travel : Move α
  /-- The move down to the finished depth. -/
  entry : Move α
  /-- Whether the descent is a ramp. -/
  ramped : Bool
  /-- The moves of the descent before the last one. -/
  sink : List (Move α)
  /-- The last move of the descent. -/
  terminal : Move α
  /-- The moves of the cut. -/
  cut : List (Move α)

namespace StrokeMoves

/-- The steps that a stroke starts with. -/
def leadSteps (s : StrokeMoves α) : PlungeBlock α :=
  match s.lead with
  | .newPath i => [⟨.retract, none⟩, ⟨.move s.rise, some .retract⟩, ⟨.blank, none⟩,
      ⟨.pathStart i, none⟩]
  | .lifted => [⟨.retract, none⟩, ⟨.move s.rise, some .retract⟩]
  | .resumed => []

/-- The marker of the descent. -/
def marker (s : StrokeMoves α) : Line α := if s.ramped then .ramp else .plunge

/-- The steps before the last move of the descent. -/
def opening (s : StrokeMoves α) : PlungeBlock α :=
  s.leadSteps ++ ⟨.rapidToStart, none⟩ :: ⟨.move s.travel, some .travel⟩
    :: ⟨.move s.entry, some .zeroPlunge⟩ :: ⟨s.marker, none⟩ :: s.sink.map fun m => ⟨.move m, none⟩

/-- The steps before the cut. -/
def descent (s : StrokeMoves α) : PlungeBlock α :=
  s.opening ++ [⟨.move s.terminal, some .plunge⟩]

/-- The cut as a block. -/
def cutBlock (s : StrokeMoves α) : CutBlock α := ⟨.cut :: s.cut.map .move, none⟩

/-- The lines of a stroke. -/
def lines (s : StrokeMoves α) : Program α := s.descent.lines ++ s.cutBlock.lines

/-- The moves are of the kinds that the compiler makes them, and a descent that is not ramped is one
move. -/
structure Regular (s : StrokeMoves α) : Prop where
  /-- The travel is rapid. -/
  travel_rapid : s.travel.motion = .rapid
  /-- The travel names a position. -/
  travel_hasXY : s.travel.hasXY = true
  /-- The move down is rapid. -/
  entry_rapid : s.entry.motion = .rapid
  /-- The move down names no position. -/
  entry_hasXY : s.entry.hasXY = false
  /-- A descent that is no ramp is one move. -/
  straight : s.ramped = false → s.sink = []

/-- Whether a stroke starts with a rise. -/
def lifts (s : StrokeMoves α) : Bool := s.lead != .resumed

theorem kind_marker (s : StrokeMoves α) : s.marker.kind = if s.ramped then .ramp else .plunge := by
  cases h : s.ramped with
  | true => simp [marker, h]
  | false => simp [marker, h]

/-- What a stroke may start with. -/
theorem mem_leadSteps {s : StrokeMoves α} {step : PlungeStep α} (h : step ∈ s.leadSteps) :
    s.lifts = true ∧ (step = ⟨.retract, none⟩ ∨ step = ⟨.move s.rise, some .retract⟩ ∨
      step = ⟨.blank, none⟩ ∨ ∃ i : Nat, step = ⟨.pathStart i, none⟩) := by
  cases hs : s.lead with
  | newPath i =>
      simp only [leadSteps, hs, List.mem_cons, List.not_mem_nil, or_false] at h
      refine ⟨by simp [lifts, hs], ?_⟩
      rcases h with rfl | rfl | rfl | rfl
      · exact .inl rfl
      · exact .inr (.inl rfl)
      · exact .inr (.inr (.inl rfl))
      · exact .inr (.inr (.inr ⟨i, rfl⟩))
  | lifted =>
      simp only [leadSteps, hs, List.mem_cons, List.not_mem_nil, or_false] at h
      refine ⟨by simp [lifts, hs], ?_⟩
      rcases h with rfl | rfl <;> simp
  | resumed => simp [leadSteps, hs] at h

/-- The lines before the cut that are not moves are markers of other kinds. -/
theorem kind_descent {s : StrokeMoves α} {l : Line α} (h : l ∈ s.descent.lines) :
    l.kind ≠ .cut ∧ (l.kind = .retract → s.lifts = true) := by
  obtain ⟨step, hstep, rfl⟩ := List.mem_map.mp h
  simp only [descent, opening, List.mem_append, List.mem_cons, List.mem_map, List.not_mem_nil,
    or_false] at hstep
  rcases hstep with (hlead | rfl | rfl | rfl | rfl | ⟨m, -, rfl⟩) | rfl
  · obtain ⟨hlifts, hlead⟩ := mem_leadSteps hlead
    refine ⟨?_, fun _ => hlifts⟩
    rcases hlead with rfl | rfl | rfl | ⟨i, rfl⟩ <;> simp
  · simp
  · simp
  · simp
  · rw [kind_marker]
    cases s.ramped <;> simp
  · simp
  · simp

end StrokeMoves

/-- The lines of a program of strokes, which ends with a rise. -/
def strokesLines (rise : Move α) (ss : List (StrokeMoves α)) : Program α :=
  ss.flatMap StrokeMoves.lines ++ [.retract, .move rise]

/-- The block of the rise at the end. -/
def lastRise (rise : Move α) : PlungeBlock α := [⟨.retract, none⟩, ⟨.move rise, some .retract⟩]

/-! ## Cuts -/

theorem cutsFrom_append_outside {n : Nat} {p : Program α} : ∀ {ls : List (Line α)},
    (∀ l ∈ ls, l.kind ≠ .cut) →
    cutsFrom n false (ls ++ p) =
      ([], (cutsFrom n false p).2.1, ls.map .line ++ (cutsFrom n false p).2.2)
  | [], _ => by
      rw [List.nil_append, List.map_nil, List.nil_append, ← cutsFrom_closed n p]
  | l :: ls, h => by
      have hl := h l (List.mem_cons_self ..)
      have hls : ∀ l ∈ ls, l.kind ≠ .cut := fun l hl => h l (List.mem_cons_of_mem _ hl)
      rw [List.cons_append, cutsFrom_outside hl rfl, cutsFrom_append_outside hls]
      rfl

theorem cutsFrom_append_moves {n : Nat} {p : Program α} : ∀ ms : List (Move α),
    cutsFrom n true (ms.map .move ++ p) =
      (ms.map .move ++ (cutsFrom n true p).1, (cutsFrom n true p).2.1, (cutsFrom n true p).2.2)
  | [] => rfl
  | m :: ms => by
      have hm : (Line.move m).kind ≠ .cut := by simp
      rw [List.map_cons, List.cons_append, cutsFrom_move hm rfl, cutsFrom_append_moves ms]
      rfl

/-- A comment, and the end of the program, closes a cut. -/
def Closes (p : Program α) : Prop := ∀ n, cutsFrom n true p = cutsFrom n false p

theorem closes_comment (t : String) (p : Program α) : Closes (.comment t :: p) := by
  intro n
  by_cases h : (Line.comment t : Line α).kind = .cut
  · rw [cutsFrom_cut h, cutsFrom_cut h]
  · rw [cutsFrom_outside h (by simp [Line.isMove]), cutsFrom_outside h rfl]

theorem closes_strokesLines (rise : Move α) : ∀ ss : List (StrokeMoves α),
    Closes (strokesLines rise ss)
  | [] => closes_comment _ _
  | s :: ss => by
      rw [strokesLines, List.flatMap_cons, StrokeMoves.lines, StrokeMoves.descent,
        StrokeMoves.opening, StrokeMoves.leadSteps]
      cases s.lead <;> exact closes_comment _ _

/-- What is left of strokes without their cuts. -/
def cutResidue (rise : Move α) (n : Nat) : List (StrokeMoves α) → Residue α
  | [] => [.line .retract, .line (.move rise)]
  | s :: ss => s.descent.lines.map .line ++ .handle ⟨.cut, n⟩ :: cutResidue rise (n + 1) ss

theorem cutsFrom_strokes (rise : Move α) : ∀ (ss : List (StrokeMoves α)) (n : Nat),
    cutsFrom n false (strokesLines rise ss) =
      ([], ss.map StrokeMoves.cutBlock, cutResidue rise n ss)
  | [], n => by
      rw [strokesLines, List.flatMap_nil, List.nil_append, cutsFrom_outside (by simp) rfl,
        cutsFrom_outside (by simp) rfl]
      rfl
  | s :: ss, n => by
      have hdescent : ∀ l ∈ s.descent.lines, l.kind ≠ .cut := fun l h =>
        (StrokeMoves.kind_descent h).1
      have hlines : strokesLines rise (s :: ss)
          = s.descent.lines ++ .cut :: (s.cut.map .move ++ strokesLines rise ss) := by
        simp [strokesLines, StrokeMoves.lines, StrokeMoves.cutBlock]
      rw [hlines, cutsFrom_append_outside hdescent, cutsFrom_cut Line.kind_cut,
        cutsFrom_append_moves, closes_strokesLines rise ss, cutsFrom_strokes rise ss,
        List.append_nil]
      rfl

/-! ## Plunges -/

theorem plungesFrom_append_lines {n : Nat} {r : Residue α} : ∀ {ls : List (Line α)},
    (∀ l ∈ ls, l.kind ≠ .retract) →
    plungesFrom n none (ls.map .line ++ r) =
      ([], (plungesFrom n none r).2.1, ls.map .line ++ (plungesFrom n none r).2.2)
  | [], _ => by
      rw [List.map_nil, List.nil_append, List.nil_append, ← plungesFrom_closed n r]
  | l :: ls, h => by
      have hl := h l (List.mem_cons_self ..)
      have hls : ∀ l ∈ ls, l.kind ≠ .retract := fun l hl => h l (List.mem_cons_of_mem _ hl)
      rw [List.map_cons, List.cons_append, plungesFrom_line rfl hl, plungesFrom_append_lines hls]
      rfl

section

variable {n : Nat} {h : Handle} {r : Residue α}

/-- Steps of an open block in front of what an extraction gives. -/
def afterSteps (b : PlungeBlock α) (x : PlungeBlock α × List (PlungeBlock α) × Residue α) :
    PlungeBlock α × List (PlungeBlock α) × Residue α := (b ++ x.1, x.2.1, x.2.2)

/-- A line that an open block cannot take closes it. -/
theorem plungesFrom_untaken {phase : Option Phase} {x : Residual α} {rest : Residue α}
    (h : taken? phase x rest = none) :
    plungesFrom n phase (x :: rest) = plungesFrom n none (x :: rest) := by
  have hnone : taken? none x rest = none := rfl
  cases x with
  | line l => simp only [plungesFrom, h, hnone]
  | handle g => rw [plungesFrom_handle, plungesFrom_handle]

theorem plungesFrom_finished (n : Nat) (r : Residue α) :
    plungesFrom n (some .finished) r = plungesFrom n none r := by
  cases r with
  | nil => rfl
  | cons x rest =>
      refine plungesFrom_untaken ?_
      cases x with
      | line l => cases l <;> rfl
      | handle h => rfl

theorem plungesFrom_ramped (h : startsWithMove r = false) :
    plungesFrom n (some .ramping) r = plungesFrom n none r := by
  cases r with
  | nil => rfl
  | cons x rest =>
      refine plungesFrom_untaken ?_
      cases x with
      | line l =>
          cases l with
          | move m => cases h
          | comment t => rfl
      | handle h => rfl

/-- The moves of a ramp.  The last one finishes the descent. -/
theorem plungesFrom_rampMoves (last : Move α) (h : startsWithMove r = false) :
    ∀ way : List (Move α), plungesFrom n (some .ramping)
        ((way ++ [last]).map (fun m => Residual.line (.move m)) ++ r) =
      afterSteps (way.map (fun m => ⟨.move m, none⟩) ++ [⟨.move last, some .plunge⟩])
        (plungesFrom n none r)
  | [] => by
      have htaken : taken? (some .ramping) (.line (.move last)) r
          = some (⟨.move last, some .plunge⟩, .ramping) := by
        simp [taken?, Phase.take?, h]
      rw [List.nil_append, List.map_singleton, List.singleton_append, plungesFrom_taken htaken,
        plungesFrom_ramped h]
      rfl
  | m :: way => by
      have htaken : taken? (some .ramping) (.line (.move m))
          ((way ++ [last]).map (fun m => Residual.line (.move m)) ++ r)
            = some (⟨.move m, none⟩, .ramping) := by
        cases way <;> rfl
      rw [List.cons_append, List.map_cons, List.cons_append, plungesFrom_taken htaken,
        plungesFrom_rampMoves last h way]
      rfl

theorem taken?_pathStart (i : Nat) (rest : Residue α) :
    taken? (some .header) (.line (.pathStart i)) rest
      = some (⟨.pathStart i, none⟩, .header) := by
  have hkind : Comment.kind (Comment.ofPath i) = .path := Line.kind_pathStart (α := α) i
  simp [taken?, Phase.take?, Line.pathStart, Phase.header?, isBlank_ofPath, hkind]

theorem taken?_travel {m : Move α} (hrapid : m.motion = .rapid) (hxy : m.hasXY = true)
    (rest : Residue α) : taken? (some (.travelling false)) (.line (.move m)) rest
      = some (⟨.move m, some .travel⟩, .travelling true) := by
  simp [taken?, Phase.take?, Phase.travelRole, hrapid, hxy]

theorem taken?_zeroPlunge {m : Move α} (hrapid : m.motion = .rapid) (hxy : m.hasXY = false)
    (rest : Residue α) : taken? (some (.travelling true)) (.line (.move m)) rest
      = some (⟨.move m, some .zeroPlunge⟩, .travelling true) := by
  simp [taken?, Phase.take?, Phase.travelRole, hrapid, hxy]

/-- The marker of the descent and its moves. -/
theorem plungesFrom_marker {s : StrokeMoves α} (hs : s.Regular) :
    plungesFrom n (some (.travelling true)) (.line s.marker
        :: (s.sink.map (fun m => Residual.line (.move m))
          ++ Residual.line (.move s.terminal) :: .handle h :: r)) =
      afterSteps (⟨s.marker, none⟩ :: (s.sink.map (fun m => ⟨.move m, none⟩)
        ++ [⟨.move s.terminal, some .plunge⟩])) (plungesFrom n none (.handle h :: r)) := by
  cases hramped : s.ramped with
  | true =>
      have htaken : ∀ rest : Residue α, taken? (some (.travelling true)) (.line s.marker) rest
          = some (⟨s.marker, none⟩, .ramping) := by
        intro rest
        simp only [StrokeMoves.marker, hramped]
        rfl
      have hramp := plungesFrom_rampMoves (n := n) (r := .handle h :: r) s.terminal rfl s.sink
      rw [List.map_append, List.map_singleton, List.append_assoc, List.singleton_append] at hramp
      rw [plungesFrom_taken (htaken _), hramp]
      rfl
  | false =>
      have htaken : ∀ rest : Residue α, taken? (some (.travelling true)) (.line s.marker) rest
          = some (⟨s.marker, none⟩, .plunging) := by
        intro rest
        simp only [StrokeMoves.marker, hramped]
        rfl
      have hterminal : taken? (some .plunging) (.line (.move s.terminal)) (.handle h :: r)
          = some (⟨.move s.terminal, some .plunge⟩, .finished) := rfl
      rw [plungesFrom_taken (htaken _), hs.straight hramped, List.map_nil, List.nil_append,
        plungesFrom_taken hterminal, plungesFrom_handle, plungesFrom_handle]
      rfl

/-- The travel, the way down to the finished depth and the descent. -/
theorem plungesFrom_travel {s : StrokeMoves α} (hs : s.Regular) :
    plungesFrom n (some .header) (.line .rapidToStart :: .line (.move s.travel)
        :: .line (.move s.entry) :: .line s.marker :: (s.sink.map (fun m => Residual.line (.move m))
          ++ Residual.line (.move s.terminal) :: .handle h :: r)) =
      afterSteps (⟨.rapidToStart, none⟩ :: ⟨.move s.travel, some .travel⟩
        :: ⟨.move s.entry, some .zeroPlunge⟩ :: ⟨s.marker, none⟩
        :: (s.sink.map (fun m => ⟨.move m, none⟩) ++ [⟨.move s.terminal, some .plunge⟩]))
        (plungesFrom n none (.handle h :: r)) := by
  have hstart : ∀ rest : Residue α, taken? (some .header) (.line .rapidToStart) rest
      = some (⟨.rapidToStart, none⟩, .travelling false) := fun _ => rfl
  rw [plungesFrom_taken (hstart _),
    plungesFrom_taken (taken?_travel hs.travel_rapid hs.travel_hasXY _),
    plungesFrom_taken (taken?_zeroPlunge hs.entry_rapid hs.entry_hasXY _), plungesFrom_marker hs]
  rfl

/-- The descent of a stroke that starts with a rise is one block. -/
theorem plungesFrom_lifted {s : StrokeMoves α} (hs : s.Regular) (hlifts : s.lifts = true) :
    plungesFrom n none (s.descent.lines.map .line ++ .handle h :: r) =
      ([], s.descent :: (plungesFrom (n + 1) none r).2.1,
        .handle ⟨.plunge, n⟩ :: .handle h :: (plungesFrom (n + 1) none r).2.2) := by
  have hrise : ∀ rest : Residue α, taken? (some .started) (.line (.move s.rise)) rest
      = some (⟨.move s.rise, some .retract⟩, .header) := fun _ => rfl
  cases hlead : s.lead with
  | newPath i =>
      have hblank : ∀ rest : Residue α, taken? (some .header) (.line .blank) rest
          = some (⟨.blank, none⟩, .header) := fun _ => rfl
      simp only [StrokeMoves.descent, StrokeMoves.opening, StrokeMoves.leadSteps, hlead,
        PlungeBlock.lines, List.map_append, List.map_cons, List.map_nil, List.map_map,
        List.cons_append, List.nil_append, List.append_assoc, Function.comp_def]
      rw [plungesFrom_retract rfl Line.kind_retract, plungesFrom_taken (hrise _),
        plungesFrom_taken (hblank _), plungesFrom_taken (taken?_pathStart i _),
        plungesFrom_travel hs, plungesFrom_handle]
      simp [afterSteps]
  | lifted =>
      simp only [StrokeMoves.descent, StrokeMoves.opening, StrokeMoves.leadSteps, hlead,
        PlungeBlock.lines, List.map_append, List.map_cons, List.map_nil, List.map_map,
        List.cons_append, List.nil_append, List.append_assoc, Function.comp_def]
      rw [plungesFrom_retract rfl Line.kind_retract, plungesFrom_taken (hrise _),
        plungesFrom_travel hs, plungesFrom_handle]
      simp [afterSteps]
  | resumed => simp [StrokeMoves.lifts, hlead] at hlifts

end

/-- What is left of strokes without their cuts and their descents. -/
def strokesResidue (m n : Nat) : List (StrokeMoves α) → Residue α
  | [] => [.handle ⟨.plunge, n⟩]
  | s :: ss =>
    if s.lifts then .handle ⟨.plunge, n⟩ :: .handle ⟨.cut, m⟩ :: strokesResidue (m + 1) (n + 1) ss
    else s.descent.lines.map .line ++ .handle ⟨.cut, m⟩ :: strokesResidue (m + 1) n ss

/-- The descents that start with a rise. -/
def liftedDescents (ss : List (StrokeMoves α)) : List (PlungeBlock α) :=
  (ss.filter StrokeMoves.lifts).map StrokeMoves.descent

theorem plungesFrom_strokes (rise : Move α) : ∀ {ss : List (StrokeMoves α)} (m n : Nat),
    (∀ s ∈ ss, s.Regular) →
    plungesFrom n none (cutResidue rise m ss) =
      ([], liftedDescents ss ++ [lastRise rise], strokesResidue m n ss)
  | [], m, n, _ => by
      have hrise : taken? (some .started) (.line (.move rise)) []
          = some (⟨.move rise, some .retract⟩, .header) := rfl
      rw [cutResidue, plungesFrom_retract rfl Line.kind_retract, plungesFrom_taken hrise]
      rfl
  | s :: ss, m, n, h => by
      have hs := h s (List.mem_cons_self ..)
      have hss : ∀ s ∈ ss, s.Regular := fun s hs => h s (List.mem_cons_of_mem _ hs)
      rw [cutResidue]
      cases hlifts : s.lifts with
      | true =>
          rw [plungesFrom_lifted hs hlifts, plungesFrom_strokes rise (m + 1) (n + 1) hss]
          simp [liftedDescents, strokesResidue, hlifts]
      | false =>
          have hlines : ∀ l ∈ s.descent.lines, l.kind ≠ .retract := by
            intro l hl hretract
            have := (StrokeMoves.kind_descent hl).2 hretract
            rw [hlifts] at this
            cases this
          rw [plungesFrom_append_lines hlines, plungesFrom_handle,
            plungesFrom_strokes rise (m + 1) n hss]
          simp [liftedDescents, strokesResidue, hlifts]

/-- A program of strokes taken apart, after lines that start no block. -/
theorem part_strokes {rise : Move α} {summary : Program α} {ss : List (StrokeMoves α)}
    (hcut : ∀ l ∈ summary, l.kind ≠ .cut) (hretract : ∀ l ∈ summary, l.kind ≠ .retract)
    (hss : ∀ s ∈ ss, s.Regular) :
    Program.part (summary ++ strokesLines rise ss) =
      ⟨ss.map StrokeMoves.cutBlock, liftedDescents ss ++ [lastRise rise],
        summary.map .line ++ strokesResidue 0 0 ss⟩ := by
  rw [Program.part, extractCuts, cutsFrom_append_outside hcut, cutsFrom_strokes]
  dsimp only
  rw [extractPlunges, plungesFrom_append_lines hretract, plungesFrom_strokes rise 0 0 hss]

end WireErosion
