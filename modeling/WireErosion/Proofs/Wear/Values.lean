import WireErosion.Proofs.Residue.Fields

/-!
# The wear pass on numbers among values

The wear pass runs on values of fields.  On values that all are numbers it does what it does on
these numbers: every function that it is made of commutes with `FieldValue.number`.

What only moves fields around commutes with any replacement of them.  Where a function computes, it
is a step of doubles on values that are numbers, by definition.

So a text that is compensated with feeds that are numbers is the text of the compensated program
(`postProcess_numbers`).
-/

namespace WireErosion

variable {α β γ δ : Type}

/-! ## Cuts -/

open FieldValue (number)

theorem axisStep_number (a b : Option Float) :
    axisStep (a.map number) (b.map number) = number (axisStep a b) := by
  cases a <;> cases b <;> rfl

theorem axisAt_number (t : Float) (own a b : Option Float) :
    axisAt (number t) (own.map number) (a.map number) (b.map number)
      = (axisAt t own a b).map number := by
  cases a <;> cases b <;> rfl

theorem distances_number (count : Nat) (spacing length : Float) :
    distances count (number spacing) (number length)
      = (distances count spacing length).map number := by
  simp only [distances, List.filter_map, List.map_map]
  rfl

/-- A position with both axes replaced. -/
def Modal.map (f : α → β) (p : Modal α) : Modal β := (p.1.map f, p.2.map f)

theorem Modal.after_map (f : α → β) (p : Modal α) (m : Move α) :
    (Modal.map f p).after (m.map f) = Modal.map f (p.after m) := by
  obtain ⟨x, y⟩ := p
  simp only [Modal.after, Modal.map, Move.map]
  cases m.x <;> cases m.y <;> rfl

theorem nextWaypoint?_map (f : α → β) (p : Modal α) (ls : List (Line α)) :
    nextWaypoint? (Modal.map f p) (ls.map (Line.map f))
      = (nextWaypoint? p ls).map (Modal.map f) := by
  induction ls with
  | nil => rfl
  | cons l ls ih =>
      cases l with
      | comment t => exact ih
      | move m =>
          rw [List.map_cons, Line.map, nextWaypoint?, nextWaypoint?, Move.hasXY_map,
            Modal.after_map, ih]
          split <;> rfl

theorem quotient_number (a b : Float) :
    Scalar.quotient (number a) (number b) = (Scalar.quotient a b).map number := by
  rw [Scalar.quotient, Scalar.quotient]
  change (if (b == Scalar.zero) = true then _ else _) = _
  split <;> rfl

theorem intermediateMoves_number (m : Move Float) (a b : Modal Float) (spacing : Float) :
    intermediateMoves (m.map number) (Modal.map number a) (Modal.map number b) (number spacing)
      = (intermediateMoves m a b spacing).map (List.map (Move.map number)) := by
  have hlength : Scalar.hypot (axisStep (a.1.map number) (b.1.map number))
      (axisStep (a.2.map number) (b.2.map number))
        = number (Scalar.hypot (axisStep a.1 b.1) (axisStep a.2 b.2)) := by
    rw [axisStep_number, axisStep_number]
    rfl
  simp only [intermediateMoves, Modal.map, hlength, quotient_number]
  generalize Scalar.hypot (axisStep a.1 b.1) (axisStep a.2 b.2) = length
  -- numbers are compared and divided as doubles by definition, so both sides branch alike
  by_cases hshort : length ≤ spacing
  · rw [if_pos hshort]
    exact if_pos hshort
  · rw [if_neg hshort]
    refine (if_neg hshort).trans ?_
    cases Scalar.quotient length spacing with
    | error e => rfl
    | ok parts =>
        change (Scalar.floor parts >>= fun count => _)
          = Except.map _ (Scalar.floor parts >>= fun count => _)
        cases Scalar.floor parts with
        | error e => rfl
        | ok count =>
            refine congrArg Except.ok ?_
            rw [distances_number, List.map_map, List.map_map]
            refine List.map_congr_left fun d _ => ?_
            exact congrArg₂ (fun x y => (⟨m.motion, x, y, m.z.map number, m.f.map number,
              m.s.map number⟩ : Move FieldValue)) (axisAt_number (d / length) m.x a.1 b.1)
              (axisAt_number (d / length) m.y a.2 b.2)

theorem subdivideFrom_number (spacing : Float) (p : Modal Float) (ls : List (Line Float)) :
    subdivideFrom (number spacing) (Modal.map number p) (ls.map (Line.map number))
      = (subdivideFrom spacing p ls).map (List.map (Line.map number)) := by
  induction ls generalizing p with
  | nil => rfl
  | cons l ls ih =>
      cases l with
      | comment t =>
          rw [List.map_cons, Line.map, subdivideFrom, subdivideFrom, ih]
          cases subdivideFrom spacing p ls <;> rfl
      | move m =>
          rw [List.map_cons, Line.map, subdivideFrom, subdivideFrom, Move.hasXY_map,
            Modal.after_map, ih]
          dsimp only
          rw [nextWaypoint?_map]
          split_ifs
          next =>
            cases nextWaypoint? (p.after m) ls with
            | none => rfl
            | some there =>
                simp only [Option.map_some, intermediateMoves_number, ih]
                cases intermediateMoves m (p.after m) there spacing with
                | error e => rfl
                | ok points =>
                    cases subdivideFrom spacing (p.after m) ls with
                    | error e => rfl
                    | ok rest =>
                        refine congrArg Except.ok ?_
                        rw [List.map_cons, List.map_append, List.map_map, List.map_map]
                        rfl
          next => cases subdivideFrom spacing p ls <;> rfl

theorem travelled_number (m : Move Float) (a b : Modal Float) :
    travelled (m.map number) (Modal.map number a) (Modal.map number b)
      = number (travelled m a b) := by
  obtain ⟨x₁, y₁⟩ := a
  obtain ⟨x₂, y₂⟩ := b
  unfold travelled
  rw [Move.hasXY_map]
  cases m.hasXY <;> cases x₁ <;> cases y₁ <;> cases x₂ <;> cases y₂ <;> rfl

/-- A state of the wear with every number replaced. -/
def WearState.map (f : α → β) (s : WearState α) : WearState β :=
  ⟨Modal.map f s.position, f s.depth, f s.asked⟩

theorem step_number (ratio : Float) (s : WearState Float) (m : Move Float) :
    (s.map number).step (number ratio) (m.map number)
      = ((s.step ratio m).1.map number, (s.step ratio m).2.map number) := by
  simp only [WearState.step, WearState.map, Modal.after_map, travelled_number]
  obtain ⟨motion, x, y, z, f, s⟩ := m
  cases z <;> rfl

theorem wearFrom_number (ratio : Float) (s : WearState Float) (ls : List (Line Float)) :
    wearFrom (number ratio) (s.map number) (ls.map (Line.map number))
      = ((wearFrom ratio s ls).1.map number, (wearFrom ratio s ls).2.map (Line.map number)) := by
  induction ls generalizing s with
  | nil => rfl
  | cons l ls ih =>
      cases l with
      | comment t =>
          rw [List.map_cons, Line.map, wearFrom, wearFrom, ih]
          rfl
      | move m =>
          rw [List.map_cons, Line.map, wearFrom, wearFrom, step_number]
          simp only [ih]
          rfl

theorem CutBlock.compensate_number (w : WearParams Float) (b : CutBlock Float) :
    (b.map number).compensate (w.map number) = (b.compensate w).map (CutBlock.map number) := by
  have hsubdivide : subdivide (w.map number).segmentLength (b.map number).lines
      = (subdivide w.segmentLength b.lines).map (List.map (Line.map number)) :=
    subdivideFrom_number w.segmentLength (none, none) b.lines
  rw [CutBlock.compensate, CutBlock.compensate, hsubdivide]
  cases subdivide w.segmentLength b.lines with
  | error e => rfl
  | ok ls =>
      have hwear := wearFrom_number w.ratio ⟨(none, none), -w.passDepth, -w.passDepth⟩ ls
      exact congrArg (fun t => Except.ok (⟨t.2, some t.1.depth⟩ : CutBlock FieldValue)) hwear

/-! ## Programs -/

theorem Program.compensate_number (w : WearParams Float) (p : Program Float) :
    p.values.compensate (w.map number)
      = (p.compensate w).map number (List.map (Line.map number)) := by
  rw [Program.compensate, Program.compensate, Program.values]
  simp only [Report.bind_eq, Program.part_map, List.length_map]
  refine Report.map_bind (f := number) (g := id)
    (Report.tell (.wearStarted w.ratio w.passDepth w.startZ w.rapidZ)) fun _ => ?_
  refine Report.map_bind (f := number) (g := id)
    (Report.tell (.blocksFound p.part.cuts.length p.part.plunges.length)) fun _ => ?_
  rw [Fault.mapM_map (CutBlock.compensate_number w), ← Report.map_lift (f := number)]
  refine Report.map_bind _ fun cuts => ?_
  rw [Fault.mapM_map (refeed_map number w), ← Report.map_lift (f := number)]
  refine Report.map_bind _ fun plunges => ?_
  rw [reassemble_map]
  exact Report.map_bind _ fun body => stagePlunges_map number body plunges

/-! ## The depth check -/

/-- A rise with every number replaced. -/
def Rise.map (f : α → β) (r : Rise α) : Rise β := ⟨r.line, f r.before, f r.after, r.move.map f⟩

/-- A depth check with every number replaced. -/
def DepthCheck.map (f : α → β) (c : DepthCheck α) : DepthCheck β :=
  ⟨c.count, c.reported.map (Rise.map f)⟩

theorem bodyFrom_map (f : α → β) (i : Nat) (p : Program α) :
    bodyFrom i (p.map (Line.map f)) = (bodyFrom i p).map fun b => (b.1, b.2.map (Line.map f)) := by
  induction p generalizing i with
  | nil => rfl
  | cons l ls ih =>
      rw [List.map_cons, bodyFrom, bodyFrom, Line.kind_map, ih]
      split <;> rfl

theorem riseAt?_number (i : Nat) (before : Option Float) (m : Move Float) :
    riseAt? i (before.map number) (m.map number) = (riseAt? i before m).map (Rise.map number) := by
  obtain ⟨motion, x, y, z, f, s⟩ := m
  cases before with
  | none => rfl
  | some a =>
      cases z with
      | none => rfl
      | some b =>
          change (if a < b then _ else _) = Option.map _ (if a < b then _ else _)
          split <;> rfl

theorem risesFrom_number (i : Nat) (before : Option Float) (p : Program Float) :
    risesFrom i (before.map number) (p.map (Line.map number))
      = (risesFrom i before p).map (Rise.map number) := by
  induction p generalizing i before with
  | nil => rfl
  | cons l ls ih =>
      cases l with
      | comment t =>
          rw [List.map_cons, Line.map, risesFrom, risesFrom, ← ih]
          split <;> rfl
      | move m =>
          rw [List.map_cons, Line.map, risesFrom, risesFrom, riseAt?_number, List.map_append,
            ← ih (i + 1) m.z]
          cases riseAt? i before m <;> rfl

theorem riseNotices_map (f : α → β) (most : Int) (count : Nat) (rises : List (Rise α)) :
    riseNotices most count (rises.map (Rise.map f))
      = (riseNotices most count rises).map (Notice.map f) := by
  rw [riseNotices, riseNotices, List.map_append, List.map_map, List.map_map]
  congr 1
  split <;> rfl

theorem checkDepth_number (most : Int) (p : Program Float) :
    checkDepth most p.values = (checkDepth most p).map number (DepthCheck.map number) := by
  rw [checkDepth, checkDepth, Program.values, bodyFrom_map]
  cases bodyFrom 0 p with
  | none => rfl
  | some b =>
      simp only [Option.map_some]
      rw [show (none : Option FieldValue) = Option.map number none from rfl, risesFrom_number,
        ← List.map_take, List.length_map, riseNotices_map]
      exact Report.map_bind (g := id) (Report.tellAll _) fun _ => rfl

/-! ## Texts -/

theorem toFloat_map_number (m : Move Float) : (m.map number).map FieldValue.toFloat = m := by
  obtain ⟨motion, x, y, z, f, s⟩ := m
  simp [Move.map, Function.comp_def, FieldValue.toFloat]

theorem encodeValues_number (places : Int) : ∀ l : Line Float,
    (l.map number).encodeValues places = l.encode places
  | .comment _ => rfl
  | .move m => by
      rw [Line.map, Line.encodeValues]
      have hfeed : (m.map number).f = m.f.map number := rfl
      rw [hfeed, toFloat_map_number]
      cases m.f <;> rfl

theorem formatValues_number (places : Int) (p : Program Float) :
    p.values.formatValues places = p.format places := by
  have hlines : p.values.mapM (Line.encodeValues places) = Program.encodeLines places p := by
    rw [Program.values, List.mapM_map, Program.encodeLines]
    exact congrArg (p.mapM ·) (funext (encodeValues_number places))
  rw [Program.formatValues, Program.format, hlines]

/-- A computation goes on from a report on numbers that was turned into one on values and back. -/
theorem bind_mapNotices_number (r : Report Float γ) (g : γ → δ) {κ : Type}
    (k : δ → Report Float κ) :
    ((r.map number g).mapNotices FieldValue.toFloat).bind k = r.bind fun b => k (g b) := by
  have hsame : ∀ n : Notice Float, (n.map number).map FieldValue.toFloat = n := fun n =>
    (Notice.map_map number FieldValue.toFloat n).trans n.map_id
  have hnotices : (r.notices.map (Notice.map number)).map (Notice.map FieldValue.toFloat)
      = r.notices := by
    rw [List.map_map]
    exact (List.map_congr_left fun n _ => hsame n).trans (List.map_id' _)
  obtain ⟨notices, outcome⟩ := r
  unfold Report.mapNotices Report.map
  rw [hnotices]
  cases outcome <;> rfl

/-- A text that is compensated with feeds that are numbers is the text of the compensated
program. -/
theorem postProcess_numbers (w : WearParams Float) (places : Int) (text : String) :
    postProcess w places text = (Program.parse text).bind fun p =>
      (p.compensate w).bind fun q =>
        (checkDepth defaultReported q).bind fun _ => .lift (q.format places) := by
  have hcheck : ∀ q : Program Float, (Program.checkValues q.values).bind
      (fun _ => Report.lift (q.values.formatValues places))
        = (checkDepth defaultReported q).bind fun _ => Report.lift (q.format places) := by
    intro q
    rw [Program.checkValues, checkDepth_number, bind_mapNotices_number, formatValues_number]
  simp only [postProcess, Report.bind_eq]
  congr 1
  funext p
  rw [Program.compensateValues, Program.compensate_number, bind_mapNotices_number]
  exact congrArg _ (funext hcheck)

end WireErosion
