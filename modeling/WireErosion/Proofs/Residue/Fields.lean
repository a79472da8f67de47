import WireErosion.Proofs.Outcome
import WireErosion.Wear.Compensate

/-!
# Replacing the fields of a program

Taking a program apart and putting it together again moves fields around and asks which of them are
there, and never what they are.  So each of the functions that do it commutes with any replacement
of fields, one field at a time.  The recursions are those of the functions themselves.

The reports of the functions carry over too: their notices name lines and handles, and what they say
of a depth is replaced along with it.
-/

namespace WireErosion

variable {α β γ δ : Type}

/-! ## Reports -/

theorem Notice.map_map (f : α → β) (g : β → γ) (n : Notice α) :
    (n.map f).map g = n.map (g ∘ f) := by
  cases n <;> rfl

theorem Notice.map_id (n : Notice α) : n.map id = n := by
  cases n <;> rfl

namespace Report

/-- A report with the depths in its notices replaced, and its result. -/
def map (f : α → γ) (g : β → δ) (r : Report α β) : Report γ δ :=
  ⟨r.notices.map (Notice.map f), r.outcome.map g⟩

@[simp] theorem outcome_map (f : α → γ) (g : β → δ) (r : Report α β) :
    (r.map f g).outcome = r.outcome.map g :=
  rfl

theorem map_bind {f : α → γ} {g : β → δ} {β' δ' : Type} {g' : β' → δ'} (r : Report α β)
    {k : β → Report α β'} {k' : δ → Report γ δ'} (h : ∀ b, k' (g b) = (k b).map f g') :
    (r.map f g).bind k' = (r.bind k).map f g' := by
  obtain ⟨notices, outcome⟩ := r
  cases outcome with
  | error e => rfl
  | ok b => simp [Report.bind, map, Except.map, h]

theorem map_lift {f : α → γ} {g : β → δ} (x : Except Fault β) :
    (lift x : Report α β).map f g = lift (x.map g) :=
  rfl

theorem map_of {f : α → γ} {g : β → δ} (b : β) : (of b : Report α β).map f g = of (g b) :=
  rfl

end Report

/-- Computations that each commute with a replacement do so as a list. -/
theorem Fault.mapM_map {f : α → β} {g : γ → δ} {k : α → Except Fault γ} {k' : β → Except Fault δ}
    (h : ∀ a, k' (f a) = (k a).map g) (xs : List α) :
    (xs.map f).mapM k' = (xs.mapM k).map (List.map g) := by
  induction xs with
  | nil => rfl
  | cons x xs ih =>
      rw [List.map_cons, List.mapM_cons, List.mapM_cons, h, ih]
      cases k x with
      | error e => rfl
      | ok c => cases xs.mapM k <;> rfl

/-! ## Parts of programs -/

theorem Line.kind_map (f : α → β) : ∀ l : Line α, (l.map f).kind = l.kind
  | .move _ => rfl
  | .comment _ => rfl

theorem Line.isMove_map (f : α → β) : ∀ l : Line α, (l.map f).isMove = l.isMove
  | .move _ => rfl
  | .comment _ => rfl

theorem Move.hasXY_map (f : α → β) (m : Move α) : (m.map f).hasXY = m.hasXY := by
  simp [Move.hasXY, Move.map]

/-- A line of a residue with every field replaced. -/
def Residual.map (f : α → β) : Residual α → Residual β
  | .line l => .line (l.map f)
  | .handle h => .handle h

/-- A cut block with every field replaced. -/
def CutBlock.map (f : α → β) (b : CutBlock α) : CutBlock β :=
  ⟨b.lines.map (Line.map f), b.lastZ.map f⟩

/-- A step of a plunge block with every field replaced. -/
def PlungeStep.map (f : α → β) (s : PlungeStep α) : PlungeStep β := ⟨s.line.map f, s.role⟩

/-! ## Taking a program apart -/

theorem cutsFrom_map (f : α → β) (n : Nat) (inside : Bool) (p : Program α) :
    cutsFrom n inside (p.map (Line.map f))
      = ((cutsFrom n inside p).1.map (Line.map f), (cutsFrom n inside p).2.1.map (CutBlock.map f),
          (cutsFrom n inside p).2.2.map (Residual.map f)) := by
  induction p generalizing n inside with
  | nil => rfl
  | cons l ls ih =>
      rw [List.map_cons, cutsFrom, cutsFrom, Line.kind_map, Line.isMove_map, ih, ih, ih]
      split_ifs <;> rfl

theorem startsWithMove_map (f : α → β) : ∀ r : Residue α,
    startsWithMove (r.map (Residual.map f)) = startsWithMove r
  | [] => rfl
  | .line l :: _ => Line.isMove_map f l
  | .handle _ :: _ => rfl

theorem take?_map (f : α → β) (phase : Phase) (l : Line α) (more : Bool) :
    phase.take? (l.map f) more = phase.take? l more := by
  cases l with
  | comment t => cases phase <;> rfl
  | move m =>
      cases phase with
      | travelling travelled =>
          have hrole : Phase.travelRole travelled (m.map f) = Phase.travelRole travelled m := by
            rw [Phase.travelRole, Phase.travelRole, Move.hasXY_map]
          simp only [Line.map, Phase.take?, hrole, Move.hasXY_map]
          rfl
      | _ => rfl

theorem taken?_map (f : α → β) (phase : Option Phase) (r : Residual α) (rest : Residue α) :
    taken? phase (r.map f) (rest.map (Residual.map f))
      = (taken? phase r rest).map fun s => (s.1.map f, s.2) := by
  cases phase with
  | none => rfl
  | some phase =>
      cases r with
      | handle h => rfl
      | line l =>
          simp only [Residual.map, taken?, take?_map, startsWithMove_map, Option.map_map]
          rfl

theorem plungesFrom_map (f : α → β) (n : Nat) (phase : Option Phase) (r : Residue α) :
    plungesFrom n phase (r.map (Residual.map f))
      = ((plungesFrom n phase r).1.map (PlungeStep.map f),
          (plungesFrom n phase r).2.1.map (List.map (PlungeStep.map f)),
          (plungesFrom n phase r).2.2.map (Residual.map f)) := by
  induction r generalizing n phase with
  | nil => rfl
  | cons r rest ih =>
      -- what a phase takes does not depend on the fields, so both sides are in the same case
      simp only [List.map_cons, plungesFrom, taken?_map]
      cases taken? phase r rest with
      | some s =>
          simp only [Option.map_some, ih]
          rfl
      | none =>
          cases r with
          | handle h =>
              simp only [Option.map_none, Residual.map, ih]
              rfl
          | line l =>
              simp only [Option.map_none, Residual.map, Line.kind_map, ih]
              split_ifs <;> rfl

/-! ## Putting a program together again -/

theorem refeed_map (f : α → β) (w : WearParams α) (b : PlungeBlock α) :
    PlungeBlock.refeed (w.map f).feeds (b.map (PlungeStep.map f))
      = (PlungeBlock.refeed w.feeds b).map (List.map (PlungeStep.map f)) := by
  refine Fault.mapM_map (fun s => ?_) b
  obtain ⟨line, role⟩ := s
  cases role with
  | none => rfl
  | some role =>
      cases line with
      | comment t => rfl
      | move m => cases role <;> rfl

namespace PlungeBlock

theorem lines_map (f : α → β) (b : PlungeBlock α) :
    lines (b.map (PlungeStep.map f)) = b.lines.map (Line.map f) := by
  simp only [lines, List.map_map]
  rfl

theorem terminal?_map (f : α → β) (b : PlungeBlock α) :
    terminal? (b.map (PlungeStep.map f)) = b.terminal? := by
  induction b with
  | nil => rfl
  | cons s b ih =>
      rw [List.map_cons, terminal?, terminal?, ih]
      rfl

theorem setZ_map (f : α → β) (z : Option α) (i : Nat) (ls : List (Line α)) :
    setZ (z.map f) i (ls.map (Line.map f)) = (setZ z i ls).map (List.map (Line.map f)) := by
  induction ls generalizing i with
  | nil => simp [setZ, Except.map]
  | cons l ls ih =>
      cases i with
      | zero => cases l <;> rfl
      | succ i =>
          rw [List.map_cons, setZ, setZ, ih]
          cases setZ z i ls <;> rfl

theorem withTerminalZ_map (f : α → β) (z : Option α) (b : PlungeBlock α) :
    withTerminalZ (z.map f) (b.map (PlungeStep.map f))
      = (b.withTerminalZ z).map (List.map (Line.map f)) := by
  rw [withTerminalZ, withTerminalZ, terminal?_map, lines_map]
  cases b.terminal? with
  | none => rfl
  | some i => exact setZ_map f z i b.lines

end PlungeBlock

/-- A stage of the replacing with every field replaced. -/
def Placing.map (f : α → β) (s : Placing α) : Placing β := ⟨s.placed, s.afterCut.map (Option.map f)⟩

theorem placeBlock_map (f : α → β) (cuts : List (CutBlock α)) (plunges : List (PlungeBlock α))
    (s : Placing α) (h : Handle) (i : Nat) :
    placeBlock (cuts.map (CutBlock.map f)) (plunges.map (List.map (PlungeStep.map f))) (s.map f) h i
      = (placeBlock cuts plunges s h i).map
          fun t => (t.1.map f, t.2.map (List.map (Line.map f))) := by
  obtain ⟨placed, afterCut⟩ := s
  obtain ⟨kind, index⟩ := h
  cases kind with
  | cut =>
      simp only [placeBlock, List.getElem?_map, Option.map_map]
      rfl
  | plunge =>
      simp only [placeBlock, List.getElem?_map, Option.map_map]
      congr 1
      funext b
      cases afterCut with
      | none =>
          simp only [Placing.map, Option.map_none, Function.comp_apply, PlungeBlock.lines_map]
          rfl
      | some z =>
          simp only [Placing.map, Option.map_some, Function.comp_apply,
            PlungeBlock.withTerminalZ_map]

theorem place?_map (f : α → β) (cuts : List (CutBlock α)) (plunges : List (PlungeBlock α))
    (s : Placing α) (h : Handle) :
    (s.map f).place? (cuts.map (CutBlock.map f)) (plunges.map (List.map (PlungeStep.map f))) h
      = (s.place? cuts plunges h).map fun t => (t.1.map f, t.2.map (List.map (Line.map f))) := by
  have hplaced : (s.map f).placed = s.placed := rfl
  rw [Placing.place?, Placing.place?, hplaced]
  split_ifs
  next => rfl
  next =>
    cases h.index with
    | negSucc i => rfl
    | ofNat i => exact placeBlock_map f cuts plunges s h i

theorem placeFrom_map (f : α → β) (cuts : List (CutBlock α)) (plunges : List (PlungeBlock α))
    (s : Placing α) (r : Residue α) :
    placeFrom (cuts.map (CutBlock.map f)) (plunges.map (List.map (PlungeStep.map f))) (s.map f)
        (r.map (Residual.map f))
      = (placeFrom cuts plunges s r).map f fun t => (t.1.map f, t.2.map (Line.map f)) := by
  induction r generalizing s with
  | nil => rfl
  | cons r rest ih =>
      cases r with
      | line l =>
          rw [List.map_cons, Residual.map, placeFrom, placeFrom, ih]
          exact Report.map_bind _ fun t => rfl
      | handle h =>
          rw [List.map_cons, Residual.map, placeFrom, placeFrom, place?_map]
          cases s.place? cuts plunges h with
          | some t =>
              simp only [Option.map_some]
              rw [← Report.map_lift (f := f)]
              refine Report.map_bind _ fun ls => ?_
              rw [ih]
              refine Report.map_bind _ fun u => ?_
              rw [Report.map_of, List.map_append]
          | none =>
              refine Report.map_bind (f := f) (g := id)
                (Report.tell (.handleRejected (s.rejection h) h)) fun _ => ?_
              rw [ih]
              exact Report.map_bind _ fun t => rfl

theorem unplacedNotice_map (f : α → β) (s : Placing α) (kind : BlockKind) (count : Nat) :
    (s.map f).unplacedNotice kind count = (s.unplacedNotice kind count).map (Notice.map f) := by
  have hsame : (s.map f).unplaced kind count = s.unplaced kind count := rfl
  rw [Placing.unplacedNotice, Placing.unplacedNotice, hsame]
  cases s.unplaced kind count <;> rfl

theorem reassemble_map (f : α → β) (r : Residue α) (cuts : List (CutBlock α))
    (plunges : List (PlungeBlock α)) :
    reassemble (r.map (Residual.map f)) (cuts.map (CutBlock.map f))
        (plunges.map (List.map (PlungeStep.map f)))
      = (reassemble r cuts plunges).map f (List.map (Line.map f)) := by
  have hplace := placeFrom_map f cuts plunges ⟨[], none⟩ r
  rw [reassemble, reassemble]
  change (placeFrom _ _ (Placing.map f ⟨[], none⟩) _).bind _ = _
  rw [hplace]
  refine Report.map_bind _ fun t => ?_
  simp only [List.length_map, unplacedNotice_map, ← List.map_append]
  exact Report.map_bind (g := id) (Report.tellAll _) fun _ => rfl

/-! ## Staging -/

theorem isStaged_map (f : α → β) : ∀ l : Line α, isStaged (l.map f) = isStaged l
  | .move _ => rfl
  | .comment _ => rfl

theorem seatingLines_map (f : α → β) (plunges : List (PlungeBlock α)) :
    seatingLines (plunges.map (List.map (PlungeStep.map f)))
      = (seatingLines plunges).map (Line.map f) := by
  simp only [seatingLines, List.flatMap_map, List.map_flatMap]
  refine List.flatMap_congr fun b _ => ?_
  rw [PlungeBlock.terminal?_map, PlungeBlock.lines_map]
  split
  next =>
    have hstaged : (isStaged ∘ Line.map f : Line α → Bool) = isStaged := funext (isStaged_map f)
    rw [List.filter_map, hstaged]
  next => rfl

theorem ratioLinesFrom_map (f : α → β) (i : Nat) (p : Program α) :
    ratioLinesFrom i (p.map (Line.map f)) = ratioLinesFrom i p := by
  induction p generalizing i with
  | nil => rfl
  | cons l ls ih => rw [List.map_cons, ratioLinesFrom, ratioLinesFrom, Line.kind_map, ih]

theorem pathZeroFrom_map (f : α → β) (i : Nat) (p : Program α) :
    pathZeroFrom i (p.map (Line.map f)) = pathZeroFrom i p := by
  induction p generalizing i with
  | nil => rfl
  | cons l ls ih =>
      cases l with
      | move m => exact ih (i + 1)
      | comment t => rw [List.map_cons, Line.map, pathZeroFrom, pathZeroFrom, ih]

theorem afterRatio_map (f : α → β) (p : Program α) (i : Nat) :
    afterRatio (p.map (Line.map f)) i = afterRatio p i := by
  rw [afterRatio, afterRatio, List.getElem?_map]
  cases p[i + 1]? with
  | none => rfl
  | some l => cases l <;> rfl

theorem stagingPlace?_map (f : α → β) (p : Program α) :
    stagingPlace? (p.map (Line.map f)) = (stagingPlace? p).map f id := by
  rw [stagingPlace?, stagingPlace?, ratioLinesFrom_map, pathZeroFrom_map]
  cases ratioLinesFrom 0 p with
  | nil => cases h : pathZeroFrom 0 p <;> rfl
  | cons i more =>
      simp only [afterRatio_map]
      have hrepeated : more.map (Notice.ratioRepeated : Nat → Notice β)
          = (more.map Notice.ratioRepeated).map (Notice.map f) := by
        rw [List.map_map]
        rfl
      rw [hrepeated]
      exact Report.map_bind (g := id) (Report.tellAll _) fun _ => rfl

theorem stagePlunges_map (f : α → β) (p : Program α) (plunges : List (PlungeBlock α)) :
    stagePlunges (p.map (Line.map f)) (plunges.map (List.map (PlungeStep.map f)))
      = (stagePlunges p plunges).map f (List.map (Line.map f)) := by
  rw [stagePlunges, stagePlunges, stagingPlace?_map]
  refine Report.map_bind _ fun place => ?_
  cases place with
  | none => exact Report.map_bind (f := f) (g := id) (Report.tell .nothingStaged) fun _ => rfl
  | some i =>
      rw [Report.map_of, List.map_append, List.map_append, List.map_take, List.map_drop,
        ← seatingLines_map]
      rfl

theorem Program.part_map (f : α → β) (p : Program α) :
    part (p.map (Line.map f)) = ⟨p.part.cuts.map (CutBlock.map f),
      p.part.plunges.map (List.map (PlungeStep.map f)), p.part.rest.map (Residual.map f)⟩ := by
  simp only [part, extractCuts, extractPlunges, cutsFrom_map, plungesFrom_map]

end WireErosion
