import WireErosion.Proofs.Operation.Summary
import WireErosion.Proofs.Wear.Strokes

/-!
# Putting strokes together again

What becomes of a program of strokes.  A descent that was pulled out as a block is put at the feeds
of its roles, and its last move goes to the depth where the cut before it ended.  A descent of a
stroke that goes on without a rise stays as it is (`StrokeMoves.placed`).  Each cut is replaced by
its compensated block.

`compensate_strokes` is the result of compensating a summary and strokes, given that the cuts can be
compensated.
-/

namespace WireErosion

variable {α : Type}

/-! ## The last move of a descent -/

/-- The depth of a move at the end of a block that finishes the descent. -/
theorem PlungeBlock.withTerminalZ_append (z : Option α) (m : Move α) (b : PlungeBlock α) :
    withTerminalZ z (b ++ [⟨.move m, some .plunge⟩]) =
      .ok (b.lines ++ [Line.move { m with z }]) := by
  rw [withTerminalZ_front List.not_mem_nil, withTerminalZ_cons_of_plunge rfl]
  rfl

namespace StrokeMoves

theorem rolesOnMoves_descent (s : StrokeMoves α) : PlungeBlock.RolesOnMoves s.descent := by
  intro step hstep hrole
  simp only [descent, opening, List.mem_append, List.mem_cons, List.mem_map, List.not_mem_nil,
    or_false] at hstep
  rcases hstep with (hlead | rfl | rfl | rfl | rfl | ⟨m, -, rfl⟩) | rfl
  · rcases (mem_leadSteps hlead).2 with rfl | rfl | rfl | ⟨i, rfl⟩
    · exact absurd rfl hrole
    · rfl
    · exact absurd rfl hrole
    · exact absurd rfl hrole
  · exact absurd rfl hrole
  · rfl
  · rfl
  · exact absurd rfl hrole
  · exact absurd rfl hrole
  · rfl

/-- The last move of a descent that was pulled out, after a cut that ended at a depth. -/
def terminalAt (s : StrokeMoves α) (feeds : PlungeFeeds α) (after : Option (Option α)) : Move α :=
  { s.terminal with motion := .linear, f := feeds.plunge, z := after.getD s.terminal.z }

/-- The lines that a descent is replaced by. -/
def placed (s : StrokeMoves α) (feeds : PlungeFeeds α) (after : Option (Option α)) : Program α :=
  if s.lifts then
    PlungeBlock.lines (s.opening.map (PlungeStep.refed feeds)) ++ [.move (s.terminalAt feeds after)]
  else s.descent.lines

theorem resume_descent {s : StrokeMoves α} (hlifts : s.lifts = true) (feeds : PlungeFeeds α)
    (after : Option (Option α)) :
    PlungeBlock.resume after (s.descent.map (PlungeStep.refed feeds))
      = .ok (s.placed feeds after) := by
  have hblock : s.descent.map (PlungeStep.refed feeds) = s.opening.map (PlungeStep.refed feeds)
      ++ [⟨.move { s.terminal with motion := .linear, f := feeds.plunge }, some .plunge⟩] := by
    rw [descent, List.map_append]
    rfl
  rw [placed, if_pos hlifts, hblock]
  cases after with
  | none => simp [PlungeBlock.resume, PlungeBlock.lines, terminalAt]
  | some z => exact PlungeBlock.withTerminalZ_append z _ _

end StrokeMoves

/-! ## Strokes -/

/-- The lines of the rise at the end, at its feed. -/
def lastRiseLines (feeds : PlungeFeeds α) (rise : Move α) : Program α :=
  PlungeBlock.lines ((lastRise rise).map (PlungeStep.refed feeds))

/-- The lines of compensated strokes, each with its compensated cut. -/
def placedLines (feeds : PlungeFeeds α) (rise : Move α) (after : Option (Option α)) :
    List (StrokeMoves α × CutBlock α) → Program α
  | [] => lastRiseLines feeds rise
  | (s, c) :: rest => s.placed feeds after ++ c.lines ++ placedLines feeds rise (some c.lastZ) rest

/-- The blocks of the descents and of the rise at the end, at their feeds. -/
def refedPlunges (feeds : PlungeFeeds α) (rise : Move α) (ss : List (StrokeMoves α)) :
    List (PlungeBlock α) :=
  (liftedDescents ss ++ [lastRise rise]).map (List.map (PlungeStep.refed feeds))

section

variable {feeds : PlungeFeeds α} {rise : Move α} {s : StrokeMoves α} {ss : List (StrokeMoves α)}

theorem refedPlunges_lifted (h : s.lifts = true) :
    refedPlunges feeds rise (s :: ss)
      = s.descent.map (PlungeStep.refed feeds) :: refedPlunges feeds rise ss := by
  simp [refedPlunges, liftedDescents, h]

theorem refedPlunges_resumed (h : s.lifts = false) :
    refedPlunges feeds rise (s :: ss) = refedPlunges feeds rise ss := by
  simp [refedPlunges, liftedDescents, h]

theorem rolesOnMoves_lastRise (rise : Move α) : PlungeBlock.RolesOnMoves (lastRise rise) := by
  intro step hstep hrole
  simp only [lastRise, List.mem_cons, List.not_mem_nil, or_false] at hstep
  rcases hstep with rfl | rfl
  · exact absurd rfl hrole
  · rfl

/-- All plunges of strokes can be put at their feeds. -/
theorem mapM_refeed (feeds : PlungeFeeds α) (rise : Move α) (ss : List (StrokeMoves α)) :
    (liftedDescents ss ++ [lastRise rise]).mapM (PlungeBlock.refeed feeds)
      = .ok (refedPlunges feeds rise ss) := by
  rw [Fault.mapM_eq_ok, refedPlunges, List.forall₂_map_right_iff]
  refine List.forall₂_same.mpr fun b hb => PlungeBlock.refeed_eq feeds ?_
  rw [List.mem_append, List.mem_singleton] at hb
  rcases hb with hb | rfl
  · obtain ⟨s, -, rfl⟩ := List.mem_map.mp hb
    exact s.rolesOnMoves_descent
  · exact rolesOnMoves_lastRise rise

end

/-! ## Handles -/

section

variable {cuts : List (CutBlock α)} {plunges : List (PlungeBlock α)}

theorem placeFrom_lines {s t : Placing α} {r : Residue α} {p : Program α} : ∀ ls : List (Line α),
    (placeFrom cuts plunges s r).outcome = .ok (t, p) →
    (placeFrom cuts plunges s (ls.map .line ++ r)).outcome = .ok (t, ls ++ p)
  | [], h => h
  | l :: ls, h => by
      rw [List.map_cons, List.cons_append, placeFrom_line,
        Report.outcome_bind (placeFrom_lines ls h)]
      rfl

/-- A cut is replaced by its compensated block. -/
theorem placeFrom_compensated {m n : Nat} {s t : Placing α} {c : CutBlock α} {r : Residue α}
    {p : Program α} (hs : s.Upto m n) (hc : cuts[m]? = some c)
    (hr : (placeFrom cuts plunges ⟨⟨.cut, m⟩ :: s.placed, some c.lastZ⟩ r).outcome = .ok (t, p)) :
    (placeFrom cuts plunges s (.handle ⟨.cut, m⟩ :: r)).outcome = .ok (t, c.lines ++ p) := by
  rw [placeFrom_cut hs hc, Report.outcome_bind hr]
  rfl

/-- The handles of strokes are replaced, from the places in the two tables on that hold the blocks
of the strokes. -/
theorem placeFrom_strokes (feeds : PlungeFeeds α) (rise : Move α) :
    ∀ (ss : List (StrokeMoves α × CutBlock α)) (m n : Nat) (before : List (CutBlock α))
      (before' : List (PlungeBlock α)) (s : Placing α),
      before.length = m → before'.length = n → s.Upto m n →
      cuts = before ++ ss.map Prod.snd →
      plunges = before' ++ refedPlunges feeds rise (ss.map Prod.fst) →
      ∃ t, (placeFrom cuts plunges s (strokesResidue m n (ss.map Prod.fst))).outcome
        = .ok (t, placedLines feeds rise s.afterCut ss)
  | [], m, n, before, before', s, _, hn, hs, _, hplunges => by
      have hblock : plunges[n]? = some ((lastRise rise).map (PlungeStep.refed feeds)) := by
        rw [hplunges, ← hn]
        simp [refedPlunges, liftedDescents]
      have hlines : PlungeBlock.resume s.afterCut ((lastRise rise).map (PlungeStep.refed feeds))
          = .ok (lastRiseLines feeds rise) := by
        cases s.afterCut <;> rfl
      rw [List.map_nil, strokesResidue, placeFrom_plunge hs hblock, Report.outcome_bind hlines]
      simp [placeFrom, placedLines]
  | (stroke, c) :: ss, m, n, before, before', s, hm, hn, hs, hcuts, hplunges => by
      have hc : cuts[m]? = some c := by
        rw [hcuts, ← hm]
        simp
      have hm' : (before ++ [c]).length = m + 1 := by simp [hm]
      have hcuts' : cuts = (before ++ [c]) ++ ss.map Prod.snd := by simp [hcuts]
      rw [List.map_cons, strokesResidue]
      rw [List.map_cons] at hplunges
      cases hlifts : stroke.lifts with
      | true =>
          rw [refedPlunges_lifted hlifts] at hplunges
          have hblock : plunges[n]? = some (stroke.descent.map (PlungeStep.refed feeds)) := by
            rw [hplunges, ← hn]
            simp
          have hn' : (before' ++ [stroke.descent.map (PlungeStep.refed feeds)]).length = n + 1 := by
            simp [hn]
          have hplunges' : plunges = (before' ++ [stroke.descent.map (PlungeStep.refed feeds)])
              ++ refedPlunges feeds rise (ss.map Prod.fst) := by simp [hplunges]
          have hs' := hs.plunge s.afterCut
          obtain ⟨t, ht⟩ := placeFrom_strokes feeds rise ss (m + 1) (n + 1) _ _ _ hm' hn'
            (hs'.cut (some c.lastZ)) hcuts' hplunges'
          refine ⟨t, ?_⟩
          rw [if_pos rfl, placeFrom_plunge hs hblock,
            Report.outcome_bind (StrokeMoves.resume_descent hlifts feeds s.afterCut),
            Report.outcome_bind (placeFrom_compensated hs' hc ht)]
          simp [placedLines]
      | false =>
          rw [refedPlunges_resumed hlifts] at hplunges
          obtain ⟨t, ht⟩ := placeFrom_strokes feeds rise ss (m + 1) n _ _ _ hm' hn
            (hs.cut (some c.lastZ)) hcuts' hplunges
          refine ⟨t, ?_⟩
          rw [if_neg (by simp), placeFrom_lines _ (placeFrom_compensated hs hc ht), placedLines,
            StrokeMoves.placed, hlifts]
          simp

end

/-! ## Whole programs -/

/-- A summary and strokes taken apart. -/
theorem part_summary_strokes (rise : Move α) {summary : Program α} (hsummary : IsSummary summary)
    {ss : List (StrokeMoves α)} (hregular : ∀ s ∈ ss, s.Regular) :
    Program.part (summary ++ strokesLines rise ss) =
      ⟨ss.map StrokeMoves.cutBlock, liftedDescents ss ++ [lastRise rise],
        summary.map .line ++ strokesResidue 0 0 ss⟩ :=
  part_strokes (hsummary.kind_ne (by simp) (by simp)) (hsummary.kind_ne (by simp) (by simp))
    hregular

/-- A summary and strokes are compensated to the summary, staged copies without a travel marker, and
the compensated strokes. -/
theorem compensate_strokes [Scalar α] {w : WearParams α} (rise : Move α) {summary : Program α}
    (hsummary : IsSummary summary) {ss : List (StrokeMoves α × CutBlock α)}
    (hregular : ∀ s ∈ ss, s.1.Regular)
    (hcuts : ∀ s ∈ ss, CutBlock.compensate w s.1.cutBlock = .ok s.2) :
    ∃ staged, (∀ l ∈ staged, l.kind ≠ .rapidToStart) ∧
      (Program.compensate w (summary ++ strokesLines rise (ss.map Prod.fst))).outcome
        = .ok (summary ++ staged ++ placedLines w.feeds rise none ss) := by
  have hregular' : ∀ s ∈ ss.map Prod.fst, s.Regular := by
    intro s hs
    obtain ⟨pair, hpair, rfl⟩ := List.mem_map.mp hs
    exact hregular pair hpair
  have hworn : ((ss.map Prod.fst).map StrokeMoves.cutBlock).mapM (CutBlock.compensate w)
      = .ok (ss.map Prod.snd) := by
    rw [Fault.mapM_eq_ok, List.map_map, List.forall₂_map_left_iff, List.forall₂_map_right_iff]
    exact List.forall₂_same.mpr hcuts
  have hrefed := mapM_refeed w.feeds rise (ss.map Prod.fst)
  obtain ⟨t, ht⟩ := placeFrom_strokes w.feeds rise ss 0 0 [] [] ⟨[], none⟩ rfl rfl
    Placing.upto_start rfl rfl
  have hbody : (reassemble (summary.map .line ++ strokesResidue 0 0 (ss.map Prod.fst))
      (ss.map Prod.snd) (refedPlunges w.feeds rise (ss.map Prod.fst))).outcome
      = .ok (summary ++ placedLines w.feeds rise none ss) :=
    outcome_reassemble.mpr ⟨t, placeFrom_lines summary ht⟩
  refine ⟨seatingLines (refedPlunges w.feeds rise (ss.map Prod.fst)),
    fun l hl => kind_seatingLines hl, ?_⟩
  simp only [Program.compensate, Report.bind_eq, part_summary_strokes rise hsummary hregular',
    hworn, hrefed]
  rw [Report.outcome_bind (Report.outcome_tell _), Report.outcome_bind (Report.outcome_tell _),
    Report.outcome_bind (Report.outcome_lift _), Report.outcome_bind (Report.outcome_lift _),
    Report.outcome_bind hbody]
  exact outcome_stagePlunges hsummary _ _

end WireErosion
