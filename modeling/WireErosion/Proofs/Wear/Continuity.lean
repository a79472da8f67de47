import WireErosion.Proofs.Wear.Travel

/-!
# Descents after a cut

Compensation pulls a descent out of the program together with the rise and the travel before it,
and puts it back so that it ends where the cut before it ended.  A descent without a rise is in no
such block and keeps its depth: the one at the start of a further pass over a path that is closed,
and the one from the top of a tab back to the depth of the pass.

`ToolpathParams.descents_of_compensate` says where every descent of a compensated program ends.  The
first kind goes on from the cut before it, and the second kind does not
(`loopToolpath_descent_jumps`).
-/

namespace WireErosion

variable {α : Type}

/-! ## Positions in a program -/

/-- A descent into the material, straight or ramped. -/
def MoveGroup.IsDescent : MoveGroup α → Prop
  | .plunge _ | .ramp _ _ => True
  | _ => False

/-- The depth at which a descent ends. -/
def MoveGroup.endZ : MoveGroup α → Option α
  | .plunge m => m.z
  | .ramp _ last => last.z
  | _ => none

/-- After its last rise the tool has at most started a path and then travelled. -/
def Lifted (gs : List (MoveGroup α)) : Prop :=
  ∃ (before : List (MoveGroup α)) (rise : Move α) (is : List Nat) (last : List (MoveGroup α)),
    gs = before ++ .retract rise :: is.map .header ++ last ∧
      (last = [] ∨ ∃ t d, last = [.travel t d])

/-! ## Stages along a program -/

/-- The stage after some groups. -/
def Stage.after (stage : Stage) : List (MoveGroup α) → Stage
  | [] => stage
  | g :: gs => ((stage.next? g).getD .closed).after gs

theorem Stage.after_append (stage : Stage) : ∀ gs hs : List (MoveGroup α),
    stage.after (gs ++ hs) = (stage.after gs).after hs
  | [], _ => rfl
  | _ :: gs, hs => after_append _ gs hs

theorem Stage.after_headers : ∀ is : List Nat,
    Stage.lifted.after (is.map (MoveGroup.header (α := α))) = .lifted
  | [] => rfl
  | _ :: is => after_headers is

theorem Stage.eq_of_next_lifted {stage : Stage} {g : MoveGroup α}
    (h : (stage.next? g).getD .closed = .lifted) :
    (∃ rise, g = .retract rise) ∨ stage = .lifted ∧ ∃ i, g = .header i := by
  cases g with
  | retract rise => exact .inl ⟨rise, rfl⟩
  | header i => cases stage <;> cases h; exact .inr ⟨rfl, i, rfl⟩
  | _ => cases stage <;> cases h

theorem Stage.eq_of_next_travelled {stage : Stage} {g : MoveGroup α}
    (h : (stage.next? g).getD .closed = .travelled) :
    stage = .lifted ∧ ∃ t d, g = .travel t d := by
  cases g with
  | travel t d => cases stage <;> cases h; exact ⟨rfl, t, d, rfl⟩
  | _ => cases stage <;> cases h

theorem Stage.eq_of_after_lifted {gs : List (MoveGroup α)} (h : Stage.closed.after gs = .lifted) :
    ∃ (before : List (MoveGroup α)) (rise : Move α) (is : List Nat),
      gs = before ++ .retract rise :: is.map .header := by
  induction gs using List.reverseRecOn with
  | nil => cases h
  | append_singleton gs g ih =>
      rw [after_append] at h
      rcases eq_of_next_lifted h with ⟨rise, rfl⟩ | ⟨hgs, i, rfl⟩
      · exact ⟨gs, rise, [], rfl⟩
      · obtain ⟨before, rise, is, rfl⟩ := ih hgs
        exact ⟨before, rise, is ++ [i], by simp⟩

/-- A block is open where the tool rose and has at most travelled since. -/
theorem Stage.after_ne_closed {gs : List (MoveGroup α)} :
    Stage.closed.after gs ≠ .closed ↔ Lifted gs := by
  constructor
  · intro h
    cases hstage : Stage.closed.after gs with
    | closed => exact absurd hstage h
    | lifted =>
        obtain ⟨before, rise, is, rfl⟩ := eq_of_after_lifted hstage
        exact ⟨before, rise, is, [], by simp, .inl rfl⟩
    | travelled =>
        rcases List.eq_nil_or_concat gs with rfl | ⟨gs, g, rfl⟩
        · cases hstage
        · rw [List.concat_eq_append] at hstage ⊢
          rw [after_append] at hstage
          obtain ⟨hgs, t, d, rfl⟩ := eq_of_next_travelled hstage
          obtain ⟨before, rise, is, rfl⟩ := eq_of_after_lifted hgs
          exact ⟨before, rise, is, [.travel t d], rfl, .inr ⟨t, d, rfl⟩⟩
  · have hrise : ∀ (before : List (MoveGroup α)) (rise : Move α) (is : List Nat),
        Stage.closed.after (before ++ .retract rise :: is.map .header) = .lifted := by
      intro before rise is
      rw [after_append]
      exact after_headers is
    rintro ⟨before, rise, is, last, rfl, rfl | ⟨t, d, rfl⟩⟩
    · simp [hrise]
    · rw [after_append, hrise]
      simp [after, next?]

theorem Stage.next?_descent {stage : Stage} {g : MoveGroup α} (hg : g.IsDescent) :
    stage.next? g = if stage = .closed then none else some .closed := by
  cases g <;> cases hg <;> cases stage <;> rfl

/-! ## Descents -/

theorem MoveGroup.isDescent_refed {feeds : PlungeFeeds α} {after : Option (Option α)}
    {g : MoveGroup α} : (g.refed feeds after).IsDescent ↔ g.IsDescent := by
  cases g <;> rfl

theorem MoveGroup.endZ_refed (feeds : PlungeFeeds α) (after : Option α) {g : MoveGroup α}
    (hg : g.IsDescent) : (g.refed feeds (after.map some)).endZ = (after <|> g.endZ) := by
  cases g <;> cases hg <;> cases after <;> rfl

variable [Scalar α]

/-- The depth that the last cut of some groups ends at when it is compensated. -/
def cutEnd (w : WearParams α) : List (MoveGroup α) → Option α
  | [] => none
  | .cut ms :: gs => cutEnd w gs <|>
      (CutBlock.compensate w ⟨.cut :: ms.map .move, none⟩).toOption.bind CutBlock.lastZ
  | _ :: gs => cutEnd w gs

theorem cutEnd_cons {g : MoveGroup α} (h : ∀ ms, g ≠ .cut ms) (w : WearParams α)
    (gs : List (MoveGroup α)) : cutEnd w (g :: gs) = cutEnd w gs := by
  cases g with
  | cut ms => exact absurd rfl (h ms)
  | _ => rfl

theorem cutEnd_cut {w : WearParams α} {ms ms' : List (Move α)} {z : α}
    (h : CutBlock.compensate w ⟨.cut :: ms.map .move, none⟩ = .ok ⟨.cut :: ms'.map .move, some z⟩)
    (gs : List (MoveGroup α)) : cutEnd w (.cut ms :: gs) = (cutEnd w gs <|> some z) := by
  rw [cutEnd, h]
  rfl

/-- A descent of compensated groups is one of the groups before that, and it goes on from the cut
before it if its block was open. -/
theorem Resumes.exists_descent {w : WearParams α} {rest' : List (MoveGroup α)} {g' : MoveGroup α}
    (hg : g'.IsDescent) : ∀ (before' gs : List (MoveGroup α)) (stage : Stage) (after : Option α),
      Resumes w stage (after.map some) gs (before' ++ g' :: rest') →
      ∃ before g rest, gs = before ++ g :: rest ∧ before.length = before'.length ∧ g.IsDescent ∧
        g' = if stage.after before = .closed then g
          else g.refed w.feeds ((cutEnd w before <|> after).map some)
  | [], _, stage, after, h => by
      cases h with
      | cut => cases hg
      | @next _ next _ g gs _ hnext =>
          have hdescent := MoveGroup.isDescent_refed.mp hg
          refine ⟨[], g, gs, rfl, rfl, hdescent, ?_⟩
          have hopen : stage ≠ .closed := by
            rintro rfl
            rw [Stage.next?_descent hdescent] at hnext
            cases hnext
          rw [Stage.after, if_neg hopen]
          rfl
      | @keep _ _ _ gs _ hkeep =>
          refine ⟨[], g', gs, rfl, rfl, hg, ?_⟩
          have hclosed : stage = .closed := by
            by_contra hopen
            rw [Stage.next?_descent hg, if_neg hopen] at hkeep
            cases hkeep
          rw [Stage.after, if_pos hclosed]
  | b' :: before', _, stage, after, h => by
      cases h with
      | @cut _ _ ms _ z gs _ hcut h =>
          obtain ⟨before, g, rest, rfl, hlength, hdescent, hg'⟩ :=
            exists_descent hg before' gs .closed (some z) h
          refine ⟨.cut ms :: before, g, rest, rfl, by simp [hlength], hdescent, ?_⟩
          have hstage : stage.next? (.cut ms) = none := by cases stage <;> rfl
          rw [hg', cutEnd_cut hcut, Stage.after, hstage]
          cases cutEnd w before <;> rfl
      | @next _ next _ b gs _ hnext h =>
          obtain ⟨before, g, rest, rfl, hlength, hdescent, hg'⟩ :=
            exists_descent hg before' gs next after h
          refine ⟨b :: before, g, rest, rfl, by simp [hlength], hdescent, ?_⟩
          have hcut : ∀ ms, b ≠ .cut ms := by
            rintro ms rfl
            cases stage <;> cases hnext
          rw [hg', cutEnd_cons hcut, Stage.after, hnext]
          rfl
      | @keep _ _ _ gs _ hkeep hcut h =>
          obtain ⟨before, g, rest, rfl, hlength, hdescent, hg'⟩ :=
            exists_descent hg before' gs .closed after h
          refine ⟨b' :: before, g, rest, rfl, by simp [hlength], hdescent, ?_⟩
          rw [hg', cutEnd_cons hcut, Stage.after, hkeep]
          rfl

/-! ## Compiled programs -/

/-- Each descent among compensated groups is one of the groups before that.  If it comes with a rise
then it ends where the last cut before it ended, or at its own depth if there is no such cut.
Otherwise it is the same as before. -/
def DescentsFollow (w : WearParams α) (gs gs' : List (MoveGroup α)) : Prop :=
  ∀ before' g' rest', gs' = before' ++ g' :: rest' → g'.IsDescent →
    ∃ before g rest, gs = before ++ g :: rest ∧ before.length = before'.length ∧ g.IsDescent ∧
      (Lifted before → g'.endZ = (cutEnd w before <|> g.endZ)) ∧ (¬ Lifted before → g' = g)

theorem Resumes.descentsFollow {w : WearParams α} {gs gs' : List (MoveGroup α)}
    (h : Resumes w .closed none gs gs') : DescentsFollow w gs gs' := by
  rintro before' g' rest' rfl hg'
  obtain ⟨before, g, rest, rfl, hlength, hg, rfl⟩ := h.exists_descent hg' before' _ .closed none
  refine ⟨before, g, rest, rfl, hlength, hg, fun hlifted => ?_, fun hlifted => ?_⟩
  · rw [if_neg (Stage.after_ne_closed.mpr hlifted), MoveGroup.endZ_refed _ _ hg]
    cases cutEnd w before <;> rfl
  · rw [if_pos (not_not.mp (mt Stage.after_ne_closed.mp hlifted))]

/-- In a compensated program a descent ends where the cut before it ended if it comes with a rise,
and where it ended before compensation if it does not. -/
theorem ToolpathParams.descents_of_compensate {c : ToolpathParams α} {paths : List (CamPath α)}
    {w : WearParams α} {summary p q : Program α} (h : c.compile paths = .ok p)
    (hsummary : IsSummary summary)
    (hq : (Program.compensate w (summary ++ p)).outcome = .ok q) :
    ∃ (gs gs' : List (MoveGroup α)) (plunges : List (PlungeBlock α)),
      p = groupLines gs ∧ q = summary ++ seatingLines plunges ++ groupLines gs' ∧
      DescentsFollow w gs gs' := by
  obtain ⟨rise, parts, rfl, hrise, hparts⟩ := exists_groups h
  obtain ⟨s, hs, -⟩ := roundField_eq_some hrise.z
  have hsound : ∀ g ∈ MoveGroup.retract rise :: parts.flatten, Sound s g :=
    List.forall_mem_cons.mpr ⟨hrise.sound hs, hparts.sound hs⟩
  obtain ⟨blocks, gs', -, hresumes, rfl⟩ :=
    Program.groups_of_compensate hsummary (fun g hg => (hsound g hg).2.1) hq
  exact ⟨_, gs', _, rfl, rfl, hresumes.descentsFollow⟩

/-- A straight path that the tool may close, or may not. -/
def slit (safeToClose : Bool) : CamPath Float :=
  ⟨[⟨0, 0, 0⟩, ⟨1, 0, 0⟩, ⟨2, 0, 0⟩], safeToClose⟩

/-- Half of the distance worn off, on doubles. -/
def halfWear : WearParams Float := ⟨0.5, 50, 1, some 1000, some 10, 0, 5, 8⟩

/-- The summary of a wear ratio. -/
def halfSummary : Program Float := [.comment "; Wear Ratio:   0.5", .comment ";"]

theorem isSummary_halfSummary : IsSummary halfSummary :=
  ⟨[], _, rfl, by simp, by decide⟩

/-- Two passes over a slit that may not be closed, so that each descent is rewritten. -/
theorem loopToolpath_descents_of_compensate :
    ∃ p q, loopToolpath.compile [slit false] = .ok p ∧
      (Program.compensate halfWear (halfSummary ++ p)).outcome = .ok q ∧
      ∃ (gs gs' : List (MoveGroup Float)) (plunges : List (PlungeBlock Float)),
        p = groupLines gs ∧ q = halfSummary ++ seatingLines plunges ++ groupLines gs' ∧
        DescentsFollow halfWear gs gs' := by
  obtain ⟨p, hp⟩ : ∃ p, loopToolpath.compile [slit false] = .ok p := ⟨_, rfl⟩
  obtain ⟨q, hq⟩ : ∃ q, (loopToolpath.compile [slit false]).bind
      (fun p => (Program.compensate halfWear (halfSummary ++ p)).outcome) = .ok q := by
    refine Fault.exists_eq_ok ?_
    decide +kernel
  rw [hp] at hq
  exact ⟨p, q, hp, hq, ToolpathParams.descents_of_compensate hp isSummary_halfSummary hq⟩

/-- The groups of the slit, closed, in two passes. -/
def slitGroups : List (MoveGroup Float) :=
  [.retract (.rapid none none (some 5)), .header 0,
    .travel (.rapid (some 0) (some 0) none) (.rapid none none (some 0)),
    .plunge (.linear none none (some (-1)) (some 60) none),
    .cut [.linear (some 1) (some 0) none (some 200) none,
      .linear (some 2) (some 0) none none none],
    .travel (.rapid (some 0) (some 0) none) (.rapid none none (some (-1))),
    .plunge (.linear none none (some (-2)) (some 60) none),
    .cut [.linear (some 1) (some 0) none (some 200) none,
      .linear (some 2) (some 0) none none none],
    .retract (.rapid none none (some 5))]

/-- The same groups compensated. -/
def wornSlitGroups : List (MoveGroup Float) :=
  [.retract (.linear none none (some 5) (some 10) none), .header 0,
    .travel (.linear (some 0) (some 0) none (some 1000) none)
      (.linear none none (some 0) (some 10) none),
    .plunge (.linear none none (some (-1)) (some 50) none),
    .cut [.linear (some 1) (some 0) (some (-1)) (some 200) none,
      .linear (some 2) (some 0) (some (-1.5)) none none],
    .travel (.rapid (some 0) (some 0) none) (.rapid none none (some (-1))),
    .plunge (.linear none none (some (-2)) (some 60) none),
    .cut [.linear (some 1) (some 0) (some (-1)) (some 200) none,
      .linear (some 2) (some 0) (some (-1.5)) none none],
    .retract (.linear none none (some 5) (some 10) none)]

/-- The second pass over the slit is entered without a rise.  Its descent still ends at the depth of
the pass, though the cut before it ended above that. -/
theorem loopToolpath_descent_jumps :
    loopToolpath.compile [slit true] = .ok (groupLines slitGroups) ∧
    (∃ plunges, (Program.compensate halfWear (halfSummary ++ groupLines slitGroups)).outcome
      = .ok (halfSummary ++ seatingLines plunges ++ groupLines wornSlitGroups)) ∧
    ¬ ∀ before' g' rest', wornSlitGroups = before' ++ g' :: rest' → g'.IsDescent →
      ∀ z, cutEnd halfWear (slitGroups.take before'.length) = some z → g'.endZ = some z := by
  refine ⟨by decide +kernel, ?_, fun h => ?_⟩
  · refine ⟨[(wornSlitGroups.take 4).flatMap MoveGroup.steps,
      (wornSlitGroups.drop 8).flatMap MoveGroup.steps], ?_⟩
    decide +kernel
  · have hend : cutEnd halfWear (slitGroups.take 6) = some (-1.5) := by decide +kernel
    have hjump := h (wornSlitGroups.take 6) _ _ rfl trivial _ hend
    have hdeep : (some (-2) : Option Float) ≠ some (-1.5) := by decide +kernel
    exact hdeep hjump

end WireErosion
