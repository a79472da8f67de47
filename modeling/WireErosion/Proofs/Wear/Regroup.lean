import WireErosion.Proofs.Residue.Phases
import WireErosion.Proofs.Toolpath.Group
import WireErosion.Proofs.Wear.Replacing

/-!
# Compensating a program group by group

Compensation turns the groups of a compiled program into groups of the same kinds.  A group is
either part of a plunge block, a cut, or left as it is, and which of these depends on the groups
before it.  `Stage` is what has to be known about them, and `Stage.next?` says which groups a plunge
block goes on with.

`Resumes` relates the groups before and after.  A group of a plunge block is put at the feeds of its
roles, and if it ends a descent it goes down to where the cut before it ended (`MoveGroup.refed`).
What is in no block stays, descents among it.  `Program.groups_of_compensate` says that every
compensation that has a result is of this form.
-/

namespace WireErosion

variable {α : Type}

/-! ## Stages -/

/-- How far a plunge block has come between two groups. -/
inductive Stage where
  /-- It is over, or there is none. -/
  | closed
  /-- It has its rise. -/
  | lifted
  /-- It has its travel. -/
  | travelled
deriving DecidableEq

/-- The stage after a group that is part of a plunge block, `none` if it is in no such block. -/
def Stage.next? : Stage → MoveGroup α → Option Stage
  | _, .retract _ => some .lifted
  | .lifted, .header _ => some .lifted
  | .lifted, .travel _ _ => some .travelled
  | .lifted, .plunge _ | .travelled, .plunge _ => some .closed
  | .lifted, .ramp _ _ | .travelled, .ramp _ _ => some .closed
  | _, _ => none

/-- The phase that a plunge block is in at a stage. -/
def Stage.phase : Stage → Option Phase
  | .closed => none
  | .lifted => some .header
  | .travelled => some (.travelling true)

namespace MoveGroup

/-- The steps of a group that is part of a plunge block. -/
def steps : MoveGroup α → PlungeBlock α
  | .retract m => [⟨.retract, none⟩, ⟨.move m, some .retract⟩]
  | .header i => [⟨.blank, none⟩, ⟨.pathStart i, none⟩]
  | .travel t d => [⟨.rapidToStart, none⟩, ⟨.move t, some .travel⟩, ⟨.move d, some .zeroPlunge⟩]
  | .plunge m => [⟨.plunge, none⟩, ⟨.move m, some .plunge⟩]
  | .ramp way last =>
    ⟨.ramp, none⟩ :: way.map (fun m => ⟨.move m, none⟩) ++ [⟨.move last, some .plunge⟩]
  | .ontoTab _ => []
  | .cut _ => []

/-- A group of a plunge block at its feeds, where `after` is the depth that the cut before it ended
at, if there is one. -/
def refed (feeds : PlungeFeeds α) (after : Option (Option α)) : MoveGroup α → MoveGroup α
  | .retract m => .retract { m with motion := .linear, f := feeds.retract }
  | .travel t d => .travel { t with motion := .linear, f := feeds.travel }
      { d with motion := .linear, f := feeds.retract }
  | .plunge m => .plunge { m with motion := .linear, f := feeds.plunge, z := after.getD m.z }
  | .ramp way last =>
    .ramp way { last with motion := .linear, f := feeds.plunge, z := after.getD last.z }
  | g => g

end MoveGroup

/-! ## Cuts -/

/-- The cuts of some groups, as blocks. -/
def cutBlocks : List (MoveGroup α) → List (CutBlock α)
  | [] => []
  | .cut ms :: gs => ⟨.cut :: ms.map .move, none⟩ :: cutBlocks gs
  | _ :: gs => cutBlocks gs

/-- What is left of some groups without their cuts, where `m` cuts came before. -/
def cutsRemoved (m : Nat) : List (MoveGroup α) → Residue α
  | [] => []
  | .cut _ :: gs => .handle ⟨.cut, m⟩ :: cutsRemoved (m + 1) gs
  | g :: gs => g.lines.map .line ++ cutsRemoved m gs

theorem cutsRemoved_cons {g : MoveGroup α} (h : ∀ ms, g ≠ .cut ms) (m : Nat)
    (gs : List (MoveGroup α)) :
    cutsRemoved m (g :: gs) = g.lines.map .line ++ cutsRemoved m gs := by
  cases g with
  | cut ms => exact absurd rfl (h ms)
  | _ => rfl

theorem cutBlocks_cons {g : MoveGroup α} (h : ∀ ms, g ≠ .cut ms) (gs : List (MoveGroup α)) :
    cutBlocks (g :: gs) = cutBlocks gs := by
  cases g with
  | cut ms => exact absurd rfl (h ms)
  | _ => rfl

theorem MoveGroup.kind_ne_cut {g : MoveGroup α} (h : ∀ ms, g ≠ .cut ms) {l : Line α}
    (hl : l ∈ g.lines) : l.kind ≠ .cut := by
  refine kind_ne_of_marks (by simp) ?_ hl
  cases g with
  | cut ms => exact absurd rfl (h ms)
  | _ => simp [marks]

theorem MoveGroup.kind_ne_retract {g : MoveGroup α} (h : ∀ m, g ≠ .retract m) {l : Line α}
    (hl : l ∈ g.lines) : l.kind ≠ .retract := by
  refine kind_ne_of_marks (by simp) ?_ hl
  cases g with
  | retract m => exact absurd rfl (h m)
  | _ => simp [marks]

/-- A group starts with a comment. -/
theorem MoveGroup.exists_lines (g : MoveGroup α) : ∃ t ls, g.lines = .comment t :: ls := by
  cases g <;> exact ⟨_, _, rfl⟩

theorem closes_groupLines (gs : List (MoveGroup α)) : Closes (groupLines gs) := by
  cases gs with
  | nil => exact fun _ => rfl
  | cons g gs =>
      obtain ⟨t, ls, hlines⟩ := g.exists_lines
      rw [groupLines_cons, hlines, List.cons_append]
      exact closes_comment _ _

theorem cutsFrom_groups : ∀ (gs : List (MoveGroup α)) (m : Nat),
    cutsFrom m false (groupLines gs) = ([], cutBlocks gs, cutsRemoved m gs)
  | [], _ => rfl
  | g :: gs, m => by
      by_cases h : ∀ ms, g ≠ .cut ms
      · rw [groupLines_cons, cutsFrom_append_outside fun _ hl => MoveGroup.kind_ne_cut h hl,
          cutsFrom_groups gs, cutBlocks_cons h, cutsRemoved_cons h]
      · push Not at h
        obtain ⟨ms, rfl⟩ := h
        have hlines : groupLines (.cut ms :: gs) = .cut :: (ms.map .move ++ groupLines gs) := rfl
        rw [hlines, cutsFrom_cut Line.kind_cut, cutsFrom_append_moves, closes_groupLines gs,
          cutsFrom_groups gs, List.append_nil]
        rfl

/-! ## Plunges -/

theorem startsWithMove_cutsRemoved (m : Nat) (gs : List (MoveGroup α)) :
    startsWithMove (cutsRemoved m gs) = false := by
  cases gs with
  | nil => rfl
  | cons g gs => cases g <;> rfl

section

variable {n : Nat} {r : Residue α}

/-- A retract starts a block. -/
theorem plungesFrom_retractGroup (stage : Stage) (m : Move α) :
    plungesFrom n stage.phase ((MoveGroup.retract m).lines.map .line ++ r) =
      ([], ((MoveGroup.retract m).steps ++ (plungesFrom (n + 1) (some .header) r).1)
          :: (plungesFrom (n + 1) (some .header) r).2.1,
        .handle ⟨.plunge, n⟩ :: (plungesFrom (n + 1) (some .header) r).2.2) := by
  have hcomment : taken? stage.phase (.line .retract) (.line (.move m) :: r) = none := by
    cases stage <;> rfl
  have hmove : taken? (some .started) (.line (.move m)) r
      = some (⟨.move m, some .retract⟩, .header) := rfl
  have hlines : (MoveGroup.retract m).lines.map .line ++ r
      = .line .retract :: .line (.move m) :: r := rfl
  rw [hlines, plungesFrom_retract hcomment Line.kind_retract, plungesFrom_taken hmove]
  rfl

/-- An open block goes on with a group. -/
theorem plungesFrom_next {stage next : Stage} {g : MoveGroup α} (hg : g.Regular)
    (h : stage.next? g = some next) (hlift : ∀ m, g ≠ .retract m)
    (hr : startsWithMove r = false) :
    plungesFrom n stage.phase (g.lines.map .line ++ r)
      = afterSteps g.steps (plungesFrom n next.phase r) := by
  cases g with
  | retract m => exact absurd rfl (hlift m)
  | header i =>
      cases stage <;> cases h
      have hblank : ∀ rest : Residue α, taken? (some .header) (.line .blank) rest
          = some (⟨.blank, none⟩, .header) := fun _ => rfl
      have hlines : (MoveGroup.header i).lines.map .line ++ r
          = .line .blank :: .line (.pathStart i) :: r := rfl
      rw [hlines, Stage.phase, plungesFrom_taken (hblank _),
        plungesFrom_taken (taken?_pathStart i _)]
      rfl
  | travel t d =>
      cases stage <;> cases h
      obtain ⟨hrapid, hxy, hrapid', hxy'⟩ := hg
      have hstart : ∀ rest : Residue α, taken? (some .header) (.line .rapidToStart) rest
          = some (⟨.rapidToStart, none⟩, .travelling false) := fun _ => rfl
      have hlines : (MoveGroup.travel t d).lines.map .line ++ r
          = .line .rapidToStart :: .line (.move t) :: .line (.move d) :: r := rfl
      rw [hlines, Stage.phase, plungesFrom_taken (hstart _),
        plungesFrom_taken (taken?_travel hrapid hxy _),
        plungesFrom_taken (taken?_zeroPlunge hrapid' hxy' _)]
      rfl
  | plunge m =>
      have hcomment : ∀ rest : Residue α, taken? stage.phase (.line .plunge) rest
          = some (⟨.plunge, none⟩, .plunging) := by
        intro rest
        cases stage <;> cases h <;> rfl
      have hmove : taken? (some .plunging) (.line (.move m)) r
          = some (⟨.move m, some .plunge⟩, .finished) := rfl
      have hnext : next = .closed := by cases stage <;> cases h <;> rfl
      have hlines : (MoveGroup.plunge m).lines.map .line ++ r
          = .line .plunge :: .line (.move m) :: r := rfl
      rw [hlines, plungesFrom_taken (hcomment _), plungesFrom_taken hmove, plungesFrom_finished,
        hnext]
      rfl
  | ramp way last =>
      have hcomment : ∀ rest : Residue α, taken? stage.phase (.line .ramp) rest
          = some (⟨.ramp, none⟩, .ramping) := by
        intro rest
        cases stage <;> cases h <;> rfl
      have hnext : next = .closed := by cases stage <;> cases h <;> rfl
      have hlines : (MoveGroup.ramp way last).lines.map .line ++ r
          = Residual.line .ramp
            :: ((way ++ [last]).map (fun m => Residual.line (.move m)) ++ r) := by
        simp [MoveGroup.lines, MoveGroup.comments, MoveGroup.moves]
      rw [hlines, plungesFrom_taken (hcomment _), plungesFrom_rampMoves last hr, hnext]
      rfl
  | ontoTab m => cases stage <;> cases h
  | cut ms => cases stage <;> cases h

/-- A group that is in no block stays. -/
theorem plungesFrom_kept {stage : Stage} {g : MoveGroup α} (h : stage.next? g = none)
    (hcut : ∀ ms, g ≠ .cut ms) :
    plungesFrom n stage.phase (g.lines.map .line ++ r) =
      ([], (plungesFrom n none r).2.1, g.lines.map .line ++ (plungesFrom n none r).2.2) := by
  have hclosed : plungesFrom n stage.phase (g.lines.map .line ++ r)
      = plungesFrom n none (g.lines.map .line ++ r) := by
    cases g with
    | cut ms => exact absurd rfl (hcut ms)
    | _ =>
        refine plungesFrom_untaken ?_
        cases stage <;> first | rfl | cases h
  have hlift : ∀ m, g ≠ .retract m := by
    rintro m rfl
    cases stage <;> cases h
  have hkind : ∀ l ∈ g.lines, l.kind ≠ .retract := fun l hl => MoveGroup.kind_ne_retract hlift hl
  rw [hclosed, plungesFrom_append_lines hkind]

end

/-- The groups at the front that an open block goes on with.  A retract starts another block. -/
def Stage.run : Stage → List (MoveGroup α) → List (MoveGroup α)
  | _, [] => []
  | stage, g :: gs =>
    match g, stage.next? g with
    | .retract _, _ => []
    | g, some next => g :: next.run gs
    | _, none => []

/-- The plunge blocks of some groups, one for each retract. -/
def plungeBlocks : List (MoveGroup α) → List (PlungeBlock α)
  | [] => []
  | .retract m :: gs =>
    ((MoveGroup.retract m).steps ++ (Stage.lifted.run gs).flatMap MoveGroup.steps) ::
      plungeBlocks gs
  | _ :: gs => plungeBlocks gs

theorem Stage.run_retract (stage : Stage) (m : Move α) (gs : List (MoveGroup α)) :
    stage.run (.retract m :: gs) = [] := by rw [Stage.run]

theorem Stage.run_none {stage : Stage} {g : MoveGroup α} (h : stage.next? g = none)
    (gs : List (MoveGroup α)) : stage.run (g :: gs) = [] := by
  cases g <;> simp only [Stage.run, h]

theorem Stage.run_some {stage next : Stage} {g : MoveGroup α} (h : stage.next? g = some next)
    (hlift : ∀ m, g ≠ .retract m) (gs : List (MoveGroup α)) :
    stage.run (g :: gs) = g :: next.run gs := by
  cases g with
  | retract m => exact absurd rfl (hlift m)
  | _ => simp only [Stage.run, h]

/-- An open block ends at a group, or it goes on with it and the stage after it. -/
theorem Stage.run_cons (stage : Stage) (g : MoveGroup α) (gs : List (MoveGroup α)) :
    stage.run (g :: gs) = [] ∨ ∃ next, stage.next? g = some next ∧ (∀ m, g ≠ .retract m) ∧
      stage.run (g :: gs) = g :: next.run gs := by
  by_cases hlift : ∃ rise, g = .retract rise
  · obtain ⟨rise, rfl⟩ := hlift
    exact .inl (Stage.run_retract ..)
  · have hlift' : ∀ rise, g ≠ .retract rise := fun rise h => hlift ⟨rise, h⟩
    cases hnext : stage.next? g with
    | none => exact .inl (Stage.run_none hnext gs)
    | some next => exact .inr ⟨next, rfl, hlift', Stage.run_some hnext hlift' gs⟩

theorem plungeBlocks_cons {g : MoveGroup α} (h : ∀ m, g ≠ .retract m) (gs : List (MoveGroup α)) :
    plungeBlocks (g :: gs) = plungeBlocks gs := by
  cases g with
  | retract m => exact absurd rfl (h m)
  | _ => rfl

/-- The open block goes on with groups at the front, and each retract starts a block. -/
theorem plungesFrom_cutsRemoved : ∀ {gs : List (MoveGroup α)} (m n : Nat) (stage : Stage),
    (∀ g ∈ gs, g.Regular) →
    (plungesFrom n stage.phase (cutsRemoved m gs)).1 = (stage.run gs).flatMap MoveGroup.steps ∧
    (plungesFrom n stage.phase (cutsRemoved m gs)).2.1 = plungeBlocks gs
  | [], _, _, _, _ => ⟨rfl, rfl⟩
  | g :: gs, m, n, stage, hgs => by
      obtain ⟨hg, hgs'⟩ := List.forall_mem_cons.mp hgs
      by_cases hcut : ∃ ms, g = .cut ms
      · obtain ⟨ms, rfl⟩ := hcut
        obtain ⟨-, hblocks⟩ := plungesFrom_cutsRemoved (m + 1) n .closed hgs'
        rw [cutsRemoved, plungesFrom_handle, Stage.run_none (by cases stage <;> rfl)]
        exact ⟨rfl, hblocks⟩
      · have hcut' : ∀ ms, g ≠ .cut ms := fun ms h => hcut ⟨ms, h⟩
        rw [cutsRemoved_cons hcut']
        by_cases hlift : ∃ rise, g = .retract rise
        · obtain ⟨rise, rfl⟩ := hlift
          obtain ⟨hopen, hblocks⟩ := plungesFrom_cutsRemoved m (n + 1) .lifted hgs'
          rw [Stage.phase] at hopen hblocks
          rw [plungesFrom_retractGroup, Stage.run_retract, plungeBlocks, hopen, hblocks]
          exact ⟨rfl, rfl⟩
        · have hlift' : ∀ rise, g ≠ .retract rise := fun rise h => hlift ⟨rise, h⟩
          rw [plungeBlocks_cons hlift']
          cases hnext : stage.next? g with
          | none =>
              obtain ⟨-, hblocks⟩ := plungesFrom_cutsRemoved m n .closed hgs'
              rw [plungesFrom_kept hnext hcut', Stage.run_none hnext]
              exact ⟨rfl, hblocks⟩
          | some next =>
              obtain ⟨hopen, hblocks⟩ := plungesFrom_cutsRemoved m n next hgs'
              rw [plungesFrom_next hg hnext hlift' (startsWithMove_cutsRemoved m gs),
                Stage.run_some hnext hlift', afterSteps, hopen, List.flatMap_cons]
              exact ⟨rfl, hblocks⟩

/-- A block that some groups give: a retract and other groups after it. -/
def PlungeBlock.IsFrom (gs : List (MoveGroup α)) (b : PlungeBlock α) : Prop :=
  ∃ (rise : Move α) (run : List (MoveGroup α)), .retract rise ∈ gs ∧
    (∀ g ∈ run, g ∈ gs ∧ ∀ m, g ≠ .retract m) ∧
    b = (MoveGroup.retract rise).steps ++ run.flatMap MoveGroup.steps

theorem PlungeBlock.IsFrom.mono {gs hs : List (MoveGroup α)} {b : PlungeBlock α}
    (h : b.IsFrom gs) (hsub : ∀ g ∈ gs, g ∈ hs) : b.IsFrom hs := by
  obtain ⟨rise, run, hrise, hrun, rfl⟩ := h
  exact ⟨rise, run, hsub _ hrise, fun g hg => ⟨hsub g (hrun g hg).1, (hrun g hg).2⟩, rfl⟩

theorem Stage.of_mem_run : ∀ {gs : List (MoveGroup α)} {stage : Stage} {g : MoveGroup α},
    g ∈ stage.run gs → g ∈ gs ∧ ∀ m, g ≠ .retract m
  | [], _, _, h => by cases h
  | k :: gs, stage, g, h => by
      rcases stage.run_cons k gs with hrun | ⟨next, -, hlift, hrun⟩
      · rw [hrun] at h
        cases h
      · rw [hrun] at h
        rcases List.mem_cons.mp h with rfl | h
        · exact ⟨List.mem_cons_self .., hlift⟩
        · obtain ⟨hmem, hne⟩ := Stage.of_mem_run h
          exact ⟨List.mem_cons_of_mem _ hmem, hne⟩

theorem isFrom_of_mem_plungeBlocks {b : PlungeBlock α} : ∀ {gs : List (MoveGroup α)},
    b ∈ plungeBlocks gs → b.IsFrom gs
  | [], h => by cases h
  | g :: gs, h => by
      have hsub : ∀ k ∈ gs, k ∈ g :: gs := fun k hk => List.mem_cons_of_mem _ hk
      by_cases hlift : ∃ rise, g = .retract rise
      · obtain ⟨rise, rfl⟩ := hlift
        rw [plungeBlocks] at h
        rcases List.mem_cons.mp h with rfl | h
        · exact ⟨rise, _, List.mem_cons_self .., fun k hk =>
            ⟨hsub k (Stage.of_mem_run hk).1, (Stage.of_mem_run hk).2⟩, rfl⟩
        · exact (isFrom_of_mem_plungeBlocks h).mono hsub
      · rw [plungeBlocks_cons fun rise h => hlift ⟨rise, h⟩] at h
        exact (isFrom_of_mem_plungeBlocks h).mono hsub

/-- The blocks of groups are made of them. -/
theorem isFrom_of_plungesFrom {gs : List (MoveGroup α)} (m n : Nat) (stage : Stage)
    (hgs : ∀ g ∈ gs, g.Regular) :
    ∀ b ∈ (plungesFrom n stage.phase (cutsRemoved m gs)).2.1, b.IsFrom gs := by
  rw [(plungesFrom_cutsRemoved m n stage hgs).2]
  exact fun b => isFrom_of_mem_plungeBlocks

/-! ## Feeds and depths -/

section

variable {feeds : PlungeFeeds α} {after : Option (Option α)}

theorem PlungeBlock.refeed_append_eq_ok {b b' c : PlungeBlock α}
    (h : PlungeBlock.refeed feeds (b ++ b') = .ok c) :
    ∃ d d', PlungeBlock.refeed feeds b = .ok d ∧ PlungeBlock.refeed feeds b' = .ok d' ∧
      c = d ++ d' := by
  induction b generalizing c with
  | nil => exact ⟨[], c, rfl, h, rfl⟩
  | cons s b ih =>
      rw [PlungeBlock.refeed, Fault.mapM_eq_ok] at h
      cases h with
      | cons hs h =>
          obtain ⟨d, d', hd, hd', rfl⟩ := ih (Fault.mapM_eq_ok.mpr h)
          refine ⟨_ :: d, d', ?_, hd', rfl⟩
          exact Fault.mapM_eq_ok.mpr (.cons hs (Fault.mapM_eq_ok.mp hd))

/-- A block that is not open has no lines. -/
theorem PlungeBlock.eq_nil_of_resume {b : PlungeBlock α} {ls : List (Line α)}
    (hb : PlungeBlock.refeed feeds [] = .ok b) (hls : b.resume after = .ok ls) : ls = [] := by
  cases hb
  cases after <;> cases hls <;> rfl

/-- Steps before the one that finishes the descent stay as they are. -/
theorem PlungeBlock.resume_append (b' : PlungeBlock α) : ∀ {b : PlungeBlock α},
    (∀ s ∈ b, s.role ≠ some .plunge) →
    PlungeBlock.resume after (b ++ b') = (PlungeBlock.resume after b').map (b.lines ++ ·)
  | [], _ => by
      rw [List.nil_append]
      cases PlungeBlock.resume after b' <;> rfl
  | s :: b, h => by
      have hs := h s (List.mem_cons_self ..)
      have ih := resume_append b' fun s hs => h s (List.mem_cons_of_mem _ hs)
      have hlines : PlungeBlock.resume after (s :: (b ++ b'))
          = (PlungeBlock.resume after (b ++ b')).map (s.line :: ·) := by
        cases after with
        | none => rfl
        | some z =>
            cases hterminal : PlungeBlock.terminal? (b ++ b') with
            | some i => exact PlungeBlock.withTerminalZ_cons_of_some hterminal
            | none =>
                simp only [PlungeBlock.resume]
                rw [PlungeBlock.withTerminalZ_of_none
                  (PlungeBlock.terminal?_cons_of_other hterminal hs),
                  PlungeBlock.withTerminalZ_of_none hterminal]
                rfl
      rw [List.cons_append, hlines, ih]
      cases PlungeBlock.resume after b' <;> rfl

theorem MoveGroup.rolesOnMoves_steps (g : MoveGroup α) : PlungeBlock.RolesOnMoves g.steps := by
  intro s hs hrole
  cases g with
  | ramp way last =>
      simp only [steps, List.mem_append, List.mem_cons, List.mem_map, List.not_mem_nil,
        or_false] at hs
      rcases hs with (rfl | ⟨m, -, rfl⟩) | rfl
      · exact absurd rfl hrole
      · rfl
      · rfl
  | travel t d =>
      simp only [steps, List.mem_cons, List.not_mem_nil, or_false] at hs
      rcases hs with rfl | rfl | rfl
      · exact absurd rfl hrole
      · rfl
      · rfl
  | ontoTab m => cases hs
  | cut ms => cases hs
  | _ =>
      simp only [steps, List.mem_cons, List.not_mem_nil, or_false] at hs
      rcases hs with rfl | rfl <;> first | rfl | exact absurd rfl hrole

theorem PlungeBlock.IsFrom.rolesOnMoves {gs : List (MoveGroup α)} {b : PlungeBlock α}
    (h : b.IsFrom gs) : b.RolesOnMoves := by
  obtain ⟨rise, run, -, -, rfl⟩ := h
  intro s hs
  rcases List.mem_append.mp hs with hs | hs
  · exact (MoveGroup.retract rise).rolesOnMoves_steps s hs
  · obtain ⟨g, -, hs⟩ := List.mem_flatMap.mp hs
    exact g.rolesOnMoves_steps s hs

theorem MoveGroup.refeed_steps (feeds : PlungeFeeds α) (g : MoveGroup α) :
    PlungeBlock.refeed feeds g.steps = .ok (g.steps.map (PlungeStep.refed feeds)) :=
  PlungeBlock.refeed_eq feeds g.rolesOnMoves_steps

/-- The steps of a group in an open block, at their feeds and after a cut. -/
theorem MoveGroup.resume_steps {stage next : Stage} {g : MoveGroup α}
    (h : stage.next? g = some next) :
    PlungeBlock.resume after (g.steps.map (PlungeStep.refed feeds))
      = .ok (g.refed feeds after).lines := by
  cases g with
  | plunge m =>
      cases after with
      | none => rfl
      | some z => exact PlungeBlock.withTerminalZ_append z _ [⟨.plunge, none⟩]
  | ramp way last =>
      have hsteps : (MoveGroup.ramp way last).steps.map (PlungeStep.refed feeds)
          = (⟨.ramp, none⟩ :: way.map (fun m => ⟨.move m, none⟩)) ++
            [⟨.move { last with motion := .linear, f := feeds.plunge }, some .plunge⟩] := by
        simp only [steps, List.map_append, List.map_cons, List.map_map]
        rfl
      have hlines : PlungeBlock.lines (⟨.ramp, none⟩ :: way.map (fun m => ⟨.move m, none⟩))
          = .ramp :: way.map .move := by
        simp [PlungeBlock.lines]
      rw [hsteps]
      cases after with
      | none => simp [PlungeBlock.resume, PlungeBlock.lines, refed, lines, comments, moves]
      | some z =>
          rw [PlungeBlock.resume, PlungeBlock.withTerminalZ_append z _, hlines]
          simp [refed, lines, comments, moves]
  | ontoTab m => cases stage <;> cases h
  | cut ms => cases stage <;> cases h
  | _ => cases after <;> rfl

/-- Unless a group ends a descent no step of it does. -/
theorem MoveGroup.role_steps {stage next : Stage} {g : MoveGroup α}
    (h : stage.next? g = some next) (hnext : next ≠ .closed) :
    ∀ s ∈ g.steps.map (PlungeStep.refed feeds), s.role ≠ some .plunge := by
  intro s hs
  cases g with
  | plunge m => cases stage <;> cases h <;> exact absurd rfl hnext
  | ramp way last => cases stage <;> cases h <;> exact absurd rfl hnext
  | ontoTab m => cases hs
  | cut ms => cases hs
  | travel t d =>
      simp only [steps, PlungeStep.refed, List.map_cons, List.map_nil, List.mem_cons,
        List.not_mem_nil, or_false] at hs
      rcases hs with rfl | rfl | rfl <;> simp
  | _ =>
      simp only [steps, PlungeStep.refed, List.map_cons, List.map_nil, List.mem_cons,
        List.not_mem_nil, or_false] at hs
      rcases hs with rfl | rfl <;> simp

/-- The steps of a group and of what follows it in its block, which is nothing after a descent. -/
theorem MoveGroup.resume_next {stage next : Stage} {g : MoveGroup α} {b : PlungeBlock α}
    (h : stage.next? g = some next) (hb : next = .closed → b = []) :
    PlungeBlock.resume after (g.steps.map (PlungeStep.refed feeds) ++ b)
      = (PlungeBlock.resume after b).map ((g.refed feeds after).lines ++ ·) := by
  have hsteps : PlungeBlock.resume after (g.steps.map (PlungeStep.refed feeds))
      = .ok (g.refed feeds after).lines := resume_steps h
  by_cases hnext : next = .closed
  · rw [hb hnext, List.append_nil, hsteps]
    cases after <;> simp [PlungeBlock.resume, PlungeBlock.withTerminalZ, PlungeBlock.terminal?,
      PlungeBlock.lines, Except.map]
  · have hrole : ∀ s ∈ g.steps.map (PlungeStep.refed feeds), s.role ≠ some .plunge :=
      role_steps h hnext
    have hlines : PlungeBlock.lines (g.steps.map (PlungeStep.refed feeds))
        = (g.refed feeds after).lines := by
      have happend : PlungeBlock.resume after (g.steps.map (PlungeStep.refed feeds) ++ []) = _ :=
        PlungeBlock.resume_append [] hrole
      rw [List.append_nil, hsteps] at happend
      cases after <;> simpa [PlungeBlock.resume, PlungeBlock.withTerminalZ, PlungeBlock.terminal?,
        PlungeBlock.lines, Except.map] using happend.symm
    rw [PlungeBlock.resume_append b hrole, hlines]

end

/-! ## Compensated groups -/

variable [Scalar α]

/-- The groups that compensation makes of some groups, where `after` is the depth that the cut
before them ended at, if there is one. -/
inductive Resumes (w : WearParams α) :
    Stage → Option (Option α) → List (MoveGroup α) → List (MoveGroup α) → Prop
  | done {stage : Stage} {after : Option (Option α)} : Resumes w stage after [] []
  | cut {stage : Stage} {after : Option (Option α)} {ms ms' : List (Move α)} {z : α}
      {gs gs' : List (MoveGroup α)} :
      CutBlock.compensate w ⟨.cut :: ms.map .move, none⟩ = .ok ⟨.cut :: ms'.map .move, some z⟩ →
      Resumes w .closed (some (some z)) gs gs' →
      Resumes w stage after (.cut ms :: gs) (.cut ms' :: gs')
  | next {stage next : Stage} {after : Option (Option α)} {g : MoveGroup α}
      {gs gs' : List (MoveGroup α)} :
      stage.next? g = some next → Resumes w next after gs gs' →
      Resumes w stage after (g :: gs) (g.refed w.feeds after :: gs')
  | keep {stage : Stage} {after : Option (Option α)} {g : MoveGroup α}
      {gs gs' : List (MoveGroup α)} :
      stage.next? g = none → (∀ ms, g ≠ .cut ms) → Resumes w .closed after gs gs' →
      Resumes w stage after (g :: gs) (g :: gs')

theorem motion_intermediateMoves {m : Move α} {a b : Modal α} {spacing : α}
    {points : List (Move α)} (h : intermediateMoves m a b spacing = .ok points) :
    ∀ m' ∈ points, m'.motion = m.motion := by
  unfold intermediateMoves at h
  dsimp only at h
  split at h
  next =>
    cases h
    simp
  next =>
    simp only [Fault.bind_eq_ok, pure, Except.pure, Except.ok.injEq] at h
    obtain ⟨quotient, -, count, -, rfl⟩ := h
    intro m' hm'
    obtain ⟨d, -, rfl⟩ := List.mem_map.mp hm'
    rfl

theorem exists_subdivideFrom_moves {spacing : α} : ∀ {ms : List (Move α)} {p : Modal α}
    {ls : List (Line α)}, subdivideFrom spacing p (ms.map .move) = .ok ls →
      ∃ ms' : List (Move α), ls = ms'.map .move ∧ ∀ m' ∈ ms', ∃ m ∈ ms, m'.motion = m.motion
  | [], _, _, h => by
      cases h
      exact ⟨[], rfl, by simp⟩
  | m :: ms, p, ls, h => by
      have hhead : ∃ m' ∈ m :: ms, m.motion = m'.motion := ⟨m, List.mem_cons_self .., rfl⟩
      rw [List.map_cons, subdivideFrom] at h
      split at h
      next =>
        dsimp only at h
        split at h
        next =>
          cases h
          exact ⟨m :: ms, rfl, fun m' hm' => ⟨m', hm', rfl⟩⟩
        next =>
          simp only [Fault.bind_eq_ok, pure, Except.pure, Except.ok.injEq] at h
          obtain ⟨points, hpoints, rest, hrest, rfl⟩ := h
          obtain ⟨ms', rfl, hms'⟩ := exists_subdivideFrom_moves hrest
          refine ⟨m :: (points ++ ms'), by simp, fun m' hm' => ?_⟩
          rw [List.mem_cons, List.mem_append] at hm'
          rcases hm' with rfl | hm' | hm'
          · exact hhead
          · rw [motion_intermediateMoves hpoints m' hm']
            exact hhead
          · obtain ⟨m'', hm'', hmotion⟩ := hms' m' hm'
            exact ⟨m'', List.mem_cons_of_mem _ hm'', hmotion⟩
      next =>
        rw [Fault.map_eq_ok] at h
        obtain ⟨rest, hrest, rfl⟩ := h
        obtain ⟨ms', rfl, hms'⟩ := exists_subdivideFrom_moves hrest
        refine ⟨m :: ms', rfl, fun m' hm' => ?_⟩
        rcases List.mem_cons.mp hm' with rfl | hm'
        · exact hhead
        · obtain ⟨m'', hm'', hmotion⟩ := hms' m' hm'
          exact ⟨m'', List.mem_cons_of_mem _ hm'', hmotion⟩

/-- A compensated cut is a cut again, with moves of the same motions. -/
theorem exists_compensate_cut {w : WearParams α} {ms : List (Move α)} {c : CutBlock α}
    (h : CutBlock.compensate w ⟨.cut :: ms.map .move, none⟩ = .ok c) :
    ∃ (ms' : List (Move α)) (z : α), c = ⟨.cut :: ms'.map .move, some z⟩ ∧
      ∀ m' ∈ ms', ∃ m ∈ ms, m'.motion = m.motion := by
  rw [CutBlock.compensate, subdivide, Line.cut, subdivideFrom, Fault.map_eq_ok] at h
  obtain ⟨ls, hls, rfl⟩ := h
  rw [Fault.map_eq_ok] at hls
  obtain ⟨ls', hls', rfl⟩ := hls
  obtain ⟨ms', rfl, hms'⟩ := exists_subdivideFrom_moves hls'
  obtain ⟨worn, hworn, hmotions⟩ :=
    exists_wearFrom_moves w.ratio ⟨(none, none), -w.passDepth, -w.passDepth⟩ ms'
  refine ⟨worn, _, by rw [applyWear, wearFrom]; simp only [hworn]; rfl, fun m' hm' => ?_⟩
  have hmem : m'.motion ∈ ms'.map Move.motion := hmotions ▸ List.mem_map_of_mem hm'
  obtain ⟨m, hm, hmotion⟩ := List.mem_map.mp hmem
  obtain ⟨m'', hm'', hmotion'⟩ := hms' m hm
  exact ⟨m'', hm'', hmotion.symm.trans hmotion'⟩

section

variable {w : WearParams α} {cuts : List (CutBlock α)} {plunges : List (PlungeBlock α)}

/-- The member of a list at an index, and the rest of the list after it. -/
theorem getElem?_of_drop_eq_cons {β : Type} {xs rest : List β} {x : β} {n : Nat}
    (h : xs.drop n = x :: rest) : xs[n]? = some x ∧ xs.drop (n + 1) = rest := by
  constructor
  · rw [← List.head?_drop, h]
    rfl
  · rw [← List.drop_drop, h]
    rfl

omit [Scalar α] in
theorem exists_placeFrom_lines {s t : Placing α} {r : Residue α} : ∀ {ls : List (Line α)}
    {p : Program α}, (placeFrom cuts plunges s (ls.map .line ++ r)).outcome = .ok (t, p) →
      ∃ p', (placeFrom cuts plunges s r).outcome = .ok (t, p') ∧ p = ls ++ p'
  | [], p, h => ⟨p, h, rfl⟩
  | l :: ls, p, h => by
      rw [List.map_cons, List.cons_append, placeFrom_line, Report.outcome_bind_eq_ok] at h
      obtain ⟨⟨t', p'⟩, h', hout⟩ := h
      cases hout
      obtain ⟨p'', hp'', rfl⟩ := exists_placeFrom_lines h'
      exact ⟨p'', hp'', rfl⟩

/-- The residue of the groups `gs` is put together to `p`, from the state `s` on.  `ls` are the
lines of the open block that belong to these groups. -/
structure Placed (w : WearParams α) (cuts : List (CutBlock α)) (plunges : List (PlungeBlock α))
    (gs : List (MoveGroup α)) (stage : Stage) (m n : Nat) (s t : Placing α)
    (ls p : Program α) : Prop where
  /-- So many cuts and plunges were placed before. -/
  upto : s.Upto m n
  /-- The cuts to come are those of the groups, compensated. -/
  compensated : List.Forall₂ (fun b c => CutBlock.compensate w b = .ok c) (cutBlocks gs)
    (cuts.drop m)
  /-- The plunges to come are those of the groups, with their feeds. -/
  refed : List.Forall₂ (fun b c => PlungeBlock.refeed w.feeds b = .ok c)
    (plungesFrom n stage.phase (cutsRemoved m gs)).2.1 (plunges.drop n)
  /-- The lines of the open block are those of its part, with its feeds and its depth. -/
  opened : ∃ b,
    PlungeBlock.refeed w.feeds (plungesFrom n stage.phase (cutsRemoved m gs)).1 = .ok b ∧
    b.resume s.afterCut = .ok ls
  /-- The rest is put together to the program. -/
  placed : (placeFrom cuts plunges s (plungesFrom n stage.phase (cutsRemoved m gs)).2.2).outcome
    = .ok (t, p)

namespace Placed

variable {gs : List (MoveGroup α)} {g : MoveGroup α} {stage next : Stage} {m n : Nat}
  {s t : Placing α} {ls p : Program α}

theorem of_nil (h : Placed w cuts plunges [] stage m n s t ls p) : ls ++ p = [] := by
  obtain ⟨b, hb, hls⟩ := h.opened
  have hp := h.placed
  rw [PlungeBlock.eq_nil_of_resume hb hls]
  cases hp
  rfl

/-- No block is open before groups that are put together at the closed stage. -/
theorem of_closed (hs : s.Upto m n)
    (hcuts : List.Forall₂ (fun b c => CutBlock.compensate w b = .ok c) (cutBlocks gs) (cuts.drop m))
    (hplunges : List.Forall₂ (fun b c => PlungeBlock.refeed w.feeds b = .ok c)
      (plungesFrom n none (cutsRemoved m gs)).2.1 (plunges.drop n))
    (hp : (placeFrom cuts plunges s (plungesFrom n none (cutsRemoved m gs)).2.2).outcome
      = .ok (t, p)) :
    Placed w cuts plunges gs .closed m n s t [] p where
  upto := hs
  compensated := hcuts
  refed := hplunges
  opened := by
    have hclosed := plungesFrom_closed n (cutsRemoved m gs)
    refine ⟨[], by rw [Stage.phase, hclosed]; rfl, ?_⟩
    cases s.afterCut <;> rfl
  placed := hp

theorem of_cut {ms : List (Move α)} (h : Placed w cuts plunges (.cut ms :: gs) stage m n s t ls p) :
    ∃ (ms' : List (Move α)) (z : α) (p' : Program α),
      CutBlock.compensate w ⟨.cut :: ms.map .move, none⟩ = .ok ⟨.cut :: ms'.map .move, some z⟩ ∧
      ls ++ p = (MoveGroup.cut ms').lines ++ p' ∧
      Placed w cuts plunges gs .closed (m + 1) n
        ⟨⟨.cut, m⟩ :: s.placed, some (some z)⟩ t [] p' := by
  obtain ⟨hs, hcuts, hplunges, ⟨b, hb, hls⟩, hp⟩ := h
  have hresidue : cutsRemoved m (.cut ms :: gs)
      = .handle ⟨.cut, m⟩ :: cutsRemoved (m + 1) gs := rfl
  rw [hresidue, plungesFrom_handle] at hplunges hb hp
  rw [cutBlocks, List.forall₂_cons_left_iff] at hcuts
  obtain ⟨c, cuts', hc, hcuts', hdrop⟩ := hcuts
  obtain ⟨ms', z, rfl, -⟩ := exists_compensate_cut hc
  obtain ⟨hget, hdrop'⟩ := getElem?_of_drop_eq_cons hdrop
  rw [← hdrop'] at hcuts'
  rw [placeFrom_cut hs hget, Report.outcome_bind_eq_ok] at hp
  obtain ⟨⟨t', p'⟩, hp', hout⟩ := hp
  cases hout
  refine ⟨ms', z, p', hc, ?_, of_closed (hs.cut _) hcuts' hplunges hp'⟩
  rw [PlungeBlock.eq_nil_of_resume hb hls, List.nil_append]
  simp [MoveGroup.lines, MoveGroup.comments, MoveGroup.moves]

theorem of_keep (hnext : stage.next? g = none) (hcut : ∀ ms, g ≠ .cut ms)
    (h : Placed w cuts plunges (g :: gs) stage m n s t ls p) :
    ∃ p', ls ++ p = g.lines ++ p' ∧ Placed w cuts plunges gs .closed m n s t [] p' := by
  obtain ⟨hs, hcuts, hplunges, ⟨b, hb, hls⟩, hp⟩ := h
  rw [cutsRemoved_cons hcut, plungesFrom_kept hnext hcut] at hplunges hb hp
  rw [cutBlocks_cons hcut] at hcuts
  obtain ⟨p', hp', rfl⟩ := exists_placeFrom_lines hp
  refine ⟨p', ?_, of_closed hs hcuts hplunges hp'⟩
  rw [PlungeBlock.eq_nil_of_resume hb hls, List.nil_append]

/-- A rise closes the block before it and opens the next one. -/
theorem of_rise {rise : Move α} (hnext : stage.next? (.retract rise) = some next)
    (h : Placed w cuts plunges (.retract rise :: gs) stage m n s t ls p) :
    ∃ ls' p', ls ++ p = ((MoveGroup.retract rise).refed w.feeds s.afterCut).lines ++ (ls' ++ p') ∧
      Placed w cuts plunges gs next m (n + 1) ⟨⟨.plunge, n⟩ :: s.placed, s.afterCut⟩ t ls' p' := by
  obtain ⟨hs, hcuts, hplunges, ⟨b, hb, hls⟩, hp⟩ := h
  obtain rfl : Stage.lifted = next := by cases stage <;> cases hnext <;> rfl
  rw [cutsRemoved_cons (by simp), plungesFrom_retractGroup] at hplunges hb hp
  rw [cutBlocks_cons (by simp)] at hcuts
  rw [List.forall₂_cons_left_iff] at hplunges
  obtain ⟨c, plunges', hc, hplunges', hdrop⟩ := hplunges
  obtain ⟨hget, hdrop'⟩ := getElem?_of_drop_eq_cons hdrop
  rw [← hdrop'] at hplunges'
  obtain ⟨d, d', hd, hd', rfl⟩ := PlungeBlock.refeed_append_eq_ok hc
  rw [MoveGroup.refeed_steps] at hd
  cases hd
  rw [placeFrom_plunge hs hget, Report.outcome_bind_eq_ok] at hp
  obtain ⟨ls', hls', hp⟩ := hp
  rw [Report.outcome_lift, MoveGroup.resume_next hnext (by simp), Fault.map_eq_ok] at hls'
  obtain ⟨ls'', hls'', rfl⟩ := hls'
  rw [Report.outcome_bind_eq_ok] at hp
  obtain ⟨⟨t', p'⟩, hp', hout⟩ := hp
  cases hout
  refine ⟨ls'', p', ?_, ⟨hs.plunge s.afterCut, hcuts, hplunges', ⟨d', hd', hls''⟩, hp'⟩⟩
  rw [PlungeBlock.eq_nil_of_resume hb hls, List.nil_append, List.append_assoc]

/-- The open block goes on. -/
theorem of_next (hg : g.Regular) (hnext : stage.next? g = some next)
    (hlift : ∀ rise, g ≠ .retract rise) (h : Placed w cuts plunges (g :: gs) stage m n s t ls p) :
    ∃ ls', ls = (g.refed w.feeds s.afterCut).lines ++ ls' ∧
      Placed w cuts plunges gs next m n s t ls' p := by
  obtain ⟨hs, hcuts, hplunges, ⟨b, hb, hls⟩, hp⟩ := h
  have hcut : ∀ ms, g ≠ .cut ms := by
    rintro ms rfl
    cases stage <;> cases hnext
  have hstart := startsWithMove_cutsRemoved m gs
  rw [cutsRemoved_cons hcut, plungesFrom_next hg hnext hlift hstart] at hplunges hb hp
  rw [cutBlocks_cons hcut] at hcuts
  obtain ⟨d, d', hd, hd', rfl⟩ := PlungeBlock.refeed_append_eq_ok hb
  rw [MoveGroup.refeed_steps] at hd
  cases hd
  have hend : next = .closed → d' = [] := by
    rintro rfl
    rw [Stage.phase, plungesFrom_closed] at hd'
    cases hd'
    rfl
  rw [MoveGroup.resume_next hnext hend, Fault.map_eq_ok] at hls
  obtain ⟨ls', hls', rfl⟩ := hls
  exact ⟨ls', rfl, hs, hcuts, hplunges, ⟨d', hd', hls'⟩, hp⟩

end Placed

/-- What a residue of groups is put together to. -/
theorem Placed.resumes : ∀ {gs : List (MoveGroup α)} {stage : Stage} {m n : Nat} {s t : Placing α}
    {ls p : Program α}, (∀ g ∈ gs, g.Regular) → Placed w cuts plunges gs stage m n s t ls p →
    ∃ gs', Resumes w stage s.afterCut gs gs' ∧ ls ++ p = groupLines gs'
  | [], _, _, _, _, _, _, _, _, h => ⟨[], .done, h.of_nil⟩
  | g :: gs, stage, m, n, s, t, ls, p, hgs, h => by
      obtain ⟨hg, hgs'⟩ := List.forall_mem_cons.mp hgs
      by_cases hcut : ∃ ms, g = .cut ms
      · obtain ⟨ms, rfl⟩ := hcut
        obtain ⟨ms', z, p', hc, hlines, h'⟩ := h.of_cut
        obtain ⟨gs', hresumes, hp'⟩ := h'.resumes hgs'
        exact ⟨.cut ms' :: gs', .cut hc hresumes, by rw [hlines, groupLines_cons, ← hp']; rfl⟩
      · have hcut' : ∀ ms, g ≠ .cut ms := fun ms h => hcut ⟨ms, h⟩
        -- A group outside of cuts either belongs to a plunge block or stays.
        cases hnext : stage.next? g with
        | none =>
            obtain ⟨p', hlines, h'⟩ := h.of_keep hnext hcut'
            obtain ⟨gs', hresumes, hp'⟩ := h'.resumes hgs'
            exact ⟨g :: gs', .keep hnext hcut' hresumes,
              by rw [hlines, groupLines_cons, ← hp']; rfl⟩
        | some next =>
            by_cases hlift : ∃ rise, g = .retract rise
            · obtain ⟨rise, rfl⟩ := hlift
              obtain ⟨ls', p', hlines, h'⟩ := h.of_rise hnext
              obtain ⟨gs', hresumes, hp'⟩ := h'.resumes hgs'
              exact ⟨_ :: gs', .next hnext hresumes, by rw [hlines, groupLines_cons, ← hp']⟩
            · obtain ⟨ls', rfl, h'⟩ := h.of_next hg hnext fun rise h => hlift ⟨rise, h⟩
              obtain ⟨gs', hresumes, hp'⟩ := h'.resumes hgs'
              exact ⟨_ :: gs', .next hnext hresumes,
                by rw [groupLines_cons, ← hp', List.append_assoc]⟩

end

/-! ## Whole programs -/

section

variable {summary : Program α} {gs : List (MoveGroup α)}

omit [Scalar α] in
/-- A summary stays in front of what is left of a program. -/
theorem Program.part_summary (hsummary : IsSummary summary) (p : Program α) :
    Program.part (summary ++ p)
      = ⟨p.part.cuts, p.part.plunges, summary.map .line ++ p.part.rest⟩ := by
  have hcut := hsummary.kind_ne (k := .cut) (by simp) (by simp)
  have hretract := hsummary.kind_ne (k := .retract) (by simp) (by simp)
  rw [part, extractCuts, cutsFrom_append_outside hcut]
  dsimp only
  rw [extractPlunges, plungesFrom_append_lines hretract]
  rfl

omit [Scalar α] in
/-- A summary and groups taken apart. -/
theorem Program.part_groups (hsummary : IsSummary summary) :
    Program.part (summary ++ groupLines gs) = ⟨cutBlocks gs,
      (plungesFrom 0 none (cutsRemoved 0 gs)).2.1,
      summary.map .line ++ (plungesFrom 0 none (cutsRemoved 0 gs)).2.2⟩ := by
  rw [part_summary hsummary, part, extractCuts, cutsFrom_groups]
  rfl

omit [Scalar α] in
/-- All plunges of groups can be put at their feeds. -/
theorem mapM_refeed_groups (feeds : PlungeFeeds α) (hgs : ∀ g ∈ gs, g.Regular) :
    (plungesFrom 0 none (cutsRemoved 0 gs)).2.1.mapM (PlungeBlock.refeed feeds)
      = .ok ((plungesFrom 0 none (cutsRemoved 0 gs)).2.1.map
        (List.map (PlungeStep.refed feeds))) := by
  have hblocks := isFrom_of_plungesFrom 0 0 .closed hgs
  rw [Fault.mapM_eq_ok, List.forall₂_map_right_iff]
  exact List.forall₂_same.mpr fun b hb => PlungeBlock.refeed_eq feeds (hblocks b hb).rolesOnMoves

/-- A summary and groups are compensated to the summary, the staged copies of the plunges, and the
groups as they are resumed. -/
theorem Program.groups_of_compensate {w : WearParams α} {q : Program α}
    (hsummary : IsSummary summary) (hgs : ∀ g ∈ gs, g.Regular)
    (h : (Program.compensate w (summary ++ groupLines gs)).outcome = .ok q) :
    ∃ (blocks : List (PlungeBlock α)) (gs' : List (MoveGroup α)),
      (∀ b ∈ blocks, b.IsFrom gs) ∧ Resumes w .closed none gs gs' ∧
      q = summary ++ seatingLines (blocks.map (List.map (PlungeStep.refed w.feeds)))
        ++ groupLines gs' := by
  obtain ⟨cuts, plunges, body, hcuts, hplunges, hbody, hq⟩ := stages_of_compensate h
  rw [part_groups hsummary] at hcuts hplunges hbody
  have hblocks := isFrom_of_plungesFrom 0 0 .closed hgs
  rw [Stage.phase] at hblocks
  have hrefed : plunges = (plungesFrom 0 none (cutsRemoved 0 gs)).2.1.map
      (List.map (PlungeStep.refed w.feeds)) := by
    rw [mapM_refeed_groups w.feeds hgs] at hplunges
    exact (Except.ok.inj hplunges).symm
  obtain ⟨t, ht⟩ := outcome_reassemble.mp hbody
  obtain ⟨p, hp, rfl⟩ := exists_placeFrom_lines ht
  have hplaced : Placed w cuts plunges gs .closed 0 0 ⟨[], none⟩ t [] p :=
    .of_closed Placing.upto_start (Fault.mapM_eq_ok.mp hcuts) (Fault.mapM_eq_ok.mp hplunges) hp
  obtain ⟨gs', hresumes, hlines⟩ := hplaced.resumes hgs
  rw [List.nil_append] at hlines
  rw [outcome_stagePlunges hsummary, hrefed, hlines] at hq
  exact ⟨_, gs', hblocks, hresumes, (Except.ok.inj hq).symm⟩

/-- The blocks of a program whose cuts can be compensated can be put together again. -/
theorem Program.exists_placed {w : WearParams α} {p : Program α} {cuts : List (CutBlock α)}
    (hcuts : p.part.cuts.mapM (CutBlock.compensate w) = .ok cuts) :
    ∃ plunges placed t, p.part.plunges.mapM (PlungeBlock.refeed w.feeds) = .ok plunges ∧
      Residue.InOrder cuts.length plunges.length 0 0 p.part.rest ∧
      (placeFrom cuts plunges ⟨[], none⟩ p.part.rest).outcome = .ok (t, placed) ∧
      t.Upto cuts.length plunges.length := by
  have hroles : ∀ b ∈ p.part.plunges, b.RolesOnMoves := by
    intro b hb
    obtain ⟨-, l, steps, -, rfl, hrun⟩ := mem_plungesFrom hb
    exact (PlungeBlock.Shaped.of_run l hrun).rolesOnMoves
  have hrefed : p.part.plunges.mapM (PlungeBlock.refeed w.feeds)
      = .ok (p.part.plunges.map (List.map (PlungeStep.refed w.feeds))) := by
    rw [Fault.mapM_eq_ok, List.forall₂_map_right_iff]
    exact List.forall₂_same.mpr fun b hb => PlungeBlock.refeed_eq w.feeds (hroles b hb)
  have horder := p.part_inOrder
  rw [(Fault.mapM_eq_ok.mp hcuts).length_eq, (Fault.mapM_eq_ok.mp hrefed).length_eq] at horder
  obtain ⟨t, placed, hplaced⟩ := exists_placeFrom horder Placing.upto_start fun b hb => by
    obtain ⟨b, hmem, rfl⟩ := List.mem_map.mp hb
    exact (hroles b hmem).refed w.feeds
  exact ⟨_, placed, t, hrefed, horder, hplaced,
    (replaced_of_placeFrom horder Placing.upto_start hplaced).1⟩

/-- A program after a summary is compensated if each of its cuts is. -/
theorem Program.exists_compensate {w : WearParams α} (hsummary : IsSummary summary) {p : Program α}
    (hcuts : ∀ b ∈ p.part.cuts, ∃ c, CutBlock.compensate w b = .ok c) :
    ∃ q, (Program.compensate w (summary ++ p)).outcome = .ok q := by
  obtain ⟨cuts, hworn⟩ := Fault.exists_mapM_eq_ok hcuts
  obtain ⟨plunges, placed, t, hplunges, -, hplaced, -⟩ := exists_placed hworn
  have hbody : Recomposes w (summary ++ p) plunges (summary ++ placed) := by
    rw [Recomposes, part_summary hsummary]
    exact ⟨cuts, hworn, hplunges, outcome_reassemble.mpr ⟨t, placeFrom_lines summary hplaced⟩⟩
  exact ⟨_, compensate_eq_ok.mpr ⟨plunges, _, hbody, outcome_stagePlunges hsummary _ _⟩⟩

/-- A summary and groups are compensated if each of the cuts is. -/
theorem Program.exists_compensate_groups {w : WearParams α} (hsummary : IsSummary summary)
    (hcuts : ∀ b ∈ cutBlocks gs, ∃ c, CutBlock.compensate w b = .ok c) :
    ∃ q, (Program.compensate w (summary ++ groupLines gs)).outcome = .ok q := by
  refine exists_compensate hsummary ?_
  rw [part, extractCuts, cutsFrom_groups]
  exact hcuts

end

end WireErosion
