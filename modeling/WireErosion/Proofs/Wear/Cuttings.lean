import WireErosion.Proofs.Toolpath.Legs
import WireErosion.Proofs.Toolpath.Schedule
import WireErosion.Proofs.Wear.Regroup

/-!
# The cuts of a program

A program is looked at as the list of its cuts, each with the position and the depth at which it is
entered (`Program.cuttings`).  What a toolpath asks for is a list of that kind too, with one member
for each run of each pass over each path (`ToolpathParams.runCuts`), and the compiled program has
these cuts and no others (`ToolpathParams.cuttings_of_compile`).

Compensation keeps the number and the order of the cuts and replaces each by itself
(`Program.cuttings_of_compensate`).
-/

namespace WireErosion

open ToolpathParams (runZ)

variable {α : Type}

/-! ## The cuts of a program -/

/-- The moves after a cut marker, and where the tool is before them. -/
structure Cutting (α : Type) where
  /-- The position before the moves. -/
  position : Modal α
  /-- The depth before the moves. -/
  depth : Option α
  /-- The moves. -/
  moves : List (Move α)

/-- The moves at the front of a program. -/
def leadingMoves : Program α → List (Move α)
  | .move m :: p => m :: leadingMoves p
  | _ => []

/-- The cuts of a program that is entered at a position and a depth. -/
def cuttingsFrom (a : Modal α) (z : Option α) : Program α → List (Cutting α)
  | [] => []
  | .move m :: p => cuttingsFrom (a.after m) (m.z <|> z) p
  | .comment t :: p =>
    if Comment.kind t = .cut then ⟨a, z, leadingMoves p⟩ :: cuttingsFrom a z p
    else cuttingsFrom a z p

/-- The cuts of a program. -/
def Program.cuttings (p : Program α) : List (Cutting α) := cuttingsFrom (none, none) none p

theorem leadingMoves_append {q : Program α} (hq : leadingMoves q = []) :
    ∀ p : Program α, leadingMoves (p ++ q) = leadingMoves p
  | [] => hq
  | .move m :: p => congrArg (m :: ·) (leadingMoves_append hq p)
  | .comment _ :: _ => rfl

theorem leadingMoves_groupLines (gs : List (MoveGroup α)) : leadingMoves (groupLines gs) = [] := by
  cases gs with
  | nil => rfl
  | cons g gs =>
      obtain ⟨t, ls, hlines⟩ := g.exists_lines
      rw [groupLines_cons, hlines]
      rfl

theorem leadingMoves_moves : ∀ ms : List (Move α), leadingMoves (ms.map .move) = ms
  | [] => rfl
  | m :: ms => congrArg (m :: ·) (leadingMoves_moves ms)

/-- The cuts of a program and of one after it that does not go on with its last cut. -/
theorem cuttingsFrom_append {q : Program α} (hq : leadingMoves q = []) :
    ∀ (p : Program α) (a : Modal α) (z : Option α), cuttingsFrom a z (p ++ q)
      = cuttingsFrom a z p ++ cuttingsFrom (positionAfter a p) (depthAfter z p) q
  | [], _, _ => rfl
  | .move _ :: p, _, _ => cuttingsFrom_append hq p _ _
  | .comment t :: p, a, z => by
      rw [List.cons_append, cuttingsFrom, cuttingsFrom, cuttingsFrom_append hq p,
        leadingMoves_append hq]
      split <;> rfl

theorem cuttingsFrom_groupLines_append (gs hs : List (MoveGroup α)) (a : Modal α) (z : Option α) :
    cuttingsFrom a z (groupLines (gs ++ hs)) = cuttingsFrom a z (groupLines gs) ++
      cuttingsFrom (positionAfter a (groupLines gs)) (depthAfter z (groupLines gs))
        (groupLines hs) := by
  rw [groupLines_append, cuttingsFrom_append (leadingMoves_groupLines hs)]

theorem cuttingsFrom_of_kind : ∀ {p : Program α}, (∀ l ∈ p, l.kind ≠ .cut) →
    ∀ (a : Modal α) (z : Option α), cuttingsFrom a z p = []
  | [], _, _, _ => rfl
  | .move _ :: _, h, _, _ => cuttingsFrom_of_kind (List.forall_mem_cons.mp h).2 _ _
  | .comment _ :: _, h, a, z => by
      obtain ⟨ht, hp⟩ := List.forall_mem_cons.mp h
      exact (if_neg ht).trans (cuttingsFrom_of_kind hp a z)

theorem cuttingsFrom_cut (ms : List (Move α)) (a : Modal α) (z : Option α) :
    cuttingsFrom a z (MoveGroup.cut ms).lines = [⟨a, z, ms⟩] := by
  have hmoves : cuttingsFrom a z (ms.map .move) = [] := by
    refine cuttingsFrom_of_kind (fun l hl => ?_) a z
    obtain ⟨m, -, rfl⟩ := List.mem_map.mp hl
    simp
  have hkind : Comment.kind Marker.cut = .cut := Line.kind_cut (α := α)
  have hlines : (MoveGroup.cut ms).lines = .comment Marker.cut :: ms.map .move := rfl
  rw [hlines, cuttingsFrom, if_pos hkind, leadingMoves_moves, hmoves]

/-- Groups that are no cuts have none. -/
theorem cuttingsFrom_groupLines {gs : List (MoveGroup α)} (h : ∀ g ∈ gs, ∀ ms, g ≠ .cut ms)
    (a : Modal α) (z : Option α) : cuttingsFrom a z (groupLines gs) = [] := by
  refine cuttingsFrom_of_kind (fun l hl => ?_) a z
  obtain ⟨g, hg, hl⟩ := List.mem_flatMap.mp hl
  exact MoveGroup.kind_ne_cut (h g hg) hl

theorem cuttingsFrom_cons_cut (ms : List (Move α)) (gs : List (MoveGroup α)) (a : Modal α)
    (z : Option α) : cuttingsFrom a z (groupLines (.cut ms :: gs)) = ⟨a, z, ms⟩ ::
      cuttingsFrom (positionAfter a (MoveGroup.cut ms).lines)
        (depthAfter z (MoveGroup.cut ms).lines) (groupLines gs) := by
  rw [groupLines_cons, cuttingsFrom_append (leadingMoves_groupLines gs), cuttingsFrom_cut]
  rfl

theorem cuttingsFrom_cons_other {g : MoveGroup α} (h : ∀ ms, g ≠ .cut ms)
    (gs : List (MoveGroup α)) (a : Modal α) (z : Option α) :
    cuttingsFrom a z (groupLines (g :: gs)) =
      cuttingsFrom (positionAfter a g.lines) (depthAfter z g.lines) (groupLines gs) := by
  rw [groupLines_cons, cuttingsFrom_append (leadingMoves_groupLines gs),
    cuttingsFrom_of_kind (fun _ hl => MoveGroup.kind_ne_cut h hl), List.nil_append]

/-! ## Compensation -/

section

variable [Scalar α]

/-- The moves of a cut are compensated to some others. -/
def CompensatesTo (w : WearParams α) (ms worn : List (Move α)) : Prop :=
  ∃ z, CutBlock.compensate w ⟨.cut :: ms.map .move, none⟩ = .ok ⟨.cut :: worn.map .move, some z⟩

/-- Compensation turns the cuts of some groups into as many others, each by itself. -/
theorem Resumes.cuttings {w : WearParams α} {stage : Stage} {after : Option (Option α)}
    {gs gs' : List (MoveGroup α)} (h : Resumes w stage after gs gs') :
    ∀ (a a' : Modal α) (z z' : Option α),
      List.Forall₂ (fun c c' => CompensatesTo w c.moves c'.moves)
        (cuttingsFrom a z (groupLines gs)) (cuttingsFrom a' z' (groupLines gs')) := by
  induction h with
  | done => exact fun _ _ _ _ => .nil
  | cut hcut _ ih =>
      intro a a' z z'
      rw [cuttingsFrom_cons_cut, cuttingsFrom_cons_cut]
      exact .cons ⟨_, hcut⟩ (ih _ _ _ _)
  | @next stage _ after g _ _ hnext _ ih =>
      intro a a' z z'
      have hcut : ∀ ms, g ≠ .cut ms := by
        rintro ms rfl
        cases stage <;> cases hnext
      have hcut' : ∀ ms, g.refed w.feeds after ≠ .cut ms := by
        intro ms
        cases g with
        | cut ms => exact absurd rfl (hcut ms)
        | _ => exact nofun
      rw [cuttingsFrom_cons_other hcut, cuttingsFrom_cons_other hcut']
      exact ih _ _ _ _
  | keep _ hcut _ ih =>
      intro a a' z z'
      rw [cuttingsFrom_cons_other hcut, cuttingsFrom_cons_other hcut]
      exact ih _ _ _ _

end

/-! ## Staged copies -/

theorem PlungeStep.kind_refed (feeds : PlungeFeeds α) (s : PlungeStep α) :
    (s.refed feeds).line.kind = s.line.kind := by
  obtain ⟨line, role⟩ := s
  cases role <;> cases line <;> rfl

/-- A plunge block has no cut marker. -/
theorem MoveGroup.kind_steps {g : MoveGroup α} {s : PlungeStep α} (h : s ∈ g.steps) :
    s.line.kind ≠ .cut := by
  have hcut : ∀ ms, g ≠ .cut ms := by
    rintro ms rfl
    cases h
  refine kind_ne_cut hcut ?_
  cases g with
  | ontoTab m => cases h
  | cut ms => exact absurd rfl (hcut ms)
  | ramp way last =>
      simp only [steps, List.mem_append, List.mem_cons, List.mem_map, List.not_mem_nil,
        or_false] at h
      rcases h with (rfl | ⟨m, hm, rfl⟩) | rfl <;> simp [lines, comments, moves, *]
  | _ =>
      simp only [steps, List.mem_cons, List.not_mem_nil, or_false] at h
      rcases h with rfl | rfl | rfl <;> simp [lines, comments, moves]

/-- Neither have the staged copies of the blocks of groups. -/
theorem kind_seatingLines_of_isFrom {feeds : PlungeFeeds α} {gs : List (MoveGroup α)}
    {blocks : List (PlungeBlock α)} (h : ∀ b ∈ blocks, b.IsFrom gs) {l : Line α}
    (hl : l ∈ seatingLines (blocks.map (List.map (PlungeStep.refed feeds)))) : l.kind ≠ .cut := by
  rw [seatingLines, List.mem_flatMap] at hl
  obtain ⟨b', hb', hl⟩ := hl
  obtain ⟨b, hb, rfl⟩ := List.mem_map.mp hb'
  have hstep : ∃ s ∈ b, l = (s.refed feeds).line := by
    split at hl
    · obtain ⟨s', hs', rfl⟩ := List.mem_map.mp (List.mem_filter.mp hl).1
      obtain ⟨s, hs, rfl⟩ := List.mem_map.mp hs'
      exact ⟨s, hs, rfl⟩
    · cases hl
  obtain ⟨s, hs, rfl⟩ := hstep
  obtain ⟨rise, run, -, -, rfl⟩ := h b hb
  rw [s.kind_refed feeds]
  rcases List.mem_append.mp hs with hs | hs
  · exact MoveGroup.kind_steps hs
  · obtain ⟨g, -, hs⟩ := List.mem_flatMap.mp hs
    exact MoveGroup.kind_steps hs

/-! ## Whole programs -/

/-- Lines without a cut marker before some groups have no cuts. -/
theorem cuttings_append_groupLines {front : Program α} (h : ∀ l ∈ front, l.kind ≠ .cut)
    (gs : List (MoveGroup α)) : Program.cuttings (front ++ groupLines gs) =
      cuttingsFrom (positionAfter (none, none) front) (depthAfter none front) (groupLines gs) := by
  rw [Program.cuttings, cuttingsFrom_append (leadingMoves_groupLines gs), cuttingsFrom_of_kind h,
    List.nil_append]

theorem IsSummary.kind_ne_cut {summary : Program α} (h : IsSummary summary) :
    ∀ l ∈ summary, l.kind ≠ .cut := h.kind_ne (by simp) (by simp)

/-- A summary and groups are compensated cut by cut. -/
theorem Program.cuttings_of_compensate [Scalar α] {w : WearParams α} {summary q : Program α}
    {gs : List (MoveGroup α)} (hsummary : IsSummary summary) (hgs : ∀ g ∈ gs, g.Regular)
    (h : (Program.compensate w (summary ++ groupLines gs)).outcome = .ok q) :
    List.Forall₂ (fun c c' => CompensatesTo w c.moves c'.moves)
      (Program.cuttings (summary ++ groupLines gs)) q.cuttings := by
  obtain ⟨blocks, gs', hblocks, hresumes, rfl⟩ := Program.groups_of_compensate hsummary hgs h
  rw [cuttings_append_groupLines hsummary.kind_ne_cut, cuttings_append_groupLines]
  · exact hresumes.cuttings _ _ _ _
  · intro l hl
    rcases List.mem_append.mp hl with hl | hl
    · exact hsummary.kind_ne_cut l hl
    · exact kind_seatingLines_of_isFrom hblocks hl

/-! ## The cuts of a toolpath -/

/-- A run that is cut in a pass, with its side of the tabs, its depth and its vertices. -/
structure RunCut where
  /-- Whether the run is inside the tabs. -/
  inside : Bool
  /-- The depth at which it is cut. -/
  depth : ℝ
  /-- Its first vertex. -/
  start : Point ℝ
  /-- The vertices after it. -/
  rest : List (Point ℝ)

/-- The runs of a pass that are cut, the first one inside the tabs if `inside` and then taking
turns.  A run without vertices is not cut. -/
def runCutsFrom (tabTop next : ℝ) (inside : Bool) : List (List (Point ℝ)) → List RunCut
  | [] => []
  | [] :: runs => runCutsFrom tabTop next (!inside) runs
  | (a :: rest) :: runs =>
    ⟨inside, runZ tabTop next inside, a, rest⟩ :: runCutsFrom tabTop next (!inside) runs

/-- A cut of a compiled program is that of a run.  It is entered at its first vertex and its depth,
and its moves go through the other vertices. -/
structure RunCut.Compiles (r : ℝ → ℝ) (t : RunCut) (c : Cutting ℝ) : Prop where
  /-- The cut is entered at the first vertex. -/
  position : c.position = t.start.rounded r
  /-- It is entered at the depth of the run. -/
  depth : c.depth = some (r t.depth)
  /-- It goes through the other vertices and keeps the depth. -/
  moves : List.Forall₂ (fun q m => (m.x, m.y) = Point.rounded r q ∧ m.z = none) t.rest c.moves

theorem RunCut.Compiles.level {r : ℝ → ℝ} {t : RunCut} {c : Cutting ℝ} (h : t.Compiles r c) :
    ∀ m ∈ c.moves, m.z = none := by
  intro m hm
  obtain ⟨q, -, -, hz⟩ := exists_of_mem_right h.moves hm
  exact hz

namespace ToolpathParams

/-- The runs of a pass over a path that are cut. -/
noncomputable def passRunCuts (c : ToolpathParams ℝ) (path : CamPath ℝ) (pass : Pass ℝ) :
    List RunCut :=
  runCutsFrom (c.wholeZ c.activeTabs) pass.next false (c.cutRuns path pass)

/-- The runs of a toolpath that are cut, path by path and pass by pass. -/
noncomputable def runCuts (c : ToolpathParams ℝ) (paths : List (CamPath ℝ)) : List RunCut :=
  paths.flatMap fun path => c.passes.flatMap (c.passRunCuts path)

variable {c : ToolpathParams ℝ} {r : ℝ → ℝ}

/-- The groups before a cut have none. -/
theorem cuttingsFrom_entry {entry : List (MoveGroup ℝ)}
    (h : entry = [] ∨ ∃ g, entry = [g] ∧ g.IsEntry) (a : Modal ℝ) (z : Option ℝ) :
    cuttingsFrom a z (groupLines entry) = [] := by
  refine cuttingsFrom_groupLines (fun g hg ms hcut => ?_) a z
  rcases h with rfl | ⟨g', rfl, hentry⟩
  · cases hg
  · rw [List.mem_singleton] at hg
    rw [← hg, hcut] at hentry
    exact hentry

/-- The cuts of some legs are those of their runs. -/
theorem cuttings_legs {tabTop next : ℝ} : ∀ {runs : List (List (Point ℝ))}
    {legs : List (List (MoveGroup ℝ))} {before : List (MoveGroup ℝ)} {inside : Bool},
    legs.length = runs.length →
    (∀ (k : Nat) (run : List (Point ℝ)), runs[k]? = some run → ∃ leg, legs[k]? = some leg ∧
      CutsLeg r (before ++ (legs.take k).flatten) (sideOf inside k) tabTop next run leg) →
    List.Forall₂ (RunCut.Compiles r) (runCutsFrom tabTop next inside runs)
      (cuttingsFrom (positionAfter (none, none) (groupLines before))
        (depthAfter none (groupLines before)) (groupLines legs.flatten))
  | [], [], _, _, _, _ => .nil
  | run :: runs, leg :: legs, before, inside, hlength, h => by
      obtain ⟨leg', hleg', hcuts⟩ := h 0 run rfl
      obtain rfl := Option.some.inj hleg'
      rw [List.take_zero, List.flatten_nil, List.append_nil] at hcuts
      have hlegs : ∀ (k : Nat) (run : List (Point ℝ)), runs[k]? = some run →
          ∃ leg', legs[k]? = some leg' ∧ CutsLeg r (before ++ leg ++ (legs.take k).flatten)
            (sideOf (!inside) k) tabTop next run leg' := by
        intro k run hk
        obtain ⟨leg', hleg', hcuts'⟩ := h (k + 1) run hk
        rw [List.take_succ_cons, List.flatten_cons, ← List.append_assoc] at hcuts'
        exact ⟨leg', hleg', hcuts'⟩
      have hrest := cuttings_legs (Nat.succ.inj hlength) hlegs
      rw [List.flatten_cons, cuttingsFrom_groupLines_append, ← positionAfter_append,
        ← depthAfter_append, ← groupLines_append]
      cases run with
      | nil =>
          rw [hcuts.empty rfl] at hrest ⊢
          simpa [runCutsFrom, cuttingsFrom] using hrest
      | cons a rest =>
          obtain ⟨entry, moves, rfl, hrun⟩ := hcuts.cut a rest rfl
          rw [cuttingsFrom_groupLines_append, cuttingsFrom_entry hrun.shape, List.nil_append,
            cuttingsFrom_cons_cut]
          refine .cons ⟨?_, ?_, hrun.moves⟩ hrest
          · rw [← positionAfter_append, ← groupLines_append, hrun.entered]
          · rw [← depthAfter_append, ← groupLines_append, hrun.depth]
            rfl

theorem EmitsPass.cuttings (hround : IsRounding c.round r) (hflat : c.usePathZ = false)
    {path : CamPath ℝ} {p : Point ℝ} {ps : List (Point ℝ)} (hpoints : path.points = p :: ps)
    {z last : ℝ} {pass : Pass ℝ} (hnext : pass.next ≤ pass.finished) {gs : List (MoveGroup ℝ)}
    (h : c.EmitsPass c.activeTabs (c.ready c.activeTabs p path) z pass gs last) (a : Modal ℝ)
    (d : Option ℝ) :
    List.Forall₂ (RunCut.Compiles r) (c.passRunCuts path pass)
      (cuttingsFrom a d (groupLines gs)) := by
  obtain ⟨lead, travel, drop, legs, rfl, hcuts⟩ := h.exists_legs hround hflat hpoints hnext
  obtain ⟨hposition, hdepth⟩ := after_travel hcuts.travels.1 hcuts.drops lead
  have happroach : cuttingsFrom a d (groupLines (lead ++ [MoveGroup.travel travel drop])) = [] := by
    refine cuttingsFrom_groupLines (fun g hg ms hcut => ?_) a d
    rw [hcut, List.mem_append, List.mem_singleton] at hg
    rcases hg with hg | hg
    · cases hcuts.leads with
      | stay => cases hg
      | rise => cases List.mem_singleton.mp hg
    · cases hg
  -- After the travel it does not matter where the tool was before.
  have hlegs := cuttings_legs hcuts.cuts.length hcuts.cuts.leg
  rw [List.append_cons, cuttingsFrom_groupLines_append, happroach, List.nil_append, hposition,
    hdepth]
  rwa [hposition, hdepth] at hlegs

theorem EmitsPasses.cuttings (hround : IsRounding c.round r) (hflat : c.usePathZ = false)
    {path : CamPath ℝ} {p : Point ℝ} {ps : List (Point ℝ)} (hpoints : path.points = p :: ps)
    {z : ℝ} {passes : List (Pass ℝ)} {parts : List (List (MoveGroup ℝ))}
    (h : c.EmitsPasses c.activeTabs (c.ready c.activeTabs p path) z passes parts) :
    (∀ pass ∈ passes, pass.next ≤ pass.finished) → ∀ (a : Modal ℝ) (d : Option ℝ),
      List.Forall₂ (RunCut.Compiles r) (passes.flatMap (c.passRunCuts path))
        (cuttingsFrom a d (groupLines parts.flatten)) := by
  induction h with
  | done => exact fun _ _ _ => .nil
  | pass hpass _ ih =>
      intro hdown a d
      obtain ⟨hdown, hrest⟩ := List.forall_mem_cons.mp hdown
      rw [List.flatMap_cons, List.flatten_cons, cuttingsFrom_groupLines_append]
      exact List.rel_append (hpass.cuttings hround hflat hpoints hdown a d) (ih hrest _ _)

/-- A path without vertices has nothing to cut. -/
theorem passRunCuts_nil {path : CamPath ℝ} (hpoints : path.points = []) (pass : Pass ℝ) :
    c.passRunCuts path pass = [] := by
  have hruns : ∀ t : Tabs ℝ, splitRuns t.region ([] : List (Point ℝ)) = [[]] := fun _ => rfl
  rw [passRunCuts, cutRuns, hpoints]
  cases hactive : c.activeTabs with
  | none => simp [runsOf, runCutsFrom]
  | some t =>
      rw [runsOf, hruns]
      simp [runCutsFrom]

theorem EmitsPaths.cuttings (hround : IsRounding c.round r) (hflat : c.usePathZ = false)
    (hdown : ∀ pass ∈ c.passes, pass.next ≤ pass.finished) {i : Nat} {paths : List (CamPath ℝ)}
    {parts : List (List (MoveGroup ℝ))} (h : c.EmitsPaths c.activeTabs i paths parts) :
    ∀ (a : Modal ℝ) (d : Option ℝ), List.Forall₂ (RunCut.Compiles r) (c.runCuts paths)
      (cuttingsFrom a d (groupLines parts.flatten)) := by
  induction h with
  | done => exact fun _ _ => .nil
  | skip hpoints _ ih =>
      intro a d
      have hnone : c.passes.flatMap (c.passRunCuts _) = [] :=
        List.flatMap_eq_nil_iff.mpr fun pass _ => passRunCuts_nil hpoints pass
      rw [runCuts, List.flatMap_cons, hnone]
      exact ih a d
  | @path i _ _ _ _ passes parts m hpoints hpasses _ _ ih =>
      intro a d
      have hgroups :
          (MoveGroup.header i :: passes.flatten ++ [MoveGroup.retract m]) ++ parts.flatten
          = .header i :: (passes.flatten ++ MoveGroup.retract m :: parts.flatten) := by simp
      rw [runCuts, List.flatMap_cons, List.flatten_cons, hgroups, cuttingsFrom_cons_other (by simp),
        cuttingsFrom_groupLines_append, cuttingsFrom_cons_other (by simp)]
      exact List.rel_append (hpasses.cuttings hround hflat hpoints hdown _ _) (ih _ _)

/-- A compiled program has the cuts that the toolpath asks for, and no others. -/
theorem cuttings_of_compile (hround : IsRounding c.round r) (hflat : c.usePathZ = false)
    (hpass : 0 < c.passDepth) (hdeep : c.bottomZ ≤ c.topZ) {paths : List (CamPath ℝ)}
    {p : Program ℝ} (h : c.compile paths = .ok p) (a : Modal ℝ) (d : Option ℝ) :
    List.Forall₂ (RunCut.Compiles r) (c.runCuts paths) (cuttingsFrom a d p) := by
  obtain ⟨rise, parts, rfl, -, hparts⟩ := exists_groups h
  rw [cuttingsFrom_cons_other (by simp)]
  exact hparts.cuttings hround hflat
    (fun pass hmem => (passes_down hflat hpass hdeep pass hmem).2) _ _

end ToolpathParams

end WireErosion
