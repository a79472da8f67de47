import WireErosion.Proofs.Toolpath.Entry
import WireErosion.Proofs.Toolpath.Refine

/-!
# The legs of a pass in exact arithmetic

A pass cuts its runs one after the other, and the groups of a run are a leg.  Each leg is entered at
the first vertex of its run, since the run starts where the one before it ended, and cuts it at the
depth of its side (`CutsRun`).  `EmitsRuns.cutsRun` says so of every leg of a pass, by induction
along the runs.  What it preserves is that the tool is at the last vertex so far, at the depth that
the compiler keeps track of, and not below the depth of the pass.
-/

namespace WireErosion

theorem exists_of_mem_right {β γ : Type} {R : β → γ → Prop} {xs : List β} {ys : List γ}
    (h : List.Forall₂ R xs ys) {y : γ} (hy : y ∈ ys) : ∃ x ∈ xs, R x y := by
  induction h with
  | nil => cases hy
  | cons hxy _ ih =>
      rcases List.mem_cons.mp hy with rfl | hy
      · exact ⟨_, List.mem_cons_self .., hxy⟩
      · obtain ⟨x, hx, h⟩ := ih hy
        exact ⟨x, List.mem_cons_of_mem _ hx, h⟩

/-- Whether the run with an index is inside, where `inside` says it of the first one. -/
def sideOf (inside : Bool) : Nat → Bool
  | 0 => inside
  | k + 1 => sideOf (!inside) k

theorem sideOf_false : ∀ k : Nat, sideOf false k = decide (k % 2 = 1)
  | 0 => rfl
  | 1 => rfl
  | k + 2 => by
      rw [sideOf, sideOf, Bool.not_not, sideOf_false k]
      simp

/-- The groups `leg` cut the run `a :: rest` at the depth `z`, where the groups `before` come first.
They enter it at its first vertex, go down to the depth and keep it. -/
structure CutsRun (r : ℝ → ℝ) (before : List (MoveGroup ℝ)) (z : ℝ) (a : Point ℝ)
    (rest : List (Point ℝ)) (entry : List (MoveGroup ℝ)) (moves : List (Move ℝ)) : Prop where
  /-- There is at most one group before the cut, and it is an entry. -/
  shape : entry = [] ∨ ∃ g, entry = [g] ∧ g.IsEntry
  /-- The groups before end at the first vertex. -/
  start : positionAfter (none, none) (groupLines before) = a.rounded r
  /-- An excursion returns to where it began. -/
  entered : positionAfter (none, none) (groupLines (before ++ entry)) = a.rounded r
  /-- The cut starts at its depth. -/
  depth : depthAfter none (groupLines (before ++ entry)) = some z
  /-- The cut goes through the other vertices and keeps the depth. -/
  moves : List.Forall₂ (fun q m => (m.x, m.y) = Point.rounded r q ∧ m.z = none) rest moves

namespace ToolpathParams

variable {c : ToolpathParams ℝ} {r : ℝ → ℝ}

theorem FeedsTo.rounded (hround : IsRounding c.round r) (hflat : c.usePathZ = false) {q : Point ℝ}
    {m : Move ℝ} (h : c.FeedsTo q m) : (m.x, m.y) = q.rounded r ∧ m.z = none := by
  have hx := (roundField_eq hround (some q.x)).symm.trans h.x
  have hy := (roundField_eq hround (some q.y)).symm.trans h.y
  have hz := h.z
  rw [vertexZ, hflat] at hz
  refine ⟨?_, roundField_eq_none hz⟩
  rw [← Except.ok.inj hx, ← Except.ok.inj hy]
  rfl

/-- Through moves to vertices the tool gets to the last one, and the depth stays. -/
theorem after_moves {moves : List (Move ℝ)} {rest : List (Point ℝ)}
    (h : List.Forall₂ (fun q m => (m.x, m.y) = Point.rounded r q ∧ m.z = none) rest moves) :
    (∀ a : Point ℝ, positionAfter (a.rounded r) (moves.map .move)
        = (rest.getLastD a).rounded r) ∧
      ∀ z, depthAfter z (moves.map .move) = z := by
  induction h with
  | nil => exact ⟨fun _ => rfl, fun _ => rfl⟩
  | @cons q m rest moves hm _ ih =>
      obtain ⟨hposition, hz⟩ := hm
      have hafter : ∀ p : Modal ℝ, p.after m = q.rounded r := by
        intro p
        obtain ⟨hx, hy⟩ := Prod.mk.inj hposition
        rw [Modal.after, hx, hy]
        rfl
      refine ⟨fun a => ?_, fun z => ?_⟩
      · rw [List.map_cons, positionAfter, hafter, List.getLastD_cons]
        exact ih.1 q
      · rw [List.map_cons, depthAfter, hz]
        exact ih.2 z

theorem visits_cut {moves : List (Move ℝ)} {rest : List (Point ℝ)}
    (h : List.Forall₂ (fun q m => (m.x, m.y) = Point.rounded r q ∧ m.z = none) rest moves) :
    visits [MoveGroup.cut moves] = rest.map (Point.rounded r) := by
  rw [visits, List.flatMap_singleton, MoveGroup.visits, MoveGroup.moves]
  · induction h with
    | nil => rfl
    | @cons q m rest moves hm _ ih =>
        have hxy : m.hasXY = true := by
          rw [Move.hasXY, (Prod.mk.inj hm.1).1]
          rfl
        rw [List.filter_cons_of_pos hxy, List.map_cons, List.map_cons, hm.1, ih]
  · intro _ _ h
    cases h

/-- A leg that cuts a run, after the groups `before`. -/
structure CutsLeg (r : ℝ → ℝ) (before : List (MoveGroup ℝ)) (inside : Bool) (tabTop next : ℝ)
    (run : List (Point ℝ)) (leg : List (MoveGroup ℝ)) : Prop where
  /-- A run without vertices has no groups. -/
  empty : run = [] → leg = []
  /-- Any other run is cut at its depth. -/
  cut : ∀ a rest, run = a :: rest → ∃ entry moves, leg = entry ++ [.cut moves] ∧
    CutsRun r before (r (runZ tabTop next inside)) a rest entry moves
  /-- The leg stays above that depth. -/
  above : StaysAbove (r (runZ tabTop next inside)) (depthAfter none (groupLines before))
    (groupLines leg)
  /-- It only rises onto the tabs, and to their top. -/
  ontoTab : ∀ m, .ontoTab m ∈ leg → inside = true ∧ m.z = some (r tabTop)
  /-- It visits the vertices after the first one. -/
  visits : visits leg = run.tail.map (Point.rounded r)

theorem cutsLeg_nil (before : List (MoveGroup ℝ)) (inside : Bool) (tabTop next : ℝ) :
    CutsLeg r before inside tabTop next [] [] where
  empty := fun _ => rfl
  cut := fun _ _ h => by cases h
  above := trivial
  ontoTab := by simp
  visits := rfl

/-- The leg of a run, and where the tool is after it. -/
theorem cutsLeg_cons (hround : IsRounding c.round r) (hflat : c.usePathZ = false)
    {tabTop next z : ℝ} {inside : Bool} (hz : inside = false → next ≤ z) {a : Point ℝ}
    {rest : List (Point ℝ)} {before entry : List (MoveGroup ℝ)} {ms : List (Move ℝ)}
    (hentry : c.EmitsEntry tabTop a rest z (runZ tabTop next inside) entry)
    (hms : List.Forall₂ c.FeedsTo rest ms)
    (hposition : positionAfter (none, none) (groupLines before) = a.rounded r)
    (hdepth : depthAfter none (groupLines before) = some (r z)) :
    CutsLeg r before inside tabTop next (a :: rest) (entry ++ [MoveGroup.cut ms]) ∧
      positionAfter (none, none) (groupLines (before ++ (entry ++ [MoveGroup.cut ms])))
        = (rest.getLastD a).rounded r ∧
      depthAfter none (groupLines (before ++ (entry ++ [MoveGroup.cut ms])))
        = some (r (runZ tabTop next inside)) := by
  -- The tool only rises to a run inside the tabs, so it rises to their top.
  have hside : z < runZ tabTop next inside → inside = true := by
    intro hup
    cases inside with
    | true => rfl
    | false => exact absurd (hz rfl) (not_le.mpr hup)
  have hup : z < runZ tabTop next inside → runZ tabTop next inside = tabTop := by
    intro hup
    rw [runZ, if_pos (hside hup)]
  have henters := hentry.enters hround hup
  have hmoves : List.Forall₂ (fun q m => (m.x, m.y) = Point.rounded r q ∧ m.z = none) rest ms :=
    hms.imp fun _ _ h => h.rounded hround hflat
  obtain ⟨hlast, hlevel⟩ := after_moves hmoves
  have hentered : positionAfter (none, none) (groupLines (before ++ entry)) = a.rounded r := by
    rw [groupLines_append, positionAfter_append, hposition, henters.position]
  have hlow : depthAfter none (groupLines (before ++ entry))
      = some (r (runZ tabTop next inside)) := by
    rw [groupLines_append, depthAfter_append, hdepth, henters.depth]
  have hcut : groupLines [MoveGroup.cut ms] = (MoveGroup.cut ms).lines := by simp
  refine ⟨⟨fun h => (by cases h), ?_, ?_, ?_, ?_⟩, ?_, ?_⟩
  · rintro a' rest' ⟨⟩
    exact ⟨entry, ms, rfl, henters.shape, hposition, hentered, hlow, hmoves⟩
  · have hcuts : StaysAbove (r (runZ tabTop next inside)) (some (r (runZ tabTop next inside)))
        (groupLines [MoveGroup.cut ms]) := by
      rw [hcut, MoveGroup.staysAbove_lines]
      refine .of_level le_rfl fun m hm => ?_
      obtain ⟨q, -, -, hnone⟩ := exists_of_mem_right hmoves hm
      exact hnone
    rw [groupLines_append]
    refine (henters.above _).append ?_
    rwa [← depthAfter_append, ← groupLines_append, hlow]
  · intro m hm
    rw [List.mem_append, List.mem_singleton] at hm
    rcases hm with hm | hm
    · obtain ⟨hlt, hmz⟩ := henters.ontoTab m hm
      rw [hup hlt] at hmz
      exact ⟨hside hlt, hmz⟩
    · cases hm
  · rw [visits, List.flatMap_append]
    exact congrArg₂ _ henters.visits (visits_cut hmoves)
  · rw [← List.append_assoc, groupLines_append, positionAfter_append, hentered, hcut,
      MoveGroup.positionAfter_lines]
    exact hlast a
  · rw [← List.append_assoc, groupLines_append, depthAfter_append, hlow, hcut,
      MoveGroup.depthAfter_lines]
    exact hlevel _

/-- The legs of some runs, after the groups `before`, where `last` is the depth after them. -/
structure CutsLegs (r : ℝ → ℝ) (before : List (MoveGroup ℝ)) (inside : Bool) (tabTop next : ℝ)
    (runs : List (List (Point ℝ))) (legs : List (List (MoveGroup ℝ))) (last : ℝ) : Prop where
  /-- There is a leg for each run. -/
  length : legs.length = runs.length
  /-- Each leg cuts its run, inside and outside the tabs in turns. -/
  leg : ∀ (k : Nat) (run : List (Point ℝ)), runs[k]? = some run → ∃ leg, legs[k]? = some leg ∧
    CutsLeg r (before ++ (legs.take k).flatten) (sideOf inside k) tabTop next run leg
  /-- The depth after the legs. -/
  depth : depthAfter none (groupLines (before ++ legs.flatten)) = some (r last)
  /-- They do not end below the depth of the pass. -/
  last : next ≤ last
  /-- They stay above the depth of the pass. -/
  above : StaysAbove (r next) (depthAfter none (groupLines before)) (groupLines legs.flatten)
  /-- They visit the vertices after the first one of each run. -/
  visits : visits legs.flatten = (runs.flatMap List.tail).map (Point.rounded r)

theorem CutsLegs.exists_run {before : List (MoveGroup ℝ)} {inside : Bool} {tabTop next last : ℝ}
    {runs : List (List (Point ℝ))} {legs : List (List (MoveGroup ℝ))}
    (h : CutsLegs r before inside tabTop next runs legs last) {k : Nat} {leg : List (MoveGroup ℝ)}
    (hk : legs[k]? = some leg) : ∃ run, runs[k]? = some run ∧
      CutsLeg r (before ++ (legs.take k).flatten) (sideOf inside k) tabTop next run leg := by
  obtain ⟨hlt, -⟩ := List.getElem?_eq_some_iff.mp hk
  rw [h.length] at hlt
  obtain ⟨leg', hleg', hcuts⟩ := h.leg k _ (List.getElem?_eq_getElem hlt)
  rw [hk] at hleg'
  cases hleg'
  exact ⟨_, List.getElem?_eq_getElem hlt, hcuts⟩

/-- A leg before some others. -/
theorem CutsLegs.cons {before : List (MoveGroup ℝ)} {inside : Bool} {tabTop next last : ℝ}
    {run : List (Point ℝ)} {runs : List (List (Point ℝ))} {leg : List (MoveGroup ℝ)}
    {legs : List (List (MoveGroup ℝ))} (hr : r next ≤ r (runZ tabTop next inside))
    (hleg : CutsLeg r before inside tabTop next run leg)
    (h : CutsLegs r (before ++ leg) (!inside) tabTop next runs legs last) :
    CutsLegs r before inside tabTop next (run :: runs) (leg :: legs) last where
  length := by rw [List.length_cons, h.length, List.length_cons]
  leg := by
    intro k run' hk
    cases k with
    | zero =>
        cases hk
        rw [List.take_zero, List.flatten_nil, List.append_nil]
        exact ⟨leg, rfl, hleg⟩
    | succ k =>
        obtain ⟨leg', hleg', hcuts⟩ := h.leg k run' hk
        refine ⟨leg', hleg', ?_⟩
        rw [List.take_succ_cons, List.flatten_cons, ← List.append_assoc]
        exact hcuts
  depth := by
    rw [List.flatten_cons, ← List.append_assoc]
    exact h.depth
  last := h.last
  above := by
    rw [List.flatten_cons, groupLines_append]
    refine (hleg.above.mono hr).append ?_
    rw [← depthAfter_append, ← groupLines_append]
    exact h.above
  visits := by
    rw [List.flatten_cons, List.flatMap_cons, List.map_append, ← hleg.visits, ← h.visits]
    exact List.flatMap_append

/-- The legs of some runs, where the top of the tabs is not below the depth of the pass if there
is a run inside. -/
theorem EmitsRuns.cutsLegs (hround : IsRounding c.round r) (hflat : c.usePathZ = false)
    {tabTop next z last : ℝ} {inside : Bool} {runs : List (List (Point ℝ))}
    {legs : List (List (MoveGroup ℝ))} (h : c.EmitsRuns tabTop next inside z runs legs last) :
    (∀ (k : Nat) (run : List (Point ℝ)), runs[k]? = some run → sideOf inside k = true →
      next ≤ tabTop) → next ≤ z →
    ∀ (a : Point ℝ) (before : List (MoveGroup ℝ)), Joined a runs →
      positionAfter (none, none) (groupLines before) = a.rounded r →
      depthAfter none (groupLines before) = some (r z) →
      CutsLegs r before inside tabTop next runs legs last := by
  -- No run is cut below the depth of the pass.
  have hlow : ∀ {inside : Bool} {run : List (Point ℝ)} {runs : List (List (Point ℝ))},
      (∀ (k : Nat) (run' : List (Point ℝ)), (run :: runs)[k]? = some run' →
        sideOf inside k = true → next ≤ tabTop) → next ≤ runZ tabTop next inside := by
    intro inside run runs hside
    cases inside with
    | true => exact hside 0 run rfl rfl
    | false => exact le_rfl
  induction h with
  | done =>
      intro _ hz a before _ _ hdepth
      exact ⟨rfl, fun k run hk => (by cases hk), by simpa using hdepth, hz, trivial, rfl⟩
  | skip _ ih =>
      intro hside hz a before hjoined hposition hdepth
      have hrest := ih (fun k run => hside (k + 1) run) hz a before hjoined hposition hdepth
      refine .cons (hround.mono (hlow hside)) (cutsLeg_nil ..) ?_
      rwa [List.append_nil]
  | @cut inside z last b rest runs entry ms legs hentry hms _ ih =>
      intro hside hz a before hjoined hposition hdepth
      -- The run starts at `a`, where the tool is, and its last vertex is where the next one joins.
      obtain ⟨rfl, hjoined⟩ := hjoined
      rw [if_neg (by simp [hflat])] at hentry ih
      obtain ⟨hleg, hposition', hdepth'⟩ :=
        cutsLeg_cons hround hflat (fun _ => hz) hentry hms hposition hdepth
      have hrest := ih (fun k run => hside (k + 1) run) (hlow hside) _ _ hjoined hposition' hdepth'
      exact .cons (hround.mono (hlow hside)) hleg hrest

/-! ## Passes -/

/-- The runs of a pass over a path, which is cut whole down to the top of the tabs. -/
noncomputable def cutRuns (c : ToolpathParams ℝ) (path : CamPath ℝ) (pass : Pass ℝ) :
    List (List (Point ℝ)) :=
  if c.wholeZ c.activeTabs ≤ pass.next then [path.points.map c.convert]
  else c.runsOf c.activeTabs path.points

theorem passRuns_ready (hflat : c.usePathZ = false) (p : Point ℝ) (path : CamPath ℝ)
    (pass : Pass ℝ) :
    c.passRuns c.activeTabs (c.ready c.activeTabs p path) pass = c.cutRuns path pass := by
  simp [passRuns, cutRuns, hflat, ready]

/-- The first run starts at the first vertex of the path. -/
theorem joined_cutRuns {path : CamPath ℝ} {p : Point ℝ} {ps : List (Point ℝ)}
    (hpoints : path.points = p :: ps) (pass : Pass ℝ) :
    Joined (c.convert p) (c.cutRuns path pass) := by
  have hwhole : Joined (c.convert p) [path.points.map c.convert] := by
    rw [hpoints]
    exact ⟨rfl, trivial⟩
  rw [cutRuns]
  split
  next => exact hwhole
  next =>
    cases hactive : c.activeTabs with
    | none => exact hwhole
    | some t =>
        rw [runsOf, hpoints]
        exact (joined_splitRuns t.region p ps).map c.convert

/-- Runs inside are only cut where the pass is below the top of the tabs. -/
theorem next_le_of_inside {path : CamPath ℝ} {pass : Pass ℝ} {k : Nat} {run : List (Point ℝ)}
    (hrun : (c.cutRuns path pass)[k]? = some run) (hside : sideOf false k = true) :
    pass.next ≤ c.wholeZ c.activeTabs := by
  rw [cutRuns] at hrun
  split at hrun
  next =>
    cases k with
    | zero => cases hside
    | succ k => cases hrun
  next hdeep => exact (not_le.mp hdeep).le

/-- After a travel to a vertex the tool is there, and at the depth to which it goes down. -/
theorem after_travel {q : Point ℝ} {d : ℝ} {travel drop : Move ℝ}
    (htravel : (travel.x, travel.y) = q.rounded r)
    (hdrop : drop.x = none ∧ drop.y = none ∧ drop.z = some d) (lead : List (MoveGroup ℝ)) :
    (∀ a : Modal ℝ,
      positionAfter a (groupLines (lead ++ [MoveGroup.travel travel drop])) = q.rounded r) ∧
    ∀ z : Option ℝ,
      depthAfter z (groupLines (lead ++ [MoveGroup.travel travel drop])) = some d := by
  have hlines : groupLines (lead ++ [MoveGroup.travel travel drop])
      = groupLines lead ++ [Line.rapidToStart, Line.move travel, Line.move drop] := by
    simp [MoveGroup.lines, MoveGroup.comments, MoveGroup.moves]
  obtain ⟨hx, hy⟩ := Prod.mk.inj htravel
  obtain ⟨hdx, hdy, hdz⟩ := hdrop
  rw [hlines]
  refine ⟨fun a => ?_, fun z => ?_⟩
  · rw [positionAfter_append]
    simp only [Line.rapidToStart, positionAfter, Modal.after, hx, hy, hdx, hdy]
    rfl
  · rw [depthAfter_append]
    simp only [Line.rapidToStart, depthAfter, hdz]
    rfl

/-- The parts of a pass over a path with the first vertex `p`, where `z` is the depth before it and
`last` the one after it. -/
structure CutsPass (c : ToolpathParams ℝ) (r : ℝ → ℝ) (path : CamPath ℝ) (p : Point ℝ) (z : ℝ)
    (pass : Pass ℝ) (last : ℝ) (lead : List (MoveGroup ℝ)) (travel drop : Move ℝ)
    (legs : List (List (MoveGroup ℝ))) : Prop where
  /-- The pass starts with a rise if there is to be one. -/
  leads : c.EmitsLead c.activeTabs (c.ready c.activeTabs p path) z lead
  /-- The travel goes to the first vertex and keeps the depth. -/
  travels : (travel.x, travel.y) = (c.convert p).rounded r ∧ travel.z = none
  /-- The tool goes down to the depth at which the pass is entered. -/
  drops : drop.x = none ∧ drop.y = none ∧ drop.z = some (r (entryZ c.activeTabs pass.finished))
  /-- The legs cut the runs of the pass. -/
  cuts : CutsLegs r (lead ++ [.travel travel drop]) false (c.wholeZ c.activeTabs) pass.next
    (c.cutRuns path pass) legs last

theorem EmitsPass.exists_legs (hround : IsRounding c.round r) (hflat : c.usePathZ = false)
    {path : CamPath ℝ} {p : Point ℝ} {ps : List (Point ℝ)} (hpoints : path.points = p :: ps)
    {z last : ℝ} {pass : Pass ℝ} (hnext : pass.next ≤ pass.finished) {gs : List (MoveGroup ℝ)}
    (h : c.EmitsPass c.activeTabs (c.ready c.activeTabs p path) z pass gs last) :
    ∃ lead travel drop legs, gs = lead ++ .travel travel drop :: legs.flatten ∧
      c.CutsPass r path p z pass last lead travel drop legs := by
  cases h with
  | @intro lead travel drop legs _ hlead htravel hdrop hlegs =>
      have htravels : (travel.x, travel.y) = (c.convert p).rounded r := by
        rw [htravel.x_eq hround, htravel.y_eq hround]
        rfl
      have hdrops : drop.x = none ∧ drop.y = none ∧
          drop.z = some (r (entryZ c.activeTabs pass.finished)) :=
        ⟨hdrop.x_eq hround, hdrop.y_eq hround, hdrop.z_eq hround⟩
      obtain ⟨hposition, hdepth⟩ := after_travel htravels hdrops lead
      refine ⟨lead, travel, drop, legs, rfl, hlead, ⟨htravels, htravel.z_eq hround⟩, hdrops, ?_⟩
      rw [passRuns_ready hflat] at hlegs
      exact hlegs.cutsLegs hround hflat (fun k run => next_le_of_inside)
        (hnext.trans (le_entryZ _)) _ _ (joined_cutRuns hpoints pass) (hposition _) (hdepth _)

/-! ## Paths -/

/-- The groups of a path with its index, where `P` says what the groups of its passes are. -/
inductive PathGroups (P : CamPath ℝ → List (List (MoveGroup ℝ)) → Prop) :
    CamPath ℝ × ℕ → List (MoveGroup ℝ) → Prop
  | empty {path : CamPath ℝ} {i : ℕ} : path.points = [] → PathGroups P (path, i) []
  | passes {path : CamPath ℝ} {i : ℕ} {passes : List (List (MoveGroup ℝ))} {m : Move ℝ} :
      path.points ≠ [] → P path passes →
      PathGroups P (path, i) (.header i :: passes.flatten ++ [.retract m])

theorem EmitsPaths.pathGroups {tabs : Option (Tabs ℝ)}
    {P : CamPath ℝ → List (List (MoveGroup ℝ)) → Prop}
    (hP : ∀ (path : CamPath ℝ) (p : Point ℝ) (ps : List (Point ℝ))
      (passes : List (List (MoveGroup ℝ))), path.points = p :: ps →
      c.EmitsPasses tabs (c.ready tabs p path) c.safeZ c.passes passes → P path passes)
    {i : ℕ} {paths : List (CamPath ℝ)} {parts : List (List (MoveGroup ℝ))}
    (h : c.EmitsPaths tabs i paths parts) :
    List.Forall₂ (PathGroups P) (paths.zipIdx i) parts := by
  induction h with
  | done => exact .nil
  | skip hpoints _ ih => exact .cons (.empty hpoints) ih
  | path hpoints hpasses _ _ ih =>
      exact .cons (.passes (by simp [hpoints]) (hP _ _ _ _ hpoints hpasses)) ih

end ToolpathParams

end WireErosion
