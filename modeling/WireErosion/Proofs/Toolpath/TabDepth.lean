import WireErosion.Proofs.Toolpath.Coverage

/-!
# Depths around tabs in exact arithmetic

With tabs in effect a path is cut whole as long as a pass stays above their top.  Below it the runs
outside and inside the tabs take turns, and the ones inside are cut at the top of the tabs
(`ToolpathParams.tabs_kept`).

No move goes below both the final depth and the clearance height
(`ToolpathParams.compile_staysAbove`), and no run goes below the depth of its pass.  That the
clearance height is no lower than the final depth is up to the parameters (`sunkenToolpath_dives`).
-/

namespace WireErosion

open scoped Exact

namespace ToolpathParams

variable {c : ToolpathParams ℝ} {r : ℝ → ℝ} {path : CamPath ℝ} {p : Point ℝ} {z last : ℝ}
  {pass : Pass ℝ} {lead : List (MoveGroup ℝ)} {travel drop : Move ℝ}
  {legs : List (List (MoveGroup ℝ))}

/-- A rise leaves the tool at the clearance height. -/
theorem RisesBy.staysAbove (hround : IsRounding c.round r) {m : Move ℝ} (h : c.RisesBy m) {b : ℝ}
    (hb : b ≤ c.safeZ) (a : Option ℝ) :
    StaysAbove (r b) a (groupLines [.retract m]) ∧
      depthAfter a (groupLines [.retract m]) = some (r c.safeZ) := by
  have hz : m.z = some (r c.safeZ) := RoundsMove.z_eq hround h
  rw [groupLines_cons, groupLines_nil, List.append_nil, MoveGroup.staysAbove_lines,
    MoveGroup.depthAfter_lines, MoveGroup.moves, List.map_singleton, StaysAbove, depthAfter, hz]
  exact ⟨⟨⟨_, rfl, hround.mono hb⟩, trivial⟩, rfl⟩

/-! ## Passes -/

theorem CutsPass.depth (h : c.CutsPass r path p z pass last lead travel drop legs) (a : Option ℝ) :
    depthAfter a (groupLines (lead ++ .travel travel drop :: legs.flatten)) = some (r last) := by
  have happroach := (after_travel h.travels.1 h.drops lead).2
  have hdepth := h.cuts.depth
  rw [groupLines_append, depthAfter_append, happroach] at hdepth
  rw [List.append_cons, groupLines_append, depthAfter_append, happroach]
  exact hdepth

/-- The rise before a pass leaves the tool no lower than it was. -/
theorem CutsPass.depth_lead (hround : IsRounding c.round r)
    (h : c.CutsPass r path p z pass last lead travel drop legs) :
    ∃ d, depthAfter (some (r z)) (groupLines lead) = some d ∧ r z ≤ d := by
  cases h.leads with
  | stay => exact ⟨_, rfl, le_rfl⟩
  | @rise m hrises hm =>
      exact ⟨r c.safeZ, (hm.staysAbove hround le_rfl _).2, hround.mono hrises.1.le⟩

/-- The rapids of a travel stop at or above the depth that is finished, if the tool was there. -/
theorem CutsPass.travel_staysAbove (h : c.CutsPass r path p z pass last lead travel drop legs)
    {b d : ℝ} (hbd : b ≤ d) (hb : b ≤ r pass.finished) (hround : IsRounding c.round r) :
    StaysAbove b (some d) (groupLines [.travel travel drop]) := by
  have hdrop : b ≤ r (entryZ c.activeTabs pass.finished) := hb.trans (hround.mono (le_entryZ _))
  rw [groupLines_cons, groupLines_nil, List.append_nil, MoveGroup.staysAbove_lines,
    MoveGroup.moves, List.map_cons, List.map_singleton, StaysAbove, StaysAbove, h.travels.2,
    h.drops.2.2]
  exact ⟨⟨d, rfl, hbd⟩, ⟨_, rfl, hdrop⟩, trivial⟩

/-- A pass stays above any depth that the tool, the clearance height and the pass itself do not go
below. -/
theorem CutsPass.staysAbove (hround : IsRounding c.round r)
    (h : c.CutsPass r path p z pass last lead travel drop legs) {b : ℝ} (hz : b ≤ z)
    (hsafe : b ≤ c.safeZ) (hnext : b ≤ pass.next) (hdown : pass.next ≤ pass.finished) :
    StaysAbove (r b) (some (r z)) (groupLines (lead ++ .travel travel drop :: legs.flatten)) := by
  obtain ⟨d, hd, hzd⟩ := h.depth_lead hround
  have hlead : StaysAbove (r b) (some (r z)) (groupLines lead) := by
    cases h.leads with
    | stay => exact trivial
    | rise _ hm => exact (hm.staysAbove hround hsafe _).1
  have htravel := h.travel_staysAbove ((hround.mono hz).trans hzd)
    (hround.mono (hnext.trans hdown)) hround
  have happroach := (after_travel h.travels.1 h.drops lead).2
  have hlegs := h.cuts.above
  rw [happroach] at hlegs
  rw [List.append_cons, groupLines_append]
  refine StaysAbove.append ?_ ?_
  · rw [groupLines_append]
    refine hlead.append ?_
    rwa [hd]
  · rw [happroach]
    exact hlegs.mono (hround.mono hnext)

/-! ## The final depth -/

section

variable {b : ℝ} {passes : List (Pass ℝ)} {parts : List (List (MoveGroup ℝ))}

/-- The passes over a path stay above a depth that they do not go below. -/
theorem EmitsPasses.staysAbove (hround : IsRounding c.round r) (hflat : c.usePathZ = false)
    {ps : List (Point ℝ)} (hpoints : path.points = p :: ps) (hsafe : b ≤ c.safeZ)
    (h : c.EmitsPasses c.activeTabs (c.ready c.activeTabs p path) z passes parts) :
    b ≤ z → (∀ pass ∈ passes, b ≤ pass.next ∧ pass.next ≤ pass.finished) →
      StaysAbove (r b) (some (r z)) (groupLines parts.flatten) := by
  induction h with
  | done => exact fun _ _ => trivial
  | pass hpass _ ih =>
      intro hz hpasses
      obtain ⟨⟨hnext, hdown⟩, hpasses⟩ := List.forall_mem_cons.mp hpasses
      obtain ⟨lead, travel, drop, legs, rfl, hcuts⟩ := hpass.exists_legs hround hflat hpoints hdown
      rw [List.flatten_cons, groupLines_append]
      refine (hcuts.staysAbove hround hz hsafe hnext hdown).append ?_
      rw [hcuts.depth]
      exact ih (hnext.trans hcuts.cuts.last) hpasses

theorem EmitsPaths.staysAbove (hround : IsRounding c.round r) (hflat : c.usePathZ = false)
    (hsafe : b ≤ c.safeZ) (hpasses : ∀ pass ∈ c.passes, b ≤ pass.next ∧ pass.next ≤ pass.finished)
    {i : ℕ} {paths : List (CamPath ℝ)} (h : c.EmitsPaths c.activeTabs i paths parts) :
    StaysAbove (r b) (some (r c.safeZ)) (groupLines parts.flatten) := by
  induction h with
  | done => exact trivial
  | skip _ _ ih => exact ih
  | path hpoints hemits hm _ ih =>
      have hpath := hemits.staysAbove hround hflat hpoints hsafe hsafe hpasses
      rw [List.flatten_cons, groupLines_append]
      -- After the passes the tool rises, so the next path starts at the clearance height again.
      refine StaysAbove.append ?_ ?_
      · rw [List.cons_append, groupLines_cons, groupLines_append]
        exact hpath.append (hm.staysAbove hround hsafe _).1
      · rw [groupLines_append, depthAfter_append, (hm.staysAbove hround hsafe _).2]
        exact ih

end

section

variable (hflat : c.usePathZ = false) (hpass : 0 < c.passDepth)

include hflat hpass

/-- No move of a compiled program goes below both the final depth and the clearance height. -/
theorem compile_staysAbove (hround : IsRounding c.round r) (hdeep : c.bottomZ ≤ c.topZ)
    {paths : List (CamPath ℝ)} {program : Program ℝ} (h : c.compile paths = .ok program) :
    StaysAbove (r (min c.bottomZ c.safeZ)) none program := by
  obtain ⟨rise, parts, rfl, hrise, hparts⟩ := exists_groups h
  have hstart := hrise.staysAbove hround (min_le_right c.bottomZ _) none
  have hrest := hparts.staysAbove hround hflat (min_le_right c.bottomZ _) fun pass hmem =>
    (passes_down hflat hpass hdeep pass hmem).imp_left (min_le_left _ _).trans
  rw [← List.singleton_append, groupLines_append]
  refine hstart.1.append ?_
  rw [hstart.2]
  exact hrest

end

/-! ## Runs inside the tabs -/

/-- The legs of a pass over a path with tabs, which ends at the depth `next` and whose groups
`approach` come before them. -/
structure LegsKeepTabs (c : ToolpathParams ℝ) (r : ℝ → ℝ) (t : Tabs ℝ) (points : List (Point ℝ))
    (next : ℝ) (approach : List (MoveGroup ℝ)) (legs : List (List (MoveGroup ℝ))) : Prop where
  /-- The path is cut whole above the tabs. -/
  whole : t.top ≤ next →
    StaysAbove (r t.top) (depthAfter none (groupLines approach)) (groupLines legs.flatten)
  /-- No leg goes below the depth of the pass. -/
  above : StaysAbove (r next) (depthAfter none (groupLines approach)) (groupLines legs.flatten)
  /-- Below the tabs there is a leg for each run. -/
  length : next < t.top → legs.length = (splitRuns t.region points).length
  /-- Below the tabs no leg inside them goes below their top. -/
  inside : next < t.top → ∀ (k : Nat) (leg : List (MoveGroup ℝ)), k % 2 = 1 → legs[k]? = some leg →
    StaysAbove (r t.top) (depthAfter none (groupLines (approach ++ (legs.take k).flatten)))
      (groupLines leg)
  /-- Each run is cut, outside the tabs at the depth of the pass and inside at their top. -/
  cut : next < t.top → ∀ (k : Nat) (a : Point ℝ) (rest : List (Point ℝ)),
    (splitRuns t.region points)[k]? = some (a :: rest) →
    ∃ entry moves, legs[k]? = some (entry ++ [.cut moves]) ∧
      CutsRun r (approach ++ (legs.take k).flatten) (r (if k % 2 = 1 then t.top else next))
        (c.convert a) (rest.map c.convert) entry moves
  /-- Only legs inside the tabs rise onto them, and to their top. -/
  ontoTab : ∀ (k : Nat) (leg : List (MoveGroup ℝ)) (m : Move ℝ), legs[k]? = some leg →
    .ontoTab m ∈ leg → k % 2 = 1 ∧ m.z = some (r t.top)

theorem CutsLegs.keepTabs (hround : IsRounding c.round r) {t : Tabs ℝ} (ht : c.activeTabs = some t)
    {approach : List (MoveGroup ℝ)}
    (h : CutsLegs r approach false (c.wholeZ c.activeTabs) pass.next (c.cutRuns path pass) legs
      last) :
    c.LegsKeepTabs r t path.points pass.next approach legs := by
  have hside : ∀ k : Nat, runZ t.top pass.next (sideOf false k)
      = if k % 2 = 1 then t.top else pass.next := by
    intro k
    rw [sideOf_false, runZ]
    simp
  have hruns : pass.next < t.top →
      c.cutRuns path pass = (splitRuns t.region path.points).map fun run => run.map c.convert := by
    intro hdeep
    rw [cutRuns, ht, wholeZ, if_neg (not_le.mpr hdeep)]
    rfl
  rw [ht] at h
  refine ⟨fun hshallow => ?_, h.above, fun hdeep => ?_, fun hdeep k leg hk hleg => ?_,
    fun hdeep k a rest hk => ?_, fun k leg m hleg hm => ?_⟩
  · exact h.above.mono (hround.mono hshallow)
  · rw [h.length, hruns hdeep, List.length_map]
  · obtain ⟨run, -, hcuts⟩ := h.exists_run hleg
    have habove := hcuts.above
    rw [wholeZ, hside, if_pos hk] at habove
    exact habove
  · obtain ⟨leg, hleg, hcuts⟩ := h.leg k ((a :: rest).map c.convert) (by
      rw [hruns hdeep, List.getElem?_map, hk]
      rfl)
    obtain ⟨entry, moves, rfl, hrun⟩ := hcuts.cut _ _ rfl
    rw [wholeZ, hside] at hrun
    exact ⟨entry, moves, hleg, hrun⟩
  · obtain ⟨run, -, hcuts⟩ := h.exists_run hleg
    obtain ⟨hinside, hz⟩ := hcuts.ontoTab m hm
    rw [sideOf_false, decide_eq_true_iff] at hinside
    exact ⟨hinside, hz⟩

/-! ## Passes over a path -/

/-- Some passes in turn, where `P` says of each one what holds after the groups before it. -/
inductive InTurn {α : Type} (P : List (MoveGroup ℝ) → α → List (MoveGroup ℝ) → Prop) :
    List (MoveGroup ℝ) → List α → List (List (MoveGroup ℝ)) → Prop
  | done {before : List (MoveGroup ℝ)} : InTurn P before [] []
  | next {before gs : List (MoveGroup ℝ)} {x : α} {xs : List α}
      {parts : List (List (MoveGroup ℝ))} :
      P before x gs → InTurn P (before ++ gs) xs parts → InTurn P before (x :: xs) (gs :: parts)

/-- The groups of a pass over a path with tabs, after the groups `before` of the passes before.
Neither rapid of the travel stops below the depth that those have finished. -/
inductive KeepsTabs (c : ToolpathParams ℝ) (r : ℝ → ℝ) (t : Tabs ℝ) (points : List (Point ℝ))
    (before : List (MoveGroup ℝ)) (pass : Pass ℝ) : List (MoveGroup ℝ) → Prop
  | intro {lead : List (MoveGroup ℝ)} {travel drop : Move ℝ} {legs : List (List (MoveGroup ℝ))} :
      (lead = [] ∨ ∃ m, lead = [.retract m]) →
      (before ≠ [] → StaysAbove (r pass.finished) (depthAfter none (groupLines (before ++ lead)))
        (groupLines [.travel travel drop])) →
      (∃ d, drop.z = some d ∧ r pass.finished ≤ d) →
      c.LegsKeepTabs r t points pass.next (lead ++ [.travel travel drop]) legs →
      KeepsTabs c r t points before pass (lead ++ .travel travel drop :: legs.flatten)

theorem EmitsPasses.keepsTabs (hround : IsRounding c.round r) (hflat : c.usePathZ = false)
    {t : Tabs ℝ} (ht : c.activeTabs = some t) {ps : List (Point ℝ)}
    (hpoints : path.points = p :: ps) {passes : List (Pass ℝ)} {parts : List (List (MoveGroup ℝ))}
    (h : c.EmitsPasses c.activeTabs (c.ready c.activeTabs p path) z passes parts) :
    (∀ pass ∈ passes, pass.next ≤ pass.finished) →
    (passes.IsChain fun pass pass' => pass'.finished = pass.next) →
    ∀ before : List (MoveGroup ℝ),
      (before ≠ [] → depthAfter none (groupLines before) = some (r z) ∧
        ∀ pass ∈ passes.head?, pass.finished ≤ z) →
      InTurn (c.KeepsTabs r t path.points) before passes parts := by
  induction h with
  | done => exact fun _ _ _ _ => .done
  | @pass z last pass passes gs parts hpass _ ih =>
      intro hdown hchain before hbefore
      obtain ⟨hdown, hrest⟩ := List.forall_mem_cons.mp hdown
      obtain ⟨hlink, hchain⟩ := List.isChain_cons.mp hchain
      obtain ⟨lead, travel, drop, legs, rfl, hcuts⟩ := hpass.exists_legs hround hflat hpoints hdown
      refine .next (.intro ?_ ?_ ⟨_, hcuts.drops.2.2, hround.mono (le_entryZ _)⟩
        (hcuts.cuts.keepTabs hround ht)) (ih hrest hchain _ fun _ => ⟨?_, ?_⟩)
      · cases hcuts.leads with
        | stay => exact .inl rfl
        | rise => exact .inr ⟨_, rfl⟩
      · -- The passes before leave the tool at `z`, which is not below what they have finished.
        intro hne
        obtain ⟨hz, hfinished⟩ := hbefore hne
        obtain ⟨d, hd, hzd⟩ := hcuts.depth_lead hround
        rw [groupLines_append, depthAfter_append, hz, hd]
        exact hcuts.travel_staysAbove ((hround.mono (hfinished pass rfl)).trans hzd) le_rfl hround
      · rw [groupLines_append, depthAfter_append, hcuts.depth]
      · intro pass' hpass'
        rw [hlink pass' hpass']
        exact hcuts.cuts.last

theorem exists_last_of_passes (hflat : c.usePathZ = false) (hpass : 0 < c.passDepth)
    (hdeep : c.bottomZ < c.topZ) :
    ∃ front last, c.passes = front ++ [last] ∧ last.next = c.bottomZ := by
  rw [passes_of_flat hflat]
  exact exists_last_of_schedule hpass hdeep

theorem bottom_lt_top_of_activeTabs {t : Tabs ℝ} (ht : c.activeTabs = some t) :
    c.bottomZ < t.top := by
  rw [activeTabs] at ht
  split at ht
  next =>
    split at ht
    next => cases ht
    next hlow =>
      cases ht
      exact not_le.mp hlow
  next => cases ht

/-- With tabs in effect no move of a run inside them or of a cut of the whole path goes below their
top.  The last pass is the one that ends at the final depth. -/
theorem tabs_kept (hround : IsRounding c.round r) (hflat : c.usePathZ = false)
    (hpass : 0 < c.passDepth) (hdeep : c.bottomZ < c.topZ) {t : Tabs ℝ}
    (ht : c.activeTabs = some t) {paths : List (CamPath ℝ)} {program : Program ℝ}
    (h : c.compile paths = .ok program) :
    StaysAbove (r (min c.bottomZ c.safeZ)) none program ∧
    (c.bottomZ < t.top ∧ ∃ front last, c.passes = front ++ [last] ∧ last.next = c.bottomZ) ∧
    ∃ rise parts, program = groupLines (.retract rise :: parts.flatten) ∧
      List.Forall₂
        (PathGroups fun path passes => InTurn (c.KeepsTabs r t path.points) [] c.passes passes)
        paths.zipIdx parts := by
  refine ⟨compile_staysAbove hflat hpass hround hdeep.le h, ⟨bottom_lt_top_of_activeTabs ht,
    exists_last_of_passes hflat hpass hdeep⟩, ?_⟩
  obtain ⟨rise, parts, rfl, -, hparts⟩ := exists_groups h
  refine ⟨rise, parts, rfl, hparts.pathGroups ?_⟩
  intro path p ps passes hpoints hpasses
  refine hpasses.keepsTabs hround hflat ht hpoints
    (fun pass hmem => (passes_down hflat hpass hdeep.le pass hmem).2) ?_ [] (absurd rfl)
  rw [passes_of_flat hflat]
  exact isChain_schedule hpass hdeep.le

end ToolpathParams

/-! ## Two toolpaths -/

/-- The tab across the way is left standing by ramped passes. -/
theorem bridgedToolpath_tabs_kept :
    bridgedToolpath.bottomZ < bridgedToolpath.topZ ∧
    bridgedToolpath.activeTabs = some ⟨strip, -3⟩ ∧
    ∃ (r : ℝ → ℝ) (program : Program ℝ), IsRounding bridgedToolpath.round r ∧
    bridgedToolpath.compile [⟨[⟨0, 0, 0⟩, ⟨9, 0, 0⟩], true⟩] = .ok program ∧
    StaysAbove (r (min (-5) 5)) none program ∧
    ((-5 : ℝ) < -3 ∧ ∃ front last, bridgedToolpath.passes = front ++ [last] ∧ last.next = -5) ∧
    ∃ rise parts, program = groupLines (.retract rise :: parts.flatten) ∧
      List.Forall₂
        (ToolpathParams.PathGroups fun path passes => ToolpathParams.InTurn
          (bridgedToolpath.KeepsTabs r ⟨strip, -3⟩ path.points) [] bridgedToolpath.passes passes)
        (List.zipIdx [⟨[⟨0, 0, 0⟩, ⟨9, 0, 0⟩], true⟩]) parts := by
  have hdeep : bridgedToolpath.bottomZ < bridgedToolpath.topZ := by
    norm_num [bridgedToolpath, tabbedToolpath]
  have hactive : bridgedToolpath.activeTabs = some ⟨strip, -3⟩ := by
    norm_num [ToolpathParams.activeTabs, bridgedToolpath, tabbedToolpath]
  have hround : IsRounding bridgedToolpath.round _ := isRounding_roundTo 3
  obtain ⟨program, hprogram⟩ := ToolpathParams.exists_compile_of_feed
    (fun _ => by norm_num [bridgedToolpath, tabbedToolpath]) hround
    [⟨[⟨0, 0, 0⟩, ⟨9, 0, 0⟩], true⟩]
  exact ⟨hdeep, hactive, _, program, hround, hprogram,
    ToolpathParams.tabs_kept hround rfl (by norm_num [bridgedToolpath, tabbedToolpath]) hdeep
      hactive hprogram⟩

/-- A toolpath with tabs and with its clearance height below the final depth. -/
noncomputable def sunkenToolpath : ToolpathParams ℝ :=
  { slabToolpath ⟨false, 60, 200, none⟩ (some everywhere) with safeZ := -6 }

/-- Its first move goes below the final depth, before any cut. -/
theorem sunkenToolpath_dives :
    sunkenToolpath.usePathZ = false ∧ 0 < sunkenToolpath.passDepth ∧
    sunkenToolpath.bottomZ < sunkenToolpath.topZ ∧
    sunkenToolpath.activeTabs = some ⟨everywhere, -3⟩ ∧
    ∃ program, sunkenToolpath.compile [⟨[⟨0, 0, 0⟩, ⟨9, 0, 0⟩], true⟩] = .ok program ∧
      ∃ m z, .move m ∈ program ∧ m.z = some z ∧ z < sunkenToolpath.bottomZ := by
  have hround : IsRounding sunkenToolpath.round _ := isRounding_roundTo 3
  obtain ⟨program, hprogram⟩ := ToolpathParams.exists_compile_of_feed
    (fun h => by cases h) hround [⟨[⟨0, 0, 0⟩, ⟨9, 0, 0⟩], true⟩]
  obtain ⟨rise, parts, hparts, hrise, -⟩ := ToolpathParams.exists_groups hprogram
  refine ⟨rfl, by norm_num [sunkenToolpath, slabToolpath],
    by norm_num [sunkenToolpath, slabToolpath],
    by norm_num [ToolpathParams.activeTabs, sunkenToolpath, slabToolpath], program, hprogram, rise,
    -6, ?_, ?_, by norm_num [sunkenToolpath, slabToolpath]⟩
  · rw [hparts, mem_groupLines]
    exact ⟨_, List.mem_cons_self .., List.mem_singleton_self _⟩
  · obtain ⟨z, hz, hrise⟩ := roundField_eq_some hrise.z
    have hwhole := roundTo_intCast 3 (by norm_num) (-6)
    rw [Int.cast_neg, Int.cast_ofNat] at hwhole
    rw [hrise, ← Except.ok.inj (hwhole.symm.trans hz)]

end WireErosion
