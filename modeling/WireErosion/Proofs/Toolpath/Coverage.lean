import WireErosion.Proofs.Toolpath.Faultless
import WireErosion.Proofs.Toolpath.Legs
import WireErosion.Proofs.Toolpath.Schedule

/-!
# Passes cover a path in exact arithmetic

A path is cut in as many passes as it takes to get to the final depth one pass depth at a time,
and each pass goes once through all of its vertices (`ToolpathParams.compile_covers`).  A cut
group names the vertices of its run but the first one, at which the tool is already.

Two things keep a pass from being a cut of the whole path down to one depth.  Inside the tabs it
stays at their top.  And a ramp at a zero plunge feed has no feed, so there is no program.
-/

namespace WireErosion

open scoped Exact

namespace ToolpathParams

variable {c : ToolpathParams ℝ} {r : ℝ → ℝ} {path : CamPath ℝ} {p : Point ℝ} {ps : List (Point ℝ)}

/-- The vertices that a pass over a path goes through, before they are converted. -/
noncomputable def passVertices (c : ToolpathParams ℝ) (path : CamPath ℝ) (pass : Pass ℝ) :
    List (Point ℝ) :=
  match c.activeTabs with
  | some t => if t.top ≤ pass.next then path.points else refined t.region path.points
  | none => path.points

/-- The runs of a pass start where the one before ended, so they go through its vertices without
their first ones. -/
theorem tails_cutRuns (hpoints : path.points = p :: ps) (pass : Pass ℝ) :
    c.convert p :: (c.cutRuns path pass).flatMap List.tail
      = (c.passVertices path pass).map c.convert := by
  have hwhole : c.convert p :: [path.points.map c.convert].flatMap List.tail
      = path.points.map c.convert := by
    rw [hpoints]
    simp
  rw [cutRuns, passVertices]
  cases hactive : c.activeTabs with
  | none =>
      rw [runsOf, ite_self]
      exact hwhole
  | some t =>
      rw [wholeZ]
      dsimp only
      split
      next => exact hwhole
      next =>
        have htails := congrArg (List.map c.convert) (tails_splitRuns t.region p ps)
        rw [← hpoints, List.map_cons, List.map_flatMap] at htails
        rw [← htails, runsOf, List.flatMap_map]
        simp only [List.map_tail]

theorem visits_travel {q : Point ℝ} {travel drop : Move ℝ} (hx : drop.x = none) (hy : drop.y = none)
    (htravel : (travel.x, travel.y) = q.rounded r) :
    (MoveGroup.travel travel drop).visits = [q.rounded r] := by
  have hlevel : drop.hasXY = false := by
    rw [Move.hasXY, hx, hy]
    rfl
  have hnamed : travel.hasXY = true := by
    rw [Move.hasXY, (Prod.mk.inj htravel).1]
    rfl
  rw [MoveGroup.visits, MoveGroup.moves, List.filter_cons_of_pos hnamed,
    List.filter_cons_of_neg (by simp [hlevel]), List.filter_nil, List.map_singleton, htravel]
  intro _ _ h
  cases h

/-- The groups of a pass over a path.  From its travel on they visit the vertices of the pass once
and in order.  Each run is cut from its first vertex on, outside the tabs at the depth of the pass
and inside at their top. -/
inductive CoversPass (c : ToolpathParams ℝ) (r : ℝ → ℝ) (path : CamPath ℝ) (pass : Pass ℝ) :
    List (MoveGroup ℝ) → Prop
  | intro {lead : List (MoveGroup ℝ)} {travel drop : Move ℝ} {legs : List (List (MoveGroup ℝ))} :
      (lead = [] ∨ ∃ m, lead = [.retract m]) →
      visits (.travel travel drop :: legs.flatten)
        = (c.passVertices path pass).map (fun q => (c.convert q).rounded r) →
      legs.length = (c.cutRuns path pass).length →
      (∀ k : Nat, (c.cutRuns path pass)[k]? = some [] → legs[k]? = some []) →
      (∀ (k : Nat) (a : Point ℝ) (rest : List (Point ℝ)),
        (c.cutRuns path pass)[k]? = some (a :: rest) →
        ∃ entry moves, legs[k]? = some (entry ++ [.cut moves]) ∧
          CutsRun r (lead ++ .travel travel drop :: (legs.take k).flatten)
            (r (if k % 2 = 1 then c.wholeZ c.activeTabs else pass.next)) a rest entry moves) →
      CoversPass c r path pass (lead ++ .travel travel drop :: legs.flatten)

theorem EmitsPass.coversPass (hround : IsRounding c.round r) (hflat : c.usePathZ = false)
    (hpoints : path.points = p :: ps) {z last : ℝ} {pass : Pass ℝ}
    (hnext : pass.next ≤ pass.finished) {gs : List (MoveGroup ℝ)}
    (h : c.EmitsPass c.activeTabs (c.ready c.activeTabs p path) z pass gs last) :
    c.CoversPass r path pass gs := by
  obtain ⟨lead, travel, drop, legs, rfl, hcuts⟩ := h.exists_legs hround hflat hpoints hnext
  refine .intro ?_ ?_ hcuts.cuts.length ?_ ?_
  · cases hcuts.leads with
    | stay => exact .inl rfl
    | rise => exact .inr ⟨_, rfl⟩
  · have htravel := visits_travel hcuts.drops.1 hcuts.drops.2.1 hcuts.travels.1
    calc visits (.travel travel drop :: legs.flatten)
        = (c.convert p).rounded r :: visits legs.flatten := by
          rw [visits, List.flatMap_cons, htravel]
          rfl
      _ = (c.convert p :: (c.cutRuns path pass).flatMap List.tail).map (Point.rounded r) := by
          rw [hcuts.cuts.visits, List.map_cons]
      _ = (c.passVertices path pass).map (fun q => (c.convert q).rounded r) := by
          rw [tails_cutRuns hpoints, List.map_map]
          rfl
  · intro k hk
    obtain ⟨leg, hleg, hcut⟩ := hcuts.cuts.leg k [] hk
    rw [hleg, hcut.empty rfl]
  · intro k a rest hk
    obtain ⟨leg, hleg, hcut⟩ := hcuts.cuts.leg k _ hk
    obtain ⟨entry, moves, rfl, hrun⟩ := hcut.cut _ _ rfl
    rw [runZ, sideOf_false] at hrun
    refine ⟨entry, moves, hleg, ?_⟩
    simpa using hrun

theorem EmitsPasses.coversPasses (hround : IsRounding c.round r) (hflat : c.usePathZ = false)
    (hpoints : path.points = p :: ps) {z : ℝ} {passes : List (Pass ℝ)}
    {parts : List (List (MoveGroup ℝ))}
    (h : c.EmitsPasses c.activeTabs (c.ready c.activeTabs p path) z passes parts) :
    (∀ pass ∈ passes, pass.next ≤ pass.finished) →
      List.Forall₂ (c.CoversPass r path) passes parts := by
  induction h with
  | done => exact fun _ => .nil
  | pass hpass _ ih =>
      intro hdown
      obtain ⟨hdown, hrest⟩ := List.forall_mem_cons.mp hdown
      exact .cons (hpass.coversPass hround hflat hpoints hdown) (ih hrest)

/-- Every path compiles to a header and as many passes as it takes to get to the final depth, each
of which covers the path. -/
theorem compile_covers (hround : IsRounding c.round r) (hflat : c.usePathZ = false)
    (hpass : 0 < c.passDepth) (hdeep : c.bottomZ < c.topZ)
    (hfeed : c.descents.ramp = true → c.descents.plungeFeed ≠ 0) (paths : List (CamPath ℝ)) :
    passZ c.passDepth c.bottomZ c.topZ (passCount c.passDepth c.bottomZ c.topZ) = c.bottomZ ∧
    ∃ rise parts, c.compile paths = .ok (groupLines (.retract rise :: parts.flatten)) ∧
      List.Forall₂
        (PathGroups fun path passes => List.Forall₂ (c.CoversPass r path)
          ((List.range (passCount c.passDepth c.bottomZ c.topZ)).map
            (passAt c.passDepth c.bottomZ c.topZ)) passes)
        paths.zipIdx parts := by
  obtain ⟨p, hp⟩ := exists_compile_of_feed hfeed hround paths
  obtain ⟨rise, parts, rfl, -, hparts⟩ := exists_groups hp
  refine ⟨passZ_passCount hpass, rise, parts, hp, hparts.pathGroups ?_⟩
  intro path p ps passes hpoints hpasses
  rw [← schedule_eq hpass hdeep.le, ← passes_of_flat hflat]
  exact hpasses.coversPasses hround hflat hpoints fun pass hmem =>
    (passes_down hflat hpass hdeep.le pass hmem).2

end ToolpathParams

/-! ## Two toolpaths -/

/-- A strip across the plane, as a segment along the first axis from one side of it to the other
meets it. -/
noncomputable def strip : TabRegion ℝ :=
  planeRegion (fun x _ => decide (3 ≤ x ∧ x ≤ 6)) fun a _ => [(3, a.y), (6, a.y)]

/-- The ramped toolpath with a tab across the way. -/
noncomputable def bridgedToolpath : ToolpathParams ℝ := { tabbedToolpath with tabs := some strip }

/-- Ramped passes over a path with a tab across it, next to an empty path. -/
theorem bridgedToolpath_compile_covers :
    bridgedToolpath.bottomZ < bridgedToolpath.topZ ∧ bridgedToolpath.descents.plungeFeed ≠ 0 ∧
    ∃ r : ℝ → ℝ, IsRounding bridgedToolpath.round r ∧
    passZ 2 (-5) 0 (passCount 2 (-5) 0) = -5 ∧
    ∃ rise parts,
      bridgedToolpath.compile [⟨[⟨0, 0, 0⟩, ⟨9, 0, 0⟩], true⟩, ⟨[], true⟩]
        = .ok (groupLines (.retract rise :: parts.flatten)) ∧
      List.Forall₂
        (ToolpathParams.PathGroups fun path passes =>
          List.Forall₂ (bridgedToolpath.CoversPass r path)
            ((List.range (passCount 2 (-5) 0)).map (passAt 2 (-5) 0)) passes)
        (List.zipIdx [⟨[⟨0, 0, 0⟩, ⟨9, 0, 0⟩], true⟩, ⟨[], true⟩]) parts := by
  have hdeep : bridgedToolpath.bottomZ < bridgedToolpath.topZ := by
    norm_num [bridgedToolpath, tabbedToolpath]
  have hfeed : bridgedToolpath.descents.plungeFeed ≠ 0 := by
    norm_num [bridgedToolpath, tabbedToolpath]
  exact ⟨hdeep, hfeed, _, isRounding_roundTo 3,
    ToolpathParams.compile_covers (isRounding_roundTo 3) rfl
      (by norm_num [bridgedToolpath, tabbedToolpath]) hdeep (fun _ => hfeed) _⟩

/-- A toolpath in one pass. -/
noncomputable def slabToolpath (descents : DescentParams ℝ) (tabs : Option (TabRegion ℝ)) :
    ToolpathParams ℝ where
  topZ := 0
  bottomZ := -5
  safeZ := 5
  passDepth := 10
  descents := descents
  lengthScale := 1
  usePathZ := false
  offsetX := 0
  offsetY := 0
  tabs := tabs
  tabZ := some (-3)
  round := Scalar.roundTo 3

/-- The lines for a path that is inside the tabs, before they are rounded. -/
noncomputable def slabLines : Program ℝ :=
  [.retract, .move (.rapid none none (some 5)), .blank, .pathStart 0, .rapidToStart,
    .move (.rapid (some 0) (some 0) none), .move (.rapid none none (some 0)), .plunge,
    .move (.linear none none (some (-3)) (some 60) none), .cut,
    .move (.linear (some 9) (some 0) none (some 200) none), .retract,
    .move (.rapid none none (some 5))]

theorem slab_passCount : passCount 10 (-5) 0 = 1 := by
  rw [passCount, Nat.ceil_eq_iff (by norm_num)]
  norm_num

theorem slab_passes (d : DescentParams ℝ) (tabs : Option (TabRegion ℝ)) :
    (slabToolpath d tabs).passes = [⟨0, -5⟩] := by
  have hschedule := schedule_eq (show (0 : ℝ) < 10 by norm_num) (show (-5 : ℝ) ≤ 0 by norm_num)
  rw [slab_passCount] at hschedule
  rw [ToolpathParams.passes_of_flat rfl]
  simp only [slabToolpath, hschedule]
  norm_num [passAt, passZ]

theorem slab_plan :
    (slabToolpath ⟨false, 60, 200, none⟩ (some everywhere)).plan [⟨[⟨0, 0, 0⟩, ⟨9, 0, 0⟩], true⟩]
      = slabLines.map .ok := by
  have hruns : splitRuns everywhere [⟨0, 0, 0⟩, ⟨9, 0, 0⟩] = [[], [⟨0, 0, 0⟩, ⟨9, 0, 0⟩]] := by
    simp [everywhere, planeRegion, splitRuns, pathPieces, segmentPieces, breakWays, piecesThrough,
      splitFrom, isInside]
  have hactive : (slabToolpath ⟨false, 60, 200, none⟩ (some everywhere)).activeTabs
      = some ⟨everywhere, -3⟩ := by
    norm_num [ToolpathParams.activeTabs, slabToolpath]
  have hdeep : ¬ (-3 : ℝ) ≤ -5 := by norm_num
  rw [ToolpathParams.plan, hactive]
  simp only [ToolpathParams.pathsLines, ToolpathParams.pathLines, slab_passes,
    ToolpathParams.passesLines, ToolpathParams.passLines, ToolpathParams.wholeZ,
    ToolpathParams.runsOf, hruns, slabLines]
  norm_num [ToolpathParams.runLines, ToolpathParams.cutMoves, ToolpathParams.entryLines,
    ToolpathParams.convert, ToolpathParams.vertexZ, slabToolpath, descent, straightDown,
    retractLines, travelLines, rapidToZ, planMove]

theorem slab_depths {r : ℝ → ℝ} (hround : IsRounding (Scalar.roundTo 3) r) {m : Move ℝ} {z : ℝ}
    (hm : .move m ∈ slabLines.map (Line.mapNumbers r)) (hz : m.z = some z) : -3 ≤ z := by
  have hlow : ∀ n, .move n ∈ slabLines → ∀ z, n.z = some z → -3 ≤ z := by
    intro n hn z hz
    simp only [slabLines, List.mem_cons, Line.move.injEq, List.not_mem_nil, or_false, Line.retract,
      Line.blank, Line.pathStart, Line.rapidToStart, Line.plunge, Line.cut, reduceCtorEq,
      false_or] at hn
    rcases hn with rfl | rfl | rfl | rfl | rfl | rfl <;> cases hz <;> norm_num
  have htop : r (-3) = -3 := by
    have hwhole := roundTo_intCast 3 (by norm_num) (-3)
    rw [hround.eq_ok] at hwhole
    simpa using hwhole
  obtain ⟨l, hl, hlm⟩ := List.mem_map.mp hm
  cases l with
  | comment t => cases hlm
  | move n =>
      cases hlm
      obtain ⟨z', hz', rfl⟩ := Option.map_eq_some_iff.mp hz
      rw [← htop]
      exact hround.mono (hlow n hl z' hz')

/-- A path inside the tabs is not cut down to the depth of its only pass, and a ramp at a zero
plunge feed does not compile. -/
theorem slab_not_covered :
    passCount 10 (-5) 0 = 1 ∧ passZ 10 (-5) 0 1 = -5 ∧
    (∃ p, (slabToolpath ⟨false, 60, 200, none⟩ (some everywhere)).compile
        [⟨[⟨0, 0, 0⟩, ⟨9, 0, 0⟩], true⟩] = .ok p ∧
      ∀ m z, .move m ∈ p → m.z = some z → -3 ≤ z) ∧
    (slabToolpath ⟨true, 0, 200, none⟩ none).compile [⟨[⟨0, 0, 0⟩, ⟨9, 0, 0⟩], true⟩]
      = .error .divisionByZero := by
  refine ⟨slab_passCount, by norm_num [passZ], ⟨_, ToolpathParams.compile_eq
    (isRounding_roundTo 3) slab_plan, fun m z => slab_depths (isRounding_roundTo 3)⟩, ?_⟩
  have hactive : (slabToolpath ⟨true, 0, 200, none⟩ none).activeTabs = none := rfl
  rw [ToolpathParams.compile, ToolpathParams.plan, hactive]
  simp only [ToolpathParams.pathsLines, ToolpathParams.pathLines, slab_passes,
    ToolpathParams.passesLines, ToolpathParams.passLines, ToolpathParams.runsOf]
  norm_num [ToolpathParams.runLines, ToolpathParams.entryLines, slabToolpath, descent,
    ramp?_of_feed_zero]
  rfl

end WireErosion
