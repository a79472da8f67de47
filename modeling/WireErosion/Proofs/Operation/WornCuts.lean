import WireErosion.Proofs.Operation.Rises
import WireErosion.Proofs.Toolpath.Faultless
import WireErosion.Proofs.Toolpath.Landmark
import WireErosion.Proofs.Wear.Depths

/-!
# How deep a compensated operation cuts

An operation that breaks no constraint runs, with tabs or without, and each of its cuts is worn from
the depth of one pass on, whatever the depth is that its toolpath asks for
(`Operation.exists_wornCuts`).

Without tabs the cuts of a path are asked for pass by pass, down to the final depth.  So the first
passes, as far down as one pass depth below zero, are made no shallower, and all deeper ones are
(`Operation.wornCuts_le_iff`, `twoPasses_shallower`).
-/

namespace WireErosion

open scoped Exact

variable {α : Type}

/-! ## Cuts through vertices -/

/-- The cut blocks of some groups are the cuts of their program. -/
theorem cutBlocks_eq : ∀ (gs : List (MoveGroup α)) (a : Modal α) (z : Option α), cutBlocks gs
    = (cuttingsFrom a z (groupLines gs)).map fun c => ⟨.cut :: c.moves.map .move, none⟩
  | [], _, _ => rfl
  | g :: gs, a, z => by
      by_cases h : ∀ ms, g ≠ .cut ms
      · rw [cutBlocks_cons h, cuttingsFrom_cons_other h, cutBlocks_eq gs]
      · push Not at h
        obtain ⟨ms, rfl⟩ := h
        rw [cuttingsFrom_cons_cut, List.map_cons, ← cutBlocks_eq gs]
        rfl

/-- The cut of a run can be compensated. -/
theorem RunCut.Compiles.exists_compensate {r : ℝ → ℝ} {t : RunCut} {c : Cutting ℝ}
    (h : t.Compiles r c) {w : WearParams ℝ} (hratio : 0 ≤ w.ratio)
    (hspacing : 0 < w.segmentLength) :
    ∃ b, CutBlock.compensate w ⟨.cut :: c.moves.map .move, none⟩ = .ok b := by
  have hvertices : List.Forall₂ AtVertex c.moves (t.rest.map fun q => ⟨r q.x, r q.y, q.z⟩) := by
    rw [List.forall₂_map_right_iff]
    refine h.moves.flip.imp fun m q hm => ?_
    obtain ⟨hx, hy⟩ := Prod.mk.inj hm.1
    exact ⟨hx, hy, hm.2⟩
  obtain ⟨worn, hworn, -⟩ := WireErosion.exists_compensate hratio hspacing hvertices
  exact ⟨_, hworn⟩

/-- A compiled program is made of groups that compensation recognizes. -/
theorem ToolpathParams.exists_regular_groups [Scalar α] {c : ToolpathParams α}
    {paths : List (CamPath α)} {p : Program α} (h : c.compile paths = .ok p) :
    ∃ gs, p = groupLines gs ∧ ∀ g ∈ gs, g.Regular := by
  obtain ⟨rise, parts, rfl, hrise, hparts⟩ := exists_groups h
  obtain ⟨s, hs, -⟩ := roundField_eq_some hrise.z
  refine ⟨_, rfl, fun g hg => ?_⟩
  rcases List.mem_cons.mp hg with rfl | hg
  · exact (hrise.sound hs).2.1
  · exact (hparts.sound hs g hg).2.1

namespace Operation

variable {op : Operation ℝ} {w : Workshop ℝ} {r : ℝ → ℝ} {summary : Program ℝ}

/-- An operation that breaks no constraint runs.  Its toolpath has a cut for each run that it asks
for, and each of them is worn from the depth of one pass on. -/
theorem exists_wornCuts (hbroken : op.broken = []) (hflat : op.usesPathZ = false)
    (hcompensates : w.compensates = true) (hround : IsRounding w.round r)
    (hsummary : IsSummary summary) (paths : List (CamPath ℝ)) :
    ∃ compiled result, (op.assemble w summary (.of []) (.of []) paths).outcome = .ok compiled ∧
      (op.build w summary (.of []) (.of []) paths).outcome = .ok result ∧
      List.Forall₂ (RunCut.Compiles r) ((op.toolpath w).runCuts (op.prepare paths))
        compiled.cuttings ∧
      List.Forall₂ (fun c c' => Worn op.wearRatio op.passDepth c.moves c'.moves)
        compiled.cuttings result.program.cuttings := by
  obtain ⟨hpass, hfeed, hdeep, -⟩ := toolpath_of_accepted hbroken hflat (w := w)
  have hround' : IsRounding (op.toolpath w).round r := hround
  obtain ⟨p, hp⟩ := ToolpathParams.exists_compile_of_feed (fun _ => hfeed.ne') hround'
    (op.prepare paths)
  obtain ⟨gs, rfl, hgs⟩ := ToolpathParams.exists_regular_groups hp
  have hruns : List.Forall₂ (RunCut.Compiles r) ((op.toolpath w).runCuts (op.prepare paths))
      (Program.cuttings (summary ++ groupLines gs)) := by
    rw [cuttings_append_groupLines hsummary.kind_ne_cut]
    exact ToolpathParams.cuttings_of_compile hround' hflat hpass hdeep.le hp _ _
  have hspacing : 0 < (op.wear w).segmentLength := by
    change (0 : ℝ) < defaultSegmentLength
    norm_num [defaultSegmentLength]
  obtain ⟨q, hq⟩ := Program.exists_compensate_groups (w := op.wear w) hsummary fun b hb => by
    rw [cutBlocks_eq gs (positionAfter (none, none) summary) (depthAfter none summary),
      ← cuttings_append_groupLines hsummary.kind_ne_cut] at hb
    obtain ⟨c, hc, rfl⟩ := List.mem_map.mp hb
    obtain ⟨t, -, ht⟩ := exists_of_mem_right hruns hc
    exact ht.exists_compensate (wearRatio_pos hbroken).le hspacing
  have hassemble : (op.assemble w summary (.of []) (.of []) paths).outcome
      = .ok (summary ++ groupLines gs) := by
    rw [outcome_assemble rfl rfl, hp]
    simp [Except.map]
  obtain ⟨check, hcheck⟩ := exists_checkDepth_outcome defaultReported q
  refine ⟨_, ⟨q, check⟩, hassemble, build_eq_ok hcompensates hassemble hq hcheck, hruns, ?_⟩
  · have hlevel : ∀ c ∈ Program.cuttings (summary ++ groupLines gs), ∀ m ∈ c.moves, m.z = none := by
      intro c hc
      obtain ⟨t, -, ht⟩ := exists_of_mem_right hruns hc
      exact ht.level
    have hworn := Program.cuttings_of_compensate hsummary hgs hq
    exact ((List.forall₂_and_left _ _).mpr ⟨hlevel, hworn⟩).imp fun c c' h => h.2.worn h.1

end Operation

/-! ## Without tabs -/

/-- Without tabs a path is cut whole in each pass. -/
theorem ToolpathParams.runCuts_noTabs {c : ToolpathParams ℝ} (hflat : c.usePathZ = false)
    (hpass : 0 < c.passDepth) (hdeep : c.bottomZ ≤ c.topZ) (htabs : c.activeTabs = none)
    (paths : List (CamPath ℝ)) :
    c.runCuts paths = paths.flatMap fun path =>
      match path.points with
      | [] => []
      | p :: ps => (List.range (passCount c.passDepth c.bottomZ c.topZ)).map fun k =>
          ⟨false, passZ c.passDepth c.bottomZ c.topZ (k + 1), c.convert p, ps.map c.convert⟩ := by
  refine List.flatMap_congr fun path _ => ?_
  have hruns : ∀ pass, c.cutRuns path pass = [path.points.map c.convert] := by
    intro pass
    rw [cutRuns, htabs, runsOf, ite_self]
  cases hpoints : path.points with
  | nil => exact List.flatMap_eq_nil_iff.mpr fun pass _ => passRunCuts_nil hpoints pass
  | cons p ps =>
      have hcuts : ∀ pass, c.passRunCuts path pass
          = [⟨false, pass.next, c.convert p, ps.map c.convert⟩] := by
        intro pass
        rw [passRunCuts, hruns, hpoints]
        rfl
      dsimp only
      rw [passes_of_flat hflat, schedule_eq hpass hdeep, List.flatMap_map]
      simp only [hcuts, passAt]
      rw [← List.map_eq_flatMap]

namespace Operation

variable {op : Operation ℝ} {w : Workshop ℝ} {r : ℝ → ℝ} {summary : Program ℝ}

/-- An operation without tabs that breaks no constraint runs.  In each pass over each path it cuts
at the depth of the pass, and compensation makes exactly those cuts no shallower that have no
moves or are no deeper than one pass depth below zero. -/
theorem wornCuts_le_iff (hbroken : op.broken = []) (hflat : op.usesPathZ = false)
    (htabs : (op.toolpath w).activeTabs = none) (hcompensates : w.compensates = true)
    (hround : IsRounding w.round r) (hsummary : IsSummary summary) (paths : List (CamPath ℝ)) :
    ∃ compiled result, (op.assemble w summary (.of []) (.of []) paths).outcome = .ok compiled ∧
      (op.build w summary (.of []) (.of []) paths).outcome = .ok result ∧
      compiled.cuttings.map Cutting.depth = ((op.prepare paths).flatMap fun path =>
        if path.points = [] then []
        else (List.range (passCount op.passDepth op.endZ op.startZ)).map fun k =>
          some (r (passZ op.passDepth op.endZ op.startZ (k + 1)))) ∧
      passZ op.passDepth op.endZ op.startZ (passCount op.passDepth op.endZ op.startZ) = op.endZ ∧
      List.Forall₂ (fun c c' => Worn op.wearRatio op.passDepth c.moves c'.moves ∧
          ∀ z, c.depth = some z →
            ((∀ m ∈ c'.moves, ∃ d, m.z = some d ∧ d ≤ z) ↔ c.moves = [] ∨ -op.passDepth ≤ z))
        compiled.cuttings result.program.cuttings := by
  obtain ⟨hpass, -, hdeep, -⟩ := toolpath_of_accepted hbroken hflat (w := w)
  obtain ⟨compiled, result, hassemble, hbuild, hruns, hworn⟩ :=
    exists_wornCuts hbroken hflat hcompensates hround hsummary paths
  refine ⟨compiled, result, hassemble, hbuild, ?_, passZ_passCount hpass, hworn.imp fun c c' h =>
    ⟨h, fun z _ => h.le_iff (wearRatio_pos hbroken).le z⟩⟩
  have hdepths : compiled.cuttings.map Cutting.depth
      = ((op.toolpath w).runCuts (op.prepare paths)).map fun t => some (r t.depth) := by
    rw [← List.forall₂_eq_eq_eq, List.forall₂_map_left_iff, List.forall₂_map_right_iff]
    exact hruns.flip.imp fun c t ht => ht.depth
  rw [hdepths, ToolpathParams.runCuts_noTabs hflat hpass hdeep.le htabs, List.map_flatMap]
  refine List.flatMap_congr fun path _ => ?_
  cases path.points with
  | nil => rfl
  | cons p ps =>
      rw [if_neg (List.cons_ne_nil p ps), List.map_map]
      rfl

end Operation

theorem plain_passCount : passCount 1 (-1) 0 = 1 := by
  rw [passCount, Nat.ceil_eq_iff (by norm_num)]
  norm_num

/-- One pass along a groove stays below its commanded depth after compensation. -/
theorem plain_wornCuts_le_iff :
    ∃ compiled result, ((Operation.plain : Operation ℝ).assemble exactWorkshop ratioSummary
        (.of []) (.of []) [groove]).outcome = .ok compiled ∧
      ((Operation.plain : Operation ℝ).build exactWorkshop ratioSummary (.of []) (.of [])
        [groove]).outcome = .ok result ∧
      List.Forall₂ (fun c c' => c.depth = some (-1) ∧
          ∀ m ∈ c'.moves, ∃ d, m.z = some d ∧ d ≤ -1)
        compiled.cuttings result.program.cuttings := by
  obtain ⟨compiled, result, hassemble, hbuild, hdepths, -, hworn⟩ :=
    Operation.wornCuts_le_iff plain_broken rfl (w := exactWorkshop) (r := id) rfl rfl
      ⟨fun _ => rfl, monotone_id⟩ isSummary_ratioSummary [groove]
  have hprepare := plain_prepare 1
  rw [List.replicate_one] at hprepare
  rw [hprepare] at hdepths
  have hdepth : ∀ c ∈ compiled.cuttings, c.depth = some (-1) := by
    intro c hc
    have hc := List.mem_map_of_mem (f := Cutting.depth) hc
    rw [hdepths] at hc
    norm_num [groove, Operation.plain, plain_passCount, passZ] at hc
    exact hc.2
  refine ⟨compiled, result, hassemble, hbuild,
    ((List.forall₂_and_left _ _).mpr ⟨hdepth, hworn⟩).imp fun c c' h => ⟨h.1, ?_⟩⟩
  refine (h.2.2 (-1) h.1).mpr (.inr ?_)
  norm_num [Operation.plain]

/-- The operation of which nothing was said, but twice as deep. -/
noncomputable def twoPasses : Operation ℝ := { Operation.plain with endZ := -2 }

theorem twoPasses_broken : twoPasses.broken = [] := by
  rw [Operation.broken, List.filter_eq_nil_iff]
  intro c hc
  have hconstraints : c ∈ [Constraint.startBelowRapid, .passDepthPositive, .endBelowStart,
      .stepOverInRange, .plungeRatePositive, .cutRatePositive, .wearRatioPositive] := hc
  simp only [List.mem_cons, List.not_mem_nil, or_false] at hconstraints
  rcases hconstraints with rfl | rfl | rfl | rfl | rfl | rfl | rfl <;>
    norm_num [Operation.breaks, Operation.plain, twoPasses]

/-- The second pass over the groove is to be cut two millimetres deep, and is cut from one on. -/
theorem twoPasses_shallower :
    twoPasses.broken = [] ∧ twoPasses.usesPathZ = false ∧
      (twoPasses.toolpath exactWorkshop).activeTabs = none ∧
      ∃ compiled result, (twoPasses.assemble exactWorkshop ratioSummary (.of []) (.of [])
          [groove]).outcome = .ok compiled ∧
        (twoPasses.build exactWorkshop ratioSummary (.of []) (.of []) [groove]).outcome
          = .ok result ∧
        ∃ c c', compiled.cuttings[1]? = some c ∧ result.program.cuttings[1]? = some c' ∧
          c.depth = some twoPasses.endZ ∧ twoPasses.endZ = -2 ∧
          ∃ m ∈ c'.moves, m.z = some (-1 : ℝ) := by
  refine ⟨twoPasses_broken, rfl, rfl, ?_⟩
  obtain ⟨compiled, result, hassemble, hbuild, hruns, hworn⟩ :=
    Operation.exists_wornCuts twoPasses_broken rfl (w := exactWorkshop) (r := id) rfl
      ⟨fun _ => rfl, monotone_id⟩ isSummary_ratioSummary [groove]
  refine ⟨compiled, result, hassemble, hbuild, ?_⟩
  have hcount : passCount (1 : ℝ) (-2) 0 = 2 := by
    rw [passCount, Nat.ceil_eq_iff (by norm_num)]
    norm_num
  obtain ⟨hpass, -, hdeep, -⟩ :=
    Operation.toolpath_of_accepted twoPasses_broken rfl (w := exactWorkshop)
  have hprepare : twoPasses.prepare [groove] = [groove] := plain_prepare 1
  rw [hprepare, ToolpathParams.runCuts_noTabs rfl hpass hdeep.le rfl, List.flatMap_singleton]
    at hruns
  have hpasses : (twoPasses.toolpath exactWorkshop).passDepth = 1 ∧
      (twoPasses.toolpath exactWorkshop).bottomZ = -2 ∧
      (twoPasses.toolpath exactWorkshop).topZ = 0 := by
    norm_num [Operation.toolpath, twoPasses, Operation.plain]
  obtain ⟨hpassDepth, hbottom, htop⟩ := hpasses
  simp only [groove, hpassDepth, hbottom, htop, hcount, List.range_succ, List.range_zero,
    List.nil_append, List.map_cons, List.map_nil, List.cons_append] at hruns
  obtain ⟨c₀, _, -, hruns, hcuttings⟩ := List.forall₂_cons_left_iff.mp hruns
  obtain ⟨c, _, hc, -, rfl⟩ := List.forall₂_cons_left_iff.mp hruns
  obtain ⟨m, ms, -, -, hmoves⟩ := List.forall₂_cons_left_iff.mp hc.moves
  rw [hcuttings] at hworn
  obtain ⟨c₀', _, -, hworn, hcuttings'⟩ := List.forall₂_cons_left_iff.mp hworn
  obtain ⟨c', _, hc', -, rfl⟩ := List.forall₂_cons_left_iff.mp hworn
  rw [hmoves] at hc'
  obtain ⟨m', worn, hworn', -, hz⟩ := hc'.exists_cons
  refine ⟨c, c', by rw [hcuttings]; rfl, by rw [hcuttings']; rfl, ?_, rfl, m', ?_, ?_⟩
  · rw [hc.depth]
    norm_num [passZ, twoPasses]
  · rw [hworn']
    exact List.mem_cons_self ..
  · rw [hz]
    norm_num [twoPasses, Operation.plain]

end WireErosion
