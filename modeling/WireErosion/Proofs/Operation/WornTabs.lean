import WireErosion.Proofs.Operation.WornCuts
import WireErosion.Proofs.Toolpath.Coverage

/-!
# Tabs in a compensated operation

Inside the tabs the compiler cuts at their top.  Compensation does not know of tabs: the wear of
such a cut is counted from the depth of one pass below zero, like that of any other.  So a tab is
left standing, but for the wear on the way over it, exactly if one pass does not go deeper than
its top and the wear on the way to the second vertex of the run
(`Operation.wornTabs_staysOver_iff`).  Tabs that are to end half a pass below zero do not stay
(`thinTabs_cut`).
-/

namespace WireErosion

open scoped Exact

/-- Two lists that go with the same list go with each other. -/
theorem forall₂_comp {β γ δ : Type} {R : β → γ → Prop} {S : γ → δ → Prop} :
    ∀ {xs : List β} {ys : List γ} {zs : List δ}, List.Forall₂ R xs ys → List.Forall₂ S ys zs →
      List.Forall₂ (fun x z => ∃ y, R x y ∧ S y z) xs zs
  | _, _, _, .nil, .nil => .nil
  | _, _, _, .cons hxy hxs, .cons hyz hys => .cons ⟨_, hxy, hyz⟩ (forall₂_comp hxs hys)

theorem travelled_known {m : Move ℝ} {x y : ℝ} (hx : m.x = some x) (a b : ℝ) :
    travelled m (some a, some b) (some x, some y) = Scalar.distance a b x y := by
  have hxy : m.hasXY = true := by
    rw [Move.hasXY, hx]
    rfl
  simp only [travelled, hxy]

/-- The cut of a run stays over a depth that sinks with the wear from the start of the run on
exactly if that is not above the depth of one pass at the second vertex. -/
theorem RunCut.Compiles.staysOver_iff {r : ℝ → ℝ} {t : RunCut} {c : Cutting ℝ}
    (h : t.Compiles r c) {ratio passDepth : ℝ} {worn : List (Move ℝ)}
    (hworn : Worn ratio passDepth c.moves worn) (b : ℝ) :
    StaysOver ratio b (t.start.rounded r) worn ↔ ∀ q ∈ t.rest.head?,
      b - ratio * Scalar.distance (r t.start.x) (r t.start.y) (r q.x) (r q.y) ≤ -passDepth := by
  have hmoves := h.moves
  cases hrest : t.rest with
  | nil =>
      rw [hrest, List.forall₂_nil_left_iff] at hmoves
      rw [hmoves] at hworn
      cases hworn.refines
      refine iff_of_true (fun pre m post heq => ?_) (by simp)
      cases pre <;> cases heq
  | cons q rest =>
      rw [hrest] at hmoves
      obtain ⟨m, ms, ⟨hm, -⟩, -, hcut⟩ := List.forall₂_cons_left_iff.mp hmoves
      obtain ⟨hx, hy⟩ := Prod.mk.inj hm
      rw [hcut] at hworn
      rw [hworn.staysOver_iff hx hy, Point.rounded, travelled_known hx]
      simp

/-- Runs inside the tabs are cut at their top. -/
theorem depth_of_mem_runCutsFrom {tabTop next : ℝ} : ∀ {runs : List (List (Point ℝ))}
    {inside : Bool} {t : RunCut}, t ∈ runCutsFrom tabTop next inside runs → t.inside = true →
      t.depth = tabTop
  | [], _, _, h, _ => nomatch h
  | [] :: runs, _, _, h, hinside => by
      rw [runCutsFrom] at h
      exact depth_of_mem_runCutsFrom h hinside
  | (a :: rest) :: runs, inside, t, h, hinside => by
      rcases List.mem_cons.mp h with rfl | h
      · rw [show inside = true from hinside]
        rfl
      · exact depth_of_mem_runCutsFrom h hinside

namespace Operation

variable {op : Operation ℝ} {w : Workshop ℝ} {r : ℝ → ℝ} {summary : Program ℝ} {tabs : Tabs ℝ}

/-- The tabs in effect end above the final depth. -/
theorem tabZ_of_activeTabs (htabs : (op.toolpath w).activeTabs = some tabs) :
    tabs.top = op.tabZ ∧ op.endZ < op.tabZ := by
  rw [ToolpathParams.activeTabs] at htabs
  split at htabs
  next z region hz _ =>
    obtain rfl : op.tabZ = z := Option.some.inj hz
    split at htabs
    next => cases htabs
    next hlow =>
      obtain rfl := Option.some.inj htabs
      exact ⟨rfl, not_le.mp hlow⟩
  next => cases htabs

/-- An operation with tabs that breaks no constraint runs.  It cuts the runs inside the tabs at
their top, and compensation leaves a tab standing, but for the wear on the way from the start of
its run on, exactly if the run ends where it starts or the tab is worn down to the depth of one
pass on the way to its second vertex. -/
theorem wornTabs_staysOver_iff (hbroken : op.broken = []) (hflat : op.usesPathZ = false)
    (htabs : (op.toolpath w).activeTabs = some tabs) (hcompensates : w.compensates = true)
    (hround : IsRounding w.round r) (hsummary : IsSummary summary) (paths : List (CamPath ℝ)) :
    ∃ compiled result, (op.assemble w summary (.of []) (.of []) paths).outcome = .ok compiled ∧
      (op.build w summary (.of []) (.of []) paths).outcome = .ok result ∧
      List.Forall₂ (RunCut.Compiles r) ((op.toolpath w).runCuts (op.prepare paths))
        compiled.cuttings ∧
      List.Forall₂ (fun t c' => t.inside = true → t.depth = op.tabZ ∧
          (StaysOver op.wearRatio op.tabZ (t.start.rounded r) c'.moves ↔ ∀ q ∈ t.rest.head?,
            op.tabZ - op.wearRatio
              * Scalar.distance (r t.start.x) (r t.start.y) (r q.x) (r q.y) ≤ -op.passDepth))
        ((op.toolpath w).runCuts (op.prepare paths)) result.program.cuttings := by
  obtain ⟨compiled, result, hassemble, hbuild, hruns, hworn⟩ :=
    exists_wornCuts hbroken hflat hcompensates hround hsummary paths
  refine ⟨compiled, result, hassemble, hbuild, hruns, ?_⟩
  have hinside : ∀ t ∈ (op.toolpath w).runCuts (op.prepare paths), t.inside = true →
      t.depth = op.tabZ := by
    intro t ht hinside
    simp only [ToolpathParams.runCuts, List.mem_flatMap, ToolpathParams.passRunCuts, htabs] at ht
    obtain ⟨path, -, pass, -, ht⟩ := ht
    rw [depth_of_mem_runCutsFrom ht hinside, ← (tabZ_of_activeTabs htabs).1]
    rfl
  refine ((List.forall₂_and_left _ _).mpr ⟨hinside, forall₂_comp hruns hworn⟩).imp ?_
  rintro t c' ⟨hdepth, c, hc, hc'⟩ ht
  exact ⟨hdepth ht, hc.staysOver_iff hc' op.tabZ⟩

end Operation

/-! ## Tabs of two heights -/

/-- A job with a tab wherever a path may go. -/
noncomputable def tabWorkshop : Workshop ℝ := { exactWorkshop with tabs := some everywhere }

/-- Two passes, with tabs that end where the first one does. -/
noncomputable def onePassTabs : Operation ℝ := { twoPasses with tabDepth := 1 }

/-- Inside tabs that end where the first pass does, no cut is below them by more than the wear. -/
theorem onePassTabs_staysOver :
    ∃ compiled result, (onePassTabs.assemble tabWorkshop ratioSummary (.of []) (.of [])
        [groove]).outcome = .ok compiled ∧
      (onePassTabs.build tabWorkshop ratioSummary (.of []) (.of []) [groove]).outcome
        = .ok result ∧
      List.Forall₂ (fun t c' => t.inside = true →
          StaysOver onePassTabs.wearRatio (-1) (t.start.rounded id) c'.moves)
        ((onePassTabs.toolpath tabWorkshop).runCuts (onePassTabs.prepare [groove]))
        result.program.cuttings := by
  have htabs : (onePassTabs.toolpath tabWorkshop).activeTabs = some ⟨everywhere, -1⟩ := by
    norm_num [ToolpathParams.activeTabs, Operation.toolpath, Operation.tabZ, tabWorkshop,
      onePassTabs, twoPasses]
  have hbroken : onePassTabs.broken = [] := twoPasses_broken
  obtain ⟨compiled, result, hassemble, hbuild, -, hcuts⟩ :=
    Operation.wornTabs_staysOver_iff hbroken rfl htabs rfl (r := id)
      ⟨fun _ => rfl, monotone_id⟩ isSummary_ratioSummary [groove]
  refine ⟨compiled, result, hassemble, hbuild, hcuts.imp fun t c' h hinside => ?_⟩
  have htop : onePassTabs.tabZ = -1 := rfl
  rw [← htop]
  refine (h hinside).2.mpr fun q _ => ?_
  have hratio : (0 : ℝ) ≤ onePassTabs.wearRatio := by
    norm_num [onePassTabs, twoPasses, Operation.plain]
  have hwear := mul_nonneg hratio
    (Exact.distance_nonneg (id t.start.x) (id t.start.y) (id q.x) (id q.y))
  have hpass : onePassTabs.passDepth = 1 := by
    norm_num [onePassTabs, twoPasses, Operation.plain]
  linarith

/-- One pass, with tabs that end half a pass below zero. -/
noncomputable def thinTabs : Operation ℝ := { Operation.plain with tabDepth := 1 / 2 }

theorem thinTabs_runCuts :
    (thinTabs.toolpath tabWorkshop).runCuts (thinTabs.prepare [groove])
      = [⟨true, -(1 / 2), ⟨0, 0, 0⟩, [⟨25.4, 0, 0⟩, ⟨50.8, 0, 0⟩]⟩] := by
  have htabs : (thinTabs.toolpath tabWorkshop).activeTabs = some ⟨everywhere, -(1 / 2)⟩ := by
    norm_num [ToolpathParams.activeTabs, Operation.toolpath, Operation.tabZ, tabWorkshop, thinTabs,
      Operation.plain]
  have hpasses : (thinTabs.toolpath tabWorkshop).passes = [⟨0, -1⟩] := by
    have hschedule := schedule_eq (show (0 : ℝ) < 1 by norm_num) (show (-1 : ℝ) ≤ 0 by norm_num)
    rw [plain_passCount] at hschedule
    rw [ToolpathParams.passes_of_flat rfl]
    norm_num [Operation.toolpath, thinTabs, Operation.plain, hschedule, passAt, passZ]
  have hprepare : thinTabs.prepare [groove] = [groove] := plain_prepare 1
  have hruns : splitRuns everywhere groove.points = [[], groove.points] := by
    simp [everywhere, planeRegion, groove, splitRuns, pathPieces, segmentPieces, breakWays,
      piecesThrough, splitFrom, isInside]
  rw [hprepare, ToolpathParams.runCuts, List.flatMap_singleton, hpasses, List.flatMap_singleton,
    ToolpathParams.passRunCuts, ToolpathParams.cutRuns, htabs, ToolpathParams.wholeZ]
  dsimp only
  rw [if_neg (by norm_num), ToolpathParams.runsOf, hruns]
  simp only [groove, List.map_cons, List.map_nil, runCutsFrom]
  norm_num [ToolpathParams.convert, ToolpathParams.runZ, Operation.toolpath, internalScale,
    thinTabs, Operation.plain]

/-- The groove is inside the tabs, and is cut half a millimetre below what they are to end at, with
the wear on the way. -/
theorem thinTabs_cut :
    thinTabs.broken = [] ∧ thinTabs.usesPathZ = false ∧ thinTabs.endZ < thinTabs.tabZ ∧
      ∃ result c', (thinTabs.build tabWorkshop ratioSummary (.of []) (.of []) [groove]).outcome
          = .ok result ∧
        (∃ t, (thinTabs.toolpath tabWorkshop).runCuts (thinTabs.prepare [groove]) = [t] ∧
          t.inside = true ∧ t.start = ⟨0, 0, 0⟩) ∧
        result.program.cuttings = [c'] ∧
        ∃ m worn, c'.moves = m :: worn ∧ m.x = some 25.4 ∧ m.y = some 0 ∧ m.z = some (-1 : ℝ) ∧
          -1 < thinTabs.tabZ - thinTabs.wearRatio * Scalar.distance 0 0 25.4 0 := by
  have htop : thinTabs.endZ < thinTabs.tabZ := by
    norm_num [thinTabs, Operation.plain, Operation.tabZ]
  have hbroken : thinTabs.broken = [] := plain_broken
  obtain ⟨compiled, result, -, hbuild, hruns, hworn⟩ :=
    Operation.exists_wornCuts hbroken rfl (w := tabWorkshop) (r := id) rfl
      ⟨fun _ => rfl, monotone_id⟩ isSummary_ratioSummary [groove]
  rw [thinTabs_runCuts] at hruns
  obtain ⟨c, _, hc, hnone, hcuttings⟩ := List.forall₂_cons_left_iff.mp hruns
  obtain rfl := List.forall₂_nil_left_iff.mp hnone
  rw [hcuttings] at hworn
  obtain ⟨c', _, hc', hnone, hcuttings'⟩ := List.forall₂_cons_left_iff.mp hworn
  obtain rfl := List.forall₂_nil_left_iff.mp hnone
  obtain ⟨m, ms, ⟨hm, -⟩, -, hmoves⟩ := List.forall₂_cons_left_iff.mp hc.moves
  rw [hmoves] at hc'
  obtain ⟨m', worn, hworn', ⟨z, rfl⟩, hz⟩ := hc'.exists_cons
  obtain ⟨hx, hy⟩ := Prod.mk.inj hm
  have hlength : (Scalar.distance 0 0 25.4 0 : ℝ) = 25.4 := by
    rw [Exact.distance_eq, sub_zero, sub_self, zero_pow two_ne_zero, add_zero]
    exact Real.sqrt_sq (by norm_num)
  refine ⟨hbroken, rfl, htop, result, c', hbuild, ⟨_, thinTabs_runCuts, rfl, rfl⟩, hcuttings',
    _, worn, hworn', hx, hy, ?_, ?_⟩
  · rw [hz]
    norm_num [thinTabs, Operation.plain]
  · rw [hlength]
    norm_num [thinTabs, Operation.plain, Operation.tabZ]

end WireErosion
