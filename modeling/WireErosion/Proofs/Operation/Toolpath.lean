import WireErosion.Proofs.Depth.Toolpath
import WireErosion.Proofs.Operation.Strokes
import WireErosion.Proofs.Toolpath.Schedule

/-!
# A toolpath as strokes

Without tabs, and if paths do not carry their own depth, a toolpath is a list of strokes: every path
with vertices is cut whole, once for each pass.  The first stroke of a path comes with the rise that
ended the path before it, or the one at the start of the program.  The other strokes of a path start
with a rise unless the path may be closed (`ToolpathParams.strokes`).

`ToolpathParams.plan_eq_strokes` regroups the lines of the compiler so, and `exists_realizes` gives
the moves of every stroke.
-/

namespace WireErosion

namespace ToolpathParams

/-- The strokes of some passes over a path, the first one with the given lead. -/
def passStrokes (start : Point ℝ) (rest : List (Point ℝ)) (safeToClose : Bool) (lead : Lead) :
    List (Pass ℝ) → List Stroke
  | [] => []
  | pass :: passes => ⟨lead, start, rest, pass⟩
      :: passStrokes start rest safeToClose (if safeToClose then .resumed else .lifted) passes

/-- The strokes of some paths, the first one with the given index. -/
noncomputable def strokesFrom (c : ToolpathParams ℝ) (index : Nat) :
    List (CamPath ℝ) → List Stroke
  | [] => []
  | path :: paths =>
    (match path.points with
      | [] => []
      | p :: ps => passStrokes (c.convert p) (ps.map c.convert) path.safeToClose (.newPath index)
          c.passes) ++ c.strokesFrom (index + 1) paths

/-- The strokes of a toolpath. -/
noncomputable def strokes (c : ToolpathParams ℝ) (paths : List (CamPath ℝ)) : List Stroke :=
  c.strokesFrom 0 paths

/-- The parameters under which a toolpath is a list of strokes. -/
structure Plain (c : ToolpathParams ℝ) : Prop where
  /-- Paths do not carry their own depth. -/
  flat : c.usePathZ = false
  /-- No tabs are in effect. -/
  noTabs : c.activeTabs = none
  /-- Passes go down. -/
  passDepth_pos : 0 < c.passDepth
  /-- Descents have a speed. -/
  plungeFeed_pos : 0 < c.descents.plungeFeed
  /-- There is something to cut. -/
  bottom_lt : c.bottomZ < c.topZ
  /-- The clearance height is not below the top. -/
  top_le : c.topZ ≤ c.safeZ

variable {c : ToolpathParams ℝ}

/-! ## Passes -/

/-- There is a pass, since the top of the cut is above the final depth. -/
theorem Plain.passes_eq (hc : c.Plain) :
    ∃ fuel, c.passes = passFrom c.passDepth c.bottomZ c.topZ
      :: passesFrom c.passDepth c.bottomZ fuel
        (passFrom c.passDepth c.bottomZ c.topZ).next := by
  have hmultiples : passMultiple c.passDepth c.bottomZ ≤ passMultiple c.passDepth c.topZ := by
    rw [passMultiple, passMultiple, Exact.floor_eq, Exact.floor_eq]
    exact Int.floor_mono (div_le_div_of_nonneg_right hc.bottom_lt.le hc.passDepth_pos.le)
  obtain ⟨fuel, hfuel⟩ : ∃ fuel, passBound c.passDepth c.bottomZ c.topZ = fuel + 1 := by
    refine Nat.exists_eq_add_one.mpr ?_
    unfold passBound
    omega
  refine ⟨fuel, ?_⟩
  rw [passes, hc.flat, schedule, hfuel, passesFrom, if_pos hc.bottom_lt]
  rfl

/-! ## Lines -/

/-- The lines that a stroke starts with. -/
def leadPlan (c : ToolpathParams ℝ) : Lead → List (Planned ℝ)
  | .newPath i => retractLines c.safeZ ++ [.ok .blank, .ok (.pathStart i)]
  | .lifted => retractLines c.safeZ
  | .resumed => []

/-- The lines of a stroke after the ones that it starts with. -/
noncomputable def sweepPlan (c : ToolpathParams ℝ) (start : Point ℝ) (rest : List (Point ℝ))
    (pass : Pass ℝ) : List (Planned ℝ) :=
  travelLines start pass.finished
    ++ (descent c.descents start rest pass.finished pass.next ++ .ok .cut :: c.cutMoves rest)

/-- The lines of a stroke. -/
noncomputable def strokePlan (c : ToolpathParams ℝ) (s : Stroke) : List (Planned ℝ) :=
  c.leadPlan s.lead ++ c.sweepPlan s.start s.rest s.pass

section

variable {start : Point ℝ} {rest : List (Point ℝ)} {path : ReadyPath ℝ}

/-- The lines of a pass without tabs. -/
theorem Plain.passLines_eq (hc : c.Plain) (hstart : path.start = start)
    (hwhole : path.whole = start :: rest) (z : ℝ) {pass : Pass ℝ}
    (hnext : pass.next < pass.finished) (hbottom : c.bottomZ ≤ pass.next) :
    c.passLines none path z pass =
      ((if z < c.safeZ ∧ path.safeToClose = false then retractLines c.safeZ else [])
          ++ c.sweepPlan start rest pass, pass.next) := by
  have hruns : c.passRuns none path pass = [start :: rest] := by
    rw [passRuns, if_pos (.inl hbottom), hwhole]
  have hentry : c.entryLines (c.wholeZ none) start rest (entryZ none pass.finished) pass.next
      = descent c.descents start rest pass.finished pass.next := by
    rw [entryLines, entryZ, if_pos hnext]
  have hrise : (if z < c.safeZ ∧ (!path.safeToClose || (none : Option (Tabs ℝ)).isSome)
      then retractLines c.safeZ else [])
      = if z < c.safeZ ∧ path.safeToClose = false then retractLines c.safeZ else [] := by
    simp
  rw [ToolpathParams.passLines_eq, hruns, runLines_cons hc.flat, approachLines, hstart, hrise]
  simp only [Bool.false_eq_true, if_false, hentry, runLines, List.append_nil, sweepPlan,
    List.append_assoc]
  rfl

/-- The passes after the first one. -/
theorem Plain.passesLines_eq (hc : c.Plain) (hstart : path.start = start)
    (hwhole : path.whole = start :: rest) : ∀ (fuel : Nat) {finished : ℝ}, finished < c.safeZ →
      c.passesLines none path finished (passesFrom c.passDepth c.bottomZ fuel finished) =
        (passStrokes start rest path.safeToClose (if path.safeToClose then .resumed else .lifted)
          (passesFrom c.passDepth c.bottomZ fuel finished)).flatMap c.strokePlan
  | 0, _, _ => rfl
  | fuel + 1, finished, hsafe => by
      rw [passesFrom]
      split
      next hbottom =>
        obtain ⟨hnext, hfinal⟩ := passFrom_next hc.passDepth_pos hbottom
        have hrest := hc.passesLines_eq hstart hwhole fuel (hnext.trans hsafe)
        rw [passesLines, hc.passLines_eq hstart hwhole finished hnext hfinal]
        dsimp only
        rw [hrest, passStrokes, List.flatMap_cons, strokePlan]
        congr 2
        cases path.safeToClose <;> simp [leadPlan, hsafe]
      next => rfl

/-- All passes over a path, together with the rise before them. -/
theorem Plain.retract_passesLines (hc : c.Plain) (index : Nat) (path : ReadyPath ℝ)
    (hstart : path.start = start) (hwhole : path.whole = start :: rest) :
    retractLines c.safeZ ++ .ok .blank :: .ok (.pathStart index)
        :: c.passesLines none path c.safeZ c.passes =
      (passStrokes start rest path.safeToClose (.newPath index) c.passes).flatMap c.strokePlan := by
  obtain ⟨fuel, hpasses⟩ := hc.passes_eq
  obtain ⟨hnext, hfinal⟩ := passFrom_next hc.passDepth_pos hc.bottom_lt
  have hrest := hc.passesLines_eq hstart hwhole fuel (hnext.trans_le hc.top_le)
  rw [hpasses, passesLines, hc.passLines_eq hstart hwhole c.safeZ hnext hfinal]
  dsimp only
  rw [hrest, passStrokes, List.flatMap_cons, strokePlan]
  simp [leadPlan]

end

/-- All paths, together with the rise before them. -/
theorem Plain.retract_pathsLines (hc : c.Plain) : ∀ (index : Nat) (paths : List (CamPath ℝ)),
    retractLines c.safeZ ++ c.pathsLines none index paths =
      (c.strokesFrom index paths).flatMap c.strokePlan ++ retractLines c.safeZ
  | index, [] => by simp [pathsLines, strokesFrom]
  | index, path :: paths => by
      have hpaths := hc.retract_pathsLines (index + 1) paths
      rw [pathsLines, pathLines, strokesFrom]
      cases path.points with
      | nil => simpa using hpaths
      | cons p ps =>
          have hpath := hc.retract_passesLines index
            ⟨c.convert p, (p :: ps).map c.convert, c.runsOf none (p :: ps), path.safeToClose⟩
            rfl rfl
          rw [List.flatMap_append, ← hpath, List.append_assoc, List.append_assoc, ← hpaths]
          simp

/-- The plan of a toolpath is that of its strokes, and a rise. -/
theorem Plain.plan_eq_strokes (hc : c.Plain) (paths : List (CamPath ℝ)) :
    c.plan paths = (c.strokes paths).flatMap c.strokePlan ++ retractLines c.safeZ := by
  rw [plan, hc.noTabs, hc.retract_pathsLines, strokes]

/-! ## Moves -/

theorem mem_passStrokes {start : Point ℝ} {rest : List (Point ℝ)} {safeToClose : Bool}
    {s : Stroke} : ∀ {lead : Lead} {passes : List (Pass ℝ)},
      s ∈ passStrokes start rest safeToClose lead passes → s.pass ∈ passes
  | _, [], h => by cases h
  | _, pass :: passes, h => by
      rcases List.mem_cons.mp h with rfl | h
      · exact List.mem_cons_self ..
      · exact List.mem_cons_of_mem _ (mem_passStrokes h)

/-- Every stroke goes down. -/
theorem Plain.next_lt_finished (hc : c.Plain) {s : Stroke} : ∀ {index : Nat}
    {paths : List (CamPath ℝ)}, s ∈ c.strokesFrom index paths → s.pass.next < s.pass.finished
  | _, [], h => by cases h
  | index, path :: paths, h => by
      rw [strokesFrom] at h
      rcases List.mem_append.mp h with h | h
      · cases hpoints : path.points with
        | nil =>
            rw [hpoints] at h
            cases h
        | cons p ps =>
            rw [hpoints] at h
            have hpass := mem_passStrokes h
            rw [passes, hc.flat] at hpass
            exact next_lt_of_mem_passesFrom hc.passDepth_pos hpass
      · exact hc.next_lt_finished h

/-- The moves of a cut go through its vertices. -/
theorem exists_cutMoves (hflat : c.usePathZ = false) (ps : List (Point ℝ)) :
    ∃ ms : List (Move ℝ), c.cutMoves ps = ms.map planMove ∧ List.Forall₂ AtVertex ms ps := by
  have hlevel : ∀ p, c.vertexZ p = none := fun p => by rw [vertexZ, hflat]; rfl
  cases ps with
  | nil => exact ⟨[], rfl, .nil⟩
  | cons p ps =>
      refine ⟨.linear (some p.x) (some p.y) (c.vertexZ p) (some c.descents.cutFeed)
          c.descents.toolSpeed
        :: ps.map fun q => .linear (some q.x) (some q.y) (c.vertexZ q) none none, ?_, ?_⟩
      · simp [cutMoves]
      · refine .cons ⟨rfl, rfl, hlevel p⟩ ?_
        rw [List.forall₂_map_left_iff]
        exact List.forall₂_same.mpr fun q _ => ⟨rfl, rfl, hlevel q⟩

/-- A stroke that goes down has moves, which are its plan. -/
theorem Plain.exists_realizes (hc : c.Plain) {w : WearParams ℝ} (hratio : 0 ≤ w.ratio)
    (hspacing : 0 < w.segmentLength) {s : Stroke} (hs : s.pass.next < s.pass.finished) :
    ∃ moves : StrokeMoves ℝ × CutBlock ℝ, c.strokePlan s = moves.1.lines.map .ok ∧
      Realizes c.descents w s moves := by
  obtain ⟨ramped, sink, terminal, hdescent, hsink, -, hterminal, hstraight⟩ :=
    exists_descent hc.plungeFeed_pos s.start s.rest hs
  obtain ⟨cut, hcut, hvertices⟩ := exists_cutMoves hc.flat s.rest
  obtain ⟨worn, hcompensate, hworn⟩ := exists_compensate hratio hspacing hvertices
  refine ⟨⟨⟨s.lead, .rapid none none (some c.safeZ), .rapid (some s.start.x) (some s.start.y) none,
    .rapid none none (some s.pass.finished), ramped, sink, terminal, cut⟩, _⟩, ?_, rfl,
    ⟨rfl, rfl, rfl, rfl, hstraight⟩, rfl, rfl, hsink, hterminal, hcompensate, worn, rfl, hworn⟩
  have hplanned : ∀ ms : List (Move ℝ), ms.map planMove = ms.map fun m => .ok (.move m) :=
    fun _ => rfl
  rw [strokePlan, sweepPlan, hdescent, hcut, hplanned, hplanned]
  cases hlead : s.lead <;> cases ramped <;>
    simp [leadPlan, retractLines, rapidToZ, travelLines, planMove, StrokeMoves.lines,
      StrokeMoves.descent, StrokeMoves.opening, StrokeMoves.leadSteps, StrokeMoves.marker,
      StrokeMoves.cutBlock, PlungeBlock.lines, Function.comp_def]

/-- Strokes that go down have moves, which are their plans. -/
theorem Plain.exists_forall₂_realizes (hc : c.Plain) {w : WearParams ℝ} (hratio : 0 ≤ w.ratio)
    (hspacing : 0 < w.segmentLength) : ∀ {ss : List Stroke},
      (∀ s ∈ ss, s.pass.next < s.pass.finished) →
      ∃ moves : List (StrokeMoves ℝ × CutBlock ℝ),
        ss.flatMap c.strokePlan = ((moves.map Prod.fst).flatMap StrokeMoves.lines).map .ok ∧
        List.Forall₂ (Realizes c.descents w) ss moves
  | [], _ => ⟨[], rfl, .nil⟩
  | s :: ss, h => by
      obtain ⟨m, hm, hrealizes⟩ := hc.exists_realizes hratio hspacing (h s (List.mem_cons_self ..))
      obtain ⟨moves, hmoves, hall⟩ := hc.exists_forall₂_realizes hratio hspacing
        fun t ht => h t (List.mem_cons_of_mem _ ht)
      refine ⟨m :: moves, ?_, .cons hrealizes hall⟩
      rw [List.flatMap_cons, hm, hmoves, List.map_cons, List.flatMap_cons, List.map_append]

/-- Numbers that are left as they are leave a line as it is. -/
theorem mapNumbers_id : ∀ l : Line ℝ, l.mapNumbers id = l
  | .comment _ => rfl
  | .move m => by simp [Line.mapNumbers]

/-- A toolpath compiles to its strokes, and a rise. -/
theorem Plain.exists_compile (hc : c.Plain) (hround : ∀ x, c.round x = .ok x) {w : WearParams ℝ}
    (hratio : 0 ≤ w.ratio) (hspacing : 0 < w.segmentLength) (paths : List (CamPath ℝ)) :
    ∃ moves : List (StrokeMoves ℝ × CutBlock ℝ),
      c.compile paths
        = .ok (strokesLines (.rapid none none (some c.safeZ)) (moves.map Prod.fst)) ∧
      List.Forall₂ (Realizes c.descents w) (c.strokes paths) moves := by
  obtain ⟨moves, hmoves, hall⟩ := hc.exists_forall₂_realizes hratio hspacing
    fun s (hs : s ∈ c.strokes paths) => hc.next_lt_finished hs
  refine ⟨moves, ?_, hall⟩
  have hplan : c.plan paths
      = (strokesLines (.rapid none none (some c.safeZ)) (moves.map Prod.fst)).map .ok := by
    rw [hc.plan_eq_strokes, hmoves, strokesLines, List.map_append]
    rfl
  rw [compile_eq ⟨hround, monotone_id⟩ hplan]
  congr 1
  exact (List.map_congr_left fun l _ => mapNumbers_id l).trans (List.map_id _)

end ToolpathParams

end WireErosion
