import WireErosion.Proofs.Depth.Count
import WireErosion.Proofs.Depth.Descent
import WireErosion.Proofs.Residue.Frame
import WireErosion.Proofs.Wear.Position

/-!
# The wear along a cut through vertices

What compensation makes of a cut whose moves go through the vertices of a path, each naming both
axes and no depth, as the compiler makes them.

The points that are put in lie on the way between two vertices, so they do not add to its length
(`wears_points`).  Hence the depth goes down step by step by the wear ratio times the length of the
way, however the way is subdivided (`exists_subdivideFrom`).  The first move of the cut is at the
depth of one pass below zero, since the position before it is not known (`exists_compensate`).
-/

namespace WireErosion

open CamPath (distance)

/-! ## Moves through vertices -/

/-- A move to a vertex that leaves the depth alone. -/
def AtVertex (m : Move ℝ) (q : Point ℝ) : Prop :=
  m.x = some q.x ∧ m.y = some q.y ∧ m.z = none

/-- The position of a vertex. -/
def Point.position {α : Type} (q : Point α) : Modal α := (some q.x, some q.y)

theorem AtVertex.hasXY {m : Move ℝ} {q : Point ℝ} (h : AtVertex m q) : m.hasXY = true := by
  rw [Move.hasXY, h.1]
  rfl

theorem AtVertex.after {m : Move ℝ} {q : Point ℝ} (h : AtVertex m q) (p : Modal ℝ) :
    p.after m = q.position := by
  rw [Modal.after, h.1, h.2.1]
  rfl

/-! ## Points on a way -/

/-- The point on the way from one vertex to another at a distance from the first. -/
noncomputable def pointOnWay (a b : Point ℝ) (d : ℝ) : Point ℝ :=
  ⟨a.x + d / distance a b * (b.x - a.x), a.y + d / distance a b * (b.y - a.y), a.z⟩

/-- A move taken to a point on a way. -/
noncomputable def moveOnWay (m : Move ℝ) (a b : Point ℝ) (d : ℝ) : Move ℝ :=
  { m with x := some (pointOnWay a b d).x, y := some (pointOnWay a b d).y }

theorem atVertex_moveOnWay {m : Move ℝ} (hz : m.z = none) (a b : Point ℝ) (d : ℝ) :
    AtVertex (moveOnWay m a b d) (pointOnWay a b d) := ⟨rfl, rfl, hz⟩

theorem position_pointOnWay_zero (a b : Point ℝ) :
    (pointOnWay a b 0).position = a.position := by
  simp [pointOnWay, Point.position]

/-- Two points on a way are as far apart as their distances from its start differ. -/
theorem distance_pointOnWay {a b : Point ℝ} (hab : 0 < distance a b) {d e : ℝ} (hde : d ≤ e) :
    distance (pointOnWay a b d) (pointOnWay a b e) = e - d := by
  have hpart : 0 ≤ e / distance a b - d / distance a b :=
    sub_nonneg.mpr (div_le_div_of_nonneg_right hde hab.le)
  calc distance (pointOnWay a b d) (pointOnWay a b e)
      = |e / distance a b - d / distance a b| * distance a b :=
        Modal.gap_toward (a := a.position) (b := b.position) _ _
    _ = e - d := by
        rw [abs_of_nonneg hpart, sub_mul, div_mul_cancel₀ _ hab.ne', div_mul_cancel₀ _ hab.ne']

/-- The end of a way is as far from a point on it as the length that is left. -/
theorem distance_pointOnWay_end {a b : Point ℝ} (hab : 0 < distance a b) {d : ℝ}
    (hd : d ≤ distance a b) : distance (pointOnWay a b d) b = distance a b - d := by
  have hend : ((pointOnWay a b (distance a b)).x = b.x) ∧
      (pointOnWay a b (distance a b)).y = b.y := by
    simp only [pointOnWay, div_self hab.ne']
    constructor <;> ring
  have hdistance := distance_pointOnWay hab hd
  rwa [distance, hend.1, hend.2] at hdistance

/-! ## The points that are put in -/

/-- The points that are put in between two vertices lie on the way, one after the other.  There are
none if the vertices are at the same position. -/
theorem exists_intermediateMoves {spacing : ℝ} (hspacing : 0 < spacing) (m : Move ℝ)
    (a b : Point ℝ) :
    ∃ ds : List ℝ, intermediateMoves m a.position b.position spacing
        = .ok (ds.map (moveOnWay m a b)) ∧
      (0 :: ds).Pairwise (· ≤ ·) ∧ (∀ d ∈ ds, d ≤ distance a b) ∧
      (¬ 0 < distance a b → ds = []) := by
  have hcount := lt_pointCount hspacing (distance a b)
  refine ⟨(List.range (pointCount spacing (distance a b))).map fun k => ((k + 1 : ℕ) : ℝ) * spacing,
    ?_, ?_, fun d hd => ?_, fun hnone => ?_⟩
  · rw [intermediateMoves_eq hspacing, pointsOn, List.map_map]
    rfl
  · refine List.pairwise_cons.mpr ⟨fun d hd => ?_, ?_⟩
    · obtain ⟨k, -, rfl⟩ := List.mem_map.mp hd
      positivity
    · rw [List.pairwise_map]
      refine List.pairwise_lt_range.imp fun {i j} hij => ?_
      exact mul_le_mul_of_nonneg_right (Nat.cast_le.mpr (by omega)) hspacing.le
  · obtain ⟨k, hk, rfl⟩ := List.mem_map.mp hd
    linarith [(hcount k).mp (List.mem_range.mp hk), slack_pos]
  · have hzero : pointCount spacing (distance a b) = 0 :=
      Nat.eq_zero_of_not_pos fun hpos => hnone (pos_of_lt_pointCount hspacing hpos)
    rw [hzero]
    rfl

/-! ## Wear -/

/-- Some moves, worn from one state on, go down one after the other to the depth of another
state. -/
def Wears (ratio : ℝ) (s : WearState ℝ) (ms : List (Move ℝ)) (t : WearState ℝ) : Prop :=
  ∃ worn : List (Move ℝ), wearFrom ratio s (ms.map .move) = (t, worn.map .move) ∧
    Falls s.depth worn t.depth

section

variable {ratio : ℝ}

theorem Wears.nil (s : WearState ℝ) : Wears ratio s [] s := ⟨[], rfl, .done⟩

theorem Wears.append {s t u : WearState ℝ} {ms ns : List (Move ℝ)} (h : Wears ratio s ms t)
    (h' : Wears ratio t ns u) : Wears ratio s (ms ++ ns) u := by
  obtain ⟨worn, hworn, hfalls⟩ := h
  obtain ⟨worn', hworn', hfalls'⟩ := h'
  refine ⟨worn ++ worn', ?_, hfalls.append hfalls'⟩
  rw [List.map_append, wearFrom_append, hworn, hworn', List.map_append]

/-- The wear on a move from one vertex to another. -/
theorem Wears.step (hratio : 0 ≤ ratio) {m : Move ℝ} {p q : Point ℝ} (hm : AtVertex m q)
    (depth asked : ℝ) :
    Wears ratio ⟨p.position, depth, asked⟩ [m]
      ⟨q.position, depth - ratio * distance p q, asked⟩ := by
  have hstep : (WearState.mk p.position depth asked).step ratio m
      = (⟨q.position, depth - ratio * distance p q, asked⟩,
        { m with z := some (depth - ratio * distance p q) }) := by
    have htravelled : travelled m p.position q.position = distance p q := by
      simp only [travelled, hm.hasXY, Point.position, distance]
    have hdepth : depth + -(distance p q * ratio) = depth - ratio * distance p q := by ring
    simp only [WearState.step, hm.after, hm.2.2, Option.getD_none, htravelled, sub_self, add_zero,
      hdepth]
  have hdown : 0 ≤ ratio * distance p q := mul_nonneg hratio (Exact.distance_nonneg ..)
  refine ⟨[{ m with z := some (depth - ratio * distance p q) }], ?_, .step rfl ?_ .done⟩
  · rw [List.map_singleton, wearFrom, hstep]
    rfl
  · linarith

/-- The wear along points on a way is that of the distance between the first and the last. -/
theorem wears_points (hratio : 0 ≤ ratio) {m : Move ℝ} (hz : m.z = none) {a b : Point ℝ}
    (hab : 0 < distance a b) (asked : ℝ) : ∀ (ds : List ℝ) (d depth : ℝ),
      (d :: ds).Pairwise (· ≤ ·) →
      Wears ratio ⟨(pointOnWay a b d).position, depth, asked⟩ (ds.map (moveOnWay m a b))
        ⟨(pointOnWay a b (ds.getLastD d)).position, depth - ratio * (ds.getLastD d - d), asked⟩
  | [], d, depth, _ => by
      rw [List.getLastD_nil, sub_self, mul_zero, sub_zero]
      exact .nil _
  | e :: ds, d, depth, h => by
      have hde : d ≤ e := (List.pairwise_cons.mp h).1 e (List.mem_cons_self ..)
      have hstep := Wears.step hratio (p := pointOnWay a b d) (atVertex_moveOnWay hz a b e)
        depth asked
      rw [distance_pointOnWay hab hde] at hstep
      have hrest := wears_points hratio hz hab asked ds e (depth - ratio * (e - d))
        (List.pairwise_cons.mp h).2
      have hdepth : depth - ratio * (e - d) - ratio * (ds.getLastD e - e)
          = depth - ratio * (ds.getLastD e - d) := by ring
      rw [hdepth] at hrest
      rw [List.getLastD_cons]
      exact hstep.append hrest

/-- The wear on the way from one vertex to the next with points put in. -/
theorem wears_way (hratio : 0 ≤ ratio) {m m' : Move ℝ} (hz : m.z = none) {a b : Point ℝ}
    (hm' : AtVertex m' b) {ds : List ℝ} (hds : (0 :: ds).Pairwise (· ≤ ·))
    (hle : ∀ d ∈ ds, d ≤ distance a b) (hnone : ¬ 0 < distance a b → ds = []) (depth asked : ℝ) :
    Wears ratio ⟨a.position, depth, asked⟩ (ds.map (moveOnWay m a b) ++ [m'])
      ⟨b.position, depth - ratio * distance a b, asked⟩ := by
  by_cases hab : 0 < distance a b
  · have hpoints := wears_points hratio hz hab asked ds 0 depth hds
    rw [position_pointOnWay_zero, sub_zero] at hpoints
    have hlast : ds.getLastD 0 ≤ distance a b := by
      cases hlast : ds.getLast? with
      | none =>
          rw [List.getLast?_eq_none_iff.mp hlast]
          exact hab.le
      | some d =>
          have hmem := List.mem_of_getLast? hlast
          rw [List.getLastD_eq_getLast?, hlast]
          exact hle d hmem
    have hend := Wears.step hratio (p := pointOnWay a b (ds.getLastD 0)) hm'
      (depth - ratio * ds.getLastD 0) asked
    have hdepth : depth - ratio * ds.getLastD 0 - ratio * (distance a b - ds.getLastD 0)
        = depth - ratio * distance a b := by ring
    rw [distance_pointOnWay_end hab hlast, hdepth] at hend
    exact hpoints.append hend
  · rw [hnone hab]
    exact .step hratio hm' depth asked

/-! ## Cuts -/

/-- A cut through vertices can be subdivided, and the wear along it is that of the length of its
way. -/
theorem exists_subdivideFrom (hratio : 0 ≤ ratio) {spacing : ℝ} (hspacing : 0 < spacing)
    (p : Modal ℝ) {ms : List (Move ℝ)} {qs : List (Point ℝ)} {m : Move ℝ} {q : Point ℝ}
    (hm : AtVertex m q) (h : List.Forall₂ AtVertex ms qs) :
    ∃ out : List (Move ℝ),
      subdivideFrom spacing p (.move m :: ms.map .move) = .ok (.move m :: out.map .move) ∧
      ∀ depth asked, ∃ last, Wears ratio ⟨q.position, depth, asked⟩ out
        ⟨last, depth - ratio * wayLength q qs, asked⟩ := by
  induction h generalizing p m q with
  | nil =>
      refine ⟨[], ?_, fun depth asked => ⟨q.position, ?_⟩⟩
      · simp [subdivideFrom, hm.hasXY, nextWaypoint?]
      · rw [wayLength, mul_zero, sub_zero]
        exact .nil _
  | @cons m' q' ms qs hm' _ ih =>
      obtain ⟨out, hout, hwears⟩ := ih q.position hm'
      obtain ⟨ds, hpoints, hds, hle, hnone⟩ := exists_intermediateMoves hspacing m q q'
      refine ⟨ds.map (moveOnWay m q q') ++ m' :: out, ?_, fun depth asked => ?_⟩
      · rw [List.map_cons, subdivideFrom, if_pos hm.hasXY, hm.after]
        have hnext : nextWaypoint? q.position (.move m' :: ms.map .move) = some q'.position := by
          rw [nextWaypoint?, if_pos hm'.hasXY, hm'.after]
        simp only [hnext, hpoints, hout]
        simp [bind, Except.bind, pure, Except.pure]
      · obtain ⟨last, hrest⟩ := hwears (depth - ratio * distance q q') asked
        have hway := wears_way hratio hm.2.2 hm' hds hle hnone depth asked
        have hdepth : depth - ratio * distance q q' - ratio * wayLength q' qs
            = depth - ratio * wayLength q (q' :: qs) := by
          rw [wayLength]
          ring
        rw [hdepth] at hrest
        have happend := hway.append hrest
        rw [List.append_assoc] at happend
        exact ⟨last, happend⟩

end

/-- The depth that a cut through some vertices ends at. -/
noncomputable def wornDepth (ratio passDepth : ℝ) : List (Point ℝ) → ℝ
  | [] => -passDepth
  | q :: qs => -passDepth - ratio * wayLength q qs

/-- The moves of a cut that is worn from the depth of one pass to another depth. -/
inductive WornMoves (passDepth : ℝ) : List (Point ℝ) → ℝ → List (Move ℝ) → Prop
  | nil : WornMoves passDepth [] (-passDepth) []
  | cons {q : Point ℝ} {qs : List (Point ℝ)} {depth : ℝ} {m : Move ℝ} {ms : List (Move ℝ)} :
      m.z = some (-passDepth) → Falls (-passDepth) ms depth →
      WornMoves passDepth (q :: qs) depth (m :: ms)

/-- A cut through vertices is compensated.  It starts at the depth of one pass and goes down to the
worn depth. -/
theorem exists_compensate {w : WearParams ℝ} (hratio : 0 ≤ w.ratio) (hspacing : 0 < w.segmentLength)
    {ms : List (Move ℝ)} {qs : List (Point ℝ)} (h : List.Forall₂ AtVertex ms qs) :
    ∃ worn, CutBlock.compensate w ⟨.cut :: ms.map .move, none⟩
        = .ok ⟨.cut :: worn.map .move, some (wornDepth w.ratio w.passDepth qs)⟩ ∧
      WornMoves w.passDepth qs (wornDepth w.ratio w.passDepth qs) worn := by
  cases h with
  | nil => exact ⟨[], rfl, .nil⟩
  | @cons m q ms qs hm hms =>
      obtain ⟨out, hout, hwears⟩ := exists_subdivideFrom hratio hspacing (none, none) hm hms
      obtain ⟨last, worn, hworn, hfalls⟩ := hwears (-w.passDepth) (-w.passDepth)
      refine ⟨{ m with z := some (-w.passDepth) } :: worn, ?_, .cons rfl hfalls⟩
      have hstep : (WearState.mk (none, none) (-w.passDepth) (-w.passDepth)).step w.ratio m
          = (⟨q.position, -w.passDepth, -w.passDepth⟩,
            { m with z := some (-w.passDepth) }) := by
        have htravelled : travelled m (none, none) q.position = 0 := by
          simp only [travelled, hm.hasXY, Exact.zero_eq]
        simp [WearState.step, hm.after, hm.2.2, htravelled]
      have hsubdivide : subdivide w.segmentLength (.cut :: .move m :: ms.map .move)
          = .ok (.cut :: .move m :: out.map .move) := by
        rw [subdivide, Line.cut, subdivideFrom, hout]
        rfl
      rw [CutBlock.compensate, List.map_cons, hsubdivide, Except.map, applyWear, Line.cut, wearFrom,
        wearFrom, hstep]
      simp only [hworn]
      rfl

end WireErosion
