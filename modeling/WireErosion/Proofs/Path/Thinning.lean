import Mathlib.Tactic.Linarith
import WireErosion.Operation.Run
import WireErosion.Proofs.Exact

/-!
# Snapping and thinning

In exact arithmetic snapping takes a vertex to the nearest vertex of the grid and leaves its depth
(`CamPath.IsSnap`).

Thinning goes along a path from the vertex that was kept last.  So the vertices of a path come in
stays, each of them a vertex that is kept and those after it that are closer to it than the length
(`CamPath.Stay`).  The vertices that are kept are one for each stay, and each is at least the length
away from the one before, but for the last (`CamPath.IsThinned`).

A path that was prepared like this is left as it is the second time: its vertices lie on the grid,
and each vertex that was kept is kept again, since the one that was kept before it is still there
(`CamPath.thinAfter_thinAfter`).
-/

namespace WireErosion

open scoped Exact

/-! ## Snapping -/

theorem abs_nearestInt_sub_le (x : ℝ) : |(nearestInt x : ℝ) - x| ≤ 1 / 2 := by
  have hfloor := Int.self_sub_floor x
  have hnonneg := Int.fract_nonneg x
  have hlt := Int.fract_lt_one x
  unfold nearestInt
  split_ifs with hless hmore <;> rw [abs_le] <;> push_cast <;> constructor <;> linarith

namespace CamPath

theorem snapCoordinate_eq (grid v : ℝ) :
    snapCoordinate grid v = (nearestInt (v / grid) : ℝ) * grid := rfl

/-- A coordinate on the grid stays. -/
theorem snapCoordinate_mul {grid : ℝ} (hgrid : grid ≠ 0) (k : ℤ) :
    snapCoordinate grid (k * grid) = k * grid := by
  rw [snapCoordinate_eq, mul_div_cancel_right₀ _ hgrid, nearestInt_intCast]

theorem abs_snapCoordinate_sub_le {grid : ℝ} (hgrid : 0 < grid) (v : ℝ) :
    |snapCoordinate grid v - v| ≤ grid / 2 := by
  have hscale : snapCoordinate grid v - v = (nearestInt (v / grid) - v / grid) * grid := by
    rw [snapCoordinate_eq, sub_mul, div_mul_cancel₀ _ hgrid.ne']
  have hnear := mul_le_mul_of_nonneg_right (abs_nearestInt_sub_le (v / grid)) hgrid.le
  rw [hscale, abs_mul, abs_of_pos hgrid]
  linarith

/-- A vertex of the grid that another one is taken to. -/
structure IsSnap (grid : ℝ) (p q : Point ℝ) : Prop where
  /-- It is at most half a step away along one axis. -/
  x : |q.x - p.x| ≤ grid / 2
  /-- The same holds of the other axis. -/
  y : |q.y - p.y| ≤ grid / 2
  /-- The depth is the same. -/
  z : q.z = p.z
  /-- It is a vertex of the grid. -/
  onGrid : ∃ i j : ℤ, q.x = i * grid ∧ q.y = j * grid

theorem isSnap_snapPoint {grid : ℝ} (hgrid : 0 < grid) (p : Point ℝ) :
    IsSnap grid p (snapPoint grid p) where
  x := abs_snapCoordinate_sub_le hgrid p.x
  y := abs_snapCoordinate_sub_le hgrid p.y
  z := rfl
  onGrid := ⟨_, _, snapCoordinate_eq grid p.x, snapCoordinate_eq grid p.y⟩

/-- A vertex of the grid stays. -/
theorem IsSnap.snapPoint_eq {grid : ℝ} {p q : Point ℝ} (h : IsSnap grid p q) (hgrid : grid ≠ 0) :
    snapPoint grid q = q := by
  obtain ⟨i, j, hi, hj⟩ := h.onGrid
  rw [snapPoint, hi, hj, snapCoordinate_mul hgrid, snapCoordinate_mul hgrid, ← hi, ← hj]

theorem forall₂_isSnap {grid : ℝ} (hgrid : 0 < grid) (p : CamPath ℝ) :
    List.Forall₂ (IsSnap grid) p.points (p.snap grid).points :=
  List.forall₂_map_right_iff.mpr (List.forall₂_same.mpr fun q _ => isSnap_snapPoint hgrid q)

/-! ## Thinning -/

section

variable {α : Type} [Scalar α] (length : α)

theorem getLast?_thinAfter (last : Point α) : ∀ ps : List (Point α),
    (thinAfter length last ps).getLast? = ps.getLast?
  | [] => rfl
  | [p] => rfl
  | p :: q :: ps => by
      rw [thinAfter, List.getLast?_cons_cons]
      split_ifs with hfar
      · have hrest := getLast?_thinAfter p (q :: ps)
        rw [List.getLast?_cons, hrest, List.getLast?_cons, Option.getD_some]
      · exact getLast?_thinAfter last (q :: ps)

/-- Of some vertices at least one is kept. -/
theorem exists_thinAfter_cons (last p : Point α) (ps : List (Point α)) :
    ∃ q qs, thinAfter length last (p :: ps) = q :: qs := by
  refine List.exists_cons_of_ne_nil fun hnil => ?_
  have hlast := getLast?_thinAfter length last (p :: ps)
  rw [hnil, List.getLast?_cons] at hlast
  cases hlast

/-- A vertex that is kept is far from the one before, unless it is the last. -/
theorem isChain_thinAfter : ∀ (last : Point α) (ps : List (Point α)),
    (last :: thinAfter length last ps).dropLast.IsChain fun p q => length ≤ distance p q
  | last, [] => .nil
  | last, [p] => .singleton last
  | last, p :: q :: ps => by
      rw [thinAfter]
      split_ifs with hfar
      · have hrest := isChain_thinAfter p (q :: ps)
        obtain ⟨r, rs, hkept⟩ := exists_thinAfter_cons length p q ps
        rw [hkept, List.dropLast_cons_cons] at hrest
        rw [hkept, List.dropLast_cons_cons, List.dropLast_cons_cons]
        exact .cons_cons hfar hrest
      · exact isChain_thinAfter last (q :: ps)

/-- The vertices that are kept are kept again. -/
theorem thinAfter_thinAfter : ∀ (last : Point α) (ps : List (Point α)),
    thinAfter length last (thinAfter length last ps) = thinAfter length last ps
  | last, [] => rfl
  | last, [p] => rfl
  | last, p :: q :: ps => by
      rw [thinAfter]
      split_ifs with hfar
      · have hrest := thinAfter_thinAfter p (q :: ps)
        obtain ⟨r, rs, hkept⟩ := exists_thinAfter_cons length p q ps
        rw [hkept] at hrest ⊢
        rw [thinAfter, if_pos hfar, hrest]
      · exact thinAfter_thinAfter last (q :: ps)

theorem thinPoints_thinPoints (ps : List (Point α)) :
    thinPoints length (thinPoints length ps) = thinPoints length ps := by
  cases ps with
  | nil => rfl
  | cons p ps => rw [thinPoints, thinPoints, thinAfter_thinAfter]

end

/-- A vertex that is kept, and the vertices after it that are dropped. -/
structure Stay where
  /-- The vertex. -/
  vertex : Point ℝ
  /-- The vertices that are dropped. -/
  dropped : List (Point ℝ)

/-- The vertices of a stay. -/
def Stay.points (s : Stay) : List (Point ℝ) := s.vertex :: s.dropped

/-- The vertices that are dropped are close to the one that is kept. -/
def Stay.IsClose (length : ℝ) (s : Stay) : Prop := ∀ p ∈ s.dropped, distance s.vertex p < length

theorem sublist_stays (stays : List Stay) :
    (stays.map Stay.vertex).Sublist (stays.flatMap Stay.points) := by
  induction stays with
  | nil => exact .slnil
  | cons s stays ih => exact .cons_cons _ (ih.trans (List.sublist_append_right _ _))

/-- The stays after a vertex that was kept, the first vertices being dropped for it. -/
theorem exists_stays_thinAfter (length : ℝ) : ∀ (last : Point ℝ) (ps : List (Point ℝ)),
    ∃ (dropped : List (Point ℝ)) (stays : List Stay), ps = dropped ++ stays.flatMap Stay.points ∧
      thinAfter length last ps = stays.map Stay.vertex ∧ Stay.IsClose length ⟨last, dropped⟩ ∧
      ∀ s ∈ stays, s.IsClose length
  | last, [] => ⟨[], [], rfl, rfl, List.forall_mem_nil _, List.forall_mem_nil _⟩
  | last, [p] => by
      refine ⟨[], [⟨p, []⟩], rfl, rfl, List.forall_mem_nil _, ?_⟩
      rw [List.forall_mem_singleton]
      exact List.forall_mem_nil _
  | last, p :: q :: ps => by
      rw [thinAfter]
      split_ifs with hfar
      · obtain ⟨dropped, stays, hps, hkept, hclose, hstays⟩ :=
          exists_stays_thinAfter length p (q :: ps)
        refine ⟨[], ⟨p, dropped⟩ :: stays, ?_, ?_, List.forall_mem_nil _, ?_⟩
        · rw [List.nil_append, List.flatMap_cons, Stay.points, List.cons_append, ← hps]
        · rw [List.map_cons, ← hkept]
        · exact List.forall_mem_cons.mpr ⟨hclose, hstays⟩
      · obtain ⟨dropped, stays, hps, hkept, hclose, hstays⟩ :=
          exists_stays_thinAfter length last (q :: ps)
        refine ⟨p :: dropped, stays, ?_, hkept, ?_, hstays⟩
        · rw [List.cons_append, ← hps]
        · exact List.forall_mem_cons.mpr ⟨not_le.mp hfar, hclose⟩

/-- Some vertices, thinned. -/
structure IsThinned (length : ℝ) (ps qs : List (Point ℝ)) : Prop where
  /-- What is dropped is close to the vertex that was kept last. -/
  stays : ∃ stays : List Stay, ps = stays.flatMap Stay.points ∧ qs = stays.map Stay.vertex ∧
    ∀ s ∈ stays, s.IsClose length
  /-- The vertices that are kept are in order. -/
  sublist : qs.Sublist ps
  /-- The first one is kept. -/
  head : qs.head? = ps.head?
  /-- The last one is kept. -/
  last : qs.getLast? = ps.getLast?
  /-- All but the last one are far from the one before. -/
  apart : qs.dropLast.IsChain fun p q => length ≤ distance p q
  /-- A path of one segment is left as it is. -/
  short : ps.length < 3 → qs = ps

variable {length : ℝ}

theorem isThinned_thinPoints (ps : List (Point ℝ)) :
    IsThinned length ps (thinPoints length ps) := by
  have hstays : ∃ stays : List Stay, ps = stays.flatMap Stay.points ∧
      thinPoints length ps = stays.map Stay.vertex ∧ ∀ s ∈ stays, s.IsClose length := by
    cases ps with
    | nil => exact ⟨[], rfl, rfl, List.forall_mem_nil _⟩
    | cons p ps =>
        obtain ⟨dropped, stays, hps, hkept, hclose, hstays⟩ :=
          exists_stays_thinAfter length p ps
        refine ⟨⟨p, dropped⟩ :: stays, ?_, ?_, List.forall_mem_cons.mpr ⟨hclose, hstays⟩⟩
        · rw [List.flatMap_cons, Stay.points, List.cons_append, ← hps]
        · rw [thinPoints, hkept, List.map_cons]
  have hsublist : (thinPoints length ps).Sublist ps := by
    obtain ⟨stays, hps, hkept, -⟩ := hstays
    rw [hkept, hps]
    exact sublist_stays stays
  refine ⟨hstays, hsublist, ?_, ?_, ?_, ?_⟩
  · cases ps <;> rfl
  · cases ps with
    | nil => rfl
    | cons p ps => rw [thinPoints, List.getLast?_cons, getLast?_thinAfter, List.getLast?_cons]
  · cases ps with
    | nil => exact .nil
    | cons p ps => exact isChain_thinAfter length p ps
  · intro hshort
    match ps with
    | [] => rfl
    | [p] => rfl
    | [p, q] => rfl
    | _ :: _ :: _ :: _ => simp only [List.length_cons] at hshort; omega

/-! ## Both -/

/-- Paths that are snapped, and then thinned. -/
def tidy {α : Type} [Scalar α] (grid length : α) (paths : List (CamPath α)) : List (CamPath α) :=
  (paths.map (snap grid)).map (thin length)

/-- A path that was snapped and thinned. -/
structure IsTidied (grid length : ℝ) (p q : CamPath ℝ) : Prop where
  /-- The path may be closed if it might before. -/
  safeToClose : q.safeToClose = p.safeToClose
  /-- Each vertex is snapped. -/
  snapped : List.Forall₂ (IsSnap grid) p.points (p.snap grid).points
  /-- What is snapped is thinned. -/
  thinned : IsThinned length (p.snap grid).points q.points

theorem thin_eq (hlength : 0 < length) (p : CamPath ℝ) :
    p.thin length = { p with points := thinPoints length p.points } := by
  rw [thin, if_neg]
  rw [Exact.zero_eq]
  exact hlength.not_ge

theorem isTidied_thin {grid : ℝ} (hgrid : 0 < grid) (hlength : 0 < length) (p : CamPath ℝ) :
    IsTidied grid length p ((p.snap grid).thin length) := by
  rw [thin_eq hlength]
  exact ⟨rfl, forall₂_isSnap hgrid p, isThinned_thinPoints _⟩

/-- What was snapped and thinned stays. -/
theorem IsTidied.snap_thin {grid : ℝ} (hgrid : 0 < grid) (hlength : 0 < length)
    (p : CamPath ℝ) :
    (((p.snap grid).thin length).snap grid).thin length = (p.snap grid).thin length := by
  have htidied := isTidied_thin hgrid hlength p
  have hsnap : ((p.snap grid).thin length).snap grid = (p.snap grid).thin length := by
    have hpoints : ∀ q ∈ ((p.snap grid).thin length).points, snapPoint grid q = q := by
      intro q hq
      obtain ⟨r, -, hr⟩ := List.mem_map.mp (htidied.thinned.sublist.subset hq)
      exact (hr ▸ isSnap_snapPoint hgrid r : IsSnap grid r q).snapPoint_eq hgrid.ne'
    rw [snap, List.map_congr_left hpoints, List.map_id']
  rw [hsnap, thin_eq hlength, thin_eq hlength, thinPoints_thinPoints]

/-- Snapping and thinning keep the paths and what is left of each of them is as `IsTidied` says.
The second time nothing is left to do. -/
theorem tidy_projects {grid : ℝ} (hgrid : 0 < grid) (hlength : 0 < length)
    (paths : List (CamPath ℝ)) :
    List.Forall₂ (IsTidied grid length) paths (tidy grid length paths) ∧
      tidy grid length (tidy grid length paths) = tidy grid length paths := by
  constructor
  · rw [tidy, List.map_map, List.forall₂_map_right_iff, List.forall₂_same]
    exact fun p _ => isTidied_thin hgrid hlength p
  · simp only [tidy, List.map_map]
    exact List.map_congr_left fun p _ => IsTidied.snap_thin hgrid hlength p

/-- A path off the grid whose second vertex is close to the first, and whose last one is close to
the one before it. -/
noncomputable def crookedPath : CamPath ℝ :=
  ⟨[⟨1 / 4, 0, 1⟩, ⟨3 / 4, 0, 2⟩, ⟨13 / 4, 0, 3⟩, ⟨4, 0, 4⟩], true⟩

theorem tidy_crookedPath :
    tidy 1 2 [crookedPath] = [⟨[⟨0, 0, 1⟩, ⟨3, 0, 3⟩, ⟨4, 0, 4⟩], true⟩] := by
  have hsnap : crookedPath.snap 1 = ⟨[⟨0, 0, 1⟩, ⟨1, 0, 2⟩, ⟨3, 0, 3⟩, ⟨4, 0, 4⟩], true⟩ := by
    norm_num [crookedPath, snap, snapPoint, snapCoordinate_eq, nearestInt, Int.floor_eq_iff,
      Int.fract]
  have hthin : thinPoints 2 [(⟨0, 0, 1⟩ : Point ℝ), ⟨1, 0, 2⟩, ⟨3, 0, 3⟩, ⟨4, 0, 4⟩]
      = [⟨0, 0, 1⟩, ⟨3, 0, 3⟩, ⟨4, 0, 4⟩] := by
    norm_num [thinPoints, thinAfter, distance, Exact.distance_eq, Real.le_sqrt]
  rw [tidy, List.map_singleton, List.map_singleton, hsnap, thin_eq two_pos, hthin]

/-- The vertex that is close to the first one is dropped, and the last one is not. -/
theorem tidy_projects_crookedPath :
    (0 : ℝ) < 1 ∧ (0 : ℝ) < 2 ∧
      List.Forall₂ (IsTidied 1 2) [crookedPath] [⟨[⟨0, 0, 1⟩, ⟨3, 0, 3⟩, ⟨4, 0, 4⟩], true⟩] ∧
      tidy 1 2 (tidy 1 2 [crookedPath]) = tidy 1 2 [crookedPath] := by
  obtain ⟨htidied, hsame⟩ := tidy_projects one_pos two_pos [crookedPath]
  exact ⟨one_pos, two_pos, tidy_crookedPath ▸ htidied, hsame⟩

end CamPath

/-- The paths of an operation are snapped and thinned. -/
theorem Operation.prepare_eq_tidy {α : Type} [Scalar α] (op : Operation α)
    (paths : List (CamPath α)) :
    op.prepare paths
      = CamPath.tidy (toInternal snapGrid) (toInternal op.segmentLength) paths := by
  rw [CamPath.tidy, List.map_map]
  rfl

end WireErosion
