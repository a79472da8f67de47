import WireErosion.Proofs.Depth.Descent

/-!
# Ramps

A ramp goes out along the first vertices of a run and back the same way, and has a depth at each of
these stops (`rampStops`).  How many vertices there are is decided on the way out
(`exists_rampWay_take`): it goes on until the way out and back is long enough, or to the end of the
run.  So it has no length only if no side of the run has one (`rampWay_nonpos_iff`).

The length that was added up is that of the way out and back, and from one stop to the next the
depth falls by the part of the way between them (`isChain_rampStops`).  Everything that a ramp
promises (`RampPlan.IsRamp`) comes from these two facts: where it ends, that it never rises, and
that the descent is no faster than straight down.
-/

namespace WireErosion

open scoped Exact

open CamPath (distance)

/-! ## The way -/

theorem wayLength_nonneg (a : Point ℝ) : ∀ ps : List (Point ℝ), 0 ≤ wayLength a ps
  | [] => le_rfl
  | b :: ps => add_nonneg (distance_nonneg a b) (wayLength_nonneg b ps)

/-- The way out goes through the first vertices, all of them unless it gets long enough. -/
theorem exists_rampWay_take (ideal : ℝ) : ∀ (ps : List (Point ℝ)) (total : ℝ) (a : Point ℝ),
    ∃ n ≤ ps.length, (rampWay ideal total a ps).1 = ps.take n ∧
      (n < ps.length → ideal < (rampWay ideal total a ps).2)
  | [], _, _ => ⟨0, le_rfl, rfl, fun h => absurd h (lt_irrefl 0)⟩
  | b :: ps, total, a => by
      rw [rampWay]
      split
      next hshort =>
        obtain ⟨n, hn, hway, hlong⟩ := exists_rampWay_take ideal ps
          (total + Scalar.two * Scalar.distance a.x a.y b.x b.y) b
        refine ⟨n + 1, Nat.succ_le_succ hn, ?_, fun h => hlong (Nat.lt_of_succ_lt_succ h)⟩
        rw [List.take_succ_cons, ← hway]
      next hlong => exact ⟨0, Nat.zero_le _, rfl, fun _ => not_le.mp hlong⟩

/-- The way out and back has no length exactly if no side of the run has one. -/
theorem rampWay_nonpos_iff {ideal : ℝ} (hideal : 0 ≤ ideal) : ∀ (a : Point ℝ) (ps : List (Point ℝ)),
    (rampWay ideal 0 a ps).2 ≤ 0 ↔ (a :: ps).IsChain fun p q => ¬ 0 < distance p q
  | a, [] => by simp [rampWay]
  | a, b :: ps => by
      rw [List.isChain_cons_cons]
      by_cases hside : 0 < distance a b
      · refine iff_of_false (not_le.mpr ?_) fun h => h.1 hside
        rw [rampWay_length, rampWay, if_pos hideal, wayLength]
        have hrest := wayLength_nonneg b
          (rampWay ideal (0 + Scalar.two * Scalar.distance a.x a.y b.x b.y) b ps).1
        linarith
      · have hzero : (0 : ℝ) + Scalar.two * Scalar.distance a.x a.y b.x b.y = 0 := by
          have hdistance : distance a b = 0 := le_antisymm (not_lt.mp hside) (distance_nonneg a b)
          rw [← distance, hdistance]
          simp
        rw [rampWay, if_pos hideal, hzero, ← rampWay_nonpos_iff hideal b ps]
        exact (and_iff_right hside).symm

/-- The way out and back through the first vertices of a run. -/
theorem outAndBack_take {a : Point ℝ} {rest : List (Point ℝ)} {n : ℕ} (hpos : 0 < n)
    (hn : n ≤ rest.length) : outAndBack a (rest.take n) =
      ((a :: rest).take (n + 1)).tail ++ ((a :: rest).take n).reverse := by
  obtain ⟨n, rfl⟩ := Nat.exists_eq_succ_of_ne_zero hpos.ne'
  have hdrop : (rest.take (n + 1)).dropLast = rest.take n := by
    rw [List.dropLast_eq_take, List.length_take, min_eq_left hn, List.take_take]
    simp
  rw [outAndBack, hdrop]
  rfl

/-! ## Stops -/

/-- The vertices after `a` with the depths of a ramp, where `travelled` is the length of the way to
`a`. -/
noncomputable def stopsFrom (fromZ toZ total travelled : ℝ) (a : Point ℝ) :
    List (Point ℝ) → List (Point ℝ × ℝ)
  | [] => []
  | b :: ps =>
    (b, rampDepth fromZ toZ total (travelled + distance a b))
      :: stopsFrom fromZ toZ total (travelled + distance a b) b ps

/-- The move to a stop. -/
def stopMove (f s : Option ℝ) (stop : Point ℝ × ℝ) : Move ℝ :=
  .linear (some stop.1.x) (some stop.1.y) (some stop.2) f s

section

variable {fromZ toZ total : ℝ}

theorem map_fst_stopsFrom (travelled : ℝ) (a : Point ℝ) : ∀ ps : List (Point ℝ),
    (stopsFrom fromZ toZ total travelled a ps).map Prod.fst = ps
  | [] => rfl
  | b :: ps => by rw [stopsFrom, List.map_cons, map_fst_stopsFrom _ b ps]

theorem rampMoves_eq (travelled : ℝ) (a : Point ℝ) : ∀ ps : List (Point ℝ),
    rampMoves fromZ toZ total travelled a ps =
      (stopsFrom fromZ toZ total travelled a ps).map fun stop => planMove (stopMove none none stop)
  | [] => rfl
  | b :: ps => by
      rw [rampMoves, stopsFrom, List.map_cons, ← rampMoves_eq]
      rfl

/-- Each stop has the depth for the part of the way that is travelled there. -/
theorem depth_stopsFrom : ∀ (ps : List (Point ℝ)) (travelled : ℝ) (a : Point ℝ) (k : ℕ)
    (hk : k < (stopsFrom fromZ toZ total travelled a ps).length),
    (stopsFrom fromZ toZ total travelled a ps)[k].2 =
      rampDepth fromZ toZ total (travelled + wayLength a (ps.take (k + 1)))
  | b :: ps, travelled, a, 0, _ => by simp [stopsFrom, wayLength]
  | b :: ps, travelled, a, k + 1, hk => by
      simp only [stopsFrom, List.getElem_cons_succ, List.take_succ_cons, wayLength, ← add_assoc]
      exact depth_stopsFrom ps (travelled + distance a b) b k _

/-- From one stop to the next the depth falls by the part of the way between them. -/
theorem isChain_stopsFrom : ∀ (ps : List (Point ℝ)) (travelled : ℝ) (a : Point ℝ),
    ((a, rampDepth fromZ toZ total travelled) :: stopsFrom fromZ toZ total travelled a ps).IsChain
      fun p q => p.2 - q.2 = distance p.1 q.1 / total * (fromZ - toZ)
  | [], _, _ => .singleton _
  | b :: ps, travelled, a => by
      rw [stopsFrom, List.isChain_cons_cons]
      refine ⟨?_, isChain_stopsFrom ps _ b⟩
      simp only [rampDepth]
      ring

/-- The last stop has the depth at the end of the way. -/
theorem getLast?_stopsFrom (c : Point ℝ) : ∀ (ps : List (Point ℝ)) (travelled : ℝ) (a : Point ℝ),
    (stopsFrom fromZ toZ total travelled a (ps ++ [c])).getLast? =
      some (c, rampDepth fromZ toZ total (travelled + wayLength a (ps ++ [c])))
  | [], travelled, a => by simp [stopsFrom, wayLength]
  | b :: ps, travelled, a => by
      have ih := getLast?_stopsFrom c ps (travelled + distance a b) b
      rw [List.cons_append, stopsFrom, List.getLast?_cons, ih, wayLength, ← add_assoc]
      rfl

/-- The moves of a ramp go to its stops, the first one at the feed of the ramp. -/
theorem rampFrom_eq (d : DescentParams ℝ) {time : ℝ} (htime : time ≠ 0) {a : Point ℝ}
    {ps : List (Point ℝ)} {first : Point ℝ × ℝ} {others : List (Point ℝ × ℝ)}
    (hstops : stopsFrom fromZ toZ total 0 a ps = first :: others) :
    rampFrom d fromZ toZ total time a ps =
      planMove (stopMove (some (min (total / time) d.cutFeed)) d.toolSpeed first)
        :: others.map fun stop => planMove (stopMove none none stop) := by
  cases ps with
  | nil => cases hstops
  | cons b ps =>
      obtain ⟨rfl, rfl⟩ := List.cons_eq_cons.mp hstops
      rw [rampFrom, Exact.quotient_eq htime, Exact.zero_eq, rampMoves_eq, ← Exact.min_eq]
      rfl

end

/-- The stops of a ramp along some vertices after `a`. -/
noncomputable def rampStops (fromZ toZ : ℝ) (a : Point ℝ) (ps : List (Point ℝ)) :
    List (Point ℝ × ℝ) :=
  stopsFrom fromZ toZ (wayLength a ps) 0 a ps

section

variable {fromZ toZ : ℝ} {a : Point ℝ} {ps : List (Point ℝ)}

theorem map_fst_rampStops : (rampStops fromZ toZ a ps).map Prod.fst = ps := map_fst_stopsFrom 0 a ps

theorem length_rampStops : (rampStops fromZ toZ a ps).length = ps.length := by
  rw [← List.length_map Prod.fst, map_fst_rampStops]

theorem depth_rampStops (k : ℕ) (hk : k < (rampStops fromZ toZ a ps).length) :
    (rampStops fromZ toZ a ps)[k].2 =
      rampDepth fromZ toZ (wayLength a ps) (wayLength a (ps.take (k + 1))) := by
  have hdepth := depth_stopsFrom ps 0 a k hk
  rwa [zero_add] at hdepth

theorem isChain_rampStops : ((a, fromZ) :: rampStops fromZ toZ a ps).IsChain fun p q =>
    p.2 - q.2 = distance p.1 q.1 / wayLength a ps * (fromZ - toZ) := by
  have hchain :
      ((a, rampDepth fromZ toZ (wayLength a ps) 0) :: rampStops fromZ toZ a ps).IsChain _ :=
    isChain_stopsFrom ps 0 a
  rwa [rampDepth_zero] at hchain

/-- The last stop has the depth that the ramp is made for. -/
theorem getLast?_rampStops {front : List (Point ℝ)} {c : Point ℝ}
    (htotal : 0 < wayLength a (front ++ [c])) :
    (rampStops fromZ toZ a (front ++ [c])).getLast? = some (c, toZ) := by
  rw [rampStops, getLast?_stopsFrom, zero_add, rampDepth_total _ _ htotal]

variable (hlt : toZ < fromZ) (htotal : 0 < wayLength a ps)
include hlt htotal

/-- From one stop to the next a ramp never rises. -/
theorem rampStops_falls : (fromZ :: (rampStops fromZ toZ a ps).map Prod.snd).IsChain (· ≥ ·) := by
  have hchain : (((a, fromZ) :: rampStops fromZ toZ a ps).map Prod.snd).IsChain (· ≥ ·) := by
    rw [List.isChain_map]
    refine isChain_rampStops.imp fun p q hdrop => ?_
    have hnonneg : 0 ≤ distance p.1 q.1 / wayLength a ps * (fromZ - toZ) :=
      mul_nonneg (div_nonneg (distance_nonneg _ _) htotal.le) (sub_pos.mpr hlt).le
    linarith
  exact hchain

/-- No stop is outside the depths of the ramp. -/
theorem rampStops_within :
    ∀ stop ∈ rampStops fromZ toZ a ps, toZ ≤ stop.2 ∧ stop.2 ≤ fromZ := by
  intro stop hstop
  obtain ⟨k, hk, rfl⟩ := List.mem_iff_getElem.mp hstop
  rw [depth_rampStops]
  have hsplit := wayLength_append a (ps.take (k + 1)) (ps.drop (k + 1))
  rw [List.take_append_drop] at hsplit
  have hrest := wayLength_nonneg ((ps.take (k + 1)).getLastD a) (ps.drop (k + 1))
  constructor
  · calc toZ = rampDepth fromZ toZ (wayLength a ps) (wayLength a ps) :=
          (rampDepth_total fromZ toZ htotal).symm
      _ ≤ _ := rampDepth_le hlt htotal (by linarith)
  · calc _ ≤ rampDepth fromZ toZ (wayLength a ps) 0 :=
          rampDepth_le hlt htotal (wayLength_nonneg _ _)
      _ = fromZ := rampDepth_zero

end

/-! ## The feed -/

/-- At a feed that takes at least the time of the descent straight down for the whole way, no part
of the way goes down faster. -/
theorem rampStops_slow {fromZ toZ feed plungeFeed : ℝ} {a : Point ℝ} {ps : List (Point ℝ)}
    (hplunge : 0 < plungeFeed) (htotal : 0 < wayLength a ps)
    (hfeed : feed * ((fromZ - toZ) / plungeFeed) ≤ wayLength a ps) :
    ((a, fromZ) :: rampStops fromZ toZ a ps).IsChain fun p q =>
      feed * (p.2 - q.2) ≤ plungeFeed * distance p.1 q.1 := by
  have hwhole : feed * (fromZ - toZ) / wayLength a ps ≤ plungeFeed := by
    rw [div_le_iff₀ htotal, ← div_le_iff₀' hplunge, mul_div_assoc]
    exact hfeed
  refine isChain_rampStops.imp fun p q hdrop => ?_
  calc feed * (p.2 - q.2) = feed * (fromZ - toZ) / wayLength a ps * distance p.1 q.1 := by
        rw [hdrop]
        ring
    _ ≤ plungeFeed * distance p.1 q.1 := mul_le_mul_of_nonneg_right hwhole (distance_nonneg _ _)

/-- The length of the straight way from one position to another, the depths included. -/
noncomputable def slopeLength (p q : Point ℝ × ℝ) : ℝ :=
  Real.sqrt (distance p.1 q.1 ^ 2 + (p.2 - q.2) ^ 2)

theorem distance_le_slopeLength (p q : Point ℝ × ℝ) : distance p.1 q.1 ≤ slopeLength p q :=
  Real.le_sqrt_of_sq_le (le_add_of_nonneg_right (sq_nonneg _))

/-! ## What a ramp promises -/

/-- The moves of a ramp: a feed, and the stops that they go to. -/
structure RampPlan where
  /-- How many vertices of the run it goes out along. -/
  used : ℕ
  /-- The feed on the first move. -/
  feed : ℝ
  /-- The first stop. -/
  first : Point ℝ × ℝ
  /-- The other stops. -/
  others : List (Point ℝ × ℝ)

namespace RampPlan

/-- All stops. -/
def stops (r : RampPlan) : List (Point ℝ × ℝ) := r.first :: r.others

/-- The vertices of the stops. -/
def way (r : RampPlan) : List (Point ℝ) := r.stops.map Prod.fst

/-- The lines of a ramp.  Only the first move has a feed and a speed. -/
def lines (d : DescentParams ℝ) (r : RampPlan) : List (Planned ℝ) :=
  .ok .ramp :: planMove (stopMove (some r.feed) d.toolSpeed r.first)
    :: r.others.map fun stop => planMove (stopMove none none stop)

/-- A plan is one of a ramp at the start of the run `a :: rest`. -/
structure IsRamp (r : RampPlan) (d : DescentParams ℝ) (a : Point ℝ) (rest : List (Point ℝ))
    (fromZ toZ : ℝ) : Prop where
  /-- It goes out along at least one side of the run. -/
  two_le_used : 2 ≤ r.used
  /-- It does not leave the run. -/
  used_le : r.used ≤ (a :: rest).length
  /-- There is a stop for each side on the way out and for each one on the way back. -/
  length_stops : r.stops.length = 2 * (r.used - 1)
  /-- It goes out along the first vertices of the run and back. -/
  way_eq : r.way = ((a :: rest).take r.used).tail ++ ((a :: rest).take (r.used - 1)).reverse
  /-- The depth falls in proportion to the distance. -/
  depth_eq : ∀ k (hk : k < r.stops.length), r.stops[k].2 =
    rampDepth fromZ toZ (wayLength a r.way) (wayLength a (r.way.take (k + 1)))
  /-- It never rises. -/
  falls : (fromZ :: r.stops.map Prod.snd).IsChain (· ≥ ·)
  /-- It stays between its two depths. -/
  within : ∀ stop ∈ r.stops, toZ ≤ stop.2 ∧ stop.2 ≤ fromZ
  /-- It ends where it starts, at the depth that it is made for. -/
  ends : r.stops.getLast? = some (a, toZ)
  /-- The way takes longer than the descent straight down, unless the run has no more vertices. -/
  long_enough : r.used < (a :: rest).length →
    d.cutFeed * ((fromZ - toZ) / d.plungeFeed) < wayLength a r.way
  /-- The feed is the one at which the way takes as long as the descent straight down, or that of a
  cut if that is less. -/
  feed_eq : r.feed = min (wayLength a r.way / ((fromZ - toZ) / d.plungeFeed)) d.cutFeed
  /-- There is a feed. -/
  feed_pos : 0 < r.feed
  /-- The feed is at most that of a cut. -/
  feed_le : r.feed ≤ d.cutFeed
  /-- Where the feed counts in the plane, no move goes down faster than straight down. -/
  slow : ((a, fromZ) :: r.stops).IsChain fun p q =>
    r.feed * (p.2 - q.2) ≤ d.plungeFeed * distance p.1 q.1
  /-- Where the feed counts along the slope, no move is faster in the plane than a cut, or goes down
  faster than straight down. -/
  slow_slope : ((a, fromZ) :: r.stops).IsChain fun p q =>
    r.feed * distance p.1 q.1 ≤ d.cutFeed * slopeLength p q ∧
      r.feed * (p.2 - q.2) ≤ d.plungeFeed * slopeLength p q

end RampPlan

section

variable {d : DescentParams ℝ} {a : Point ℝ} {rest : List (Point ℝ)} {fromZ toZ : ℝ}

/-- A plan with the stops of the way out and back along the first vertices of a run is one of a
ramp, at the feed for the length of that way. -/
theorem RampPlan.isRamp_of_stops {r : RampPlan} (hplunge : 0 < d.plungeFeed) (hcut : 0 < d.cutFeed)
    (hlt : toZ < fromZ) {n : ℕ} {way : List (Point ℝ)} (hn : n ≤ rest.length)
    (hused : r.used = n + 1) (hway : outAndBack a (rest.take n) = way)
    (hstops : r.stops = rampStops fromZ toZ a way) (htotal : 0 < wayLength a way)
    (hlong : n < rest.length → d.cutFeed * ((fromZ - toZ) / d.plungeFeed) < wayLength a way)
    (hfeed : r.feed = min (wayLength a way / ((fromZ - toZ) / d.plungeFeed)) d.cutFeed) :
    r.IsRamp d a rest fromZ toZ := by
  have hside : 0 < n := by
    refine Nat.pos_of_ne_zero fun hzero => htotal.ne' ?_
    rw [← hway, outAndBack_length, hzero]
    simp [wayLength]
  have hvertices : way = ((a :: rest).take (n + 1)).tail ++ ((a :: rest).take n).reverse :=
    hway.symm.trans (outAndBack_take hside hn)
  have hplanned : r.way = way := by rw [RampPlan.way, hstops, map_fst_rampStops]
  have htime : 0 < (fromZ - toZ) / d.plungeFeed := div_pos (sub_pos.mpr hlt) hplunge
  have hpos : 0 < r.feed := hfeed.symm ▸ lt_min (div_pos htotal htime) hcut
  have hle : r.feed ≤ d.cutFeed := hfeed.symm ▸ min_le_right _ _
  have hlasts : r.feed * ((fromZ - toZ) / d.plungeFeed) ≤ wayLength a way :=
    (le_div_iff₀ htime).mp (hfeed.symm ▸ min_le_left _ _)
  have hslow := rampStops_slow hplunge htotal hlasts
  exact {
    two_le_used := by omega
    used_le := by simpa [hused] using hn
    length_stops := by
      rw [hstops, length_rampStops, hvertices, hused]
      simp
      omega
    way_eq := by rw [hplanned, hused, hvertices, Nat.add_sub_cancel]
    depth_eq := by
      rw [hplanned]
      simp only [hstops]
      exact depth_rampStops
    falls := by
      rw [hstops]
      exact rampStops_falls hlt htotal
    within := by
      rw [hstops]
      exact rampStops_within hlt htotal
    ends := by
      rw [hstops]
      rw [← hway, outAndBack_eq] at htotal ⊢
      exact getLast?_rampStops htotal
    long_enough := by
      rw [hplanned, hused]
      exact fun h => hlong (Nat.lt_of_succ_lt_succ h)
    feed_eq := by rw [hplanned, hfeed]
    feed_pos := hpos
    feed_le := hle
    slow := by rwa [hstops]
    slow_slope := by
      rw [hstops]
      refine hslow.imp fun p q hdrop => ⟨?_, hdrop.trans ?_⟩
      · exact mul_le_mul hle (distance_le_slopeLength p q) (distance_nonneg _ _) hcut.le
      · exact mul_le_mul_of_nonneg_left (distance_le_slopeLength p q) hplunge.le }

/-- A ramp with some length has a plan. -/
theorem exists_rampPlan (hplunge : 0 < d.plungeFeed) (hcut : 0 < d.cutFeed) (hlt : toZ < fromZ)
    {way : List (Point ℝ)} {total : ℝ}
    (hrampWay : rampWay (d.cutFeed * ((fromZ - toZ) / d.plungeFeed)) 0 a rest = (way, total))
    (htotal : 0 < total) :
    ∃ r : RampPlan, r.IsRamp d a rest fromZ toZ ∧
      .ok .ramp :: rampFrom d fromZ toZ total ((fromZ - toZ) / d.plungeFeed) a (outAndBack a way)
        = r.lines d := by
  have htime : 0 < (fromZ - toZ) / d.plungeFeed := div_pos (sub_pos.mpr hlt) hplunge
  obtain ⟨n, hn, htake, hlong⟩ :=
    exists_rampWay_take (d.cutFeed * ((fromZ - toZ) / d.plungeFeed)) rest 0 a
  have hlength := rampWay_length (d.cutFeed * ((fromZ - toZ) / d.plungeFeed)) 0 a rest
  rw [hrampWay] at htake hlong hlength
  obtain rfl : total = wayLength a (outAndBack a way) := by
    rw [outAndBack_length]
    linarith
  obtain ⟨first, others, hstops⟩ :
      ∃ first others, rampStops fromZ toZ a (outAndBack a way) = first :: others := by
    refine List.exists_cons_of_length_pos ?_
    rw [length_rampStops, outAndBack_eq, List.length_append]
    exact Nat.succ_pos _
  refine ⟨⟨n + 1, min (wayLength a (outAndBack a way) / ((fromZ - toZ) / d.plungeFeed)) d.cutFeed,
    first, others⟩, ?_, ?_⟩
  · exact RampPlan.isRamp_of_stops hplunge hcut hlt hn rfl (by rw [← htake]) hstops.symm htotal
      hlong rfl
  · rw [rampFrom_eq d htime.ne' hstops]
    rfl

/-- There is no ramp exactly if no side of the run has a length.  Otherwise it goes out along the
first vertices of the run and back, down to its depth in proportion to the distance, and no faster
than straight down. -/
theorem ramp_goesOutAndBack (hplunge : 0 < d.plungeFeed) (hcut : 0 < d.cutFeed)
    (hlt : toZ < fromZ) :
    (ramp? d a rest fromZ toZ = none ↔ (a :: rest).IsChain fun p q => ¬ 0 < distance p q) ∧
    ∀ planned, ramp? d a rest fromZ toZ = some planned →
      ∃ r : RampPlan, r.IsRamp d a rest fromZ toZ ∧ planned = r.lines d := by
  have hideal : 0 ≤ d.cutFeed * ((fromZ - toZ) / d.plungeFeed) :=
    mul_nonneg hcut.le (div_nonneg (sub_pos.mpr hlt).le hplunge.le)
  rw [← rampWay_nonpos_iff hideal]
  obtain ⟨⟨way, total⟩, hrampWay⟩ :
      ∃ w, rampWay (d.cutFeed * ((fromZ - toZ) / d.plungeFeed)) 0 a rest = w := ⟨_, rfl⟩
  rw [ramp?, Exact.quotient_eq hplunge.ne']
  simp only [Exact.zero_eq, hrampWay]
  split
  next hnone => exact ⟨iff_of_true rfl hnone, fun planned h => by cases h⟩
  next hsome =>
    obtain ⟨r, hr, hlines⟩ := exists_rampPlan hplunge hcut hlt hrampWay (not_le.mp hsome)
    refine ⟨iff_of_false (by simp) hsome, fun planned h => ⟨r, hr, ?_⟩⟩
    rw [← hlines]
    exact (Option.some.inj h).symm

end

/-- A descent at a quarter of the cutting feed. -/
noncomputable def steepDescent : DescentParams ℝ := ⟨true, 50, 200, none⟩

/-- The first side of the run is long enough for a ramp of one millimeter, and a run that stays at
one vertex has none. -/
theorem steepDescent_goesOutAndBack :
    (∃ r : RampPlan, r.IsRamp steepDescent ⟨0, 0, 0⟩ [⟨3, 4, 0⟩, ⟨3, 4, 0⟩, ⟨6, 8, 0⟩] 0 (-1) ∧
      ramp? steepDescent ⟨0, 0, 0⟩ [⟨3, 4, 0⟩, ⟨3, 4, 0⟩, ⟨6, 8, 0⟩] 0 (-1)
        = some (r.lines steepDescent)) ∧
    ramp? steepDescent ⟨3, 4, 0⟩ [⟨3, 4, 0⟩] 0 (-1) = none := by
  have hplunge : 0 < steepDescent.plungeFeed := by norm_num [steepDescent]
  have hcut : 0 < steepDescent.cutFeed := by norm_num [steepDescent]
  have hlt : (-1 : ℝ) < 0 := by norm_num
  constructor
  · have hside : 0 < distance (⟨0, 0, 0⟩ : Point ℝ) ⟨3, 4, 0⟩ := Real.sqrt_pos.mpr (by norm_num)
    have hsome : ramp? steepDescent ⟨0, 0, 0⟩ [⟨3, 4, 0⟩, ⟨3, 4, 0⟩, ⟨6, 8, 0⟩] 0 (-1) ≠ none :=
      fun hnone =>
        have hshort := (ramp_goesOutAndBack hplunge hcut hlt).1.mp hnone
        (List.isChain_cons_cons.mp hshort).1 hside
    obtain ⟨planned, hplanned⟩ := Option.ne_none_iff_exists'.mp hsome
    obtain ⟨r, hr, hlines⟩ := (ramp_goesOutAndBack hplunge hcut hlt).2 planned hplanned
    exact ⟨r, hr, by rw [hplanned, hlines]⟩
  · refine (ramp_goesOutAndBack hplunge hcut hlt).1.mpr ?_
    rw [List.isChain_cons_cons, distance_self]
    exact ⟨lt_irrefl 0, .singleton _⟩

end WireErosion
