import WireErosion.Proofs.Wear.ClosedForm
import WireErosion.Proofs.Wear.Spacing

/-!
# Wear along a subdivision

The points of a subdivision only break up ways that the wire takes anyway.  `wayFrom` and
`lastAuthored` are all that the worn depth is made of, and a subdivision changes neither
(`wayFrom_interleave`, `lastAuthored_interleave`).

While the wire is on a way to a waypoint it is charged for a part of it already, and what is left
of it is charged at the waypoint (`wayFrom_add_distance`).  This holds for a way on which an axis
is unknown as well, since no part of it is charged.  A block is therefore cut to the same depths
at each of its waypoints and ends at the same one (`applyWear_subdivide`).  At a move in between
that names a depth only it does not matter in the end, but it is put deeper when part of the way
is behind it.
-/

namespace WireErosion

variable {spacing : ℝ}

/-! ## The way -/

/-- Two tools on their way to the same waypoint have the same way after it. -/
theorem wayFrom_add_distance {a c b : Modal ℝ} : ∀ {ls : Program ℝ},
    nextWaypoint? a ls = some b → nextWaypoint? c ls = some b →
    wayFrom c ls + a.distance b = wayFrom a ls + c.distance b
  | .comment _ :: ls, ha, hc => by
      rw [nextWaypoint?] at ha hc
      rw [wayFrom, wayFrom]
      exact wayFrom_add_distance ha hc
  | .move m :: ls, ha, hc => by
      rw [nextWaypoint?] at ha hc
      rw [wayFrom, wayFrom]
      cases hm : m.hasXY with
      | true =>
          rw [hm, if_pos rfl, Option.some.injEq] at ha hc
          rw [ha, hc]
          ring
      | false =>
          rw [hm, if_neg (by simp)] at ha hc
          rw [Modal.after_of_not_hasXY hm, Modal.after_of_not_hasXY hm, Modal.distance_self,
            Modal.distance_self, zero_add, zero_add]
          exact wayFrom_add_distance ha hc

/-- What is left of the way when the tool has passed `k` of the points on it. -/
theorem wayFrom_points (hspacing : 0 < spacing) {m : Move ℝ} {a b : Modal ℝ} (hm : a.after m = a)
    (hknown : a.Known → b.Known) {rest : Program ℝ} (hnext : nextWaypoint? a rest = some b) :
    ∀ j k : ℕ, k + j = pointCount spacing (a.gap b) →
      wayFrom (a.toward ((k : ℝ) * spacing / a.gap b) b)
          (((List.range' k j).map fun i => pointOn m a b (((i + 1 : ℕ) : ℝ) * spacing)).map .move
            ++ rest)
        = wayFrom a rest - (k : ℝ) * spacing / a.gap b * a.distance b
  | 0, k, hk => by
      have hpart := part_le_one hspacing (a.gap_nonneg b) (by omega : k ≤ pointCount spacing _)
      have hway := wayFrom_add_distance hnext
        (nextWaypoint?_toward hnext ((k : ℝ) * spacing / a.gap b))
      rw [Modal.distance_toward_end hknown, abs_of_nonneg (sub_nonneg.mpr hpart)] at hway
      rw [List.range'_zero, List.map_nil, List.map_nil, List.nil_append]
      linarith
  | j + 1, k, hk => by
      have hlong := pos_of_lt_pointCount hspacing (by omega : k < pointCount spacing (a.gap b))
      have hstep : ((k + 1 : ℕ) : ℝ) * spacing / a.gap b - (k : ℝ) * spacing / a.gap b
          = spacing / a.gap b := by
        push_cast
        ring
      rw [List.range'_succ, List.map_cons, List.map_cons, List.cons_append, wayFrom,
        after_pointOn hm, wayFrom_points hspacing hm hknown hnext j (k + 1) (by omega),
        Modal.distance_toward hknown, hstep, abs_of_nonneg (div_nonneg hspacing.le hlong.le)]
      push_cast
      ring

theorem wayFrom_pointsAfter (hspacing : 0 < spacing) {m : Move ℝ} {a : Modal ℝ}
    (hm : a.after m = a) {ls rest : Program ℝ} (hnext : nextWaypoint? a rest = nextWaypoint? a ls) :
    wayFrom a ((pointsAfter spacing m a ls).map .move ++ rest) = wayFrom a rest := by
  rw [pointsAfter]
  cases hway : nextWaypoint? a ls with
  | none => rfl
  | some b =>
      obtain ⟨-, n, -, -, -, -, hb⟩ := nextWaypoint?_eq_some_iff.mp hway
      have hpoints := wayFrom_points hspacing hm (fun ha => hb ▸ ha.after n) (hnext.trans hway)
        (pointCount spacing (a.gap b)) 0 (zero_add _)
      rw [Nat.cast_zero, zero_mul, zero_div, Modal.toward_zero, zero_mul, sub_zero,
        ← List.range_eq_range'] at hpoints
      exact hpoints

/-- A subdivision leaves the way as long as it is. -/
theorem wayFrom_interleave (hspacing : 0 < spacing) : ∀ (ls : Program ℝ) (p : Modal ℝ),
    wayFrom p (interleave ls (insertions spacing p ls)) = wayFrom p ls
  | [], _ => rfl
  | .comment _ :: ls, p => wayFrom_interleave hspacing ls p
  | .move m :: ls, p => by
      rw [insertions, interleave, wayFrom, wayFrom]
      congr 1
      split
      next =>
        exact (wayFrom_pointsAfter hspacing (p.after_after m)
          (nextWaypoint?_interleave ..)).trans (wayFrom_interleave hspacing ls _)
      next => exact wayFrom_interleave hspacing ls _

/-! ## Authored depths -/

/-- Moves that name the depth that was named last, or none, do not change it. -/
theorem lastAuthored_moves_append {α : Type} {z : Option α} (d : α) (rest : Program α) :
    ∀ ms : List (Move α), (∀ m ∈ ms, m.z = z) →
      lastAuthored (z.getD d) (ms.map .move ++ rest) = lastAuthored (z.getD d) rest
  | [], _ => rfl
  | m :: ms, h => by
      have hsame : m.z.getD (z.getD d) = z.getD d := by
        rw [h m (List.mem_cons_self ..)]
        cases z <;> rfl
      rw [List.map_cons, List.cons_append, lastAuthored_move, hsame]
      exact lastAuthored_moves_append d rest ms fun n hn => h n (List.mem_cons_of_mem _ hn)

theorem z_of_mem_pointsAfter {m q : Move ℝ} {a : Modal ℝ} {ls : Program ℝ}
    (h : q ∈ pointsAfter spacing m a ls) : q.z = m.z := by
  rw [pointsAfter] at h
  split at h
  next =>
    obtain ⟨k, -, rfl⟩ := List.mem_map.mp h
    rfl
  next => cases h

theorem lastAuthored_interleave : ∀ (ls : Program ℝ) (p : Modal ℝ) (d : ℝ),
    lastAuthored d (interleave ls (insertions spacing p ls)) = lastAuthored d ls
  | [], _, _ => rfl
  | .comment _ :: ls, p, d => lastAuthored_interleave ls p d
  | .move m :: ls, p, d => by
      rw [insertions, interleave, lastAuthored_move, lastAuthored_move, lastAuthored_moves_append]
      · exact lastAuthored_interleave ls _ _
      · intro q hq
        split at hq
        next => exact z_of_mem_pointsAfter hq
        next => cases hq

/-! ## Fronts -/

theorem interleave_append {α : Type} (l : Line α) (post : Program α) :
    ∀ (pre : Program α) (points : List (List (Move α))),
      ∃ rest, interleave (pre ++ l :: post) points = interleave pre points ++ l :: rest
  | [], [] => ⟨post, rfl⟩
  | [], _ :: _ => ⟨_, rfl⟩
  | k :: pre, [] => ⟨post, rfl⟩
  | k :: pre, here :: points => by
      obtain ⟨rest, hrest⟩ := interleave_append l post pre points
      exact ⟨rest, by rw [List.cons_append, interleave, interleave, hrest, List.cons_append,
        List.append_assoc]⟩

/-- A waypoint hides what comes after it. -/
theorem nextWaypoint?_append {m : Move ℝ} (hm : m.hasXY = true) (post : Program ℝ) (a : Modal ℝ) :
    ∀ pre : Program ℝ,
      nextWaypoint? a (pre ++ Line.move m :: post) = nextWaypoint? a (pre ++ [Line.move m])
  | [] => by
      rw [List.nil_append, List.nil_append, nextWaypoint?, nextWaypoint?, if_pos hm, if_pos hm]
  | .comment _ :: pre => nextWaypoint?_append hm post a pre
  | .move n :: pre => by
      rw [List.cons_append, List.cons_append, nextWaypoint?, nextWaypoint?,
        nextWaypoint?_append hm post a pre]

/-- The front of a subdivision through a waypoint is a subdivision of the front. -/
theorem interleave_front {m : Move ℝ} (hm : m.hasXY = true) (post : Program ℝ) :
    ∀ (pre : Program ℝ) (p : Modal ℝ),
      interleave pre (insertions spacing p (pre ++ Line.move m :: post)) ++ [Line.move m]
        = interleave (pre ++ [Line.move m]) (insertions spacing p (pre ++ [Line.move m]))
  | [], p => by simp [insertions, interleave, pointsAfter, nextWaypoint?]
  | .comment t :: pre, p => by
      rw [List.cons_append, List.cons_append, insertions, insertions, interleave, interleave,
        List.map_nil, List.nil_append, List.nil_append, List.cons_append,
        interleave_front hm post pre]
  | .move n :: pre, p => by
      have hpoints : pointsAfter spacing n (p.after n) (pre ++ Line.move m :: post)
          = pointsAfter spacing n (p.after n) (pre ++ [Line.move m]) := by
        rw [pointsAfter, pointsAfter, nextWaypoint?_append hm]
      rw [List.cons_append, List.cons_append, insertions, insertions, interleave, interleave,
        hpoints, List.cons_append, List.append_assoc, interleave_front hm post pre]

/-- Subdivision does not change what a block is worn to.  It ends at the same depth, and each of its
moves that names a position is put at the same depth. -/
theorem applyWear_subdivide {spacing : ℝ} (hspacing : 0 < spacing) (ratio passDepth : ℝ)
    (ls : Program ℝ) :
    ∃ points : List (List (Move ℝ)), points.length = ls.length ∧
      subdivide spacing ls = .ok (interleave ls points) ∧
      (applyWear ratio passDepth (interleave ls points)).lastZ
        = (applyWear ratio passDepth ls).lastZ ∧
      ∀ (pre : Program ℝ) (m : Move ℝ) (post : Program ℝ), ls = pre ++ Line.move m :: post →
        m.hasXY = true → ∃ z,
        (applyWear ratio passDepth (interleave ls points)).lines[(interleave pre points).length]?
          = some (.move { m with z := some z }) ∧
        (applyWear ratio passDepth ls).lines[pre.length]? =
          some (.move { m with z := some z }) := by
  refine ⟨insertions spacing (none, none) ls, length_insertions ls _,
    subdivideFrom_eq hspacing ls _, ?_, ?_⟩
  · refine congrArg some ?_
    rw [depth_wearFrom, depth_wearFrom, lastAuthored_interleave, wayFrom_interleave hspacing]
  · rintro pre m post rfl hm
    obtain ⟨rest, hrest⟩ := interleave_append (.move m) post pre
      (insertions spacing (none, none) (pre ++ Line.move m :: post))
    refine ⟨_, ?_, wearFrom_move_at _ pre m post⟩
    rw [hrest]
    refine (wearFrom_move_at _ _ m rest).trans ?_
    rw [interleave_front hm, depth_wearFrom, depth_wearFrom, lastAuthored_interleave,
      wayFrom_interleave hspacing]

/-- One side with points on it ends as deep as without them. -/
theorem side_applyWear_subdivide :
    (0 : ℝ) < 2 / 5 ∧ ∃ points, subdivide (2 / 5) side = .ok (interleave side points) ∧
      (applyWear (1 / 10) 1 (interleave side points)).lastZ = some (-11 / 10) ∧
      (applyWear (1 / 10) 1
          (interleave side points)).lines[(interleave (side.take 2) points).length]?
        = some (.move (.linear (some 1) none (some (-11 / 10)) none none)) := by
  have hspacing : (0 : ℝ) < 2 / 5 := by norm_num
  obtain ⟨points, -, hsub, hlast, hmoves⟩ := applyWear_subdivide hspacing (1 / 10) 1 side
  obtain ⟨z, hz, hwhole⟩ := hmoves (side.take 2) _ [] rfl rfl
  have hway : wayFrom (none, none) side = 1 := by
    norm_num [side, wayFrom, Modal.after, Modal.distance, Line.cut, Move.linear]
  have hdepth : (wearFrom (1 / 10) ⟨(none, none), -1, -1⟩ side).1.depth = (-11 / 10 : ℝ) := by
    rw [depth_wearFrom, hway]
    norm_num [side, lastAuthored, authoredDepths, Line.cut, Move.linear]
  have hworn := hwhole.symm.trans (wearFrom_move_at _ (side.take 2) _ [])
  rw [Option.some.injEq, Line.move.injEq, Move.mk.injEq, Option.some.injEq] at hworn
  obtain ⟨-, -, -, hworn, -⟩ := hworn
  rw [hworn.trans hdepth] at hz
  exact ⟨hspacing, points, hsub, hlast.trans (congrArg some hdepth), hz⟩

end WireErosion
