import WireErosion.Proofs.Depth.Sinking

/-!
# Descents sink

A descent from one depth to a lower one never rises and ends at the lower one exactly.

A ramp gives each of its vertices the depth for the part of its way that is travelled there
(`rampDepth`).  The way out and back has the length that was added up for the way out, twice over
(`rampWay_length`, `outAndBack_length`), so the last vertex gets the depth at the end of the way.
`exists_descent` takes a descent apart into its marker, the moves before the last one, which go down
to `approachZ`, and the last one.
-/

namespace WireErosion

open CamPath (distance)

/-! ## Planned lines -/

/-- Planned lines without a fault that sink. -/
def Lands (a : Option ℝ) (ps : List (Planned ℝ)) (b : Option ℝ) : Prop :=
  ∃ ls : Program ℝ, ps = ls.map .ok ∧ Sinks a ls b

namespace Lands

variable {a b c : Option ℝ} {ps qs : List (Planned ℝ)}

theorem nil : Lands a [] a := ⟨[], rfl, .done⟩

theorem append (h : Lands a ps b) (h' : Lands b qs c) : Lands a (ps ++ qs) c := by
  obtain ⟨ls, rfl, hls⟩ := h
  obtain ⟨ls', rfl, hls'⟩ := h'
  exact ⟨ls ++ ls', List.map_append.symm, hls.append hls'⟩

theorem comment (t : String) (h : Lands a ps b) : Lands a (.ok (.comment t) :: ps) b := by
  obtain ⟨ls, rfl, hls⟩ := h
  exact ⟨.comment t :: ls, rfl, .comment t hls⟩

theorem level {z : ℝ} {m : Move ℝ} (hz : m.z = none) (h : Lands (some z) ps b) :
    Lands (some z) (planMove m :: ps) b := by
  obtain ⟨ls, rfl, hls⟩ := h
  exact ⟨.move m :: ls, rfl, .level hz hls⟩

theorem lower {z z' : ℝ} {m : Move ℝ} (hz : m.z = some z') (hle : z' ≤ z)
    (h : Lands (some z') ps b) : Lands (some z) (planMove m :: ps) b := by
  obtain ⟨ls, rfl, hls⟩ := h
  exact ⟨.move m :: ls, rfl, .lower hz hle hls⟩

theorem of_falls {z z' : ℝ} {ms : List (Move ℝ)} (h : Falls z ms z') :
    Lands (some z) (ms.map planMove) (some z') :=
  ⟨ms.map .move, by simp [planMove], h.sinks⟩

theorem lift {l : Line ℝ} (hl : l.IsRetract) (z : ℝ) :
    Lands a [.ok l, rapidToZ z] (some z) :=
  ⟨[l, .move (.rapid none none (some z))], rfl, .lift hl rfl .done⟩

end Lands

/-! ## The length of a ramp -/

/-- The length of the way from a vertex through some others. -/
noncomputable def wayLength (a : Point ℝ) : List (Point ℝ) → ℝ
  | [] => 0
  | b :: ps => distance a b + wayLength b ps

theorem distance_nonneg (a b : Point ℝ) : 0 ≤ distance a b := Exact.distance_nonneg ..

theorem distance_comm (a b : Point ℝ) : distance a b = distance b a := Exact.distance_comm ..

theorem distance_self (a : Point ℝ) : distance a a = 0 := by
  simp [distance, Exact.distance_eq]

theorem wayLength_append (a : Point ℝ) : ∀ ps qs : List (Point ℝ),
    wayLength a (ps ++ qs) = wayLength a ps + wayLength (ps.getLastD a) qs
  | [], qs => by simp [wayLength]
  | b :: ps, qs => by
      rw [List.cons_append, wayLength, wayLength, wayLength_append b ps qs, List.getLastD_cons,
        add_assoc]

/-- The length that is added up for the way out is that of the way out and back. -/
theorem rampWay_length (ideal total : ℝ) (a : Point ℝ) : ∀ ps : List (Point ℝ),
    (rampWay ideal total a ps).2 = total + 2 * wayLength a (rampWay ideal total a ps).1
  | [] => by simp [rampWay, wayLength]
  | b :: ps => by
      rw [rampWay]
      split
      · simp only [wayLength, distance, rampWay_length ideal _ b ps, Exact.two_eq]
        ring
      · simp [wayLength]

/-- A way out of some length goes to the next vertex first. -/
theorem rampWay_cons {ideal : ℝ} {a : Point ℝ} {ps : List (Point ℝ)}
    (h : 0 < (rampWay ideal 0 a ps).2) :
    ∃ way, (rampWay ideal 0 a ps).1 = ps.headD a :: way := by
  cases ps with
  | nil => exact absurd h (lt_irrefl 0)
  | cons b ps =>
      rw [rampWay] at h ⊢
      split at h
      next hideal =>
        rw [if_pos hideal]
        exact ⟨_, rfl⟩
      next => exact absurd h (lt_irrefl 0)

/-- The way out and back without its last vertex, which is the first one again. -/
def outAndAlmostBack (way : List (Point ℝ)) : List (Point ℝ) := way ++ way.dropLast.reverse

theorem outAndBack_eq (a : Point ℝ) (way : List (Point ℝ)) :
    outAndBack a way = outAndAlmostBack way ++ [a] := by
  rw [outAndBack, outAndAlmostBack, List.reverse_cons, List.append_assoc]

/-- The last vertex before the first one again is the one after it. -/
theorem getLastD_outAndAlmostBack (a b : Point ℝ) (way : List (Point ℝ)) :
    (outAndAlmostBack (b :: way)).getLastD a = b := by
  cases way with
  | nil => rfl
  | cons c way =>
      rw [outAndAlmostBack, List.dropLast_cons_cons, List.reverse_cons, ← List.append_assoc,
        List.getLastD_concat]

/-- The way back is as long as the way out. -/
theorem wayLength_back (a : Point ℝ) : ∀ ps : List (Point ℝ),
    wayLength (ps.getLastD a) (a :: ps.dropLast).reverse = wayLength a ps
  | [] => by simp [wayLength, distance_self]
  | [b] => by simp [wayLength, distance_comm]
  | b :: c :: ps => by
      have hlast : (b :: (c :: ps).dropLast).reverse.getLastD ((c :: ps).getLastD b) = b := by
        simp
      rw [List.getLastD_cons, List.dropLast_cons_cons, List.reverse_cons, wayLength_append,
        wayLength_back b (c :: ps), hlast]
      simp only [wayLength, distance_comm b a]
      ring

theorem outAndBack_length (a : Point ℝ) (way : List (Point ℝ)) :
    wayLength a (outAndBack a way) = 2 * wayLength a way := by
  rw [outAndBack, wayLength_append, wayLength_back]
  ring

/-! ## Ramps -/

/-- The depth of a ramp after a part of its way. -/
noncomputable def rampDepth (fromZ toZ total travelled : ℝ) : ℝ :=
  fromZ + travelled / total * (toZ - fromZ)

section

variable {fromZ toZ total : ℝ}

theorem rampDepth_zero : rampDepth fromZ toZ total 0 = fromZ := by
  simp [rampDepth]

theorem rampDepth_total (fromZ toZ : ℝ) (htotal : 0 < total) :
    rampDepth fromZ toZ total total = toZ := by
  rw [rampDepth, div_self htotal.ne']
  ring

theorem rampDepth_le (hlt : toZ < fromZ) (htotal : 0 < total) {s t : ℝ} (hst : s ≤ t) :
    rampDepth fromZ toZ total t ≤ rampDepth fromZ toZ total s := by
  have hparts : s / total ≤ t / total := div_le_div_of_nonneg_right hst htotal.le
  have hdown : toZ - fromZ ≤ 0 := by linarith
  have hmul := mul_le_mul_of_nonpos_right hparts hdown
  unfold rampDepth
  linarith

/-- The moves of a ramp go down to the depth after their way. -/
theorem exists_rampMoves (hlt : toZ < fromZ) (htotal : 0 < total) (a : Point ℝ) (travelled : ℝ) :
    ∀ ps : List (Point ℝ), ∃ ms : List (Move ℝ),
      rampMoves fromZ toZ total travelled a ps = ms.map planMove ∧
        Falls (rampDepth fromZ toZ total travelled) ms
          (rampDepth fromZ toZ total (travelled + wayLength a ps))
  | [] => by
      refine ⟨[], rfl, ?_⟩
      rw [wayLength, add_zero]
      exact .done
  | b :: ps => by
      obtain ⟨ms, hms, hfalls⟩ := exists_rampMoves hlt htotal b (travelled + distance a b) ps
      have hstep : travelled ≤ travelled + distance a b :=
        le_add_of_nonneg_right (distance_nonneg a b)
      refine ⟨.linear (some b.x) (some b.y)
        (some (rampDepth fromZ toZ total (travelled + distance a b))) none none :: ms, ?_, ?_⟩
      · rw [List.map_cons, ← hms]
        rfl
      · rw [wayLength, ← add_assoc]
        exact .step rfl (rampDepth_le hlt htotal hstep) hfalls

/-- All moves of a ramp go down to the depth after their way. -/
theorem exists_rampFrom (d : DescentParams ℝ) {time : ℝ} (hlt : toZ < fromZ) (htotal : 0 < total)
    (htime : time ≠ 0) (a : Point ℝ) : ∀ ps : List (Point ℝ), ∃ ms : List (Move ℝ),
      rampFrom d fromZ toZ total time a ps = ms.map planMove ∧
        Falls fromZ ms (rampDepth fromZ toZ total (wayLength a ps))
  | [] => by
      refine ⟨[], rfl, ?_⟩
      rw [wayLength, rampDepth_zero]
      exact .done
  | b :: ps => by
      obtain ⟨ms, hms, hfalls⟩ := exists_rampMoves hlt htotal b (distance a b) ps
      have hfirst := rampDepth_le hlt htotal (distance_nonneg a b)
      rw [rampDepth_zero] at hfirst
      refine ⟨.linear (some b.x) (some b.y) (some (rampDepth fromZ toZ total (distance a b)))
        (some (Scalar.min (total / time) d.cutFeed)) d.toolSpeed :: ms, ?_, .step rfl hfirst hfalls⟩
      rw [rampFrom, Exact.quotient_eq htime, Exact.zero_eq, zero_add, List.map_cons, ← hms]
      rfl

theorem rampMoves_append (a : Point ℝ) (travelled : ℝ) : ∀ ps qs : List (Point ℝ),
    rampMoves fromZ toZ total travelled a (ps ++ qs) =
      rampMoves fromZ toZ total travelled a ps
        ++ rampMoves fromZ toZ total (travelled + wayLength a ps) (ps.getLastD a) qs
  | [], qs => by simp [rampMoves, wayLength]
  | b :: ps, qs => by
      rw [List.cons_append, rampMoves, rampMoves_append b _ ps qs, List.getLastD_cons, wayLength,
        ← add_assoc]
      rfl

theorem rampFrom_append (d : DescentParams ℝ) (time : ℝ) (a b : Point ℝ) (ps qs : List (Point ℝ)) :
    rampFrom d fromZ toZ total time a (b :: ps ++ qs) =
      rampFrom d fromZ toZ total time a (b :: ps)
        ++ rampMoves fromZ toZ total (wayLength a (b :: ps)) ((b :: ps).getLastD a) qs := by
  rw [List.cons_append, rampFrom, rampFrom, rampMoves_append, List.getLastD_cons, wayLength,
    Exact.zero_eq, zero_add]
  rfl

end

/-! ## Descents -/

/-- The length of the way of a ramp, zero if there is none. -/
noncomputable def rampLength (d : DescentParams ℝ) (a : Point ℝ) (rest : List (Point ℝ))
    (fromZ toZ : ℝ) : ℝ :=
  (rampWay (d.cutFeed * ((fromZ - toZ) / d.plungeFeed)) 0 a rest).2

/-- The depth before the last move of a descent.  The last move of a ramp goes from the vertex after
the first one back to it. -/
noncomputable def approachZ (d : DescentParams ℝ) (a : Point ℝ) (rest : List (Point ℝ))
    (fromZ toZ : ℝ) : ℝ :=
  if d.ramp = true ∧ 0 < rampLength d a rest fromZ toZ then
    rampDepth fromZ toZ (rampLength d a rest fromZ toZ)
      (rampLength d a rest fromZ toZ - distance a (rest.headD a))
  else fromZ

section

variable {d : DescentParams ℝ} {a : Point ℝ} {rest : List (Point ℝ)} {fromZ toZ : ℝ}

/-- Straight down if there is no ramp, or no way for one. -/
theorem descent_eq_straightDown (hfeed : 0 < d.plungeFeed)
    (h : ¬ (d.ramp = true ∧ 0 < rampLength d a rest fromZ toZ)) :
    descent d a rest fromZ toZ = straightDown d toZ := by
  unfold descent
  split
  next hramped =>
    have htotal : ¬ 0 < rampLength d a rest fromZ toZ := fun htotal => h ⟨hramped, htotal⟩
    rw [ramp?, Exact.quotient_eq hfeed.ne']
    simp only [Exact.zero_eq]
    rw [← rampLength, if_pos (not_lt.mp htotal)]
    rfl
  next => rfl

/-- The way of a ramp goes to the next vertex first and comes back from it at the end. -/
theorem exists_rampWay (htotal : 0 < rampLength d a rest fromZ toZ) :
    ∃ way, (rampWay (d.cutFeed * ((fromZ - toZ) / d.plungeFeed)) 0 a rest).1 = rest.headD a :: way ∧
      rampLength d a rest fromZ toZ
        = wayLength a (outAndAlmostBack (rest.headD a :: way)) + distance (rest.headD a) a := by
  obtain ⟨way, hway⟩ := rampWay_cons htotal
  refine ⟨way, hway, ?_⟩
  have hsum := rampWay_length (d.cutFeed * ((fromZ - toZ) / d.plungeFeed)) 0 a rest
  rw [← rampLength, hway, zero_add, ← outAndBack_length, outAndBack_eq, wayLength_append,
    getLastD_outAndAlmostBack] at hsum
  simpa [wayLength] using hsum

/-- A ramp goes down to the approach depth, and then back to the first vertex to the depth that it
is made for. -/
theorem exists_ramp (hfeed : 0 < d.plungeFeed) (hlt : toZ < fromZ) (hramp : d.ramp = true)
    (htotal : 0 < rampLength d a rest fromZ toZ) :
    ∃ sink : List (Move ℝ),
      descent d a rest fromZ toZ = .ok .ramp
        :: (sink ++ [Move.linear (some a.x) (some a.y) (some toZ) none none]).map planMove ∧
      Falls fromZ sink (approachZ d a rest fromZ toZ) ∧
      toZ ≤ approachZ d a rest fromZ toZ := by
  have htime : (fromZ - toZ) / d.plungeFeed ≠ 0 := (div_pos (sub_pos.mpr hlt) hfeed).ne'
  obtain ⟨way, hway, hlength⟩ := exists_rampWay htotal
  obtain ⟨sink, hsink, hfalls⟩ := exists_rampFrom d hlt htotal htime a
    (outAndAlmostBack (rest.headD a :: way))
  have happroach : approachZ d a rest fromZ toZ
      = rampDepth fromZ toZ (rampLength d a rest fromZ toZ)
        (wayLength a (outAndAlmostBack (rest.headD a :: way))) := by
    have hbefore : rampLength d a rest fromZ toZ - distance a (rest.headD a)
        = wayLength a (outAndAlmostBack (rest.headD a :: way)) := by
      rw [hlength, distance_comm a]
      ring
    rw [approachZ, if_pos ⟨hramp, htotal⟩, hbefore]
  have hend := rampDepth_total fromZ toZ htotal
  refine ⟨sink, ?_, ?_, ?_⟩
  · have hrampFrom : rampFrom d fromZ toZ (rampLength d a rest fromZ toZ)
        ((fromZ - toZ) / d.plungeFeed) a (outAndBack a (rest.headD a :: way))
        = (sink ++ [Move.linear (some a.x) (some a.y) (some toZ) none none]).map planMove := by
      rw [outAndBack_eq, outAndAlmostBack, List.cons_append, rampFrom_append, ← List.cons_append,
        ← outAndAlmostBack, hsink, getLastD_outAndAlmostBack, List.map_append, rampMoves,
        ← distance, ← hlength]
      rw [rampDepth] at hend
      rw [hend]
      rfl
    rw [descent, if_pos hramp, ramp?, Exact.quotient_eq hfeed.ne']
    simp only [Exact.zero_eq]
    rw [← rampLength, if_neg (not_le.mpr htotal), hway, hrampFrom]
    rfl
  · rwa [happroach]
  · rw [happroach]
    nth_rewrite 1 [← hend]
    refine rampDepth_le hlt htotal ?_
    rw [hlength]
    exact le_add_of_nonneg_right (distance_nonneg _ _)

end

/-- A descent is a marker, moves that go down to the approach depth, and a move to the depth that it
is made for.  Straight down there is only the last move. -/
theorem exists_descent {d : DescentParams ℝ} (hfeed : 0 < d.plungeFeed) (a : Point ℝ)
    (rest : List (Point ℝ)) {fromZ toZ : ℝ} (hlt : toZ < fromZ) :
    ∃ (ramped : Bool) (sink : List (Move ℝ)) (terminal : Move ℝ),
      descent d a rest fromZ toZ =
        .ok (if ramped then .ramp else .plunge) :: (sink ++ [terminal]).map planMove ∧
      Falls fromZ sink (approachZ d a rest fromZ toZ) ∧
      toZ ≤ approachZ d a rest fromZ toZ ∧ terminal.z = some toZ ∧
      (ramped = false → sink = []) := by
  by_cases hramp : d.ramp = true ∧ 0 < rampLength d a rest fromZ toZ
  · obtain ⟨sink, hdescent, hfalls, happroach⟩ := exists_ramp hfeed hlt hramp.1 hramp.2
    exact ⟨true, sink, _, hdescent, hfalls, happroach, rfl, by simp⟩
  · have happroach : approachZ d a rest fromZ toZ = fromZ := by rw [approachZ, if_neg hramp]
    rw [descent_eq_straightDown hfeed hramp, happroach]
    exact ⟨false, [], .linear none none (some toZ) (some d.plungeFeed) d.toolSpeed, rfl, .done,
      hlt.le, rfl, fun _ => rfl⟩

/-- A descent sinks to the depth it is made for. -/
theorem lands_descent {d : DescentParams ℝ} (hfeed : 0 < d.plungeFeed) (a : Point ℝ)
    (rest : List (Point ℝ)) {fromZ toZ : ℝ} (hlt : toZ < fromZ) :
    Lands (some fromZ) (descent d a rest fromZ toZ) (some toZ) := by
  obtain ⟨ramped, sink, terminal, hdescent, hsink, happroach, hterminal, -⟩ :=
    exists_descent hfeed a rest hlt
  rw [hdescent]
  have hmoves := Lands.of_falls (hsink.append (.step hterminal happroach .done))
  cases ramped with
  | true => exact .comment _ hmoves
  | false => exact .comment _ hmoves

end WireErosion
