import Mathlib.Topology.Connected.TotallyDisconnected
import WireErosion.Proofs.Ordered
import WireErosion.Proofs.Toolpath.Coverage

/-!
# The sides of the runs of a path

A path that is split at a region falls into runs that take turns outside and inside of it.  What is
proved of all scalars is that nothing but the first run can be empty, that the runs join to the path
with points put in on its segments, and that each step of a run has its midpoint on the side of the
run (`SplitsAt`).

In exact arithmetic more is true, if the crossings of a segment include every place at which the
coverage changes along it (`FindsChanges`), and lengths are those of the plane (`Measures`).
Between two neighbouring crossings there is no change, so the whole step is on the side of its
midpoint.  Only near the ends of a segment, where crossings within the margin are left out, the
side of a point may be another one than that of its step.  A step of up to twice the margin may
even have its midpoint there, so twice the margin is left open at both ends (`splitRuns_sided`).
-/

namespace WireErosion

variable {α : Type}

/-! ## Steps -/

/-- The steps of a list of points, from each point to the next. -/
def steps : List (Point α) → List (Point α × Point α)
  | [] => []
  | [_] => []
  | a :: b :: ps => (a, b) :: steps (b :: ps)

/-- The steps of some runs, each with its side, where the first run is inside if `inside` and the
runs take turns. -/
def sidedSteps (inside : Bool) : List (List (Point α)) → List ((Point α × Point α) × Bool)
  | [] => []
  | run :: runs => (steps run).map (·, inside) ++ sidedSteps (!inside) runs

theorem mem_sidedSteps {step : Point α × Point α} : ∀ {runs : List (List (Point α))} {k : Nat}
    {run : List (Point α)} (inside : Bool), runs[k]? = some run → step ∈ steps run →
    (step, inside ^^ (k % 2 == 1)) ∈ sidedSteps inside runs
  | first :: _, 0, run, inside, hrun, hstep => by
      obtain rfl : first = run := Option.some.inj hrun
      exact List.mem_append_left _ (List.mem_map.mpr ⟨step, hstep, by simp⟩)
  | _ :: runs, k + 1, run, inside, hrun, hstep => by
      have hrest : (step, !inside ^^ (k % 2 == 1)) ∈ sidedSteps (!inside) runs :=
        mem_sidedSteps (!inside) hrun hstep
      have hside : (!inside ^^ (k % 2 == 1)) = (inside ^^ ((k + 1) % 2 == 1)) := by
        rcases Nat.mod_two_eq_zero_or_one k with hk | hk <;> simp [Nat.add_mod, hk]
      rw [hside] at hrest
      exact List.mem_append_right _ hrest

/-- A run starts where the runs before it ended. -/
theorem Joined.getLastD_take {runs : List (List (Point α))} {a : Point α} (h : Joined a runs) :
    ∀ {k : Nat} {b : Point α} {rest : List (Point α)}, runs[k]? = some (b :: rest) →
      (runs.take k).flatten.getLastD a = b := by
  induction runs generalizing a with
  | nil => exact fun hrun => nomatch hrun
  | cons run runs ih =>
      intro k b rest hrun
      cases k with
      | zero =>
          obtain rfl : run = b :: rest := Option.some.inj hrun
          exact h.1.symm
      | succ k =>
          cases run with
          | nil => exact ih h hrun
          | cons c cs =>
              have hrest := ih h.2 hrun
              rw [List.take_succ_cons, List.flatten_cons, List.cons_append, List.getLastD_cons,
                ← hrest]
              simp [List.getLastD_eq_getLast?, List.getLast?_append]

variable [Scalar α]

/-! ## Sorting the pieces into runs -/

/-- The steps of the runs are the pieces, each on the side of its run. -/
theorem sidedSteps_splitFrom (region : TabRegion α) : ∀ {pieces : List (Point α × Point α)}
    {a : Point α} (inside : Bool), Linked a pieces →
    sidedSteps inside ((a :: (splitFrom region inside true pieces).1)
          :: (splitFrom region inside true pieces).2)
        = pieces.map (fun piece => (piece, isInside region piece.1 piece.2)) ∧
      sidedSteps inside ((splitFrom region inside false pieces).1
          :: (splitFrom region inside false pieces).2)
        = pieces.map fun piece => (piece, isInside region piece.1 piece.2)
  | [], _, _, _ => ⟨rfl, rfl⟩
  | (_, b) :: pieces, a, inside, ⟨rfl, h⟩ => by
      have hsame := (sidedSteps_splitFrom region inside h).1
      have hother := (sidedSteps_splitFrom region (!inside) h).1
      simp only [sidedSteps] at hsame hother
      rw [splitFrom, splitFrom]
      split
      next hside =>
        simp only [if_true, Bool.false_eq_true, if_false, sidedSteps, steps, List.map_cons,
          List.cons_append, hsame, hside, and_self]
      next hside =>
        have hturn : isInside region a b = !inside := Bool.eq_not.mpr hside
        simp only [sidedSteps, steps, List.map_cons, List.map_nil, List.nil_append,
          List.cons_append, hother, hturn, and_self]

/-- Every run but the first has a step, and the first one has a step unless it is empty. -/
theorem length_splitFrom (region : TabRegion α) : ∀ (pieces : List (Point α × Point α))
    (inside started : Bool),
    (∀ run ∈ (splitFrom region inside started pieces).2, 2 ≤ run.length) ∧
      ((splitFrom region inside false pieces).1 = [] ∨
        2 ≤ (splitFrom region inside false pieces).1.length)
  | [], _, _ => ⟨by simp [splitFrom], .inl rfl⟩
  | (a, b) :: pieces, inside, started => by
      have hsame := (length_splitFrom region pieces inside true).1
      have hother := (length_splitFrom region pieces (!inside) true).1
      rw [splitFrom, splitFrom]
      split
      next =>
        exact ⟨hsame, .inr (by simp)⟩
      next =>
        exact ⟨List.forall_mem_cons.mpr ⟨by simp, hother⟩, .inl rfl⟩

/-! ## Points on the way -/

/-- A path with points put in on its segments, in the order of the way. -/
inductive Threads : List (Point α) → List (Point α) → Prop
  | last (a : Point α) : Threads [a] [a]
  | segment {a b : Point α} {ts : List α} {ps qs : List (Point α)} :
      (∀ t ∈ ts, margin < t ∧ t < Scalar.one - margin) → ts.Pairwise (· < ·) →
      Threads (b :: ps) qs → Threads (a :: b :: ps) (a :: ts.map (pointAt a b) ++ qs)

theorem mem_of_mem_insertWay {t u : α} : ∀ {us : List α}, u ∈ insertWay t us → u = t ∨ u ∈ us
  | [], h => .inl (List.mem_singleton.mp h)
  | v :: us, h => by
      rw [insertWay] at h
      split at h
      next => simpa using h
      next =>
        split at h
        next =>
          rcases List.mem_cons.mp h with rfl | h
          · exact .inr (List.mem_cons_self ..)
          · exact (mem_of_mem_insertWay h).imp_right (List.mem_cons_of_mem _)
        next => exact .inr h

variable [OrderedScalar α]

theorem pairwise_insertWay (t : α) : ∀ {us : List α}, us.Pairwise (· < ·) →
    (insertWay t us).Pairwise (· < ·)
  | [], _ => List.pairwise_singleton _ _
  | u :: us, h => by
      obtain ⟨hu, hus⟩ := List.pairwise_cons.mp h
      rw [insertWay]
      split
      next ht =>
        refine List.pairwise_cons.mpr ⟨List.forall_mem_cons.mpr ⟨ht, fun v hv => ?_⟩, h⟩
        exact OrderedScalar.lt_of_lt_of_le ht (OrderedScalar.le_of_lt (hu v hv))
      next =>
        split
        next ht =>
          refine List.pairwise_cons.mpr ⟨fun v hv => ?_, pairwise_insertWay t hus⟩
          rcases mem_of_mem_insertWay hv with rfl | hv
          · exact ht
          · exact hu v hv
        next => exact h

theorem pairwise_breakWays (region : TabRegion α) (a b : Point α) :
    (breakWays region a b).Pairwise (· < ·) := by
  have hways : ∀ hits : List (α × α), (hits.foldr (fun hit ts =>
      insertWay (region.project a b hit / region.length a b) ts) []).Pairwise (· < ·) := by
    intro hits
    induction hits with
    | nil => exact List.Pairwise.nil
    | cons hit hits ih => exact pairwise_insertWay _ ih
  exact (hways _).filter _

omit [OrderedScalar α] in
theorem of_mem_breakWays {region : TabRegion α} {a b : Point α} {t : α}
    (h : t ∈ breakWays region a b) : margin < t ∧ t < Scalar.one - margin := by
  simpa using (List.mem_filter.mp h).2

theorem threads_refined (region : TabRegion α) : ∀ (a : Point α) (ps : List (Point α)),
    Threads (a :: ps) (refined region (a :: ps))
  | a, [] => .last a
  | a, b :: ps => by
      rw [refined, breakPoints]
      split
      next =>
        have hnone : ∀ t ∈ ([] : List α), margin < t ∧ t < Scalar.one - margin := by simp
        exact .segment hnone List.Pairwise.nil (threads_refined region b ps)
      next =>
        exact .segment (fun t ht => of_mem_breakWays ht) (pairwise_breakWays region a b)
          (threads_refined region b ps)

/-! ## Runs -/

/-- The runs of the path `a :: ps` that is split at a region. -/
structure SplitsAt (region : TabRegion α) (a : Point α) (ps : List (Point α))
    (runs : List (List (Point α))) : Prop where
  /-- Only the first run may be empty. -/
  short : ∀ k run, runs[k]? = some run → (k = 0 ∧ run = []) ∨ 2 ≤ run.length
  /-- A run starts at the last point of the runs before it, or at the first point of the path. -/
  joined : ∀ k b rest, runs[k]? = some (b :: rest) → (runs.take k).flatten.getLastD a = b
  /-- Joined at the points that they share the runs are the path, with points put in. -/
  threads : Threads (a :: ps) (a :: runs.flatMap List.tail)
  /-- Each step has its midpoint on the side of its run. -/
  sided : ∀ k run, runs[k]? = some run → ∀ step ∈ steps run,
    region.covers ((step.1.x + step.2.x) / Scalar.two) ((step.1.y + step.2.y) / Scalar.two)
      = (k % 2 == 1)

omit [OrderedScalar α] in
/-- A path with a segment is split piece by piece. -/
theorem splitRuns_eq (region : TabRegion α) (a b : Point α) (ps : List (Point α)) :
    splitRuns region (a :: b :: ps)
      = (splitFrom region false false (pathPieces region (a :: b :: ps))).1
        :: (splitFrom region false false (pathPieces region (a :: b :: ps))).2 := by
  rw [splitRuns, if_neg (by simp)]

omit [OrderedScalar α] in
/-- A step of a run is a piece of the path that is on the side of the run. -/
theorem mem_pathPieces_of_step {region : TabRegion α} {a b : Point α} {ps : List (Point α)}
    {k : Nat} {run : List (Point α)} (hrun : (splitRuns region (a :: b :: ps))[k]? = some run)
    {step : Point α × Point α} (hstep : step ∈ steps run) :
    step ∈ pathPieces region (a :: b :: ps) ∧ isInside region step.1 step.2 = (k % 2 == 1) := by
  have hsteps := (sidedSteps_splitFrom region false (linked_pathPieces region a (b :: ps))).2
  rw [← splitRuns_eq] at hsteps
  have hmem := mem_sidedSteps false hrun hstep
  rw [hsteps, Bool.false_xor] at hmem
  obtain ⟨piece, hpiece, heq⟩ := List.mem_map.mp hmem
  obtain ⟨rfl, hside⟩ := Prod.mk.inj heq
  exact ⟨hpiece, hside⟩

theorem splitsAt_splitRuns (region : TabRegion α) (a b : Point α) (ps : List (Point α)) :
    SplitsAt region a (b :: ps) (splitRuns region (a :: b :: ps)) where
  short := by
    intro k run hrun
    obtain ⟨hothers, hfirst⟩ :=
      length_splitFrom region (pathPieces region (a :: b :: ps)) false false
    rw [splitRuns_eq] at hrun
    cases k with
    | zero =>
        obtain rfl := Option.some.inj hrun
        exact hfirst.imp_left fun h => ⟨rfl, h⟩
    | succ k => exact .inr (hothers run (List.mem_of_getElem? hrun))
  joined := fun _ _ _ hrun => (joined_splitRuns region a (b :: ps)).getLastD_take hrun
  threads := by
    rw [tails_splitRuns]
    exact threads_refined region a (b :: ps)
  sided := fun _ _ hrun _ hstep => (mem_pathPieces_of_step hrun hstep).2

/-! ## Coverage along a segment -/

section

variable {region : TabRegion ℝ} {a b : Point ℝ}

/-- Whether the region covers the point at the part `t` of the way from `a` to `b`. -/
noncomputable def TabRegion.coversAt (region : TabRegion ℝ) (a b : Point ℝ) (t : ℝ) : Bool :=
  region.covers (pointAt a b t).x (pointAt a b t).y

/-- The coverage changes at the part `t` of the way from `a` to `b`: however near to it, there is a
point of the segment that is covered if the one at `t` is not, or the other way around. -/
def TabRegion.ChangesAt (region : TabRegion ℝ) (a b : Point ℝ) (t : ℝ) : Prop :=
  ∀ ε > 0, ∃ u ∈ Set.Icc (0 : ℝ) 1, |u - t| < ε ∧ region.coversAt a b u ≠ region.coversAt a b t

/-- The crossings of the segment from `a` to `b` include every place at which the coverage changes
along it. -/
def TabRegion.FindsChanges (region : TabRegion ℝ) (a b : Point ℝ) : Prop :=
  ∀ t ∈ Set.Icc (0 : ℝ) 1, region.ChangesAt a b t →
    ((pointAt a b t).x, (pointAt a b t).y) ∈ region.crossings a b

/-- The segment from `a` to `b` has its length in the plane, and a position on it is as far along it
as the part of the way to there says. -/
structure TabRegion.Measures (region : TabRegion ℝ) (a b : Point ℝ) : Prop where
  /-- The length is the distance of the ends. -/
  length : region.length a b = √((b.x - a.x) ^ 2 + (b.y - a.y) ^ 2)
  /-- The position at the part `t` of the way is that part of the length along the segment. -/
  project : ∀ t ∈ Set.Icc (0 : ℝ) 1, region.project a b ((pointAt a b t).x, (pointAt a b t).y)
    = t * region.length a b

/-- Where the coverage does not change it is the same. -/
theorem coversAt_eq_of_not_changesAt {l r u v : ℝ} (hl : 0 ≤ l) (hr : r ≤ 1)
    (h : ∀ t ∈ Set.Ioo l r, ¬ region.ChangesAt a b t) (hu : u ∈ Set.Ioo l r)
    (hv : v ∈ Set.Ioo l r) : region.coversAt a b u = region.coversAt a b v := by
  refine isPreconnected_Ioo.constant (f := region.coversAt a b) (fun t ht => ?_) hu hv
  have hsteady := h t ht
  simp only [TabRegion.ChangesAt, not_forall, not_exists, not_and, not_ne_iff] at hsteady
  obtain ⟨ε, hε, hnear⟩ := hsteady
  have hconstant : region.coversAt a b =ᶠ[nhds t] fun _ => region.coversAt a b t := by
    filter_upwards [Ioo_mem_nhds ht.1 ht.2, Metric.ball_mem_nhds t hε] with s hs hball
    exact hnear s ⟨hl.trans hs.1.le, hs.2.le.trans hr⟩ (by rwa [← Real.dist_eq])
  exact (continuousAt_const.congr hconstant.symm).continuousWithinAt

/-! ## Where a segment is broken up -/

theorem TabRegion.Measures.length_eq_zero_iff (h : region.Measures a b) :
    region.length a b = 0 ↔ a.x = b.x ∧ a.y = b.y := by
  rw [h.length, Real.sqrt_eq_zero (add_nonneg (sq_nonneg _) (sq_nonneg _)), sq, sq,
    mul_self_add_mul_self_eq_zero, sub_eq_zero, sub_eq_zero]
  exact and_congr eq_comm eq_comm

theorem pointAt_zero (a b : Point ℝ) : pointAt a b 0 = a := by
  simp [pointAt]

theorem pointAt_one (a b : Point ℝ) : pointAt a b 1 = b := by
  simp [pointAt]

/-- A crossing at a part of the way is found there. -/
theorem TabRegion.Measures.project_div_length (h : region.Measures a b)
    (hlong : region.length a b ≠ 0) {t : ℝ} (ht : t ∈ Set.Icc (0 : ℝ) 1) :
    region.project a b ((pointAt a b t).x, (pointAt a b t).y) / region.length a b = t := by
  rw [h.project t ht]
  exact mul_div_cancel_right₀ t hlong

theorem mem_insertWay {t u : ℝ} : ∀ {us : List ℝ}, u = t ∨ u ∈ us → u ∈ insertWay t us
  | [], h => by simpa [insertWay] using h
  | v :: us, h => by
      rw [insertWay]
      split
      next => simpa using h
      next hle =>
        split
        next =>
          rw [List.mem_cons] at h ⊢
          rcases h with rfl | rfl | h
          · exact .inr (mem_insertWay (.inl rfl))
          · exact .inl rfl
          · exact .inr (mem_insertWay (.inr h))
        next hge =>
          obtain rfl : t = v := le_antisymm (not_lt.mp hge) (not_lt.mp hle)
          simpa using h

/-- A place that is found is one at which the segment is broken up, unless it is within the margin
of an end. -/
theorem mem_breakWays (hmeasures : region.Measures a b) (hlong : region.length a b ≠ 0) {t : ℝ}
    (hlow : margin < t) (hhigh : t < 1 - margin)
    (h : ((pointAt a b t).x, (pointAt a b t).y) ∈ region.crossings a b) :
    t ∈ breakWays region a b := by
  have hmargin : (0 : ℝ) < margin := by norm_num [margin]
  have hfound : ∀ {hits : List (ℝ × ℝ)}, ((pointAt a b t).x, (pointAt a b t).y) ∈ hits →
      t ∈ hits.foldr (fun hit ts =>
        insertWay (region.project a b hit / region.length a b) ts) [] := by
    intro hits hhit
    induction hits with
    | nil => cases hhit
    | cons hit hits ih =>
        refine mem_insertWay ?_
        rcases List.mem_cons.mp hhit with rfl | hhit
        · exact .inl (hmeasures.project_div_length hlong ⟨by linarith, by linarith⟩).symm
        · exact .inr (ih hhit)
  exact List.mem_filter.mpr ⟨hfound h, by simp [hlow, hhigh]⟩

/-! ## Pieces -/

/-- A piece of a segment goes from one place at which it is broken up to the next, where the ends of
the segment count as such places too. -/
theorem of_mem_piecesThrough {piece : Point ℝ × Point ℝ} : ∀ {ts : List ℝ} {s : ℝ} {p : Point ℝ},
    p = pointAt a b s → s < 1 → (s :: ts).Pairwise (· < ·) → (∀ t ∈ ts, t < 1) →
    piece ∈ piecesThrough p b (ts.map (pointAt a b)) →
    ∃ l r, s ≤ l ∧ l < r ∧ r ≤ 1 ∧ piece = (pointAt a b l, pointAt a b r) ∧
      ∀ t ∈ ts, t ≤ l ∨ r ≤ t
  | [], s, _, rfl, hone, _, _, hpiece => by
      obtain rfl := List.mem_singleton.mp hpiece
      exact ⟨s, 1, le_rfl, hone, le_rfl, by rw [pointAt_one], by simp⟩
  | t :: ts, s, _, rfl, _, hsorted, hbelow, hpiece => by
      obtain ⟨hfirst, hrest⟩ := List.pairwise_cons.mp hsorted
      obtain ⟨ht, hts⟩ := List.forall_mem_cons.mp hbelow
      have hst := hfirst t (List.mem_cons_self ..)
      rcases List.mem_cons.mp hpiece with rfl | hpiece
      · refine ⟨s, t, le_rfl, hst, ht.le, rfl, List.forall_mem_cons.mpr ⟨.inr le_rfl, ?_⟩⟩
        exact fun u hu => .inr ((List.pairwise_cons.mp hrest).1 u hu).le
      · obtain ⟨l, r, hl, hlr, hr, heq, hgap⟩ := of_mem_piecesThrough rfl ht hrest hts hpiece
        exact ⟨l, r, hst.le.trans hl, hlr, hr, heq, List.forall_mem_cons.mpr ⟨.inl hl, hgap⟩⟩

/-- The region covers the point at the part `u` of the way if it covers the middle of the piece from
`l` to `r`, for all `u` of the piece but those within twice the margin of an end of the segment. -/
theorem coversAt_of_mem_segmentPieces (hmeasures : region.Measures a b)
    (hfinds : region.FindsChanges a b) {piece : Point ℝ × Point ℝ}
    (h : piece ∈ segmentPieces region a b) :
    ∃ l r, 0 ≤ l ∧ l < r ∧ r ≤ 1 ∧ piece = (pointAt a b l, pointAt a b r) ∧
      ∀ u, l < u → u < r → 2 * margin < u → u < 1 - 2 * margin →
        region.coversAt a b u = isInside region piece.1 piece.2 := by
  have hmargin : (0 : ℝ) < margin := by norm_num [margin]
  have hmiddle : ∀ l r, isInside region (pointAt a b l) (pointAt a b r)
      = region.coversAt a b ((l + r) / 2) := by
    intro l r
    simp only [isInside, TabRegion.coversAt, pointAt, Exact.two_eq]
    congr 1 <;> ring
  have hbeq : (region.length a b == Scalar.zero) = decide (region.length a b = 0) := by
    rw [Exact.zero_eq]
    rfl
  rw [segmentPieces_eq, breakPoints, hbeq] at h
  by_cases hlong : region.length a b = 0
  · rw [hlong, decide_eq_true rfl, if_pos rfl] at h
    obtain rfl := List.mem_singleton.mp h
    obtain ⟨hx, hy⟩ := hmeasures.length_eq_zero_iff.mp hlong
    have hends := hmiddle 0 1
    rw [pointAt_zero, pointAt_one] at hends
    refine ⟨0, 1, le_rfl, one_pos, le_rfl, by rw [pointAt_zero, pointAt_one], fun u _ _ _ _ => ?_⟩
    rw [hends]
    simp [TabRegion.coversAt, pointAt, hx, hy]
  · rw [decide_eq_false hlong, if_neg (by simp)] at h
    have hways : ∀ t ∈ breakWays region a b, margin < t ∧ t < 1 - margin := by
      intro t ht
      have hinner := of_mem_breakWays ht
      rwa [Exact.one_eq] at hinner
    obtain ⟨l, r, hl, hlr, hr, rfl, hgap⟩ := of_mem_piecesThrough (pointAt_zero a b).symm one_pos
      (List.pairwise_cons.mpr
        ⟨fun t ht => hmargin.trans (hways t ht).1, pairwise_breakWays region a b⟩)
      (fun t ht => by linarith [(hways t ht).2]) h
    refine ⟨l, r, hl, hlr, hr, rfl, fun u hlu hur hlow hhigh => ?_⟩
    -- A change between the ends of the piece is one that is left out, so it is near an end.
    have hsteady : ∀ t ∈ Set.Ioo (max l margin) (min r (1 - margin)),
        ¬ region.ChangesAt a b t := by
      intro t ht hchanges
      obtain ⟨htl, htmargin⟩ := max_lt_iff.mp ht.1
      obtain ⟨htr, htend⟩ := lt_min_iff.mp ht.2
      have hbreak := mem_breakWays hmeasures hlong htmargin htend
        (hfinds t ⟨by linarith, by linarith⟩ hchanges)
      rcases hgap t hbreak with hle | hle <;> linarith
    rw [hmiddle]
    refine coversAt_eq_of_not_changesAt (hl.trans (le_max_left _ _)) ((min_le_left _ _).trans hr)
      hsteady ⟨max_lt hlu ?_, lt_min hur ?_⟩ ⟨max_lt ?_ ?_, lt_min ?_ ?_⟩ <;> linarith

end

omit [OrderedScalar α] in
theorem exists_segment_of_mem_pathPieces {region : TabRegion α} {piece : Point α × Point α} :
    ∀ {points : List (Point α)}, piece ∈ pathPieces region points →
      ∃ segment ∈ steps points, piece ∈ segmentPieces region segment.1 segment.2
  | a :: b :: ps, h => by
      rcases List.mem_append.mp h with hhere | hlater
      · exact ⟨(a, b), List.mem_cons_self .., hhere⟩
      · obtain ⟨segment, hsegment, hpiece⟩ := exists_segment_of_mem_pathPieces hlater
        exact ⟨segment, List.mem_cons_of_mem _ hsegment, hpiece⟩

/-! ## The theorem -/

/-- A path that is split at a region falls into runs that take turns outside and inside of it.  In
exact arithmetic all of a step is on the side of its run, apart from twice the margin at the ends of
its segment, if the region measures as the plane does and its crossings include all changes of
coverage. -/
theorem splitRuns_sided :
    (∀ (α : Type) [Scalar α] [OrderedScalar α] (region : TabRegion α) (a b : Point α)
      (ps : List (Point α)),
      SplitsAt region a (b :: ps) (splitRuns region (a :: b :: ps))) ∧
    ∀ (region : TabRegion ℝ) (a b : Point ℝ) (ps : List (Point ℝ)),
      (∀ segment ∈ steps (a :: b :: ps), region.Measures segment.1 segment.2) →
      (∀ segment ∈ steps (a :: b :: ps), region.FindsChanges segment.1 segment.2) →
      ∀ k run, (splitRuns region (a :: b :: ps))[k]? = some run → ∀ step ∈ steps run,
        ∃ segment ∈ steps (a :: b :: ps), step ∈ segmentPieces region segment.1 segment.2 ∧
          ∃ l r, 0 ≤ l ∧ l < r ∧ r ≤ 1 ∧
            step = (pointAt segment.1 segment.2 l, pointAt segment.1 segment.2 r) ∧
            ∀ u, l < u → u < r → 2e-9 < u → u < 1 - 2e-9 →
              region.coversAt segment.1 segment.2 u = (k % 2 == 1) := by
  refine ⟨fun α _ _ region a b ps => splitsAt_splitRuns region a b ps, ?_⟩
  intro region a b ps hmeasures hfinds k run hrun step hstep
  obtain ⟨hpiece, hside⟩ := mem_pathPieces_of_step hrun hstep
  obtain ⟨segment, hsegment, hmem⟩ := exists_segment_of_mem_pathPieces hpiece
  obtain ⟨l, r, hl, hlr, hr, heq, hcovers⟩ :=
    coversAt_of_mem_segmentPieces (hmeasures segment hsegment) (hfinds segment hsegment) hmem
  have hmargin : 2 * (margin : ℝ) = 2e-9 := by norm_num [margin]
  rw [hmargin, hside] at hcovers
  exact ⟨segment, hsegment, hmem, l, r, hl, hlr, hr, heq, hcovers⟩

/-- Numbers that are nearer to each other than the one of them is to `c` are on the same side
of `c`. -/
theorem same_side {c t u : ℝ} (h : |u - t| < |t - c|) : (c ≤ u ↔ c ≤ t) ∧ (u ≤ c ↔ t ≤ c) := by
  obtain ⟨hlow, hhigh⟩ := abs_lt.mp h
  rcases abs_cases (t - c) with ⟨habs, hsign⟩ | ⟨habs, hsign⟩
  · exact ⟨⟨fun _ => by linarith, fun _ => by linarith⟩,
      ⟨fun _ => by linarith, fun _ => by linarith⟩⟩
  · exact ⟨⟨fun _ => by linarith, fun _ => by linarith⟩,
      ⟨fun _ => by linarith, fun _ => by linarith⟩⟩

theorem planeDistance_pointAt (a b : Point ℝ) {t : ℝ} (ht : 0 ≤ t) :
    planeDistance a ((pointAt a b t).x, (pointAt a b t).y) = t * planeDistance a (b.x, b.y) := by
  have hsquares : ((pointAt a b t).x - a.x) ^ 2 + ((pointAt a b t).y - a.y) ^ 2
      = t ^ 2 * ((b.x - a.x) ^ 2 + (b.y - a.y) ^ 2) := by
    simp only [pointAt]
    ring
  rw [planeDistance, planeDistance, hsquares, Real.sqrt_mul (sq_nonneg t), Real.sqrt_sq ht]

theorem measures_planeRegion (covers : ℝ → ℝ → Bool)
    (crossings : Point ℝ → Point ℝ → List (ℝ × ℝ)) (a b : Point ℝ) :
    (planeRegion covers crossings).Measures a b where
  length := rfl
  project _ ht := planeDistance_pointAt a b ht.1

/-- The crossings of the strip are its sides, and nowhere else does a segment along the first axis
enter or leave it. -/
theorem strip_findsChanges : strip.FindsChanges ⟨0, 0, 0⟩ ⟨9, 0, 0⟩ := by
  intro t _ hchanges
  have hcovers : ∀ u, strip.coversAt ⟨0, 0, 0⟩ ⟨9, 0, 0⟩ u = decide (1 / 3 ≤ u ∧ u ≤ 2 / 3) := by
    intro u
    simp only [TabRegion.coversAt, strip, planeRegion, pointAt]
    refine decide_eq_decide.mpr (and_congr ?_ ?_) <;> constructor <;> intro h <;> linarith
  have hside : t = 1 / 3 ∨ t = 2 / 3 := by
    by_contra hno
    obtain ⟨hthird, htwo⟩ := not_or.mp hno
    obtain ⟨u, -, hnear, hne⟩ := hchanges (min |t - 1 / 3| |t - 2 / 3|)
      (lt_min (abs_pos.mpr (sub_ne_zero.mpr hthird)) (abs_pos.mpr (sub_ne_zero.mpr htwo)))
    obtain ⟨hfirst, hsecond⟩ := lt_min_iff.mp hnear
    rw [hcovers, hcovers] at hne
    exact hne (decide_eq_decide.mpr (and_congr (same_side hfirst).1 (same_side hsecond).2))
  rcases hside with rfl | rfl <;> norm_num [strip, planeRegion, pointAt]

/-- A segment across a strip is split at both of its sides. -/
theorem strip_splitRuns_sided :
    strip.Measures ⟨0, 0, 0⟩ ⟨9, 0, 0⟩ ∧ strip.FindsChanges ⟨0, 0, 0⟩ ⟨9, 0, 0⟩ ∧
    ∀ k run, (splitRuns strip [⟨0, 0, 0⟩, ⟨9, 0, 0⟩])[k]? = some run → ∀ step ∈ steps run,
      ∃ segment ∈ steps [(⟨0, 0, 0⟩ : Point ℝ), ⟨9, 0, 0⟩],
        step ∈ segmentPieces strip segment.1 segment.2 ∧
        ∃ l r, 0 ≤ l ∧ l < r ∧ r ≤ 1 ∧
          step = (pointAt segment.1 segment.2 l, pointAt segment.1 segment.2 r) ∧
          ∀ u, l < u → u < r → 2e-9 < u → u < 1 - 2e-9 →
            strip.coversAt segment.1 segment.2 u = (k % 2 == 1) :=
  ⟨measures_planeRegion .., strip_findsChanges, splitRuns_sided.2 strip _ _ []
    (List.forall_mem_singleton.mpr (measures_planeRegion ..))
    (List.forall_mem_singleton.mpr strip_findsChanges)⟩

end WireErosion
