import WireErosion.Proofs.Wear.Neutral

/-!
# Where the lines of a subdivision are reached

The points of a way come right after the move that it begins at.  So the lines that stand between
two waypoints, which name no position, are reached at the last point of the way and not at its
beginning.  `Modal.along` is where that is.

The tool is there in front of every line of the block, which one line keeps (`Modal.after_along`,
`positionAfter_pointsAfter`), so by induction over the lines that are behind it is there in front
of each one (`positionAfter_interleave`).  A line that names a position names the end of the way,
or goes on along an axis that did not change, and is reached at the same position as in the block.
-/

namespace WireErosion

open scoped Exact

variable {spacing : ℝ}

/-! ## The last point of a way -/

/-- The last point of the way that begins at a position, where the given lines are those that
follow, or the position itself if there is none. -/
noncomputable def Modal.along (spacing : ℝ) (here : Modal ℝ) (ls : Program ℝ) : Modal ℝ :=
  match nextWaypoint? here ls with
  | some there => here.toward (pointCount spacing (here.gap there) * spacing / here.gap there) there
  | none => here

namespace Modal

/-- Before any position is known there is no way. -/
theorem along_start (ls : Program ℝ) :
    along spacing (none, none) ls = (none, none) := by
  rw [along]
  split <;> rfl

/-- A move that names a position leads from the last point of the way to the same position as from
its beginning. -/
theorem after_along {m : Move ℝ} (hm : m.hasXY = true) (here : Modal ℝ) (ls : Program ℝ) :
    (along spacing here (.move m :: ls)).after m = here.after m := by
  rw [along, nextWaypoint?, if_pos hm]
  exact here.after_toward _ m

/-- A line that names no position is passed on the same way. -/
theorem along_cons {l : Line ℝ} (hl : ∀ m, l = .move m → m.hasXY = false) (here : Modal ℝ)
    (ls : Program ℝ) : along spacing here (l :: ls) = along spacing here ls := by
  cases l with
  | comment t => rfl
  | move m => rw [along, nextWaypoint?, hl m rfl, if_neg (by simp), ← along]

end Modal

/-- The tool goes through all points of a way. -/
theorem positionAfter_pointsOn {m : Move ℝ} {a : Modal ℝ} (hm : a.after m = a) (b : Modal ℝ) :
    ∀ n : ℕ, positionAfter a
        (((List.range n).map fun k => pointOn m a b (((k + 1 : ℕ) : ℝ) * spacing)).map .move)
      = a.toward (n * spacing / a.gap b) b
  | 0 => by
      rw [Nat.cast_zero, zero_mul, zero_div, Modal.toward_zero]
      rfl
  | n + 1 => by
      rw [List.range_succ, List.map_append, List.map_append, positionAfter_append,
        positionAfter_pointsOn hm b n]
      exact after_pointOn hm _ _ b

theorem positionAfter_pointsAfter {m : Move ℝ} {a : Modal ℝ} (hm : a.after m = a)
    (ls : Program ℝ) :
    positionAfter a ((pointsAfter spacing m a ls).map .move) = a.along spacing ls := by
  rw [pointsAfter, Modal.along]
  cases nextWaypoint? a ls with
  | none => rfl
  | some b => exact positionAfter_pointsOn hm b _

/-! ## The lines of a block -/

/-- In front of the lines `post` the tool is at the last point of the way there, if it was so in
front of the lines before them. -/
theorem positionAfter_interleave (post : Program ℝ) : ∀ (pre : Program ℝ) (p : Modal ℝ),
    positionAfter (p.along spacing (pre ++ post))
        (interleave pre (insertions spacing p (pre ++ post)))
      = (positionAfter p pre).along spacing post
  | [], p => by
      rw [List.nil_append]
      cases insertions spacing p post <;> rfl
  | .comment t :: pre, p => positionAfter_interleave post pre p
  | .move m :: pre, p => by
      have ih := positionAfter_interleave post pre (p.after m)
      rw [List.cons_append, insertions, interleave, positionAfter, positionAfter_append]
      cases hm : m.hasXY with
      | true =>
          rw [if_pos rfl, Modal.after_along hm, positionAfter_pointsAfter (p.after_after m), ih]
          rfl
      | false =>
          have hpass : ∀ n, Line.move m = .move n → n.hasXY = false := by
            rintro _ ⟨⟩
            exact hm
          rw [Modal.after_of_not_hasXY hm] at ih ⊢
          rw [if_neg (by simp), Modal.along_cons hpass, Modal.after_of_not_hasXY hm, positionAfter,
            Modal.after_of_not_hasXY hm]
          exact ih

/-- How far the tool is from `here` in front of a line that names no position, where `ls` are the
lines after it.  It is still there if the next waypoint is near.  Otherwise it is at the last
multiple of the spacing that is before the waypoint by more than the slack. -/
structure Modal.Ahead (spacing : ℝ) (here : Modal ℝ) (ls : Program ℝ) (out : Modal ℝ) : Prop where
  /-- It is still there if the next waypoint is near. -/
  stays : (∀ there, LeadsTo here ls there → here.gap there ≤ spacing + 1e-9) → out = here
  /-- Otherwise it is at the last of the points that are put in. -/
  moves : ∀ there, LeadsTo here ls there → spacing + 1e-9 < here.gap there → ∃ k : ℕ, 0 < k ∧
    out = here.toward (k * spacing / here.gap there) there ∧ here.gap out = k * spacing ∧
    k * spacing < here.gap there - 1e-9 ∧ here.gap there - 1e-9 ≤ (k + 1) * spacing

theorem Modal.ahead_along (hspacing : 0 < spacing) (here : Modal ℝ) (ls : Program ℝ) :
    here.Ahead spacing ls (here.along spacing ls) where
  stays hnear := by
    rw [along]
    cases hnext : nextWaypoint? here ls with
    | none => rfl
    | some there =>
        have hgap := hnear there (nextWaypoint?_eq_some_iff.mp hnext)
        have hnone : pointCount spacing (here.gap there) = 0 := by
          refine Nat.eq_zero_of_not_pos fun hpos => ?_
          have hfirst := (lt_pointCount hspacing _ _).mp hpos
          rw [slack_eq, Nat.zero_add, Nat.cast_one, one_mul] at hfirst
          linarith
        simp only [hnone, Nat.cast_zero, zero_mul, zero_div, toward_zero]
  moves there hlead hfar := by
    have halong : here.along spacing ls
        = here.toward (pointCount spacing (here.gap there) * spacing / here.gap there) there := by
      rw [along, nextWaypoint?_eq_some_iff.mpr hlead]
    have hpos : 0 < pointCount spacing (here.gap there) := by
      rw [lt_pointCount hspacing, slack_eq, Nat.zero_add, Nat.cast_one, one_mul]
      linarith
    have hlong := pos_of_lt_pointCount hspacing hpos
    obtain ⟨k, hk⟩ := Nat.exists_eq_add_one.mpr hpos
    have hlast := (lt_pointCount hspacing (here.gap there) k).mp (by omega)
    have hmore := mt (lt_pointCount hspacing (here.gap there) (k + 1)).mpr (by omega)
    rw [slack_eq] at hlast hmore
    rw [halong, hk]
    refine ⟨k + 1, Nat.succ_pos k, rfl, ?_, hlast, ?_⟩
    · exact gap_toward_start hlong (by positivity)
    · push_cast at hmore ⊢
      linarith

/-- Every line of a block is in its subdivision after what comes of the lines before it.  A line
that names a position is reached at the same position as in the block.  A line that names none is
reached at the last of the points that were put in before it. -/
theorem subdivide_reached (hspacing : 0 < spacing) (ls : Program ℝ) :
    ∃ points : List (List (Move ℝ)), points.length = ls.length ∧
      subdivide spacing ls = .ok (interleave ls points) ∧
      ∀ (pre : Program ℝ) (l : Line ℝ) (post : Program ℝ), ls = pre ++ l :: post →
        (∃ rest, interleave ls points = interleave pre points ++ l :: rest) ∧
        (∀ m, l = .move m → m.hasXY = true →
          positionAfter (none, none) (interleave pre points ++ [l])
            = positionAfter (none, none) (pre ++ [l])) ∧
        ((∀ m, l = .move m → m.hasXY = false) →
          (positionAfter (none, none) pre).Ahead spacing post
            (positionAfter (none, none) (interleave pre points ++ [l]))) := by
  refine ⟨insertions spacing (none, none) ls, length_insertions ls _,
    subdivideFrom_eq hspacing ls _, ?_⟩
  rintro pre l post rfl
  have hfront : positionAfter (none, none)
      (interleave pre (insertions spacing (none, none) (pre ++ l :: post)))
        = (positionAfter (none, none) pre).along spacing (l :: post) := by
    rw [← positionAfter_interleave (l :: post) pre (none, none), Modal.along_start]
  refine ⟨interleave_append l post pre _, fun m hl hm => ?_, fun hl => ?_⟩
  · subst hl
    rw [positionAfter_append, positionAfter_append, hfront]
    exact Modal.after_along hm _ _
  · have hstay : ∀ a : Modal ℝ, positionAfter a [l] = a :=
      positionAfter_of_not_hasXY fun m hm => hl m (List.mem_singleton.mp hm).symm
    rw [positionAfter_append, hstay, hfront, Modal.along_cons hl]
    exact Modal.ahead_along hspacing _ _

/-- A side of which the tool goes down before it moves along it. -/
def sunkSide : Program ℝ :=
  [.move (.linear (some 0) (some 0) none none none),
    .move (.linear none none (some (-2)) none none),
    .move (.linear (some 1) none none none none)]

/-- The descent is reached at the second point of the side. -/
theorem sunkSide_subdivide_reached :
    (0 : ℝ) < 2 / 5 ∧ ∃ points, subdivide (2 / 5) sunkSide = .ok (interleave sunkSide points) ∧
      positionAfter (none, none) (interleave (sunkSide.take 1) points
        ++ [.move (.linear none none (some (-2)) none none)]) = (some (4 / 5), some 0) := by
  have hspacing : (0 : ℝ) < 2 / 5 := by norm_num
  refine ⟨hspacing, ?_⟩
  obtain ⟨points, -, hsub, hreached⟩ := subdivide_reached hspacing sunkSide
  obtain ⟨-, -, hdescent⟩ := hreached (sunkSide.take 1) _ (sunkSide.drop 2) rfl
  have hahead := hdescent (by rintro _ ⟨⟩; rfl)
  rw [show positionAfter (none, none) (sunkSide.take 1) = (some 0, some 0) from rfl] at hahead
  have hlead : LeadsTo (some 0, some 0) (sunkSide.drop 2) (some 1, some 0) :=
    ⟨[], _, [], rfl, by simp, rfl, rfl⟩
  have hgap : Modal.gap (some 0, some 0) (some 1, some 0) = 1 := by norm_num [Modal.gap, axisStep]
  obtain ⟨k, -, hout, -, hlast, hmore⟩ := hahead.moves _ hlead (by rw [hgap]; norm_num)
  rw [hgap] at hout hlast hmore
  obtain rfl : k = 2 := by
    have hlow : (1 : ℝ) < k := by linarith
    have hhigh : (k : ℝ) < 3 := by linarith
    have hlow' : 1 < k := by exact_mod_cast hlow
    have hhigh' : k < 3 := by exact_mod_cast hhigh
    omega
  refine ⟨points, hsub, hout.trans ?_⟩
  norm_num [Modal.toward, axisAt]

/-- In the block the descent is at the beginning of the side, and in the subdivision it is not. -/
theorem sunkSide_descent_moved :
    subdivide (2 / 5) sunkSide = .ok
        ([.move (.linear (some 0) (some 0) none none none),
            .move (.linear (some (2 / 5)) (some 0) none none none),
            .move (.linear (some (4 / 5)) (some 0) none none none)]
          ++ [.move (.linear none none (some (-2)) none none),
            .move (.linear (some 1) none none none none)]) ∧
      positionAfter (none, none) (sunkSide.take 1) = (some 0, some 0) ∧
      positionAfter (none, none)
        [.move (.linear (some (0 : ℝ)) (some 0) none none none),
          .move (.linear (some (2 / 5)) (some 0) none none none),
          .move (.linear (some (4 / 5)) (some 0) none none none)] = (some (4 / 5), some 0) := by
  have hspacing : (0 : ℝ) < 2 / 5 := by norm_num
  have hgap : Modal.gap (some 0, some 0) (some 1, some 0) = 1 := by norm_num [Modal.gap, axisStep]
  have hcount : pointCount (2 / 5) 1 = 2 := by
    have hsome := (lt_pointCount hspacing 1 1).mpr (by norm_num [slack])
    have hmost := mt (lt_pointCount hspacing 1 2).mp (by norm_num [slack])
    omega
  have hpoints : pointsOn (2 / 5) (.linear (some 0) (some 0) none none none) (some 0, some 0)
        (some 1, some 0)
      = [.linear (some (2 / 5)) (some 0) none none none,
        .linear (some (4 / 5)) (some 0) none none none] := by
    rw [pointsOn, hgap, hcount]
    norm_num [List.range_succ, pointOn, hgap, axisAt, Move.linear]
  refine ⟨?_, rfl, rfl⟩
  rw [subdivide, subdivideFrom_eq hspacing]
  exact congrArg (fun points : List (Move ℝ) =>
    Except.ok (interleave sunkSide [points, [], []])) hpoints

end WireErosion
