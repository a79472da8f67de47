import Mathlib.Analysis.Real.Sqrt
import WireErosion.Proofs.Toolpath.Entry
import WireErosion.Proofs.Wear.Position

/-!
# The points of a subdivision

`insertions` are the points that are put in after each line of a block, and in exact arithmetic a
subdivision interleaves the lines with them (`subdivideFrom_eq`).

`Spaced` says that no position is far from the next one, and `subdivide_spaced` that a subdivision
is of that kind.  The lines between two waypoints name no position, so it does not matter for them
that the tool is already further on the way than before.
-/

namespace WireErosion

/-! ## Waypoints -/

/-- Lines that name no position leave the tool where it is. -/
theorem positionAfter_of_not_hasXY {α : Type} : ∀ {ls : Program α},
    (∀ m, .move m ∈ ls → m.hasXY = false) → ∀ a : Modal α, positionAfter a ls = a
  | [], _, _ => rfl
  | .comment _ :: _, h, a =>
      positionAfter_of_not_hasXY (fun m hm => h m (List.mem_cons_of_mem _ hm)) a
  | .move m :: _, h, a => by
      rw [positionAfter, Modal.after_of_not_hasXY (h m (List.mem_cons_self ..))]
      exact positionAfter_of_not_hasXY (fun m hm => h m (List.mem_cons_of_mem _ hm)) a

/-- The first of some lines that names a position leads to `b`, where `a` is the position before
them. -/
def LeadsTo (a : Modal ℝ) (ls : Program ℝ) (b : Modal ℝ) : Prop :=
  ∃ (mid : Program ℝ) (n : Move ℝ) (post : Program ℝ), ls = mid ++ Line.move n :: post ∧
    (∀ m, .move m ∈ mid → m.hasXY = false) ∧ n.hasXY = true ∧ b = a.after n

theorem nextWaypoint?_eq_some_iff {a b : Modal ℝ} : ∀ {ls : Program ℝ},
    nextWaypoint? a ls = some b ↔ LeadsTo a ls b
  | [] => by simp [nextWaypoint?, LeadsTo]
  | .comment t :: ls => by
      rw [nextWaypoint?, nextWaypoint?_eq_some_iff]
      constructor
      · rintro ⟨mid, n, post, rfl, hmid, hn, hb⟩
        exact ⟨.comment t :: mid, n, post, rfl, by simpa using hmid, hn, hb⟩
      · rintro ⟨mid, n, post, hls, hmid, hn, hb⟩
        cases mid with
        | nil => cases hls
        | cons l mid =>
            cases hls
            exact ⟨mid, n, post, rfl, by simpa using hmid, hn, hb⟩
  | .move m :: ls => by
      rw [nextWaypoint?]
      cases hm : m.hasXY with
      | true =>
          rw [if_pos rfl, Option.some.injEq]
          constructor
          · rintro rfl
            exact ⟨[], m, ls, rfl, by simp, hm, rfl⟩
          · rintro ⟨mid, n, post, hls, hmid, -, rfl⟩
            cases mid with
            | nil =>
                cases hls
                rfl
            | cons l mid =>
                cases hls
                rw [hmid m (List.mem_cons_self ..)] at hm
                cases hm
      | false =>
          rw [if_neg (by simp), nextWaypoint?_eq_some_iff]
          constructor
          · rintro ⟨mid, n, post, rfl, hmid, hn, hb⟩
            refine ⟨.move m :: mid, n, post, rfl, fun k hk => ?_, hn, hb⟩
            rcases List.mem_cons.mp hk with heq | hk
            · cases heq
              exact hm
            · exact hmid k hk
          · rintro ⟨mid, n, post, hls, hmid, hn, hb⟩
            cases mid with
            | nil =>
                cases hls
                rw [hm] at hn
                cases hn
            | cons l mid =>
                cases hls
                exact ⟨mid, n, post, rfl, fun k hk => hmid k (List.mem_cons_of_mem _ hk), hn, hb⟩

/-- A point of the way to the next waypoint leads there too. -/
theorem nextWaypoint?_toward {a b : Modal ℝ} {ls : Program ℝ} (h : nextWaypoint? a ls = some b)
    (t : ℝ) : nextWaypoint? (a.toward t b) ls = some b := by
  obtain ⟨mid, n, post, hls, hmid, hn, rfl⟩ := nextWaypoint?_eq_some_iff.mp h
  exact nextWaypoint?_eq_some_iff.mpr ⟨mid, n, post, hls, hmid, hn, (a.after_toward t n).symm⟩

/-! ## Subdivided blocks -/

/-- Some lines, each with moves put in after it. -/
def interleave {α : Type} : Program α → List (List (Move α)) → Program α
  | [], _ => []
  | l :: ls, [] => l :: ls
  | l :: ls, points :: rest => l :: (points.map .move ++ interleave ls rest)

/-- The points after a move that leads to the position `a`. -/
noncomputable def pointsAfter (spacing : ℝ) (m : Move ℝ) (a : Modal ℝ) (ls : Program ℝ) :
    List (Move ℝ) :=
  match nextWaypoint? a ls with
  | some b => pointsOn spacing m a b
  | none => []

/-- The points after each of some lines, where `p` is the position before them. -/
noncomputable def insertions (spacing : ℝ) (p : Modal ℝ) : Program ℝ → List (List (Move ℝ))
  | [] => []
  | .comment _ :: ls => [] :: insertions spacing p ls
  | .move m :: ls =>
    (if m.hasXY then pointsAfter spacing m (p.after m) ls else [])
      :: insertions spacing (p.after m) ls

section

variable {spacing : ℝ}

/-- Nothing is put in where no position is named. -/
theorem interleave_insertions_of_none : ∀ {ls : Program ℝ} {p : Modal ℝ},
    nextWaypoint? p ls = none → interleave ls (insertions spacing p ls) = ls
  | [], _, _ => rfl
  | .comment t :: ls, p, h => by
      rw [nextWaypoint?] at h
      exact congrArg (.comment t :: ·) (interleave_insertions_of_none h)
  | .move m :: ls, p, h => by
      rw [nextWaypoint?] at h
      cases hm : m.hasXY with
      | true => simp [hm] at h
      | false =>
          rw [hm, if_neg (by simp)] at h
          rw [insertions, hm, Modal.after_of_not_hasXY hm]
          exact congrArg (.move m :: ·) (interleave_insertions_of_none h)

/-- A block is subdivided by the points that are put in after its lines. -/
theorem subdivideFrom_eq (hspacing : 0 < spacing) : ∀ (ls : Program ℝ) (p : Modal ℝ),
    subdivideFrom spacing p ls = .ok (interleave ls (insertions spacing p ls))
  | [], _ => rfl
  | .comment t :: ls, p => by
      rw [subdivideFrom, subdivideFrom_eq hspacing ls p]
      rfl
  | .move m :: ls, p => by
      rw [subdivideFrom]
      cases hm : m.hasXY with
      | true =>
          rw [if_pos rfl]
          dsimp only
          rw [insertions, hm, if_pos rfl, pointsAfter]
          cases hnext : nextWaypoint? (p.after m) ls with
          | none => rw [interleave, interleave_insertions_of_none hnext]; rfl
          | some b =>
              simp only [intermediateMoves_eq hspacing, subdivideFrom_eq hspacing ls]
              rfl
      | false =>
          rw [if_neg (by simp), subdivideFrom_eq hspacing ls p, insertions, hm,
            Modal.after_of_not_hasXY hm]
          rfl

theorem length_insertions : ∀ (ls : Program ℝ) (p : Modal ℝ),
    (insertions spacing p ls).length = ls.length
  | [], _ => rfl
  | .comment _ :: ls, p => congrArg (· + 1) (length_insertions ls p)
  | .move m :: ls, p => congrArg (· + 1) (length_insertions ls (p.after m))

end

/-! ## Spacing -/

/-- The next waypoint of some lines, if there is one, is no further away than `most`. -/
def Reaches (most : ℝ) (a : Modal ℝ) (ls : Program ℝ) : Prop :=
  ∀ b, nextWaypoint? a ls = some b → a.gap b ≤ most

/-- From each position that some lines name the next one is no further away than `most`, where `p`
is the position before the lines. -/
def Spaced (most : ℝ) (p : Modal ℝ) : Program ℝ → Prop
  | [] => True
  | .comment _ :: ls => Spaced most p ls
  | .move m :: ls =>
    (m.hasXY = true → Reaches most (p.after m) ls) ∧ Spaced most (p.after m) ls

/-- Until a position is named it does not matter where the tool is on the way to it. -/
theorem Spaced.congr {most : ℝ} : ∀ {ls : Program ℝ} {a c : Modal ℝ},
    nextWaypoint? c ls = nextWaypoint? a ls → Spaced most a ls → Spaced most c ls
  | [], _, _, _, _ => trivial
  | .comment _ :: ls, a, c, hnext, h => by
      rw [nextWaypoint?, nextWaypoint?] at hnext
      rw [Spaced] at h ⊢
      exact h.congr hnext
  | .move m :: ls, a, c, hnext, h => by
      rw [nextWaypoint?, nextWaypoint?] at hnext
      rw [Spaced] at h ⊢
      cases hm : m.hasXY with
      | true =>
          rw [hm, if_pos rfl, if_pos rfl] at hnext
          rw [Option.some.inj hnext]
          rwa [hm] at h
      | false =>
          rw [hm, if_neg (by simp), if_neg (by simp)] at hnext
          rw [Modal.after_of_not_hasXY hm] at h ⊢
          exact ⟨by simp, h.2.congr hnext⟩

/-- The two ends of a step between positions that are named one after the other. -/
theorem Spaced.gap_le {most : ℝ} {mid post : Program ℝ} {m n : Move ℝ} (hm : m.hasXY = true)
    (hmid : ∀ k, .move k ∈ mid → k.hasXY = false) (hn : n.hasXY = true) :
    ∀ (pre : Program ℝ) (p : Modal ℝ),
      Spaced most p (pre ++ Line.move m :: (mid ++ Line.move n :: post)) →
      (positionAfter p (pre ++ [Line.move m])).gap
        (positionAfter p (pre ++ Line.move m :: (mid ++ [Line.move n]))) ≤ most
  | [], p, h => by
      have hend : positionAfter (p.after m) (mid ++ [Line.move n]) = (p.after m).after n := by
        rw [positionAfter_append, positionAfter_of_not_hasXY hmid]
        rfl
      have hlead : LeadsTo (p.after m) (mid ++ Line.move n :: post) ((p.after m).after n) :=
        ⟨mid, n, post, rfl, hmid, hn, rfl⟩
      rw [List.nil_append, List.nil_append, positionAfter, positionAfter, positionAfter, hend]
      exact h.1 hm _ (nextWaypoint?_eq_some_iff.mpr hlead)
  | .comment _ :: pre, p, h => gap_le hm hmid hn pre p h
  | .move k :: pre, p, h => gap_le hm hmid hn pre (p.after k) h.2

section

variable {spacing : ℝ}

/-- A subdivision names the same position next. -/
theorem nextWaypoint?_interleave (spacing : ℝ) (a : Modal ℝ) : ∀ (ls : Program ℝ) (p : Modal ℝ),
    nextWaypoint? a (interleave ls (insertions spacing p ls)) = nextWaypoint? a ls
  | [], _ => rfl
  | .comment _ :: ls, p => nextWaypoint?_interleave spacing a ls p
  | .move m :: ls, p => by
      rw [insertions, interleave, nextWaypoint?, nextWaypoint?]
      cases hm : m.hasXY with
      | true => rfl
      | false =>
          rw [if_neg (by simp), if_neg (by simp), if_neg (by simp)]
          exact nextWaypoint?_interleave spacing a ls (p.after m)

/-- The points on a way that are still to come when the tool has passed `k` of them, and what
follows the way. -/
theorem spaced_points (hspacing : 0 < spacing) {m : Move ℝ} {a b : Modal ℝ} (hm : a.after m = a)
    {rest : Program ℝ} (hnext : nextWaypoint? a rest = some b)
    (hrest : Spaced (spacing + slack) a rest) (hxy : m.hasXY = true) :
    ∀ j k : ℕ, k + j = pointCount spacing (a.gap b) →
      Reaches (spacing + slack) (a.toward ((k : ℝ) * spacing / a.gap b) b)
        (((List.range' k j).map fun i => pointOn m a b (((i + 1 : ℕ) : ℝ) * spacing)).map .move
          ++ rest) ∧
      Spaced (spacing + slack) (a.toward ((k : ℝ) * spacing / a.gap b) b)
        (((List.range' k j).map fun i => pointOn m a b (((i + 1 : ℕ) : ℝ) * spacing)).map .move
          ++ rest)
  | 0, k, hk => by
      have htoward := nextWaypoint?_toward hnext ((k : ℝ) * spacing / a.gap b)
      rw [List.range'_zero, List.map_nil, List.map_nil, List.nil_append]
      refine ⟨fun b' hb' => ?_, hrest.congr (htoward.trans hnext.symm)⟩
      rw [htoward, Option.some.injEq] at hb'
      rw [← hb', Modal.gap_toward_end]
      have hpart := part_le_one hspacing (a.gap_nonneg b) (by omega : k ≤ pointCount spacing _)
      rcases (a.gap_nonneg b).eq_or_lt with hzero | hlong
      · rw [← hzero, mul_zero]
        linarith [slack_pos]
      -- One more point would be too close to the end of the way.
      · have hmore := mt (lt_pointCount hspacing (a.gap b) k).mpr (by omega)
        rw [abs_of_nonneg (sub_nonneg.mpr hpart), sub_mul, one_mul, div_mul_cancel₀ _ hlong.ne']
        push_cast at hmore
        linarith
  | j + 1, k, hk => by
      have ih := spaced_points hspacing hm hnext hrest hxy j (k + 1) (by omega)
      have hlong := pos_of_lt_pointCount hspacing (by omega : k < pointCount spacing (a.gap b))
      rw [List.range'_succ, List.map_cons, List.map_cons, List.cons_append]
      have hafter := after_pointOn hm ((k : ℝ) * spacing / a.gap b) (((k + 1 : ℕ) : ℝ) * spacing) b
      refine ⟨fun b' hb' => ?_, ?_⟩
      · rw [nextWaypoint?, if_pos (hasXY_pointOn hxy ..), hafter, Option.some.injEq] at hb'
        rw [← hb', Modal.gap_toward, ← sub_div, abs_of_nonneg, div_mul_cancel₀ _ hlong.ne']
        · push_cast
          linarith [slack_pos]
        · push_cast
          apply div_nonneg _ hlong.le
          linarith
      · rw [Spaced, hafter]
        exact ⟨fun _ => ih.1, ih.2⟩

/-- A subdivision names no position that is far from the one before it. -/
theorem spaced_interleave (hspacing : 0 < spacing) : ∀ (ls : Program ℝ) (p : Modal ℝ),
    Spaced (spacing + slack) p (interleave ls (insertions spacing p ls))
  | [], _ => trivial
  | .comment _ :: ls, p => spaced_interleave hspacing ls p
  | .move m :: ls, p => by
      have ih := spaced_interleave hspacing ls (p.after m)
      have hnext := nextWaypoint?_interleave spacing (p.after m) ls (p.after m)
      rw [insertions, interleave, Spaced]
      cases hm : m.hasXY with
      | false => exact ⟨by simp, ih⟩
      | true =>
          rw [if_pos rfl, pointsAfter]
          cases hway : nextWaypoint? (p.after m) ls with
          | none =>
              refine ⟨fun _ b hb => ?_, ih⟩
              rw [List.map_nil, List.nil_append, hnext, hway] at hb
              cases hb
          | some b =>
              have hpoints := spaced_points hspacing (p.after_after m) (hnext.trans hway) ih hm
                (pointCount spacing ((p.after m).gap b)) 0 (zero_add _)
              rw [Nat.cast_zero, zero_mul, zero_div, Modal.toward_zero, ← List.range_eq_range']
                at hpoints
              exact ⟨fun _ => hpoints.1, hpoints.2⟩

/-! ## What is put in -/

/-- A block without the moves that were put in, where `counts` are their numbers after each line. -/
def withoutInsertions {α : Type} : List ℕ → Program α → Program α
  | count :: counts, l :: ls => l :: withoutInsertions counts (ls.drop count)
  | _, ls => ls

theorem withoutInsertions_interleave {α : Type} :
    ∀ (ls : Program α) (points : List (List (Move α))),
    withoutInsertions (points.map List.length) (interleave ls points) = ls
  | [], [] => rfl
  | [], _ :: _ => rfl
  | _ :: _, [] => rfl
  | l :: ls, here :: points => by
      have hrest : (here.map Line.move ++ interleave ls points).drop here.length
          = interleave ls points :=
        List.drop_left' (List.length_map ..)
      rw [List.map_cons, interleave, withoutInsertions, hrest, withoutInsertions_interleave ls]

/-- The moves that are put in after a line, where `here` is the position after it and `rest` is
what follows.  Only a move that names a position has some, when the next position is further away
than the spacing.  They are the points on the way there at all multiples of the spacing that are
before its end by more than the slack. -/
structure PutInAfter (spacing : ℝ) (here : Modal ℝ) (l : Line ℝ) (rest : Program ℝ)
    (points : List (Move ℝ)) : Prop where
  /-- There are none unless the next position is far away. -/
  far : points ≠ [] → ∃ m there, l = .move m ∧ m.hasXY = true ∧ LeadsTo here rest there ∧
    spacing < here.gap there
  /-- They are the points at multiples of the spacing. -/
  multiples : ∀ m there, l = .move m → m.hasXY = true → LeadsTo here rest there → ∀ k q,
    points[k]? = some q ↔ ((k + 1 : ℕ) : ℝ) * spacing < here.gap there - 1e-9 ∧
      q = pointOn m here there (((k + 1 : ℕ) : ℝ) * spacing)
  /-- Each is at its multiple of the spacing. -/
  distance : ∀ k q, points[k]? = some q → here.gap (here.after q) = ((k + 1 : ℕ) : ℝ) * spacing

/-- What is put in after a line is nothing unless a way to the next waypoint begins there. -/
theorem putInAfter_nil {here : Modal ℝ} {l : Line ℝ} {rest : Program ℝ}
    (h : ∀ m there, l = .move m → m.hasXY = true → ¬ LeadsTo here rest there) :
    PutInAfter spacing here l rest [] where
  far := fun hne => absurd rfl hne
  multiples := fun m there hl hm hlead => absurd hlead (h m there hl hm)
  distance := by simp

theorem putInAfter_pointsOn (hspacing : 0 < spacing) {m : Move ℝ} (hm : m.hasXY = true)
    {here there : Modal ℝ} (hhere : here.after m = here) {rest : Program ℝ}
    (hnext : nextWaypoint? here rest = some there) :
    PutInAfter spacing here (.move m) rest (pointsOn spacing m here there) where
  far := by
    intro hne
    obtain ⟨q, hq⟩ := List.exists_mem_of_ne_nil _ hne
    obtain ⟨k, hk⟩ := List.mem_iff_getElem?.mp hq
    have hlast := ((getElem?_pointsOn hspacing).mp hk).1
    have hfirst : spacing ≤ ((k + 1 : ℕ) : ℝ) * spacing :=
      le_mul_of_one_le_left hspacing.le (by exact_mod_cast Nat.succ_pos k)
    exact ⟨m, there, rfl, hm, nextWaypoint?_eq_some_iff.mp hnext, by linarith [slack_pos]⟩
  multiples := by
    rintro n there' hl - hlead k q
    cases hl
    rw [nextWaypoint?_eq_some_iff.mpr hlead, Option.some.injEq] at hnext
    rw [hnext, getElem?_pointsOn hspacing, slack_eq]
  distance := by
    intro k q hq
    obtain ⟨hlast, rfl⟩ := (getElem?_pointsOn hspacing).mp hq
    have hpos : 0 ≤ ((k + 1 : ℕ) : ℝ) * spacing := by positivity
    exact gap_pointOn hhere (by linarith [slack_pos]) hpos

/-- The points after a line of a block. -/
theorem putInAfter_insertions (hspacing : 0 < spacing) (post : Program ℝ) (l : Line ℝ) :
    ∀ (pre : Program ℝ) (p : Modal ℝ),
      ∃ points, (insertions spacing p (pre ++ l :: post))[pre.length]? = some points ∧
        PutInAfter spacing (positionAfter p (pre ++ [l])) l post points
  | .comment _ :: pre, p => putInAfter_insertions hspacing post l pre p
  | .move m :: pre, p => putInAfter_insertions hspacing post l pre (p.after m)
  | [], p => by
      cases l with
      | comment t => exact ⟨[], rfl, putInAfter_nil (by simp)⟩
      | move m =>
          refine ⟨_, rfl, ?_⟩
          rw [List.nil_append, positionAfter, positionAfter]
          cases hm : m.hasXY with
          | false =>
              refine putInAfter_nil fun n _ hn hxy => ?_
              cases hn
              rw [hm] at hxy
              cases hxy
          | true =>
              rw [if_pos rfl, pointsAfter]
              cases hnext : nextWaypoint? (p.after m) post with
              | none =>
                  refine putInAfter_nil fun _ there _ _ hlead => ?_
                  rw [nextWaypoint?_eq_some_iff.mpr hlead] at hnext
                  cases hnext
              | some b => exact putInAfter_pointsOn hspacing hm (p.after_after m) hnext

end

/-- A subdivision puts points in after the lines of a block and leaves the lines as they are.  The
points are those of the ways that are longer than the spacing, and in what comes out no named
position is further from the next one than the spacing and the slack. -/
theorem subdivide_spaced {spacing : ℝ} (hspacing : 0 < spacing) (ls : Program ℝ) :
    ∃ points : List (List (Move ℝ)), points.length = ls.length ∧
      subdivide spacing ls = .ok (interleave ls points) ∧
      withoutInsertions (points.map List.length) (interleave ls points) = ls ∧
      (∀ (pre : Program ℝ) (l : Line ℝ) (post : Program ℝ), ls = pre ++ l :: post →
        ∃ here, points[pre.length]? = some here ∧
          PutInAfter spacing (positionAfter (none, none) (pre ++ [l])) l post here) ∧
      ∀ (pre : Program ℝ) (m : Move ℝ) (mid : Program ℝ) (n : Move ℝ) (post : Program ℝ),
        interleave ls points = pre ++ Line.move m :: (mid ++ Line.move n :: post) →
        m.hasXY = true → n.hasXY = true → (∀ k, .move k ∈ mid → k.hasXY = false) →
        (positionAfter (none, none) (pre ++ [Line.move m])).gap
          (positionAfter (none, none) (pre ++ Line.move m :: (mid ++ [Line.move n])))
            ≤ spacing + 1e-9 := by
  refine ⟨insertions spacing (none, none) ls, length_insertions ls _,
    subdivideFrom_eq hspacing ls _, withoutInsertions_interleave _ _, ?_, ?_⟩
  · rintro pre l post rfl
    exact putInAfter_insertions hspacing post l pre _
  · intro pre m mid n post hout hm hn hmid
    have hspaced := spaced_interleave hspacing ls (none, none)
    rw [hout, slack_eq] at hspaced
    exact hspaced.gap_le hm hmid hn pre _

/-- A cut along one side, of which only the first end has a second coordinate. -/
def side : Program ℝ :=
  [.cut, .move (.linear (some 0) (some 0) (some (-1)) none none),
    .move (.linear (some 1) none none none none)]

/-- Two points are put on one side. -/
theorem side_subdivide_spaced :
    (0 : ℝ) < 2 / 5 ∧ subdivide (2 / 5) side = .ok
      [.cut, .move (.linear (some 0) (some 0) (some (-1)) none none),
        .move (.linear (some (2 / 5)) (some 0) (some (-1)) none none),
        .move (.linear (some (4 / 5)) (some 0) (some (-1)) none none),
        .move (.linear (some 1) none none none none)] := by
  have hspacing : (0 : ℝ) < 2 / 5 := by norm_num
  refine ⟨hspacing, ?_⟩
  obtain ⟨points, hlen, hsub, -, hput, -⟩ := subdivide_spaced hspacing side
  obtain ⟨first, second, third, rfl⟩ := List.length_eq_three.mp hlen
  obtain ⟨_, hfirst, hcut⟩ := hput [] .cut _ rfl
  cases hfirst
  obtain ⟨_, hsecond, hway⟩ := hput [.cut] _ [_] rfl
  cases hsecond
  obtain ⟨_, hthird, hlast⟩ := hput [.cut, _] _ [] rfl
  cases hthird
  have hnone : first = [] := by
    by_contra hne
    obtain ⟨m, -, hm, -⟩ := hcut.far hne
    cases hm
  have hend : third = [] := by
    by_contra hne
    obtain ⟨-, -, -, -, ⟨mid, n, post, hrest, -⟩, -⟩ := hlast.far hne
    cases mid <;> cases hrest
  have hgap : Modal.gap (some 0, some 0) (some 1, some 0) = 1 := by
    norm_num [Modal.gap, axisStep]
  have hpoint : ∀ k q, second[k]? = some q ↔ ((k + 1 : ℕ) : ℝ) * (2 / 5) < 1 - 1e-9 ∧
      q = .linear (some (((k + 1 : ℕ) : ℝ) * (2 / 5))) (some 0) (some (-1)) none none := by
    intro k q
    have hk := hway.multiples _ (some 1, some 0) rfl rfl ⟨[], _, [], rfl, by simp, rfl, rfl⟩ k q
    have hhere : positionAfter (none, none)
        ([.cut] ++ [Line.move (.linear (some (0 : ℝ)) (some 0) (some (-1)) none none)])
          = (some 0, some 0) := rfl
    rw [hhere, hgap] at hk
    simpa [pointOn, hgap, axisAt, Move.linear] using hk
  have hpoints : second = [.linear (some (2 / 5)) (some 0) (some (-1)) none none,
      .linear (some (4 / 5)) (some 0) (some (-1)) none none] := by
    refine List.ext_getElem? fun k => ?_
    rcases k with _ | _ | k
    · exact (hpoint 0 _).mpr ⟨by norm_num, by norm_num⟩
    · exact (hpoint 1 _).mpr ⟨by norm_num, by norm_num⟩
    · refine Option.eq_none_iff_forall_ne_some.mpr fun q hq => ?_
      have hlast := ((hpoint (k + 2) q).mp hq).1
      push_cast at hlast
      linarith [(k.cast_nonneg : (0 : ℝ) ≤ k)]
  rw [hsub, hnone, hend, hpoints]
  rfl

end WireErosion
