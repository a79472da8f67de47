import Mathlib.Algebra.Order.Floor.Semiring
import WireErosion.Proofs.Exact
import WireErosion.Wear.Subdivide

/-!
# Positions with unknown axes, and points between them

A position in the plane of which an axis may be unknown, as it is followed along the moves of a
block.  `Modal.distance` counts a step only if both of its ends are known, as the wear does.
`Modal.gap` is over the axes that are known at both ends, as the subdivision has it, so a step along
one axis has a length even if nothing is known of the other.

`Modal.toward` takes a position along the way to another one, axis by axis.  An axis that is not
known at both ends stays as it is.  Both distances grow in proportion along such a way
(`gap_toward`, `distance_toward`).

In exact arithmetic the points that a subdivision puts on a way of length `D` are at all multiples
of the spacing that are before `D` by more than the slack (`intermediateMoves_eq`).
-/

namespace WireErosion

namespace Modal

/-- A move that names no position stays where it is. -/
theorem after_of_not_hasXY {α : Type} {m : Move α} (h : m.hasXY = false) (a : Modal α) :
    a.after m = a := by
  rw [Move.hasXY, Bool.or_eq_false_iff, Option.isSome_eq_false_iff, Option.isSome_eq_false_iff,
    Option.isNone_iff_eq_none, Option.isNone_iff_eq_none] at h
  rw [Modal.after, h.1, h.2]
  rfl

/-- After a move the tool is where the move is. -/
theorem after_after {α : Type} (p : Modal α) (m : Move α) : (p.after m).after m = p.after m := by
  simp only [after]
  cases m.x <;> cases m.y <;> rfl

/-- The distance of two positions, zero unless both are known. -/
noncomputable def distance : Modal ℝ → Modal ℝ → ℝ
  | (some x₁, some y₁), (some x₂, some y₂) => √((x₂ - x₁) ^ 2 + (y₂ - y₁) ^ 2)
  | _, _ => 0

/-- Whether both axes of a position are known. -/
def Known {α : Type} (a : Modal α) : Prop := a.1.isSome = true ∧ a.2.isSome = true

/-- The distance of two positions over the axes that are known at both. -/
noncomputable def gap (a b : Modal ℝ) : ℝ := √(axisStep a.1 b.1 ^ 2 + axisStep a.2 b.2 ^ 2)

/-- The position at the part `t` of the way from `a` to `b`.  It is that of `a` on an axis that is
not known at both ends. -/
noncomputable def toward (a : Modal ℝ) (t : ℝ) (b : Modal ℝ) : Modal ℝ :=
  (axisAt t a.1 a.1 b.1, axisAt t a.2 a.2 b.2)

end Modal

theorem axisStep_axisAt (t t' : ℝ) (a b : Option ℝ) :
    axisStep (axisAt t a a b) (axisAt t' a a b) = (t' - t) * axisStep a b := by
  cases a <;> cases b <;> simp only [axisAt, axisStep, Exact.zero_eq] <;> ring

theorem axisStep_axisAt_end (t : ℝ) (a b : Option ℝ) :
    axisStep (axisAt t a a b) b = (1 - t) * axisStep a b := by
  cases a <;> cases b <;> simp only [axisAt, axisStep, Exact.zero_eq] <;> ring

theorem axisAt_zero (a b : Option ℝ) : axisAt 0 a a b = a := by
  cases a <;> cases b <;> simp [axisAt]

/-- A move that is at `a` does not leave the axes that are not known at both ends. -/
theorem axisAt_orElse {own a : Option ℝ} (h : (own <|> a) = a) (t t' : ℝ) (b : Option ℝ) :
    (axisAt t own a b <|> axisAt t' a a b) = axisAt t a a b := by
  cases a with
  | none => exact h
  | some x => cases b <;> first | exact h | rfl

theorem isSome_axisAt {own : Option ℝ} (h : own.isSome = true) (t : ℝ) (a b : Option ℝ) :
    (axisAt t own a b).isSome = true := by
  cases a <;> cases b <;> first | exact h | rfl

theorem isSome_axisAt_self (t : ℝ) (a b : Option ℝ) : (axisAt t a a b).isSome = a.isSome := by
  cases a <;> cases b <;> rfl

namespace Modal

variable {a b : Modal ℝ}

theorem gap_nonneg (a b : Modal ℝ) : 0 ≤ a.gap b := Real.sqrt_nonneg _

theorem toward_zero (a b : Modal ℝ) : a.toward 0 b = a := by
  rw [toward, axisAt_zero, axisAt_zero]

/-- Scaling both sides of a rectangle scales its diagonal. -/
theorem sqrt_scaled (t x y : ℝ) : √((t * x) ^ 2 + (t * y) ^ 2) = |t| * √(x ^ 2 + y ^ 2) := by
  rw [← Real.sqrt_sq_eq_abs, ← Real.sqrt_mul (sq_nonneg t)]
  congr 1
  ring

theorem gap_toward (t t' : ℝ) : (a.toward t b).gap (a.toward t' b) = |t' - t| * a.gap b := by
  rw [gap, gap, toward, toward, axisStep_axisAt, axisStep_axisAt, sqrt_scaled]

theorem gap_toward_start (hlong : 0 < a.gap b) {d : ℝ} (hd : 0 ≤ d) :
    a.gap (a.toward (d / a.gap b) b) = d := by
  have hgap := gap_toward (a := a) (b := b) 0 (d / a.gap b)
  rwa [a.toward_zero, sub_zero, abs_of_nonneg (div_nonneg hd hlong.le),
    div_mul_cancel₀ _ hlong.ne'] at hgap

theorem gap_toward_end (t : ℝ) : (a.toward t b).gap b = |1 - t| * a.gap b := by
  rw [gap, gap, toward, axisStep_axisAt_end, axisStep_axisAt_end, sqrt_scaled]

theorem distance_of_known (ha : a.Known) (hb : b.Known) : a.distance b = a.gap b := by
  obtain ⟨x, y⟩ := a
  obtain ⟨x', y'⟩ := b
  obtain ⟨hx, hy⟩ := ha
  obtain ⟨hx', hy'⟩ := hb
  obtain ⟨x, rfl⟩ := Option.isSome_iff_exists.mp hx
  obtain ⟨y, rfl⟩ := Option.isSome_iff_exists.mp hy
  obtain ⟨x', rfl⟩ := Option.isSome_iff_exists.mp hx'
  obtain ⟨y', rfl⟩ := Option.isSome_iff_exists.mp hy'
  rfl

theorem distance_of_not_known (ha : ¬ a.Known) : a.distance b = 0 := by
  unfold distance
  split
  next => exact absurd ⟨rfl, rfl⟩ ha
  next => rfl

theorem distance_nonneg (a b : Modal ℝ) : 0 ≤ a.distance b := by
  unfold distance
  split
  next => exact Real.sqrt_nonneg _
  next => exact le_rfl

theorem distance_self (a : Modal ℝ) : a.distance a = 0 := by
  by_cases ha : a.Known
  · have hstep : ∀ x : Option ℝ, axisStep x x = 0 := fun x => by cases x <;> simp [axisStep]
    rw [distance_of_known ha ha, gap, hstep, hstep]
    simp
  · exact distance_of_not_known ha

theorem known_toward {t : ℝ} : (a.toward t b).Known ↔ a.Known := by
  rw [Known, toward, isSome_axisAt_self, isSome_axisAt_self, Known]

/-- No axis gets unknown. -/
theorem Known.after {α : Type} {a : Modal α} (ha : a.Known) (m : Move α) : (a.after m).Known := by
  obtain ⟨hx, hy⟩ := ha
  constructor <;> simp [Modal.after, hx, hy]

theorem distance_toward (hb : a.Known → b.Known) (t t' : ℝ) :
    (a.toward t b).distance (a.toward t' b) = |t' - t| * a.distance b := by
  by_cases ha : a.Known
  · rw [distance_of_known (known_toward.mpr ha) (known_toward.mpr ha), gap_toward,
      distance_of_known ha (hb ha)]
  · rw [distance_of_not_known (mt known_toward.mp ha), distance_of_not_known ha, mul_zero]

theorem distance_toward_end (hb : a.Known → b.Known) (t : ℝ) :
    (a.toward t b).distance b = |1 - t| * a.distance b := by
  by_cases ha : a.Known
  · rw [distance_of_known (known_toward.mpr ha) (hb ha), gap_toward_end,
      distance_of_known ha (hb ha)]
  · rw [distance_of_not_known (mt known_toward.mp ha), distance_of_not_known ha, mul_zero]

/-- On the way to a waypoint an axis that the waypoint does not name stays the same, so the tool
gets there from each point of the way. -/
theorem after_toward (a : Modal ℝ) (t : ℝ) (n : Move ℝ) :
    (a.toward t (a.after n)).after n = a.after n := by
  have haxis : ∀ own a : Option ℝ, (own <|> axisAt t a a (own <|> a)) = (own <|> a) := by
    intro own a
    cases own <;> cases a <;> simp [axisAt]
  exact Prod.ext (haxis n.x a.1) (haxis n.y a.2)

end Modal

/-! ## The points of one way -/

/-- A copy of the move `m` at a distance from `a` on the way to `b`.  On an axis that is not known
at both ends it is where `m` has it. -/
noncomputable def pointOn (m : Move ℝ) (a b : Modal ℝ) (d : ℝ) : Move ℝ :=
  { m with x := axisAt (d / a.gap b) m.x a.1 b.1, y := axisAt (d / a.gap b) m.y a.2 b.2 }

/-- How many multiples of the spacing there are before a length by more than the slack. -/
noncomputable def pointCount (spacing length : ℝ) : ℕ := ⌈(length - slack) / spacing⌉₊ - 1

/-- The points on the way from `a` to `b`. -/
noncomputable def pointsOn (spacing : ℝ) (m : Move ℝ) (a b : Modal ℝ) : List (Move ℝ) :=
  (List.range (pointCount spacing (a.gap b))).map fun k =>
    pointOn m a b (((k + 1 : ℕ) : ℝ) * spacing)

section

variable {spacing : ℝ}

theorem lt_pointCount (hspacing : 0 < spacing) (length : ℝ) (k : ℕ) :
    k < pointCount spacing length ↔ ((k + 1 : ℕ) : ℝ) * spacing < length - slack := by
  rw [pointCount, Nat.lt_sub_iff_add_lt, Nat.lt_ceil, lt_div_iff₀ hspacing]

theorem slack_eq : (slack : ℝ) = 1e-9 := by norm_num [slack]

theorem slack_pos : (0 : ℝ) < slack := by norm_num [slack]

theorem pos_of_lt_pointCount (hspacing : 0 < spacing) {length : ℝ} {k : ℕ}
    (hk : k < pointCount spacing length) : 0 < length := by
  have hlast := (lt_pointCount hspacing length k).mp hk
  have hpos : 0 ≤ ((k + 1 : ℕ) : ℝ) * spacing := by positivity
  linarith [slack_pos]

/-- The last point is before the end of the way. -/
theorem part_le_one (hspacing : 0 < spacing) {length : ℝ} (hlength : 0 ≤ length) {k : ℕ}
    (hk : k ≤ pointCount spacing length) : (k : ℝ) * spacing / length ≤ 1 := by
  refine div_le_one_of_le₀ ?_ hlength
  cases k with
  | zero => simpa using hlength
  | succ i => linarith [(lt_pointCount hspacing length i).mp hk, slack_pos]

theorem distances_eq (hspacing : 0 < spacing) {length : ℝ} {count : ℕ}
    (hcount : pointCount spacing length ≤ count) :
    distances count spacing length
      = (List.range (pointCount spacing length)).map fun k => ((k + 1 : ℕ) : ℝ) * spacing := by
  obtain ⟨more, rfl⟩ := Nat.exists_eq_add_of_le hcount
  have hkeep : ∀ k : ℕ, decide (((k + 1 : ℕ) : ℝ) * spacing < length - slack) = true
      ↔ k < pointCount spacing length := fun k => by
    rw [decide_eq_true_iff, lt_pointCount hspacing]
  -- The distances that are kept are a front of all of them.
  rw [distances, List.range_add, List.map_append, List.filter_append, List.filter_eq_self.mpr,
    List.filter_eq_nil_iff.mpr, List.append_nil]
  · intro d hd
    obtain ⟨j, hj, rfl⟩ := List.mem_map.mp hd
    obtain ⟨k, -, rfl⟩ := List.mem_map.mp hj
    exact fun h => absurd ((hkeep _).mp h) (by omega)
  · intro d hd
    obtain ⟨k, hk, rfl⟩ := List.mem_map.mp hd
    exact (hkeep k).mpr (List.mem_range.mp hk)

/-- The points on a way, of which there are none on a short one. -/
theorem intermediateMoves_eq (hspacing : 0 < spacing) (m : Move ℝ) (a b : Modal ℝ) :
    intermediateMoves m a b spacing = .ok (pointsOn spacing m a b) := by
  unfold intermediateMoves
  by_cases hshort : a.gap b ≤ spacing
  · have hnone : pointCount spacing (a.gap b) = 0 := by
      refine Nat.eq_zero_of_not_pos fun hpos => ?_
      rw [lt_pointCount hspacing, Nat.zero_add, Nat.cast_one, one_mul] at hpos
      linarith [slack_pos]
    rw [pointsOn, hnone]
    exact if_pos hshort
  · have hquotient : Scalar.quotient (a.gap b) spacing = .ok (a.gap b / spacing) :=
      Exact.quotient_eq hspacing.ne'
    have hcount : pointCount spacing (a.gap b) ≤ ⌊a.gap b / spacing⌋.toNat := by
      by_contra hmore
      have hlast := (lt_pointCount hspacing _ _).mp (not_le.mp hmore)
      have hfloor := Int.lt_floor_add_one (a.gap b / spacing)
      have hnat : (⌊a.gap b / spacing⌋ : ℝ) ≤ (⌊a.gap b / spacing⌋.toNat : ℝ) := by
        exact_mod_cast Int.self_le_toNat _
      have hmost : a.gap b / spacing < ((⌊a.gap b / spacing⌋.toNat + 1 : ℕ) : ℝ) := by
        push_cast
        linarith
      rw [div_lt_iff₀ hspacing] at hmost
      linarith [slack_pos]
    refine (if_neg hshort).trans ((congrArg (fun q => q >>= _) hquotient).trans ?_)
    change
      Except.ok ((distances ⌊a.gap b / spacing⌋.toNat spacing (a.gap b)).map (pointOn m a b)) = _
    rw [distances_eq hspacing hcount, List.map_map]
    rfl

theorem hasXY_pointOn {m : Move ℝ} (h : m.hasXY = true) (a b : Modal ℝ) (d : ℝ) :
    (pointOn m a b d).hasXY = true := by
  rw [Move.hasXY, Bool.or_eq_true] at h ⊢
  exact h.imp (isSome_axisAt · _ _ _) (isSome_axisAt · _ _ _)

/-- Where the tool is after a point, when it was somewhere on the way before. -/
theorem after_pointOn {m : Move ℝ} {a : Modal ℝ} (hm : a.after m = a) (t d : ℝ) (b : Modal ℝ) :
    (a.toward t b).after (pointOn m a b d) = a.toward (d / a.gap b) b := by
  obtain ⟨hx, hy⟩ := Prod.ext_iff.mp hm
  exact Prod.ext (axisAt_orElse hx _ _ _) (axisAt_orElse hy _ _ _)

/-- A point is as far from the start of the way as it should be. -/
theorem gap_pointOn {m : Move ℝ} {a : Modal ℝ} (hm : a.after m = a) {b : Modal ℝ}
    (hlong : 0 < a.gap b) {d : ℝ} (hd : 0 ≤ d) : a.gap (a.after (pointOn m a b d)) = d := by
  have hafter := after_pointOn hm 0 d b
  rw [a.toward_zero] at hafter
  rw [hafter, Modal.gap_toward_start hlong hd]

theorem getElem?_pointsOn (hspacing : 0 < spacing) {m q : Move ℝ} {a b : Modal ℝ} {k : ℕ} :
    (pointsOn spacing m a b)[k]? = some q ↔ ((k + 1 : ℕ) : ℝ) * spacing < a.gap b - slack ∧
      q = pointOn m a b (((k + 1 : ℕ) : ℝ) * spacing) := by
  rw [← lt_pointCount hspacing, pointsOn, List.getElem?_map, Option.map_eq_some_iff]
  constructor
  · rintro ⟨j, hj, rfl⟩
    obtain ⟨hlt, rfl⟩ := List.getElem?_eq_some_iff.mp hj
    rw [List.getElem_range]
    exact ⟨by simpa using hlt, rfl⟩
  · rintro ⟨hlt, rfl⟩
    exact ⟨k, List.getElem?_range hlt, rfl⟩

end

end WireErosion
