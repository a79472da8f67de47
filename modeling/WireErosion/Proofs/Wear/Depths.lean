import WireErosion.Proofs.Wear.Cuttings

/-!
# The depths of compensated cuts

A cut whose moves leave the depth alone, as the compiler makes them, is compensated to the same
moves in the same order, with points put in after some of them.  Its depths are counted from the
depth of one pass below zero, whatever the depth is at which it is entered (`Worn`).

So compensation makes it no shallower exactly if it is entered no deeper than that (`Worn.le_iff`),
and it stays over a depth that sinks with the wear exactly if its first move does
(`Worn.staysOver_iff`).
-/

namespace WireErosion

variable {α : Type}

/-! ## Points put in -/

/-- The same move at some depth. -/
def Move.AtDepth (m m' : Move α) : Prop := ∃ z, m' = { m with z }

/-- Some moves at some depths, each with copies of it at other positions put in after it. -/
inductive Refines : List (Move α) → List (Move α) → Prop
  | nil : Refines [] []
  | cons {m m' : Move α} {points ms ms' : List (Move α)} :
      m.AtDepth m' → (∀ p ∈ points, ∃ x y z, p = { m with x, y, z }) → Refines ms ms' →
      Refines (m :: ms) (m' :: (points ++ ms'))

theorem Refines.refl : ∀ ms : List (Move α), Refines ms ms
  | [] => .nil
  | m :: ms => .cons ⟨m.z, rfl⟩ (List.forall_mem_nil _) (refl ms)

/-- Depths may be put on the moves afterwards. -/
theorem Refines.atDepths {ms ms' : List (Move α)} (h : Refines ms ms') :
    ∀ {worn : List (Move α)}, List.Forall₂ Move.AtDepth ms' worn → Refines ms worn := by
  induction h with
  | nil =>
      intro worn hworn
      cases hworn
      exact .nil
  | @cons m m' points ms ms' hm hpoints _ ih =>
      intro worn hworn
      cases hworn with
      | @cons _ n _ worn hn hworn =>
          have hfront := List.forall₂_take points.length hworn
          have hback := List.forall₂_drop points.length hworn
          rw [List.take_left] at hfront
          rw [List.drop_left] at hback
          obtain ⟨z, rfl⟩ := hm
          obtain ⟨z', rfl⟩ := hn
          rw [← List.take_append_drop points.length worn]
          refine .cons ⟨z', rfl⟩ (fun p hp => ?_) (ih hback)
          obtain ⟨q, hq, hp⟩ := exists_of_mem_right hfront hp
          obtain ⟨x, y, z, rfl⟩ := hpoints q hq
          obtain ⟨z', rfl⟩ := hp
          exact ⟨x, y, z', rfl⟩

section

variable [Scalar α]

theorem of_mem_intermediateMoves {m : Move α} {a b : Modal α} {spacing : α}
    {points : List (Move α)} (h : intermediateMoves m a b spacing = .ok points) :
    ∀ p ∈ points, ∃ x y, p = { m with x, y } := by
  unfold intermediateMoves at h
  dsimp only at h
  split at h
  next =>
    cases h
    simp
  next =>
    simp only [Fault.bind_eq_ok, pure, Except.pure, Except.ok.injEq] at h
    obtain ⟨quotient, -, count, -, rfl⟩ := h
    intro p hp
    obtain ⟨d, -, rfl⟩ := List.mem_map.mp hp
    exact ⟨_, _, rfl⟩

/-- Moves that leave the depth alone are refined to such moves. -/
theorem refines_of_subdivideFrom {spacing : α} : ∀ {ms : List (Move α)} {p : Modal α}
    {ls : List (Line α)}, subdivideFrom spacing p (ms.map .move) = .ok ls →
      (∀ m ∈ ms, m.z = none) →
      ∃ ms' : List (Move α), ls = ms'.map .move ∧ Refines ms ms' ∧ ∀ m ∈ ms', m.z = none
  | [], _, _, h, _ => by
      cases h
      exact ⟨[], rfl, .nil, by simp⟩
  | m :: ms, p, ls, h, hlevel => by
      obtain ⟨hm, hms⟩ := List.forall_mem_cons.mp hlevel
      rw [List.map_cons, subdivideFrom] at h
      split at h
      next =>
        dsimp only at h
        split at h
        next =>
          cases h
          exact ⟨m :: ms, rfl, .refl _, hlevel⟩
        next =>
          simp only [Fault.bind_eq_ok, pure, Except.pure, Except.ok.injEq] at h
          obtain ⟨points, hpoints, rest, hrest, rfl⟩ := h
          obtain ⟨ms', rfl, hrefines, hlevel'⟩ := refines_of_subdivideFrom hrest hms
          have hcopies := of_mem_intermediateMoves hpoints
          refine ⟨m :: (points ++ ms'), by simp, .cons ⟨m.z, rfl⟩ (fun q hq => ?_) hrefines, ?_⟩
          · obtain ⟨x, y, rfl⟩ := hcopies q hq
            exact ⟨x, y, m.z, rfl⟩
          · rw [List.forall_mem_cons, List.forall_mem_append]
            refine ⟨hm, fun q hq => ?_, hlevel'⟩
            obtain ⟨x, y, rfl⟩ := hcopies q hq
            exact hm
      next =>
        rw [Fault.map_eq_ok] at h
        obtain ⟨rest, hrest, rfl⟩ := h
        obtain ⟨ms', rfl, hrefines, hlevel'⟩ := refines_of_subdivideFrom hrest hms
        exact ⟨m :: ms', rfl, .cons ⟨m.z, rfl⟩ (List.forall_mem_nil _) hrefines,
          List.forall_mem_cons.mpr ⟨hm, hlevel'⟩⟩

end

/-! ## Depths -/

/-- The length in the plane of some moves from a position on.  The way from a position of which an
axis is unknown does not count. -/
noncomputable def lengthFrom (a : Modal ℝ) : List (Move ℝ) → ℝ
  | [] => 0
  | m :: ms => travelled m a (a.after m) + lengthFrom (a.after m) ms

theorem travelled_nonneg (m : Move ℝ) (a b : Modal ℝ) : 0 ≤ travelled m a b := by
  unfold travelled
  split
  · exact Exact.distance_nonneg ..
  · rw [Exact.zero_eq]

theorem lengthFrom_nonneg : ∀ (a : Modal ℝ) (ms : List (Move ℝ)), 0 ≤ lengthFrom a ms
  | _, [] => le_rfl
  | a, m :: ms => add_nonneg (travelled_nonneg m a _) (lengthFrom_nonneg _ ms)

/-- The depths of some moves go down from a depth in proportion to the length of the way. -/
def Sinking (ratio start : ℝ) (a : Modal ℝ) (ms : List (Move ℝ)) : Prop :=
  ∀ pre m post, ms = pre ++ m :: post →
    m.z = some (start - ratio * lengthFrom a (pre ++ [m]))

theorem Sinking.nil (ratio start : ℝ) (a : Modal ℝ) : Sinking ratio start a [] := by
  intro pre m post h
  cases pre <;> cases h

theorem Sinking.cons {ratio start : ℝ} {a : Modal ℝ} {m : Move ℝ} {ms : List (Move ℝ)}
    (hm : m.z = some (start - ratio * travelled m a (a.after m)))
    (hms : Sinking ratio (start - ratio * travelled m a (a.after m)) (a.after m) ms) :
    Sinking ratio start a (m :: ms) := by
  intro pre n post h
  cases pre with
  | nil =>
      obtain ⟨rfl, -⟩ := List.cons_eq_cons.mp h
      rw [hm, List.nil_append, lengthFrom, lengthFrom, add_zero]
  | cons k pre =>
      obtain ⟨rfl, rfl⟩ := List.cons_eq_cons.mp h
      rw [hms pre n post rfl, List.cons_append, lengthFrom, mul_add, sub_sub]

/-- Moves that leave the depth alone are put at depths by the wear alone. -/
theorem exists_wearFrom_level (ratio : ℝ) : ∀ {ms : List (Move ℝ)}, (∀ m ∈ ms, m.z = none) →
    ∀ (a : Modal ℝ) (depth asked : ℝ),
      ∃ worn, (wearFrom ratio ⟨a, depth, asked⟩ (ms.map .move)).2 = worn.map .move ∧
        List.Forall₂ Move.AtDepth ms worn ∧ Sinking ratio depth a worn
  | [], _, a, depth, _ => ⟨[], rfl, .nil, .nil ratio depth a⟩
  | m :: ms, hlevel, a, depth, asked => by
      obtain ⟨hm, hms⟩ := List.forall_mem_cons.mp hlevel
      have hstep : (WearState.mk a depth asked).step ratio m
          = (⟨a.after m, depth - ratio * travelled m a (a.after m), asked⟩,
            { m with z := some (depth - ratio * travelled m a (a.after m)) }) := by
        have hdepth : depth + -(travelled m a (a.after m) * ratio)
            = depth - ratio * travelled m a (a.after m) := by ring
        simp only [WearState.step, hm, Option.getD_none, sub_self, add_zero, hdepth]
      obtain ⟨worn, hworn, hdepths, hsinking⟩ := exists_wearFrom_level ratio hms (a.after m)
        (depth - ratio * travelled m a (a.after m)) asked
      refine ⟨{ m with z := some (depth - ratio * travelled m a (a.after m)) } :: worn, ?_,
        .cons ⟨_, rfl⟩ hdepths, .cons rfl hsinking⟩
      rw [List.map_cons, wearFrom, hstep, List.map_cons, ← hworn]

/-- The moves of a cut and those that they are compensated to. -/
structure Worn (ratio passDepth : ℝ) (ms worn : List (Move ℝ)) : Prop where
  /-- Moves were put in, and depths were named. -/
  refines : Refines ms worn
  /-- The depths start again at the depth of one pass. -/
  sinking : Sinking ratio (-passDepth) (none, none) worn

theorem CompensatesTo.worn {w : WearParams ℝ} {ms worn : List (Move ℝ)}
    (hlevel : ∀ m ∈ ms, m.z = none) (h : CompensatesTo w ms worn) :
    Worn w.ratio w.passDepth ms worn := by
  obtain ⟨z, h⟩ := h
  rw [CutBlock.compensate, subdivide, Line.cut, subdivideFrom, Fault.map_eq_ok] at h
  obtain ⟨ls, hls, h⟩ := h
  rw [Fault.map_eq_ok] at hls
  obtain ⟨ls', hls', rfl⟩ := hls
  obtain ⟨ms', rfl, hrefines, hlevel'⟩ := refines_of_subdivideFrom hls' hlevel
  obtain ⟨worn', hworn, hdepths, hsinking⟩ :=
    exists_wearFrom_level w.ratio hlevel' (none, none) (-w.passDepth) (-w.passDepth)
  rw [applyWear, wearFrom] at h
  simp only [hworn, CutBlock.mk.injEq, List.cons.injEq, true_and] at h
  obtain rfl := List.map_injective_iff.mpr (fun _ _ => Line.move.inj) h.1
  exact ⟨hrefines.atDepths hdepths, hsinking⟩

namespace Worn

variable {ratio passDepth : ℝ} {ms worn : List (Move ℝ)}

theorem lengthFrom_unknown (m : Move ℝ) (ms : List (Move ℝ)) :
    lengthFrom (none, none) (m :: ms) = lengthFrom (Modal.after (none, none) m) ms := by
  have hnone : travelled m (none, none) (Modal.after (none, none) m) = 0 := by
    unfold travelled
    split
    next heq _ => cases heq
    next => rw [Exact.zero_eq]
  rw [lengthFrom, hnone, zero_add]

/-- The first move of a cut is at the depth of one pass. -/
theorem exists_cons {m : Move ℝ} (h : Worn ratio passDepth (m :: ms) worn) :
    ∃ m' worn', worn = m' :: worn' ∧ m.AtDepth m' ∧ m'.z = some (-passDepth) := by
  obtain ⟨hrefines, hsinking⟩ := h
  cases hrefines with
  | cons hm _ _ =>
      refine ⟨_, _, rfl, hm, ?_⟩
      rw [hsinking [] _ _ rfl, List.nil_append, lengthFrom_unknown, lengthFrom, mul_zero, sub_zero]

/-- A compensated cut is no shallower than a depth exactly if it has no moves or the depth is not
below that of one pass. -/
theorem le_iff (hratio : 0 ≤ ratio) (h : Worn ratio passDepth ms worn) (z : ℝ) :
    (∀ m ∈ worn, ∃ d, m.z = some d ∧ d ≤ z) ↔ ms = [] ∨ -passDepth ≤ z := by
  constructor
  · intro hdeep
    cases ms with
    | nil => exact .inl rfl
    | cons m ms =>
        obtain ⟨m', worn', rfl, -, hz⟩ := h.exists_cons
        obtain ⟨d, hd, hle⟩ := hdeep m' (List.mem_cons_self ..)
        rw [hz] at hd
        cases hd
        exact .inr hle
  · rintro (rfl | hpass) m hm
    · cases h.refines
      cases hm
    · obtain ⟨pre, post, rfl⟩ := List.append_of_mem hm
      have hlength := mul_nonneg hratio (lengthFrom_nonneg (none, none) (pre ++ [m]))
      exact ⟨_, h.sinking pre m post rfl, by linarith⟩

end Worn

/-- No depth of some moves is below one that goes down from `b` on in proportion to the length of
the way, which starts at `a`. -/
def StaysOver (ratio b : ℝ) (a : Modal ℝ) (ms : List (Move ℝ)) : Prop :=
  ∀ pre m post, ms = pre ++ m :: post →
    ∃ d, m.z = some d ∧ b - ratio * lengthFrom a (pre ++ [m]) ≤ d

namespace Worn

variable {ratio passDepth : ℝ} {ms worn : List (Move ℝ)}

/-- The way to the first move of a cut is the only one that the depths leave out. -/
theorem lengthFrom_cons {m : Move ℝ} {x y : ℝ} (hx : m.x = some x) (hy : m.y = some y)
    (a : Modal ℝ) (ms : List (Move ℝ)) : lengthFrom a (m :: ms)
      = travelled m a (some x, some y) + lengthFrom (none, none) (m :: ms) := by
  have hafter : ∀ a : Modal ℝ, a.after m = (some x, some y) := by
    intro a
    rw [Modal.after, hx, hy]
    rfl
  rw [lengthFrom_unknown, lengthFrom, hafter, hafter]

/-- A compensated cut that starts with a move to a vertex stays over a sinking depth exactly if that
is not above the depth of one pass when it is at the vertex. -/
theorem staysOver_iff {m : Move ℝ} {x y : ℝ} (hx : m.x = some x) (hy : m.y = some y)
    (h : Worn ratio passDepth (m :: ms) worn) (b : ℝ) (a : Modal ℝ) :
    StaysOver ratio b a worn ↔ b - ratio * travelled m a (some x, some y) ≤ -passDepth := by
  obtain ⟨m', worn', rfl, ⟨z', rfl⟩, hz⟩ := h.exists_cons
  have hlength : ∀ pre n post, { m with z := z' } :: worn' = pre ++ n :: post →
      lengthFrom a (pre ++ [n])
        = travelled m a (some x, some y) + lengthFrom (none, none) (pre ++ [n]) := by
    intro pre n post heq
    cases pre with
    | nil =>
        obtain ⟨rfl, -⟩ := List.cons_eq_cons.mp heq
        exact lengthFrom_cons hx hy a []
    | cons k pre =>
        obtain ⟨rfl, -⟩ := List.cons_eq_cons.mp heq
        exact lengthFrom_cons hx hy a (pre ++ [n])
  constructor
  · intro hover
    obtain ⟨d, hd, hle⟩ := hover [] _ _ rfl
    rw [h.sinking [] _ _ rfl] at hd
    cases hd
    rw [hlength [] _ _ rfl, mul_add] at hle
    linarith
  · intro hle pre n post heq
    refine ⟨_, h.sinking pre n post heq, ?_⟩
    rw [hlength pre n post heq, mul_add]
    linarith

end Worn

end WireErosion
