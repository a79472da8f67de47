import Mathlib.Algebra.Order.Floor.Semiring
import Mathlib.Data.List.Range
import WireErosion.Proofs.Depth.Toolpath

/-!
# The schedule in exact arithmetic

After `k` passes the depth is `passZ k`, one pass depth lower each time and clamped to the final
depth.  There are as many passes as it takes to get there, rounded up (`schedule_eq`), so the bound
on the number of passes is never reached (`passCount_le_passBound`).
-/

namespace WireErosion

open ToolpathParams (passFrom_next)

theorem next_lt_of_mem_passesFrom {passDepth bottom : ℝ} (hpass : 0 < passDepth) :
    ∀ {fuel : Nat} {finished : ℝ} {pass : Pass ℝ},
      pass ∈ passesFrom passDepth bottom fuel finished → pass.next < pass.finished
  | 0, _, _, h => by cases h
  | fuel + 1, finished, pass, h => by
      rw [passesFrom] at h
      split at h
      next hbottom =>
        rcases List.mem_cons.mp h with rfl | h
        · exact (passFrom_next hpass hbottom).1
        · exact next_lt_of_mem_passesFrom hpass h
      next => cases h

/-! ## Closed form -/

/-- The depth that is finished after a number of passes. -/
noncomputable def passZ (passDepth bottom top : ℝ) (k : ℕ) : ℝ := max (top - k * passDepth) bottom

/-- The number of passes between two depths. -/
noncomputable def passCount (passDepth bottom top : ℝ) : ℕ := ⌈(top - bottom) / passDepth⌉₊

/-- The pass after a number of others. -/
noncomputable def passAt (passDepth bottom top : ℝ) (k : ℕ) : Pass ℝ :=
  ⟨passZ passDepth bottom top k, passZ passDepth bottom top (k + 1)⟩

section

variable {passDepth bottom top : ℝ}

theorem passZ_zero (h : bottom ≤ top) : passZ passDepth bottom top 0 = top := by
  simp [passZ, h]

theorem bottom_le_passZ (k : ℕ) : bottom ≤ passZ passDepth bottom top k := le_max_right _ _

/-- The final depth is reached with the last pass. -/
theorem bottom_lt_passZ (hpass : 0 < passDepth) {k : ℕ} :
    bottom < passZ passDepth bottom top k ↔ k < passCount passDepth bottom top := by
  rw [passZ, lt_max_iff, passCount, Nat.lt_ceil, lt_div_iff₀ hpass]
  constructor
  · rintro (h | h)
    · linarith
    · exact absurd h (lt_irrefl _)
  · intro h
    left
    linarith

theorem passZ_passCount (hpass : 0 < passDepth) :
    passZ passDepth bottom top (passCount passDepth bottom top) = bottom := by
  refine le_antisymm (not_lt.mp ?_) (bottom_le_passZ _)
  rw [bottom_lt_passZ hpass]
  exact lt_irrefl _

theorem passFrom_passZ (hpass : 0 < passDepth) (k : ℕ) :
    passFrom passDepth bottom (passZ passDepth bottom top k) = passAt passDepth bottom top k := by
  -- Clamping before the step changes nothing, since the step goes down.
  have hstep : max (max (top - k * passDepth) bottom - passDepth) bottom
      = max (top - (k + 1 : ℕ) * passDepth) bottom := by
    have hclamp : bottom - passDepth ≤ bottom := by linarith
    rw [← max_sub_sub_right, max_assoc, max_eq_right hclamp, Nat.cast_add, Nat.cast_one, add_mul,
      one_mul, sub_add_eq_sub_sub]
  rw [passFrom, passAt, Exact.max_eq, passZ, passZ, hstep]

/-- The passes from the depth after `k` passes on. -/
theorem passesFrom_passZ (hpass : 0 < passDepth) : ∀ fuel k : ℕ,
    passCount passDepth bottom top ≤ k + fuel →
    passesFrom passDepth bottom fuel (passZ passDepth bottom top k) =
      (List.range' k (passCount passDepth bottom top - k)).map (passAt passDepth bottom top)
  | 0, k, hfuel => by
      have hk : passCount passDepth bottom top ≤ k := hfuel
      rw [Nat.sub_eq_zero_of_le hk]
      rfl
  | fuel + 1, k, hfuel => by
      rw [passesFrom]
      split
      next hmore =>
        have hk := (bottom_lt_passZ hpass).mp hmore
        have hcount : passCount passDepth bottom top - k
            = passCount passDepth bottom top - (k + 1) + 1 := by omega
        rw [hcount, List.range'_succ, List.map_cons, passFrom_passZ hpass,
          ← passesFrom_passZ hpass fuel (k + 1) (by omega)]
        rfl
      next hdone =>
        have hk := not_lt.mp (mt (bottom_lt_passZ hpass).mpr hdone)
        rw [Nat.sub_eq_zero_of_le hk]
        rfl

theorem passCount_le_passBound (hpass : 0 < passDepth) (h : bottom ≤ top) :
    passCount passDepth bottom top ≤ passBound passDepth bottom top := by
  have hmono : ⌊bottom / passDepth⌋ ≤ ⌊top / passDepth⌋ :=
    Int.floor_mono (div_le_div_of_nonneg_right h hpass.le)
  have hbound : ((passBound passDepth bottom top : ℕ) : ℝ)
      = 2 * (⌊top / passDepth⌋ - ⌊bottom / passDepth⌋) + 4 := by
    rw [passBound, passMultiple, passMultiple, Exact.floor_eq, Exact.floor_eq]
    have hcast : (((2 * (⌊top / passDepth⌋ - ⌊bottom / passDepth⌋) + 4).toNat : ℤ) : ℝ)
        = ((2 * (⌊top / passDepth⌋ - ⌊bottom / passDepth⌋) + 4 : ℤ) : ℝ) := by
      rw [Int.toNat_of_nonneg (by omega)]
    push_cast at hcast ⊢
    exact hcast
  have hmono' : (⌊bottom / passDepth⌋ : ℝ) ≤ ⌊top / passDepth⌋ := Int.cast_le.mpr hmono
  have htop := Int.lt_floor_add_one (top / passDepth)
  have hbottom := Int.floor_le (bottom / passDepth)
  rw [passCount, Nat.ceil_le, hbound, sub_div]
  linarith

/-- The passes between two depths. -/
theorem schedule_eq (hpass : 0 < passDepth) (h : bottom ≤ top) :
    schedule passDepth bottom top =
      (List.range (passCount passDepth bottom top)).map (passAt passDepth bottom top) := by
  have hfuel : passCount passDepth bottom top ≤ 0 + passBound passDepth bottom top := by
    rw [Nat.zero_add]
    exact passCount_le_passBound hpass h
  have hpasses := passesFrom_passZ hpass _ 0 hfuel
  rw [passZ_zero h] at hpasses
  rw [schedule, hpasses, Nat.sub_zero, List.range_eq_range']

/-- A pass goes down from where the one before it ended. -/
theorem isChain_schedule (hpass : 0 < passDepth) (h : bottom ≤ top) :
    (schedule passDepth bottom top).IsChain fun pass pass' => pass'.finished = pass.next := by
  rw [schedule_eq hpass h, List.isChain_map, List.isChain_range]
  exact fun _ _ => rfl

theorem bottom_le_next_of_mem_schedule (hpass : 0 < passDepth) (h : bottom ≤ top) {pass : Pass ℝ}
    (hmem : pass ∈ schedule passDepth bottom top) : bottom ≤ pass.next := by
  rw [schedule_eq hpass h] at hmem
  obtain ⟨k, -, rfl⟩ := List.mem_map.mp hmem
  exact bottom_le_passZ _

/-- The last pass ends at the final depth. -/
theorem exists_last_of_schedule (hpass : 0 < passDepth) (h : bottom < top) :
    ∃ (front : List (Pass ℝ)) (last : Pass ℝ),
      schedule passDepth bottom top = front ++ [last] ∧ last.next = bottom := by
  have hmore : 0 < passCount passDepth bottom top := by
    rw [← bottom_lt_passZ hpass, passZ_zero h.le]
    exact h
  obtain ⟨n, hn⟩ := Nat.exists_eq_succ_of_ne_zero hmore.ne'
  refine ⟨(List.range n).map (passAt passDepth bottom top), passAt passDepth bottom top n, ?_, ?_⟩
  · rw [schedule_eq hpass h.le, hn, List.range_succ, List.map_append, List.map_singleton]
  · rw [passAt, ← Nat.succ_eq_add_one, ← hn, passZ_passCount hpass]

end

namespace ToolpathParams

variable {c : ToolpathParams ℝ}

theorem passes_of_flat (hflat : c.usePathZ = false) :
    c.passes = schedule c.passDepth c.bottomZ c.topZ := by
  rw [passes, if_neg (by simp [hflat])]

/-- Passes go down, but not below the final depth. -/
theorem passes_down (hflat : c.usePathZ = false) (hpass : 0 < c.passDepth)
    (hdeep : c.bottomZ ≤ c.topZ) :
    ∀ pass ∈ c.passes, c.bottomZ ≤ pass.next ∧ pass.next ≤ pass.finished := by
  intro pass hmem
  rw [passes_of_flat hflat] at hmem
  exact ⟨bottom_le_next_of_mem_schedule hpass hdeep hmem, (next_lt_of_mem_passesFrom hpass hmem).le⟩

end ToolpathParams

end WireErosion
