import WireErosion.Proofs.Depth.Findings

/-!
# Counting rises

How many rises the depth check finds in a program that is put together from parts.  A rise is a
matter of two moves with depths that follow each other, so the count of the parts also takes the
depth before a part (`riseCount`).  Moves that only go down count nothing and pass their last depth
on (`riseCount_falls`).

The check itself counts from the first travel marker on (`exists_checkDepth`).  Nothing but the
comments and the depths of the moves matters to it (`bodyRises_congr`).
-/

namespace WireErosion

/-! ## The count of a part -/

/-- The number of rises in a part of a program, where `before` is the depth that a move at its start
is compared with. -/
noncomputable def riseCount (before : Option ℝ) (p : Program ℝ) : Nat :=
  (risesFrom 0 before p).length

theorem length_toList_riseAt? (i j : Nat) (before : Option ℝ) (m : Move ℝ) :
    (riseAt? i before m).toList.length = (riseAt? j before m).toList.length := by
  unfold riseAt?
  split
  · split_ifs <;> rfl
  · rfl

/-- The count does not depend on the index of the first line. -/
theorem length_risesFrom (j : Nat) : ∀ (p : Program ℝ) (i : Nat) (before : Option ℝ),
    (risesFrom i before p).length = (risesFrom j before p).length
  | [], _, _ => rfl
  | .comment t :: ls, i, before => by
      rw [risesFrom, risesFrom]
      exact (length_risesFrom 0 ls (i + 1) _).trans (length_risesFrom 0 ls (j + 1) _).symm
  | .move m :: ls, i, before => by
      rw [risesFrom, risesFrom, List.length_append, List.length_append,
        length_toList_riseAt? i j, length_risesFrom 0 ls (i + 1), length_risesFrom 0 ls (j + 1)]

section

variable {before : Option ℝ} {a z : ℝ} {t : String} {m : Move ℝ} {p : Program ℝ}

theorem riseCount_comment (h : ¬ (Comment.kind t = .retract ∨ Comment.kind t = .retractForTab)) :
    riseCount before (.comment t :: p) = riseCount before p := by
  rw [riseCount, risesFrom, if_neg h, length_risesFrom 0, riseCount]

theorem riseCount_retract (h : Comment.kind t = .retract ∨ Comment.kind t = .retractForTab) :
    riseCount before (.comment t :: p) = riseCount none p := by
  rw [riseCount, risesFrom, if_pos h, length_risesFrom 0, riseCount]

theorem riseCount_move (m : Move ℝ) (p : Program ℝ) :
    riseCount before (.move m :: p) =
      (riseAt? 0 before m).toList.length + riseCount m.z p := by
  rw [riseCount, risesFrom, List.length_append, length_risesFrom 0 p, riseCount]

/-- A move without a depth ends the comparison. -/
theorem riseCount_level (hz : m.z = none) :
    riseCount before (.move m :: p) = riseCount none p := by
  rw [riseCount_move, hz]
  cases before <;> simp [riseAt?, hz]

/-- A move is not compared with an unknown depth. -/
theorem riseCount_first (hz : m.z = some z) :
    riseCount none (.move m :: p) = riseCount (some z) p := by
  rw [riseCount_move, hz]
  simp [riseAt?]

/-- A move with a depth after another one counts if it is above it. -/
theorem riseCount_next (hz : m.z = some z) :
    riseCount (some a) (.move m :: p) = (if a < z then 1 else 0) + riseCount (some z) p := by
  rw [riseCount_move, hz]
  simp only [riseAt?, hz]
  split_ifs <;> rfl

end

/-! ## Moves that go down -/

theorem riseCount_falls {a b : ℝ} {ms : List (Move ℝ)} (h : Falls a ms b) (p : Program ℝ) :
    riseCount (some a) (ms.map .move ++ p) = riseCount (some b) p := by
  induction h with
  | done => rfl
  | step hz hle _ ih =>
      rw [List.map_cons, List.cons_append, riseCount_next hz, if_neg (not_lt.mpr hle), ih, zero_add]

/-! ## The check of a program -/

theorem bodyFrom_append {pre : Program ℝ} (hpre : ∀ l ∈ pre, l.kind ≠ .rapidToStart)
    (body : Program ℝ) (i : Nat) :
    bodyFrom i (pre ++ .rapidToStart :: body) = some (i + pre.length + 1, body) := by
  have hmarker : (Line.rapidToStart : Line ℝ).kind = .rapidToStart := by decide
  rw [bodyFrom_append_front hpre, bodyFrom, if_pos hmarker]

/-- The number of rises after the first travel marker, zero if there is none. -/
noncomputable def bodyRises (p : Program ℝ) : Nat :=
  match bodyFrom 0 p with
  | some (_, body) => riseCount none body
  | none => 0

theorem bodyRises_append {pre : Program ℝ} (hpre : ∀ l ∈ pre, l.kind ≠ .rapidToStart)
    (body : Program ℝ) : bodyRises (pre ++ .rapidToStart :: body) = riseCount none body := by
  rw [bodyRises, bodyFrom_append hpre]

theorem bodyRises_eq_zero {p : Program ℝ} (hp : ∀ l ∈ p, l.kind ≠ .rapidToStart) :
    bodyRises p = 0 := by
  rw [bodyRises, bodyFrom_eq_none hp]

/-- The check counts the rises after the first travel marker. -/
theorem exists_checkDepth (most : Int) (p : Program ℝ) :
    ∃ check, (checkDepth most p).outcome = .ok check ∧ check.count = bodyRises p := by
  unfold checkDepth bodyRises
  cases hbody : bodyFrom 0 p with
  | none => exact ⟨_, rfl, rfl⟩
  | some found =>
      obtain ⟨i, body⟩ := found
      dsimp only
      rw [Report.outcome_bind (Report.outcome_tellAll _)]
      exact ⟨_, rfl, length_risesFrom 0 body i none⟩

/-! ## Programs with the same depths -/

/-- Two comments with the same text, or two moves with the same depth. -/
inductive SameDepth : Line ℝ → Line ℝ → Prop
  | comment (t : String) : SameDepth (.comment t) (.comment t)
  | move {m n : Move ℝ} : n.z = m.z → SameDepth (.move m) (.move n)

theorem SameDepth.refl : ∀ l : Line ℝ, SameDepth l l
  | .comment t => .comment t
  | .move _ => .move rfl

theorem SameDepth.kind {k l : Line ℝ} (h : SameDepth k l) : l.kind = k.kind := by
  cases h <;> rfl

theorem riseCount_congr {p q : Program ℝ} (h : List.Forall₂ SameDepth p q) :
    ∀ before : Option ℝ, riseCount before q = riseCount before p := by
  induction h with
  | nil => exact fun _ => rfl
  | cons hl _ ih =>
      intro before
      cases hl with
      | comment t =>
          by_cases hretract : Comment.kind t = .retract ∨ Comment.kind t = .retractForTab
          · rw [riseCount_retract hretract, riseCount_retract hretract, ih]
          · rw [riseCount_comment hretract, riseCount_comment hretract, ih]
      | @move m n hz =>
          cases hm : m.z with
          | none => rw [riseCount_level (hz.trans hm), riseCount_level hm, ih]
          | some z =>
              cases before with
              | none => rw [riseCount_first (hz.trans hm), riseCount_first hm, ih]
              | some a => rw [riseCount_next (hz.trans hm), riseCount_next hm, ih]

theorem bodyRises_congr {p q : Program ℝ} (h : List.Forall₂ SameDepth p q) :
    bodyRises q = bodyRises p := by
  unfold bodyRises
  rcases bodyFrom_forall₂ SameDepth.kind h 0 with ⟨hp, hq⟩ | ⟨j, b, c, hp, hq, hbc⟩
  · rw [hp, hq]
  · rw [hp, hq]
    exact riseCount_congr hbc none

end WireErosion
