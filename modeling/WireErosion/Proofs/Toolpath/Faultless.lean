import WireErosion.Proofs.Depth.Toolpath

/-!
# The faults of a toolpath

The only lines that a plan can be without are those at the start of a ramp.  The time of a descent
is a quotient by the plunge feed, and the feed of the ramp is a quotient by that time.  So a plan is
without a line only for a division by zero (`ToolpathParams.faultsIn_plan`).

In exact arithmetic the time of a descent is not zero, since a ramp goes down.  So a toolpath that
does not ramp at a zero plunge feed compiles (`ToolpathParams.exists_compile_of_feed`).
-/

namespace WireErosion

variable {α : Type} {kind : Fault → Prop}

/-- A plan that is without a line only for the given kind of fault. -/
def FaultsIn (kind : Fault → Prop) (ps : List (Planned α)) : Prop := ∀ f, .error f ∈ ps → kind f

@[simp] theorem faultsIn_nil : FaultsIn kind ([] : List (Planned α)) := by
  simp [FaultsIn]

@[simp] theorem faultsIn_ok_cons {l : Line α} {ps : List (Planned α)} :
    FaultsIn kind (.ok l :: ps) ↔ FaultsIn kind ps := by
  simp [FaultsIn]

@[simp] theorem faultsIn_planMove_cons {m : Move α} {ps : List (Planned α)} :
    FaultsIn kind (planMove m :: ps) ↔ FaultsIn kind ps :=
  faultsIn_ok_cons

@[simp] theorem faultsIn_append {ps qs : List (Planned α)} :
    FaultsIn kind (ps ++ qs) ↔ FaultsIn kind ps ∧ FaultsIn kind qs := by
  simp [FaultsIn, or_imp, forall_and]

/-- A plan has all of its lines if no fault is of the kind. -/
theorem FaultsIn.exists_map : ∀ {ps : List (Planned α)}, FaultsIn (fun _ => False) ps →
    ∃ ls : Program α, ps = ls.map .ok
  | [], _ => ⟨[], rfl⟩
  | .error f :: _, h => absurd (List.mem_cons_self ..) (h f)
  | .ok l :: ps, h => by
      obtain ⟨ls, rfl⟩ := (faultsIn_ok_cons.mp h).exists_map
      exact ⟨l :: ls, rfl⟩

variable [Scalar α]

/-! ## Descents -/

section

variable {d : DescentParams α} {fromZ toZ : α}

theorem faultsIn_rampMoves {total : α} : ∀ (travelled : α) (a : Point α) (ps : List (Point α)),
    FaultsIn kind (rampMoves fromZ toZ total travelled a ps)
  | _, _, [] => faultsIn_nil
  | _, _, _ :: ps => faultsIn_planMove_cons.mpr (faultsIn_rampMoves _ _ ps)

theorem faultsIn_rampFrom {total time : α}
    (htime : ∀ f, Scalar.quotient total time = .error f → kind f) (a : Point α)
    (ps : List (Point α)) : FaultsIn kind (rampFrom d fromZ toZ total time a ps) := by
  cases ps with
  | nil => exact faultsIn_nil
  | cons b ps =>
      rw [rampFrom]
      cases hquotient : Scalar.quotient total time with
      | ok most => exact faultsIn_ok_cons.mpr (faultsIn_rampMoves _ _ _)
      | error f =>
          intro g hg
          rcases List.mem_cons.mp hg with hg | hg
          · cases hg
            exact htime f hquotient
          · exact faultsIn_rampMoves _ _ _ g hg

omit [Scalar α] in
theorem faultsIn_straightDown : FaultsIn kind (straightDown d toZ) := by
  simp [straightDown]

theorem faultsIn_descent
    (hfeed : d.ramp = true → ∀ f, Scalar.quotient (fromZ - toZ) d.plungeFeed = .error f → kind f)
    (htime : d.ramp = true → ∀ time, Scalar.quotient (fromZ - toZ) d.plungeFeed = .ok time →
      ∀ total f, Scalar.quotient total time = .error f → kind f)
    (a : Point α) (rest : List (Point α)) : FaultsIn kind (descent d a rest fromZ toZ) := by
  rw [descent]
  split
  next hramp =>
    rw [ramp?]
    cases hquotient : Scalar.quotient (fromZ - toZ) d.plungeFeed with
    | error f =>
        intro g hg
        cases List.mem_singleton.mp hg
        exact hfeed hramp f hquotient
    | ok time =>
        dsimp only
        split
        next => exact faultsIn_straightDown
        next => exact faultsIn_ok_cons.mpr (faultsIn_rampFrom (htime hramp time hquotient _) _ _)
  next => exact faultsIn_straightDown

theorem quotient_eq_error {a b : α} {f : Fault} (h : Scalar.quotient a b = .error f) :
    f = .divisionByZero := by
  unfold Scalar.quotient at h
  split at h <;> cases h
  rfl

end

/-- In exact arithmetic a descent at a plunge feed that is not zero has all of its lines. -/
theorem faultless_descent {d : DescentParams ℝ} (hfeed : d.ramp = true → d.plungeFeed ≠ 0)
    {fromZ toZ : ℝ} (hlt : toZ < fromZ) (a : Point ℝ) (rest : List (Point ℝ)) :
    FaultsIn (fun _ => False) (descent d a rest fromZ toZ) := by
  refine faultsIn_descent (fun hramp f hf => ?_) (fun hramp time htime total f hf => ?_) a rest
  · rw [Exact.quotient_eq (hfeed hramp)] at hf
    cases hf
  · rw [Exact.quotient_eq (hfeed hramp)] at htime
    obtain rfl := Except.ok.inj htime
    rw [Exact.quotient_eq (div_ne_zero (sub_pos.mpr hlt).ne' (hfeed hramp))] at hf
    cases hf

/-! ## Toolpaths -/

namespace ToolpathParams

variable {c : ToolpathParams α}

omit [Scalar α] in
theorem faultsIn_cutMoves (ps : List (Point α)) : FaultsIn kind (c.cutMoves ps) := by
  cases ps with
  | nil => exact faultsIn_nil
  | cons p ps =>
      rw [cutMoves, faultsIn_planMove_cons]
      intro f hf
      obtain ⟨q, -, hq⟩ := List.mem_map.mp hf
      cases hq

variable (hdescent : c.usePathZ = false → ∀ (a : Point α) (rest : List (Point α)) (fromZ toZ : α),
  toZ < fromZ → FaultsIn kind (descent c.descents a rest fromZ toZ))

include hdescent

theorem faultsIn_entryLines (hflat : c.usePathZ = false) (tabTop fromZ toZ : α) (a : Point α)
    (rest : List (Point α)) : FaultsIn kind (c.entryLines tabTop a rest fromZ toZ) := by
  rw [entryLines]
  split
  next hdown => exact hdescent hflat a rest fromZ toZ hdown
  next =>
    split
    next => simp [rapidToZ]
    next => exact faultsIn_nil

theorem faultsIn_runLines (tabTop next : α) : ∀ (runs : List (List (Point α))) (inside : Bool)
    (z : α), FaultsIn kind (c.runLines tabTop next inside z runs).1
  | [], _, _ => faultsIn_nil
  | [] :: runs, inside, z => faultsIn_runLines tabTop next runs (!inside) z
  | (a :: rest) :: runs, inside, z => by
      have hentry : FaultsIn kind (if c.usePathZ then [] else
          c.entryLines tabTop a rest z (if inside then tabTop else next)) := by
        split
        next => exact faultsIn_nil
        next hflat => exact faultsIn_entryLines hdescent (Bool.not_eq_true _ ▸ hflat) _ _ _ _ _
      have hrest := faultsIn_runLines tabTop next runs (!inside)
        (if c.usePathZ then z else if inside then tabTop else next)
      rw [runLines]
      simp only [List.append_assoc, List.cons_append, faultsIn_append, faultsIn_ok_cons]
      exact ⟨hentry, faultsIn_cutMoves rest, hrest⟩

theorem faultsIn_passesLines (tabs : Option (Tabs α)) (path : ReadyPath α) :
    ∀ (passes : List (Pass α)) (z : α), FaultsIn kind (c.passesLines tabs path z passes)
  | [], _ => faultsIn_nil
  | pass :: passes, z => by
      have hpass : FaultsIn kind (c.passLines tabs path z pass).1 := by
        rw [passLines_eq, approachLines]
        simp only [List.append_assoc, faultsIn_append]
        refine ⟨?_, by simp [travelLines, rapidToZ], faultsIn_runLines hdescent _ _ _ _ _⟩
        split <;> simp [retractLines, rapidToZ]
      rw [passesLines]
      exact faultsIn_append.mpr ⟨hpass, faultsIn_passesLines tabs path passes _⟩

theorem faultsIn_pathsLines (tabs : Option (Tabs α)) : ∀ (paths : List (CamPath α)) (i : Nat),
    FaultsIn kind (c.pathsLines tabs i paths)
  | [], _ => faultsIn_nil
  | path :: paths, i => by
      rw [pathsLines, pathLines]
      refine faultsIn_append.mpr ⟨?_, faultsIn_pathsLines tabs paths _⟩
      split
      next => exact faultsIn_nil
      next =>
        simp only [List.cons_append, faultsIn_ok_cons, faultsIn_append]
        exact ⟨faultsIn_passesLines hdescent _ _ _ _, by simp [retractLines, rapidToZ]⟩

theorem faultsIn_plan_of_descent (paths : List (CamPath α)) : FaultsIn kind (c.plan paths) := by
  rw [plan]
  exact faultsIn_append.mpr ⟨by simp [retractLines, rapidToZ], faultsIn_pathsLines hdescent _ _ _⟩

omit hdescent in
/-- A plan is without a line only for a division by zero. -/
theorem faultsIn_plan (c : ToolpathParams α) (paths : List (CamPath α)) :
    FaultsIn (· = .divisionByZero) (c.plan paths) :=
  faultsIn_plan_of_descent (fun _ a rest _ _ _ =>
    faultsIn_descent (fun _ _ h => quotient_eq_error h)
      (fun _ _ _ _ _ h => quotient_eq_error h) a rest) paths

omit hdescent in
/-- A plan for paths that carry their own depth has no descents, and so all of its lines. -/
theorem faultless_plan_of_usePathZ (hpath : c.usePathZ = true) (paths : List (CamPath α)) :
    FaultsIn (fun _ => False) (c.plan paths) := by
  refine faultsIn_plan_of_descent (fun hflat => ?_) paths
  rw [hpath] at hflat
  cases hflat

end ToolpathParams

/-- A toolpath that does not ramp at a zero plunge feed compiles. -/
theorem ToolpathParams.exists_compile_of_feed {c : ToolpathParams ℝ}
    (hfeed : c.descents.ramp = true → c.descents.plungeFeed ≠ 0) {r : ℝ → ℝ}
    (hround : IsRounding c.round r) (paths : List (CamPath ℝ)) :
    ∃ p, c.compile paths = .ok p := by
  have hplan : FaultsIn (fun _ => False) (c.plan paths) :=
    faultsIn_plan_of_descent (fun _ a rest _ _ hlt => faultless_descent hfeed hlt a rest) paths
  obtain ⟨ls, hls⟩ := hplan.exists_map
  exact ⟨_, compile_eq hround hls⟩

end WireErosion
