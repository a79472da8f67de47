import WireErosion.Proofs.Operation.Result
import WireErosion.Proofs.Toolpath.Faultless
import WireErosion.Proofs.Wear.Regroup
import WireErosion.Proofs.Wear.Values

/-!
# The faults of an operation

On doubles an operation that breaks no constraint may still have no program, since a coordinate may
be infinite or not a number.  But then the fault is one of arithmetic or one of the geometry library
(`Operation.isArithmetic_of_run`).  Of arithmetic there are these: a ramp divides by zero, a number
is rounded to one beyond every double, or the points on a cut are to be counted and there is no
whole number of them.  This is for settings that can be used, with a feed unit, a count of decimal
places and feeds.
-/

namespace WireErosion

/-- Whether a fault is one of arithmetic. -/
def Fault.isArithmetic : Fault → Bool
  | .divisionByZero | .floorOfInfinity | .floorOfNaN | .roundedTooLarge => true
  | _ => false

theorem isArithmetic_of_quotient {a b : Float} {e : Fault} (h : Scalar.quotient a b = .error e) :
    e.isArithmetic = true := by
  rw [quotient_eq_error h]
  rfl

theorem isArithmetic_of_floor {x : Float} {e : Fault} (h : Scalar.floor x = .error e) :
    e.isArithmetic = true := by
  change Double.floor x = .error e at h
  unfold Double.floor at h
  split at h <;> cases h <;> rfl

theorem isArithmetic_of_roundTo {places : Int} {x : Float} {e : Fault}
    (h : Scalar.roundTo places x = .error e) : e.isArithmetic = true := by
  simp only [Scalar.roundTo] at h
  split at h <;> cases h
  rfl

/-! ## Toolpaths -/

section

variable {round : Float → Except Fault Float}
  (hround : ∀ x e, round x = .error e → e.isArithmetic = true)

include hround

theorem isArithmetic_of_roundField {field : Option Float} {e : Fault}
    (h : roundField round field = .error e) : e.isArithmetic = true := by
  cases field with
  | none => cases h
  | some x =>
      rw [roundField] at h
      exact hround x e (Fault.map_eq_error.mp h)

theorem isArithmetic_of_round {l : Line Float} {e : Fault} (h : l.round round = .error e) :
    e.isArithmetic = true := by
  cases l with
  | comment t => cases h
  | move m =>
      simp only [Line.round, Fault.bind_eq_error] at h
      obtain h | ⟨_, -, h | ⟨_, -, h | ⟨_, -, h | ⟨_, -, h⟩⟩⟩⟩ := h
      · exact isArithmetic_of_roundField hround h
      · exact isArithmetic_of_roundField hround h
      · exact isArithmetic_of_roundField hround h
      · exact isArithmetic_of_roundField hround h
      · cases h

end

theorem ToolpathParams.isArithmetic_of_compile {c : ToolpathParams Float}
    (hround : ∀ x e, c.round x = .error e → e.isArithmetic = true) {paths : List (CamPath Float)}
    {e : Fault} (h : c.compile paths = .error e) : e.isArithmetic = true := by
  obtain ⟨l, ⟨pre, post, hplan, -⟩, hl⟩ := Fault.mapM_eq_error.mp h
  have hmem : l ∈ c.plan paths := by
    rw [hplan]
    exact List.mem_append_right _ (List.mem_cons_self ..)
  cases l with
  | error f =>
      cases hl
      rw [faultsIn_plan c paths e hmem]
      rfl
  | ok l => exact isArithmetic_of_round hround hl

/-! ## Wear -/

theorem isArithmetic_of_intermediateMoves {m : Move Float} {a b : Modal Float} {spacing : Float}
    {e : Fault} (h : intermediateMoves m a b spacing = .error e) : e.isArithmetic = true := by
  unfold intermediateMoves at h
  dsimp only at h
  split at h
  next => cases h
  next =>
    simp only [Fault.bind_eq_error] at h
    obtain h | ⟨_, -, h | ⟨_, -, h⟩⟩ := h
    · exact isArithmetic_of_quotient h
    · exact isArithmetic_of_floor h
    · cases h

theorem isArithmetic_of_subdivideFrom {spacing : Float} {e : Fault} :
    ∀ {ls : List (Line Float)} {p : Modal Float}, subdivideFrom spacing p ls = .error e →
      e.isArithmetic = true
  | [], _, h => by cases h
  | .comment t :: ls, _, h => by
      rw [subdivideFrom] at h
      exact isArithmetic_of_subdivideFrom (Fault.map_eq_error.mp h)
  | .move m :: ls, p, h => by
      rw [subdivideFrom] at h
      split at h
      next =>
        dsimp only at h
        split at h
        next => cases h
        next =>
          simp only [Fault.bind_eq_error] at h
          obtain h | ⟨_, -, h | ⟨_, -, h⟩⟩ := h
          · exact isArithmetic_of_intermediateMoves h
          · exact isArithmetic_of_subdivideFrom h
          · cases h
      next => exact isArithmetic_of_subdivideFrom (Fault.map_eq_error.mp h)

theorem CutBlock.isArithmetic_of_compensate {w : WearParams Float} {b : CutBlock Float} {e : Fault}
    (h : b.compensate w = .error e) : e.isArithmetic = true := by
  rw [CutBlock.compensate, subdivide] at h
  exact isArithmetic_of_subdivideFrom (Fault.map_eq_error.mp h)

/-- A program after a summary fails to be compensated only if one of its cuts does. -/
theorem Program.isArithmetic_of_compensate {w : WearParams Float} {summary p : Program Float}
    (hsummary : IsSummary summary) {e : Fault}
    (h : (Program.compensate w (summary ++ p)).outcome = .error e) : e.isArithmetic = true := by
  cases hcuts : p.part.cuts.mapM (CutBlock.compensate w) with
  | ok cuts =>
      obtain ⟨q, hq⟩ := Program.exists_compensate hsummary
        (Fault.exists_mapM_iff.mp ⟨cuts, hcuts⟩)
      rw [hq] at h
      cases h
  | error f =>
      obtain ⟨b, -, hb⟩ := Fault.mapM_eq_error.mp hcuts
      simp only [compensate, Report.bind_eq, part_summary hsummary, hcuts] at h
      rw [Report.outcome_bind (Report.outcome_tell _), Report.outcome_bind (Report.outcome_tell _)]
        at h
      cases h
      exact CutBlock.isArithmetic_of_compensate hb

/-! ## Operations -/

theorem isGeometric_of_ofGeometry {α : Type} {r : Except GeometryFault α} {e : Fault}
    (h : Fault.ofGeometry r = .error e) : ∃ f, e = .geometry f := by
  cases r with
  | ok a => cases h
  | error f => cases h; exact ⟨f, rfl⟩

namespace Operation

variable [Geometry] {op : Operation Float} {paths : List (CamPath Float)} {e : Fault}

theorem isGeometric_of_tabRegion {tabs : Option Geometry.Region}
    (h : op.tabRegion tabs = .error e) : ∃ f, e = .geometry f := by
  unfold tabRegion at h
  split at h
  next => cases h
  next =>
    split_ifs at h
    exact isGeometric_of_ofGeometry (Fault.map_eq_error.mp h)

theorem isGeometric_of_answers {region : Option Geometry.Region}
    (h : op.answers region paths = .error e) : ∃ f, e = .geometry f := by
  unfold answers at h
  split at h
  next => cases h
  next =>
    split_ifs at h
    exact isGeometric_of_ofGeometry h

/-- With settings that can be used, an operation fails only if it breaks a constraint, for a fault
of arithmetic, or as the geometry library does. -/
theorem isArithmetic_of_run {index : Int} {tabs : Option Geometry.Region} {settings : Settings}
    {unit : FeedUnit} {places : Int} {feeds : Option Float × Option Float}
    (hunit : settings.unit = .ok unit) (hplaces : settings.places = .integer places)
    (hfeeds : settings.feeds = .ok feeds)
    (h : (op.run index paths tabs settings).outcome = .error e) :
    e = .rejected op.broken ∨ e.isArithmetic = true ∨ ∃ f, e = .geometry f := by
  have hround : ∀ x e, settings.round x = .error e → e.isArithmetic = true := by
    intro x e hx
    rw [Settings.round, hplaces] at hx
    exact isArithmetic_of_roundTo hx
  rcases run_eq_error h with h | h | h | ⟨region, h⟩ | ⟨w, htakes, h | ⟨p, -, h⟩⟩
  · exact .inl h
  · exact .inr (.inr (isGeometric_of_tabRegion h))
  · rw [hunit] at h
    cases h
  · exact .inr (.inr (isGeometric_of_answers h))
  · rw [htakes.workshop] at h
    exact .inr (.inl (ToolpathParams.isArithmetic_of_compile hround h))
  · rw [htakes.workshop, wearValues_eq hfeeds, Program.compensate_number] at h
    rw [Report.outcome_map, Fault.map_eq_error] at h
    exact .inr (.inl (Program.isArithmetic_of_compensate (op.isSummary_header _ _ _) h))

/-- With feeds that are numbers the program of an operation has numbers only. -/
theorem exists_values_of_run {index : Int} {tabs : Option Geometry.Region} {settings : Settings}
    {feeds : Option Float × Option Float} {result : OperationResult FieldValue}
    (hfeeds : settings.feeds = .ok feeds)
    (h : (op.run index paths tabs settings).outcome = .ok result) :
    ∃ p : Program Float, result.program = p.values := by
  obtain ⟨-, w, assembled, htakes, -, hresult⟩ := run_eq_ok.mp h
  obtain ⟨hprogram, -⟩ := Program.toResult_eq_ok.mp hresult
  split at hprogram
  · rw [htakes.workshop, wearValues_eq hfeeds, Program.compensate_number, Report.outcome_map,
      Fault.map_eq_ok] at hprogram
    obtain ⟨q, -, hq⟩ := hprogram
    exact ⟨q, hq.symm⟩
  · exact ⟨assembled, (Except.ok.inj hprogram).symm⟩

end Operation

end WireErosion
