import WireErosion.Proofs.Operation.Admission
import WireErosion.Proofs.Operation.Summary
import WireErosion.Proofs.Program.RoundTrip
import WireErosion.Proofs.Residue.Fields

/-!
# The result of an operation

What the run of an operation is put together from.  An operation that is admitted takes its unit
and its tabs from the job (`Operation.Takes`), its lines are put together, and what comes of it is
compensated if asked for and then checked (`Operation.run_eq_ok`).  Reading hooks and checking
depths never fail.  So the run of an operation only fails in one of the other stages
(`Operation.run_eq_error`).
-/

namespace WireErosion

/-! ## Results -/

theorem exists_checkDepth_outcome {α : Type} [Scalar α] (most : Int) (p : Program α) :
    ∃ check, (checkDepth most p).outcome = .ok check := by
  unfold checkDepth
  split <;> exact ⟨_, rfl⟩

namespace Operation

/-- What is put together, if the hooks can be read. -/
theorem outcome_assemble {α : Type} [Scalar α] {op : Operation α} {w : Workshop α}
    {summary start finish : Program α} {before after : Report α (Program α)}
    (hbefore : before.outcome = .ok start) (hafter : after.outcome = .ok finish)
    (paths : List (CamPath α)) :
    (op.assemble w summary before after paths).outcome
      = ((op.toolpath w).compile (op.prepare paths)).map
        fun body => summary ++ (start ++ body ++ finish) := by
  simp only [assemble, Report.bind_eq]
  rw [Report.outcome_bind hbefore]
  cases (op.toolpath w).compile (op.prepare paths) with
  | error f => rfl
  | ok body =>
      rw [Report.outcome_bind (Report.outcome_lift _), Report.outcome_bind hafter]
      simp [Except.map]

end Operation

/-- A program becomes a result as it is compensated if asked for, and then checked. -/
theorem Program.outcome_toResult {α : Type} [Scalar α] (name : String) (compensates : Bool)
    (w : WearParams α) (p : Program α) :
    (p.toResult name compensates w).outcome
      = (if compensates then (p.compensate w).outcome else .ok p) >>= fun q =>
          (checkDepth defaultReported q).outcome.map (OperationResult.mk q) := by
  have hrest : ∀ q : Program α, ((checkDepth defaultReported q).bind fun check =>
      (Report.tell (.operationDone name q.length check.count)).bind fun _ =>
        Report.of (OperationResult.mk q check)).outcome
      = (checkDepth defaultReported q).outcome.map (OperationResult.mk q) := by
    intro q
    obtain ⟨check, hcheck⟩ := exists_checkDepth_outcome defaultReported q
    rw [Report.outcome_bind hcheck, hcheck, Report.outcome_bind (Report.outcome_tell _)]
    rfl
  simp only [toResult, Report.bind_eq, Report.pure_eq]
  split
  · simp only [Report.outcome_bind_eq, ← hrest]
  · simp only [Report.of_bind, ← hrest]
    rfl

/-- A result has the program that was compensated if asked for. -/
theorem Program.toResult_eq_ok {α : Type} [Scalar α] {name : String} {compensates : Bool}
    {w : WearParams α} {p : Program α} {result : OperationResult α} :
    (p.toResult name compensates w).outcome = .ok result ↔
      (if compensates then (p.compensate w).outcome else .ok p) = .ok result.program ∧
        (checkDepth defaultReported result.program).outcome = .ok result.check := by
  rw [outcome_toResult, Fault.bind_eq_ok]
  constructor
  · rintro ⟨q, hq, h⟩
    obtain ⟨check, hcheck, rfl⟩ := Fault.map_eq_ok.mp h
    exact ⟨hq, hcheck⟩
  · rintro ⟨hq, hcheck⟩
    exact ⟨_, hq, Fault.map_eq_ok.mpr ⟨_, hcheck, rfl⟩⟩

/-- Only the compensation of a program may fail. -/
theorem Program.toResult_eq_error {α : Type} [Scalar α] {name : String} {compensates : Bool}
    {w : WearParams α} {p : Program α} {e : Fault} :
    (p.toResult name compensates w).outcome = .error e ↔
      compensates = true ∧ (p.compensate w).outcome = .error e := by
  rw [outcome_toResult, Fault.bind_eq_error]
  have hcheck : ∀ q : Program α,
      (checkDepth defaultReported q).outcome.map (OperationResult.mk q) ≠ .error e := by
    intro q
    obtain ⟨check, hcheck⟩ := exists_checkDepth_outcome defaultReported q
    rw [hcheck]
    simp [Except.map]
  cases compensates <;> simp [hcheck]

namespace Operation

/-- What is put together becomes a result. -/
theorem outcome_build {α : Type} [Scalar α] (op : Operation α) (w : Workshop α)
    (summary : Program α) (before after : Report α (Program α)) (paths : List (CamPath α)) :
    (op.build w summary before after paths).outcome
      = (op.assemble w summary before after paths).outcome >>= fun assembled =>
          (assembled.toResult op.name w.compensates (op.wear w)).outcome :=
  Report.outcome_bind_eq _ _

/-- A program that was put together and compensated is a result with its check. -/
theorem build_eq_ok {α : Type} [Scalar α] {op : Operation α} {w : Workshop α}
    {summary assembled q : Program α} {before after : Report α (Program α)}
    {paths : List (CamPath α)} {check : DepthCheck α} (hcompensates : w.compensates = true)
    (hassemble : (op.assemble w summary before after paths).outcome = .ok assembled)
    (hq : (assembled.compensate (op.wear w)).outcome = .ok q)
    (hcheck : (checkDepth defaultReported q).outcome = .ok check) :
    (op.build w summary before after paths).outcome = .ok ⟨q, check⟩ := by
  rw [outcome_build, Fault.bind_eq_ok]
  refine ⟨assembled, hassemble, Program.toResult_eq_ok.mpr ⟨?_, hcheck⟩⟩
  rw [if_pos hcompensates, hq]

/-! ## Runs -/

variable [Geometry] {op : Operation Float} {index : Int} {paths : List (CamPath Float)}
  {tabs : Option Geometry.Region} {settings : Settings}

/-- What an operation takes from a job with some settings and tabs. -/
structure Takes (op : Operation Float) (tabs : Option Geometry.Region)
    (paths : List (CamPath Float)) (settings : Settings) (w : Workshop Float) : Prop where
  /-- The unit is that of the settings. -/
  unit : settings.unit = .ok w.unit
  /-- The tabs are those that the paths are split at. -/
  tabs : ∃ region, op.tabRegion tabs = .ok region ∧ op.answers region paths = .ok w.tabs
  /-- All else comes from the settings. -/
  workshop : w = settings.workshop w.unit w.tabs

theorem outcome_run (hbroken : op.broken = []) :
    (op.run index paths tabs settings).outcome
      = op.tabRegion tabs >>= fun region => settings.unit >>= fun unit =>
        op.answers region paths >>= fun answers =>
          (op.assemble (settings.workshop unit answers) (op.header index paths.length unit)
            (Program.parse op.hookStart) (Program.parse op.hookEnd) paths).outcome >>=
          fun assembled => (assembled.values.toResult op.name settings.compensates
            (op.wearValues settings (settings.workshop unit answers))).outcome := by
  have hvet : op.vet = .of () := if_pos (by rw [hbroken]; rfl)
  obtain ⟨start, hstart, -⟩ := Program.exists_parse op.hookStart
  obtain ⟨finish, hfinish, -⟩ := Program.exists_parse op.hookEnd
  simp only [run, Report.bind_eq, hvet, Report.of_bind, Report.outcome_bind_eq, Report.outcome_lift,
    Report.outcome_mapNotices]
  congr
  funext region
  congr
  funext unit
  rw [hstart]
  change (op.answers region paths >>= fun answers => _) = _
  congr
  funext answers
  rw [outcome_assemble rfl hfinish, outcome_assemble hstart hfinish]

/-- An operation has a result if it breaks no constraint and each stage of its run has one. -/
theorem run_eq_ok {result : OperationResult FieldValue} :
    (op.run index paths tabs settings).outcome = .ok result ↔ op.broken = [] ∧
      ∃ w assembled, op.Takes tabs paths settings w ∧
        (op.assemble w (op.header index paths.length w.unit) (Program.parse op.hookStart)
          (Program.parse op.hookEnd) paths).outcome = .ok assembled ∧
        (assembled.values.toResult op.name settings.compensates
          (op.wearValues settings w)).outcome = .ok result := by
  by_cases hbroken : op.broken = []
  · simp only [outcome_run hbroken, hbroken, true_and, Fault.bind_eq_ok]
    constructor
    · rintro ⟨region, hregion, unit, hunit, answers, hanswers, assembled, hassembled, hresult⟩
      exact ⟨settings.workshop unit answers, assembled,
        ⟨hunit, ⟨region, hregion, hanswers⟩, rfl⟩, hassembled, hresult⟩
    · rintro ⟨w, assembled, htakes, hassembled, hresult⟩
      obtain ⟨region, hregion, hanswers⟩ := htakes.tabs
      rw [htakes.workshop] at hassembled hresult
      exact ⟨region, hregion, _, htakes.unit, _, hanswers, assembled, hassembled, hresult⟩
  · refine iff_of_false (fun h => ?_) fun h => hbroken h.1
    rw [run_of_broken hbroken] at h
    cases h

/-- The run of an operation fails with the constraints that are broken, or with the fault of the
stage that fails. -/
theorem run_eq_error {e : Fault} (h : (op.run index paths tabs settings).outcome = .error e) :
    e = .rejected op.broken ∨ op.tabRegion tabs = .error e ∨ settings.unit = .error e ∨
      (∃ region, op.answers region paths = .error e) ∨
      ∃ w, op.Takes tabs paths settings w ∧
        ((op.toolpath w).compile (op.prepare paths) = .error e ∨
          ∃ p, settings.compensates = true ∧ (Program.compensate (op.wearValues settings w)
            (Program.values (op.header index paths.length w.unit ++ p))).outcome = .error e) := by
  by_cases hbroken : op.broken = []
  · right
    obtain ⟨start, hstart, -⟩ := Program.exists_parse op.hookStart
    obtain ⟨finish, hfinish, -⟩ := Program.exists_parse op.hookEnd
    rw [outcome_run hbroken, Fault.bind_eq_error] at h
    refine h.imp_right ?_
    rintro ⟨region, hregion, h⟩
    rw [Fault.bind_eq_error] at h
    refine h.imp_right ?_
    rintro ⟨unit, hunit, h⟩
    rw [Fault.bind_eq_error] at h
    refine h.imp (fun h => ⟨region, h⟩) ?_
    rintro ⟨answers, hanswers, h⟩
    refine ⟨settings.workshop unit answers, ⟨hunit, ⟨region, hregion, hanswers⟩, rfl⟩, ?_⟩
    rw [Fault.bind_eq_error, outcome_assemble hstart hfinish] at h
    refine h.imp Fault.map_eq_error.mp ?_
    rintro ⟨assembled, hassembled, h⟩
    obtain ⟨body, -, rfl⟩ := Fault.map_eq_ok.mp hassembled
    exact ⟨_, Program.toResult_eq_error.mp h⟩
  · left
    rw [run_of_broken hbroken] at h
    exact (Except.error.inj h).symm

end Operation

/-! ## Numbers as values -/

/-- A summary stays one when its numbers become values. -/
theorem IsSummary.values {p : Program Float} (h : IsSummary p) : IsSummary p.values := by
  obtain ⟨pre, t, rfl, hpre, ht⟩ := h
  refine ⟨Program.values pre, t, by simp [Program.values, Line.map], fun l hl => ?_, ht⟩
  obtain ⟨k, hk, rfl⟩ := List.mem_map.mp hl
  rw [Line.kind_map]
  exact hpre k hk

theorem Settings.feedValue_eq {v : Json.Value} {feed : Option Float} (h : feedOf v = .ok feed) :
    feedValue v = feed.map .number := by
  rw [feedValue, h]

/-- With feeds that are numbers the compensation has numbers only. -/
theorem Operation.wearValues_eq {op : Operation Float} {settings : Settings}
    {feeds : Option Float × Option Float} (hfeeds : settings.feeds = .ok feeds) (unit : FeedUnit)
    (tabs : Option (TabRegion Float)) :
    op.wearValues settings (settings.workshop unit tabs)
      = (op.wear (settings.workshop unit tabs)).map .number := by
  obtain ⟨travel, htravel, h⟩ := Fault.bind_eq_ok.mp hfeeds
  obtain ⟨retract, hretract, -⟩ := Fault.bind_eq_ok.mp h
  have hback : ∀ feed : Option Float,
      (feed.map FieldValue.number).map FieldValue.toFloat = feed := by
    intro feed
    cases feed <;> rfl
  simp only [wearValues, WearParams.map, wear, Settings.workshop, Settings.feedValue_eq htravel,
    Settings.feedValue_eq hretract, hback]

end WireErosion
