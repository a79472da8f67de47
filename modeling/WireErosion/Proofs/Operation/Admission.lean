import WireErosion.Operation.Run
import WireErosion.Proofs.Ordered
import WireErosion.Proofs.Outcome
import WireErosion.Region.Library

/-!
# Which operations are admitted

A constraint counts as broken when a comparison that contradicts it holds.  On doubles that is not
the same as a constraint that is not met: what is not a number contradicts nothing.  So an operation
is admitted exactly if each constraint of its type is met or reads what is not a number, and what is
admitted is sound exactly if all of the parameters that were checked are numbers
(`Operation.admitted_iff`).  An operation that is not admitted has no program.

A pass whose depth is not a number is admitted, and gives a program (`unmeasuredPass_admitted`).
-/

namespace WireErosion

/-! ## Comparisons that fail -/

namespace Double

theorem not_le_iff_lt_or {a b : Float} :
    ¬ a ≤ b ↔ b < a ∨ a.isNaN = true ∨ b.isNaN = true := by
  by_cases hnumbers : a.isNaN = false ∧ b.isNaN = false
  · simp only [not_le_iff hnumbers.1 hnumbers.2, hnumbers.1, hnumbers.2, Bool.false_eq_true,
      or_false]
  · have hnone : ¬ a ≤ b := fun h => hnumbers (numbers_of_le h)
    rw [not_and_or, Bool.not_eq_false, Bool.not_eq_false] at hnumbers
    exact iff_of_true hnone (.inr hnumbers)

theorem not_lt_iff_le_or {a b : Float} :
    ¬ a < b ↔ b ≤ a ∨ a.isNaN = true ∨ b.isNaN = true := by
  by_cases hnumbers : a.isNaN = false ∧ b.isNaN = false
  · simp only [not_lt_iff hnumbers.1 hnumbers.2, hnumbers.1, hnumbers.2, Bool.false_eq_true,
      or_false]
  · have hnone : ¬ a < b := fun h => hnumbers (numbers_of_le (OrderedScalar.le_of_lt h))
    rw [not_and_or, Bool.not_eq_false, Bool.not_eq_false] at hnumbers
    exact iff_of_true hnone (.inr hnumbers)

end Double

/-! ## Constraints -/

namespace Operation

section

variable {α : Type} [Scalar α]

/-- What a constraint asks for. -/
def Meets (op : Operation α) : Constraint → Prop
  | .startBelowRapid => op.startZ ≤ op.rapidZ
  | .passDepthPositive => Scalar.zero < op.passDepth
  | .toolAngleInRange => Scalar.zero < op.toolAngle ∧ op.toolAngle < (180.0 : α)
  | .endBelowStart => op.endZ < op.startZ
  | .toolDiameterPositive => Scalar.zero < op.toolDiameter
  | .stepOverInRange => Scalar.zero < op.stepOver ∧ op.stepOver ≤ (100.0 : α)
  | .plungeRatePositive => Scalar.zero < op.plungeRate
  | .cutRatePositive => Scalar.zero < op.cutRate
  | .wearRatioPositive => Scalar.zero < op.wearRatio

/-- The parameters that a constraint is about. -/
def reads (op : Operation α) : Constraint → List α
  | .startBelowRapid => [op.startZ, op.rapidZ]
  | .passDepthPositive => [op.passDepth]
  | .toolAngleInRange => [op.toolAngle]
  | .endBelowStart => [op.endZ, op.startZ]
  | .toolDiameterPositive => [op.toolDiameter]
  | .stepOverInRange => [op.stepOver]
  | .plungeRatePositive => [op.plungeRate]
  | .cutRatePositive => [op.cutRate]
  | .wearRatioPositive => [op.wearRatio]

/-- The parameters that are checked for the type of an operation. -/
def checkedNumbers (op : Operation α) : List α := op.type.constraints.flatMap op.reads

/-- The parameters are as an operation of its type needs them. -/
def Sound (op : Operation α) : Prop :=
  op.startZ ≤ op.rapidZ ∧ Scalar.zero < op.passDepth ∧ Scalar.zero < op.plungeRate ∧
    Scalar.zero < op.cutRate ∧ Scalar.zero < op.wearRatio ∧
    if op.type = .vCarve then Scalar.zero < op.toolAngle ∧ op.toolAngle < (180.0 : α)
    else op.endZ < op.startZ ∧ (Scalar.zero < op.stepOver ∧ op.stepOver ≤ (100.0 : α)) ∧
      (op.type ≠ .outline → Scalar.zero < op.toolDiameter)

/-- An operation is sound if it meets the constraints of its type. -/
theorem sound_iff {op : Operation α} : op.Sound ↔ ∀ c ∈ op.type.constraints, op.Meets c := by
  cases htype : op.type <;>
    simp only [Sound, htype, OperationType.constraints, List.forall_mem_cons, List.not_mem_nil,
      false_implies, implies_true, and_true, Meets, reduceCtorEq, if_false, if_true, ne_eq,
      not_true_eq_false, not_false_eq_true, true_implies] <;> tauto

/-- An operation that breaks a constraint has no program. -/
theorem run_of_broken [Geometry] {op : Operation Float} (h : op.broken ≠ []) (index : Int)
    (paths : List (CamPath Float)) (tabs : Option Geometry.Region) (settings : Settings) :
    op.run index paths tabs settings
      = ⟨op.broken.map (.constraintBroken op.name), .error (.rejected op.broken)⟩ := by
  have hvet : op.vet
      = ⟨op.broken.map (.constraintBroken op.name), .error (.rejected op.broken)⟩ := by
    rw [vet, if_neg (by simpa using h)]
    simp [Report.tellAll, Report.bind, Report.fail]
  rw [run, hvet]
  rfl

end

variable {op : Operation Float}

/-- What is not a number breaks no constraint. -/
theorem breaks_eq_false_iff (c : Constraint) :
    op.breaks c = false ↔ op.Meets c ∨ ∃ x ∈ op.reads c, x.isNaN = true := by
  have hzero : (Scalar.zero : Float).isNaN = false := by decide
  have hflat : (180.0 : Float).isNaN = false := by decide
  have hfull : (100.0 : Float).isNaN = false := by decide
  cases c <;> simp only [breaks, Meets, reads, decide_eq_false_iff_not, Bool.or_eq_false_iff,
    Double.not_le_iff_lt_or, Double.not_lt_iff_le_or, hzero, hflat, hfull, List.mem_cons,
    List.not_mem_nil, or_false, exists_eq_or_imp, exists_eq_left, Bool.false_eq_true, false_or] <;>
    tauto

theorem Meets.numbers {c : Constraint} (h : op.Meets c) : ∀ x ∈ op.reads c, x.isNaN = false := by
  have hle : ∀ {a b : Float}, a < b → a.isNaN = false ∧ b.isNaN = false :=
    fun h => Double.numbers_of_le (OrderedScalar.le_of_lt h)
  cases c <;> simp only [reads, List.forall_mem_cons, List.not_mem_nil, false_implies, implies_true,
    and_true]
  case startBelowRapid => exact Double.numbers_of_le h
  case endBelowStart => exact hle h
  case toolAngleInRange | stepOverInRange => exact (hle h.1).2
  all_goals exact (hle h).2

/-- An operation is admitted exactly if each constraint of its type is met or reads what is not a
number, and then it is sound exactly if all that was read are numbers.  Otherwise it has no
program. -/
theorem admitted_iff [Geometry] (op : Operation Float) :
    (op.broken = [] ↔
      ∀ c ∈ op.type.constraints, op.Meets c ∨ ∃ x ∈ op.reads c, x.isNaN = true) ∧
    (op.Sound ↔ op.broken = [] ∧ ∀ x ∈ op.checkedNumbers, x.isNaN = false) ∧
    (op.broken ≠ [] → ∀ index paths tabs settings, op.run index paths tabs settings
      = ⟨op.broken.map (.constraintBroken op.name), .error (.rejected op.broken)⟩) := by
  have hbroken : op.broken = [] ↔
      ∀ c ∈ op.type.constraints, op.Meets c ∨ ∃ x ∈ op.reads c, x.isNaN = true := by
    rw [broken, List.filter_eq_nil_iff]
    refine forall₂_congr fun c _ => ?_
    rw [Bool.not_eq_true, breaks_eq_false_iff]
  refine ⟨hbroken, ?_, run_of_broken⟩
  rw [sound_iff, hbroken, checkedNumbers]
  constructor
  · intro hmeets
    refine ⟨fun c hc => .inl (hmeets c hc), fun x hx => ?_⟩
    obtain ⟨c, hc, hx⟩ := List.mem_flatMap.mp hx
    exact (hmeets c hc).numbers x hx
  · rintro ⟨hadmitted, hnumbers⟩ c hc
    refine (hadmitted c hc).resolve_right ?_
    rintro ⟨x, hx, hnan⟩
    rw [hnumbers x (List.mem_flatMap.mpr ⟨c, hc, hx⟩)] at hnan
    cases hnan

end Operation

/-! ## Two operations -/

/-- The starting operation with passes that remove nothing. -/
def idlePass : Operation Float := { Operation.starter with passDepth := 0 }

/-- Passes that remove nothing are refused. -/
theorem idlePass_refused : idlePass.broken = [.passDepthPositive] ∧ idlePass.broken ≠ [] ∧
    (idlePass.run 0 [] none {}).outcome = .error (.rejected [.passDepthPositive]) := by
  have hbroken : idlePass.broken = [.passDepthPositive] := by decide +kernel
  have hsome : idlePass.broken ≠ [] := by simp [hbroken]
  refine ⟨hbroken, hsome, ?_⟩
  rw [(Operation.admitted_iff idlePass).2.2 hsome, hbroken]

/-- The starting operation with passes whose depth is not a number. -/
def unmeasuredPass : Operation Float := { Operation.starter with passDepth := 0 / 0 }

/-- A path along the first axis. -/
def shortGroove : CamPath Float := ⟨[⟨0, 0, 0⟩, ⟨4000, 0, 0⟩], false⟩

/-- Whether a line goes to a depth that is not a number. -/
def Line.isUnmeasured : Line FieldValue → Bool
  | .move m => m.z.any fun z => z.toFloat.isNaN
  | .comment _ => false

/-- A pass whose depth is not a number is not positive, and cuts to a depth that is not a number. -/
theorem unmeasuredPass_admitted : unmeasuredPass.broken = [] ∧ ¬ unmeasuredPass.Sound ∧
    ∃ result, (unmeasuredPass.run 0 [shortGroove] none {}).outcome = .ok result ∧
      result.program.any Line.isUnmeasured = true := by
  have hunsound : ¬ unmeasuredPass.Sound := fun h => absurd h.2.1 (by decide +kernel)
  have hcut : ((unmeasuredPass.run 0 [shortGroove] none {}).outcome.toOption.map
      fun r => r.program.any Line.isUnmeasured) = some true := by decide +kernel
  refine ⟨by decide +kernel, hunsound, ?_⟩
  cases hrun : (unmeasuredPass.run 0 [shortGroove] none {}).outcome with
  | error f =>
      rw [hrun] at hcut
      cases hcut
  | ok result =>
      rw [hrun] at hcut
      exact ⟨result, rfl, Option.some.inj hcut⟩

end WireErosion
