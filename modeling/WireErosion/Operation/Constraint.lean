/-!
# Constraints on an operation

The nine conditions an operation has to meet before it is compiled, and the sentence that reports
each one when it is not met.  Which of them apply depends on the type of the operation and is
decided where operations are checked.
-/

namespace WireErosion

/-- A condition on the parameters of an operation. -/
inductive Constraint where
  /-- The top of the cut lies at or below the height of rapid moves. -/
  | startBelowRapid
  /-- A pass removes some depth. -/
  | passDepthPositive
  /-- A V-carve tool is neither flat nor a needle. -/
  | toolAngleInRange
  /-- The final depth lies below the top. -/
  | endBelowStart
  /-- The tool has a width. -/
  | toolDiameterPositive
  /-- The step-over is a percentage of the tool, and not zero. -/
  | stepOverInRange
  /-- The plunge feed is positive. -/
  | plungeRatePositive
  /-- The cutting feed is positive. -/
  | cutRatePositive
  /-- The electrode wears. -/
  | wearRatioPositive
deriving Repr, DecidableEq, Inhabited

/-- The sentence that reports a broken constraint. -/
def Constraint.message : Constraint → String
  | .startBelowRapid => "Start Z must be <= Rapid Z"
  | .passDepthPositive => "Pass Depth must be greater than 0"
  | .toolAngleInRange => "Tool Angle must be in range (0, 180)"
  | .endBelowStart => "End Z must be < Start Z"
  | .toolDiameterPositive => "Tool Diameter must be greater than 0"
  | .stepOverInRange => "Step Over must be in range 0-100%"
  | .plungeRatePositive => "Plunge Rate must be greater than 0"
  | .cutRatePositive => "Cut Rate must be greater than 0"
  | .wearRatioPositive => "Wear Ratio must be greater than 0"

end WireErosion
