import WireErosion.Operation.Constraint
import WireErosion.Number.Scalar

/-!
# Operations

An operation says how cam paths are cut: the type of the cut, its depths and feeds, the tool and the
wear of the electrode.  Lengths and depths are in millimetres, feeds in the unit of the job.

Before an operation is compiled its parameters are checked.  `OperationType.constraints` lists the
constraints of a type in the order in which they are reported, and `Operation.breaks` says when each
is broken.  A constraint is broken when a comparison that contradicts it holds, so a parameter that
is not a number breaks none.
-/

namespace WireErosion

/-! ## Types -/

/-- How the paths of an operation were made. -/
inductive OperationType where
  /-- An area is cleared. -/
  | pocket
  /-- The outline is cut along its middle. -/
  | outline
  /-- The outline is cut on its inner side. -/
  | inside
  /-- The outline is cut on its outer side. -/
  | outside
  /-- A groove is cut whose depth follows its width. -/
  | vCarve
deriving Repr, DecidableEq, Inhabited

/-- The title of a type. -/
def OperationType.title : OperationType → String
  | .pocket => "Virtual Wire ECM Pocket"
  | .outline => "Virtual Wire ECM Cut"
  | .inside => "Virtual Wire ECM Cut Inside"
  | .outside => "Virtual Wire ECM Cut Outside"
  | .vCarve => "Virtual Wire ECM V Carve"

/-- On which side of the motion the material lies. -/
inductive Direction where
  /-- The tool turns against the feed. -/
  | conventional
  /-- The tool turns with the feed. -/
  | climb
deriving Repr, DecidableEq, Inhabited

/-- The title of a direction. -/
def Direction.title : Direction → String
  | .conventional => "Conventional"
  | .climb => "Climb"

/-- An operation. -/
structure Operation (α : Type) where
  /-- The name it is reported by. -/
  name : String
  /-- How its paths were made. -/
  type : OperationType
  /-- The direction of the cut. -/
  direction : Direction
  /-- The top of the cut. -/
  startZ : α
  /-- The final depth. -/
  endZ : α
  /-- The height of rapid moves. -/
  rapidZ : α
  /-- The depth of one pass. -/
  passDepth : α
  /-- How far below zero the top of the tabs is. -/
  tabDepth : α
  /-- The diameter of the tool. -/
  toolDiameter : α
  /-- The angle of a V-carve tool in degrees. -/
  toolAngle : α
  /-- The distance of neighbouring paths as a percentage of the tool. -/
  stepOver : α
  /-- The speed of the tool. -/
  toolSpeed : Option α
  /-- The feed of descents. -/
  plungeRate : α
  /-- The feed of cuts. -/
  cutRate : α
  /-- Whether the tool descends along the path. -/
  ramp : Bool
  /-- The depth lost per distance cut. -/
  wearRatio : α
  /-- Vertices closer to each other than this are dropped, unless it is zero. -/
  segmentLength : α
  /-- The program text before the compiled paths. -/
  hookStart : String
  /-- The program text after the compiled paths. -/
  hookEnd : String
deriving Repr, Inhabited

namespace Operation

variable {α : Type} [Scalar α]

/-- An operation of which nothing was said. -/
def plain : Operation α where
  name := "Operation"
  type := .outline
  direction := .conventional
  startZ := 0.0
  endZ := -1.0
  rapidZ := 5.0
  passDepth := 1.0
  tabDepth := 0.0
  toolDiameter := 0.0
  toolAngle := 90.0
  stepOver := 40.0
  toolSpeed := none
  plungeRate := 50.0
  cutRate := 200.0
  ramp := false
  wearRatio := 0.01
  segmentLength := 0.0
  hookStart := ""
  hookEnd := ""

/-- The operation that a job starts from, one pass around an outline. -/
def starter : Operation α := { plain with name := "Outline" }

/-- Whether the paths carry their own depth. -/
def usesPathZ (op : Operation α) : Bool := op.type == .vCarve

/-- The top of the tabs. -/
def tabZ (op : Operation α) : α := -op.tabDepth

end Operation

/-! ## Constraints -/

/-- The constraints on the operations of a type. -/
def OperationType.constraints : OperationType → List Constraint
  | .vCarve => [.startBelowRapid, .passDepthPositive, .toolAngleInRange, .plungeRatePositive,
    .cutRatePositive, .wearRatioPositive]
  | .outline => [.startBelowRapid, .passDepthPositive, .endBelowStart, .stepOverInRange,
    .plungeRatePositive, .cutRatePositive, .wearRatioPositive]
  | _ => [.startBelowRapid, .passDepthPositive, .endBelowStart, .toolDiameterPositive,
    .stepOverInRange, .plungeRatePositive, .cutRatePositive, .wearRatioPositive]

namespace Operation

variable {α : Type} [Scalar α]

/-- Whether an operation breaks a constraint. -/
def breaks (op : Operation α) : Constraint → Bool
  | .startBelowRapid => op.rapidZ < op.startZ
  | .passDepthPositive => op.passDepth ≤ Scalar.zero
  | .toolAngleInRange => op.toolAngle ≤ Scalar.zero || (180.0 : α) ≤ op.toolAngle
  | .endBelowStart => op.startZ ≤ op.endZ
  | .toolDiameterPositive => op.toolDiameter ≤ Scalar.zero
  | .stepOverInRange => op.stepOver ≤ Scalar.zero || (100.0 : α) < op.stepOver
  | .plungeRatePositive => op.plungeRate ≤ Scalar.zero
  | .cutRatePositive => op.cutRate ≤ Scalar.zero
  | .wearRatioPositive => op.wearRatio ≤ Scalar.zero

/-- The constraints that an operation breaks, in the order in which they are reported. -/
def broken (op : Operation α) : List Constraint := op.type.constraints.filter op.breaks

end Operation

end WireErosion
