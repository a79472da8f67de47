import WireErosion.Geometry
import WireErosion.Operation.Header
import WireErosion.Settings
import WireErosion.Toolpath.Compile

/-!
# Running an operation

An operation is admitted if it breaks no constraint.  Then its paths are snapped and thinned, and
the program is put together from the summary of the operation, the start hook, the compiled paths
and the end hook.  If the settings ask for it the whole program is compensated for wear.  At the
end its depths are checked.

`Operation.build` does this over any numbers, and gets what depends on text from outside: the
summary, the lines of the hooks, and the rounding.  `Operation.run` supplies it.  There the feeds of
the compensation come from the settings, which may hold anything.  So what is put together from
doubles is compensated and checked as values of fields.

The tabs are grown by the radius of the tool, since paths are those of its centre.  Paths that
carry their own depth have no tabs.  What splitting the paths asks about the region is only answered
if the tabs are in effect.
-/

namespace WireErosion

variable {α : Type}

/-- What an operation takes from its job. -/
structure Workshop (α : Type) where
  /-- The unit of feeds. -/
  unit : FeedUnit
  /-- How numbers are rounded. -/
  round : α → Except Fault α
  /-- The region of the tabs, if there are any. -/
  tabs : Option (TabRegion α)
  /-- Whether the program is compensated for wear. -/
  compensates : Bool
  /-- The feed of travel in a compensated program. -/
  travelFeed : Option α
  /-- The feed of retracts in a compensated program. -/
  retractFeed : Option α

/-- A program and the check of its depths. -/
structure OperationResult (α : Type) where
  /-- The program. -/
  program : Program α
  /-- The check. -/
  check : DepthCheck α
deriving Inhabited

/-- The grid that paths are snapped to, in millimetres. -/
def snapGrid [Scalar α] : α := 0.001

namespace Operation

variable [Scalar α]

/-- The notices on the constraints that an operation breaks, and the fault if there are any. -/
def vet (op : Operation α) : Report α Unit :=
  if op.broken.isEmpty then .of ()
  else (Report.tellAll (op.broken.map (.constraintBroken op.name))).bind fun _ =>
    .fail (.rejected op.broken)

/-- The paths of an operation, snapped and thinned. -/
def prepare (op : Operation α) (paths : List (CamPath α)) : List (CamPath α) :=
  paths.map fun p => (p.snap (toInternal snapGrid)).thin (toInternal op.segmentLength)

/-- The feed of descents by the minute. -/
def plungeFeed (op : Operation α) (w : Workshop α) : α := w.unit.toPerMinute op.plungeRate

/-- The feed of cuts by the minute. -/
def cutFeed (op : Operation α) (w : Workshop α) : α := w.unit.toPerMinute op.cutRate

/-- The parameters of the toolpath of an operation. -/
def toolpath (op : Operation α) (w : Workshop α) : ToolpathParams α where
  topZ := op.startZ
  bottomZ := op.endZ
  safeZ := op.rapidZ
  passDepth := op.passDepth
  descents := ⟨op.ramp, op.plungeFeed w, op.cutFeed w, op.toolSpeed⟩
  lengthScale := Scalar.one / internalScale
  usePathZ := op.usesPathZ
  offsetX := Scalar.zero
  offsetY := Scalar.zero
  tabs := w.tabs
  tabZ := some op.tabZ
  round := w.round

/-- The parameters of the wear compensation of an operation. -/
def wear (op : Operation α) (w : Workshop α) : WearParams α where
  ratio := op.wearRatio
  plungeFeed := op.plungeFeed w
  passDepth := op.passDepth
  travelFeed := w.travelFeed
  retractFeed := w.retractFeed
  startZ := op.startZ
  rapidZ := op.rapidZ
  segmentLength := defaultSegmentLength

/-- The program of an operation before it is compensated, given its summary and what its hooks are
read as. -/
def assemble (op : Operation α) (w : Workshop α) (summary : Program α)
    (before after : Report α (Program α)) (paths : List (CamPath α)) : Report α (Program α) := do
  let start ← before
  let body ← .lift ((op.toolpath w).compile (op.prepare paths))
  let finish ← after
  return summary ++ start ++ body ++ finish

end Operation

/-- The result of an operation of the given name whose program was put together, after it is
compensated if asked for and checked. -/
def Program.toResult [Scalar α] (name : String) (compensates : Bool) (w : WearParams α)
    (p : Program α) : Report α (OperationResult α) := do
  let program ← if compensates then p.compensate w else .of p
  let check ← checkDepth defaultReported program
  .tell (.operationDone name program.length check.count)
  return ⟨program, check⟩

/-- What operations take from a job with some settings, with the unit of these. -/
def Settings.workshop (s : Settings) (unit : FeedUnit) (tabs : Option (TabRegion Float)) :
    Workshop Float where
  unit := unit
  round := s.round
  tabs := tabs
  compensates := s.compensates
  travelFeed := (feedValue s.travelFeed).map FieldValue.toFloat
  retractFeed := (feedValue s.retractFeed).map FieldValue.toFloat

namespace Operation

/-- The program of an operation, compensated if asked for, and the check of its depths. -/
def build [Scalar α] (op : Operation α) (w : Workshop α) (summary : Program α)
    (before after : Report α (Program α)) (paths : List (CamPath α)) :
    Report α (OperationResult α) := do
  let assembled ← op.assemble w summary before after paths
  assembled.toResult op.name w.compensates (op.wear w)

/-- The parameters of the wear compensation of an operation, with the feeds of some settings as they
are there. -/
def wearValues (op : Operation Float) (s : Settings) (w : Workshop Float) : WearParams FieldValue :=
  { (op.wear w).map .number with
    travelFeed := Settings.feedValue s.travelFeed
    retractFeed := Settings.feedValue s.retractFeed }

section

variable [Geometry]

/-- The region that the centre of the tool heeds. -/
def tabRegion (op : Operation Float) (tabs : Option Geometry.Region) :
    Except Fault (Option Geometry.Region) :=
  match tabs with
  | none => .ok none
  | some r =>
    if op.usesPathZ then .ok none
    else if 0 < op.toolDiameter then
      (Fault.ofGeometry (Geometry.grow (toInternal (op.toolDiameter / 2)) r)).map some
    else .ok (some r)

/-- What a region answers while the paths of an operation are split at it. -/
def answers (op : Operation Float) (region : Option Geometry.Region)
    (paths : List (CamPath Float)) : Except Fault (Option (TabRegion Float)) :=
  match region with
  | none => .ok none
  | some r =>
    if op.tabZ ≤ op.endZ then .ok none
    else Fault.ofGeometry (Geometry.answers r (op.prepare paths))

/-- The result of an operation that has the given index in its job. -/
def run (op : Operation Float) (index : Int) (paths : List (CamPath Float))
    (tabs : Option Geometry.Region) (settings : Settings) :
    Report Float (OperationResult FieldValue) := do
  op.vet
  let region ← .lift (op.tabRegion tabs)
  let unit ← .lift settings.unit
  let start ← Program.parse op.hookStart
  let w := settings.workshop unit (← .lift (op.answers region paths))
  let assembled ← op.assemble w (op.header index paths.length unit) (.of start)
    (Program.parse op.hookEnd) paths
  (assembled.values.toResult op.name settings.compensates (op.wearValues settings w)).mapNotices
    FieldValue.toFloat

end

end Operation

end WireErosion
