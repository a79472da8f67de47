import WireErosion.Depth
import WireErosion.Program.Decode
import WireErosion.Program.FieldValue
import WireErosion.Wear.Extract
import WireErosion.Wear.Fold
import WireErosion.Wear.Reassemble
import WireErosion.Wear.Seating

/-!
# Wear compensation

A compiled program is changed so that the cuts hold their depth while the wire wears.

1. The cut blocks and then the plunge blocks are pulled out of the program.
2. Each cut is subdivided and put at its worn depths.
3. The plunges get the feeds of their roles.
4. The blocks go back in the place of their handles, each plunge going down to where the cut before
   it ended.
5. A copy of every plunge is staged after the parameter summary.

The text of a program is compensated with feeds that may be any values of fields.
-/

namespace WireErosion

variable {α : Type}

/-- The parameters of wear compensation. -/
structure WearParams (α : Type) where
  /-- The depth lost per distance travelled. -/
  ratio : α
  /-- The feed of the descents. -/
  plungeFeed : α
  /-- The depth of one pass. -/
  passDepth : α
  /-- The feed of the travel. -/
  travelFeed : Option α
  /-- The feed of retracts and zero plunges. -/
  retractFeed : Option α
  /-- The top of the cut, which is only reported. -/
  startZ : α
  /-- The clearance height, which is only reported. -/
  rapidZ : α
  /-- The longest way in a cut without a point on it. -/
  segmentLength : α
deriving Repr, Inhabited

/-- The longest way in a cut without a point on it, unless another one is asked for. -/
def defaultSegmentLength [Scalar α] : α := 0.4

/-- The travel feed unless another one is asked for. -/
def defaultTravelFeed [Scalar α] : α := 1000.0

/-- The retract feed unless another one is asked for. -/
def defaultRetractFeed [Scalar α] : α := 10.0

/-- The feeds of the moves of plunge blocks. -/
def WearParams.feeds (w : WearParams α) : PlungeFeeds α :=
  ⟨w.retractFeed, w.travelFeed, some w.plungeFeed⟩

/-- A program taken apart. -/
structure Parted (α : Type) where
  /-- The cut blocks. -/
  cuts : List (CutBlock α)
  /-- The plunge blocks. -/
  plunges : List (PlungeBlock α)
  /-- What is left. -/
  rest : Residue α
deriving Inhabited

/-- A program taken apart, first its cuts and then its plunges. -/
def Program.part (p : Program α) : Parted α :=
  let (cuts, rest) := extractCuts p
  let (plunges, rest) := extractPlunges rest
  ⟨cuts, plunges, rest⟩

variable [Scalar α]

/-- A cut, subdivided and at its worn depths. -/
def CutBlock.compensate (w : WearParams α) (b : CutBlock α) : Except Fault (CutBlock α) :=
  (subdivide w.segmentLength b.lines).map (applyWear w.ratio w.passDepth)

/-- A program compensated for wear. -/
def Program.compensate (w : WearParams α) (p : Program α) : Report α (Program α) := do
  .tell (.wearStarted w.ratio w.passDepth w.startZ w.rapidZ)
  let parted := p.part
  .tell (.blocksFound parted.cuts.length parted.plunges.length)
  let cuts ← .lift (parted.cuts.mapM (CutBlock.compensate w))
  let plunges ← .lift (parted.plunges.mapM (PlungeBlock.refeed w.feeds))
  let body ← reassemble parted.rest cuts plunges
  stagePlunges body plunges

/-! ## Texts -/

/-- Parameters with every number replaced. -/
def WearParams.map {α β : Type} (f : α → β) (w : WearParams α) : WearParams β where
  ratio := f w.ratio
  plungeFeed := f w.plungeFeed
  passDepth := f w.passDepth
  travelFeed := w.travelFeed.map f
  retractFeed := w.retractFeed.map f
  startZ := f w.startZ
  rapidZ := f w.rapidZ
  segmentLength := f w.segmentLength

instance : Coe (WearParams Float) (WearParams FieldValue) := ⟨WearParams.map .number⟩

/-- A program compensated for wear with feeds that may be no numbers. -/
def Program.compensateValues (w : WearParams FieldValue) (p : Program Float) :
    Report Float (Program FieldValue) :=
  (p.values.compensate w).mapNotices FieldValue.toFloat

/-- The depth check of a program with feeds that may be no numbers. -/
def Program.checkValues (p : Program FieldValue) : Report Float (DepthCheck FieldValue) :=
  (checkDepth defaultReported p).mapNotices FieldValue.toFloat

/-- The text of a program, compensated for wear and written with a count of decimal places. -/
def postProcess (w : WearParams FieldValue) (places : Int) (text : String) :
    Report Float String := do
  let p ← Program.parse text
  let p ← p.compensateValues w
  let _ ← p.checkValues
  .lift (p.formatValues places)

end WireErosion
