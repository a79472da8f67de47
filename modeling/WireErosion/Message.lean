import WireErosion.Notice
import WireErosion.Number.Text
import WireErosion.Text.Quoted

/-!
# The wording of notices

A notice is worded as a list of pieces: fixed words, and arguments that each have a slot in the
wording.  From the pieces come the template, in which every argument is the mark of its slot, the
arguments themselves, and the message, in which they are written out.  So a template and its
message never disagree.

A notice also belongs to a channel, named for the part of the program that speaks.
-/

namespace WireErosion

/-- A piece of the wording of a notice. -/
inductive Piece where
  /-- Fixed words. -/
  | words (text : String)
  /-- A text as it is. -/
  | text (s : String)
  /-- A text between quotes. -/
  | quoted (s : String)
  /-- A count or an index. -/
  | count (n : Int)
  /-- A list of indices. -/
  | indices (ns : List Nat)
  /-- A number. -/
  | number (x : Float)
deriving Inhabited

/-- The mark of a slot, or the fixed words. -/
def Piece.template : Piece → String
  | .words t => t
  | .text _ | .indices _ | .number _ => "%s"
  | .quoted _ => "%r"
  | .count _ => "%d"

/-- A piece written out. -/
def Piece.message : Piece → String
  | .words t => t
  | .text s => s
  | .quoted s => Text.quoted s
  | .count n => toString n
  | .indices ns => "[" ++ ", ".intercalate (ns.map toString) ++ "]"
  | .number x => Double.shortest x

/-- Whether a piece is an argument. -/
def Piece.isArgument : Piece → Bool
  | .words _ => false
  | _ => true

/-- The report of a rise in depth. -/
def riseMessage (line : Nat) (before after : Float) : String :=
  "Line " ++ toString line ++ ": Z rises from " ++ Double.fixed 4 before ++ " to "
    ++ Double.fixed 4 after ++ " without a retract"

namespace Notice

/-- The wording of a notice. -/
def pieces : Notice Float → List Piece
  | .unrecognizedToken token line =>
    [.words "Dropping unrecognized token ", .quoted token, .words " in line ", .quoted line]
  | .malformedToken token line =>
    [.words "Dropping malformed token ", .quoted token, .words " in line ", .quoted line]
  | .handleRejected why handle =>
    [.words "MAJOR ERROR: ", .text why.name, .words " block handle ", .quoted handle.text,
      .words ", passing it through"]
  | .blocksUnplaced kind ns =>
    [.words "MAJOR ERROR: ", .text kind.name, .words " blocks ", .indices ns,
      .words " were never placed"]
  | .ratioRepeated line =>
    [.words "MAJOR ERROR: repeated wear ratio marker at line ", .count line,
      .words ", passing it through"]
  | .nothingStaged =>
    [.words "No parameter summary or '; Path 0' marker; seating plunges not staged"]
  | .depthRises line before after => [.words (riseMessage line before after)]
  | .depthTotal count reported =>
    [.count count, .words " depth violations in total, first ", .count reported,
      .words " reported"]
  | .constraintBroken name c => [.text name, .words ": ", .text c.message]
  | .operationDone name lines violations =>
    [.text name, .words ": ", .count lines, .words " lines, ", .count violations,
      .words " depth violations"]
  | .wearStarted ratio passDepth startZ rapidZ =>
    [.words "Wear compensation: ratio=", .number ratio, .words " pass_depth=",
      .number passDepth, .words " start_z=", .number startZ, .words " rapid_z=",
      .number rapidZ]
  | .blocksFound cuts plunges =>
    [.words "Found ", .count cuts, .words " cut blocks and ", .count plunges,
      .words " plunge blocks"]

/-- The part of the program that a notice comes from. -/
def channel {α : Type} : Notice α → String
  | .unrecognizedToken .. | .malformedToken .. => "wirecam.gcode.program"
  | .handleRejected .. | .blocksUnplaced .. | .ratioRepeated .. | .nothingStaged
  | .wearStarted .. | .blocksFound .. => "wirecam.gcode.wear"
  | .depthRises .. | .depthTotal .. => "wirecam.gcode.validate"
  | .constraintBroken .. | .operationDone .. => "wirecam.core.job"

/-- The wording with the marks of the slots. -/
def template (n : Notice Float) : String := String.join (n.pieces.map Piece.template)

/-- The arguments, in the order of their slots. -/
def arguments (n : Notice Float) : List Piece := n.pieces.filter Piece.isArgument

/-- The wording with the arguments written out. -/
def message (n : Notice Float) : String := String.join (n.pieces.map Piece.message)

end Notice

/-- The name of a level. -/
def Level.name : Level → String
  | .debug => "DEBUG"
  | .info => "INFO"
  | .warning => "WARNING"
  | .error => "ERROR"

/-- The level of a name. -/
def Level.named? (s : String) : Option Level :=
  [Level.debug, .info, .warning, .error].find? fun l => l.name == s

/-- A notice as a line of the log. -/
def Notice.logLine (n : Notice Float) : String :=
  n.level.name ++ " " ++ n.channel ++ ": " ++ n.message

end WireErosion
