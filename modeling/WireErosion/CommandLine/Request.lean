import WireErosion.CommandLine.Arguments
import WireErosion.Files.Name
import WireErosion.Message
import WireErosion.Operation.Basic
import WireErosion.Units

/-!
# Requests

What the command line asks for.  There are two commands: to compile the paths of a path file, and to
compensate a program that is there already.  Before the command stands how much the log shows.

An operation that is not described in full has the parameters of `Operation.starter` for the rest.
-/

namespace WireErosion.CommandLine

/-! ## Types -/

/-- What the compile command is asked for. -/
structure CompileRequest where
  /-- The path file. -/
  input : FileName
  /-- The file to write, unless it is named for the path file. -/
  output : Option FileName
  /-- The settings file, unless it is the usual one. -/
  settings : Option FileName
  /-- The unit of feeds, unless it is that of the settings. -/
  feedUnit : Option String
  /-- Whether the program is left without wear compensation. -/
  withoutWear : Bool
  /-- The operation, without its hooks. -/
  operation : Operation Float
  /-- The file of the start hook. -/
  hookStart : Option FileName
  /-- The file of the end hook. -/
  hookEnd : Option FileName
deriving Inhabited

/-- What the post command is asked for. -/
structure PostRequest where
  /-- The program file. -/
  input : FileName
  /-- The file to write, unless it is named for the program file. -/
  output : Option FileName
  /-- The settings file, unless it is the usual one. -/
  settings : Option FileName
  /-- The wear ratio. -/
  wearRatio : Float
  /-- The depth of one pass. -/
  passDepth : Float
  /-- The feed of descents. -/
  plungeFeed : Float
  /-- The feed of travel, unless it is that of the settings. -/
  travelFeed : Option Float
  /-- The feed of retracts, unless it is that of the settings. -/
  retractFeed : Option Float
  /-- The count of decimal places, unless it is that of the settings. -/
  places : Option Int
deriving Inhabited

/-- A command. -/
inductive Command where
  /-- To compile the paths of a path file. -/
  | compile (c : CompileRequest)
  /-- To compensate a program for wear. -/
  | post (p : PostRequest)
  /-- To be told what there is. -/
  | help
deriving Inhabited

/-- A command, and how grave a notice has to be for the log to show it. -/
structure Request where
  /-- The least level that is shown. -/
  level : Level
  /-- The command. -/
  command : Command
deriving Inhabited

/-! ## Grammars -/

/-- The switch that asks for help. -/
def helpSwitch : Switch := ⟨["-h", "--help"], none, false, true⟩

/-- A switch that takes a text. -/
def textSwitch (names : List String) : Switch := ⟨names, some .text, false, false⟩

/-- A switch that takes a number. -/
def numberSwitch (name : String) : Switch := ⟨[name], some .number, false, false⟩

/-- A switch that takes a number and has to be given. -/
def requiredNumber (name : String) : Switch := ⟨[name], some .number, true, false⟩

/-- A switch that takes one of some texts. -/
def choiceSwitch (name : String) (names : List String) : Switch :=
  ⟨[name], some (.choice names), false, false⟩

/-- A switch that takes nothing. -/
def plainSwitch (name : String) : Switch := ⟨[name], none, false, false⟩

/-- The names of the types of operations. -/
def typeNames : List (String × OperationType) :=
  [("cut", .outline), ("inside", .inside), ("outside", .outside), ("pocket", .pocket),
   ("vcarve", .vCarve)]

/-- The arguments before the command. -/
def mainGrammar : Grammar where
  switches := [helpSwitch, choiceSwitch "--log-level" ["DEBUG", "INFO", "WARNING", "ERROR"]]
  operand := "command"
  operandKind := .choice ["compile", "post"]
  takesRest := true

/-- The arguments of the compile command. -/
def compileGrammar : Grammar where
  switches := [
    helpSwitch,
    textSwitch ["-o", "--output"],
    textSwitch ["--settings"],
    choiceSwitch "--type" (typeNames.map (·.1)),
    plainSwitch "--climb",
    numberSwitch "--start-z",
    numberSwitch "--end-z",
    numberSwitch "--rapid-z",
    numberSwitch "--pass-depth",
    numberSwitch "--tab-depth",
    numberSwitch "--tool-diameter",
    numberSwitch "--tool-angle",
    numberSwitch "--step-over",
    numberSwitch "--tool-speed",
    numberSwitch "--plunge-rate",
    numberSwitch "--cut-rate",
    plainSwitch "--ramp",
    choiceSwitch "--feed-units" (FeedUnit.all.map FeedUnit.name),
    numberSwitch "--wear-ratio",
    plainSwitch "--no-wear",
    numberSwitch "--segment-length",
    textSwitch ["--hook-start"],
    textSwitch ["--hook-end"]]
  operand := "input"
  operandKind := .text
  takesRest := false

/-- The arguments of the post command. -/
def postGrammar : Grammar where
  switches := [
    helpSwitch,
    textSwitch ["-o", "--output"],
    requiredNumber "--wear-ratio",
    requiredNumber "--pass-depth",
    requiredNumber "--plunge-feed",
    numberSwitch "--travel-feed",
    numberSwitch "--retract-feed",
    ⟨["--decimals"], some .integer, false, false⟩,
    textSwitch ["--settings"]]
  operand := "input"
  operandKind := .text
  takesRest := false

/-! ## Reading requests -/

namespace Reading

/-- The number that a switch is given. -/
def number? (r : Reading) (name : String) : Option Float :=
  (r.value? name).bind fun t => Numeral.double? t.toList

/-- The file name that a switch is given. -/
def file? (r : Reading) (name : String) : Option FileName := (r.value? name).map FileName.ofText

/-- Whether a switch is given. -/
def has (r : Reading) (name : String) : Bool := (r.value? name).isSome

/-- The file name that is the operand. -/
def input (r : Reading) : FileName := FileName.ofText ((r.operand.getD []).headD "")

end Reading

/-- A word in lower case with its first letter in upper case. -/
def capitalized (s : String) : String :=
  match s.toList with
  | [] => ""
  | c :: cs => String.ofList (c.toUpper :: cs)

/-- The operation that the arguments of the compile command describe. -/
def operationOf (r : Reading) : Operation Float :=
  let base : Operation Float := .starter
  let type := (r.value? "--type").getD "cut"
  { base with
    name := capitalized type
    type := ((typeNames.find? fun t => t.1 == type).map (·.2)).getD base.type
    direction := if r.has "--climb" then .climb else .conventional
    startZ := (r.number? "--start-z").getD base.startZ
    endZ := (r.number? "--end-z").getD base.endZ
    rapidZ := (r.number? "--rapid-z").getD base.rapidZ
    passDepth := (r.number? "--pass-depth").getD base.passDepth
    tabDepth := (r.number? "--tab-depth").getD base.tabDepth
    toolDiameter := (r.number? "--tool-diameter").getD base.toolDiameter
    toolAngle := (r.number? "--tool-angle").getD base.toolAngle
    stepOver := (r.number? "--step-over").getD base.stepOver
    toolSpeed := r.number? "--tool-speed"
    plungeRate := (r.number? "--plunge-rate").getD base.plungeRate
    cutRate := (r.number? "--cut-rate").getD base.cutRate
    ramp := r.has "--ramp"
    wearRatio := (r.number? "--wear-ratio").getD base.wearRatio
    segmentLength := (r.number? "--segment-length").getD base.segmentLength }

/-- What the arguments of the compile command ask for. -/
def compileRequest (r : Reading) : CompileRequest where
  input := r.input
  output := r.file? "-o"
  settings := r.file? "--settings"
  feedUnit := r.value? "--feed-units"
  withoutWear := r.has "--no-wear"
  operation := operationOf r
  hookStart := r.file? "--hook-start"
  hookEnd := r.file? "--hook-end"

/-- What the arguments of the post command ask for. -/
def postRequest (r : Reading) : PostRequest where
  input := r.input
  output := r.file? "-o"
  settings := r.file? "--settings"
  wearRatio := (r.number? "--wear-ratio").getD 0
  passDepth := (r.number? "--pass-depth").getD 0
  plungeFeed := (r.number? "--plunge-feed").getD 0
  travelFeed := r.number? "--travel-feed"
  retractFeed := r.number? "--retract-feed"
  places := (r.value? "--decimals").bind fun t => Numeral.integer? t.toList

/-- The command of a reading. -/
def commandOf (name : String) (r : Reading) : Command :=
  if name = "compile" then .compile (compileRequest r) else .post (postRequest r)

/-- The name of this program on its command line. -/
def programName : String := "wirecam"

/-- The report on a refusal, by the command that refuses. -/
def refusalLine (command : String) (r : Refusal) : String := command ++ ": error: " ++ r.message

/-- The request that some arguments make, or the line that refuses them. -/
def Request.ofArguments (arguments : List String) : Except String Request := do
  let main ← (mainGrammar.read arguments).mapError (refusalLine programName)
  let level := ((main.value? "--log-level").bind Level.named?).getD .warning
  if main.isCut then return ⟨level, .help⟩
  match main.operand with
  | some (name :: rest) =>
    let grammar := if name = "compile" then compileGrammar else postGrammar
    let r ← (grammar.read rest).mapError (refusalLine (programName ++ " " ++ name))
    if r.isCut then return ⟨level, .help⟩
    match main.extras ++ r.extras with
    | [] => return ⟨level, commandOf name r⟩
    | extras => throw (refusalLine programName (.extras extras))
  | _ => throw (refusalLine programName (.missing [mainGrammar.operand]))

end WireErosion.CommandLine
