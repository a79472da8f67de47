import WireErosion.CommandLine.Request
import WireErosion.Job

/-!
# Sessions

What the commands do.  A session works at a terminal: it says lines, complains in others, and
reads and writes files.  It ends with a status, or with a fault that no command deals with.

Notices that are grave enough are complaints too, and take their place among them.

* Compiling complains about a path file or a hook that cannot be read, and about an operation that
  is rejected, and ends with status one.
* Post-processing complains only if there is no program file.

Everything is computed before the output file is opened, and nothing is written after a complaint
that ends the session.
-/

namespace WireErosion.CommandLine

/-! ## Sessions -/

/-- What a session works at. -/
structure Terminal where
  /-- The least level of the notices that are shown. -/
  level : Level
  /-- The lines that were said. -/
  said : List String
  /-- The lines of complaint. -/
  complaints : List String
  /-- The files. -/
  store : FileStore
  /-- The folder of the user. -/
  home : FileName
deriving Inhabited

/-- How a session ends. -/
inductive Ending where
  /-- With a status. -/
  | status (n : Nat)
  /-- With a fault that no command deals with. -/
  | fault (f : Fault)
deriving Inhabited

/-- A session that has a result unless it ends early. -/
abbrev Session (α : Type) := EStateM Ending Terminal α

namespace Session

/-- Says a line. -/
def say (line : String) : Session Unit :=
  modify fun t => { t with said := t.said ++ [line] }

/-- Complains in some lines. -/
def complain (lines : List String) : Session Unit :=
  modify fun t => { t with complaints := t.complaints ++ lines }

/-- The lines of the notices that are shown. -/
def logLines (level : Level) (notices : List (Notice Float)) : List String :=
  (notices.filter fun n => level.rank ≤ n.level.rank).map Notice.logLine

/-- Shows the notices of a report, and goes on with its result or its fault. -/
def note {α : Type} (r : Report Float α) : Session (Except Fault α) := do
  complain (logLines (← get).level r.notices)
  return r.outcome

/-- Goes on with a result, or ends with a fault. -/
def settle {α : Type} (r : Except Fault α) : Session α :=
  match r with
  | .ok a => pure a
  | .error f => throw (.fault f)

/-- Works on the files, and ends with the fault if that fails. -/
def onFiles {α : Type} (m : FileStore.Work α) : Session α := fun t =>
  match m t.store with
  | .ok a store => .ok a { t with store }
  | .error f store => .error (.fault f) { t with store }

/-- Ends with status one after some complaints. -/
def giveUp {α : Type} (lines : List String) : Session α := do
  complain lines
  throw (.status 1)

end Session

open Session

/-! ## Files -/

/-- The usual settings file of a user, given the folder of the user. -/
def usualSettings (home : FileName) : FileName :=
  { home with parts := home.parts ++ [".wirecam", "settings.json"] }

/-- The settings of a file, or the defaults if it is not there. -/
def loadSettings (name : Option FileName) : Session Settings := do
  let store := (← get).store
  let n := name.getD (usualSettings (← get).home)
  if store.contains n then
    settle ((store.read n).bind fun bytes => (readUnicode bytes).bind Settings.ofText)
  else return {}

/-- The text of a hook. -/
def hookText (store : FileStore) (name : Option FileName) : Except Fault String :=
  match name with
  | none => .ok ""
  | some n => (store.read n).bind readUnicode

/-- A job with the paths of a path file. -/
def loadPaths [Geometry] (store : FileStore) (j : Job) (n : FileName) : Except Fault Job := do
  let text ← if store.contains n then ((store.read n).bind readUnicode).map some else .ok none
  match Job.load n.text text j with
  | .ok _ k => return k
  | .error f _ => throw f

/-- Whether compiling complains about a fault in an input file. -/
def isComplaint : Fault → Bool
  | .pathFileMissing _ | .noSuchFile _ | .pathFileMalformed _ | .pathListMissing _ | .badPath _ _
  | .geometry (.badValue _) | .notANumeral _ | .literalTooLong _ | .numeralTooLong _
  | .tooFewCoordinates _ | .malformedText => true
  | _ => false

/-- Writes a program to a file. -/
def writeProgram (p : Program FieldValue) (n : FileName) (places : Int) : Session Unit := do
  onFiles (p.writeTo n places)
  say ("Wrote " ++ n.text)

/-- Says how many violations there are, if there are any. -/
def sayViolations (count : Nat) : Session Unit :=
  if count = 0 then pure ()
  else say ("  Warning: " ++ toString count ++ " depth violations")

/-! ## Compiling -/

/-- The file that a compile request is to write. -/
def CompileRequest.target (c : CompileRequest) : Except Fault FileName :=
  match c.output with
  | some n => .ok n
  | none => c.input.rename fun stem _ => stem ++ ".gcode"

/-- The settings with what a compile request changes. -/
def CompileRequest.adjust (c : CompileRequest) (s : Settings) : Settings :=
  let s := match c.feedUnit with
    | some u => { s with feedUnit := .string u }
    | none => s
  if c.withoutWear then { s with compensateWear := .bool false } else s

section

variable [Geometry]

/-- The job and the hooks of a compile request. -/
def CompileRequest.prepare (c : CompileRequest) (s : Settings) (store : FileStore) :
    Except Fault (Job × String × String) := do
  let j ← loadPaths store { settings := s } c.input
  return (j, ← hookText store c.hookStart, ← hookText store c.hookEnd)

/-- The results of a job, or the complaint that its operation is rejected. -/
def resultsOf (j : Job) : Session (List (OperationResult FieldValue)) := do
  match ← note j.results with
  | .error (.rejected broken) =>
    giveUp ("PARAMETER ERRORS:" :: broken.map fun b => "  ERROR: " ++ b.message)
  | r => settle r

/-- Compiles the paths of a path file. -/
def CompileRequest.run (c : CompileRequest) : Session Unit := do
  let output ← settle c.target
  let settings := c.adjust (← loadSettings c.settings)
  say ("Loading " ++ c.input.text ++ " ...")
  let (job, hookStart, hookEnd) ← match c.prepare settings (← get).store with
    | .ok prepared => pure prepared
    | .error f => if isComplaint f then giveUp ["Error: " ++ f.report] else throw (.fault f)
  say ("  " ++ toString job.paths.length ++ " paths, tabs: "
    ++ if job.tabs.isSome then "yes" else "no")
  let unit ← settle settings.unit
  say ("Compiling (" ++ unit.name ++ ", wear " ++ (if settings.compensates then "on" else "off")
    ++ ") ...")
  let results ← resultsOf { job with operations := [{ c.operation with hookStart, hookEnd }] }
  let program := programOf results
  say ("  Generated " ++ toString program.length ++ " lines")
  sayViolations (results.foldl (fun n r => n + r.check.count) 0)
  writeProgram program output settings.writtenPlaces

end

/-! ## Post-processing -/

/-- The feed of a request, or that of the settings. -/
def feedOr (given : Option Float) (v : Json.Value) : Option FieldValue :=
  match given with
  | some x => some (.number x)
  | none => Settings.feedValue v

/-- The parameters of the wear compensation that a post request asks for. -/
def PostRequest.wear (p : PostRequest) (s : Settings) : WearParams FieldValue where
  ratio := .number p.wearRatio
  plungeFeed := .number p.plungeFeed
  passDepth := .number p.passDepth
  travelFeed := feedOr p.travelFeed s.travelFeed
  retractFeed := feedOr p.retractFeed s.retractFeed
  startZ := Scalar.zero
  rapidZ := Scalar.zero
  segmentLength := defaultSegmentLength

/-- The count of decimal places that a post request asks for. -/
def PostRequest.writtenPlaces (p : PostRequest) (s : Settings) : Int :=
  p.places.getD s.writtenPlaces

/-- The file that a post request is to write. -/
def PostRequest.target (p : PostRequest) : Except Fault FileName :=
  match p.output with
  | some n => .ok n
  | none => p.input.rename fun stem extension => stem ++ "_wear" ++ extension

/-- Compensates a program for wear. -/
def PostRequest.run (p : PostRequest) : Session Unit := do
  let output ← settle p.target
  let settings ← loadSettings p.settings
  say ("Loading " ++ p.input.text ++ " ...")
  let store := (← get).store
  if !store.contains p.input then giveUp ["Error: file not found: " ++ p.input.text]
  let bytes ← settle (store.read p.input)
  let program ← settle (← note (Program.parse (readAscii bytes)))
  say ("  " ++ toString program.length ++ " lines")
  say "Compensating for wear ..."
  let program ← settle (← note (program.compensateValues (p.wear settings)))
  let check ← settle (← note program.checkValues)
  sayViolations check.count
  writeProgram program output (p.writtenPlaces settings)

/-! ## Running -/

/-- Runs a command. -/
def Command.run [Geometry] : Command → Session Unit
  | .compile c => c.run
  | .post p => p.run
  | .help => pure ()

/-- What is left when a session is over. -/
structure Transcript where
  /-- How it ended. -/
  ending : Ending
  /-- The terminal. -/
  terminal : Terminal
deriving Inhabited

/-- The files that a command may read or write, apart from the usual settings file. -/
def Command.files : Command → List FileName
  | .compile c =>
    c.input :: c.target.toOption.toList ++ c.settings.toList ++ c.hookStart.toList
      ++ c.hookEnd.toList
  | .post p => p.input :: p.target.toOption.toList ++ p.settings.toList
  | .help => []

/-- Runs what some arguments ask for, given the folder of the user and the files. -/
def run [Geometry] (arguments : List String) (home : FileName) (store : FileStore) : Transcript :=
  match Request.ofArguments arguments with
  | .error line => ⟨.status 2, ⟨.warning, [], [line], store, home⟩⟩
  | .ok request =>
    match request.command.run ⟨request.level, [], [], store, home⟩ with
    | .ok _ t => ⟨.status 0, t⟩
    | .error e t => ⟨e, t⟩

end WireErosion.CommandLine
