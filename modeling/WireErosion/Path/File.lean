import WireErosion.Geometry
import WireErosion.Json.Reader
import WireErosion.Units

/-!
# Path files

Cam paths and tabs are kept in a JSON file, in millimetres.

    an object with a field paths, and perhaps a field tabs
    paths: a list of objects with a field points, and perhaps a field safe_to_close
    points: a list of vertices of two or three numbers, and what follows them does not count
    tabs: a list of rings, each a list of vertices of two numbers, and what follows does not count

A numeral in a text counts as its number and a truth value as zero or one.  Where a list is asked
for, a text counts as the list of its characters and an object as the list of its names.

What is wrong in a path is reported with the index of the path, but an integer that is too large is
reported as such.  What is wrong in the tabs is reported as it is, and so is a fault of the library
that makes the region of them.
-/

namespace WireErosion.PathFile

open Json (Value field?)

/-! ## Numbers and lists -/

/-- The number that a value counts as. -/
def double (v : Value) : Except Fault Float :=
  match v with
  | .number x => .ok x
  | .bool b => .ok (if b then 1 else 0)
  | .integer n =>
    let x := Float.ofInt n
    if x.isInf then .error .integerTooLarge else .ok x
  | .string s =>
    match Numeral.double? s.toList with
    | some x => .ok x
    | none => .error (.notANumeral s)
  | _ => .error .wrongKind

/-- The list that a value counts as. -/
def members (v : Value) : Except Fault (List Value) :=
  match v with
  | .array ms => .ok ms
  | .object fs => .ok (fs.map fun f => .string f.1)
  | .string s => .ok (s.toList.map fun c => .string c.toString)
  | _ => .error .wrongKind

/-! ## Paths -/

/-- The first members of a list or a text. -/
def firstMembers (count : Nat) (v : Value) : Except Fault (List Value) :=
  match v with
  | .object _ => .error .wrongKind
  | v => (members v).map (·.take count)

/-- A vertex of a path in internal units. -/
def point (scale : Float) (v : Value) : Except Fault (Point Float) := do
  match ← (← firstMembers 3 v).mapM double with
  | [x, y] => return ⟨x * scale, y * scale, 0⟩
  | [x, y, z] => return ⟨x * scale, y * scale, z * scale⟩
  | _ => throw .wrongCoordinates

/-- The vertices of a path. -/
def points (scale : Float) (v : Value) : Except Fault (List (Point Float)) := do
  match v with
  | .object fs =>
    match field? "points" fs with
    | some ps => (← members ps).mapM (point scale)
    | none => throw .missingField
  | _ => throw .wrongKind

/-- Whether a path may be closed. -/
def isSafeToClose (v : Value) : Bool :=
  match v with
  | .object fs => ((field? "safe_to_close" fs).map Value.isTruthy).getD false
  | _ => false

/-- A fault in the path with the given index of the file of the given name. -/
def pathFault (name : String) (index : Nat) : Fault → Fault
  | .integerTooLarge => .integerTooLarge
  | _ => .badPath index name

/-- The path with the given index. -/
def path (name : String) (scale : Float) (index : Nat) (v : Value) :
    Except Fault (CamPath Float) :=
  match points scale v with
  | .ok ps => .ok ⟨ps, isSafeToClose v⟩
  | .error f => .error (pathFault name index f)

/-! ## Tabs -/

/-- A vertex of a tab in internal units. -/
def corner (scale : Float) (v : Value) : Except Fault (Float × Float) := do
  match ← members v with
  | x :: y :: _ => return ((← double x) * scale, (← double y) * scale)
  | vs => throw (.tooFewCoordinates vs.length)

section

variable [Geometry]

/-- A tab. -/
def tab (scale : Float) (v : Value) : Except Fault Geometry.Polygon := do
  let corners ← (← members v).mapM (corner scale)
  Fault.ofGeometry (Geometry.polygon corners)

/-- The region of the tabs, if there is anything in it. -/
def tabs (scale : Float) (v : Value) : Except Fault (Option Geometry.Region) := do
  if v.isTruthy then
    let polygons ← (← members v).mapM (tab scale)
    Fault.ofGeometry (Geometry.region polygons)
  else return none

/-! ## Files -/

/-- What a path file holds. -/
structure Contents where
  /-- The paths. -/
  paths : List (CamPath Float)
  /-- The region of the tabs, if there are any. -/
  tabs : Option Geometry.Region
deriving Inhabited

/-- What the fields of a path file of the given name stand for. -/
def ofFields (name : String) (scale : Float) (fs : List (String × Value)) :
    Except Fault Contents := do
  match field? "paths" fs with
  | none => throw (.pathListMissing name)
  | some list =>
    let paths ← (← members list).zipIdx.mapM fun (v, i) => path name scale i v
    return ⟨paths, ← tabs scale ((field? "tabs" fs).getD .null)⟩

/-- What a text stands for, as that of a path file of the given name. -/
def ofText (name : String) (scale : Float) (text : String) : Except Fault Contents :=
  match Json.parse text with
  | .ok (.object fs) => ofFields name scale fs
  | .ok _ => .error (.pathListMissing name)
  | .error .malformedJson => .error (.pathFileMalformed name)
  | .error f => .error f

/-- What the path file of the given name holds, whose text is given if there is one. -/
def load (name : String) (text : Option String) : Except Fault Contents :=
  match text with
  | none => .error (.pathFileMissing name)
  | some t => ofText name internalScale t

end

end WireErosion.PathFile
