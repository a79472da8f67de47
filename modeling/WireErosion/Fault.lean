import WireErosion.Operation.Constraint
import WireErosion.Text.Quoted

/-!
# Faults

Why a computation has no result.  A fault names its cause and carries what a report of it needs.
The faults that belong to cam paths, jobs and operations have words of their own, `message?`.  The
others have common words, and `report` is either.
-/

namespace WireErosion

/-- Why a library for the geometry of the plane has no result, in its own words. -/
inductive GeometryFault where
  /-- A value is not one that the library takes. -/
  | badValue (words : String)
  /-- The library fails. -/
  | failure (words : String)
deriving Repr, DecidableEq, Inhabited

/-- The words of a library for a fault. -/
def GeometryFault.words : GeometryFault → String
  | .badValue words | .failure words => words

/-- Why a computation has no result. -/
inductive Fault where
  /-- A number was divided by zero. -/
  | divisionByZero
  /-- The floor of an infinity was asked for. -/
  | floorOfInfinity
  /-- The floor of what is not a number was asked for. -/
  | floorOfNaN
  /-- A number rounds to one beyond every finite double. -/
  | roundedTooLarge
  /-- An integer is beyond every finite double. -/
  | integerTooLarge
  /-- A count of decimal places is negative or beyond what can be written. -/
  | badPlaces
  /-- A text is not the numeral of a double. -/
  | notANumeral (text : String)
  /-- The numeral of a double, of which the text is given, has more digits than are read. -/
  | literalTooLong (literal : String)
  /-- An integer has more digits than are read. -/
  | numeralTooLong (digits : Nat)
  /-- A value of one kind stands where another kind is needed. -/
  | wrongKind
  /-- A field that is needed is missing. -/
  | missingField
  /-- A vertex has fewer than two coordinates. -/
  | tooFewCoordinates (count : Nat)
  /-- A vertex of a path has two or three coordinates, and this one has not. -/
  | wrongCoordinates
  /-- A text is not JSON. -/
  | malformedJson
  /-- A file is not UTF-8. -/
  | malformedText
  /-- A settings file holds something else than an object. -/
  | settingsNotAnObject
  /-- A name is not the name of a feed unit. -/
  | unknownUnits
  /-- A file name has no last component to be changed. -/
  | namelessFile
  /-- The library for the geometry of the plane has no result. -/
  | geometry (f : GeometryFault)
  /-- There is no path file of that name. -/
  | pathFileMissing (name : String)
  /-- The path file of that name is not JSON. -/
  | pathFileMalformed (name : String)
  /-- The path file of that name has no list of paths. -/
  | pathListMissing (name : String)
  /-- A path of the path file of that name cannot be read. -/
  | badPath (index : Nat) (name : String)
  /-- A job without cam paths was asked for a program. -/
  | noPaths
  /-- An operation breaks constraints. -/
  | rejected (broken : List Constraint)
  /-- A job has no operation with that index. -/
  | noSuchOperation
  /-- There is no file of that name, or no directory for it. -/
  | noSuchFile (name : String)
  /-- A directory stands where a file is needed. -/
  | isADirectory (name : String)
  /-- A file stands where a directory is needed. -/
  | notADirectory (name : String)
deriving Repr, DecidableEq, Inhabited

/-- The report of a fault that has words of its own. -/
def Fault.message? : Fault → Option String
  | .pathFileMissing name => some ("Path file not found: " ++ name)
  | .pathFileMalformed name => some ("Invalid JSON in " ++ name)
  | .pathListMissing name => some (name ++ " has no 'paths' list")
  | .badPath index name => some ("Bad path #" ++ toString index ++ " in " ++ name)
  | .noPaths => some "No cam paths loaded"
  | .rejected broken => some ("; ".intercalate (broken.map Constraint.message))
  | _ => none

/-- The words for a fault that has none of its own, and no words for the others. -/
def Fault.commonWords : Fault → String
  | .divisionByZero => "A number was divided by zero"
  | .floorOfInfinity => "An infinity has no floor"
  | .floorOfNaN => "What is not a number has no floor"
  | .roundedTooLarge => "A rounded number is too large"
  | .integerTooLarge => "An integer is too large"
  | .badPlaces => "A number cannot be written with that count of decimal places"
  | .notANumeral text => "could not convert string to float: " ++ Text.quoted text
  | .literalTooLong literal => "could not convert string to float: b" ++ Text.quoted literal
  | .numeralTooLong digits =>
    "Exceeds the limit (4300 digits) for integer string conversion: value has "
      ++ toString digits ++ " digits; use sys.set_int_max_str_digits() to increase the limit"
  | .wrongKind => "A value is of the wrong kind"
  | .missingField => "A field is missing"
  | .tooFewCoordinates count =>
    "not enough values to unpack (expected at least 2, got " ++ toString count ++ ")"
  | .wrongCoordinates => "A vertex has not two or three coordinates"
  | .malformedJson => "A file is not JSON"
  | .malformedText => "A file is not UTF-8"
  | .settingsNotAnObject => "The settings are not an object"
  | .unknownUnits => "The feed unit is unknown"
  | .namelessFile => "A file has no name"
  | .geometry f => f.words
  | .noSuchOperation => "No operation has that index"
  | .noSuchFile name => "[Errno 2] No such file or directory: " ++ Text.quoted name
  | .isADirectory name => "[Errno 21] Is a directory: " ++ Text.quoted name
  | .notADirectory name => "[Errno 20] Not a directory: " ++ Text.quoted name
  | .pathFileMissing _ | .pathFileMalformed _ | .pathListMissing _ | .badPath .. | .noPaths
  | .rejected _ => ""

/-- What a library for the geometry of the plane gives, or its fault. -/
def Fault.ofGeometry {α : Type} (r : Except GeometryFault α) : Except Fault α :=
  r.mapError .geometry

/-- The report of a fault on the command line. -/
def Fault.report (f : Fault) : String := f.message?.getD f.commonWords

end WireErosion
