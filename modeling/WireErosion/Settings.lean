import WireErosion.Json.Reader
import WireErosion.Json.Writer
import WireErosion.Units
import WireErosion.Wear.Compensate

/-!
# Settings

What the user chose once for all jobs.  Settings are kept in a file as a JSON object.

Reading takes any value for a setting and ignores fields that are no settings, and writing gives
every value back as it was read.  A setting that is missing has its default.  Whether a value is
of use shows when it is needed.

* The feed unit has to be the name of one.
* The count of decimal places is an integer.  A truth value rounds like zero or one, and nothing
  rounds to whole numbers, but neither can be written with.  A text of digits can be written with,
  but does not round.
* A feed is a number or a truth value.  Nothing leaves the field out.
-/

namespace WireErosion

open Json (Value)

/-- The settings, each as a JSON value. -/
structure Settings where
  /-- The unit of the feeds of operations. -/
  feedUnit : Value := .string FeedUnit.perMinute.name
  /-- The count of decimal places that programs are rounded to and written with. -/
  places : Value := .integer 3
  /-- The feed of travel in compensated programs. -/
  travelFeed : Value := .number defaultTravelFeed
  /-- The feed of retracts in compensated programs. -/
  retractFeed : Value := .number defaultRetractFeed
  /-- Whether programs are compensated for wear. -/
  compensateWear : Value := .bool true
  /-- The folder that was opened last. -/
  lastFolder : Value := .string ""
deriving Inhabited

namespace Settings

/-! ## Reading and writing -/

/-- The settings as named fields. -/
def fields (s : Settings) : List (String × Value) :=
  [("feed_units", s.feedUnit), ("decimal_places", s.places), ("travel_feed_xy", s.travelFeed),
   ("retract_feed", s.retractFeed), ("compensate_wear", s.compensateWear),
   ("last_open_dir", s.lastFolder)]

/-- Settings with one of them changed, or unchanged if there is none of that name. -/
def set (s : Settings) (name : String) (v : Value) : Settings :=
  if name = "feed_units" then { s with feedUnit := v }
  else if name = "decimal_places" then { s with places := v }
  else if name = "travel_feed_xy" then { s with travelFeed := v }
  else if name = "retract_feed" then { s with retractFeed := v }
  else if name = "compensate_wear" then { s with compensateWear := v }
  else if name = "last_open_dir" then { s with lastFolder := v }
  else s

/-- Settings with some of them changed. -/
def setAll (s : Settings) (fields : List (String × Value)) : Settings :=
  fields.foldl (fun s f => s.set f.1 f.2) s

/-- The settings that a text stands for. -/
def ofText (text : String) : Except Fault Settings := do
  match ← Json.parse text with
  | .object fields => return setAll {} fields
  | _ => throw .settingsNotAnObject

/-- The text that settings are kept as. -/
def toText (s : Settings) : String := Json.indented 0 (.object s.fields)

/-! ## Use -/

/-- The unit of feeds. -/
def unit (s : Settings) : Except Fault FeedUnit :=
  match s.feedUnit with
  | .string name =>
    match FeedUnit.named? name with
    | some u => .ok u
    | none => .error .unknownUnits
  | _ => .error .unknownUnits

/-- A number rounded as the settings ask for. -/
def round (s : Settings) (x : Float) : Except Fault Float :=
  match s.places with
  | .integer n => Scalar.roundTo n x
  | .bool b => Scalar.roundTo (if b then 1 else 0) x
  | .null => (Scalar.floor x).map fun _ => Scalar.nearestWhole x
  | _ => .error .wrongKind

/-- The count of decimal places that is written, negative if there is none. -/
def writtenPlaces (s : Settings) : Int :=
  match s.places with
  | .integer n => n
  | .string text =>
    match text.toList.mapM Text.digitValue? with
    | some (d :: ds) => Text.ofDigits (d :: ds)
    | _ => -1
  | _ => -1

/-- The feed that a value stands for. -/
def feedOf (v : Value) : Except Fault (Option Float) :=
  match v with
  | .null => .ok none
  | .bool b => .ok (some (if b then 1 else 0))
  | .number x => .ok (some x)
  | .integer n =>
    let x := Float.ofInt n
    if x.isInf then .error .integerTooLarge else .ok (some x)
  | .string _ => .error .badPlaces
  | _ => .error .wrongKind

/-- What a setting puts into the feed of a move. -/
def feedValue (v : Value) : Option FieldValue :=
  match feedOf v with
  | .ok feed => feed.map .number
  | .error f => some (.other f)

/-- The feeds of travel and of retracts. -/
def feeds (s : Settings) : Except Fault (Option Float × Option Float) := do
  return (← feedOf s.travelFeed, ← feedOf s.retractFeed)

/-- Whether programs are compensated for wear. -/
def compensates (s : Settings) : Bool := s.compensateWear.isTruthy

end Settings

end WireErosion
