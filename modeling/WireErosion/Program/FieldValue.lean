import WireErosion.Notice
import WireErosion.Program.Encode

/-!
# Values of fields

A field of a move holds a number.  Only the feeds of a program that is post-processed come from the
settings, and a setting may be anything.  So what such a field holds is a value: a number, or
something else, of which the fault of writing it is kept.

Values are scalars, so the wear pass runs on them as it does on doubles.  It puts feeds into moves
and never computes with them, and a value that is no number goes through it unchanged.  That it is
none shows when it is written.
-/

namespace WireErosion

/-- What a field of a move holds. -/
inductive FieldValue where
  /-- A number. -/
  | number (x : Float)
  /-- Something else, which cannot be written. -/
  | other (f : Fault)
deriving Repr, Inhabited

namespace FieldValue

/-! ## Values as scalars -/

/-- The double that a value computes as. -/
def toFloat : FieldValue → Float
  | .number x => x
  | .other _ => 0 / 0

/-- Values are scalars, which compute as their doubles do. -/
instance : Scalar FieldValue where
  add a b := .number (a.toFloat + b.toFloat)
  sub a b := .number (a.toFloat - b.toFloat)
  mul a b := .number (a.toFloat * b.toFloat)
  div a b := .number (a.toFloat / b.toFloat)
  neg a := .number (-a.toFloat)
  lt a b := a.toFloat < b.toFloat
  le a b := a.toFloat ≤ b.toFloat
  beq a b := a.toFloat == b.toFloat
  natCast n := .number (Float.ofNat n)
  ofScientific m s e := .number (OfScientific.ofScientific m s e)
  decLT a b := inferInstanceAs (Decidable (a.toFloat < b.toFloat))
  decLE a b := inferInstanceAs (Decidable (a.toFloat ≤ b.toFloat))
  sqrt a := .number (Scalar.sqrt a.toFloat)
  hypot a b := .number (Scalar.hypot a.toFloat b.toFloat)
  floor a := Scalar.floor a.toFloat
  roundTo places a := (Scalar.roundTo places a.toFloat).map .number
  nearestWhole a := .number (Scalar.nearestWhole a.toFloat)

/-! ## Writing values -/

/-- The largest count of decimal places that is read before a number is written with it. -/
def mostReadPlaces : Int := 9223372036854775807

/-- The fault of writing a value that is no number.  Only of an integer beyond every double does it
depend on the count of decimal places, which is read before the integer is. -/
def writingFault (places : Int) : Fault → Fault
  | .integerTooLarge =>
    if 0 ≤ places ∧ places ≤ mostReadPlaces then .integerTooLarge else .badPlaces
  | f => f

end FieldValue

/-- The text of a line whose feed may be no number.  The coordinates are written before the feed. -/
def Line.encodeValues (places : Int) : Line FieldValue → Except Fault String
  | .comment text => .ok text
  | .move m =>
    match m.f with
    | some (.other fault) => do
      let _ ← (Line.move ({ m with f := none, s := none }.map FieldValue.toFloat)).encode places
      throw (FieldValue.writingFault places fault)
    | _ => (Line.move (m.map FieldValue.toFloat)).encode places

namespace Program

/-- A program with its numbers as values. -/
def values (p : Program Float) : Program FieldValue := p.map (Line.map .number)

/-- The text of a program whose feeds may be no numbers. -/
def formatValues (places : Int) (p : Program FieldValue) : Except Fault String :=
  (p.mapM (Line.encodeValues places)).map fun ts => String.join (ts.map (· ++ lineEnd))

end Program

end WireErosion
