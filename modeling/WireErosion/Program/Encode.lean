import WireErosion.Number.Numeral
import WireErosion.Number.Text
import WireErosion.Program.Line

/-!
# The text of a program

A move is written as its word and its fields in the order X, Y, Z, F, S, apart by one space.  A
field is its letter and a number with a given count of decimal places, without the sign of a zero.
A speed that is a whole number is written as an integer of any size.  A comment is its text.

A count of decimal places that is negative, or more than can be written, is a fault of a move with
a field that needs it.  Comments, and moves without such a field, are written all the same.

A number with a sign is read from its text to see whether it is zero.  So it is a fault too if the
text has more digits than are read.

Each line of a program ends with a carriage return and a line feed.  A written file is ASCII, and
every other character of a comment is a question mark there.
-/

namespace WireErosion

/-- The largest count of decimal places that can be written. -/
def mostWrittenPlaces : Int := 2147483647

/-- The text of a number without the sign of a zero. -/
def dropZeroSign (text : String) : Except Fault String :=
  match text.toList with
  | '-' :: rest =>
    match Numeral.double? ('-' :: rest) with
    | some x => .ok (if x == 0 then String.ofList rest else text)
    | none => .error (.notANumeral text)
  | _ => .ok text

/-- A number with a count of decimal places. -/
def numberWord (places : Int) (x : Float) : Except Fault String :=
  if 0 ≤ places ∧ places ≤ mostWrittenPlaces then dropZeroSign (Double.fixed places.toNat x)
  else .error .badPlaces

/-- A speed: an integer if it is one, or a number with a count of decimal places. -/
def speedWord (places : Int) (x : Float) : Except Fault String :=
  if Double.isWhole x then .ok (Double.wholeText x) else numberWord places x

/-- A field of a move, if it is present. -/
def fieldWord (letter : String) (write : Float → Except Fault String) :
    Option Float → Except Fault (List String)
  | none => .ok []
  | some x => (write x).map fun t => [letter ++ t]

namespace Line

/-- The text of a line. -/
def encode (places : Int) : Line Float → Except Fault String
  | .comment text => .ok text
  | .move m => do
    let x ← fieldWord "X" (numberWord places) m.x
    let y ← fieldWord "Y" (numberWord places) m.y
    let z ← fieldWord "Z" (numberWord places) m.z
    let f ← fieldWord "F" (numberWord places) m.f
    let s ← fieldWord "S" (speedWord places) m.s
    return " ".intercalate (m.motion.word :: x ++ y ++ z ++ f ++ s)

end Line

namespace Program

/-- The texts of the lines of a program. -/
def encodeLines (places : Int) (p : Program Float) : Except Fault (List String) :=
  p.mapM (Line.encode places)

/-- The end of a written line. -/
def lineEnd : String := "\r\n"

/-- The text of a program. -/
def format (places : Int) (p : Program Float) : Except Fault String :=
  (encodeLines places p).map fun ts => String.join (ts.map (· ++ lineEnd))

end Program

/-- A text in which every character outside ASCII is a question mark. -/
def asciiText (s : String) : String := s.map fun c => if c.toNat < 128 then c else '?'

end WireErosion
