import WireErosion.Number.Text
import WireErosion.Operation.Basic
import WireErosion.Program.Line
import WireErosion.Units

/-!
# The parameter summary

Each operation of a program starts with a summary of its parameters, in comments.  A row has a label
and a value in two columns, and numbers have six significant digits.  The last row states the wear
ratio, which is where wear compensation stages the seating plunges.
-/

namespace WireErosion

/-- The width of the column of labels. -/
def labelWidth : Nat := 14

/-- A text with blanks at its end up to a width. -/
def padded (width : Nat) (s : String) : String :=
  s ++ String.ofList (List.replicate (width - s.length) ' ')

/-- A number in a summary. -/
def summaryNumber (x : Float) : String := Double.general 6 x

namespace Operation

/-- The labels and values of the summary of an operation, given its index in the job, the number of
its paths and the unit of its feeds. -/
def summaryRows (op : Operation Float) (index paths : Int) (unit : FeedUnit) :
    List (String × String) :=
  [("Operation:", toString index),
   ("Type:", op.type.title),
   ("Paths:", toString paths),
   ("Direction:", op.direction.title),
   ("Rapid Z:", summaryNumber op.rapidZ),
   ("Start Z:", summaryNumber op.startZ),
   ("End Z:", summaryNumber op.endZ),
   ("Pass Depth:", summaryNumber op.passDepth),
   ("Plunge rate:", summaryNumber op.plungeRate ++ " " ++ unit.name),
   ("Cut rate:", summaryNumber op.cutRate ++ " " ++ unit.name),
   ("Wear Ratio:", summaryNumber op.wearRatio)]

/-- The summary of an operation. -/
def header (op : Operation Float) (index paths : Int) (unit : FeedUnit) : Program Float :=
  [.blank, .comment ";"]
    ++ (op.summaryRows index paths unit).map
      (fun (label, value) => .comment ("; " ++ padded labelWidth label ++ value))
    ++ [.comment ";"]

end Operation

end WireErosion
