import WireErosion.Number.Numeral
import WireErosion.Number.Scalar

/-!
# Program lines

A program is a list of lines.  A line is a move, rapid or linear, or a comment, which is any other
line kept as its text.  A field of a move that is absent keeps the value it had before.

A comment that starts with one of the marker texts has a structural kind.  The path marker, which
carries an index, is looked for first, then the others in the order of `markers`.  There the
marker of a retract for a tab stands before the plain retract marker, which is the beginning of
it.

The index of a path marker is the number its digits write, in the digits of any script.  An index
with more digits than are read is a fault, but the comment still is a path marker.
-/

namespace WireErosion

/-! ## Moves -/

/-- How a move is driven. -/
inductive Motion where
  /-- At full speed, without cutting. -/
  | rapid
  /-- In a straight line at the feed rate. -/
  | linear
deriving Repr, DecidableEq, Inhabited

/-- The word that starts a move of this kind. -/
def Motion.word : Motion → String
  | .rapid => "G0"
  | .linear => "G1"

/-- A rapid or linear move. -/
structure Move (α : Type) where
  /-- How it is driven. -/
  motion : Motion
  /-- The position along the first axis. -/
  x : Option α := none
  /-- The position along the second axis. -/
  y : Option α := none
  /-- The depth. -/
  z : Option α := none
  /-- The feed rate. -/
  f : Option α := none
  /-- The speed of the tool. -/
  s : Option α := none
deriving Repr, DecidableEq, Inhabited

namespace Move

variable {α : Type}

/-- Whether a move names a position in the plane. -/
def hasXY (m : Move α) : Bool := m.x.isSome || m.y.isSome

/-- A rapid move. -/
def rapid (x y z : Option α) : Move α := ⟨.rapid, x, y, z, none, none⟩

/-- A linear move. -/
def linear (x y z f s : Option α) : Move α := ⟨.linear, x, y, z, f, s⟩

/-- A move with every field replaced. -/
def map {β : Type} (f : α → β) (m : Move α) : Move β :=
  ⟨m.motion, m.x.map f, m.y.map f, m.z.map f, m.f.map f, m.s.map f⟩

end Move

/-! ## Markers -/

/-- The structural role of a line. -/
inductive LineKind where
  /-- A move. -/
  | move
  /-- The start of a path. -/
  | path
  /-- The start of a cut. -/
  | cut
  /-- The start of a straight descent. -/
  | plunge
  /-- The start of a descent along the path. -/
  | ramp
  /-- The start of a retract to the clearance height. -/
  | retract
  /-- The start of a rise over a tab. -/
  | retractForTab
  /-- The start of the travel to the first vertex of a path. -/
  | rapidToStart
  /-- The statement of the wear ratio. -/
  | wearRatio
  /-- Any other comment. -/
  | generic
deriving Repr, DecidableEq, Inhabited

/-- The name of a role. -/
def LineKind.name : LineKind → String
  | .move => "move"
  | .path => "path"
  | .cut => "cut"
  | .plunge => "plunge"
  | .ramp => "ramp"
  | .retract => "retract"
  | .retractForTab => "retract_for_tab"
  | .rapidToStart => "rapid_to_start"
  | .wearRatio => "wear_ratio"
  | .generic => "generic"

namespace Marker

/-- The marker of a path, without its index. -/
def path : String := "; Path "
/-- The marker of a cut. -/
def cut : String := "; cut"
/-- The marker of a straight descent. -/
def plunge : String := "; plunge"
/-- The marker of a descent along the path. -/
def ramp : String := "; ramp"
/-- The marker of a retract. -/
def retract : String := "; Retract"
/-- The marker of a rise over a tab. -/
def retractForTab : String := "; Retract for tab"
/-- The marker of the travel to a path. -/
def rapidToStart : String := "; Rapid to initial position"
/-- The beginning of the statement of the wear ratio. -/
def wearRatio : String := "; Wear Ratio:"

/-- The markers without an index and their roles, in the order they are looked for. -/
def all : List (String × LineKind) :=
  [(retractForTab, .retractForTab), (retract, .retract), (rapidToStart, .rapidToStart),
   (wearRatio, .wearRatio), (plunge, .plunge), (ramp, .ramp), (cut, .cut)]

/-- The rest of a list after another one at its front. -/
def after? : List Char → List Char → Option (List Char)
  | [], cs => some cs
  | _ :: _, [] => none
  | p :: ps, c :: cs => if p = c then after? ps cs else none

/-- The digits at the front of a list of characters, by their values. -/
def leadingDigits : List Char → List Nat
  | [] => []
  | c :: cs =>
    match Text.digitValue? c with
    | some v => v :: leadingDigits cs
    | none => []

/-- The digits of the index of a path marker.  There is at least one. -/
def pathDigits? (text : String) : Option (List Nat) :=
  (after? path.toList text.toList).bind fun rest =>
    match leadingDigits rest with
    | [] => none
    | ds => some ds

end Marker

/-! ## Lines -/

/-- A line of a program. -/
inductive Line (α : Type) where
  /-- A move. -/
  | move (m : Move α)
  /-- Any other line, as its text. -/
  | comment (text : String)
deriving Repr, DecidableEq, Inhabited

/-- A program. -/
abbrev Program (α : Type) := List (Line α)

namespace Comment

/-- The role of a comment. -/
def kind (text : String) : LineKind :=
  if (Marker.pathDigits? text).isSome then .path
  else
    match Marker.all.find? fun m => (Marker.after? m.1.toList text.toList).isSome with
    | some m => m.2
    | none => .generic

/-- The index of a path marker, if the comment is one. -/
def pathIndex (text : String) : Except Fault (Option Nat) :=
  match Marker.pathDigits? text with
  | none => .ok none
  | some ds =>
    if Numeral.mostDigits < ds.length then .error (.numeralTooLong ds.length)
    else .ok (some (Text.ofDigits ds))

/-- Whether a comment has no text. -/
def isBlank (text : String) : Bool := Text.isBlankText text

/-- The path marker with an index. -/
def ofPath (index : Int) : String := Marker.path ++ toString index

end Comment

namespace Line

variable {α : Type}

/-- The role of a line. -/
def kind : Line α → LineKind
  | .move _ => .move
  | .comment text => Comment.kind text

/-- Whether a line is a move. -/
def isMove : Line α → Bool
  | .move _ => true
  | .comment _ => false

/-- A line with every field of a move replaced. -/
def map {β : Type} (f : α → β) : Line α → Line β
  | .move m => .move (m.map f)
  | .comment text => .comment text

/-- A blank line. -/
def blank : Line α := .comment ""

/-- The start of the path with the given index. -/
def pathStart (index : Int) : Line α := .comment (Comment.ofPath index)

/-- The start of a cut. -/
def cut : Line α := .comment Marker.cut

/-- The start of a straight descent. -/
def plunge : Line α := .comment Marker.plunge

/-- The start of a descent along the path. -/
def ramp : Line α := .comment Marker.ramp

/-- The start of a retract. -/
def retract : Line α := .comment Marker.retract

/-- The start of a rise over a tab. -/
def retractForTab : Line α := .comment Marker.retractForTab

/-- The start of the travel to a path. -/
def rapidToStart : Line α := .comment Marker.rapidToStart

end Line

example : Comment.kind "; Retract for tab" = .retractForTab := by decide
example : Comment.kind "; Path 12b" = .path ∧ Comment.kind "; Path x" = .generic := by decide

end WireErosion
