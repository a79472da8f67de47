import WireErosion.Notice
import WireErosion.Wear.Block

/-!
# Staged plunges

Before the program proper a copy of every plunge is staged, so that the wire seats at each place
where it will descend.  Blank lines, path markers and travel markers are left out of the copies, and
a block without a terminal step has no copy.

The copies come right after the statement of the wear ratio, and after the empty comment that
closes the parameter summary if that is the next line.  Only the first such statement counts, and
each further one gives a notice.  In a program without one they come before the first marker of the
path with index zero.  In a program without that either nothing is staged, with a notice.
-/

namespace WireErosion

variable {α : Type}

/-- Whether a line of a plunge block is part of its staged copy. -/
def isStaged : Line α → Bool
  | .move _ => true
  | .comment t =>
    !(Comment.isBlank t || Comment.kind t == .path || Comment.kind t == .rapidToStart)

/-- The staged copies of plunge blocks. -/
def seatingLines (plunges : List (PlungeBlock α)) : List (Line α) :=
  plunges.flatMap fun b => if b.terminal?.isSome then b.lines.filter isStaged else []

/-- The indices of the statements of the wear ratio, the index of the first line being `i`. -/
def ratioLinesFrom (i : Nat) : Program α → List Nat
  | [] => []
  | l :: ls =>
    if l.kind = .wearRatio then i :: ratioLinesFrom (i + 1) ls else ratioLinesFrom (i + 1) ls

/-- Whether a line is an empty comment with its semicolon. -/
def isRuler : Line α → Bool
  | .move _ => false
  | .comment t => Text.trim Text.isBlank t.toList == [';']

/-- The index of the first marker of the path zero, the index of the first line being `i`. -/
def pathZeroFrom (i : Nat) : Program α → Except Fault (Option Nat)
  | [] => .ok none
  | .move _ :: ls => pathZeroFrom (i + 1) ls
  | .comment t :: ls => do
    if (← Comment.pathIndex t) = some 0 then return some i else pathZeroFrom (i + 1) ls

/-- The place after the statement of the wear ratio at index `i`. -/
def afterRatio (p : Program α) (i : Nat) : Nat :=
  match p[i + 1]? with
  | some l => if isRuler l then i + 2 else i + 1
  | none => i + 1

/-- The place of the staged copies. -/
def stagingPlace? (p : Program α) : Report α (Option Nat) :=
  match ratioLinesFrom 0 p with
  | i :: more =>
    (Report.tellAll (more.map .ratioRepeated)).bind fun _ => .of (some (afterRatio p i))
  | [] => .lift (pathZeroFrom 0 p)

/-- A program with the copies of its plunges staged. -/
def stagePlunges (p : Program α) (plunges : List (PlungeBlock α)) : Report α (Program α) :=
  (stagingPlace? p).bind fun
    | some i => .of (p.take i ++ seatingLines plunges ++ p.drop i)
    | none => (Report.tell .nothingStaged).bind fun _ => .of p

end WireErosion
