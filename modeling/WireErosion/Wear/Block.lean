import WireErosion.Program.Line
import WireErosion.Wear.Handle

/-!
# Blocks of a program

The parts a program is taken apart into.

* A *cut block* is a cut marker and the moves after it.  Once the wear on it is known, it also
  holds the depth it ends at.
* A *plunge block* is a retract marker and the lines after it up to the descent.  Each of its
  lines is a step, and a step may have a role.  The last step with the role of the plunge is the
  *terminal* one: it finishes the descent.
* What is left of the program is a *residue*, a list of lines and of handles for the blocks.

A step with a role should be a move.  Changing one that is not is a fault.
-/

namespace WireErosion

/-! ## Types -/

/-- A line of what is left of a program. -/
inductive Residual (α : Type) where
  /-- A line of the program. -/
  | line (l : Line α)
  /-- The place of a block. -/
  | handle (h : Handle)
deriving Repr, DecidableEq, Inhabited

/-- What is left of a program. -/
abbrev Residue (α : Type) := List (Residual α)

/-- Whether a line is a move. -/
def Residual.isMove {α : Type} : Residual α → Bool
  | .line l => l.isMove
  | .handle _ => false

/-- A cut marker and the moves after it. -/
structure CutBlock (α : Type) where
  /-- The lines. -/
  lines : List (Line α)
  /-- The depth after the last move, once it is known. -/
  lastZ : Option α := none
deriving Repr, DecidableEq, Inhabited

/-- The role of a move of a plunge block. -/
inductive PlungeRole where
  /-- The rise to the clearance height. -/
  | retract
  /-- The travel in the plane. -/
  | travel
  /-- The rapid descent to the finished depth. -/
  | zeroPlunge
  /-- The descent into the material. -/
  | plunge
deriving Repr, DecidableEq, Inhabited

/-- The name of a role. -/
def PlungeRole.name : PlungeRole → String
  | .retract => "retract"
  | .travel => "travel"
  | .zeroPlunge => "zero_plunge"
  | .plunge => "plunge"

/-- A line of a plunge block. -/
structure PlungeStep (α : Type) where
  /-- The line. -/
  line : Line α
  /-- Its role, if it has one. -/
  role : Option PlungeRole := none
deriving Repr, DecidableEq, Inhabited

/-- A retract marker and the lines up to the descent. -/
abbrev PlungeBlock (α : Type) := List (PlungeStep α)

/-! ## The terminal step -/

namespace PlungeBlock

variable {α : Type}

/-- The lines of a block. -/
def lines (b : PlungeBlock α) : List (Line α) := b.map (·.line)

/-- The roles of a block. -/
def roles (b : PlungeBlock α) : List (Option PlungeRole) := b.map (·.role)

/-- The index of the terminal step. -/
def terminal? : PlungeBlock α → Option Nat
  | [] => none
  | s :: b =>
    match terminal? b with
    | some i => some (i + 1)
    | none => if s.role = some .plunge then some 0 else none

/-- Lines with the depth of the move at an index replaced. -/
def setZ (z : Option α) : Nat → List (Line α) → Except Fault (List (Line α))
  | _, [] => .ok []
  | 0, .move m :: ls => .ok (.move { m with z } :: ls)
  | 0, .comment _ :: _ => .error .wrongKind
  | i + 1, l :: ls => (setZ z i ls).map (l :: ·)

/-- The lines of a block with the depth of the terminal step replaced, if there is one. -/
def withTerminalZ (z : Option α) (b : PlungeBlock α) : Except Fault (List (Line α)) :=
  match b.terminal? with
  | none => .ok b.lines
  | some i => setZ z i b.lines

end PlungeBlock

end WireErosion
