import WireErosion.Program.Line

/-!
# Subdivision of a cut

The wire wears along the whole of a move, so a long move is broken up by points at a fixed distance
from each other.  They lie on the straight way from the position at a move to the next position
that the block names, which the next such move itself supplies.  An axis that is not known at both
ends of the way is left as the move has it.

With a distance `d` and a way of length `D > d` the points are at `d`, `2 d`, and so on, as long as
they are before the end by more than `slack`.  Each is a copy of the move at the start of the way.

The last move that names a position has no way to go, and it and what follows it stays as it is.
-/

namespace WireErosion

variable {α : Type} [Scalar α]

/-- A position of which an axis may be unknown. -/
abbrev Modal (α : Type) := Option α × Option α

/-- A position after a move. -/
def Modal.after {α : Type} (p : Modal α) (m : Move α) : Modal α := (m.x <|> p.1, m.y <|> p.2)

/-- How far before the end of a way the last point has to be. -/
def slack : α := 1e-9

/-- The next position that the lines name, when the position before them is `p`. -/
def nextWaypoint? (p : Modal α) : List (Line α) → Option (Modal α)
  | [] => none
  | .comment _ :: ls => nextWaypoint? p ls
  | .move m :: ls => if m.hasXY then some (p.after m) else nextWaypoint? p ls

/-- The difference of two coordinates, zero if one of them is unknown. -/
def axisStep : Option α → Option α → α
  | some a, some b => b - a
  | _, _ => Scalar.zero

/-- A coordinate at the part `t` of a way, or `own` if the way does not know the axis. -/
def axisAt (t : α) (own : Option α) : Option α → Option α → Option α
  | some a, some b => some (a + t * (b - a))
  | _, _ => own

/-- The distances from the start of a way of length `length` at which points are put, with `count`
as a bound of their number. -/
def distances (count : Nat) (spacing length : α) : List α :=
  ((List.range count).map fun k => ((k + 1 : Nat) : α) * spacing).filter (· < length - slack)

/-- The points on the way from `a` to `b`, as copies of the move `m`. -/
def intermediateMoves (m : Move α) (a b : Modal α) (spacing : α) :
    Except Fault (List (Move α)) := do
  let length := Scalar.hypot (axisStep a.1 b.1) (axisStep a.2 b.2)
  if length ≤ spacing then return []
  let count ← Scalar.floor (← Scalar.quotient length spacing)
  return (distances count.toNat spacing length).map fun d =>
    { m with x := axisAt (d / length) m.x a.1 b.1, y := axisAt (d / length) m.y a.2 b.2 }

/-- The rest of a block with the points put in, when the position before it is `p`. -/
def subdivideFrom (spacing : α) (p : Modal α) : List (Line α) → Except Fault (List (Line α))
  | [] => .ok []
  | .comment t :: ls => (subdivideFrom spacing p ls).map (.comment t :: ·)
  | .move m :: ls =>
    if m.hasXY then
      let here := p.after m
      match nextWaypoint? here ls with
      | none => .ok (.move m :: ls)
      | some there => do
        let points ← intermediateMoves m here there spacing
        let rest ← subdivideFrom spacing here ls
        return .move m :: (points.map .move ++ rest)
    else (subdivideFrom spacing p ls).map (.move m :: ·)

/-- A block with points put in wherever a way is longer than `spacing`. -/
def subdivide (spacing : α) (ls : List (Line α)) : Except Fault (List (Line α)) :=
  subdivideFrom spacing (none, none) ls

end WireErosion
