import WireErosion.Number.Scalar

/-!
# Cam paths

A cam path is a list of vertices, in internal units, in the order in which they are cut.  Two passes
prepare paths for compilation.

* *Snapping* puts every vertex onto a square grid.  Depths stay as they are.  A grid of zero, or one
  so fine that the vertex is beyond it, makes a coordinate infinite or not a number, without a
  fault.
* *Thinning* drops the vertices that are closer than a given length to the vertex that was kept
  last.  The first and the last vertex always stay, so the last two that are kept may be closer.
-/

namespace WireErosion

/-- A vertex of a path. -/
structure Point (α : Type) where
  /-- The position along the first axis. -/
  x : α
  /-- The position along the second axis. -/
  y : α
  /-- The depth, where paths carry their own depth. -/
  z : α
deriving Repr, DecidableEq, Inhabited

/-- A path in cutting order. -/
structure CamPath (α : Type) where
  /-- The vertices. -/
  points : List (Point α)
  /-- Whether the tool may go back to the start of the path without rising first. -/
  safeToClose : Bool
deriving Repr, DecidableEq, Inhabited

namespace CamPath

variable {α : Type} [Scalar α]

/-! ## Snapping -/

/-- A coordinate on a grid. -/
def snapCoordinate (grid v : α) : α := Scalar.nearestWhole (v / grid) * grid

/-- A vertex on a grid. -/
def snapPoint (grid : α) (p : Point α) : Point α :=
  ⟨snapCoordinate grid p.x, snapCoordinate grid p.y, p.z⟩

/-- A path on a grid. -/
def snap (grid : α) (p : CamPath α) : CamPath α :=
  { p with points := p.points.map (snapPoint grid) }

/-! ## Thinning -/

/-- The distance of two vertices in the plane. -/
def distance (p q : Point α) : α := Scalar.distance p.x p.y q.x q.y

/-- The vertices that are kept of those after the vertex `last`, which was kept. -/
def thinAfter (length : α) (last : Point α) : List (Point α) → List (Point α)
  | [] => []
  | [p] => [p]
  | p :: q :: ps =>
    if length ≤ distance last p then p :: thinAfter length p (q :: ps)
    else thinAfter length last (q :: ps)

/-- The vertices that are kept. -/
def thinPoints (length : α) : List (Point α) → List (Point α)
  | [] => []
  | p :: ps => p :: thinAfter length p ps

/-- A path without the vertices closer than `length` to the one before, if `length` is positive. -/
def thin (length : α) (p : CamPath α) : CamPath α :=
  if length ≤ Scalar.zero then p else { p with points := thinPoints length p.points }

end CamPath

end WireErosion
