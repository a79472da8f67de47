import WireErosion.Path.Basic

/-!
# Splitting a path at a region

Where tabs are to be left standing, a path falls into runs that lie outside the region of the tabs
and runs that lie inside of it.

Each segment is first broken up at the points where it meets the border of the region.  The points
are placed by their part `t` of the way along the segment, and those within `margin` of either end
are left out.  Then the pieces are sorted into runs by the place of their midpoint.  The first run
is outside, and is empty if the path starts inside.  Runs take turns, and each starts with the
last point of the run before it.

Lengths and positions along a segment come from where the region does, and are not computed here.

`splitFrom` keeps all pieces in order.  So joining the runs at the points they share gives the path
again, with some more points on its segments.
-/

namespace WireErosion

/-- A region of the plane, by what the splitting of paths asks about it. -/
structure TabRegion (α : Type) where
  /-- Whether a position is in the region or on its border. -/
  covers : α → α → Bool
  /-- The positions at which a segment meets the border, with the ends of any stretch that they
  share. -/
  crossings : Point α → Point α → List (α × α)
  /-- The length of a segment in the plane. -/
  length : Point α → Point α → α
  /-- How far along a segment it comes nearest to a position. -/
  project : Point α → Point α → α × α → α

variable {α : Type} [Scalar α]

/-! ## Pieces of a segment -/

/-- How close to an end of a segment, as a part of it, it is not broken up. -/
def margin : α := 1e-9

/-- An ascending list with one more member, unless it is there. -/
def insertWay (t : α) : List α → List α
  | [] => [t]
  | u :: us =>
    if t < u then t :: u :: us
    else if u < t then u :: insertWay t us
    else u :: us

/-- The parts of the way at which a segment is broken up, in ascending order. -/
def breakWays (region : TabRegion α) (a b : Point α) : List α :=
  let ways := (region.crossings a b).foldr
    (fun hit ts => insertWay (region.project a b hit / region.length a b) ts) []
  ways.filter fun t => margin < t && t < Scalar.one - margin

/-- The point at a part of the way from `a` to `b`. -/
def pointAt (a b : Point α) (t : α) : Point α :=
  ⟨a.x + t * (b.x - a.x), a.y + t * (b.y - a.y), a.z + t * (b.z - a.z)⟩

/-- The pieces from `a` through some points to `b`. -/
def piecesThrough (a : Point α) (b : Point α) : List (Point α) → List (Point α × Point α)
  | [] => [(a, b)]
  | p :: ps => (a, p) :: piecesThrough p b ps

/-- The pieces of a segment. -/
def segmentPieces (region : TabRegion α) (a b : Point α) : List (Point α × Point α) :=
  if region.length a b == Scalar.zero then [(a, b)]
  else piecesThrough a b ((breakWays region a b).map (pointAt a b))

/-- The pieces of a path. -/
def pathPieces (region : TabRegion α) : List (Point α) → List (Point α × Point α)
  | [] => []
  | [_] => []
  | a :: b :: ps => segmentPieces region a b ++ pathPieces region (b :: ps)

/-! ## Runs -/

/-- Whether the midpoint of a piece is in the region. -/
def isInside (region : TabRegion α) (a b : Point α) : Bool :=
  region.covers ((a.x + b.x) / Scalar.two) ((a.y + b.y) / Scalar.two)

/-- The points of the open run, and the runs after it, that some pieces give.  `inside` is the place
of the open run and `started` says whether it has points already. -/
def splitFrom (region : TabRegion α) (inside started : Bool) :
    List (Point α × Point α) → List (Point α) × List (List (Point α))
  | [] => ([], [])
  | (a, b) :: rest =>
    if isInside region a b = inside then
      let (run, runs) := splitFrom region inside true rest
      (if started then b :: run else a :: b :: run, runs)
    else
      let (run, runs) := splitFrom region (!inside) true rest
      ([], (a :: b :: run) :: runs)

/-- The runs of a path, the first one outside the region and then taking turns.  A path of fewer
than two points is one run. -/
def splitRuns (region : TabRegion α) (points : List (Point α)) : List (List (Point α)) :=
  if points.length < 2 then [points]
  else
    let (run, runs) := splitFrom region false false (pathPieces region points)
    run :: runs

end WireErosion
