import WireErosion.Region.Edge

/-!
# Rings from edges

The border of a region is a set of edges, each with the region on its left.  Walking along them
gives rings.

At the end of an edge the walk goes on with the first edge that leaves there, looking clockwise
from the way back.  So it stays on the border of one connected piece of the region, and pieces
that only touch come apart.  Where a walk passes a position for the second time the part in
between is a ring of its own.

In the result a ring that runs counterclockwise goes around a piece of the region, and one that runs
clockwise goes around a hole.
-/

namespace WireErosion

/-! ## Directions around a position -/

/-- A direction. -/
abbrev Heading := Rat × Rat

/-- The direction from one position to another. -/
def heading (p q : Position) : Heading := (q.x - p.x, q.y - p.y)

/-- Positive if the second direction is less than half a turn counterclockwise of the first,
negative if it is less than half a turn clockwise, zero if they are parallel. -/
def sweep (u v : Heading) : Rat := u.1 * v.2 - u.2 * v.1

/-- How far clockwise from a direction another one is: up to half a turn, half a turn, up to a full
turn, or a full turn. -/
def clockwiseClass (u v : Heading) : Nat :=
  let s := sweep u v
  if s < 0 then 0
  else if 0 < s then 2
  else if u.1 * v.1 + u.2 * v.2 < 0 then 1
  else 3

/-- Whether, looking clockwise from the direction `u`, the direction `v` comes before `w`. -/
def comesBefore (u v w : Heading) : Bool :=
  let i := clockwiseClass u v
  let j := clockwiseClass u w
  i < j || (i == j && sweep v w < 0)

/-- The edge of a list that comes first, looking clockwise from the direction `u`. -/
def firstClockwise (u : Heading) : List Edge → Option Edge
  | [] => none
  | e :: es =>
    match firstClockwise u es with
    | none => some e
    | some f => if comesBefore u (heading f.a f.b) (heading e.a e.b) then some f else some e

/-- The edge that a walk goes on with after an edge. -/
def nextEdge (es : List Edge) (e : Edge) : Option Edge :=
  firstClockwise (heading e.b e.a) (es.filter fun f => f.a == e.b)

/-! ## Walks -/

/-- The rest of a walk that started with the edge `start` and stands at the end of the edge `e`, as
positions, and the edges that it left. -/
def walkFrom (start : Edge) : Nat → Edge → List Edge → List Position × List Edge
  | 0, _, es => ([], es)
  | fuel + 1, e, es =>
    match nextEdge (start :: es) e with
    | none => ([], es)
    | some f =>
      if f = start then ([], es)
      else
        let (walk, rest) := walkFrom start fuel f (es.erase f)
        (f.a :: walk, rest)

/-- The walks along some edges. -/
def walks : Nat → List Edge → List (List Position)
  | 0, _ => []
  | _ + 1, [] => []
  | fuel + 1, e :: es =>
    let (walk, rest) := walkFrom e es.length e es
    (e.a :: walk) :: walks fuel rest

/-! ## Rings -/

/-- The positions before the first `p` of a list, and the list from there on, if it is there. -/
def splitAt? (p : Position) : List Position → Option (List Position × List Position)
  | [] => none
  | q :: qs =>
    if p = q then some ([], q :: qs)
    else (splitAt? p qs).map fun (before, after) => (q :: before, after)

/-- The rings of the rest of a walk, where `path` is what was walked and not yet closed, last
position first. -/
def ringsFrom (path : List Position) : List Position → List Ring
  | [] => [path.reverse]
  | p :: ps =>
    match splitAt? p path with
    | some (loop, rest) => (p :: loop.reverse) :: ringsFrom rest ps
    | none => ringsFrom (p :: path) ps

/-- The rings of the border that some edges make up. -/
def ringsOf (es : List Edge) : List Ring :=
  ((walks es.length es).flatMap (ringsFrom [])).filter fun r => Ring.doubleArea r != 0

end WireErosion
