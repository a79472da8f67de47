import WireErosion.Number.Exact

/-!
# Positions and edges

The elements that regions are made of, with exact coordinates.

`Position.turn` tells on which side of a line a position is, and every other question about edges is
answered by it: whether an edge holds a position, where two edges meet, and how a set of edges is
broken up so that no two of the pieces meet but at their ends.

The pieces of an edge go from the lesser to the greater of their ends, in the order of
`Position.lt`.  This order runs along every line, so the pieces of an edge come from sorting the
positions on it.
-/

namespace WireErosion

/-! ## Positions -/

/-- A position in the plane. -/
structure Position where
  /-- The coordinate along the first axis. -/
  x : Rat
  /-- The coordinate along the second axis. -/
  y : Rat
deriving Repr, DecidableEq, Inhabited

namespace Position

/-- The position of two doubles, if they are finite. -/
def ofDoubles? (x y : Float) : Option Position := do
  return ⟨← Double.toRat? x, ← Double.toRat? y⟩

/-- The two doubles nearest to the coordinates. -/
def toDoubles (p : Position) : Float × Float := (Double.ofRat p.x, Double.ofRat p.y)

/-- A position with its coordinates moved to the nearest doubles. -/
def rounded (p : Position) : Position :=
  (ofDoubles? (Double.ofRat p.x) (Double.ofRat p.y)).getD p

/-- The position with its coordinates swapped. -/
def swap (p : Position) : Position := ⟨p.y, p.x⟩

/-- The order by the first axis and then by the second. -/
def lt (p q : Position) : Bool := p.x < q.x || (p.x == q.x && p.y < q.y)

/-- Whether one position comes before another one or is the same. -/
def le (p q : Position) : Bool := !(q.lt p)

/-- Twice the area of a triangle, positive if its corners are in counterclockwise order.  So the
sign says on which side of the line from `p` to `q` the position `r` is. -/
def turn (p q r : Position) : Rat := (q.x - p.x) * (r.y - p.y) - (q.y - p.y) * (r.x - p.x)

end Position

/-- A sorted list with one more position, unless it is there. -/
def insertPosition (p : Position) : List Position → List Position
  | [] => [p]
  | q :: qs =>
    if p = q then q :: qs
    else if p.lt q then p :: q :: qs
    else q :: insertPosition p qs

/-! ## Edges -/

/-- A directed edge. -/
structure Edge where
  /-- Where it starts. -/
  a : Position
  /-- Where it ends. -/
  b : Position
deriving Repr, DecidableEq, Inhabited

namespace Edge

/-- The edge in the other direction. -/
def flip (e : Edge) : Edge := ⟨e.b, e.a⟩

/-- The edge with the axes swapped. -/
def swap (e : Edge) : Edge := ⟨e.a.swap, e.b.swap⟩

/-- The position halfway along an edge. -/
def middle (e : Edge) : Position := ⟨(e.a.x + e.b.x) / 2, (e.a.y + e.b.y) / 2⟩

/-- Whether a number is between two others. -/
def isBetween (v a b : Rat) : Bool := (a ≤ v && v ≤ b) || (b ≤ v && v ≤ a)

/-- Whether a position is in the box around an edge. -/
def boxHolds (e : Edge) (p : Position) : Bool :=
  isBetween p.x e.a.x e.b.x && isBetween p.y e.a.y e.b.y

/-- Whether an edge holds a position. -/
def holds (e : Edge) (p : Position) : Bool := e.boxHolds p && Position.turn e.a e.b p == 0

/-- Whether two ranges of numbers have one in common. -/
def rangesMeet (a b c d : Rat) : Bool :=
  (a ≤ c || a ≤ d || b ≤ c || b ≤ d) && (c ≤ a || c ≤ b || d ≤ a || d ≤ b)

/-- Whether the boxes around two edges meet. -/
def boxesMeet (e f : Edge) : Bool :=
  rangesMeet e.a.x e.b.x f.a.x f.b.x && rangesMeet e.a.y e.b.y f.a.y f.b.y

/-- Whether two numbers are on the same side of zero. -/
def sameSide (s t : Rat) : Bool := (0 < s && 0 < t) || (s < 0 && t < 0)

/-- The position at a part `t` of an edge. -/
def along (e : Edge) (t : Rat) : Position :=
  ⟨e.a.x + t * (e.b.x - e.a.x), e.a.y + t * (e.b.y - e.a.y)⟩

/-- Where two edges meet: the one position they have in common, or the ends of the stretch that
they share. -/
def meet (e f : Edge) : List Position :=
  if boxesMeet e f then
    let s := Position.turn e.a e.b f.a
    let t := Position.turn e.a e.b f.b
    if s == 0 && t == 0 then [f.a, f.b].filter e.boxHolds ++ [e.a, e.b].filter f.boxHolds
    else if sameSide s t then []
    else if sameSide (Position.turn f.a f.b e.a) (Position.turn f.a f.b e.b) then []
    else [f.along (s / (s - t))]
  else []

/-- The edges between the neighbours in a list of positions. -/
def between : List Position → List Edge
  | [] => []
  | [_] => []
  | p :: q :: ps => ⟨p, q⟩ :: between (q :: ps)

/-- The pieces of an edge that is broken up where it meets others. -/
def pieces (others : List Edge) (e : Edge) : List Edge :=
  between ((others.flatMap e.meet).foldr insertPosition (insertPosition e.a [e.b]))

/-- The order of edges by their ends. -/
def le (e f : Edge) : Bool := e.a.lt f.a || (e.a == f.a && e.b.le f.b)

/-- A list without the members that are equal to the one before. -/
def dropRepeats : List Edge → List Edge
  | [] => []
  | [e] => [e]
  | e :: f :: es => if e = f then dropRepeats (f :: es) else e :: dropRepeats (f :: es)

/-- Edges broken up wherever two of them meet, each piece once. -/
def brokenUp (es : List Edge) : List Edge :=
  dropRepeats ((es.flatMap (pieces es)).mergeSort le)

end Edge

/-! ## Rings -/

/-- A closed line through some positions and back to the first. -/
abbrev Ring := List Position

namespace Ring

/-- The edges of a ring that have a length. -/
def edges : Ring → List Edge
  | [] => []
  | p :: ps => (Edge.between (p :: ps ++ [p])).filter fun e => e.a != e.b

/-- Twice the area of a ring, positive if it runs counterclockwise. -/
def doubleArea (r : Ring) : Rat :=
  (edges r).foldl (fun s e => s + (e.a.x * e.b.y - e.b.x * e.a.y)) 0

end Ring

end WireErosion
