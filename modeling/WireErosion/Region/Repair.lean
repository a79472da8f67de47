import WireErosion.Region.Overlay

/-!
# The area of crossing rings

Rings that cross or touch themselves or each other have no area of their own, and are given one.
All edges are broken up where they meet, and a piece that comes up twice counts once.  The pieces
divide the plane into *faces*.  The depth of a face is the least number of pieces that have to be
crossed to get there from outside.  The faces of odd depth are the area.

A piece with the same depth on both sides belongs to no border.  Such pieces are left over.

Each piece has two sides, and every side belongs to a face.  Depths are found for sides.  Two
sides have the same depth if one follows the other along the border of a face, or if nothing is
between them on the ray upward from the middle of a piece.  The two sides of a piece differ by at
most one.  So the depths are the lengths of shortest ways among the sides, and `shortenDepths`
shortens them step by step, as often as there are sides.
-/

namespace WireErosion

/-! ## Links between sides -/

/-- A link: two sides by their indices, and how much deeper one can be than the other. -/
structure Link where
  /-- The one side. -/
  a : Nat
  /-- The other side. -/
  b : Nat
  /-- The length of the way between them. -/
  length : Nat
deriving Repr, DecidableEq, Inhabited

/-- The sides of some pieces.  The left side of the piece with index `i` has index `2 i` and is
the piece itself, the right side has index `2 i + 1` and is the piece in the other direction. -/
def sidesOf (pieces : List Edge) : List Edge := pieces.flatMap fun e => [e, e.flip]

/-- The links between the two sides of each piece. -/
def twinLinks (count : Nat) : List Link := (List.range count).map fun i => ⟨2 * i, 2 * i + 1, 1⟩

/-- The links between sides that follow each other along the border of a face. -/
def borderLinks (sides : List Edge) : List Link :=
  sides.zipIdx.filterMap fun (e, i) =>
    (nextEdge sides e).bind fun f => (sides.idxOf? f).map fun j => ⟨i, j, 0⟩

/-- The height and the slope of an edge above a coordinate. -/
def heightAt (x : Rat) (e : Edge) : Rat × Rat :=
  let slope := (e.b.y - e.a.y) / (e.b.x - e.a.x)
  (e.a.y + (x - e.a.x) * slope, slope)

/-- Whether one edge is lower than another one above a coordinate, or just to the right of it. -/
def isLower (x : Rat) (e f : Edge) : Bool :=
  let (h, s) := heightAt x e
  let (k, t) := heightAt x f
  h < k || (h == k && s < t)

/-- The index of the lowest piece above a position, the first piece having index `i`. -/
def lowestAbove (p : Position) (i : Nat) : List Edge → Option (Edge × Nat)
  | [] => none
  | e :: es =>
    match e.passing p, lowestAbove p (i + 1) es with
    | .above, some (f, j) => if isLower p.x f e then some (f, j) else some (e, i)
    | .above, none => some (e, i)
    | _, found => found

/-- The link from the left side of a piece to what is above it, `none` if nothing is above it. -/
def rayLink? (pieces : List Edge) (e : Edge) (i : Nat) : Option Link :=
  (lowestAbove e.middle 0 pieces).map fun (_, j) => ⟨2 * i, 2 * j + 1, 0⟩

/-! ## Depths -/

/-- Depths of sides by their indices. -/
abbrev Depths := Array Nat

/-- Depths after one link is heeded. -/
def heedLink (d : Depths) (l : Link) : Depths :=
  let m := d.getD l.a 0
  let n := d.getD l.b 0
  (d.setIfInBounds l.a (Nat.min m (n + l.length))).setIfInBounds l.b (Nat.min n (m + l.length))

/-- Depths after all links were heeded a number of times. -/
def shortenDepths (links : List Link) : Nat → Depths → Depths
  | 0, d => d
  | n + 1, d =>
    let e := links.foldl heedLink d
    if e = d then d else shortenDepths links n e

/-- The depth of a side before any way to it is known: zero if the side is outside, or more than any
depth. -/
def firstDepth (pieces : List Edge) (e : Edge) : Nat :=
  if e.isUpright || (lowestAbove e.middle 0 pieces).isSome then 2 * pieces.length + 1 else 0

/-- The depths on the two sides of each piece. -/
def depthSides (pieces : List Edge) : List (Edge × Sides Nat) :=
  let sides := sidesOf pieces
  let links := twinLinks pieces.length ++ borderLinks sides
    ++ pieces.zipIdx.filterMap fun (e, i) => if e.isUpright then none else rayLink? pieces e i
  let start := pieces.flatMap fun e => [firstDepth pieces e, 2 * pieces.length + 1]
  let depths := shortenDepths links sides.length start.toArray
  pieces.zipIdx.map fun (e, i) => (e, ⟨depths.getD (2 * i) 0, depths.getD (2 * i + 1) 0⟩)

/-- The rings around the area of some edges that are one group, and whether any piece is left
over. -/
def repairedGroup (es : List Edge) : List Ring × Bool :=
  let pieces := depthSides (Edge.brokenUp es)
  (ringsOf (pieces.filterMap fun (e, s) => borderEdge? ⟨s.left % 2 == 1, s.right % 2 == 1⟩ e),
    pieces.any fun (_, s) => s.left == s.right)

/-- The rings around the area of some rings, each given by its edges, and whether any piece is left
over. -/
def repairedRings (rings : List Area) : List Ring × Bool :=
  let groups := (groupsOf rings).map fun g => repairedGroup g.flatten
  (groups.flatMap (·.1), groups.any (·.2))

end WireErosion
