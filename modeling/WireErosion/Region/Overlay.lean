import WireErosion.Region.Box
import WireErosion.Region.Trace

/-!
# The union of areas

An area is given by the edges of its rings, in any direction, and holds the positions that an odd
number of rings goes around.

The union of areas is found by breaking up all edges where they meet.  Then the areas on the two
sides of a piece are the same all along it, and the piece belongs to the border of the union if
one side is in some area and the other one is in none.

What is on the sides of a piece is counted along a ray from its middle, which goes up, or to the
right if the piece is upright.  An edge through the middle has the whole piece on it, so it counts
for one side alone.
-/

namespace WireErosion

/-- Where an edge passes a ray upward from a position. -/
inductive Passing where
  /-- Above the start of the ray. -/
  | above
  /-- Through the start of the ray. -/
  | through
  /-- Below it, or beside it. -/
  | aside
deriving Repr, DecidableEq, Inhabited

/-- How an edge passes the ray from `p`, or rather one that is slightly to the right of it, so
that no end of an edge is on it. -/
def Edge.passing (p : Position) (e : Edge) : Passing :=
  if (e.a.x ≤ p.x) == (e.b.x ≤ p.x) then .aside
  else
    let side := if e.a.x ≤ p.x then Position.turn e.a e.b p else Position.turn e.b e.a p
    if side < 0 then .above else if side == 0 then .through else .aside

/-- Whether an odd number of edges is above a position, and whether an odd number is through it. -/
def passingParity (p : Position) (es : Area) : Bool × Bool :=
  es.foldl (fun (above, through) e =>
    match e.passing p with
    | .above => (!above, through)
    | .through => (above, !through)
    | .aside => (above, through)) (false, false)

/-- What is on the left and on the right of a piece. -/
structure Sides (β : Type) where
  /-- On the left. -/
  left : β
  /-- On the right. -/
  right : β
deriving Repr, DecidableEq, Inhabited

/-- Whether an edge is upright. -/
def Edge.isUpright (e : Edge) : Bool := e.a.x == e.b.x

/-- Whether an area is on the left and on the right of a piece that goes from the lesser to the
greater of its ends. -/
def areaSides (piece : Edge) (area : Area) : Sides Bool :=
  if piece.isUpright then
    let (above, through) := passingParity piece.swap.middle (area.map Edge.swap)
    ⟨above ^^ through, above⟩
  else
    let (above, through) := passingParity piece.middle area
    ⟨above, above ^^ through⟩

/-- Whether some area is on the left and on the right of a piece. -/
def unionSides (areas : List Area) (piece : Edge) : Sides Bool :=
  let sides := areas.map (areaSides piece)
  ⟨sides.any (·.left), sides.any (·.right)⟩

/-- The piece with the inside on its left, if it is a part of the border. -/
def borderEdge? (sides : Sides Bool) (piece : Edge) : Option Edge :=
  match sides with
  | ⟨true, false⟩ => some piece
  | ⟨false, true⟩ => some piece.flip
  | _ => none

/-- The rings around the union of areas that are one group. -/
def groupRings (areas : List Area) : List Ring :=
  ringsOf ((Edge.brokenUp areas.flatten).filterMap fun e => borderEdge? (unionSides areas e) e)

/-- The rings around the union of areas. -/
def unionRings (areas : List Area) : List Ring := (groupsOf areas).flatMap groupRings

end WireErosion
