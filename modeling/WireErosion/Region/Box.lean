import WireErosion.Region.Edge

/-!
# Boxes and groups

The box around some positions is the least rectangle along the axes that holds them.

Areas whose boxes do not meet have nothing to do with each other.  So areas are sorted into
groups, such that no box of one group meets a box of another one, and each group is dealt with by
itself.
-/

namespace WireErosion

/-! ## Boxes -/

/-- A rectangle along the axes. -/
structure Box where
  /-- The corner with the least coordinates. -/
  low : Position
  /-- The corner with the greatest coordinates. -/
  high : Position
deriving Repr, DecidableEq, Inhabited

namespace Box

/-- The lesser of two numbers. -/
def lesser (v w : Rat) : Rat := if v ≤ w then v else w

/-- The greater of two numbers. -/
def greater (v w : Rat) : Rat := if v ≤ w then w else v

/-- The least box that holds a box and one more position. -/
def extend (b : Box) (p : Position) : Box where
  low := ⟨lesser b.low.x p.x, lesser b.low.y p.y⟩
  high := ⟨greater b.high.x p.x, greater b.high.y p.y⟩

/-- The box around some positions, if there are any. -/
def around? : List Position → Option Box
  | [] => none
  | p :: ps => some (ps.foldl extend ⟨p, p⟩)

/-- Whether two boxes have a position in common. -/
def meets (b c : Box) : Bool :=
  b.low.x ≤ c.high.x && c.low.x ≤ b.high.x && b.low.y ≤ c.high.y && c.low.y ≤ b.high.y

end Box

/-! ## Groups -/

/-- The edges of the rings of an area, in any direction. -/
abbrev Area := List Edge

/-- The box around an area, if the area has an edge. -/
def Area.box? (area : Area) : Option Box := Box.around? (area.flatMap fun e => [e.a, e.b])

/-- An area with its box. -/
abbrev BoxedArea := Box × Area

/-- Groups with one more area, which joins all groups that it meets. -/
def joinGroups (a : BoxedArea) (groups : List (List BoxedArea)) : List (List BoxedArea) :=
  let (near, apart) := groups.partition fun g => g.any fun b => a.1.meets b.1
  (a :: near.flatten) :: apart

/-- The areas that have an edge, with their boxes. -/
def boxed (areas : List Area) : List BoxedArea :=
  areas.filterMap fun a => a.box?.map fun b => (b, a)

/-- Areas in groups that are apart from each other. -/
def groupsOf (areas : List Area) : List (List Area) :=
  ((boxed areas).foldr joinGroups []).map fun g => g.map (·.2)

end WireErosion
