import WireErosion.Number.Scalar
import WireErosion.Region.Basic

/-!
# Growing a region

A region grown by a distance is the union of

* the region,
* for every edge of its border the rectangle on its outer side that is as wide as the distance,
* for every corner that points outward the fan between the rectangles on its two sides.

A fan is a part of a polygon around a circle.  Its rounded side has as many equal steps as fit
best, a quarter of a circle having sixteen.

The corners that neighbouring shapes share are computed once, so they are the same and the shapes
leave no gaps.
-/

namespace WireErosion

/-- A position by its coordinates as doubles. -/
abbrev Spot := Float × Float

namespace Region

/-- The edge that lies at a distance on the right of the edge from `p` to `q`. -/
def offset (distance : Float) (p q : Spot) : Spot × Spot :=
  let dx := q.1 - p.1
  let dy := q.2 - p.2
  let length := Float.sqrt (dx * dx + dy * dy)
  let ux := distance * dx / length
  let uy := distance * dy / length
  ((p.1 + uy, p.2 - ux), (q.1 + uy, q.2 - ux))

/-- Half a turn. -/
def halfTurn : Float := 3.14159265358979323846

/-- The angle of one step of a fan, a sixteenth of a quarter turn. -/
def fanStep : Float := halfTurn / 2 / 16

/-- The positions between `p` and `q` on a fan around `v`, counterclockwise. -/
def fan (distance : Float) (v p q : Spot) : List Spot :=
  let stop := Float.atan2 (q.2 - v.2) (q.1 - v.1)
  let angle := Float.atan2 (p.2 - v.2) (p.1 - v.1)
  let start := if stop ≤ angle then angle - 2 * halfTurn else angle
  let total := (start - stop).abs
  match Double.floor (total / fanStep + 0.5) with
  | .error _ => []
  | .ok steps =>
    (List.range (steps.toNat - 1)).map fun i =>
      let a := start + Float.ofNat (i + 1) * (total / Float.ofInt steps)
      (v.1 + distance * Float.cos a, v.2 + distance * Float.sin a)

/-- A ring of positions given as doubles. -/
def ringOf (vs : List Spot) : Ring := vs.filterMap fun (x, y) => Position.ofDoubles? x y

/-- The rectangle on the right of the edge from `p` to `q`, and the fan at `q` if the ring, which
goes on to `r`, turns left there. -/
def grownCorner (distance : Float) (p q r : Position) : List Ring :=
  let (a, b, c) := (p.toDoubles, q.toDoubles, r.toDoubles)
  let (a', b') := offset distance a b
  let rectangle := ringOf [a, b, b', a']
  if 0 < Position.turn p q r then
    let next := (offset distance b c).1
    [rectangle, ringOf (b :: b' :: fan distance b b' next ++ [next])]
  else [rectangle]

/-- The rectangles and fans around a ring. -/
def grownRing (distance : Float) (r : Ring) : List Ring :=
  let es := Ring.edges r
  (es.zip (es.drop 1 ++ es.take 1)).flatMap fun (e, f) => grownCorner distance e.a e.b f.b

/-- The areas that a region is made up of, which are apart from each other. -/
def areas (r : Region) : List Area := (groupsOf (r.rings.map Ring.edges)).map List.flatten

/-- A region grown by a distance. -/
def grow (distance : Float) (r : Region) : Region :=
  .union (r.areas ++ (r.rings.flatMap (grownRing distance)).map Ring.edges)

end Region

end WireErosion
