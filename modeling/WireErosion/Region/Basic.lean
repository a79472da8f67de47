import WireErosion.Fault
import WireErosion.Region.Repair

/-!
# Regions

A region is given by the rings of its border, with the region on the left of each.  A
counterclockwise ring goes around a part of the region and a clockwise one goes around a hole.

Tabs come as a `TabShape`, and `TabShape.region` is the region that they stand for.

* Several polygons in a list are united.
* A polygon alone, in a list or not, and a set of polygons that belong together have the area of
  their rings, as `repairedRings` gives it to them.
* A collection is the union of its polygons, each with the area of its rings.  A polygon of which
  a piece is left over does not count in a collection.  The lines of a collection do not count at
  all.
-/

namespace WireErosion

/-! ## Shapes -/

/-- A polygon with its outer ring and its holes. -/
structure Polygon where
  /-- The outer ring. -/
  shell : Ring
  /-- The rings of the holes. -/
  holes : List Ring
deriving Repr, DecidableEq, Inhabited

/-- The shape of tabs. -/
inductive TabShape where
  /-- Some polygons. -/
  | list (polygons : List Polygon)
  /-- One polygon. -/
  | polygon (p : Polygon)
  /-- Polygons that belong together. -/
  | multi (polygons : List Polygon)
  /-- Polygons and lines, of which the polygons are given. -/
  | collection (polygons : List Polygon)
deriving Repr, DecidableEq, Inhabited

/-- The ring of some vertices, which needs three of them unless it is empty.  It starts and ends at
the first one, so that has to be equal to itself.  Of the others those that are not finite are left
out. -/
def Ring.ofVertices (vertices : List (Float × Float)) : Except GeometryFault Ring :=
  match vertices with
  | [] => .ok []
  | [_] | [_, _] => .error (.badValue "A linearring requires at least 4 coordinates.")
  | (x, y) :: _ =>
    if x.isNaN || y.isNaN then
      .error (.failure
        "IllegalArgumentException: Points of LinearRing do not form a closed linestring")
    else .ok (vertices.filterMap fun (x, y) => Position.ofDoubles? x y)

/-- The rings of a polygon, each by its edges. -/
def Polygon.rings (p : Polygon) : List Area := Ring.edges p.shell :: p.holes.map Ring.edges

/-- The edges of a polygon. -/
def Polygon.area (p : Polygon) : Area := p.rings.flatten

/-! ## Regions -/

/-- A region of the plane. -/
structure Region where
  /-- The rings of its border, with the region on the left. -/
  rings : List Ring
  /-- Whether it counts as a set of parts even if there is one. -/
  asParts : Bool := false
deriving Repr, DecidableEq, Inhabited

namespace Region

/-- Whether a ring goes around a part. -/
def isShell (r : Ring) : Bool := 0 < Ring.doubleArea r

/-- A region with the rings moved to doubles. -/
def ofRings (rings : List Ring) : Region := ⟨rings.map fun r => r.map Position.rounded, false⟩

/-- The union of areas. -/
def union (areas : List Area) : Region := ofRings (unionRings areas)

/-- The edges of the border. -/
def border (r : Region) : List Edge := r.rings.flatMap Ring.edges

/-- Whether there is nothing in a region. -/
def isEmpty (r : Region) : Bool := r.rings.isEmpty

/-- How many parts a region has. -/
def parts (r : Region) : Nat := (r.rings.filter isShell).length

/-- How many holes a region has. -/
def holes (r : Region) : Nat := (r.rings.filter fun ring => !isShell ring).length

/-- Whether a region is a set of parts. -/
def isMulti (r : Region) : Bool := r.asParts || 1 < r.parts

/-- The area of a region. -/
def area (r : Region) : Float :=
  Double.ofRat (r.rings.foldl (fun s ring => s + Ring.doubleArea ring) 0 / 2)

/-- The length of an edge. -/
def edgeLength (e : Edge) : Float :=
  let (ax, ay) := e.a.toDoubles
  let (bx, by') := e.b.toDoubles
  Double.hypot (bx - ax) (by' - ay)

/-- The length of the border. -/
def perimeter (r : Region) : Float := r.border.foldl (fun s e => s + edgeLength e) 0

/-- The least coordinates and then the greatest ones, if there is anything in a region. -/
def bounds (r : Region) : List Float :=
  match Box.around? r.rings.flatten with
  | some b => [b.low.x, b.low.y, b.high.x, b.high.y].map Double.ofRat
  | none => []

end Region

/-! ## The region of a shape -/

/-- The region of the rings of some polygons, and whether a piece is left over. -/
def repaired (ps : List Polygon) : Region × Bool :=
  let (rings, rest) := repairedRings (ps.flatMap Polygon.rings)
  (.ofRings rings, rest)

/-- Whether rings that came out as a region are those of a polygon with one shell and this many
holes. -/
def Region.isPolygon (r : Region) (holes : Nat) : Bool := r.parts == 1 && r.holes == holes

/-- The polygons that have an edge. -/
def present (ps : List Polygon) : List Polygon := ps.filter fun p => !p.area.isEmpty

/-- The region of polygons that belong together.  A single one that needed no repair stays a set of
parts. -/
def multiRegion (ps : List Polygon) : Region :=
  let (r, rest) := repaired ps
  match present ps with
  | [p] => { r with asParts := !rest && r.isPolygon (p.holes.filter (!·.isEmpty)).length }
  | _ => r

/-- The region of a shape. -/
def TabShape.region : TabShape → Region
  | .polygon p => (repaired [p]).1
  | .multi ps => multiRegion ps
  | .list ps =>
    match present ps with
    | [p] => (repaired [p]).1
    | ps => .union (ps.map Polygon.area)
  | .collection ps =>
    .union (ps.filterMap fun p =>
      let (r, rest) := repaired [p]
      if rest then none else some r.border)

end WireErosion
