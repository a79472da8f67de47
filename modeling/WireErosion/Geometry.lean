import WireErosion.Fault
import WireErosion.Path.Split

/-!
# The geometry of the plane

Tabs are polygons of the plane.  What is to be done with them is left to a library: making them,
uniting them to a region, growing the region, and answering what the splitting of paths asks about
it.  `Geometry` is such a library.  It may fail at each of these.

Nothing else is known of polygons and regions.
-/

namespace WireErosion

/-- A library for the geometry of the plane. -/
class Geometry where
  /-- The polygons. -/
  Polygon : Type
  /-- The regions of the plane. -/
  Region : Type
  /-- The polygon inside a ring of vertices. -/
  polygon : List (Float × Float) → Except GeometryFault Polygon
  /-- The region of some polygons, if there is anything in it. -/
  region : List Polygon → Except GeometryFault (Option Region)
  /-- A region grown by a distance. -/
  grow : Float → Region → Except GeometryFault Region
  /-- What a region answers while some paths are split at it, if there is anything in it. -/
  answers : Region → List (CamPath Float) → Except GeometryFault (Option (TabRegion Float))

end WireErosion
