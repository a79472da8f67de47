import WireErosion.Geometry
import WireErosion.Region.Buffer
import WireErosion.Region.Locate

/-!
# A library of regions

Regions as they are computed here, for the library that tabs are left to.  The region of some tabs
counts as a set of parts.
-/

namespace WireErosion

instance Region.library : Geometry where
  Polygon := Polygon
  Region := Region
  polygon vertices := (Ring.ofVertices vertices).map fun shell => ⟨shell, []⟩
  region polygons :=
    let r := (TabShape.list polygons).region
    .ok (if r.isEmpty then none else some { r with asParts := true })
  grow distance r := .ok (r.grow distance)
  answers r _ := .ok r.toTabRegion?

end WireErosion
