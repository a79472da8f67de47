import WireErosion.Path.Split
import WireErosion.Region.Basic

/-!
# Regions and paths

What the splitting of paths asks about a region.  Where a segment meets a border and whether a
position is inside are answered exactly, and lengths in doubles.  A position that is not finite is
in no region, and a segment with such an end meets no border.
-/

namespace WireErosion

namespace Region

/-- Whether a position is in a region or on its border. -/
def covers (border : List Edge) (p : Position) : Bool :=
  border.any (·.holds p) || (passingParity p border).1

/-- Where a segment meets a border. -/
def crossings (border : List Edge) (segment : Edge) : List (Float × Float) :=
  (border.flatMap segment.meet).map Position.toDoubles

/-- The length of a segment in the plane. -/
def segmentLength (a b : Point Float) : Float :=
  let dx := b.x - a.x
  let dy := b.y - a.y
  Float.sqrt (dx * dx + dy * dy)

/-- The part of the way from `a` to `b` that is nearest to a position, before it is cut to the
segment. -/
def projection (a b : Point Float) (x y : Float) : Float :=
  if x == a.x && y == a.y then 0
  else if x == b.x && y == b.y then 1
  else
    let dx := b.x - a.x
    let dy := b.y - a.y
    ((x - a.x) * dx + (y - a.y) * dy) / (dx * dx + dy * dy)

/-- How far along a segment it comes nearest to a position. -/
def project (a b : Point Float) (hit : Float × Float) : Float :=
  let t := projection a b hit.1 hit.2
  if t ≤ 0 then 0
  else if t ≤ 1 then t * segmentLength a b
  else segmentLength a b

/-- A region by what the splitting of paths asks about it, `none` if it is empty. -/
def toTabRegion? (r : Region) : Option (TabRegion Float) :=
  if r.isEmpty then none
  else
    let border := r.border
    some {
      covers := fun x y => ((Position.ofDoubles? x y).map (covers border)).getD false
      crossings := fun a b =>
        match Position.ofDoubles? a.x a.y, Position.ofDoubles? b.x b.y with
        | some p, some q => crossings border ⟨p, q⟩
        | _, _ => []
      length := segmentLength
      project }

end Region

end WireErosion
