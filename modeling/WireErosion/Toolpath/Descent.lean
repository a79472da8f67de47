import WireErosion.Path.Basic
import WireErosion.Program.Line

/-!
# Descents

Before a run is cut the tool goes down to its depth, at the first vertex of the run.  It either goes
straight down, or it ramps: it goes out along the run and back the same way, and loses depth in
proportion to the distance.

The way of a ramp is long enough for the descent to take the time that the plunge feed asks for,
at the cutting feed, unless the whole run is shorter.  In that case the feed is lowered so that
the descent is no faster.  A run without length has no ramp, and the tool goes straight down.

Lines are planned with exact numbers, and rounded later.  Where a line has no number for a field
because of a division by zero, the plan has the fault in its place.
-/

namespace WireErosion

/-- A line that is planned, or why there is none. -/
abbrev Planned (α : Type) := Except Fault (Line α)

/-- The feeds of a descent and what it is made of. -/
structure DescentParams (α : Type) where
  /-- Whether the tool ramps. -/
  ramp : Bool
  /-- The feed straight down. -/
  plungeFeed : α
  /-- The feed along a run. -/
  cutFeed : α
  /-- The speed of the tool. -/
  toolSpeed : Option α
deriving Repr, Inhabited

variable {α : Type} [Scalar α]

/-- A planned move. -/
def planMove (m : Move α) : Planned α := .ok (.move m)

/-! ## The way of a ramp -/

/-- The vertices after `a` that the way out of a ramp goes through, and the length of the way out
and back, where `total` is the length so far and `ideal` the length that is enough. -/
def rampWay (ideal total : α) (a : Point α) : List (Point α) → List (Point α) × α
  | [] => ([], total)
  | b :: rest =>
    if total ≤ ideal then
      let (way, total) :=
        rampWay ideal (total + Scalar.two * Scalar.distance a.x a.y b.x b.y) b rest
      (b :: way, total)
    else ([], total)

/-- The vertices after the first one on the way out and back, where `a :: way` is the way out. -/
def outAndBack (a : Point α) (way : List (Point α)) : List (Point α) :=
  way ++ (a :: way.dropLast).reverse

/-! ## Moves -/

/-- The moves of a ramp after the first one.  `travelled` is the length of the way to `a`. -/
def rampMoves (fromZ toZ total travelled : α) (a : Point α) : List (Point α) → List (Planned α)
  | [] => []
  | b :: rest =>
    let travelled := travelled + Scalar.distance a.x a.y b.x b.y
    let z := fromZ + travelled / total * (toZ - fromZ)
    planMove (.linear (some b.x) (some b.y) (some z) none none)
      :: rampMoves fromZ toZ total travelled b rest

/-- The moves of a ramp along some vertices after `a`, the first one at the feed of the ramp. -/
def rampFrom (d : DescentParams α) (fromZ toZ total time : α) (a : Point α) :
    List (Point α) → List (Planned α)
  | [] => []
  | b :: rest =>
    let travelled := Scalar.zero + Scalar.distance a.x a.y b.x b.y
    let z := fromZ + travelled / total * (toZ - fromZ)
    let first := (Scalar.quotient total time).map fun most =>
      let feed := Scalar.min most d.cutFeed
      Line.move (.linear (some b.x) (some b.y) (some z) (some feed) d.toolSpeed)
    first :: rampMoves fromZ toZ total travelled b rest

/-- The way straight down. -/
def straightDown (d : DescentParams α) (toZ : α) : List (Planned α) :=
  [.ok .plunge, planMove (.linear none none (some toZ) (some d.plungeFeed) d.toolSpeed)]

/-- A ramp at the start of the run `a :: rest`, `none` if the run has no length. -/
def ramp? (d : DescentParams α) (a : Point α) (rest : List (Point α)) (fromZ toZ : α) :
    Option (List (Planned α)) :=
  match Scalar.quotient (fromZ - toZ) d.plungeFeed with
  | .error f => some [.error f]
  | .ok time =>
    let (way, total) := rampWay (d.cutFeed * time) Scalar.zero a rest
    if total ≤ Scalar.zero then none
    else some (.ok .ramp :: rampFrom d fromZ toZ total time a (outAndBack a way))

/-- The descent at the start of the run `a :: rest`. -/
def descent (d : DescentParams α) (a : Point α) (rest : List (Point α)) (fromZ toZ : α) :
    List (Planned α) :=
  if d.ramp then (ramp? d a rest fromZ toZ).getD (straightDown d toZ) else straightDown d toZ

end WireErosion
