import WireErosion.Wear.Block
import WireErosion.Wear.Subdivide

/-!
# The wear along a cut

The wire loses length in proportion to the distance it travels while it cuts, so the commanded
depth has to go down by that much to hold the true depth.

A state runs along the moves of a block.  It holds the position in the plane as far as it is known,
the depth that is commanded now, and the depth that the block itself asked for last.  A move adds
to the commanded depth the change in the depth asked for, and takes from it the distance times the
wear ratio.  The distance counts only once both axes are known before and after the move.

Each move gets the commanded depth after it.  A block starts at the depth of one pass.
-/

namespace WireErosion

variable {α : Type} [Scalar α]

/-- What is known while the moves of a block are followed. -/
structure WearState (α : Type) where
  /-- The position in the plane. -/
  position : Modal α
  /-- The commanded depth. -/
  depth : α
  /-- The depth that the block asked for last. -/
  asked : α
deriving Repr, Inhabited

/-- The distance of a move between two positions, zero if it names no position or if one of the two
positions is not known. -/
def travelled (m : Move α) (a b : Modal α) : α :=
  match m.hasXY, a, b with
  | true, (some x₁, some y₁), (some x₂, some y₂) => Scalar.distance x₁ y₁ x₂ y₂
  | _, _, _ => Scalar.zero

/-- The state after a move, and the move at the worn depth. -/
def WearState.step (ratio : α) (s : WearState α) (m : Move α) : WearState α × Move α :=
  let change := m.z.getD s.asked - s.asked
  let position := s.position.after m
  let depth := s.depth + (-(travelled m s.position position * ratio) + change)
  (⟨position, depth, s.asked + change⟩, { m with z := some depth })

/-- The state after some lines, and the lines at the worn depths. -/
def wearFrom (ratio : α) (s : WearState α) : List (Line α) → WearState α × List (Line α)
  | [] => (s, [])
  | .comment t :: ls =>
    let (s, ls) := wearFrom ratio s ls
    (s, .comment t :: ls)
  | .move m :: ls =>
    let (s, m) := s.step ratio m
    let (s, ls) := wearFrom ratio s ls
    (s, .move m :: ls)

/-- A block at the worn depths, together with the depth it ends at. -/
def applyWear (ratio passDepth : α) (ls : List (Line α)) : CutBlock α :=
  let (s, ls) := wearFrom ratio ⟨(none, none), -passDepth, -passDepth⟩ ls
  ⟨ls, some s.depth⟩

end WireErosion
