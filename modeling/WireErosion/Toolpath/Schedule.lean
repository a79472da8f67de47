import WireErosion.Number.Scalar

/-!
# The schedule of passes

A path is cut in passes from the top down to the final depth.  Each pass goes one pass depth below
the one before, and the last one ends at the final depth.

The number of passes is bounded by twice the number of multiples of the pass depth between the two
depths, and some more.  In exact arithmetic half of that would do.  On doubles a step that is not
lost in rounding loses less than half of its length.
-/

namespace WireErosion

variable {α : Type} [Scalar α]

/-- One pass of a path. -/
structure Pass (α : Type) where
  /-- The depth that is finished before the pass. -/
  finished : α
  /-- The depth that is finished after it. -/
  next : α
deriving Repr, DecidableEq, Inhabited

/-- The pass that starts at a finished depth. -/
def passFrom (passDepth bottom finished : α) : Pass α :=
  ⟨finished, Scalar.max (finished - passDepth) bottom⟩

/-- At most `fuel` passes from a finished depth on. -/
def passesFrom (passDepth bottom : α) : Nat → α → List (Pass α)
  | 0, _ => []
  | fuel + 1, finished =>
    if bottom < finished then
      let pass := passFrom passDepth bottom finished
      pass :: passesFrom passDepth bottom fuel pass.next
    else []

/-- The multiple of the pass depth below a depth, zero if there is none. -/
def passMultiple (passDepth z : α) : Int :=
  match Scalar.floor (z / passDepth) with
  | .ok n => n
  | .error _ => 0

/-- A bound of the number of passes between two depths. -/
def passBound (passDepth bottom top : α) : Nat :=
  (2 * (passMultiple passDepth top - passMultiple passDepth bottom) + 4).toNat

/-- The passes between two depths. -/
def schedule (passDepth bottom top : α) : List (Pass α) :=
  passesFrom passDepth bottom (passBound passDepth bottom top) top

end WireErosion
