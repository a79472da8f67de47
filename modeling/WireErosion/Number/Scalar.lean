import WireErosion.Fault
import WireErosion.Number.Double

/-!
# Scalars

The numbers that coordinates, depths and feeds are made of.  Paths, programs, the compiler and
the wear pass are written over any type with the operations of `Scalar`, each used in one fixed
order, so that the same definitions run on doubles and can be reasoned about over an ordered
field.

The operations that may have no result return a fault.

* `quotient` has none for a zero divisor.  The plain `/` always has one.
* `floor` has none for an infinity and for what is not a number.
* `roundTo` has none if the rounded number is beyond every double.

Comparisons are those of the type.  On doubles each one is false when a side is not a number,
and `Scalar.max` and `Scalar.min` keep their first argument then.
-/

namespace WireErosion

/-- The operations on coordinates, depths and feeds. -/
class Scalar (α : Type) extends Add α, Sub α, Mul α, Div α, Neg α, LT α, LE α, BEq α,
    NatCast α, OfScientific α where
  /-- Less-than is decided. -/
  decLT : DecidableLT α
  /-- Less-or-equal is decided. -/
  decLE : DecidableLE α
  /-- The square root. -/
  sqrt : α → α
  /-- The length of the diagonal of a rectangle with the given sides. -/
  hypot : α → α → α
  /-- The floor. -/
  floor : α → Except Fault Int
  /-- Rounding to a count of decimal places, ties to even. -/
  roundTo : Int → α → Except Fault α
  /-- The nearest whole number, ties to even. -/
  nearestWhole : α → α

namespace Scalar

variable {α : Type} [Scalar α]

instance : DecidableLT α := Scalar.decLT
instance : DecidableLE α := Scalar.decLE

/-- Zero. -/
def zero : α := ((0 : Nat) : α)

/-- One. -/
def one : α := ((1 : Nat) : α)

/-- Two. -/
def two : α := ((2 : Nat) : α)

/-- A quotient with a divisor that is not zero. -/
def quotient (a b : α) : Except Fault α :=
  if b == zero then .error .divisionByZero else .ok (a / b)

/-- The larger of two numbers, the first one unless the second is larger. -/
def max (a b : α) : α := if a < b then b else a

/-- The smaller of two numbers, the first one unless the second is smaller. -/
def min (a b : α) : α := if b < a then b else a

/-- The distance of two positions. -/
def distance (x₁ y₁ x₂ y₂ : α) : α := hypot (x₂ - x₁) (y₂ - y₁)

end Scalar

/-! ## Doubles -/

/-- The floor of a double. -/
def Double.floor (x : Float) : Except Fault Int :=
  match DoubleValue.of x with
  | .notANumber => .error .floorOfNaN
  | .infinite _ => .error .floorOfInfinity
  | .finite s m q => .ok (Double.floorOf s m q)

/-- Doubles are scalars. -/
instance : Scalar Float where
  natCast := Float.ofNat
  decLT := fun a b => inferInstanceAs (Decidable (a < b))
  decLE := fun a b => inferInstanceAs (Decidable (a ≤ b))
  sqrt := Float.sqrt
  hypot := Double.hypot
  floor := Double.floor
  roundTo := fun places x =>
    match Double.roundTo places x with
    | some y => .ok y
    | none => .error .roundedTooLarge
  nearestWhole := Double.nearestWhole

end WireErosion
