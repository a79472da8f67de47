import WireErosion.Number.Decimal

/-!
# What a double stands for

A double is not a number, an infinity, or `±m · 2 ^ q` for a natural number `m` and an integer
`q`.  `DoubleValue.of` reads that off, and everything exact that the library says about a double
is said about its value: the text of a number, its rounding to decimal places, its floor and
the root of a sum of squares.

* `roundTo` goes through the nearest place of the decimal grid and then to the double nearest
  to that place.  A finite double never becomes an infinite one without a fault.
* `floorOf` is the floor of a finite double as an integer.
* `nearestWhole` is the nearest whole double, the even one of two.
* `hypot` is the double nearest to the root of the sum of squares, and never overflows on the
  way there.
-/

namespace WireErosion

/-- What a double stands for. -/
inductive DoubleValue where
  /-- Not a number. -/
  | notANumber
  /-- An infinity with its sign. -/
  | infinite (negative : Bool)
  /-- The number `±mantissa · 2 ^ exponent`.  A zero has mantissa zero. -/
  | finite (negative : Bool) (mantissa : Nat) (exponent : Int)
deriving Repr, DecidableEq, Inhabited

namespace DoubleValue

/-- Whether a sign is the negative one. -/
def isNegative : Float.Model.UnpackedFloat.Sign → Bool
  | .negative => true
  | .positive => false

/-- The value of a double. -/
def of (x : Float) : DoubleValue :=
  match x.toModel.unpack with
  | .notANumber => .notANumber
  | .infinity s => .infinite (isNegative s)
  | .zero s => .finite (isNegative s) 0 0
  | .finite s m e _ => .finite (isNegative s) m e

/-- The numerator of `m · 2 ^ q`. -/
def numerator (m : Nat) (q : Int) : Nat := m * Nat.pow 2 q.toNat

/-- The denominator of `m · 2 ^ q`. -/
def denominator (q : Int) : Nat := Nat.pow 2 (-q).toNat

end DoubleValue

namespace Double

/-- A double with its sign turned if asked. -/
def withSign (negative : Bool) (x : Float) : Float := if negative then -x else x

/-- The double nearest to `n · 10 ^ -places`. -/
def ofGrid (n : Nat) (places : Int) : Float :=
  Float.ofScientific n (decide (0 ≤ places)) places.natAbs

/-- The largest count of decimal places at which a double can differ from its rounding: every
double is a multiple of `10 ^ -1074`. -/
def mostPlaces : Int := 1074

/-- A power of ten above twice every finite double. -/
def fewestPlaces : Int := -310

/-- A double rounded to `places` decimal places, ties to even, `none` if the result is beyond
every double.  An infinity and what is not a number round to themselves. -/
def roundTo (places : Int) (x : Float) : Option Float :=
  match DoubleValue.of x with
  | .finite negative m q =>
    if mostPlaces ≤ places then some x
    else if places < fewestPlaces then some (withSign negative 0)
    else
      let n := Decimal.onGrid (DoubleValue.numerator m q) (DoubleValue.denominator q) places
      let y := ofGrid n places
      if y.isInf then none else some (withSign negative y)
  | _ => some x

/-- The floor of `±m · 2 ^ q`. -/
def floorOf (negative : Bool) (m : Nat) (q : Int) : Int :=
  let n : Int := DoubleValue.numerator m q
  Int.fdiv (if negative then -n else n) (DoubleValue.denominator q)

/-- The nearest whole double, the even one of two that are equally near. -/
def nearestWhole (x : Float) : Float :=
  match DoubleValue.of x with
  | .finite negative m q =>
    let n := Decimal.roundHalfEven (DoubleValue.numerator m q) (DoubleValue.denominator q)
    withSign negative (Float.ofNat n)
  | _ => x

/-- Whether a double is a whole number. -/
def isWhole (x : Float) : Bool :=
  match DoubleValue.of x with
  | .finite _ m q => DoubleValue.numerator m q % DoubleValue.denominator q == 0
  | _ => false

/-- The double nearest to the root of `m · 2 ^ q`. -/
def rootOf (m : Nat) (q : Int) : Float :=
  if h : 0 < m then
    Float.ofModel (Float.Model.pack
      (Float.Model.UnpackedFloat.sqrt Float.Model.Format.binary64 (.finite .positive m q h)))
  else 0

/-- The double nearest to the root of `x ^ 2 + y ^ 2`.  An infinite side makes it infinite
whatever the other one is. -/
def hypot (x y : Float) : Float :=
  match DoubleValue.of x, DoubleValue.of y with
  | .infinite _, _ => x.abs
  | _, .infinite _ => y.abs
  | .finite _ m₁ q₁, .finite _ m₂ q₂ =>
    if m₁ = 0 then y.abs
    else if m₂ = 0 then x.abs
    else
      let q := if q₁ ≤ q₂ then q₁ else q₂
      let a := m₁ * Nat.pow 2 (q₁ - q).toNat
      let b := m₂ * Nat.pow 2 (q₂ - q).toNat
      rootOf (a * a + b * b) (2 * q)
  | _, _ => x + y

end Double

end WireErosion
