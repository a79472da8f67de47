import WireErosion.Number.Double

/-!
# Doubles as rationals

A finite double is a rational number, and of every rational number there is a nearest double.  The
geometry of regions decides all questions in rational arithmetic, and only its results go back to
doubles.
-/

namespace WireErosion.Double

/-- The rational number that a finite double is. -/
def toRat? (x : Float) : Option Rat :=
  match DoubleValue.of x with
  | .finite negative m q =>
    let n : Int := DoubleValue.numerator m q
    some (mkRat (if negative then -n else n) (DoubleValue.denominator q))
  | _ => none

/-- The double nearest to a rational number. -/
def ofRat (r : Rat) : Float :=
  if h : 0 < r.num.natAbs then
    withSign (r.num < 0) (Float.ofModel (Float.Model.pack
      (Float.Model.UnpackedFloat.div Float.Model.Format.binary64
        (.finite .positive r.num.natAbs 0 h)
        (.finite .positive r.den 0 (Nat.pos_of_ne_zero r.den_nz)))))
  else 0

end WireErosion.Double
