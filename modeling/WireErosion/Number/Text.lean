import WireErosion.Number.Double

/-!
# The text of a double

Three ways to write a double, each exact.

* `fixed`: a given count of decimal places, ties to even.
* `general`: at most a given count of significant digits, without zeros at the end.
* `shortest`: the fewest digits, up to seventeen, that read back as the same double, and of
  those the ones nearest to it.  Should no seventeen digits do, all digits are written.

What is not a number is `nan`, an infinity is `inf` with its sign.
-/

namespace WireErosion.Double

open WireErosion.Decimal

/-- The text of a sign. -/
def signText (negative : Bool) : String := if negative then "-" else ""

/-- The text of an infinity. -/
def infinityText (negative : Bool) : String := signText negative ++ "inf"

/-! ## Fixed places -/

/-- A double with `places` digits after the point. -/
def fixed (places : Nat) (x : Float) : String :=
  match DoubleValue.of x with
  | .notANumber => "nan"
  | .infinite s => infinityText s
  | .finite s m q =>
    signText s ++
      fixedText (onGrid (DoubleValue.numerator m q) (DoubleValue.denominator q) places) places

/-- A whole double as an integer.  A zero has no sign. -/
def wholeText (x : Float) : String :=
  match DoubleValue.of x with
  | .notANumber => "nan"
  | .infinite s => infinityText s
  | .finite s m q =>
    let n := DoubleValue.numerator m q / DoubleValue.denominator q
    signText (s && n != 0) ++ String.ofList (digits n)

/-! ## Significant digits -/

/-- A double with at most `count` significant digits, `0 < count`. -/
def general (count : Nat) (x : Float) : String :=
  match DoubleValue.of x with
  | .notANumber => "nan"
  | .infinite s => infinityText s
  | .finite s m q =>
    if m = 0 then signText s ++ "0"
    else signText s ++ generalText count (DoubleValue.numerator m q) (DoubleValue.denominator q)

/-! ## Shortest digits -/

/-- The positive double nearest to the number that `s` stands for, its mantissa having `count`
digits. -/
def ofSignificant (count : Nat) (s : Significant) : Float :=
  ofGrid s.mantissa ((count : Int) - 1 - s.exponent)

/-- The two places next to a positive quotient among the numbers with `count` digits, the
lower one first. -/
def neighbours (count num den : Nat) : Significant × Significant :=
  let e := leadingExponent num den
  let places : Int := (count : Int) - 1 - e
  let n := (num * Nat.pow 10 places.toNat) / (den * Nat.pow 10 (-places).toNat)
  let above : Significant :=
    if n + 1 < Nat.pow 10 count then ⟨n + 1, e⟩ else ⟨Nat.pow 10 (count - 1), e + 1⟩
  (⟨n, e⟩, above)

/-- The number with `count` digits that reads back as `x`, a positive double of value
`num / den`, and is nearest to it. -/
def readingBack? (x : Float) (num den count : Nat) : Option Significant :=
  let (below, above) := neighbours count num den
  let back (s : Significant) : Bool := ofSignificant count s == x
  match back below, back above with
  | true, true => some (if significant count num den = above then above else below)
  | true, false => some below
  | false, true => some above
  | false, false => none

/-- All digits of a positive quotient of a number by a power of two. -/
def allDigits (num den : Nat) : Significant :=
  let e := leadingExponent num den
  let count := (digits (num * Nat.pow 10 (digits den).length * den)).length
  ⟨onGrid num den ((count : Int) - 1 - e), e⟩

/-- The fewest digits that read back as a positive double of value `num / den`. -/
def fewestDigits (x : Float) (num den : Nat) : Significant :=
  match (List.range 17).findSome? fun k => readingBack? x num den (k + 1) with
  | some s => s
  | none => allDigits num den

/-- Whether a text of digits has no point in it. -/
def pointless (text : String) : Bool := !text.toList.contains '.'

/-- A finite double with the fewest digits that read back.  It is positional when its first
digit stands at most four places after the point and its whole part has at most sixteen digits,
and a positional number always has a digit after the point. -/
def shortest (x : Float) : String :=
  match DoubleValue.of x with
  | .notANumber => "nan"
  | .infinite s => infinityText s
  | .finite s m q =>
    if m = 0 then signText s ++ "0.0"
    else
      let d := fewestDigits x.abs (DoubleValue.numerator m q) (DoubleValue.denominator q)
      let ds := dropZeros (digits d.mantissa)
      if d.exponent < -4 ∨ 16 ≤ d.exponent then signText s ++ scientificText ds d.exponent
      else
        let text := positionalText ds d.exponent
        signText s ++ (if pointless text then text ++ ".0" else text)

end WireErosion.Double
