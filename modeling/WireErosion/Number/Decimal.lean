/-!
# Numbers on a decimal grid

A positive number given as a quotient of natural numbers is put on a grid of powers of ten
and written with the digits of its place on the grid.

* `roundHalfEven` takes a quotient to the nearest natural number and a tie to the even one.
* `onGrid` is the place of a number on the grid of step `10 ^ -places`.
* `fixedText` writes a place of the grid with a point and that many digits after it.
* `leadingExponent` is the power of ten of the first digit, and `significant` the number
  with a given count of digits from there on.
* `generalText` writes `significant` digits without the zeros at their end, with a power of
  ten when the first digit stands far from the point.

Everything is exact arithmetic on natural numbers.  No function looks at more digits than the
result has.
-/

namespace WireErosion.Decimal

/-! ## Rounding -/

/-- The natural number nearest to `num / den`, the even one of two that are equally near. -/
def roundHalfEven (num den : Nat) : Nat :=
  let q := num / den
  let r := num % den
  if 2 * r < den then q
  else if den < 2 * r then q + 1
  else if q % 2 = 0 then q
  else q + 1

/-- The place of `num / den` on the grid of step `10 ^ -places`. -/
def onGrid (num den : Nat) (places : Int) : Nat :=
  roundHalfEven (num * Nat.pow 10 places.toNat) (den * Nat.pow 10 (-places).toNat)

example : roundHalfEven 5 2 = 2 ∧ roundHalfEven 7 2 = 4 ∧ roundHalfEven 9 4 = 2 := by decide
example : onGrid 2675 1000 2 = 268 ∧ onGrid 1250 1 (-2) = 12 := by decide

/-! ## Digits -/

/-- The decimal digits of a natural number, the first one not zero unless it is the only one. -/
def digits (n : Nat) : List Char := Nat.toDigits 10 n

/-- The digits of `n`, with zeros in front up to `width` of them. -/
def paddedDigits (width n : Nat) : List Char :=
  let ds := digits n
  List.replicate (width - ds.length) '0' ++ ds

/-- The place `n` of the grid of step `10 ^ -places` in positional digits. -/
def fixedText (n places : Nat) : String :=
  if places = 0 then String.ofList (digits n)
  else
    let ds := paddedDigits (places + 1) n
    let whole := ds.length - places
    String.ofList (ds.take whole ++ '.' :: ds.drop whole)

/-! ## Significant digits -/

/-- The exponent `e` with `10 ^ e ≤ num / den < 10 ^ (e + 1)`, for a positive quotient. -/
def leadingExponent (num den : Nat) : Int :=
  if den ≤ num then ((digits (num / den)).length : Int) - 1
  else
    let k := (digits (den / num)).length
    if den ≤ num * Nat.pow 10 (k - 1) then -((k : Int) - 1) else -(k : Int)

/-- A number `mantissa · 10 ^ (exponent + 1 - digits)`, where `exponent` is the power of ten of
the first digit of the mantissa. -/
structure Significant where
  /-- All digits as one natural number. -/
  mantissa : Nat
  /-- The power of ten of the first digit. -/
  exponent : Int
deriving Repr, DecidableEq, Inhabited

/-- A positive quotient with `count` significant digits, `0 < count`.  Rounding may carry into
a further digit, which moves the exponent. -/
def significant (count num den : Nat) : Significant :=
  let e := leadingExponent num den
  let n := onGrid num den ((count : Int) - 1 - e)
  if n < Nat.pow 10 count then ⟨n, e⟩ else ⟨Nat.pow 10 (count - 1), e + 1⟩

/-- A list without the zeros at its end. -/
def dropZeros (ds : List Char) : List Char := (ds.reverse.dropWhile (· == '0')).reverse

/-- A power of ten as a signed exponent of at least two digits. -/
def exponentText (e : Int) : String :=
  (if e < 0 then "e-" else "e+") ++ String.ofList (paddedDigits 2 e.natAbs)

/-- Digits around the point: the first digit of `ds` has the power of ten `e`, and the zeros
that are needed on either side are filled in.  No point is written when nothing follows it. -/
def positionalText (ds : List Char) (e : Int) : String :=
  if e < 0 then
    String.ofList ('0' :: '.' :: (List.replicate (-e - 1).toNat '0' ++ ds))
  else
    let whole := e.toNat + 1
    let front := ds.take whole ++ List.replicate (whole - ds.length) '0'
    match ds.drop whole with
    | [] => String.ofList front
    | rest => String.ofList (front ++ '.' :: rest)

/-- Digits with one of them before the point, and a power of ten. -/
def scientificText (ds : List Char) (e : Int) : String :=
  positionalText ds 0 ++ exponentText e

/-- A positive quotient with at most `count` significant digits and no zeros at the end.  The
form with a power of ten is taken when the first digit is more than four places after the
point or when the whole part has more than `count` digits. -/
def generalText (count num den : Nat) : String :=
  let s := significant count num den
  let ds := dropZeros (digits s.mantissa)
  if s.exponent < -4 ∨ (count : Int) ≤ s.exponent then scientificText ds s.exponent
  else positionalText ds s.exponent

example : significant 3 99951 100 = ⟨100, 3⟩ := by decide

end WireErosion.Decimal
