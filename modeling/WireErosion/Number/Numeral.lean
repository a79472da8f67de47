import WireErosion.Number.Double
import WireErosion.Text.Blank
import WireErosion.Text.Digit

/-!
# Reading numerals

The grammar of the numerals that stand in programs, on the command line and in the texts of a
path file, and the double or the integer each one stands for.

A numeral may have white space around it and a sign in front of it.  Then

* a double is one of the words `inf`, `infinity` and `nan` in any case, or digits with at most
  one point before, between or after them, and possibly a power of ten: `e` in either case, an
  optional sign, digits;
* an integer is digits.

Digits may come from any script, and a single low line may stand between two digits.  A double
stands for the nearest number there is, so a large one is infinite.  It has at most
`mostDoubleDigits` digits from the first one on that is not zero, and at most as many after the
point.  An integer has at most `mostDigits` digits.
-/

namespace WireErosion.Numeral

open WireErosion.Text (digitValue? isNumeralBlank ofDigits trim)

/-! ## Characters -/

/-- A character of a numeral: a digit by its value, or anything else as it is. -/
inductive Sign where
  /-- A digit of any script. -/
  | digit (value : Nat)
  /-- Any other character. -/
  | other (c : Char)
deriving Repr, DecidableEq, Inhabited

/-- The sign that a character is. -/
def Sign.of (c : Char) : Sign :=
  match digitValue? c with
  | some v => .digit v
  | none => .other c

/-- Whether a sign is a digit. -/
def Sign.isDigit : Sign → Bool
  | .digit _ => true
  | .other _ => false

/-- A numeral without the low lines between its digits, `none` if one stands elsewhere.  The
flag says whether the sign before was a digit. -/
def joinDigits? (afterDigit : Bool) : List Sign → Option (List Sign)
  | [] => some []
  | .digit v :: rest => (joinDigits? true rest).map (.digit v :: ·)
  | .other '_' :: .digit v :: rest =>
    if afterDigit then (joinDigits? true rest).map (.digit v :: ·) else none
  | .other c :: rest => if c = '_' then none else (joinDigits? false rest).map (.other c :: ·)

/-- The digits at the front of a list, and what follows them. -/
def takeDigits : List Sign → List Nat × List Sign
  | .digit v :: rest =>
    let (ds, rest) := takeDigits rest
    (v :: ds, rest)
  | rest => ([], rest)

/-- The sign in front of a numeral, `true` for a negative one, and what follows it. -/
def takeSign : List Sign → Bool × List Sign
  | .other '-' :: rest => (true, rest)
  | .other '+' :: rest => (false, rest)
  | rest => (false, rest)

/-! ## Doubles -/

/-- A decimal numeral: its digits, how many of them follow the point, and its power of ten. -/
structure Parts where
  /-- All digits. -/
  digits : List Nat
  /-- How many digits follow the point. -/
  fraction : Nat
  /-- The power of ten that is written. -/
  exponent : Int
deriving Repr, DecidableEq, Inhabited

/-- The power of ten at the end of a numeral. -/
def exponent? : List Sign → Option Int
  | [] => some 0
  | .other c :: rest =>
    if c = 'e' ∨ c = 'E' then
      let (negative, rest) := takeSign rest
      let (ds, rest) := takeDigits rest
      if ds.isEmpty || !rest.isEmpty then none
      else some (if negative then -(ofDigits ds : Int) else ofDigits ds)
    else none
  | .digit _ :: _ => none

/-- The parts of an unsigned decimal numeral. -/
def parts? (signs : List Sign) : Option Parts :=
  let (whole, rest) := takeDigits signs
  let (fraction, rest) := match rest with
    | .other '.' :: rest => takeDigits rest
    | rest => ([], rest)
  if whole.isEmpty && fraction.isEmpty then none
  else (exponent? rest).map fun e => ⟨whole ++ fraction, fraction.length, e⟩

/-- The double nearest to a decimal numeral. -/
def Parts.toFloat (p : Parts) : Float := Double.ofGrid (ofDigits p.digits) (p.fraction - p.exponent)

/-- The largest count of digits of a double that is read. -/
def mostDoubleDigits : Nat := 1000000000

/-- Whether a decimal numeral has few enough digits to be read.  Those after the point all count,
and of the others those from the first one on that is not zero. -/
def Parts.isReadable (p : Parts) : Bool :=
  p.fraction ≤ mostDoubleDigits && (p.digits.dropWhile (· == 0)).length ≤ mostDoubleDigits

/-- The double nearest to a decimal numeral, if that can be read. -/
def Parts.toFloat? (p : Parts) : Option Float := if p.isReadable then some p.toFloat else none

/-- The words for what is no finite number. -/
def word? (cs : List Char) : Option Float :=
  let w := cs.map Char.toLower
  if w = ['i', 'n', 'f'] ∨ w = ['i', 'n', 'f', 'i', 'n', 'i', 't', 'y'] then some (1 / 0)
  else if w = ['n', 'a', 'n'] then some (0 / 0)
  else none

/-- The characters of a numeral that has no digits, `none` if it has one. -/
def letters? : List Sign → Option (List Char)
  | [] => some []
  | .digit _ :: _ => none
  | .other c :: rest => (letters? rest).map (c :: ·)

/-- The double that an unsigned numeral stands for. -/
def unsigned? (signs : List Sign) : Option Float :=
  match (letters? signs).bind word? with
  | some x => some x
  | none => (parts? signs).bind Parts.toFloat?

/-- The double that a text stands for. -/
def double? (cs : List Char) : Option Float := do
  let signs ← joinDigits? false ((trim isNumeralBlank cs).map Sign.of)
  let (negative, signs) := takeSign signs
  (unsigned? signs).map (Double.withSign negative)

/-! ## Integers -/

/-- The largest count of digits of an integer that is read. -/
def mostDigits : Nat := 4300

/-- The integer that a text stands for. -/
def integer? (cs : List Char) : Option Int := do
  let signs ← joinDigits? false ((trim isNumeralBlank cs).map Sign.of)
  let (negative, signs) := takeSign signs
  let (ds, rest) := takeDigits signs
  if ds.isEmpty || !rest.isEmpty || mostDigits < ds.length then none
  else some (if negative then -(ofDigits ds : Int) else ofDigits ds)

example : integer? ['-', '1', '_', '0'] = some (-10) ∧ integer? ['1', '_'] = none := by decide
example : integer? [' ', '+', '7', '\n'] = some 7 := by decide
example : parts? [.digit 1, .other '.', .digit 5, .other 'e', .other '-', .digit 2]
    = some ⟨[1, 5], 1, -2⟩ := by decide

end WireErosion.Numeral
