import WireErosion.Fault
import WireErosion.Json.Value
import WireErosion.Number.Numeral

/-!
# Reading JSON

The grammar of JSON with three more numbers, `NaN`, `Infinity` and `-Infinity`.  White space is a
space, a tab, a line feed or a carriage return.  A text holds control characters only in escaped
form.  Of two fields of one name the later value counts, at the place of the earlier.

An integer has at most `Numeral.mostDigits` digits, and any other number has few enough of them to
be read as a double.  One with more is a fault of its own, every other deviation from the grammar is
`malformedJson`, and the one that is met first is reported.
Half of a surrogate pair that stands alone is read as the replacement character.

Reading descends with a fuel that is twice the count of characters.  On every way down a character
is read at least at every second step, so the fuel is never what ends it.
-/

namespace WireErosion.Json

/-! ## White space and words -/

/-- Whether a character is white space between the parts of a value. -/
def isSpace (c : Char) : Bool := c = ' ' || c = '\t' || c = '\n' || c = '\r'

/-- A text without the white space at its front. -/
def skipSpace (cs : List Char) : List Char := cs.dropWhile isSpace

/-- What follows a word at the front of a text. -/
def afterWord? : List Char → List Char → Option (List Char)
  | [], cs => some cs
  | _ :: _, [] => none
  | w :: ws, c :: cs => if w = c then afterWord? ws cs else none

/-! ## Texts -/

/-- The value of a hexadecimal digit. -/
def hexValue? (c : Char) : Option Nat :=
  if '0' ≤ c ∧ c ≤ '9' then some (c.toNat - 48)
  else if 'a' ≤ c ∧ c ≤ 'f' then some (c.toNat - 87)
  else if 'A' ≤ c ∧ c ≤ 'F' then some (c.toNat - 55)
  else none

/-- The number of four hexadecimal digits. -/
def hexNumber? (a b c d : Char) : Option Nat := do
  return 4096 * (← hexValue? a) + 256 * (← hexValue? b) + 16 * (← hexValue? c) + (← hexValue? d)

/-- The character of an escape of one letter. -/
def escaped? (c : Char) : Option Char :=
  if c = '"' ∨ c = '\\' ∨ c = '/' then some c
  else if c = 'b' then some '\x08'
  else if c = 'f' then some '\x0c'
  else if c = 'n' then some '\n'
  else if c = 'r' then some '\r'
  else if c = 't' then some '\t'
  else none

/-- Whether a number is the first half of a surrogate pair. -/
def isHighHalf (n : Nat) : Bool := 0xD800 ≤ n && n ≤ 0xDBFF

/-- Whether a number is the second half of a surrogate pair. -/
def isLowHalf (n : Nat) : Bool := 0xDC00 ≤ n && n ≤ 0xDFFF

/-- The character of an escaped code unit that is not half of a pair. -/
def unitChar (n : Nat) : Char := if isHighHalf n || isLowHalf n then '\ufffd' else Char.ofNat n

/-- The characters of a text after its opening quote, and what follows its closing quote.
`high` is the first half of a surrogate pair that was read just before. -/
def textFrom (high : Option Nat) : List Char → Option (List Char × List Char)
  | [] => none
  | '"' :: rest => some (if high.isSome then ['\ufffd'] else [], rest)
  | '\\' :: 'u' :: a :: b :: c :: d :: rest =>
    match hexNumber? a b c d with
    | none => none
    | some n =>
      match high with
      | some h =>
        if isLowHalf n then
          (textFrom none rest).map fun (cs, r) =>
            (Char.ofNat (0x10000 + 0x400 * (h - 0xD800) + (n - 0xDC00)) :: cs, r)
        else if isHighHalf n then
          (textFrom (some n) rest).map fun (cs, r) => ('\ufffd' :: cs, r)
        else (textFrom none rest).map fun (cs, r) => ('\ufffd' :: unitChar n :: cs, r)
      | none =>
        if isHighHalf n then textFrom (some n) rest
        else (textFrom none rest).map fun (cs, r) => (unitChar n :: cs, r)
  | '\\' :: c :: rest =>
    match escaped? c with
    | none => none
    | some e => (textFrom none rest).map fun (cs, r) =>
        (if high.isSome then '\ufffd' :: e :: cs else e :: cs, r)
  | c :: rest =>
    if c.toNat < 32 ∨ c = '\\' then none
    else (textFrom none rest).map fun (cs, r) =>
      (if high.isSome then '\ufffd' :: c :: cs else c :: cs, r)

/-! ## Numbers -/

/-- Whether a character is an ASCII digit. -/
def isDigit (c : Char) : Bool := '0' ≤ c && c ≤ '9'

/-- The values of ASCII digits. -/
def digitValues (cs : List Char) : List Nat := cs.map fun c => c.toNat - 48

/-- The whole part of a number: a zero alone, or digits that do not start with one. -/
def wholePart? : List Char → Option (List Char × List Char)
  | '0' :: rest => some (['0'], rest)
  | cs =>
    let ds := cs.takeWhile isDigit
    if ds.isEmpty then none else some (ds, cs.dropWhile isDigit)

/-- The digits after a point, if a point with digits after it is next. -/
def fractionPart : List Char → List Char × List Char
  | '.' :: rest =>
    let ds := rest.takeWhile isDigit
    if ds.isEmpty then ([], '.' :: rest) else (ds, rest.dropWhile isDigit)
  | cs => ([], cs)

/-- The power of ten, if one is next. -/
def exponentPart (cs : List Char) : Option Int × List Char :=
  match cs with
  | e :: rest =>
    if e = 'e' ∨ e = 'E' then
      let (negative, digits) := match rest with
        | '-' :: r => (true, r)
        | '+' :: r => (false, r)
        | r => (false, r)
      let ds := digits.takeWhile isDigit
      if ds.isEmpty then (none, cs)
      else
        let n : Int := Text.ofDigits (digitValues ds)
        (some (if negative then -n else n), digits.dropWhile isDigit)
    else (none, cs)
  | [] => (none, cs)

/-- The numeral at the front of a text, of which the rest is given, with its sign. -/
def literal (negative : Bool) (cs rest : List Char) : String :=
  (if negative then "-" else "") ++ String.ofList (cs.take (cs.length - rest.length))

/-- The number at the front of a text without its sign, and what follows it. -/
def number (negative : Bool) (cs : List Char) : Except Fault (Value × List Char) :=
  match wholePart? cs with
  | none => .error .malformedJson
  | some (whole, rest) =>
    let (fraction, rest) := fractionPart rest
    let (exponent, rest) := exponentPart rest
    if fraction.isEmpty && exponent.isNone then
      if Numeral.mostDigits < whole.length then .error (.numeralTooLong whole.length)
      else
        let n : Int := Text.ofDigits (digitValues whole)
        .ok (.integer (if negative then -n else n), rest)
    else
      let parts : Numeral.Parts :=
        ⟨digitValues (whole ++ fraction), fraction.length, exponent.getD 0⟩
      match parts.toFloat? with
      | some x => .ok (.number (Double.withSign negative x), rest)
      | none => .error (.literalTooLong (literal negative cs rest))

/-! ## Values -/

/-- A value that has no parts, and what follows it. -/
def atom (cs : List Char) : Except Fault (Value × List Char) :=
  match cs with
  | [] => .error .malformedJson
  | '-' :: rest =>
    match afterWord? "Infinity".toList rest with
    | some rest => .ok (.number (-1 / 0), rest)
    | none => number true rest
  | _ =>
    match afterWord? "null".toList cs, afterWord? "true".toList cs, afterWord? "false".toList cs,
        afterWord? "NaN".toList cs, afterWord? "Infinity".toList cs with
    | some rest, _, _, _, _ => .ok (.null, rest)
    | _, some rest, _, _, _ => .ok (.bool true, rest)
    | _, _, some rest, _, _ => .ok (.bool false, rest)
    | _, _, _, some rest, _ => .ok (.number (0 / 0), rest)
    | _, _, _, _, some rest => .ok (.number (1 / 0), rest)
    | _, _, _, _, _ => number false cs

/-- The text at the front of a list of characters, and what follows it. -/
def text (cs : List Char) : Except Fault (String × List Char) :=
  match cs with
  | '"' :: rest =>
    match textFrom none rest with
    | some (s, rest) => .ok (String.ofList s, rest)
    | none => .error .malformedJson
  | _ => .error .malformedJson

mutual

/-- The value at the front of a text, and what follows it. -/
def value : Nat → List Char → Except Fault (Value × List Char)
  | 0, _ => .error .malformedJson
  | fuel + 1, cs =>
    match cs with
    | '"' :: _ => (text cs).map fun (s, rest) => (.string s, rest)
    | '[' :: rest =>
      match skipSpace rest with
      | ']' :: rest => .ok (.array [], rest)
      | rest => (members fuel rest).map fun (ms, rest) => (.array ms, rest)
    | '\x7b' :: rest =>
      match skipSpace rest with
      | '\x7d' :: rest => .ok (.object [], rest)
      | rest => (fields fuel [] rest).map fun (fs, rest) => (.object fs, rest)
    | _ => atom cs

/-- The members of a list up to its end. -/
def members : Nat → List Char → Except Fault (List Value × List Char)
  | 0, _ => .error .malformedJson
  | fuel + 1, cs => do
    let (v, rest) ← value fuel cs
    match skipSpace rest with
    | ']' :: rest => return ([v], rest)
    | ',' :: rest =>
      let (vs, rest) ← members fuel (skipSpace rest)
      return (v :: vs, rest)
    | _ => throw .malformedJson

/-- The fields of an object up to its end, added to those that were read before. -/
def fields : Nat → List (String × Value) → List Char →
    Except Fault (List (String × Value) × List Char)
  | 0, _, _ => .error .malformedJson
  | fuel + 1, before, cs => do
    let (name, rest) ← text cs
    match skipSpace rest with
    | ':' :: rest =>
      let (v, rest) ← value fuel (skipSpace rest)
      let before := setField name v before
      match skipSpace rest with
      | '\x7d' :: rest => return (before, rest)
      | ',' :: rest => fields fuel before (skipSpace rest)
      | _ => throw .malformedJson
    | _ => throw .malformedJson

end

/-- The value that a text stands for. -/
def parse (s : String) : Except Fault Value := do
  let cs := s.toList
  let (v, rest) ← value (2 * cs.length + 2) (skipSpace cs)
  if (skipSpace rest).isEmpty then return v else throw .malformedJson

end WireErosion.Json
