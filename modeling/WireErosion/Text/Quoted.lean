import WireErosion.Text.Printable

/-!
# Quoted texts

A text as a report shows it.  It stands between single quotes, or between double quotes if it has
a single quote in it and no double one.  The quote around it, a backslash, a tab and the two line
breaks are written after a backslash.  Every other character that is not printable is its code
point in two, four or eight hexadecimal digits after `\x`, `\u` or `\U`.  The rest stands for
itself.
-/

namespace WireErosion.Text

/-- The lower-case hexadecimal digits of a number, with zeros in front up to `width`. -/
def hexDigits (width n : Nat) : List Char :=
  let ds := Nat.toDigits 16 n
  List.replicate (width - ds.length) '0' ++ ds

/-- A character between quotes of the given kind. -/
def quotedChar (quote c : Char) : List Char :=
  if c = quote ∨ c = '\\' then ['\\', c]
  else if c = '\n' then ['\\', 'n']
  else if c = '\r' then ['\\', 'r']
  else if c = '\t' then ['\\', 't']
  else if isPrintable c then [c]
  else
    let n := c.toNat
    if n < 0x100 then '\\' :: 'x' :: hexDigits 2 n
    else if n < 0x10000 then '\\' :: 'u' :: hexDigits 4 n
    else '\\' :: 'U' :: hexDigits 8 n

/-- A text between quotes. -/
def quoted (s : String) : String :=
  let cs := s.toList
  let quote := if cs.contains '\'' && !cs.contains '"' then '"' else '\''
  String.ofList (quote :: cs.flatMap (quotedChar quote) ++ [quote])

end WireErosion.Text
