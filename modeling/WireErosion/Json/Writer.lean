import WireErosion.Json.Value
import WireErosion.Number.Text

/-!
# Writing JSON

A value is written in ASCII.  In a text the quote, the backslash and the usual control characters
have their escapes of one letter, and every other character outside the printable ASCII range is
written by its code units in hexadecimal, two of them for a character beyond the first plane.  A
double is written with the fewest digits that read back.

`indented` puts each member of a list and each field of an object on a line of its own, two spaces
further in than the line it belongs to.  `compact` writes no white space.
-/

namespace WireErosion.Json

/-- Four lower-case hexadecimal digits. -/
def fourHexDigits (n : Nat) : List Char :=
  let ds := Nat.toDigits 16 n
  List.replicate (4 - ds.length) '0' ++ ds

/-- A code unit as an escape. -/
def unitEscape (n : Nat) : List Char := '\\' :: 'u' :: fourHexDigits n

/-- A character of a text. -/
def charText (c : Char) : List Char :=
  if c = '"' then ['\\', '"']
  else if c = '\\' then ['\\', '\\']
  else if c = '\n' then ['\\', 'n']
  else if c = '\r' then ['\\', 'r']
  else if c = '\t' then ['\\', 't']
  else if c = '\x0c' then ['\\', 'f']
  else if c = '\x08' then ['\\', 'b']
  else
    let n := c.toNat
    if 32 ≤ n ∧ n ≤ 126 then [c]
    else if n < 0x10000 then unitEscape n
    else
      unitEscape (0xD800 + (n - 0x10000) / 0x400) ++ unitEscape (0xDC00 + (n - 0x10000) % 0x400)

/-- A text between quotes. -/
def textLiteral (s : String) : String :=
  String.ofList ('"' :: s.toList.flatMap charText ++ ['"'])

/-- A double. -/
def numberLiteral (x : Float) : String :=
  match DoubleValue.of x with
  | .notANumber => "NaN"
  | .infinite negative => if negative then "-Infinity" else "Infinity"
  | .finite .. => Double.shortest x

/-- A value that has no parts. -/
def atomLiteral : Value → String
  | .null => "null"
  | .bool b => if b then "true" else "false"
  | .integer n => toString n
  | .number x => numberLiteral x
  | .string s => textLiteral s
  | .array _ => "[]"
  | .object _ => "\x7b\x7d"

/-- A line break and the indentation after it. -/
def newLine (depth : Nat) : String := "\n" ++ String.ofList (List.replicate (2 * depth) ' ')

/-- Texts one after the other between brackets, each on a line of its own. -/
def onLines (depth : Nat) (opening closing : String) (texts : List String) : String :=
  opening ++ newLine (depth + 1) ++ ("," ++ newLine (depth + 1)).intercalate texts
    ++ newLine depth ++ closing

mutual

/-- A value whose first line stands `depth` steps in. -/
def indented (depth : Nat) : Value → String
  | .array (m :: ms) => onLines depth "[" "]" (indentedMembers (depth + 1) (m :: ms))
  | .object (f :: fs) => onLines depth "\x7b" "\x7d" (indentedFields (depth + 1) (f :: fs))
  | v => atomLiteral v

/-- The members of a list, each as a text. -/
def indentedMembers (depth : Nat) : List Value → List String
  | [] => []
  | m :: ms => indented depth m :: indentedMembers depth ms

/-- The fields of an object, each as a text. -/
def indentedFields (depth : Nat) : List (String × Value) → List String
  | [] => []
  | (name, v) :: fs => (textLiteral name ++ ": " ++ indented depth v) :: indentedFields depth fs

end

mutual

/-- A value without white space. -/
def compact : Value → String
  | .array ms => "[" ++ ",".intercalate (compactMembers ms) ++ "]"
  | .object fs => "\x7b" ++ ",".intercalate (compactFields fs) ++ "\x7d"
  | v => atomLiteral v

/-- The members of a list, each as a text. -/
def compactMembers : List Value → List String
  | [] => []
  | m :: ms => compact m :: compactMembers ms

/-- The fields of an object, each as a text. -/
def compactFields : List (String × Value) → List String
  | [] => []
  | (name, v) :: fs => (textLiteral name ++ ":" ++ compact v) :: compactFields fs

end

end WireErosion.Json
