/-!
# White space and line breaks

Which characters are blank, which end a line, and how a text falls apart at them.

* A character is blank when it is a space, a tab, a line or page break, one of the four
  information separators, or a space of the Unicode standard.
* A line ends at a line feed, a carriage return, the two together, a vertical tab, a form feed,
  the first three information separators, a next-line character, or a line or paragraph
  separator.  A break at the very end of a text starts no further line.
-/

namespace WireErosion.Text

/-! ## Classes -/

/-- Code points of blank characters above the ASCII range. -/
def wideBlanks : List Nat :=
  [0x85, 0xA0, 0x1680, 0x2000, 0x2001, 0x2002, 0x2003, 0x2004, 0x2005, 0x2006, 0x2007, 0x2008,
   0x2009, 0x200A, 0x2028, 0x2029, 0x202F, 0x205F, 0x3000]

/-- Whether a character is white space. -/
def isBlank (c : Char) : Bool :=
  let n := c.toNat
  (9 ≤ n && n ≤ 13) || (28 ≤ n && n ≤ 32) || wideBlanks.contains n

/-- Whether a character may stand around a numeral: white space without the information
separators. -/
def isNumeralBlank (c : Char) : Bool := isBlank c && !(28 ≤ c.toNat && c.toNat ≤ 31)

/-- Whether a character ends a line. -/
def isBreak (c : Char) : Bool :=
  let n := c.toNat
  (10 ≤ n && n ≤ 13) || (28 ≤ n && n ≤ 30) || n == 0x85 || n == 0x2028 || n == 0x2029

/-! ## Trimming and splitting -/

/-- A list without the members of a class at either end. -/
def trim (p : Char → Bool) (cs : List Char) : List Char :=
  ((cs.dropWhile p).reverse.dropWhile p).reverse

/-- A list without the members of a class at its end. -/
def trimEnd (p : Char → Bool) (cs : List Char) : List Char := (cs.reverse.dropWhile p).reverse

/-- Whether a text has nothing but white space in it. -/
def isBlankText (s : String) : Bool := s.toList.all isBlank

/-- The pieces between blank characters, where `word` is the piece read so far, last character
first.  No piece is empty. -/
def fieldsFrom (word : List Char) : List Char → List (List Char)
  | [] => if word.isEmpty then [] else [word.reverse]
  | c :: cs =>
    if isBlank c then
      if word.isEmpty then fieldsFrom [] cs else word.reverse :: fieldsFrom [] cs
    else fieldsFrom (c :: word) cs

/-- The pieces of a text between its blank characters. -/
def fields (cs : List Char) : List (List Char) := fieldsFrom [] cs

/-- The lines of a text, where `line` is the line read so far, last character first. -/
def linesFrom (line : List Char) : List Char → List (List Char)
  | [] => if line.isEmpty then [] else [line.reverse]
  | '\r' :: '\n' :: cs => line.reverse :: linesFrom [] cs
  | c :: cs =>
    if isBreak c then line.reverse :: linesFrom [] cs else linesFrom (c :: line) cs

/-- The lines of a text without their breaks. -/
def lines (cs : List Char) : List (List Char) := linesFrom [] cs

/-- A text in which every carriage return, alone or before a line feed, is a line feed. -/
def unifyBreaks : List Char → List Char
  | [] => []
  | '\r' :: '\n' :: cs => '\n' :: unifyBreaks cs
  | c :: cs => (if c = '\r' then '\n' else c) :: unifyBreaks cs

example : fields ['a', ' ', '\t', 'b'] = [['a'], ['b']] := by decide
example : lines ['a', '\r', '\n', '\n', 'b', '\n'] = [['a'], [], ['b']] := by decide
example : unifyBreaks ['\r', 'a', '\r', '\n'] = ['\n', 'a', '\n'] := by decide

end WireErosion.Text
