import WireErosion.Notice
import WireErosion.Program.Line

/-!
# Reading a program

A text is read line by line.  A line whose first word is an opcode, in either case, is a move, and
any other line is a comment.

The words after the opcode set the fields of the move, from left to right.  A word names a field by
its first letter, in either case, and the long s counts as an S.  The rest of it has to be the
numeral of a double.  So the last good word of a field decides its value.  A word that names no
field, or has no numeral, changes nothing and gives a notice.
-/

namespace WireErosion

/-- The letters of the fields of a move. -/
inductive Field where
  /-- The first axis. -/
  | x
  /-- The second axis. -/
  | y
  /-- The depth. -/
  | z
  /-- The feed rate. -/
  | f
  /-- The speed. -/
  | s
deriving Repr, DecidableEq, Inhabited

namespace Field

/-- The field of a letter in either case.  The long s, U+017F, is a small S. -/
def ofLetter? (c : Char) : Option Field :=
  if c = 'X' ∨ c = 'x' then some .x
  else if c = 'Y' ∨ c = 'y' then some .y
  else if c = 'Z' ∨ c = 'z' then some .z
  else if c = 'F' ∨ c = 'f' then some .f
  else if c = 'S' ∨ c = 's' ∨ c = '\u017f' then some .s
  else none

/-- A move with a field set. -/
def set {α : Type} (field : Field) (v : α) (m : Move α) : Move α :=
  match field with
  | .x => { m with x := some v }
  | .y => { m with y := some v }
  | .z => { m with z := some v }
  | .f => { m with f := some v }
  | .s => { m with s := some v }

end Field

/-- The motion of an opcode. -/
def Motion.ofOpcode? (word : List Char) : Option Motion :=
  match word with
  | [g, '0'] | [g, '0', '0'] => if g = 'G' ∨ g = 'g' then some .rapid else none
  | [g, '1'] | [g, '0', '1'] => if g = 'G' ∨ g = 'g' then some .linear else none
  | _ => none

namespace Line

/-- A move after one more word of the line `line`. -/
def takeWord (line : String) (m : Move Float) (word : List Char) : Report Float (Move Float) :=
  match word with
  | [] => .of m
  | c :: rest =>
    match Field.ofLetter? c with
    | none => (Report.tell (.unrecognizedToken (String.ofList word) line)).bind fun _ => .of m
    | some field =>
      match Numeral.double? rest with
      | some v => .of (field.set v m)
      | none => (Report.tell (.malformedToken (String.ofList word) line)).bind fun _ => .of m

/-- A move after all words of the line `line`. -/
def takeWords (line : String) (m : Move Float) : List (List Char) → Report Float (Move Float)
  | [] => .of m
  | word :: rest => (takeWord line m word).bind fun m => takeWords line m rest

/-- The line that a text stands for.  Line breaks at its end do not belong to it. -/
def decode (text : String) : Report Float (Line Float) :=
  let cs := Text.trimEnd (fun c => c = '\r' || c = '\n') text.toList
  let line := String.ofList cs
  match Text.fields cs with
  | [] => .of (.comment line)
  | opcode :: words =>
    match Motion.ofOpcode? opcode with
    | none => .of (.comment line)
    | some motion => (takeWords line { motion } words).bind fun m => .of (.move m)

end Line

namespace Program

/-- The lines that texts stand for. -/
def ofTexts : List (List Char) → Report Float (Program Float)
  | [] => .of []
  | t :: ts =>
    (Line.decode (String.ofList t)).bind fun l => (ofTexts ts).bind fun p => .of (l :: p)

/-- The program that a text stands for. -/
def parse (text : String) : Report Float (Program Float) := ofTexts (Text.lines text.toList)

end Program

end WireErosion
