import WireErosion.Number.Numeral
import WireErosion.Text.Quoted

/-!
# Arguments

The arguments of a command are *switches* and one *operand*.  A switch starts with a hyphen, and
either is just there or takes a value.  A grammar says which switches there are.

* An argument that starts with a hyphen is a switch, unless it is a hyphen alone, a negative
  number, or has a blank in it and stands for no switch.  A negative number has digits, or a point
  with digits after it and perhaps before it.
* A long switch may be cut short as long as one switch alone fits.  It may have its value after an
  equals sign, and a switch of one letter may have it right after the letter.
* After two hyphens alone every argument is an operand.

The operand of some grammars takes all arguments after it, whatever they look like.  Other
arguments that belong to nothing are extras, and whether they are refused is up to the caller.

A switch that is given more than once has the last value.  Values are checked as they come, so the
first bad argument is the one that is refused.  Only a switch that is cut too short is found
before all else.  After a final switch nothing is read and nothing is missing.
-/

namespace WireErosion.CommandLine

/-! ## Grammars -/

/-- What the value of a switch has to be. -/
inductive ValueKind where
  /-- A text. -/
  | text
  /-- The numeral of a double. -/
  | number
  /-- The numeral of an integer. -/
  | integer
  /-- One of some texts. -/
  | choice (names : List String)
deriving Repr, DecidableEq, Inhabited

/-- A switch. -/
structure Switch where
  /-- Its names, with their hyphens. -/
  names : List String
  /-- What its value has to be, `none` if it takes none. -/
  kind : Option ValueKind
  /-- Whether it has to be given. -/
  isRequired : Bool := false
  /-- Whether nothing after it is read. -/
  isFinal : Bool := false
deriving Repr, DecidableEq, Inhabited

/-- How reports name a switch. -/
def Switch.title (s : Switch) : String := "/".intercalate s.names

/-- The arguments of a command. -/
structure Grammar where
  /-- The switches. -/
  switches : List Switch
  /-- How reports name the operand. -/
  operand : String
  /-- What the operand has to be. -/
  operandKind : ValueKind
  /-- Whether the operand takes all arguments after it. -/
  takesRest : Bool
deriving Repr, DecidableEq, Inhabited

/-! ## Refusals -/

/-- Why arguments are refused. -/
inductive Refusal where
  /-- A switch is cut so short that several fit. -/
  | ambiguous (argument : String) (fitting : List String)
  /-- The value of a switch or an operand is not of its kind. -/
  | badValue (title : String) (kind : ValueKind) (text : String)
  /-- A switch has no value. -/
  | noValue (title : String)
  /-- A switch has a value and takes none. -/
  | needlessValue (title text : String)
  /-- Something that is required is missing. -/
  | missing (titles : List String)
  /-- Arguments belong to nothing. -/
  | extras (arguments : List String)
deriving Repr, DecidableEq, Inhabited

/-- The report on a value that is not of its kind. -/
def ValueKind.complaint (text : String) : ValueKind → String
  | .text => "invalid value: " ++ Text.quoted text
  | .number => "invalid float value: " ++ Text.quoted text
  | .integer => "invalid int value: " ++ Text.quoted text
  | .choice names =>
    "invalid choice: " ++ Text.quoted text ++ " (choose from "
      ++ ", ".intercalate (names.map Text.quoted) ++ ")"

/-- The report on a refusal. -/
def Refusal.message : Refusal → String
  | .ambiguous argument fitting =>
    "ambiguous option: " ++ argument ++ " could match " ++ ", ".intercalate fitting
  | .badValue title kind text => "argument " ++ title ++ ": " ++ kind.complaint text
  | .noValue title => "argument " ++ title ++ ": expected one argument"
  | .needlessValue title text =>
    "argument " ++ title ++ ": ignored explicit argument " ++ Text.quoted text
  | .missing titles => "the following arguments are required: " ++ ", ".intercalate titles
  | .extras arguments => "unrecognized arguments: " ++ " ".intercalate arguments

/-! ## Telling switches and operands apart -/

/-- What an argument is. -/
inductive Role where
  /-- An operand, or the value of a switch. -/
  | operand
  /-- A switch, with the value that is in the same argument. -/
  | switch (s : Switch) (value : Option String)
  /-- Something like a switch that is none. -/
  | unknown
  /-- Two hyphens alone. -/
  | divider
deriving Repr, DecidableEq, Inhabited

/-- Whether all characters are digits. -/
def allDigits (cs : List Char) : Bool := cs.all fun c => (Text.digitValue? c).isSome

/-- Whether a text is a negative number.  A line feed at its end does not matter. -/
def isNegativeNumber (cs : List Char) : Bool :=
  match cs with
  | '-' :: cs =>
    let cs := if cs.getLast? = some '\n' then cs.dropLast else cs
    match cs.span (· != '.') with
    | (ds, []) => !ds.isEmpty && allDigits ds
    | (ds, _ :: es) => allDigits ds && !es.isEmpty && allDigits es
  | _ => false

/-- The texts before and after the first equals sign. -/
def splitValue? (cs : List Char) : Option (String × String) :=
  match cs.span (· != '=') with
  | (_, []) => none
  | (a, _ :: b) => some (String.ofList a, String.ofList b)

namespace Grammar

/-- The names of all switches, each with its switch. -/
def named (g : Grammar) : List (String × Switch) :=
  g.switches.flatMap fun s => s.names.map fun n => (n, s)

/-- The switch of a name. -/
def switch? (g : Grammar) (name : String) : Option Switch :=
  (g.named.find? fun n => n.1 == name).map (·.2)

/-- The switches with a name that starts with a text. -/
def starting (g : Grammar) (start : String) (value : Option String) :
    List (String × Switch × Option String) :=
  (g.named.filter fun n => start.toList.isPrefixOf n.1.toList).map fun n => (n.1, n.2, value)

/-- The switches that an argument may stand for that is not the name of one. -/
def fitting (g : Grammar) (argument : String) : List (String × Switch × Option String) :=
  match argument.toList with
  | '-' :: '-' :: _ =>
    match splitValue? argument.toList with
    | some (name, value) => g.starting name (some value)
    | none => g.starting argument none
  | '-' :: c :: rest =>
    g.named.filterMap fun n =>
      if n.1 = String.ofList ['-', c] then some (n.1, n.2, some (String.ofList rest))
      else if argument.toList.isPrefixOf n.1.toList then some (n.1, n.2, none)
      else none
  | _ => []

/-- What an argument is that stands for no switch. -/
def otherRole (cs : List Char) : Role :=
  if isNegativeNumber cs || cs.contains ' ' then .operand else .unknown

/-- What an argument before the divider is. -/
def roleOf (g : Grammar) (argument : String) : Except Refusal Role :=
  match argument.toList with
  | '-' :: c :: cs =>
    match g.switch? argument, splitValue? argument.toList with
    | some s, _ => .ok (.switch s none)
    | none, split =>
      match split.bind fun (name, value) => (g.switch? name).map fun s => (s, value) with
      | some (s, value) => .ok (.switch s (some value))
      | none =>
        match g.fitting argument with
        | [] => .ok (otherRole ('-' :: c :: cs))
        | [(_, s, value)] => .ok (.switch s value)
        | several => .error (.ambiguous argument (several.map (·.1)))
  | _ => .ok .operand

/-- The arguments with what they are. -/
def roles (g : Grammar) : List String → Except Refusal (List (String × Role))
  | [] => .ok []
  | a :: rest =>
    if a = "--" then .ok ((a, .divider) :: rest.map fun b => (b, .operand))
    else do
      let role ← g.roleOf a
      return (a, role) :: (← g.roles rest)

end Grammar

/-! ## Reading -/

/-- What arguments say. -/
structure Reading where
  /-- The switches that are given, last one first, by their first name and with their value. -/
  given : List (String × String) := []
  /-- The operand, with all that it takes. -/
  operand : Option (List String) := none
  /-- The arguments that belong to nothing. -/
  extras : List String := []
  /-- Whether a switch ended it before all arguments were read. -/
  isCut : Bool := false
deriving Repr, DecidableEq, Inhabited

/-- Whether a text is of a kind. -/
def ValueKind.admits (text : String) : ValueKind → Bool
  | .text => true
  | .number => (Numeral.double? text.toList).isSome
  | .integer => (Numeral.integer? text.toList).isSome
  | .choice names => names.contains text

/-- The refusal of a text that is not of a kind. -/
def checkValue (title : String) (kind : ValueKind) (text : String) : Except Refusal Unit :=
  if kind.admits text then .ok () else .error (.badValue title kind text)

namespace Reading

/-- A reading with one more switch. -/
def give (r : Reading) (s : Switch) (value : String) : Reading :=
  { r with given := (s.names.headD "", value) :: r.given }

/-- A reading with one more switch that takes a value. -/
def giveValue (r : Reading) (s : Switch) (kind : ValueKind) (value : String) :
    Except Refusal Reading :=
  (checkValue s.title kind value).map fun _ => r.give s value

/-- A reading with the operand. -/
def giveOperand (r : Reading) (g : Grammar) (taken : List String) : Except Refusal Reading :=
  (checkValue g.operand g.operandKind (taken.headD "")).map fun _ =>
    { r with operand := some taken }

/-- A reading with more extras. -/
def addExtras (r : Reading) (arguments : List String) : Reading :=
  { r with extras := r.extras ++ arguments }

/-- The value of a switch, by the first name of the switch. -/
def value? (r : Reading) (name : String) : Option String :=
  (r.given.find? fun v => v.1 == name).map (·.2)

end Reading

namespace Grammar

/-- A reading after the rest of the arguments. -/
def readFrom (g : Grammar) (r : Reading) : List (String × Role) → Except Refusal Reading
  | [] => .ok r
  | (a, .unknown) :: rest => g.readFrom (r.addExtras [a]) rest
  | (_, .switch s (some value)) :: rest =>
    match s.kind with
    | some kind => do g.readFrom (← r.giveValue s kind value) rest
    | none => .error (.needlessValue s.title value)
  | (_, .switch s none) :: rest =>
    match s.kind, rest with
    | none, rest =>
      if s.isFinal then .ok { r.give s "" with isCut := true } else g.readFrom (r.give s "") rest
    | some kind, (value, .operand) :: rest => do g.readFrom (← r.giveValue s kind value) rest
    | some _, _ => .error (.noValue s.title)
  | (a, .operand) :: rest =>
    if r.operand.isSome then g.readFrom (r.addExtras [a]) rest
    else if g.takesRest then r.giveOperand g (a :: rest.map (·.1))
    else
      match rest with
      | (_, .divider) :: rest => do g.readFrom (← r.giveOperand g [a]) rest
      | rest => do g.readFrom (← r.giveOperand g [a]) rest
  | (a, .divider) :: rest =>
    match rest with
    | [] => .ok (r.addExtras [a])
    | (b, _) :: more =>
      if r.operand.isSome then .ok (r.addExtras (a :: b :: more.map (·.1)))
      else if g.takesRest then r.giveOperand g (a :: b :: more.map (·.1))
      else do g.readFrom (← r.giveOperand g [b]) more

/-- What is required and not there. -/
def missing (g : Grammar) (r : Reading) : List String :=
  (if r.operand.isSome then [] else [g.operand])
    ++ (g.switches.filter fun s => s.isRequired && (r.value? (s.names.headD "")).isNone).map
      Switch.title

/-- What the arguments say. -/
def read (g : Grammar) (arguments : List String) : Except Refusal Reading := do
  let r ← g.readFrom {} (← g.roles arguments)
  match r.isCut, g.missing r with
  | false, title :: titles => throw (.missing (title :: titles))
  | _, _ => return r

end Grammar

end WireErosion.CommandLine
