/-!
# JSON values

A JSON value as it is read: an integer stays an integer of any size, and every other number is a
double, which may be infinite or not a number.  An object is a list of fields in the order in
which they were first met, no two of one name.
-/

namespace WireErosion.Json

/-- A JSON value. -/
inductive Value where
  /-- Nothing. -/
  | null
  /-- A truth value. -/
  | bool (b : Bool)
  /-- A number written without point and power of ten. -/
  | integer (n : Int)
  /-- Any other number. -/
  | number (x : Float)
  /-- A text. -/
  | string (s : String)
  /-- A list. -/
  | array (members : List Value)
  /-- Named fields. -/
  | object (fields : List (String × Value))
deriving Inhabited

/-- Fields with one more, or with the value of one of them replaced. -/
def setField (name : String) (v : Value) : List (String × Value) → List (String × Value)
  | [] => [(name, v)]
  | (n, w) :: rest => if n = name then (n, v) :: rest else (n, w) :: setField name v rest

/-- The value of a field. -/
def field? (name : String) (fields : List (String × Value)) : Option Value :=
  (fields.find? fun f => f.1 == name).map (·.2)

/-- Whether a value counts as a yes: nothing, no, zero, and the empty text, list and object do
not. -/
def Value.isTruthy : Value → Bool
  | .null => false
  | .bool b => b
  | .integer n => n != 0
  | .number x => !(x == 0)
  | .string s => !s.isEmpty
  | .array ms => !ms.isEmpty
  | .object fs => !fs.isEmpty

end WireErosion.Json
