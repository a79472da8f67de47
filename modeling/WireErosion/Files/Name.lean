import WireErosion.Fault

/-!
# File names

A file name is a list of components.  It may start at the root.  In its text the components stand
between slashes, and components that are empty or a single point do not count.  The name without
components is a single point.

The last component has a stem and an extension.  The extension starts at the last point of the
component, if that is neither its first nor its last character.
-/

namespace WireErosion

/-- The name of a file or of a folder. -/
structure FileName where
  /-- Whether it starts at the root. -/
  isAbsolute : Bool
  /-- The components. -/
  parts : List String
deriving Repr, DecidableEq, Inhabited

namespace FileName

/-- The pieces of a list of characters between slashes. -/
def pieces : List Char → List (List Char)
  | [] => [[]]
  | c :: cs =>
    if c = '/' then [] :: pieces cs
    else
      match pieces cs with
      | [] => [[c]]
      | p :: ps => (c :: p) :: ps

/-- The name that a text stands for. -/
def ofText (s : String) : FileName :=
  ⟨s.toList.head? = some '/',
    ((pieces s.toList).filter fun p => p ≠ [] ∧ p ≠ ['.']).map String.ofList⟩

/-- The text of a name. -/
def text (n : FileName) : String :=
  match n.isAbsolute, n.parts with
  | false, [] => "."
  | false, ps => "/".intercalate ps
  | true, ps => "/" ++ "/".intercalate ps

/-- The name of the folder that holds the file. -/
def folder (n : FileName) : FileName := { n with parts := n.parts.dropLast }

/-- The stem and the extension of a component, whose characters come last one first.  `after` is
what follows them. -/
def splitExtension (after : List Char) : List Char → Option (List Char × List Char)
  | [] => none
  | [_] => none
  | c :: d :: cs =>
    if c = '.' then
      if after.isEmpty then none else some ((d :: cs).reverse, '.' :: after)
    else splitExtension (c :: after) (d :: cs)

/-- The stem and the extension of the last component, if there is one. -/
def stemAndExtension? (n : FileName) : Option (String × String) :=
  n.parts.getLast?.map fun p =>
    match splitExtension [] p.toList.reverse with
    | some (stem, extension) => (String.ofList stem, String.ofList extension)
    | none => (p, "")

/-- The name with its last component changed, given its stem and its extension. -/
def rename (change : String → String → String) (n : FileName) : Except Fault FileName :=
  match n.stemAndExtension? with
  | some (stem, extension) => .ok { n with parts := n.parts.dropLast ++ [change stem extension] }
  | none => .error .namelessFile

example : (ofText "./d//r.g").parts = ["d", "r.g"] := by decide
example : (ofText "a.b.json").stemAndExtension? = some ("a.b", ".json") := by decide
example : (ofText "r.").stemAndExtension? = some ("r.", "") := by decide

end FileName

end WireErosion
