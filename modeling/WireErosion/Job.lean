import WireErosion.Files.Store
import WireErosion.Operation.Run
import WireErosion.Path.File

/-!
# Jobs

A job holds settings, cam paths with their tabs, and the operations on them.

Loading a path file reads it to its end, and then replaces the paths and after them the tabs.
Computing runs all operations in order over the paths, and stops at the first fault.  Writing a
program makes its whole text before it opens the file.
-/

namespace WireErosion

/-- A job. -/
structure Job [Geometry] where
  /-- The settings. -/
  settings : Settings := {}
  /-- The cam paths. -/
  paths : List (CamPath Float) := []
  /-- The region of the tabs, if there are any. -/
  tabs : Option Geometry.Region := none
  /-- The operations. -/
  operations : List (Operation Float) := []
deriving Inhabited

namespace Job

variable [Geometry]

/-- Work on a job.  If it fails the job is left as it got to it. -/
abbrev Work (α : Type) := EStateM Fault Job α

/-! ## Paths -/

/-- Loads the path file of the given name, whose text is given if there is one. -/
def load (name : String) (text : Option String) : Work Unit := do
  let contents ← ofExcept (PathFile.load name text)
  modify fun j => { j with paths := contents.paths }
  modify fun j => { j with tabs := contents.tabs }

/-! ## Results -/

/-- The results of operations, the first one having the given index. -/
def resultsFrom (j : Job) (index : Nat) :
    List (Operation Float) → Report Float (List (OperationResult FieldValue))
  | [] => .of []
  | op :: ops =>
    (op.run index j.paths j.tabs j.settings).bind fun r =>
      (j.resultsFrom (index + 1) ops).bind fun rs => .of (r :: rs)

/-- The results of the operations of a job. -/
def results (j : Job) : Report Float (List (OperationResult FieldValue)) :=
  if j.paths.isEmpty then .fail .noPaths else j.resultsFrom 0 j.operations

end Job

/-- The program of some results. -/
def programOf (rs : List (OperationResult FieldValue)) : Program FieldValue :=
  rs.flatMap (·.program)

/-- The program of a job. -/
def Job.program [Geometry] (j : Job) : Report Float (Program FieldValue) :=
  j.results.bind fun rs => .of (programOf rs)

/-! ## Writing -/

/-- Writes a program to a file. -/
def Program.writeTo (n : FileName) (places : Int) (p : Program FieldValue) :
    FileStore.Work Unit := do
  let text ← ofExcept (p.formatValues places)
  FileStore.write n (asciiText text).toUTF8

end WireErosion
