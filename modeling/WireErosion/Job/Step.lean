import WireErosion.Job

/-!
# Steps on a job

A job is worked on step by step, next to the files that it is written to.  A step may change the
job or the files, and it shows something.  It is taken as the changes that it is made of, one after
the other.  If one of them fails the step ends there, and the bench is left as the changes before it
made it.  The work goes on with the next step.

Operations are chosen by their index.  A negative index counts from the end.
-/

namespace WireErosion

/-! ## Types -/

/-- A job next to the files that it is written to. -/
structure Bench [Geometry] where
  /-- The job. -/
  job : Job := {}
  /-- The files. -/
  store : FileStore := ⟨[], []⟩
  /-- The notices so far. -/
  notices : List (Notice Float) := []
deriving Inhabited

/-- A step on a job. -/
inductive JobStep where
  /-- To load the path file of the given name, whose text is given if there is one. -/
  | load (name : String) (text : Option String)
  /-- To change some settings. -/
  | change (settings : List (String × Json.Value))
  /-- To forget the tabs. -/
  | clearTabs
  /-- To add an operation after all others. -/
  | add (op : Operation Float)
  /-- To change the operation with an index. -/
  | edit (index : Int) (change : Operation Float → Operation Float)
  /-- To remove the operation with an index. -/
  | remove (index : Int)
  /-- To compute the results of all operations. -/
  | compute
  /-- To compute the program. -/
  | assemble
  /-- To write the program to a file. -/
  | write (name : FileName)

/-- What a step shows. -/
inductive Shown [Geometry] where
  /-- Nothing. -/
  | nothing
  /-- How many paths there are, and the region of the tabs. -/
  | paths (count : Nat) (tabs : Option Geometry.Region)
  /-- The settings. -/
  | settings (s : Settings)
  /-- How many operations there are. -/
  | operations (count : Nat)
  /-- The results of all operations. -/
  | results (rs : List (OperationResult FieldValue))
  /-- The program. -/
  | program (p : Program FieldValue)
deriving Inhabited

/-! ## Operations by index -/

/-- The position that an index stands for in a list of the given length. -/
def positionOf (length : Nat) (index : Int) : Except Fault Nat :=
  let i := if index < 0 then index + length else index
  if 0 ≤ i ∧ i < length then .ok i.toNat else .error .noSuchOperation

namespace Job

variable [Geometry]

/-- Replaces the operations. -/
def mapOperations (f : List (Operation Float) → List (Operation Float)) : Work Unit :=
  modify fun j => { j with operations := f j.operations }

/-- Changes the operation at an index. -/
def edit (index : Int) (change : Operation Float → Operation Float) : Work Unit := do
  let i ← ofExcept (positionOf (← get).operations.length index)
  mapOperations (·.modify i change)

/-- Removes the operation at an index. -/
def remove (index : Int) : Work Unit := do
  let i ← ofExcept (positionOf (← get).operations.length index)
  mapOperations (·.eraseIdx i)

end Job

/-! ## Steps -/

namespace Bench

variable [Geometry]

/-- Work at a bench.  If it fails the bench is left as it got to it. -/
abbrev Work (α : Type) := EStateM Fault Bench α

/-- Works on the job. -/
def onJob {α : Type} (m : Job.Work α) : Work α := fun b =>
  match m b.job with
  | .ok a job => .ok a { b with job }
  | .error f job => .error f { b with job }

/-- Works on the files. -/
def onFiles {α : Type} (m : FileStore.Work α) : Work α := fun b =>
  match m b.store with
  | .ok a store => .ok a { b with store }
  | .error f store => .error f { b with store }

/-- Keeps the notices of a report, and goes on with its result. -/
def note {α : Type} (r : Report Float α) : Work α := do
  modify fun b => { b with notices := b.notices ++ r.notices }
  ofExcept r.outcome

/-- Shows how many operations there are. -/
def showOperations : Work Shown := return .operations (← get).job.operations.length

/-- Writes the program of the job to a file. -/
def writeProgram (n : FileName) : Work (Program FieldValue) := do
  let p ← note (← get).job.program
  onFiles (p.writeTo n (← get).job.settings.writtenPlaces)
  return p

/-- Takes a step. -/
def step : JobStep → Work Shown
  | .load name text => do
    onJob (Job.load name text)
    let j := (← get).job
    return .paths j.paths.length j.tabs
  | .change fields => do
    onJob (modify fun j => { j with settings := j.settings.setAll fields })
    return .settings (← get).job.settings
  | .clearTabs => do
    onJob (modify fun j => { j with tabs := none })
    return .nothing
  | .add op => do
    onJob (Job.mapOperations (· ++ [op]))
    showOperations
  | .edit index change => do
    onJob (Job.edit index change)
    showOperations
  | .remove index => do
    onJob (Job.remove index)
    showOperations
  | .compute => return .results (← note (← get).job.results)
  | .assemble => return .program (← note (← get).job.program)
  | .write name => return .program (← writeProgram name)

/-- What a step leaves of a bench, and what it shows or why it fails. -/
def attempt (b : Bench) (s : JobStep) : Bench × Except Fault Shown :=
  match step s b with
  | .ok shown c => (c, .ok shown)
  | .error f c => (c, .error f)

/-- What some steps leave of a bench, and what each shows or why it fails. -/
def attempts (b : Bench) : List JobStep → Bench × List (Except Fault Shown)
  | [] => (b, [])
  | s :: ss =>
    let (c, shown) := b.attempt s
    let (d, rest) := c.attempts ss
    (d, shown :: rest)

end Bench

end WireErosion
