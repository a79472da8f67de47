import WireErosion.Number.Scalar
import WireErosion.Wear.Handle

/-!
# Notices

What the library has to say while it works.  A notice is a value that names the event and carries
its particulars, and it is returned with the result of the function that met the event.  Its
level and its wording are functions of the event.

`Report` is a result together with the notices that came before it, in order.  A report of a fault
keeps the notices up to the fault.
-/

namespace WireErosion

/-! ## Events -/

/-- How grave an event is. -/
inductive Level where
  /-- Of interest to a developer. -/
  | debug
  /-- The normal course of things. -/
  | info
  /-- Something the user should look at. -/
  | warning
  /-- Something went wrong. -/
  | error
deriving Repr, DecidableEq, Inhabited

/-- The rank of a level, the gravest one highest. -/
def Level.rank : Level → Nat
  | .debug => 0
  | .info => 1
  | .warning => 2
  | .error => 3

/-- An event that the user may be told about.  Depths are numbers of the type `α`. -/
inductive Notice (α : Type) where
  /-- A word of a move names no field. -/
  | unrecognizedToken (token line : String)
  /-- A word of a move has no number in it. -/
  | malformedToken (token line : String)
  /-- A handle stands for no block that can be placed. -/
  | handleRejected (why : Rejection) (handle : Handle)
  /-- Some blocks of a kind have no handle. -/
  | blocksUnplaced (kind : BlockKind) (indices : List Nat)
  /-- A program states its wear ratio more than once. -/
  | ratioRepeated (line : Nat)
  /-- A program has no place to stage the seating plunges at. -/
  | nothingStaged
  /-- The depth at a line is above the depth before it. -/
  | depthRises (line : Nat) (before after : α)
  /-- More rises were found than are reported one by one. -/
  | depthTotal (count : Nat) (reported : Int)
  /-- An operation breaks a constraint. -/
  | constraintBroken (operation : String) (constraint : Constraint)
  /-- An operation has become a program. -/
  | operationDone (operation : String) (lines violations : Nat)
  /-- Wear compensation starts. -/
  | wearStarted (ratio passDepth startZ rapidZ : α)
  /-- A program was taken apart. -/
  | blocksFound (cuts plunges : Nat)
deriving Repr, DecidableEq, Inhabited

/-- The level of an event. -/
def Notice.level {α : Type} : Notice α → Level
  | .unrecognizedToken .. | .malformedToken .. | .nothingStaged | .depthRises ..
  | .depthTotal .. => .warning
  | .handleRejected .. | .blocksUnplaced .. | .ratioRepeated .. | .constraintBroken .. => .error
  | .operationDone .. => .info
  | .wearStarted .. | .blocksFound .. => .debug

/-- An event with its depths replaced. -/
def Notice.map {α β : Type} (f : α → β) : Notice α → Notice β
  | .unrecognizedToken token line => .unrecognizedToken token line
  | .malformedToken token line => .malformedToken token line
  | .handleRejected why handle => .handleRejected why handle
  | .blocksUnplaced kind indices => .blocksUnplaced kind indices
  | .ratioRepeated line => .ratioRepeated line
  | .nothingStaged => .nothingStaged
  | .depthRises line before after => .depthRises line (f before) (f after)
  | .depthTotal count reported => .depthTotal count reported
  | .constraintBroken operation constraint => .constraintBroken operation constraint
  | .operationDone operation lines violations => .operationDone operation lines violations
  | .wearStarted ratio passDepth startZ rapidZ =>
    .wearStarted (f ratio) (f passDepth) (f startZ) (f rapidZ)
  | .blocksFound cuts plunges => .blocksFound cuts plunges

/-! ## Reports -/

/-- A result and the notices that came before it. -/
structure Report (α β : Type) where
  /-- The notices, first one first. -/
  notices : List (Notice α)
  /-- The result, or why there is none. -/
  outcome : Except Fault β

namespace Report

variable {α β γ : Type}

/-- A result without notices. -/
def of (b : β) : Report α β := ⟨[], .ok b⟩

/-- A fault without notices. -/
def fail (f : Fault) : Report α β := ⟨[], .error f⟩

/-- One notice. -/
def tell (n : Notice α) : Report α Unit := ⟨[n], .ok ()⟩

/-- Some notices. -/
def tellAll (ns : List (Notice α)) : Report α Unit := ⟨ns, .ok ()⟩

/-- A result that may be a fault, without notices. -/
def lift (r : Except Fault β) : Report α β := ⟨[], r⟩

/-- A report that goes on from the result of another. -/
def bind (r : Report α β) (f : β → Report α γ) : Report α γ :=
  match r.outcome with
  | .error e => ⟨r.notices, .error e⟩
  | .ok b =>
    let s := f b
    ⟨r.notices ++ s.notices, s.outcome⟩

instance : Monad (Report α) where
  pure := of
  bind := bind

/-- A report with the depths in its notices replaced. -/
def mapNotices (f : α → γ) (r : Report α β) : Report γ β :=
  ⟨r.notices.map (Notice.map f), r.outcome⟩

end Report

end WireErosion
