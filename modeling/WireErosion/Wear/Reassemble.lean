import WireErosion.Notice
import WireErosion.Wear.Block

/-!
# Putting a program together again

The feeds of the plunge blocks are set by role, and then every handle of a residue is replaced by
its block.

A handle is replaced if a block has its index and it is the first such handle.  Any other handle
becomes the comment that shows it, with a notice.  A plunge that comes after a cut ends at the depth
where that cut ended.  When all handles are dealt with, the blocks that no handle placed are listed
in one notice for each kind.
-/

namespace WireErosion

variable {α : Type}

/-! ## Feeds -/

/-- The feeds of the moves of plunge blocks.  A feed that is missing leaves the field out. -/
structure PlungeFeeds (α : Type) where
  /-- The feed of retracts and zero plunges. -/
  retract : Option α
  /-- The feed of the travel. -/
  travel : Option α
  /-- The feed of the descent. -/
  plunge : Option α
deriving Repr, Inhabited

/-- The feed of a role. -/
def PlungeFeeds.ofRole (feeds : PlungeFeeds α) : PlungeRole → Option α
  | .retract | .zeroPlunge => feeds.retract
  | .travel => feeds.travel
  | .plunge => feeds.plunge

/-- A step as a linear move at the feed of its role.  A step without a role stays as it is. -/
def PlungeStep.refeed (feeds : PlungeFeeds α) (s : PlungeStep α) : Except Fault (PlungeStep α) :=
  match s.role, s.line with
  | none, _ => .ok s
  | some role, .move m =>
    .ok ⟨.move { m with motion := .linear, f := feeds.ofRole role }, some role⟩
  | some _, .comment _ => .error .wrongKind

/-- A block with every step at the feed of its role. -/
def PlungeBlock.refeed (feeds : PlungeFeeds α) (b : PlungeBlock α) : Except Fault (PlungeBlock α) :=
  b.mapM (PlungeStep.refeed feeds)

/-! ## Handles -/

/-- Where the replacing of handles stands. -/
structure Placing (α : Type) where
  /-- The handles that were replaced, last one first. -/
  placed : List Handle
  /-- The depth at the end of the cut that was placed last, if one was placed. -/
  afterCut : Option (Option α)

/-- The lines for a handle that is replaced. -/
def placeBlock (cuts : List (CutBlock α)) (plunges : List (PlungeBlock α)) (s : Placing α)
    (h : Handle) (i : Nat) : Option (Placing α × Except Fault (List (Line α))) :=
  match h.kind with
  | .cut => cuts[i]?.map fun b => (⟨h :: s.placed, some b.lastZ⟩, .ok b.lines)
  | .plunge => plunges[i]?.map fun b =>
    (⟨h :: s.placed, s.afterCut⟩,
      match s.afterCut with
      | none => .ok b.lines
      | some z => b.withTerminalZ z)

/-- Why a handle is not replaced. -/
def Placing.rejection (s : Placing α) (h : Handle) : Rejection :=
  if h ∈ s.placed then .duplicate else .unknown

/-- What a handle is replaced by, `none` if it is rejected. -/
def Placing.place? (cuts : List (CutBlock α)) (plunges : List (PlungeBlock α)) (s : Placing α)
    (h : Handle) : Option (Placing α × Except Fault (List (Line α))) :=
  if h ∈ s.placed then none
  else
    match h.index with
    | .ofNat i => placeBlock cuts plunges s h i
    | .negSucc _ => none

/-- The program of the rest of a residue, and where the replacing stands at its end. -/
def placeFrom (cuts : List (CutBlock α)) (plunges : List (PlungeBlock α)) (s : Placing α) :
    Residue α → Report α (Placing α × Program α)
  | [] => .of (s, [])
  | .line l :: rest =>
    (placeFrom cuts plunges s rest).bind fun (t, p) => .of (t, l :: p)
  | .handle h :: rest =>
    match s.place? cuts plunges h with
    | some (s, lines) =>
      (Report.lift lines).bind fun ls =>
        (placeFrom cuts plunges s rest).bind fun (t, p) => .of (t, ls ++ p)
    | none =>
      (Report.tell (.handleRejected (s.rejection h) h)).bind fun _ =>
        (placeFrom cuts plunges s rest).bind fun (t, p) => .of (t, .comment h.text :: p)

/-- The indices below `count` whose handles of a kind were not replaced. -/
def Placing.unplaced (s : Placing α) (kind : BlockKind) (count : Nat) : List Nat :=
  (List.range count).filter fun i => !(s.placed.contains ⟨kind, i⟩)

/-- The notice on the blocks of a kind that were not placed. -/
def Placing.unplacedNotice (s : Placing α) (kind : BlockKind) (count : Nat) : List (Notice α) :=
  match s.unplaced kind count with
  | [] => []
  | is => [.blocksUnplaced kind is]

/-- A residue with its handles replaced by blocks. -/
def reassemble (rest : Residue α) (cuts : List (CutBlock α)) (plunges : List (PlungeBlock α)) :
    Report α (Program α) :=
  (placeFrom cuts plunges ⟨[], none⟩ rest).bind fun (s, p) =>
    (Report.tellAll (s.unplacedNotice .cut cuts.length
      ++ s.unplacedNotice .plunge plunges.length)).bind fun _ => .of p

end WireErosion
