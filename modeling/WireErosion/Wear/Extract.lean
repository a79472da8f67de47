import WireErosion.Wear.Block

/-!
# Taking a program apart

First the cut blocks are pulled out of a program, then the plunge blocks out of what is left.
Every block leaves its handle at the place where it began, and all other lines stay as they are.
So putting the blocks back in the place of their handles gives the program again.

A cut block starts at a cut marker and goes on as long as the lines are moves.

A plunge block starts at a retract marker.  A phase says what the block can take next.

* `started`: the retract move, or what `header` takes.
* `header`: blank lines and path markers, then the marker of the travel, of a plunge or of a ramp.
* `travelling`: rapid moves, then the marker of a plunge or of a ramp.  The first one with a
  position in the plane is the travel, and those without one after it are zero plunges.
* `plunging`: the move of the descent, which is the last line.
* `ramping`: all moves that follow, the last of which finishes the descent.
* `finished`: nothing.

The block ends before the first line that it cannot take.
-/

namespace WireErosion

variable {α : Type}

/-! ## Cut blocks -/

/-- The cut blocks of the rest of a program, where `n` blocks came before and `inside` says whether
one of them is still open.  Returns the moves that belong to the open block, the further blocks,
and what is left. -/
def cutsFrom (n : Nat) (inside : Bool) :
    Program α → List (Line α) × List (CutBlock α) × Residue α
  | [] => ([], [], [])
  | l :: ls =>
    if l.kind = .cut then
      let (block, blocks, rest) := cutsFrom (n + 1) true ls
      ([], ⟨l :: block, none⟩ :: blocks, .handle ⟨.cut, n⟩ :: rest)
    else if inside && l.isMove then
      let (block, blocks, rest) := cutsFrom n true ls
      (l :: block, blocks, rest)
    else
      let (_, blocks, rest) := cutsFrom n false ls
      ([], blocks, .line l :: rest)

/-- The cut blocks of a program, and what is left of it. -/
def extractCuts (p : Program α) : List (CutBlock α) × Residue α := (cutsFrom 0 false p).2

/-! ## Plunge blocks -/

/-- How far a plunge block has come. -/
inductive Phase where
  /-- The retract marker was read. -/
  | started
  /-- The retract move was read. -/
  | header
  /-- The marker of the travel was read, and perhaps a move in the plane. -/
  | travelling (travelled : Bool)
  /-- The marker of a plunge was read. -/
  | plunging
  /-- The marker of a ramp was read. -/
  | ramping
  /-- The block is complete. -/
  | finished
deriving Repr, DecidableEq, Inhabited

namespace Phase

/-- The phase after the marker of a descent. -/
def descent? : LineKind → Option Phase
  | .plunge => some .plunging
  | .ramp => some .ramping
  | _ => none

/-- The phase after a comment that a block takes between its retract and its travel. -/
def header? (text : String) : Option Phase :=
  if Comment.isBlank text then some .header
  else
    match Comment.kind text with
    | .path => some .header
    | .rapidToStart => some (.travelling false)
    | k => descent? k

/-- The role of a rapid move of the travel, given whether a move in the plane came before. -/
def travelRole (travelled : Bool) (m : Move α) : Option PlungeRole :=
  if m.hasXY && !travelled then some .travel
  else if !m.hasXY && travelled then some .zeroPlunge
  else none

/-- What becomes of a line in a phase: the role that it gets in the block and the phase after it,
or `none` if the block ends before it.  `more` says whether another move follows. -/
def take? (phase : Phase) (l : Line α) (more : Bool) : Option (Option PlungeRole × Phase) :=
  match phase, l with
  | .started, .move _ => some (some .retract, .header)
  | .started, .comment t | .header, .comment t => (header? t).map (none, ·)
  | .header, .move _ => none
  | .travelling travelled, .move m =>
    match m.motion with
    | .rapid => some (travelRole travelled m, .travelling (travelled || m.hasXY))
    | .linear => none
  | .travelling _, .comment t => (descent? (Comment.kind t)).map (none, ·)
  | .plunging, .move _ => some (some .plunge, .finished)
  | .plunging, .comment _ => none
  | .ramping, .move _ => some (if more then none else some .plunge, .ramping)
  | .ramping, .comment _ => none
  | .finished, _ => none

end Phase

/-- Whether a residue starts with a move. -/
def startsWithMove : Residue α → Bool
  | [] => false
  | r :: _ => r.isMove

/-- What a block that is in a phase makes of the next line of a residue. -/
def taken? (phase : Option Phase) (r : Residual α) (rest : Residue α) :
    Option (PlungeStep α × Phase) :=
  match phase, r with
  | some ph, .line l => (ph.take? l (startsWithMove rest)).map fun (role, ph) => (⟨l, role⟩, ph)
  | _, _ => none

/-- The plunge blocks of the rest of a residue, where `n` blocks came before and `phase` is that of
the last one, if it is still open.  Returns the steps that belong to the open block, the further
blocks, and what is left. -/
def plungesFrom (n : Nat) (phase : Option Phase) :
    Residue α → PlungeBlock α × List (PlungeBlock α) × Residue α
  | [] => ([], [], [])
  | r :: rest =>
    match taken? phase r rest with
    | some (step, phase) =>
      let (block, blocks, rest) := plungesFrom n (some phase) rest
      (step :: block, blocks, rest)
    | none =>
      match r with
      | .line l =>
        if l.kind = .retract then
          let (block, blocks, rest) := plungesFrom (n + 1) (some .started) rest
          ([], (⟨l, none⟩ :: block) :: blocks, .handle ⟨.plunge, n⟩ :: rest)
        else
          let (_, blocks, rest) := plungesFrom n none rest
          ([], blocks, .line l :: rest)
      | .handle h =>
        let (_, blocks, rest) := plungesFrom n none rest
        ([], blocks, .handle h :: rest)

/-- The plunge blocks of a residue, and what is left of it. -/
def extractPlunges (r : Residue α) : List (PlungeBlock α) × Residue α := (plungesFrom 0 none r).2

end WireErosion
