import WireErosion.Notice
import WireErosion.Program.Line

/-!
# The depth check

While a program cuts, the commanded depth should only go down.  The check looks at the lines after
the first travel marker and reports every move with a depth above that of the move before it.  A
retract marker, of either kind, ends the comparison, and so does a move without a depth.

At most a given number of rises are kept and reported one by one.  If there are more, one further
notice gives the total.
-/

namespace WireErosion

variable {α : Type}

/-- A move whose depth is above the depth before it. -/
structure Rise (α : Type) where
  /-- The index of the line in the program. -/
  line : Nat
  /-- The depth before. -/
  before : α
  /-- The depth of the move. -/
  after : α
  /-- The move. -/
  move : Move α
deriving Repr, Inhabited

/-- The result of the depth check. -/
structure DepthCheck (α : Type) where
  /-- How many rises there are. -/
  count : Nat
  /-- The rises that are reported. -/
  reported : List (Rise α)
deriving Repr, Inhabited

/-- The rise at a move, if the depth before it is known and lower. -/
def riseAt? [Scalar α] (i : Nat) (before : Option α) (m : Move α) : Option (Rise α) :=
  match before, m.z with
  | some a, some b => if a < b then some ⟨i, a, b, m⟩ else none
  | _, _ => none

/-- The rises in the rest of a program, where `i` is the index of its first line and `before` the
depth that a move there is compared with. -/
def risesFrom [Scalar α] (i : Nat) (before : Option α) : Program α → List (Rise α)
  | [] => []
  | .comment t :: ls =>
    let reset := Comment.kind t = .retract ∨ Comment.kind t = .retractForTab
    risesFrom (i + 1) (if reset then none else before) ls
  | .move m :: ls => (riseAt? i before m).toList ++ risesFrom (i + 1) m.z ls

/-- The part of a program after its first travel marker, with the index of its first line, where
`i` is the index of the first line of the program. -/
def bodyFrom (i : Nat) : Program α → Option (Nat × Program α)
  | [] => none
  | l :: ls => if l.kind = .rapidToStart then some (i + 1, ls) else bodyFrom (i + 1) ls

/-- The number of rises that are reported one by one unless another one is asked for. -/
def defaultReported : Int := 50

/-- The notices on rises of which `count` were found. -/
def riseNotices (most : Int) (count : Nat) (rises : List (Rise α)) : List (Notice α) :=
  rises.map (fun r => .depthRises r.line r.before r.after)
    ++ if most < count then [.depthTotal count most] else []

/-- The depth check of a program, reporting at most `most` rises. -/
def checkDepth [Scalar α] (most : Int) (p : Program α) : Report α (DepthCheck α) :=
  match bodyFrom 0 p with
  | none => .of ⟨0, []⟩
  | some (i, body) =>
    let rises := risesFrom i none body
    let reported := rises.take most.toNat
    (Report.tellAll (riseNotices most rises.length reported)).bind fun _ =>
      .of ⟨rises.length, reported⟩

end WireErosion
