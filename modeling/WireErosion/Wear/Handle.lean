/-!
# Block handles

While a program is taken apart, each block that was pulled out of it leaves a handle behind: the
kind of the block and its index among the blocks of that kind.  A handle is shown as a comment.
Handles can also come from outside, so an index may be any integer.
-/

namespace WireErosion

/-- The kinds of blocks that are pulled out of a program. -/
inductive BlockKind where
  /-- The moves that cut. -/
  | cut
  /-- The moves from a retract to the next descent. -/
  | plunge
deriving Repr, DecidableEq, Inhabited

/-- The name of a kind of block. -/
def BlockKind.name : BlockKind → String
  | .cut => "cut"
  | .plunge => "plunge"

/-- The place of a block that was pulled out of a program. -/
structure Handle where
  /-- The kind of the block. -/
  kind : BlockKind
  /-- Its index among the blocks of that kind. -/
  index : Int
deriving Repr, DecidableEq, Inhabited

/-- The comment that shows a handle. -/
def Handle.text (h : Handle) : String := "; add " ++ h.kind.name ++ " " ++ toString h.index

/-- Why a handle is not replaced by a block. -/
inductive Rejection where
  /-- No block has its index. -/
  | unknown
  /-- Its block was placed before. -/
  | duplicate
deriving Repr, DecidableEq, Inhabited

/-- The name of a rejection. -/
def Rejection.name : Rejection → String
  | .unknown => "unknown"
  | .duplicate => "duplicate"

end WireErosion
