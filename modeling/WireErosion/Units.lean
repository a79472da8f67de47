import WireErosion.Number.Scalar

/-!
# Units

Programs, depths and operations are in millimetres.  Cam paths and tab regions are in *internal
units*, of which there are `internalScale` in a millimetre.  Feeds are given by the minute or by
the second and are compiled by the minute.
-/

namespace WireErosion

variable {α : Type} [Scalar α]

/-! ## Lengths -/

/-- How many internal units there are in a millimetre. -/
def internalScale : α := 100000.0 / 25.4

/-- Millimetres in internal units. -/
def toInternal (length : α) : α := length * internalScale

/-- Internal units in millimetres. -/
def fromInternal (length : α) : α := length / internalScale

/-! ## Feeds -/

/-- The time that a feed is given by. -/
inductive FeedUnit where
  /-- The minute. -/
  | perMinute
  /-- The second. -/
  | perSecond
deriving Repr, DecidableEq, Inhabited

/-- The name of a feed unit. -/
def FeedUnit.name : FeedUnit → String
  | .perMinute => "mm/min"
  | .perSecond => "mm/s"

/-- All feed units. -/
def FeedUnit.all : List FeedUnit := [.perMinute, .perSecond]

/-- The feed unit of a name. -/
def FeedUnit.named? (s : String) : Option FeedUnit := FeedUnit.all.find? fun u => u.name == s

/-- The feed by the minute that one unit of a feed is. -/
def FeedUnit.minuteScale : FeedUnit → α
  | .perMinute => 1.0
  | .perSecond => 60.0

/-- A feed by the minute. -/
def FeedUnit.toPerMinute (unit : FeedUnit) (feed : α) : α :=
  match unit with
  | .perMinute => feed
  | .perSecond => feed * 60.0

end WireErosion
