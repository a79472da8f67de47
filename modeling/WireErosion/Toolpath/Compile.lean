import WireErosion.Path.Split
import WireErosion.Toolpath.Descent
import WireErosion.Toolpath.Schedule

/-!
# Toolpaths

Cam paths become a program with a marker before every group of moves.

A path is cut pass by pass.  In each pass the tool travels to the first vertex and goes rapidly
down to the depth that is finished, or to the top of the tabs if that is higher.  Then it cuts,
either the whole path or, once the pass goes below the top of the tabs, the runs outside and
inside the tabs in turn.  Before a run it descends to the depth of the run, which inside the tabs
is their top, or rises to that.

The tool rises to the clearance height between paths.  Between the passes of a path it does so
too, if the path has tabs or may not be closed.

Paths that carry their own depth are cut in one pass, without descents.

Tabs are in effect if they have a top above the final depth.
-/

namespace WireErosion

variable {α : Type}

/-! ## Parameters -/

/-- The parameters of a toolpath, in the units of the program. -/
structure ToolpathParams (α : Type) where
  /-- The top of the cut. -/
  topZ : α
  /-- The final depth. -/
  bottomZ : α
  /-- The clearance height. -/
  safeZ : α
  /-- The depth of one pass. -/
  passDepth : α
  /-- The feeds and the shape of the descents. -/
  descents : DescentParams α
  /-- The length of an internal unit. -/
  lengthScale : α
  /-- Whether the paths carry their own depth. -/
  usePathZ : Bool
  /-- How far the program is moved along the first axis. -/
  offsetX : α
  /-- How far the program is moved along the second axis. -/
  offsetY : α
  /-- The region of the tabs, if there are any. -/
  tabs : Option (TabRegion α)
  /-- The top of the tabs. -/
  tabZ : Option α
  /-- How coordinates, depths and feeds are rounded. -/
  round : α → Except Fault α

/-- The tabs that a toolpath heeds. -/
structure Tabs (α : Type) where
  /-- Their region. -/
  region : TabRegion α
  /-- Their top. -/
  top : α

variable [Scalar α]

namespace ToolpathParams

/-- The tabs that are in effect. -/
def activeTabs (c : ToolpathParams α) : Option (Tabs α) :=
  match c.tabZ, c.tabs with
  | some z, some region => if z ≤ c.bottomZ then none else some ⟨region, z⟩
  | _, _ => none

/-- The depth down to which paths are cut whole. -/
def wholeZ (c : ToolpathParams α) (tabs : Option (Tabs α)) : α :=
  match tabs with
  | some t => t.top
  | none => c.bottomZ

/-- A vertex in the units of the program. -/
def convert (c : ToolpathParams α) (p : Point α) : Point α :=
  ⟨p.x * c.lengthScale + c.offsetX, p.y * c.lengthScale + c.offsetY,
    p.z * c.lengthScale + c.topZ⟩

/-- The passes of a path. -/
def passes (c : ToolpathParams α) : List (Pass α) :=
  if c.usePathZ then [passFrom c.passDepth c.bottomZ c.topZ]
  else schedule c.passDepth c.bottomZ c.topZ

/-- The depth of a vertex, if paths carry their own depth. -/
def vertexZ (c : ToolpathParams α) (p : Point α) : Option α := if c.usePathZ then some p.z else none

end ToolpathParams

/-! ## Groups of moves -/

/-- A rapid move along the depth. -/
def rapidToZ (z : α) : Planned α := planMove (.rapid none none (some z))

/-- The rise to the clearance height. -/
def retractLines (z : α) : List (Planned α) := [.ok .retract, rapidToZ z]

/-- The travel to a vertex and down to a depth. -/
def travelLines (p : Point α) (z : α) : List (Planned α) :=
  [.ok .rapidToStart, planMove (.rapid (some p.x) (some p.y) none), rapidToZ z]

namespace ToolpathParams

/-- The moves through the vertices of a run after its first one. -/
def cutMoves (c : ToolpathParams α) : List (Point α) → List (Planned α)
  | [] => []
  | p :: ps =>
    planMove (.linear (some p.x) (some p.y) (c.vertexZ p) (some c.descents.cutFeed)
        c.descents.toolSpeed)
      :: ps.map fun q => planMove (.linear (some q.x) (some q.y) (c.vertexZ q) none none)

/-- The way from one depth to that of the run `a :: rest`. -/
def entryLines (c : ToolpathParams α) (tabTop : α) (a : Point α) (rest : List (Point α))
    (fromZ toZ : α) : List (Planned α) :=
  if toZ < fromZ then descent c.descents a rest fromZ toZ
  else if fromZ < toZ then [.ok .retractForTab, rapidToZ tabTop]
  else []

/-- The lines of some runs, the first one inside the tabs if `inside` and then taking turns, where
`z` is the depth before them and `next` the depth of the pass.  Returns the depth after them too. -/
def runLines (c : ToolpathParams α) (tabTop next : α) (inside : Bool) (z : α) :
    List (List (Point α)) → List (Planned α) × α
  | [] => ([], z)
  | [] :: runs => c.runLines tabTop next (!inside) z runs
  | (a :: rest) :: runs =>
    let target := if inside then tabTop else next
    let entry := if c.usePathZ then [] else c.entryLines tabTop a rest z target
    let (lines, last) :=
      c.runLines tabTop next (!inside) (if c.usePathZ then z else target) runs
    (entry ++ .ok .cut :: c.cutMoves rest ++ lines, last)

end ToolpathParams

/-! ## Passes -/

/-- A path that is ready to be cut. -/
structure ReadyPath (α : Type) where
  /-- The first vertex. -/
  start : Point α
  /-- The vertices. -/
  whole : List (Point α)
  /-- The runs outside and inside the tabs in turn. -/
  runs : List (List (Point α))
  /-- Whether the tool may go back to the start without rising first. -/
  safeToClose : Bool

namespace ToolpathParams

/-- The lines of one pass, where `z` is the depth before it, and the depth after it. -/
def passLines (c : ToolpathParams α) (tabs : Option (Tabs α)) (path : ReadyPath α) (z : α)
    (pass : Pass α) : List (Planned α) × α :=
  let rise := z < c.safeZ ∧ (!path.safeToClose || tabs.isSome)
  let startZ := match tabs with
    | some t => Scalar.max pass.finished t.top
    | none => pass.finished
  let wholeZ := c.wholeZ tabs
  let runs := if wholeZ ≤ pass.next ∨ c.usePathZ then [path.whole] else path.runs
  let (lines, last) := c.runLines wholeZ pass.next false startZ runs
  ((if rise then retractLines c.safeZ else []) ++ travelLines path.start startZ ++ lines, last)

/-- The lines of some passes, where `z` is the depth before them. -/
def passesLines (c : ToolpathParams α) (tabs : Option (Tabs α)) (path : ReadyPath α) (z : α) :
    List (Pass α) → List (Planned α)
  | [] => []
  | pass :: rest =>
    let (lines, last) := c.passLines tabs path z pass
    lines ++ c.passesLines tabs path last rest

/-! ## Paths -/

/-- The runs of a path in the units of the program. -/
def runsOf (c : ToolpathParams α) (tabs : Option (Tabs α)) (points : List (Point α)) :
    List (List (Point α)) :=
  match tabs with
  | some t => (splitRuns t.region points).map fun run => run.map c.convert
  | none => [points.map c.convert]

/-- The lines of the path with the given index. -/
def pathLines (c : ToolpathParams α) (tabs : Option (Tabs α)) (index : Nat) (path : CamPath α) :
    List (Planned α) :=
  match path.points with
  | [] => []
  | p :: ps =>
    let ready : ReadyPath α :=
      ⟨c.convert p, (p :: ps).map c.convert, c.runsOf tabs (p :: ps), path.safeToClose⟩
    .ok .blank :: .ok (.pathStart index) :: c.passesLines tabs ready c.safeZ c.passes
      ++ retractLines c.safeZ

/-- The lines of some paths, the first one with the given index. -/
def pathsLines (c : ToolpathParams α) (tabs : Option (Tabs α)) (index : Nat) :
    List (CamPath α) → List (Planned α)
  | [] => []
  | path :: rest => c.pathLines tabs index path ++ c.pathsLines tabs (index + 1) rest

/-- The lines of a toolpath, before they are rounded. -/
def plan (c : ToolpathParams α) (paths : List (CamPath α)) : List (Planned α) :=
  retractLines c.safeZ ++ c.pathsLines c.activeTabs 0 paths

end ToolpathParams

/-! ## Rounding -/

/-- A field rounded, if it is present. -/
def roundField {α : Type} (round : α → Except Fault α) : Option α → Except Fault (Option α)
  | none => .ok none
  | some v => (round v).map some

/-- A line with its coordinates and its feed rounded.  The speed stays as it is. -/
def Line.round {α : Type} (round : α → Except Fault α) : Line α → Except Fault (Line α)
  | .comment text => .ok (.comment text)
  | .move m => do
    let x ← roundField round m.x
    let y ← roundField round m.y
    let z ← roundField round m.z
    let f ← roundField round m.f
    return .move { m with x, y, z, f }

/-- The program of some paths. -/
def ToolpathParams.compile (c : ToolpathParams α) (paths : List (CamPath α)) :
    Except Fault (Program α) :=
  (c.plan paths).mapM fun l => l.bind (Line.round c.round)

end WireErosion
