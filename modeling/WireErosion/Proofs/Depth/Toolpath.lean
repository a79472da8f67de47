import WireErosion.Proofs.Depth.Descent

/-!
# Toolpaths sink

What the compiler makes of paths that do not carry their own depth only goes down, except right
after a retract marker.  The depth that the compiler keeps track of is the one that is commanded,
and this is what each group of moves preserves.

* Runs are cut at or above the depth of the pass, and they rise only onto the tabs, which takes a
  marker (`lands_runLines`).
* A pass is entered at or above the depth that is finished, and left at or above the one it
  finishes, so travel at the start of the next one never rises (`lands_passLines`).
* A path is entered and left at the clearance height (`lands_pathLines`).

`ToolpathParams.compile_sinks` says it of the whole program, after rounding.
-/

namespace WireErosion

open scoped Exact

namespace ToolpathParams

variable {c : ToolpathParams ℝ}

/-! ## Groups of moves -/

theorem lands_retract (a : Option ℝ) (z : ℝ) : Lands a (retractLines z) (some z) :=
  .lift (.inl (by decide)) z

theorem lands_travel (p : Point ℝ) {a z : ℝ} (hle : z ≤ a) :
    Lands (some a) (travelLines p z) (some z) :=
  .comment _ (.level rfl (.lower rfl hle .nil))

theorem lands_cutMoves (hpath : c.usePathZ = false) (z : ℝ) (ps : List (Point ℝ)) :
    Lands (some z) (c.cutMoves ps) (some z) := by
  have hlevel : ∀ p, c.vertexZ p = none := fun p => by rw [vertexZ, hpath]; rfl
  have hrest : ∀ qs : List (Point ℝ), Lands (some z)
      (qs.map fun q => planMove (.linear (some q.x) (some q.y) (c.vertexZ q) none none))
      (some z) := by
    intro qs
    induction qs with
    | nil => exact .nil
    | cons q qs ih => exact .level (hlevel q) ih
  cases ps with
  | nil => exact .nil
  | cons p ps => exact .level (hlevel p) (hrest ps)

/-- The way to the depth of a run sinks, or it rises to the top of the tabs. -/
theorem lands_entryLines (hfeed : 0 < c.descents.plungeFeed) {tabTop fromZ toZ : ℝ} (a : Point ℝ)
    (rest : List (Point ℝ)) (hrise : fromZ < toZ → toZ = tabTop) :
    Lands (some fromZ) (c.entryLines tabTop a rest fromZ toZ) (some toZ) := by
  unfold entryLines
  split_ifs with hdown hup
  · exact lands_descent hfeed a rest hdown
  · rw [hrise hup]
    exact .lift (.inr (by decide)) tabTop
  · rw [le_antisymm (not_lt.mp hdown) (not_lt.mp hup)]
    exact .nil

/-! ## Runs -/

/-- The first run, and those after it. -/
theorem runLines_cons (hpath : c.usePathZ = false) (tabTop next : ℝ) (inside : Bool) (z : ℝ)
    (a : Point ℝ) (rest : List (Point ℝ)) (runs : List (List (Point ℝ))) :
    c.runLines tabTop next inside z ((a :: rest) :: runs) =
      let target := if inside then tabTop else next
      (c.entryLines tabTop a rest z target ++ .ok .cut :: c.cutMoves rest
          ++ (c.runLines tabTop next (!inside) target runs).1,
        (c.runLines tabTop next (!inside) target runs).2) := by
  rw [runLines, hpath]
  simp

/-- One run sinks from the depth before it to its own. -/
theorem lands_run (hpath : c.usePathZ = false) (hfeed : 0 < c.descents.plungeFeed)
    (tabTop : ℝ) {z target : ℝ} (a : Point ℝ) (rest : List (Point ℝ))
    (hrise : z < target → target = tabTop) :
    Lands (some z) (c.entryLines tabTop a rest z target ++ .ok .cut :: c.cutMoves rest)
      (some target) :=
  (lands_entryLines hfeed a rest hrise).append (.comment _ (lands_cutMoves hpath target rest))

/-- The runs of a pass that goes below the top of the tabs. -/
theorem lands_runLines (hpath : c.usePathZ = false) (hfeed : 0 < c.descents.plungeFeed)
    {tabTop next : ℝ} (htop : next ≤ tabTop) : ∀ (runs : List (List (Point ℝ))) (inside : Bool)
      (z : ℝ), next ≤ z →
      Lands (some z) (c.runLines tabTop next inside z runs).1
          (some (c.runLines tabTop next inside z runs).2) ∧
        next ≤ (c.runLines tabTop next inside z runs).2
  | [], _, _, hz => ⟨.nil, hz⟩
  | [] :: runs, inside, z, hz => by
      rw [runLines]
      exact lands_runLines hpath hfeed htop runs (!inside) z hz
  | (a :: rest) :: runs, inside, z, hz => by
      rw [runLines_cons hpath]
      have hrise : z < (if inside then tabTop else next) →
          (if inside then tabTop else next) = tabTop := by
        cases inside with
        | true => exact fun _ => rfl
        | false => exact fun hup => absurd hz (not_le.mpr hup)
      have htarget : next ≤ (if inside then tabTop else next) := by
        cases inside with
        | true => exact htop
        | false => exact le_rfl
      obtain ⟨hlines, hlast⟩ := lands_runLines hpath hfeed htop runs (!inside) _ htarget
      exact ⟨(lands_run hpath hfeed tabTop a rest hrise).append hlines, hlast⟩

/-- The one run of a pass that cuts the whole path. -/
theorem lands_runLines_whole (hpath : c.usePathZ = false) (hfeed : 0 < c.descents.plungeFeed)
    (tabTop : ℝ) {next z : ℝ} (hz : next ≤ z) (whole : List (Point ℝ)) :
    Lands (some z) (c.runLines tabTop next false z [whole]).1
        (some (c.runLines tabTop next false z [whole]).2) ∧
      next ≤ (c.runLines tabTop next false z [whole]).2 := by
  cases whole with
  | nil => exact ⟨.nil, hz⟩
  | cons a rest =>
      rw [runLines_cons hpath]
      have hrun : Lands (some z) _ (some next) :=
        lands_run hpath hfeed tabTop a rest fun hup => absurd hz (not_le.mpr hup)
      exact ⟨hrun.append .nil, le_rfl⟩

/-! ## Passes -/

/-- The depth to which the tool goes rapidly at the start of a pass. -/
def entryZ {α : Type} [Scalar α] (tabs : Option (Tabs α)) (finished : α) : α :=
  match tabs with
  | some t => Scalar.max finished t.top
  | none => finished

/-- The lines of a pass before its first run. -/
def approachLines {α : Type} [Scalar α] (c : ToolpathParams α) (tabs : Option (Tabs α))
    (path : ReadyPath α) (z : α) (pass : Pass α) : List (Planned α) :=
  (if z < c.safeZ ∧ (!path.safeToClose || tabs.isSome) then retractLines c.safeZ else [])
    ++ travelLines path.start (entryZ tabs pass.finished)

/-- The runs of a pass, which are the whole path as long as it stays above the tabs. -/
def passRuns {α : Type} [Scalar α] (c : ToolpathParams α) (tabs : Option (Tabs α))
    (path : ReadyPath α) (pass : Pass α) : List (List (Point α)) :=
  if c.wholeZ tabs ≤ pass.next ∨ c.usePathZ then [path.whole] else path.runs

theorem passLines_eq {α : Type} [Scalar α] (c : ToolpathParams α) (tabs : Option (Tabs α))
    (path : ReadyPath α) (z : α) (pass : Pass α) :
    c.passLines tabs path z pass =
      (c.approachLines tabs path z pass
          ++ (c.runLines (c.wholeZ tabs) pass.next false (entryZ tabs pass.finished)
            (c.passRuns tabs path pass)).1,
        (c.runLines (c.wholeZ tabs) pass.next false (entryZ tabs pass.finished)
          (c.passRuns tabs path pass)).2) := by
  cases tabs <;> rfl

/-- The parameters under which the commanded depth is kept track of. -/
structure Orderly (c : ToolpathParams ℝ) : Prop where
  /-- Paths do not carry their own depth. -/
  flat : c.usePathZ = false
  /-- A pass goes down. -/
  passDepth_pos : 0 < c.passDepth
  /-- Descents move. -/
  plungeFeed_pos : 0 < c.descents.plungeFeed
  /-- The top of the cut is not above the clearance height. -/
  top_le : c.topZ ≤ c.safeZ
  /-- The top of the tabs is not above the clearance height, if tabs are in effect. -/
  tabs_le : ∀ t, c.activeTabs = some t → t.top ≤ c.safeZ

variable {tabs : Option (Tabs ℝ)} {pass : Pass ℝ} {z : ℝ}

theorem le_entryZ (finished : ℝ) : finished ≤ entryZ tabs finished := by
  cases tabs with
  | none => exact le_rfl
  | some t =>
      rw [entryZ, Exact.max_eq]
      exact le_max_left _ _

theorem entryZ_le (hc : c.Orderly) (htabs : c.activeTabs = tabs) {finished : ℝ}
    (hsafe : finished ≤ c.safeZ) : entryZ tabs finished ≤ c.safeZ := by
  cases tabs with
  | none => exact hsafe
  | some t =>
      rw [entryZ, Exact.max_eq]
      exact max_le hsafe (hc.tabs_le t htabs)

/-- The tool goes down to the entry depth.  Where it does not rise first it is high enough, since it
is at the clearance height or there are no tabs. -/
theorem lands_approachLines (hc : c.Orderly) (htabs : c.activeTabs = tabs) (path : ReadyPath ℝ)
    (hsafe : pass.finished ≤ c.safeZ) (hz : pass.finished ≤ z) :
    Lands (some z) (c.approachLines tabs path z pass) (some (entryZ tabs pass.finished)) := by
  have hentry := entryZ_le hc htabs hsafe
  unfold approachLines
  split_ifs with hlow
  · exact (lands_retract _ _).append (lands_travel _ hentry)
  · refine lands_travel _ ?_
    by_cases hsafe_z : z < c.safeZ
    · cases tabs with
      | none => exact hz
      | some t => simp [hsafe_z] at hlow
    · exact hentry.trans (not_lt.mp hsafe_z)

/-- A pass sinks from any depth at or above the finished one, and it ends at or above the depth that
it finishes. -/
theorem lands_passLines (hc : c.Orderly) (htabs : c.activeTabs = tabs) (path : ReadyPath ℝ)
    (hnext : pass.next ≤ pass.finished) (hsafe : pass.finished ≤ c.safeZ)
    (hz : pass.finished ≤ z) :
    Lands (some z) (c.passLines tabs path z pass).1 (some (c.passLines tabs path z pass).2) ∧
      pass.next ≤ (c.passLines tabs path z pass).2 := by
  have happroach := lands_approachLines hc htabs path hsafe hz
  have hentry : pass.next ≤ entryZ tabs pass.finished := hnext.trans (le_entryZ _)
  rw [passLines_eq]
  unfold passRuns
  split_ifs with hwhole
  · obtain ⟨hlines, hlast⟩ := lands_runLines_whole hc.flat hc.plungeFeed_pos
      (c.wholeZ tabs) hentry path.whole
    exact ⟨happroach.append hlines, hlast⟩
  · rw [hc.flat] at hwhole
    have htop : pass.next ≤ c.wholeZ tabs := (not_le.mp (by simpa using hwhole)).le
    obtain ⟨hlines, hlast⟩ := lands_runLines hc.flat hc.plungeFeed_pos htop path.runs false _ hentry
    exact ⟨happroach.append hlines, hlast⟩

/-- A pass goes down, but not below the final depth. -/
theorem passFrom_next {passDepth bottom finished : ℝ} (hpass : 0 < passDepth)
    (hbottom : bottom < finished) :
    (passFrom passDepth bottom finished).next < finished ∧
      bottom ≤ (passFrom passDepth bottom finished).next := by
  rw [passFrom, Exact.max_eq]
  exact ⟨max_lt (by linarith) hbottom, le_max_right _ _⟩

/-- The passes of a path sink one after the other. -/
theorem lands_passesLines (hc : c.Orderly) (htabs : c.activeTabs = tabs) (path : ReadyPath ℝ) :
    ∀ (fuel : Nat) (finished z : ℝ), finished ≤ c.safeZ → finished ≤ z →
      ∃ last, Lands (some z)
        (c.passesLines tabs path z (passesFrom c.passDepth c.bottomZ fuel finished)) (some last)
  | 0, _, z, _, _ => ⟨z, .nil⟩
  | fuel + 1, finished, z, hsafe, hz => by
      rw [passesFrom]
      split
      next hbottom =>
        have hnext := (passFrom_next hc.passDepth_pos hbottom).1.le
        obtain ⟨hlines, hlast⟩ := lands_passLines hc htabs path hnext hsafe hz
        obtain ⟨last, hrest⟩ := lands_passesLines hc htabs path fuel _ _ (hnext.trans hsafe) hlast
        exact ⟨last, hlines.append hrest⟩
      next => exact ⟨z, .nil⟩

/-! ## Paths -/

theorem lands_pathLines (hc : c.Orderly) (htabs : c.activeTabs = tabs) (index : Nat)
    (path : CamPath ℝ) :
    Lands (some c.safeZ) (c.pathLines tabs index path) (some c.safeZ) := by
  unfold pathLines
  split
  next => exact .nil
  next p ps _ =>
    have hpasses : c.passes = schedule c.passDepth c.bottomZ c.topZ := by
      rw [passes, hc.flat]
      simp
    rw [hpasses]
    obtain ⟨last, hlines⟩ := lands_passesLines hc htabs
      ⟨c.convert p, (p :: ps).map c.convert, c.runsOf tabs (p :: ps), path.safeToClose⟩
      _ c.topZ c.safeZ hc.top_le hc.top_le
    exact .comment _ (.comment _ (hlines.append (lands_retract _ _)))

theorem lands_pathsLines (hc : c.Orderly) (htabs : c.activeTabs = tabs) :
    ∀ (index : Nat) (paths : List (CamPath ℝ)),
      Lands (some c.safeZ) (c.pathsLines tabs index paths) (some c.safeZ)
  | _, [] => .nil
  | index, path :: paths =>
    (lands_pathLines hc htabs index path).append (lands_pathsLines hc htabs (index + 1) paths)

/-- The plan of a toolpath sinks to the clearance height. -/
theorem lands_plan (hc : c.Orderly) (paths : List (CamPath ℝ)) :
    Lands none (c.plan paths) (some c.safeZ) :=
  (lands_retract none c.safeZ).append (lands_pathsLines hc rfl 0 paths)

/-- Paths that do not carry their own depth compile, and at every move of the program the commanded
depth goes down or stays, except at the move right after a retract marker.  So the depth check finds
nothing. -/
theorem compile_sinks {r : ℝ → ℝ} (hround : IsRounding c.round r) (hc : c.Orderly)
    (paths : List (CamPath ℝ)) :
    ∃ p, c.compile paths = .ok p ∧
      (∀ pre m post, p = pre ++ .move m :: post →
        (∃ l ∈ pre.getLast?, l.IsRetract) ∨
          ∃ before after, depthAfter none pre = some before ∧
            depthAfter none (pre ++ [.move m]) = some after ∧ after ≤ before) ∧
      ∀ most, (checkDepth most p).outcome = .ok ⟨0, []⟩ := by
  obtain ⟨ls, hplan, hsinks⟩ := lands_plan hc paths
  have hrounded := hsinks.mapNumbers hround.mono
  exact ⟨_, compile_eq hround hplan, fun _ _ _ hp => hrounded.at_move hp,
    hrounded.outcome_checkDepth⟩

end ToolpathParams

/-- The distance of a vertex and a position in the plane. -/
noncomputable def planeDistance (a : Point ℝ) (hit : ℝ × ℝ) : ℝ :=
  √((hit.1 - a.x) ^ 2 + (hit.2 - a.y) ^ 2)

/-- A region by its inside and by where segments meet its border.  A position on a segment is as far
along it as it is from its start. -/
noncomputable def planeRegion (covers : ℝ → ℝ → Bool)
    (crossings : Point ℝ → Point ℝ → List (ℝ × ℝ)) : TabRegion ℝ where
  covers := covers
  crossings := crossings
  length a b := planeDistance a (b.x, b.y)
  project a _ := planeDistance a

/-- The whole plane. -/
noncomputable def everywhere : TabRegion ℝ := planeRegion (fun _ _ => true) fun _ _ => []

/-- A ramped toolpath in three passes with tabs, rounded to three places. -/
noncomputable def tabbedToolpath : ToolpathParams ℝ where
  topZ := 0
  bottomZ := -5
  safeZ := 5
  passDepth := 2
  descents := ⟨true, 60, 200, none⟩
  lengthScale := 1
  usePathZ := false
  offsetX := 0
  offsetY := 0
  tabs := some everywhere
  tabZ := some (-3)
  round := Scalar.roundTo 3

/-- A ramped path inside a tab goes down move by move. -/
theorem tabbedToolpath_compile_sinks :
    tabbedToolpath.Orderly ∧ ∃ p, tabbedToolpath.compile [⟨[⟨0, 0, 0⟩, ⟨9, 0, 0⟩], true⟩] = .ok p ∧
      (∀ pre m post, p = pre ++ .move m :: post →
        (∃ l ∈ pre.getLast?, l.IsRetract) ∨
          ∃ before after, depthAfter none pre = some before ∧
            depthAfter none (pre ++ [.move m]) = some after ∧ after ≤ before) ∧
      ∀ most, (checkDepth most p).outcome = .ok ⟨0, []⟩ := by
  have horderly : tabbedToolpath.Orderly := by
    refine ⟨rfl, by norm_num [tabbedToolpath], by norm_num [tabbedToolpath],
      by norm_num [tabbedToolpath], fun t ht => ?_⟩
    have htop : t.top = -3 := by
      norm_num [ToolpathParams.activeTabs, tabbedToolpath] at ht
      rw [← ht]
    rw [htop]
    norm_num [tabbedToolpath]
  exact ⟨horderly, ToolpathParams.compile_sinks (isRounding_roundTo 3) horderly _⟩

end WireErosion
