import WireErosion.Proofs.Ordered
import WireErosion.Proofs.Toolpath.Group
import WireErosion.Proofs.Toolpath.Schedule

/-!
# Travel at the clearance height

Where in a compiled program the tool travels in the plane, and at which height it is then.

The `Landmark`s of a program are its groups without the moves, except for the depths of its rises.
`ToolpathParams.Approached` says of the landmarks before a travel that the tool rose last, or that
it goes back to the start of a path that it may close.  Every travel of a compiled program is
approached (`ToolpathParams.clear_of_emitsPaths`).  What matters is that the depth which the
compiler keeps track of is below the clearance height after each pass but the last one of a path,
so that the tool rises before the next one unless it may stay down.
-/

namespace WireErosion

variable {α : Type}

/-- What travel depends on in a group. -/
inductive Landmark (α : Type) where
  /-- A rise to a depth. -/
  | rise (z : Option α)
  /-- The header of a path, with its index. -/
  | header (index : Nat)
  /-- A travel. -/
  | travel
  /-- Anything else. -/
  | other

namespace MoveGroup

/-- The landmark of a group. -/
def landmark : MoveGroup α → Landmark α
  | .retract m => .rise m.z
  | .header i => .header i
  | .travel _ _ => .travel
  | _ => .other

/-- Only travel names a position in the plane while it is rapid, or comes after a travel marker, and
it leaves the depth alone. -/
def Shaped : MoveGroup α → Prop
  | .retract m => m.hasXY = false
  | .header _ => True
  | .travel t d => t.z = none ∧ d.hasXY = false
  | .plunge m => m.hasXY = false
  | .ramp way last => ∀ m ∈ way ++ [last], m.motion = .linear
  | .ontoTab m => m.hasXY = false
  | .cut ms => ∀ m ∈ ms, m.motion = .linear

end MoveGroup

theorem RoundsMove.z_eq_none {round : α → Except Fault α} {m m' : Move α}
    (h : RoundsMove round m m') (hz : m.z = none) : m'.z = none := by
  have hround := h.z
  rw [hz] at hround
  exact roundField_eq_none hround

variable [Scalar α]

namespace ToolpathParams

variable {c : ToolpathParams α} {paths : List (CamPath α)} {s : α}

/-! ## Approached travel -/

/-- The last landmark but for the header of a path is a rise to a depth. -/
def Risen (s : α) (ks : List (Landmark α)) : Prop :=
  ∃ before, ks = before ++ [.rise (some s)] ∨ ∃ i, ks = before ++ [.rise (some s), .header i]

/-- Some landmarks after which the tool may travel: it rose last, or there are no tabs and it was at
the start of the same path before, which it may close. -/
def Approached (c : ToolpathParams α) (paths : List (CamPath α)) (s : α)
    (ks : List (Landmark α)) : Prop :=
  Risen s ks ∨
    c.activeTabs = none ∧ ∃ (i : Nat) (path : CamPath α) (before mid : List (Landmark α)),
      ks = before ++ .header i :: mid ∧ (∀ j, .header j ∉ mid) ∧ .travel ∈ mid ∧
      paths[i]? = some path ∧ path.safeToClose = true

/-- All travel among the landmarks `ks` is approached, where `pre` are the landmarks before. -/
def Clear (c : ToolpathParams α) (paths : List (CamPath α)) (s : α)
    (pre ks : List (Landmark α)) : Prop :=
  ∀ before after, ks = before ++ .travel :: after → c.Approached paths s (pre ++ before)

theorem Clear.append {pre ks ks' : List (Landmark α)} (h : c.Clear paths s pre ks)
    (h' : c.Clear paths s (pre ++ ks) ks') : c.Clear paths s pre (ks ++ ks') := by
  intro before after heq
  rcases List.append_eq_append_iff.mp heq with ⟨mid, rfl, hmid⟩ | ⟨mid, rfl, hmid⟩
  · rw [← List.append_assoc]
    exact h' mid after hmid
  · cases mid with
    | nil =>
        have hstart := h' [] after hmid.symm
        simpa using hstart
    | cons k mid =>
        obtain ⟨rfl, -⟩ := List.cons_eq_cons.mp hmid
        exact h before mid rfl

theorem Clear.of_quiet {pre ks : List (Landmark α)} (h : .travel ∉ ks) :
    c.Clear paths s pre ks := by
  rintro before after rfl
  simp at h

/-! ## Runs -/

/-- A group of a run: it neither rises to the clearance height nor travels. -/
def RunGroup (g : MoveGroup α) : Prop := g.landmark = .other ∧ g.Shaped ∧ g.Regular

theorem EmitsEntry.runGroup {tabTop fromZ toZ : α} {a : Point α} {rest : List (Point α)}
    {gs : List (MoveGroup α)} (h : c.EmitsEntry tabTop a rest fromZ toZ gs) :
    ∀ g ∈ gs, RunGroup g := by
  intro g hg
  cases h with
  | level => cases hg
  | ontoTab _ _ hm =>
      rw [List.mem_singleton] at hg
      exact hg ▸ ⟨rfl, hm.hasXY, trivial⟩
  | plunge _ hm =>
      rw [List.mem_singleton] at hg
      exact hg ▸ ⟨rfl, hm.hasXY, trivial⟩
  | ramp _ _ _ hmoves =>
      rw [List.mem_singleton] at hg
      exact hg ▸ ⟨rfl, fun m hm => (hmoves m hm).1, trivial⟩

omit [Scalar α] in
theorem linear_of_feedsTo {rest : List (Point α)} {ms : List (Move α)}
    (h : List.Forall₂ c.FeedsTo rest ms) : ∀ m ∈ ms, m.motion = .linear := by
  induction h with
  | nil => simp
  | cons hm _ ih =>
      intro m hmem
      rcases List.mem_cons.mp hmem with rfl | hmem
      · exact hm.motion
      · exact ih m hmem

theorem EmitsRuns.runGroup {tabTop next z last : α} {inside : Bool} {runs : List (List (Point α))}
    {legs : List (List (MoveGroup α))} (h : c.EmitsRuns tabTop next inside z runs legs last) :
    ∀ g ∈ legs.flatten, RunGroup g :=
  h.forall_groups EmitsEntry.runGroup fun hms => ⟨rfl, linear_of_feedsTo hms, trivial⟩

/-- The depth after some runs is that of a run, or there was nothing to cut. -/
theorem EmitsRuns.last_eq (hpath : c.usePathZ = false) {tabTop next z last : α} {inside : Bool}
    {runs : List (List (Point α))} {legs : List (List (MoveGroup α))}
    (h : c.EmitsRuns tabTop next inside z runs legs last) :
    last = next ∨ last = tabTop ∨ last = z ∧ ∀ run ∈ runs, run = [] := by
  induction h with
  | done => exact .inr (.inr ⟨rfl, by simp⟩)
  | skip _ ih =>
      rcases ih with h | h | ⟨h, hruns⟩
      · exact .inl h
      · exact .inr (.inl h)
      · exact .inr (.inr ⟨h, by simpa using hruns⟩)
  | @cut inside z last a rest runs entry ms legs _ _ _ ih =>
      rw [if_neg (by simp [hpath])] at ih
      rcases ih with h | h | ⟨h, -⟩
      · exact .inl h
      · exact .inr (.inl h)
      · cases inside with
        | true => exact .inr (.inl h)
        | false => exact .inl h

theorem exists_run_of_splitFrom (region : TabRegion α) (inside : Bool)
    (piece : Point α × Point α) (pieces : List (Point α × Point α)) :
    ∃ run ∈ (splitFrom region inside false (piece :: pieces)).1
      :: (splitFrom region inside false (piece :: pieces)).2, run ≠ [] := by
  obtain ⟨a, b⟩ := piece
  rw [splitFrom]
  split
  · exact ⟨_, List.mem_cons_self .., by simp⟩
  · exact ⟨_, List.mem_cons_of_mem _ (List.mem_cons_self ..), by simp⟩

theorem exists_run_ne_nil (region : TabRegion α) {points : List (Point α)} (h : points ≠ []) :
    ∃ run ∈ splitRuns region points, run ≠ [] := by
  rw [splitRuns]
  split
  next => exact ⟨points, List.mem_singleton_self _, h⟩
  next hlength =>
    match points, h, hlength with
    | [_], _, hlength => simp at hlength
    | a :: b :: ps, _, _ =>
        have hpieces : ∃ piece pieces, pathPieces region (a :: b :: ps) = piece :: pieces := by
          rw [pathPieces, segmentPieces]
          split
          · exact ⟨_, _, rfl⟩
          · cases (breakWays region a b).map (pointAt a b) <;> exact ⟨_, _, rfl⟩
        obtain ⟨piece, pieces, hpieces⟩ := hpieces
        rw [hpieces]
        exact exists_run_of_splitFrom region false piece pieces

/-- A pass has something to cut. -/
theorem exists_passRun_ne_nil (tabs : Option (Tabs α)) {p : Point α} {path : CamPath α}
    (h : path.points ≠ []) (pass : Pass α) :
    ∃ run ∈ c.passRuns tabs (c.ready tabs p path) pass, run ≠ [] := by
  have hmap : path.points.map c.convert ≠ [] := by simpa using h
  rw [passRuns]
  split
  next => exact ⟨_, List.mem_singleton_self _, hmap⟩
  next =>
    cases tabs with
    | none => exact ⟨_, List.mem_singleton_self _, hmap⟩
    | some t =>
        obtain ⟨run, hrun, hne⟩ := exists_run_ne_nil t.region h
        exact ⟨run.map c.convert, List.mem_map_of_mem hrun, by simpa using hne⟩

/-! ## Passes -/

/-- Every pass goes down, unless it is the last one.  If the pass depth is positive then that can
only fail where a step is lost in rounding, so that it would be made again and again. -/
def Progresses (c : ToolpathParams α) : Prop :=
  c.usePathZ = false → ∀ pass ∈ c.passes, c.bottomZ < pass.next → pass.next < pass.finished

/-- In exact arithmetic a positive pass depth is enough. -/
theorem progresses_of_pos {c : ToolpathParams ℝ} (hpass : 0 < c.passDepth) : c.Progresses := by
  intro hflat pass hmem _
  rw [passes_of_flat hflat] at hmem
  exact next_lt_of_mem_passesFrom hpass hmem

/-- What is known before a pass over the path with an index, where `z` is the depth.  The header of
the path came before, and the tool rose last or it is below the clearance height and was at the
start of the path. -/
def Ready (c : ToolpathParams α) (s : α) (i : Nat) (z : α) (ks : List (Landmark α)) : Prop :=
  ∃ before mid, ks = before ++ .header i :: mid ∧ (∀ j, .header j ∉ mid) ∧
    (Risen s ks ∨ z < c.safeZ ∧ .travel ∈ mid)

section

variable {tabs : Option (Tabs α)}

omit [Scalar α] in
theorem RisesBy.z_eq (hs : c.round c.safeZ = .ok s) {m : Move α} (h : c.RisesBy m) :
    m.z = some s := by
  obtain ⟨u, hu, hz⟩ := roundField_eq_some h.z
  rw [hs] at hu
  cases hu
  exact hz

omit [Scalar α] in
theorem landmark_legs {gs : List (MoveGroup α)} (h : ∀ g ∈ gs, RunGroup g) :
    ∀ k ∈ gs.map MoveGroup.landmark, k = .other := by
  intro k hk
  obtain ⟨g, hg, rfl⟩ := List.mem_map.mp hk
  exact (h g hg).1

theorem Clear.travel {ks rest : List (Landmark α)} (h : c.Approached paths s ks)
    (hrest : .travel ∉ rest) : c.Clear paths s ks (.travel :: rest) := by
  intro before after heq
  cases before with
  | nil => rwa [List.append_nil]
  | cons k before =>
      obtain ⟨-, rfl⟩ := List.cons_eq_cons.mp heq
      simp at hrest

/-- The landmarks of a pass are perhaps a rise, and then travel. -/
theorem EmitsPass.landmarks (hs : c.round c.safeZ = .ok s) {path : ReadyPath α} {z last : α}
    {pass : Pass α} {gs : List (MoveGroup α)} (h : c.EmitsPass tabs path z pass gs last) :
    ∃ lead rest : List (Landmark α), gs.map MoveGroup.landmark = lead ++ Landmark.travel :: rest ∧
      (∀ k ∈ rest, k = .other) ∧ (lead = [] ∧ ¬ c.Rises tabs path z ∨ lead = [.rise (some s)]) := by
  cases h with
  | @intro lead travel drop legs _ hlead _ _ hlegs =>
      refine ⟨lead.map MoveGroup.landmark, legs.flatten.map MoveGroup.landmark, by simp; rfl,
        landmark_legs hlegs.runGroup, ?_⟩
      cases hlead with
      | stay hstay => exact .inl ⟨rfl, hstay⟩
      | rise _ hm =>
          right
          rw [List.map_singleton, MoveGroup.landmark, hm.z_eq hs]

/-- One pass: its travel is approached, and the next pass is ready if this one ends below the
clearance height. -/
theorem EmitsPass.ready (hs : c.round c.safeZ = .ok s) {i : Nat} {path : CamPath α}
    (hi : paths[i]? = some path) {p : Point α} {z last : α} {pass : Pass α}
    {gs : List (MoveGroup α)} {ks : List (Landmark α)}
    (h : c.EmitsPass c.activeTabs (c.ready c.activeTabs p path) z pass gs last)
    (hks : c.Ready s i z ks) :
    c.Clear paths s ks (gs.map MoveGroup.landmark) ∧
      (last < c.safeZ → c.Ready s i last (ks ++ gs.map MoveGroup.landmark)) := by
  obtain ⟨lead, rest, hgs, hrest, hlead⟩ := h.landmarks hs
  obtain ⟨before, mid, hpre, hmid, hready⟩ := hks
  have htravel : .travel ∉ rest := fun hmem => by cases hrest _ hmem
  rw [hgs]
  constructor
  · rcases hlead with ⟨rfl, hstay⟩ | rfl
    · refine Clear.travel ?_ htravel
      rcases hready with hrisen | ⟨hlow, hbefore⟩
      · exact .inl hrisen
      · -- The tool stays below the clearance height, so the path may be closed.
        have hclose : path.safeToClose = true ∧ c.activeTabs = none := by
          simpa [Rises, hlow, ToolpathParams.ready] using hstay
        exact .inr ⟨hclose.2, i, path, before, mid, hpre, hmid, hbefore, hi, hclose.1⟩
    · refine Clear.append (.of_quiet (by simp)) (Clear.travel (.inl ⟨ks, .inl rfl⟩) htravel)
  · intro hlow
    refine ⟨before, mid ++ (lead ++ .travel :: rest), by rw [hpre]; simp, fun j hj => ?_,
      .inr ⟨hlow, by simp⟩⟩
    rw [List.mem_append, List.mem_append, List.mem_cons] at hj
    rcases hj with hj | hj | hj | hj
    · exact hmid j hj
    · rcases hlead with ⟨rfl, -⟩ | rfl <;> simp at hj
    · cases hj
    · cases hrest _ hj

/-- The passes over a path. -/
theorem EmitsPasses.clear (hs : c.round c.safeZ = .ok s) {i : Nat} {path : CamPath α}
    (hi : paths[i]? = some path) (hpoints : path.points ≠ []) {p : Point α}
    (hwhole : c.usePathZ = false → c.wholeZ c.activeTabs < c.safeZ) {z : α}
    {passes : List (Pass α)} {parts : List (List (MoveGroup α))}
    (h : c.EmitsPasses c.activeTabs (c.ready c.activeTabs p path) z passes parts) :
    ∀ ks : List (Landmark α),
      (passes.IsChain fun pass _ => c.usePathZ = false ∧ pass.next < c.safeZ) →
      c.Ready s i z ks → c.Clear paths s ks (parts.flatten.map MoveGroup.landmark) := by
  induction h with
  | done => exact fun ks _ _ => .of_quiet (by simp)
  | @pass z last pass passes gs parts hpass hrest ih =>
      intro ks hchain hks
      obtain ⟨hclear, hnext⟩ := hpass.ready hs hi hks
      rw [List.flatten_cons, List.map_append]
      refine hclear.append ?_
      cases hchain with
      | singleton =>
          cases hrest
          exact .of_quiet (by simp)
      | cons_cons hlow hchain =>
          obtain ⟨hflat, hlow⟩ := hlow
          refine ih _ hchain (hnext ?_)
          cases hpass with
          | intro _ _ _ hlegs =>
              obtain ⟨run, hrun, hne⟩ :=
                exists_passRun_ne_nil (c := c) c.activeTabs (p := p) hpoints pass
              rcases hlegs.last_eq hflat with rfl | rfl | ⟨-, hempty⟩
              · exact hlow
              · exact hwhole hflat
              · exact absurd (hempty run hrun) hne

end

/-! ## The shape of groups -/

/-- A group as it is compiled, with all rises to the depth `s`. -/
def Sound (s : α) (g : MoveGroup α) : Prop :=
  g.Shaped ∧ g.Regular ∧ ∀ m, g = .retract m → m.z = some s

omit [Scalar α] in
theorem RunGroup.sound {g : MoveGroup α} (h : RunGroup g) : Sound s g := by
  refine ⟨h.2.1, h.2.2, ?_⟩
  rintro m rfl
  cases h.1

omit [Scalar α] in
theorem RisesBy.sound (hs : c.round c.safeZ = .ok s) {m : Move α} (h : c.RisesBy m) :
    Sound s (.retract m) := by
  refine ⟨h.hasXY, trivial, ?_⟩
  rintro m' ⟨⟩
  exact h.z_eq hs

theorem EmitsPaths.sound (hs : c.round c.safeZ = .ok s) {tabs : Option (Tabs α)} {i : Nat}
    {rest : List (CamPath α)} {parts : List (List (MoveGroup α))}
    (h : c.EmitsPaths tabs i rest parts) : ∀ g ∈ parts.flatten, Sound s g :=
  h.forall_groups {
    rise := fun hm => hm.sound hs
    header := fun _ => ⟨trivial, trivial, fun _ h => by cases h⟩
    travel := fun ht hd => ⟨⟨ht.z_eq_none rfl, hd.hasXY⟩,
      ⟨ht.motion, ht.hasXY, hd.motion, hd.hasXY⟩, fun _ h => by cases h⟩
    entry := fun hgs g hg => (hgs.runGroup g hg).sound
    cut := fun hms => RunGroup.sound ⟨rfl, linear_of_feedsTo hms, trivial⟩ }

/-! ## Paths -/

variable [OrderedScalar α]

/-- After each pass but the last one the depth is below any height that the cut starts below. -/
theorem isChain_passesFrom {passDepth bottom safe : α} :
    ∀ (fuel : Nat) (finished : α), finished ≤ safe →
      (∀ pass ∈ passesFrom passDepth bottom fuel finished,
        bottom < pass.next → pass.next < pass.finished) →
      (passesFrom passDepth bottom fuel finished).IsChain fun pass _ => pass.next < safe
  | 0, _, _, _ => .nil
  | fuel + 1, finished, hsafe, hdown => by
      rw [passesFrom] at hdown ⊢
      split at hdown
      next hbottom =>
        rw [if_pos hbottom]
        dsimp only at hdown ⊢
        obtain ⟨hfirst, hrest⟩ := List.forall_mem_cons.mp hdown
        -- If another pass follows then this one ends above the final depth.
        by_cases hmore : bottom < (passFrom passDepth bottom finished).next
        · have hlow := OrderedScalar.lt_of_lt_of_le (hfirst hmore) hsafe
          have ih := isChain_passesFrom fuel _ (OrderedScalar.le_of_lt hlow) hrest
          cases hpasses : passesFrom passDepth bottom fuel
              (passFrom passDepth bottom finished).next with
          | nil => exact .singleton _
          | cons pass passes =>
              rw [hpasses] at ih
              exact .cons_cons hlow ih
        · have hnone : passesFrom passDepth bottom fuel
              (passFrom passDepth bottom finished).next = [] := by
            cases fuel with
            | zero => rfl
            | succ fuel => rw [passesFrom, if_neg hmore]
          rw [hnone]
          exact .singleton _
      next hbottom =>
        rw [if_neg hbottom]
        exact .nil

theorem isChain_passes (htop : c.topZ ≤ c.safeZ) (hprogress : c.Progresses) :
    c.passes.IsChain fun pass _ => c.usePathZ = false ∧ pass.next < c.safeZ := by
  cases hflat : c.usePathZ with
  | true =>
      rw [passes, if_pos hflat]
      exact .singleton _
  | false =>
      have hdown := hprogress hflat
      rw [passes, if_neg (by simp [hflat])] at hdown ⊢
      exact (isChain_passesFrom _ _ htop hdown).imp fun _ _ h => ⟨rfl, h⟩

/-- Paths are only cut whole down to a depth below the clearance height. -/
theorem wholeZ_lt (htop : c.topZ ≤ c.safeZ) (htabs : ∀ t, c.activeTabs = some t → t.top < c.safeZ)
    (hflat : c.usePathZ = false) (hpasses : c.passes ≠ []) :
    c.wholeZ c.activeTabs < c.safeZ := by
  cases hactive : c.activeTabs with
  | some t => exact htabs t hactive
  | none =>
      have hbottom : c.bottomZ < c.topZ := by
        by_contra hbottom
        refine hpasses ?_
        rw [passes, if_neg (by simp [hflat]), schedule]
        cases passBound c.passDepth c.bottomZ c.topZ with
        | zero => rfl
        | succ fuel => rw [passesFrom, if_neg hbottom]
      exact OrderedScalar.lt_of_lt_of_le hbottom htop

/-- The travel to the paths is approached, where `ks` are the landmarks before. -/
theorem clear_of_emitsPaths (paths : List (CamPath α)) (hs : c.round c.safeZ = .ok s)
    (htop : c.topZ ≤ c.safeZ) (htabs : ∀ t, c.activeTabs = some t → t.top < c.safeZ)
    (hprogress : c.Progresses) {i : Nat} {rest : List (CamPath α)}
    {parts : List (List (MoveGroup α))} (h : c.EmitsPaths c.activeTabs i rest parts) :
    ∀ before : List (Landmark α), paths.drop i = rest →
      c.Clear paths s (before ++ [Landmark.rise (some s)])
        (parts.flatten.map MoveGroup.landmark) := by
  induction h with
  | done => exact fun _ _ => .of_quiet (by simp)
  | @skip i path rest parts _ _ ih =>
      intro before hdrop
      have hrest : paths.drop (i + 1) = rest := by rw [← List.drop_drop, hdrop]; rfl
      exact ih before hrest
  | @path i path rest p ps passes parts m hpoints hpasses hm _ ih =>
      intro before hdrop
      have hi : paths[i]? = some path := by rw [← List.head?_drop, hdrop]; rfl
      have hrest : paths.drop (i + 1) = rest := by rw [← List.drop_drop, hdrop]; rfl
      have hready : c.Ready s i c.safeZ
          (before ++ [Landmark.rise (some s)] ++ [Landmark.header i]) :=
        ⟨before ++ [Landmark.rise (some s)], [], rfl, by simp, .inl ⟨before, .inr ⟨i, by simp⟩⟩⟩
      have hclear : c.Clear paths s (before ++ [Landmark.rise (some s)] ++ [Landmark.header i])
          (passes.flatten.map MoveGroup.landmark) := by
        by_cases hnone : c.passes = []
        · rw [hnone] at hpasses
          cases hpasses
          exact .of_quiet (by simp)
        · exact hpasses.clear hs hi (by simp [hpoints])
            (fun hflat => wholeZ_lt htop htabs hflat hnone) _
            (isChain_passes htop hprogress) hready
      have hlast : [MoveGroup.retract m].map MoveGroup.landmark = [.rise (some s)] := by
        rw [List.map_singleton, MoveGroup.landmark, hm.z_eq hs]
      have hrise := ih (before ++ [Landmark.rise (some s)] ++ [Landmark.header i]
        ++ passes.flatten.map MoveGroup.landmark) hrest
      have hpath : (MoveGroup.header i :: passes.flatten ++ [MoveGroup.retract m]).map
          MoveGroup.landmark
          = [Landmark.header i]
            ++ (passes.flatten.map MoveGroup.landmark ++ [Landmark.rise (some s)]) := by
        rw [List.cons_append, List.map_cons, List.map_append, hlast]
        rfl
      rw [List.flatten_cons, List.map_append, hpath]
      refine Clear.append (Clear.append (.of_quiet (by simp)) (hclear.append (.of_quiet ?_))) ?_
      · simp
      · rwa [← List.append_assoc, ← List.append_assoc]

end ToolpathParams

end WireErosion
