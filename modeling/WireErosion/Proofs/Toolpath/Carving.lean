import WireErosion.Proofs.Ordered
import WireErosion.Proofs.Toolpath.Entry
import WireErosion.Proofs.Toolpath.Faultless
import WireErosion.Proofs.Toolpath.Landmark

/-!
# Paths that carry their own depth

Such a path is cut in one pass, whatever its final depth and the tabs are.  The tool comes to the
first vertex at the clearance height and goes rapidly down to the depth at which a pass is entered,
which is the top of the cut or that of the tabs if it is higher.  From there it goes through the
other vertices, each at its own depth (`CarvedPath`).

So the first vertex is passed at its own depth only if that is one of the two depths at which the
tool is there anyway.  A path that starts below them loses its first vertex
(`diveToolpath_misses_first`).
-/

namespace WireErosion

variable {α : Type}

/-! ## Positions of the tool -/

/-- Where the tool is, in the plane and along the depth. -/
abbrev Stance (α : Type) := Modal α × Option α

/-- Where the tool is after a move. -/
def Stance.after (s : Stance α) (m : Move α) : Stance α := (Modal.after s.1 m, m.z <|> s.2)

/-- Where the tool is at a vertex. -/
def Point.stance (p : Point α) : Stance α := ((some p.x, some p.y), some p.z)

/-- Where the tool is after each move of some lines, where `s` is where it is before them. -/
def stances (s : Stance α) : Program α → List (Stance α)
  | [] => []
  | .comment _ :: ls => stances s ls
  | .move m :: ls => s.after m :: stances (s.after m) ls

theorem stances_entry (s : Stance α) (i : ℕ) (travel drop : Move α) (ls : Program α) :
    stances s (.blank :: .pathStart i :: .rapidToStart :: .move travel :: .move drop :: .cut :: ls)
      = s.after travel :: (s.after travel).after drop ::
        stances ((s.after travel).after drop) ls := by
  simp only [Line.blank, Line.pathStart, Line.rapidToStart, Line.cut, stances]

/-- Where the tool is after some lines. -/
def stanceAfter (p : Program α) : Stance α := (positionAfter (none, none) p, depthAfter none p)

/-- A vertex is rounded to another one. -/
structure Point.RoundsTo (round : α → Except Fault α) (p q : Point α) : Prop where
  /-- The first coordinate is rounded. -/
  x : round p.x = .ok q.x
  /-- The second coordinate is rounded. -/
  y : round p.y = .ok q.y
  /-- The depth is rounded. -/
  z : round p.z = .ok q.z

/-! ## Sequences with one position left out -/

theorem eq_of_cons_eq_concat {β : Type} {a b : β} : ∀ {l : List β}, a :: l = l ++ [b] → a = b
  | [], h => (List.cons.inj h).1
  | c :: l, h => by
      obtain ⟨rfl, h⟩ := List.cons.inj h
      exact eq_of_cons_eq_concat h

/-- A sequence is part of another one with the same middle if it starts like that one, at one of its
first two members or at its last one. -/
theorem cons_sublist_iff {β : Type} {a b₁ b₂ b₃ : β} {l : List β} (hlast : a = b₃ → a = b₁) :
    (a :: l).Sublist (b₁ :: b₂ :: l ++ [b₃]) ↔ a = b₁ ∨ a = b₂ := by
  constructor
  · intro h
    cases h with
    | cons _ h =>
        cases h with
        | cons _ h =>
            have heq : a :: l = l ++ [b₃] := h.eq_of_length (by simp)
            exact .inl (hlast (eq_of_cons_eq_concat heq))
        | cons_cons _ _ => exact .inr rfl
    | cons_cons _ _ => exact .inl rfl
  · rintro (rfl | rfl)
    · exact ((List.sublist_append_left l [b₃]).cons b₂).cons_cons a
    · exact ((List.sublist_append_left l [b₃]).cons_cons a).cons b₁

namespace ToolpathParams

variable {c : ToolpathParams α}

/-! ## Cuts -/

/-- A move of a cut goes to its vertex at the depth of the vertex. -/
theorem FeedsTo.exists_vertex (hpath : c.usePathZ = true) {q : Point α} {m : Move α}
    (h : c.FeedsTo q m) :
    ∃ u : Point α, q.RoundsTo c.round u ∧ ∀ s : Stance α, s.after m = u.stance := by
  have hz := h.z
  rw [vertexZ, if_pos hpath] at hz
  obtain ⟨x, hx, hmx⟩ := roundField_eq_some h.x
  obtain ⟨y, hy, hmy⟩ := roundField_eq_some h.y
  obtain ⟨z, hz, hmz⟩ := roundField_eq_some hz
  refine ⟨⟨x, y, z⟩, ⟨hx, hy, hz⟩, fun s => ?_⟩
  rw [Stance.after, Modal.after, hmx, hmy, hmz]
  rfl

/-- The moves of a cut go through its vertices. -/
theorem exists_stances_cut (hpath : c.usePathZ = true) {rest : List (Point α)} {ms : List (Move α)}
    (h : List.Forall₂ c.FeedsTo rest ms) : ∃ us : List (Point α),
      List.Forall₂ (Point.RoundsTo c.round) rest us ∧
      ∀ (s : Stance α) (q : Program α), stances s (ms.map .move ++ q)
        = us.map Point.stance ++ stances ((us.map Point.stance).getLastD s) q := by
  induction h with
  | nil => exact ⟨[], .nil, fun s q => rfl⟩
  | cons hm _ ih =>
      obtain ⟨u, hu, hafter⟩ := hm.exists_vertex hpath
      obtain ⟨us, hus, hstances⟩ := ih
      refine ⟨u :: us, .cons hu hus, fun s q => ?_⟩
      rw [List.map_cons, List.cons_append, stances, hafter, hstances, List.map_cons,
        List.getLastD_cons]
      rfl

/-! ## Rises -/

/-- A rise ends at the clearance height. -/
theorem RisesBy.after {m : Move α} (h : c.RisesBy m) {safe : α} (hsafe : c.round c.safeZ = .ok safe)
    (s : Stance α) : s.after m = (s.1, some safe) := by
  rw [Stance.after, Modal.after, roundField_eq_none h.x, roundField_eq_none h.y, h.z_eq hsafe]
  rfl

theorem RisesBy.depthAfter_eq {m : Move α} (h : c.RisesBy m) {safe : α}
    (hsafe : c.round c.safeZ = .ok safe) (before : List (MoveGroup α)) :
    depthAfter none (groupLines (before ++ [.retract m])) = some safe := by
  rw [groupLines_append, depthAfter_append]
  change (m.z <|> depthAfter none (groupLines before)) = some safe
  rw [h.z_eq hsafe]
  rfl

theorem RisesBy.exists_safe {m : Move α} (h : c.RisesBy m) :
    ∃ safe, c.round c.safeZ = .ok safe := by
  obtain ⟨safe, hsafe, -⟩ := roundField_eq_some h.z
  exact ⟨safe, hsafe⟩

/-! ## Paths -/

variable [Scalar α]

/-- The groups of a path with its index, where `before` comes first.  A path with vertices has one
pass.  There the tool is at the first vertex at the clearance height, at the first vertex at the
depth of entry, at the other vertices at their own depths, and back at the clearance height. -/
inductive CarvedPath (c : ToolpathParams α) (before : Program α) :
    CamPath α × ℕ → List (MoveGroup α) → Prop
  | empty {path : CamPath α} {i : ℕ} : path.points = [] → CarvedPath c before (path, i) []
  | pass {path : CamPath α} {i : ℕ} {v : Point α} {vs us : List (Point α)} {x y safe entry : α}
      {travel drop rise : Move α} {moves : List (Move α)} :
      path.points = v :: vs →
      c.round (c.convert v).x = .ok x → c.round (c.convert v).y = .ok y →
      c.round c.safeZ = .ok safe → c.round (entryZ c.activeTabs c.topZ) = .ok entry →
      List.Forall₂ (Point.RoundsTo c.round) (vs.map c.convert) us →
      stances (stanceAfter before)
          (groupLines [.header i, .travel travel drop, .cut moves, .retract rise]) =
        Point.stance ⟨x, y, safe⟩ :: Point.stance ⟨x, y, entry⟩ :: us.map Point.stance ++
          [(((us.map Point.stance).getLastD (Point.stance ⟨x, y, entry⟩)).1, some safe)] →
      (∀ z, (Point.stance ⟨x, y, z⟩ :: us.map Point.stance).Sublist
        (stances (stanceAfter before)
          (groupLines [.header i, .travel travel drop, .cut moves, .retract rise])) ↔
        z = safe ∨ z = entry) →
      CarvedPath c before (path, i) [.header i, .travel travel drop, .cut moves, .retract rise]

/-- A path that carries its own depth has one pass, with one cut. -/
theorem EmitsPasses.exists_carved (hpath : c.usePathZ = true) (hsafe : ¬ c.safeZ < c.safeZ)
    {tabs : Option (Tabs α)} {p : Point α} {path : CamPath α} {ps : List (Point α)}
    (hpoints : path.points = p :: ps) {parts : List (List (MoveGroup α))}
    (h : c.EmitsPasses tabs (c.ready tabs p path) c.safeZ c.passes parts) :
    ∃ travel drop moves, parts.flatten = [.travel travel drop, .cut moves] ∧
      RoundsMove c.round (.rapid (some (c.convert p).x) (some (c.convert p).y) none) travel ∧
      RoundsMove c.round (.rapid none none (some (entryZ tabs c.topZ))) drop ∧
      List.Forall₂ c.FeedsTo (ps.map c.convert) moves := by
  rw [passes, if_pos hpath] at h
  cases h with
  | pass hpass hrest =>
      cases hrest
      cases hpass with
      | @intro lead travel drop legs last hlead htravel hdrop hlegs =>
          have hstay : lead = [] := by
            cases hlead with
            | stay => rfl
            | rise hrise => exact absurd hrise.1 hsafe
          rw [passRuns, if_pos (.inr hpath), ready, hpoints, List.map_cons] at hlegs
          cases hlegs with
          | cut hentry hmoves hdone =>
              cases hdone
              rw [if_pos hpath] at hentry
              subst hentry hstay
              exact ⟨travel, drop, _, rfl, htravel, hdrop, hmoves⟩

/-- The groups of a path that carries its own depth, where the tool starts at the clearance
height. -/
theorem carvedPath_of_passes (hpath : c.usePathZ = true) (hlt : ¬ c.safeZ < c.safeZ) {safe : α}
    (hsafe : c.round c.safeZ = .ok safe) {path : CamPath α} {i : ℕ} {p : Point α}
    {ps : List (Point α)} (hpoints : path.points = p :: ps) {parts : List (List (MoveGroup α))}
    (h : c.EmitsPasses c.activeTabs (c.ready c.activeTabs p path) c.safeZ c.passes parts)
    {rise : Move α} (hrise : c.RisesBy rise) {before : Program α}
    (hbefore : depthAfter none before = some safe) :
    c.CarvedPath before (path, i) (.header i :: parts.flatten ++ [.retract rise]) := by
  obtain ⟨travel, drop, moves, hparts, htravel, hdrop, hmoves⟩ :=
    h.exists_carved hpath hlt hpoints
  obtain ⟨x, hx, htx⟩ := roundField_eq_some htravel.x
  obtain ⟨y, hy, hty⟩ := roundField_eq_some htravel.y
  obtain ⟨entry, hentry, hdz⟩ := roundField_eq_some hdrop.z
  obtain ⟨us, hus, hcut⟩ := exists_stances_cut hpath hmoves
  have hcome : (stanceAfter before).after travel = Point.stance ⟨x, y, safe⟩ := by
    rw [Stance.after, Modal.after, htx, hty, roundField_eq_none htravel.z, stanceAfter, hbefore]
    rfl
  have henter : (Point.stance ⟨x, y, safe⟩).after drop = Point.stance ⟨x, y, entry⟩ := by
    rw [Stance.after, Modal.after, roundField_eq_none hdrop.x, roundField_eq_none hdrop.y, hdz]
    rfl
  have hstances : stances (stanceAfter before)
        (groupLines [.header i, .travel travel drop, .cut moves, .retract rise]) =
      Point.stance ⟨x, y, safe⟩ :: Point.stance ⟨x, y, entry⟩ :: us.map Point.stance ++
        [(((us.map Point.stance).getLastD (Point.stance ⟨x, y, entry⟩)).1, some safe)] := by
    have hlines : groupLines [.header i, .travel travel drop, .cut moves, .retract rise] =
        .blank :: .pathStart i :: .rapidToStart :: .move travel :: .move drop :: .cut ::
          (moves.map .move ++ [.retract, .move rise]) := by
      simp [MoveGroup.lines, MoveGroup.comments, MoveGroup.moves]
    rw [hlines, stances_entry, hcome, henter, hcut, List.cons_append, List.cons_append]
    congr 3
    exact congrArg (fun t => [t]) (hrise.after hsafe _)
  have hdepth {z z' : α} : Point.stance ⟨x, y, z⟩ = Point.stance ⟨x, y, z'⟩ ↔ z = z' := by
    simp [Point.stance]
  have hfirst (z : α) : (Point.stance ⟨x, y, z⟩ :: us.map Point.stance).Sublist
      (stances (stanceAfter before)
        (groupLines [.header i, .travel travel drop, .cut moves, .retract rise])) ↔
      z = safe ∨ z = entry := by
    rw [hstances, cons_sublist_iff fun hlast => ?_, hdepth, hdepth]
    exact hdepth.mpr (Option.some.inj (congrArg Prod.snd hlast))
  rw [hparts]
  exact .pass hpoints hx hy hsafe hentry hus hstances hfirst

/-- Before each path that carries its own depth the tool is at the clearance height. -/
theorem EmitsPaths.carved (hpath : c.usePathZ = true) (hlt : ¬ c.safeZ < c.safeZ) {safe : α}
    (hsafe : c.round c.safeZ = .ok safe) {i : ℕ} {paths : List (CamPath α)}
    {parts : List (List (MoveGroup α))} (h : c.EmitsPaths c.activeTabs i paths parts) :
    ∀ before : List (MoveGroup α), depthAfter none (groupLines before) = some safe →
      parts.length = paths.length ∧
      ∀ (k : ℕ) (path : CamPath α), paths[k]? = some path → ∃ part, parts[k]? = some part ∧
        c.CarvedPath (groupLines (before ++ (parts.take k).flatten)) (path, i + k) part := by
  induction h with
  | done => exact fun _ _ => ⟨rfl, fun k path hk => by cases hk⟩
  | skip hpoints _ ih =>
      intro before hbefore
      obtain ⟨hlength, hpaths⟩ := ih before hbefore
      refine ⟨by simp [hlength], fun k path hk => ?_⟩
      cases k with
      | zero =>
          cases hk
          exact ⟨[], rfl, .empty hpoints⟩
      | succ k =>
          obtain ⟨part, hpart, hcarved⟩ := hpaths k path hk
          refine ⟨part, hpart, ?_⟩
          rwa [List.take_succ_cons, List.flatten_cons, List.nil_append, ← Nat.add_assoc,
            Nat.add_right_comm]
  | @path i path' paths p ps passes parts rise hpoints hpasses hrise _ ih =>
      intro before hbefore
      have hend : depthAfter none (groupLines
          (before ++ (.header i :: passes.flatten ++ [.retract rise]))) = some safe := by
        rw [← List.append_assoc]
        exact hrise.depthAfter_eq hsafe _
      obtain ⟨hlength, hpaths⟩ := ih _ hend
      refine ⟨by simp [hlength], fun k path hk => ?_⟩
      cases k with
      | zero =>
          cases hk
          refine ⟨_, rfl, ?_⟩
          rw [List.take_zero, List.flatten_nil, List.append_nil]
          exact carvedPath_of_passes hpath hlt hsafe hpoints hpasses hrise hbefore
      | succ k =>
          obtain ⟨part, hpart, hcarved⟩ := hpaths k path hk
          refine ⟨part, hpart, ?_⟩
          rwa [List.take_succ_cons, List.flatten_cons, ← List.append_assoc, ← Nat.add_assoc,
            Nat.add_right_comm]

end ToolpathParams

/-! ## Programs -/

/-- A double is not below itself. -/
theorem Double.lt_irrefl (a : Float) : ¬ a < a := by
  intro h
  obtain ⟨i, j, hi, hj, hlt⟩ := Double.lt_iff.mp h
  obtain rfl := Option.some.inj (hi.symm.trans hj)
  have heq : compare i i = .eq := Std.ReflCmp.compare_self
  rw [heq] at hlt
  cases hlt

theorem exists_of_roundField_eq_error {round : α → Except Fault α} {v : Option α} {e : Fault}
    (h : roundField round v = .error e) : ∃ u, round u = .error e := by
  cases v with
  | none => cases h
  | some u => exact ⟨u, Fault.map_eq_error.mp h⟩

/-- The fault of a line is that of one of its numbers. -/
theorem exists_of_round_eq_error {round : α → Except Fault α} {l : Line α} {e : Fault}
    (h : l.round round = .error e) : ∃ u, round u = .error e := by
  cases l with
  | comment text => cases h
  | move m =>
      simp only [Line.round, Fault.bind_eq_error] at h
      obtain h | ⟨_, -, h | ⟨_, -, h | ⟨_, -, h | ⟨_, -, h⟩⟩⟩⟩ := h
      · exact exists_of_roundField_eq_error h
      · exact exists_of_roundField_eq_error h
      · exact exists_of_roundField_eq_error h
      · exact exists_of_roundField_eq_error h
      · cases h

/-- Paths that carry their own depth compile unless a number cannot be rounded, and each of them
is cut in one pass, from its first vertex at the depth of entry through its other vertices. -/
theorem ToolpathParams.compile_carves {c : ToolpathParams Float} (hpath : c.usePathZ = true)
    (paths : List (CamPath Float)) :
    (∀ e, c.compile paths = .error e → ∃ v, c.round v = .error e) ∧
    ∀ p, c.compile paths = .ok p → ∃ (rise : Move Float) (parts : List (List (MoveGroup Float))),
      p = groupLines (.retract rise :: parts.flatten) ∧ parts.length = paths.length ∧
      ∀ (i : ℕ) (path : CamPath Float), paths[i]? = some path → ∃ part, parts[i]? = some part ∧
        c.CarvedPath (groupLines (.retract rise :: (parts.take i).flatten)) (path, i) part := by
  constructor
  · intro e he
    obtain ⟨l, ⟨before, after, hplan, -⟩, hl⟩ := Fault.mapM_eq_error.mp he
    have hmem : l ∈ c.plan paths := by
      rw [hplan]
      exact List.mem_append_right _ (List.mem_cons_self ..)
    cases l with
    | error f => exact absurd hmem (faultless_plan_of_usePathZ hpath paths f)
    | ok l => exact exists_of_round_eq_error hl
  · intro p hp
    obtain ⟨rise, parts, rfl, hrise, hparts⟩ := exists_groups hp
    obtain ⟨safe, hsafe⟩ := hrise.exists_safe
    have hstart : depthAfter none (groupLines [.retract rise]) = some safe :=
      hrise.depthAfter_eq hsafe []
    obtain ⟨hlength, hcarved⟩ :=
      hparts.carved hpath (Double.lt_irrefl _) hsafe [.retract rise] hstart
    refine ⟨rise, parts, rfl, hlength, fun i path hi => ?_⟩
    obtain ⟨part, hpart, hcarves⟩ := hcarved i path hi
    rw [Nat.zero_add] at hcarves
    exact ⟨part, hpart, hcarves⟩

/-- A toolpath for paths that carry their own depth. -/
def diveToolpath : ToolpathParams Float where
  topZ := 0
  bottomZ := -2
  safeZ := 5
  passDepth := 1
  descents := { ramp := false, plungeFeed := 60, cutFeed := 200, toolSpeed := none }
  lengthScale := 1
  usePathZ := true
  offsetX := 0
  offsetY := 0
  tabs := none
  tabZ := none
  round := Scalar.roundTo 3

/-- A path that starts below the top of the cut. -/
def divePath : CamPath Float := ⟨[⟨0, 0, -1⟩, ⟨10, 0, -1⟩], false⟩

/-- The program of that path.  The tool comes to the first vertex, goes down to the top of the
cut, and from there to the other vertex. -/
def diveProgram : Program Float :=
  [.retract, .move (.rapid none none (some 5)), .blank, .pathStart 0, .rapidToStart,
    .move (.rapid (some 0) (some 0) none), .move (.rapid none none (some 0)), .cut,
    .move (.linear (some 10) (some 0) (some (-1)) (some 200) none), .retract,
    .move (.rapid none none (some 5))]

theorem diveToolpath_compile : diveToolpath.compile [divePath] = .ok diveProgram := by
  decide +kernel

/-- A path that starts below the top of the cut is not cut at the depth of its first vertex. -/
theorem diveToolpath_misses_first : diveToolpath.usePathZ = true ∧
    diveToolpath.compile [divePath] = .ok diveProgram ∧ ∃ us : List (Point Float),
      List.Forall₂ (Point.RoundsTo diveToolpath.round)
        (divePath.points.map diveToolpath.convert) us ∧
      ¬ (us.map Point.stance).Sublist (stances ((none, none), none) diveProgram) := by
  refine ⟨rfl, diveToolpath_compile, [⟨0, 0, -1⟩, ⟨10, 0, -1⟩], ?_, by decide +kernel⟩
  exact .cons ⟨by decide +kernel, by decide +kernel, by decide +kernel⟩
    (.cons ⟨by decide +kernel, by decide +kernel, by decide +kernel⟩ .nil)

/-- A path that starts below the top of the cut is carved through its other vertex. -/
theorem diveToolpath_carved : diveToolpath.usePathZ = true ∧
    ∃ (rise : Move Float) (parts : List (List (MoveGroup Float))),
      diveProgram = groupLines (.retract rise :: parts.flatten) ∧ ∃ part, parts[0]? = some part ∧
        diveToolpath.CarvedPath (groupLines [.retract rise]) (divePath, 0) part := by
  obtain ⟨-, hcarved⟩ := ToolpathParams.compile_carves (c := diveToolpath) rfl [divePath]
  obtain ⟨rise, parts, hlines, -, hparts⟩ := hcarved diveProgram diveToolpath_compile
  exact ⟨rfl, rise, parts, hlines, hparts 0 divePath rfl⟩

end WireErosion
