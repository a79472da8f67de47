import WireErosion.Proofs.Depth.Toolpath
import WireErosion.Proofs.Program.Markers

/-!
# The groups of a compiled program

A compiled program is a list of groups, each of them a marker and the moves that it announces
(`MoveGroup`).  The relations `EmitsEntry`, `EmitsRuns`, `EmitsPass`, `EmitsPasses` and `EmitsPaths`
say which groups belong to the runs, the passes and the paths of a toolpath, with one constructor
for each way in which the tool can go on.

`ToolpathParams.exists_groups` says that whatever the compiler returns is in these relations.  It
asks nothing of the numbers, so it holds of doubles as of exact numbers.  The groups of the passes
and of the runs are kept apart, as lists of lists, so that a statement on a program can point at
them.
-/

namespace WireErosion

variable {α : Type}

/-! ## Groups -/

/-- A marker and the moves that it announces. -/
inductive MoveGroup (α : Type) where
  /-- A rise to the clearance height. -/
  | retract (rise : Move α)
  /-- The header of a path, with its index. -/
  | header (index : Nat)
  /-- The travel to a vertex, and the way down to the depth at which a pass is entered. -/
  | travel (travel drop : Move α)
  /-- A descent in one move. -/
  | plunge (last : Move α)
  /-- A descent along the path and back. -/
  | ramp (way : List (Move α)) (last : Move α)
  /-- A rise to the top of the tabs. -/
  | ontoTab (rise : Move α)
  /-- A cut. -/
  | cut (moves : List (Move α))

namespace MoveGroup

/-- The moves of a group. -/
def moves : MoveGroup α → List (Move α)
  | .retract m => [m]
  | .header _ => []
  | .travel t d => [t, d]
  | .plunge m => [m]
  | .ramp way last => way ++ [last]
  | .ontoTab m => [m]
  | .cut ms => ms

/-- The comments that a group starts with. -/
def comments : MoveGroup α → Program α
  | .retract _ => [.retract]
  | .header i => [.blank, .pathStart i]
  | .travel _ _ => [.rapidToStart]
  | .plunge _ => [.plunge]
  | .ramp _ _ => [.ramp]
  | .ontoTab _ => [.retractForTab]
  | .cut _ => [.cut]

/-- The lines of a group. -/
def lines (g : MoveGroup α) : Program α := g.comments ++ g.moves.map .move

theorem not_move_comments (g : MoveGroup α) (n : Move α) : .move n ∉ g.comments := by
  cases g <;> simp [comments, Line.retract, Line.blank, Line.pathStart, Line.rapidToStart,
    Line.plunge, Line.ramp, Line.retractForTab, Line.cut]

/-- The kinds of the comments of a group. -/
def marks : MoveGroup α → List LineKind
  | .retract _ => [.retract]
  | .header _ => [.generic, .path]
  | .travel _ _ => [.rapidToStart]
  | .plunge _ => [.plunge]
  | .ramp _ _ => [.ramp]
  | .ontoTab _ => [.retractForTab]
  | .cut _ => [.cut]

theorem kind_comments (g : MoveGroup α) : g.comments.map Line.kind = g.marks := by
  cases g <;> simp [comments, marks]

/-- A line of a group is a move or one of its marks. -/
theorem kind_of_mem {g : MoveGroup α} {l : Line α} (h : l ∈ g.lines) :
    l.kind = .move ∨ l.kind ∈ g.marks := by
  rw [lines, List.mem_append, List.mem_map] at h
  rcases h with h | ⟨m, -, rfl⟩
  · rw [← kind_comments]
    exact .inr (List.mem_map_of_mem h)
  · exact .inl rfl

theorem kind_ne_of_marks {g : MoveGroup α} {k : LineKind} (hmove : k ≠ .move) (hk : k ∉ g.marks)
    {l : Line α} (h : l ∈ g.lines) : l.kind ≠ k := by
  rintro rfl
  exact (kind_of_mem h).elim hmove hk

/-- The travel of a group is a rapid move in the plane and then one along the depth. -/
def Regular : MoveGroup α → Prop
  | .travel t d => t.motion = .rapid ∧ t.hasXY = true ∧ d.motion = .rapid ∧ d.hasXY = false
  | _ => True

end MoveGroup

/-- The lines of some groups. -/
def groupLines (gs : List (MoveGroup α)) : Program α := gs.flatMap MoveGroup.lines

@[simp] theorem groupLines_nil : groupLines ([] : List (MoveGroup α)) = [] := rfl

@[simp] theorem groupLines_cons (g : MoveGroup α) (gs : List (MoveGroup α)) :
    groupLines (g :: gs) = g.lines ++ groupLines gs := rfl

@[simp] theorem groupLines_append (gs hs : List (MoveGroup α)) :
    groupLines (gs ++ hs) = groupLines gs ++ groupLines hs := List.flatMap_append

/-! ## Rounding -/

/-- Some planned lines are rounded to a program, one by one. -/
def Rounds (round : α → Except Fault α) (ps : List (Planned α)) (p : Program α) : Prop :=
  List.Forall₂ (fun l l' => l.bind (Line.round round) = .ok l') ps p

/-- A planned move is rounded to another one. -/
structure RoundsMove (round : α → Except Fault α) (m m' : Move α) : Prop where
  /-- The motion is the same. -/
  motion : m'.motion = m.motion
  /-- The first coordinate is rounded. -/
  x : roundField round m.x = .ok m'.x
  /-- The second coordinate is rounded. -/
  y : roundField round m.y = .ok m'.y
  /-- The depth is rounded. -/
  z : roundField round m.z = .ok m'.z
  /-- The feed is rounded. -/
  f : roundField round m.f = .ok m'.f
  /-- The speed is left as it is. -/
  s : m'.s = m.s

section

variable {round : α → Except Fault α} {ps qs : List (Planned α)} {p : Program α}

theorem roundField_eq_some {v : α} {v' : Option α} (h : roundField round (some v) = .ok v') :
    ∃ u, round v = .ok u ∧ v' = some u := by
  rw [roundField, Fault.map_eq_ok] at h
  obtain ⟨u, hu, rfl⟩ := h
  exact ⟨u, hu, rfl⟩

theorem roundField_eq_none {v : Option α} (h : roundField round none = .ok v) : v = none := by
  cases h
  rfl

theorem isSome_of_roundField : ∀ {v v' : Option α}, roundField round v = .ok v' →
    v'.isSome = v.isSome
  | none, _, h => by rw [roundField_eq_none h]
  | some _, _, h => by
      obtain ⟨u, -, rfl⟩ := roundField_eq_some h
      rfl

theorem RoundsMove.hasXY {m m' : Move α} (h : RoundsMove round m m') : m'.hasXY = m.hasXY := by
  rw [Move.hasXY, Move.hasXY, isSome_of_roundField h.x, isSome_of_roundField h.y]

theorem round_move_eq_ok {m : Move α} {l : Line α} :
    Line.round round (.move m) = .ok l ↔ ∃ m', l = .move m' ∧ RoundsMove round m m' := by
  simp only [Line.round, Fault.bind_eq_ok, pure, Except.pure, Except.ok.injEq]
  constructor
  · rintro ⟨x, hx, y, hy, z, hz, f, hf, rfl⟩
    exact ⟨_, rfl, rfl, hx, hy, hz, hf, rfl⟩
  · rintro ⟨⟨motion, x, y, z, f, s⟩, rfl, rfl, hx, hy, hz, hf, rfl⟩
    exact ⟨x, hx, y, hy, z, hz, f, hf, rfl⟩

theorem Rounds.of_nil (h : Rounds round [] p) : p = [] := by
  cases h
  rfl

theorem Rounds.of_comment {t : String} (h : Rounds round (.ok (.comment t) :: ps) p) :
    ∃ q, p = .comment t :: q ∧ Rounds round ps q := by
  cases h with
  | cons hl hq =>
      cases hl
      exact ⟨_, rfl, hq⟩

theorem Rounds.of_move {m : Move α} (h : Rounds round (planMove m :: ps) p) :
    ∃ m' q, p = .move m' :: q ∧ RoundsMove round m m' ∧ Rounds round ps q := by
  cases h with
  | cons hl hq =>
      obtain ⟨m', rfl, hm⟩ := round_move_eq_ok.mp hl
      exact ⟨m', _, rfl, hm, hq⟩

theorem Rounds.of_append : ∀ {ps : List (Planned α)} {p : Program α}, Rounds round (ps ++ qs) p →
    ∃ q q', p = q ++ q' ∧ Rounds round ps q ∧ Rounds round qs q'
  | [], p, h => ⟨[], p, rfl, .nil, h⟩
  | _ :: _, _, .cons hl h => by
      obtain ⟨q, q', rfl, hq, hq'⟩ := Rounds.of_append h
      exact ⟨_, q', rfl, .cons hl hq, hq'⟩

/-- Planned moves without a fault are rounded to moves. -/
theorem Rounds.of_moves : ∀ {ms : List (Move α)} {p : Program α}, Rounds round (ms.map planMove) p →
    ∃ ms', p = ms'.map .move ∧ List.Forall₂ (RoundsMove round) ms ms'
  | [], _, h => ⟨[], h.of_nil, .nil⟩
  | _ :: _, _, h => by
      obtain ⟨m', q, rfl, hm, hq⟩ := h.of_move
      obtain ⟨ms', rfl, hms⟩ := Rounds.of_moves hq
      exact ⟨m' :: ms', rfl, .cons hm hms⟩

/-- A move of a rounded program is a planned one, rounded. -/
theorem Rounds.exists_move : ∀ {ps : List (Planned α)}
    {p : Program α}, Rounds round ps p → ∀ {m' : Move α}, .move m' ∈ p →
      ∃ m, planMove m ∈ ps ∧ RoundsMove round m m'
  | [], _, h, _, hm' => by
      rw [h.of_nil] at hm'
      cases hm'
  | .error _ :: _, _, .cons hl _, _, _ => by cases hl
  | .ok l :: ps, _, .cons hl h, m', hm' => by
      rcases List.mem_cons.mp hm' with rfl | hm'
      · cases l with
        | comment t => cases hl
        | move m =>
            obtain ⟨n, hn, hm⟩ := round_move_eq_ok.mp hl
            cases hn
            exact ⟨m, List.mem_cons_self .., hm⟩
      · obtain ⟨m, hplanned, hm⟩ := Rounds.exists_move h hm'
        exact ⟨m, List.mem_cons_of_mem _ hplanned, hm⟩

/-- Lines that are feed moves with a position, if they are planned at all, are rounded to such
moves. -/
theorem Rounds.of_feeds : ∀ {ps : List (Planned α)} {p : Program α}, Rounds round ps p →
    (∀ l, .ok l ∈ ps → ∃ m : Move α, l = .move m ∧ m.motion = .linear ∧ m.hasXY = true) →
    ∃ ms : List (Move α), p = ms.map .move ∧ ∀ m ∈ ms, m.motion = .linear ∧ m.hasXY = true
  | [], _, h, _ => ⟨[], h.of_nil, by simp⟩
  | .error e :: _, _, .cons hl _, _ => by cases hl
  | .ok l :: ps, _, .cons hl h, hfeeds => by
      obtain ⟨m, rfl, hlinear, hxy⟩ := hfeeds l (List.mem_cons_self ..)
      obtain ⟨m', rfl, hm⟩ := round_move_eq_ok.mp hl
      obtain ⟨ms, rfl, hms⟩ := Rounds.of_feeds h fun l hl => hfeeds l (List.mem_cons_of_mem _ hl)
      refine ⟨m' :: ms, rfl, fun n hn => ?_⟩
      rcases List.mem_cons.mp hn with rfl | hn
      · exact ⟨hm.motion.trans hlinear, hm.hasXY.trans hxy⟩
      · exact hms n hn

end

variable [Scalar α]

/-! ## Ramps -/

theorem feeds_rampMoves {fromZ toZ total travelled : α} : ∀ {a : Point α} {ps : List (Point α)}
    {l : Line α}, .ok l ∈ rampMoves fromZ toZ total travelled a ps →
      ∃ (b : Point α) (z : α), l = .move (.linear (some b.x) (some b.y) (some z) none none)
  | _, [], _, h => by cases h
  | a, b :: ps, l, h => by
      rw [rampMoves] at h
      rcases List.mem_cons.mp h with h | h
      · cases h
        exact ⟨b, _, rfl⟩
      · exact feeds_rampMoves h

/-- Every move of a ramp goes to a vertex and to a depth. -/
theorem feeds_rampFrom {d : DescentParams α} {fromZ toZ total time : α} {a : Point α}
    {ps : List (Point α)} {l : Line α} (h : .ok l ∈ rampFrom d fromZ toZ total time a ps) :
    ∃ (b : Point α) (z : α) (f s : Option α),
      l = .move (.linear (some b.x) (some b.y) (some z) f s) := by
  cases ps with
  | nil => cases h
  | cons b ps =>
      rw [rampFrom] at h
      rcases List.mem_cons.mp h with h | h
      · obtain ⟨most, -, rfl⟩ := Fault.map_eq_ok.mp h.symm
        exact ⟨b, _, _, _, rfl⟩
      · obtain ⟨b, z, rfl⟩ := feeds_rampMoves h
        exact ⟨b, z, _, _, rfl⟩

omit [Scalar α] in
/-- The way out and back ends at the vertex where it starts. -/
theorem exists_outAndBack {a : Point α} (way : List (Point α)) :
    ∃ ps, outAndBack a way = ps ++ [a] := by
  refine ⟨way ++ way.dropLast.reverse, ?_⟩
  rw [outAndBack, List.reverse_cons, List.append_assoc]

namespace ToolpathParams

/-! ## Runs -/

/-- The groups by which the tool gets from one depth to that of the run `a :: rest`. -/
inductive EmitsEntry (c : ToolpathParams α) (tabTop : α) (a : Point α) (rest : List (Point α))
    (fromZ toZ : α) : List (MoveGroup α) → Prop
  | level : ¬ toZ < fromZ → ¬ fromZ < toZ → EmitsEntry c tabTop a rest fromZ toZ []
  | ontoTab {m : Move α} :
      ¬ toZ < fromZ → fromZ < toZ → RoundsMove c.round (.rapid none none (some tabTop)) m →
      EmitsEntry c tabTop a rest fromZ toZ [.ontoTab m]
  | plunge {m : Move α} :
      toZ < fromZ →
      RoundsMove c.round (.linear none none (some toZ) (some c.descents.plungeFeed)
        c.descents.toolSpeed) m →
      EmitsEntry c tabTop a rest fromZ toZ [.plunge m]
  | ramp {planned : List (Planned α)} {way : List (Move α)} {last : Move α} :
      toZ < fromZ → ramp? c.descents a rest fromZ toZ = some (.ok .ramp :: planned) →
      Rounds c.round planned ((way ++ [last]).map .move) →
      (∀ m ∈ way ++ [last], m.motion = .linear ∧ m.hasXY = true) →
      EmitsEntry c tabTop a rest fromZ toZ [.ramp way last]

/-- A move of a cut goes to a vertex. -/
structure FeedsTo (c : ToolpathParams α) (q : Point α) (m : Move α) : Prop where
  /-- It is a linear move. -/
  motion : m.motion = .linear
  /-- It names the first coordinate. -/
  x : roundField c.round (some q.x) = .ok m.x
  /-- It names the second coordinate. -/
  y : roundField c.round (some q.y) = .ok m.y
  /-- It names the depth if paths carry their own. -/
  z : roundField c.round (c.vertexZ q) = .ok m.z

/-- The depth at which a run is cut, unless paths carry their own depth. -/
def runZ (tabTop next : α) (inside : Bool) : α := if inside then tabTop else next

/-- The groups of some runs, one list for each, and the depth after them. -/
inductive EmitsRuns (c : ToolpathParams α) (tabTop next : α) :
    Bool → α → List (List (Point α)) → List (List (MoveGroup α)) → α → Prop
  | done {inside : Bool} {z : α} : EmitsRuns c tabTop next inside z [] [] z
  | skip {inside : Bool} {z last : α} {runs : List (List (Point α))}
      {legs : List (List (MoveGroup α))} :
      EmitsRuns c tabTop next (!inside) z runs legs last →
      EmitsRuns c tabTop next inside z ([] :: runs) ([] :: legs) last
  | cut {inside : Bool} {z last : α} {a : Point α} {rest : List (Point α)}
      {runs : List (List (Point α))} {entry : List (MoveGroup α)} {ms : List (Move α)}
      {legs : List (List (MoveGroup α))} :
      (if c.usePathZ then entry = [] else c.EmitsEntry tabTop a rest z (runZ tabTop next inside)
        entry) →
      List.Forall₂ c.FeedsTo rest ms →
      EmitsRuns c tabTop next (!inside) (if c.usePathZ then z else runZ tabTop next inside) runs
        legs last →
      EmitsRuns c tabTop next inside z ((a :: rest) :: runs) ((entry ++ [.cut ms]) :: legs) last

section

variable {c : ToolpathParams α} {p : Program α}

section

variable {tabTop fromZ toZ : α} {a : Point α} {rest : List (Point α)}

theorem exists_straight (hdown : toZ < fromZ)
    (h : Rounds c.round (straightDown c.descents toZ) p) :
    ∃ gs, p = groupLines gs ∧ c.EmitsEntry tabTop a rest fromZ toZ gs := by
  obtain ⟨q, rfl, hq⟩ := h.of_comment
  obtain ⟨m, r, rfl, hm, hr⟩ := hq.of_move
  rw [hr.of_nil]
  exact ⟨[.plunge m], rfl, .plunge hdown hm⟩

theorem exists_ramped {planned : List (Planned α)} (hdown : toZ < fromZ)
    (hramp : ramp? c.descents a rest fromZ toZ = some planned) (h : Rounds c.round planned p) :
    ∃ gs, p = groupLines gs ∧ c.EmitsEntry tabTop a rest fromZ toZ gs := by
  have hplanned := hramp
  rw [ramp?] at hplanned
  split at hplanned
  next =>
    cases hplanned
    cases h with
    | cons hl _ => cases hl
  next =>
    dsimp only at hplanned
    split at hplanned
    next => cases hplanned
    next =>
      cases hplanned
      obtain ⟨q, rfl, hq⟩ := h.of_comment
      obtain ⟨ms, rfl, hms⟩ := hq.of_feeds fun l hl => by
        obtain ⟨b, z, f, s, rfl⟩ := feeds_rampFrom hl
        exact ⟨_, rfl, rfl, rfl⟩
      -- The way out and back is not empty, so there is a last move.
      rcases List.eq_nil_or_concat ms with rfl | ⟨way, last, rfl⟩
      · obtain ⟨ps, hps⟩ := exists_outAndBack (a := a)
          (rampWay (c.descents.cutFeed * _) Scalar.zero a rest).1
        rw [hps] at hq
        cases ps <;> cases hq
      · rw [List.concat_eq_append] at hq hms ⊢
        exact ⟨[.ramp way last], by simp [MoveGroup.lines, MoveGroup.comments,
          MoveGroup.moves, Line.ramp], .ramp hdown hramp hq hms⟩

theorem exists_entry (h : Rounds c.round (c.entryLines tabTop a rest fromZ toZ) p) :
    ∃ gs, p = groupLines gs ∧ c.EmitsEntry tabTop a rest fromZ toZ gs := by
  rw [entryLines] at h
  split at h
  next hdown =>
    rw [descent] at h
    split at h
    next =>
      cases hramp : ramp? c.descents a rest fromZ toZ with
      | none =>
          rw [hramp] at h
          exact exists_straight hdown h
      | some planned =>
          rw [hramp] at h
          exact exists_ramped hdown hramp h
    next => exact exists_straight hdown h
  next hdown =>
    split at h
    next hup =>
      obtain ⟨q, rfl, hq⟩ := h.of_comment
      obtain ⟨m, r, rfl, hm, hr⟩ := hq.of_move
      rw [hr.of_nil]
      exact ⟨[.ontoTab m], rfl, .ontoTab hdown hup hm⟩
    next hup =>
      rw [h.of_nil]
      exact ⟨[], rfl, .level hdown hup⟩

end

omit [Scalar α] in
theorem exists_cut {rest : List (Point α)} (h : Rounds c.round (c.cutMoves rest) p) :
    ∃ ms, p = ms.map .move ∧ List.Forall₂ c.FeedsTo rest ms := by
  have hplanned : ∃ planned : List (Move α), c.cutMoves rest = planned.map planMove ∧
      List.Forall₂ (fun q m => m.motion = .linear ∧ m.x = some q.x ∧ m.y = some q.y ∧
        m.z = c.vertexZ q) rest planned := by
    cases rest with
    | nil => exact ⟨[], rfl, .nil⟩
    | cons q qs =>
        refine ⟨_ :: qs.map fun q => .linear (some q.x) (some q.y) (c.vertexZ q) none none,
          by rw [cutMoves, List.map_cons, List.map_map]; rfl, .cons ⟨rfl, rfl, rfl, rfl⟩ ?_⟩
        rw [List.forall₂_map_right_iff]
        exact List.forall₂_same.mpr fun q _ => ⟨rfl, rfl, rfl, rfl⟩
  obtain ⟨planned, hcut, hplanned⟩ := hplanned
  rw [hcut] at h
  obtain ⟨ms, rfl, hms⟩ := h.of_moves
  refine ⟨ms, rfl, ?_⟩
  clear h hcut
  induction hplanned generalizing ms with
  | nil =>
      cases hms
      exact .nil
  | cons hq _ ih =>
      cases hms with
      | cons hm hms =>
          obtain ⟨hmotion, hx, hy, hz⟩ := hq
          exact .cons ⟨hm.motion.trans hmotion, hx ▸ hm.x, hy ▸ hm.y, hz ▸ hm.z⟩ (ih _ hms)

theorem exists_runs {tabTop next : α} : ∀ {runs : List (List (Point α))} {inside : Bool} {z : α}
    {p : Program α}, Rounds c.round (c.runLines tabTop next inside z runs).1 p →
      ∃ legs, p = groupLines legs.flatten ∧
        c.EmitsRuns tabTop next inside z runs legs (c.runLines tabTop next inside z runs).2
  | [], _, _, _, h => ⟨[], h.of_nil, .done⟩
  | [] :: runs, inside, z, p, h => by
      rw [runLines] at h ⊢
      obtain ⟨legs, rfl, hlegs⟩ := exists_runs h
      exact ⟨[] :: legs, rfl, .skip hlegs⟩
  | (a :: rest) :: runs, inside, z, p, h => by
      rw [runLines] at h ⊢
      dsimp only at h ⊢
      rw [List.append_assoc, List.cons_append] at h
      obtain ⟨q, r, rfl, hentry, hr⟩ := h.of_append
      obtain ⟨t, rfl, ht⟩ := hr.of_comment
      obtain ⟨q', u, rfl, hcut, hu⟩ := ht.of_append
      obtain ⟨ms, rfl, hms⟩ := exists_cut hcut
      obtain ⟨legs, rfl, hlegs⟩ := exists_runs hu
      have hgroups : ∃ gs, q = groupLines gs ∧ (if c.usePathZ then gs = [] else
          c.EmitsEntry tabTop a rest z (runZ tabTop next inside) gs) := by
        split at hentry
        next hpath =>
          rw [hentry.of_nil]
          exact ⟨[], rfl, by rw [if_pos hpath]⟩
        next hpath =>
          obtain ⟨gs, rfl, hgs⟩ := exists_entry hentry
          exact ⟨gs, rfl, by rwa [if_neg hpath]⟩
      obtain ⟨gs, rfl, hgs⟩ := hgroups
      refine ⟨(gs ++ [.cut ms]) :: legs, ?_, .cut hgs hms hlegs⟩
      simp [MoveGroup.lines, MoveGroup.comments, MoveGroup.moves, Line.cut]

end

/-! ## Passes -/

/-- Whether the tool rises before a pass, where `z` is the depth before it. -/
def Rises (c : ToolpathParams α) (tabs : Option (Tabs α)) (path : ReadyPath α) (z : α) : Prop :=
  z < c.safeZ ∧ (!path.safeToClose || tabs.isSome) = true

/-- A rise to the clearance height. -/
def RisesBy (c : ToolpathParams α) (m : Move α) : Prop :=
  RoundsMove c.round (.rapid none none (some c.safeZ)) m

/-- The groups before the travel of a pass. -/
inductive EmitsLead (c : ToolpathParams α) (tabs : Option (Tabs α)) (path : ReadyPath α) (z : α) :
    List (MoveGroup α) → Prop
  | stay : ¬ c.Rises tabs path z → EmitsLead c tabs path z []
  | rise {m : Move α} : c.Rises tabs path z → c.RisesBy m → EmitsLead c tabs path z [.retract m]

/-- The groups of a pass that is entered at the depth `z`, and the depth after it. -/
inductive EmitsPass (c : ToolpathParams α) (tabs : Option (Tabs α)) (path : ReadyPath α) (z : α)
    (pass : Pass α) : List (MoveGroup α) → α → Prop
  | intro {lead : List (MoveGroup α)} {travel drop : Move α} {legs : List (List (MoveGroup α))}
      {last : α} :
      c.EmitsLead tabs path z lead →
      RoundsMove c.round (.rapid (some path.start.x) (some path.start.y) none) travel →
      RoundsMove c.round (.rapid none none (some (entryZ tabs pass.finished))) drop →
      c.EmitsRuns (c.wholeZ tabs) pass.next false (entryZ tabs pass.finished)
        (c.passRuns tabs path pass) legs last →
      EmitsPass c tabs path z pass (lead ++ .travel travel drop :: legs.flatten) last

/-- The groups of some passes, one list for each. -/
inductive EmitsPasses (c : ToolpathParams α) (tabs : Option (Tabs α)) (path : ReadyPath α) :
    α → List (Pass α) → List (List (MoveGroup α)) → Prop
  | done {z : α} : EmitsPasses c tabs path z [] []
  | pass {z last : α} {pass : Pass α} {passes : List (Pass α)} {gs : List (MoveGroup α)}
      {parts : List (List (MoveGroup α))} :
      c.EmitsPass tabs path z pass gs last → EmitsPasses c tabs path last passes parts →
      EmitsPasses c tabs path z (pass :: passes) (gs :: parts)

section

variable {c : ToolpathParams α} {tabs : Option (Tabs α)}

omit [Scalar α] in
theorem exists_rise {p : Program α} {ps : List (Planned α)}
    (h : Rounds c.round (retractLines c.safeZ ++ ps) p) :
    ∃ m q, p = groupLines [.retract m] ++ q ∧ c.RisesBy m ∧ Rounds c.round ps q := by
  rw [retractLines, List.cons_append] at h
  obtain ⟨q, rfl, hq⟩ := h.of_comment
  obtain ⟨m, r, rfl, hm, hr⟩ := hq.of_move
  exact ⟨m, r, rfl, hm, hr⟩

theorem exists_pass {path : ReadyPath α} {z : α} {pass : Pass α} {p : Program α}
    (h : Rounds c.round (c.passLines tabs path z pass).1 p) :
    ∃ gs, p = groupLines gs ∧
      c.EmitsPass tabs path z pass gs (c.passLines tabs path z pass).2 := by
  rw [passLines_eq] at h ⊢
  dsimp only at h
  rw [approachLines, List.append_assoc] at h
  obtain ⟨q, r, rfl, hlead, hr⟩ := h.of_append
  have hgroups : ∃ gs, q = groupLines gs ∧ c.EmitsLead tabs path z gs := by
    split at hlead
    next hrise =>
      rw [← List.append_nil (retractLines c.safeZ)] at hlead
      obtain ⟨m, q, rfl, hm, hq⟩ := exists_rise hlead
      rw [hq.of_nil, List.append_nil]
      exact ⟨_, rfl, .rise hrise hm⟩
    next hrise =>
      rw [hlead.of_nil]
      exact ⟨[], rfl, .stay hrise⟩
  obtain ⟨lead, rfl, hleads⟩ := hgroups
  obtain ⟨q, rfl, hq⟩ := Rounds.of_comment hr
  obtain ⟨t, u, rfl, ht, hu⟩ := Rounds.of_move hq
  obtain ⟨d, v, rfl, hd, hv⟩ := Rounds.of_move hu
  obtain ⟨legs, rfl, hlegs⟩ := exists_runs hv
  exact ⟨lead ++ .travel t d :: legs.flatten, by simp [MoveGroup.lines, MoveGroup.comments,
    MoveGroup.moves, Line.rapidToStart], .intro hleads ht hd hlegs⟩

theorem exists_passes {path : ReadyPath α} : ∀ {passes : List (Pass α)} {z : α} {p : Program α},
    Rounds c.round (c.passesLines tabs path z passes) p →
      ∃ parts, p = groupLines parts.flatten ∧ c.EmitsPasses tabs path z passes parts
  | [], _, _, h => ⟨[], h.of_nil, .done⟩
  | pass :: passes, z, p, h => by
      rw [passesLines] at h
      obtain ⟨q, r, rfl, hpass, hr⟩ := Rounds.of_append h
      obtain ⟨gs, rfl, hgs⟩ := exists_pass hpass
      obtain ⟨parts, rfl, hparts⟩ := exists_passes hr
      exact ⟨gs :: parts, by simp, .pass hgs hparts⟩

end

/-! ## Paths -/

/-- A path as it is cut, whose first vertex is `p`. -/
def ready (c : ToolpathParams α) (tabs : Option (Tabs α)) (p : Point α) (path : CamPath α) :
    ReadyPath α :=
  ⟨c.convert p, path.points.map c.convert, c.runsOf tabs path.points, path.safeToClose⟩

/-- The groups of some paths, one list for each, the first path with the given index. -/
inductive EmitsPaths (c : ToolpathParams α) (tabs : Option (Tabs α)) :
    Nat → List (CamPath α) → List (List (MoveGroup α)) → Prop
  | done {i : Nat} : EmitsPaths c tabs i [] []
  | skip {i : Nat} {path : CamPath α} {paths : List (CamPath α)}
      {parts : List (List (MoveGroup α))} :
      path.points = [] → EmitsPaths c tabs (i + 1) paths parts →
      EmitsPaths c tabs i (path :: paths) ([] :: parts)
  | path {i : Nat} {path : CamPath α} {paths : List (CamPath α)} {p : Point α}
      {ps : List (Point α)} {passes parts : List (List (MoveGroup α))} {m : Move α} :
      path.points = p :: ps →
      c.EmitsPasses tabs (c.ready tabs p path) c.safeZ c.passes passes →
      c.RisesBy m → EmitsPaths c tabs (i + 1) paths parts →
      EmitsPaths c tabs i (path :: paths) ((.header i :: passes.flatten ++ [.retract m]) :: parts)

variable {c : ToolpathParams α}

theorem exists_paths {tabs : Option (Tabs α)} : ∀ {paths : List (CamPath α)} {i : Nat}
    {p : Program α}, Rounds c.round (c.pathsLines tabs i paths) p →
      ∃ parts, p = groupLines parts.flatten ∧ c.EmitsPaths tabs i paths parts
  | [], _, _, h => ⟨[], h.of_nil, .done⟩
  | path :: paths, i, p, h => by
      rw [pathsLines, pathLines] at h
      obtain ⟨q, r, rfl, hpath, hr⟩ := h.of_append
      obtain ⟨parts, rfl, hparts⟩ := exists_paths hr
      cases hpoints : path.points with
      | nil =>
          rw [hpoints] at hpath
          rw [hpath.of_nil]
          exact ⟨[] :: parts, rfl, .skip hpoints hparts⟩
      | cons v vs =>
          rw [hpoints] at hpath
          dsimp only at hpath
          rw [List.cons_append, List.cons_append] at hpath
          obtain ⟨q, rfl, hq⟩ := hpath.of_comment
          obtain ⟨s, rfl, hs⟩ := hq.of_comment
          obtain ⟨q, q', rfl, hpasses, hrise⟩ := hs.of_append
          obtain ⟨passes, rfl, hemits⟩ := exists_passes hpasses
          rw [← List.append_nil (retractLines c.safeZ)] at hrise
          obtain ⟨m, t, rfl, hm, ht⟩ := exists_rise hrise
          rw [← hpoints] at hemits
          refine ⟨(.header i :: passes.flatten ++ [.retract m]) :: parts, ?_,
            .path hpoints hemits hm hparts⟩
          rw [ht.of_nil]
          simp [MoveGroup.lines, MoveGroup.comments, MoveGroup.moves, Line.blank, Line.pathStart]

/-- A compiled program is a rise and the groups of its paths. -/
theorem exists_groups {paths : List (CamPath α)} {p : Program α} (h : c.compile paths = .ok p) :
    ∃ rise parts, p = groupLines (.retract rise :: parts.flatten) ∧ c.RisesBy rise ∧
      c.EmitsPaths c.activeTabs 0 paths parts := by
  have hplan : Rounds c.round (c.plan paths) p := Fault.mapM_eq_ok.mp h
  obtain ⟨m, q, rfl, hm, hq⟩ := exists_rise hplan
  obtain ⟨parts, rfl, hparts⟩ := exists_paths hq
  exact ⟨m, parts, by simp, hm, hparts⟩

/-! ## Properties of groups -/

/-- A property that the groups of a compiled program have, each for what the compiler knows of it.
-/
structure OfGroups (c : ToolpathParams α) (P : MoveGroup α → Prop) : Prop where
  /-- Rises to the clearance height have it. -/
  rise {m : Move α} : c.RisesBy m → P (.retract m)
  /-- The headers of paths have it. -/
  header (index : Nat) : P (.header index)
  /-- Travel to a vertex and down has it. -/
  travel {v : Point α} {z : α} {t d : Move α} :
    RoundsMove c.round (.rapid (some v.x) (some v.y) none) t →
    RoundsMove c.round (.rapid none none (some z)) d → P (.travel t d)
  /-- The groups that enter a run have it. -/
  entry {tabTop fromZ toZ : α} {a : Point α} {rest : List (Point α)} {gs : List (MoveGroup α)} :
    c.EmitsEntry tabTop a rest fromZ toZ gs → ∀ g ∈ gs, P g
  /-- Cuts through vertices have it. -/
  cut {rest : List (Point α)} {ms : List (Move α)} : List.Forall₂ c.FeedsTo rest ms → P (.cut ms)

section

variable {P : MoveGroup α → Prop} {tabs : Option (Tabs α)}

theorem EmitsRuns.forall_groups
    (hentry : ∀ {tabTop a rest fromZ toZ gs}, c.EmitsEntry tabTop a rest fromZ toZ gs →
      ∀ g ∈ gs, P g)
    (hcut : ∀ {rest ms}, List.Forall₂ c.FeedsTo rest ms → P (.cut ms)) {tabTop next z last : α}
    {inside : Bool} {runs : List (List (Point α))} {legs : List (List (MoveGroup α))}
    (h : c.EmitsRuns tabTop next inside z runs legs last) : ∀ g ∈ legs.flatten, P g := by
  induction h with
  | done => simp
  | skip _ ih => simpa using ih
  | cut hgs hms _ ih =>
      intro g hg
      rw [List.flatten_cons, List.mem_append, List.mem_append, List.mem_singleton] at hg
      rcases hg with (hg | rfl) | hg
      · split at hgs
        · rw [hgs] at hg
          cases hg
        · exact hentry hgs g hg
      · exact hcut hms
      · exact ih g hg

theorem EmitsPasses.forall_groups (hP : c.OfGroups P) {path : ReadyPath α} {z : α}
    {passes : List (Pass α)} {parts : List (List (MoveGroup α))}
    (h : c.EmitsPasses tabs path z passes parts) : ∀ g ∈ parts.flatten, P g := by
  induction h with
  | done => simp
  | pass hpass _ ih =>
      intro g hg
      rw [List.flatten_cons, List.mem_append] at hg
      refine hg.elim (fun hg => ?_) (ih g)
      cases hpass with
      | intro hlead htravel hdrop hlegs =>
          rcases List.mem_append.mp hg with hg | hg
          · cases hlead with
            | stay => cases hg
            | rise _ hm => exact List.mem_singleton.mp hg ▸ hP.rise hm
          · rcases List.mem_cons.mp hg with rfl | hg
            · exact hP.travel htravel hdrop
            · exact hlegs.forall_groups hP.entry hP.cut g hg

theorem EmitsPaths.forall_groups (hP : c.OfGroups P) {i : Nat} {paths : List (CamPath α)}
    {parts : List (List (MoveGroup α))} (h : c.EmitsPaths tabs i paths parts) :
    ∀ g ∈ parts.flatten, P g := by
  induction h with
  | done => simp
  | skip _ _ ih => simpa using ih
  | path _ hpasses hm _ ih =>
      intro g hg
      rw [List.flatten_cons, List.mem_append, List.mem_append, List.mem_cons,
        List.mem_singleton] at hg
      rcases hg with ((rfl | hg) | rfl) | hg
      · exact hP.header _
      · exact hpasses.forall_groups hP g hg
      · exact hP.rise hm
      · exact ih g hg

end

end ToolpathParams

end WireErosion
