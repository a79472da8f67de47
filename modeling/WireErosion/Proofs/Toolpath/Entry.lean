import WireErosion.Proofs.Toolpath.Group
import WireErosion.Wear.Subdivide

/-!
# Entries in exact arithmetic

The groups by which the tool gets to the depth of a run leave it where it was in the plane, since a
ramp ends at the vertex where it starts, and at the depth of the run.  All of their moves stay
between the two depths.
-/

namespace WireErosion

/-! ## Position and depth along a program -/

/-- The position in the plane after some lines, where `p` is the one before them. -/
def positionAfter {α : Type} (p : Modal α) : Program α → Modal α
  | [] => p
  | .comment _ :: ls => positionAfter p ls
  | .move m :: ls => positionAfter (p.after m) ls

theorem positionAfter_append {α : Type} : ∀ (a : Modal α) (p q : Program α),
    positionAfter a (p ++ q) = positionAfter (positionAfter a p) q
  | _, [], _ => rfl
  | a, .comment _ :: p, q => positionAfter_append a p q
  | a, .move m :: p, q => positionAfter_append (a.after m) p q

theorem MoveGroup.positionAfter_lines {α : Type} (g : MoveGroup α) (p : Modal α) :
    positionAfter p g.lines = positionAfter p (g.moves.map .move) := by
  cases g <;> rfl

theorem MoveGroup.depthAfter_lines {α : Type} (g : MoveGroup α) (z : Option α) :
    depthAfter z g.lines = depthAfter z (g.moves.map .move) := by
  cases g <;> rfl

theorem mem_groupLines {α : Type} {gs : List (MoveGroup α)} {m : Move α} :
    .move m ∈ groupLines gs ↔ ∃ g ∈ gs, m ∈ g.moves := by
  rw [groupLines, List.mem_flatMap]
  refine exists_congr fun g => and_congr_right fun _ => ?_
  rw [MoveGroup.lines, List.mem_append, List.mem_map]
  constructor
  · rintro (hm | ⟨n, hn, heq⟩)
    · exact absurd hm (g.not_move_comments m)
    · cases heq
      exact hn
  · exact fun hm => .inr ⟨m, hm, rfl⟩

/-- The position of a vertex that is rounded. -/
def Point.rounded (r : ℝ → ℝ) (q : Point ℝ) : Modal ℝ := (some (r q.x), some (r q.y))

/-- The positions that a group names.  A ramp goes back to where it starts, so what it names on its
way is left out. -/
def MoveGroup.visits {α : Type} : MoveGroup α → List (Modal α)
  | .ramp _ _ => []
  | g => (g.moves.filter Move.hasXY).map fun m => (m.x, m.y)

/-- The positions that some groups name. -/
def visits {α : Type} (gs : List (MoveGroup α)) : List (Modal α) := gs.flatMap MoveGroup.visits

theorem MoveGroup.visits_eq_nil {α : Type} {g : MoveGroup α} (h : ∀ m ∈ g.moves, m.hasXY = false) :
    g.visits = [] := by
  cases g with
  | ramp => rfl
  | _ =>
      rw [MoveGroup.visits, List.filter_eq_nil_iff.mpr (by simpa using h), List.map_nil]
      nofun

/-- At each move of some lines the commanded depth is at or above `b`, where `a` is the one before
them. -/
def StaysAbove (b : ℝ) : Option ℝ → Program ℝ → Prop
  | _, [] => True
  | a, .comment _ :: ls => StaysAbove b a ls
  | a, .move m :: ls => (∃ z, (m.z <|> a) = some z ∧ b ≤ z) ∧ StaysAbove b (m.z <|> a) ls

theorem StaysAbove.append {b : ℝ} {q : Program ℝ} : ∀ {p : Program ℝ} {a : Option ℝ},
    StaysAbove b a p → StaysAbove b (depthAfter a p) q → StaysAbove b a (p ++ q)
  | [], _, _, hq => hq
  | .comment _ :: p, _, hp, hq => StaysAbove.append (p := p) hp hq
  | .move _ :: _, _, ⟨hm, hp⟩, hq => ⟨hm, hp.append hq⟩

theorem StaysAbove.mono {b b' : ℝ} (hb : b' ≤ b) : ∀ {p : Program ℝ} {a : Option ℝ},
    StaysAbove b a p → StaysAbove b' a p
  | [], _, _ => trivial
  | .comment _ :: p, _, h => StaysAbove.mono hb (p := p) h
  | .move _ :: _, _, ⟨⟨z, hz, hle⟩, h⟩ => ⟨⟨z, hz, hb.trans hle⟩, h.mono hb⟩

/-- Moves that name no depth stay at the one before them. -/
theorem StaysAbove.of_level {b a : ℝ} (hb : b ≤ a) : ∀ {ms : List (Move ℝ)},
    (∀ m ∈ ms, m.z = none) → StaysAbove b (some a) (ms.map .move)
  | [], _ => trivial
  | m :: ms, h => by
      obtain ⟨hm, hms⟩ := List.forall_mem_cons.mp h
      rw [List.map_cons, StaysAbove, hm]
      exact ⟨⟨a, rfl, hb⟩, of_level hb hms⟩

theorem MoveGroup.staysAbove_lines {b : ℝ} {a : Option ℝ} (g : MoveGroup ℝ) :
    StaysAbove b a g.lines ↔ StaysAbove b a (g.moves.map .move) := by
  cases g <;> rfl

theorem Falls.le {a b : ℝ} {ms : List (Move ℝ)} (h : Falls a ms b) : b ≤ a := by
  induction h with
  | done => exact le_rfl
  | step _ hle _ ih => exact ih.trans hle

theorem Falls.staysAbove {a b : ℝ} {ms : List (Move ℝ)} (h : Falls a ms b) (z : Option ℝ) :
    StaysAbove b z (ms.map .move) := by
  induction h generalizing z with
  | done => trivial
  | @step a b z' m ms hz _ hfalls ih =>
      rw [List.map_cons, StaysAbove, hz]
      exact ⟨⟨z', rfl, hfalls.le⟩, ih _⟩

theorem Falls.depthAfter_eq {a b : ℝ} {ms : List (Move ℝ)} (h : Falls a ms b) :
    depthAfter (some a) (ms.map .move) = some b := by
  induction h with
  | done => rfl
  | step hz _ _ ih =>
      rw [List.map_cons, depthAfter, hz]
      exact ih

/-! ## Rounded moves -/

section

variable {round : ℝ → Except Fault ℝ} {r : ℝ → ℝ}

theorem RoundsMove.x_eq (hround : IsRounding round r) {m m' : Move ℝ} (h : RoundsMove round m m') :
    m'.x = m.x.map r :=
  (Except.ok.inj ((roundField_eq hround m.x).symm.trans h.x)).symm

theorem RoundsMove.y_eq (hround : IsRounding round r) {m m' : Move ℝ} (h : RoundsMove round m m') :
    m'.y = m.y.map r :=
  (Except.ok.inj ((roundField_eq hround m.y).symm.trans h.y)).symm

theorem RoundsMove.z_eq (hround : IsRounding round r) {m m' : Move ℝ} (h : RoundsMove round m m') :
    m'.z = m.z.map r :=
  (Except.ok.inj ((roundField_eq hround m.z).symm.trans h.z)).symm

theorem Falls.rounded (hround : IsRounding round r) {a b : ℝ} {ms ms' : List (Move ℝ)}
    (h : Falls a ms b) (hms : List.Forall₂ (RoundsMove round) ms ms') : Falls (r a) ms' (r b) := by
  induction h generalizing ms' with
  | done =>
      cases hms
      exact .done
  | step hz hle _ ih =>
      cases hms with
      | cons hm hms =>
          refine .step ?_ (hround.mono hle) (ih hms)
          rw [hm.z_eq hround, hz]
          rfl

end

/-! ## Ramps -/

section

variable {d : DescentParams ℝ} {a : Point ℝ} {rest : List (Point ℝ)} {fromZ toZ : ℝ}

theorem positions_rampMoves {total travelled : ℝ} : ∀ {ps : List (Point ℝ)} {a : Point ℝ}
    {ms : List (Move ℝ)}, rampMoves fromZ toZ total travelled a ps = ms.map planMove →
      List.Forall₂ (fun q m => m.x = some q.x ∧ m.y = some q.y) ps ms
  | [], _, ms, h => by
      cases ms with
      | nil => exact .nil
      | cons m ms => cases h
  | q :: ps, _, ms, h => by
      cases ms with
      | nil => cases h
      | cons m ms =>
          rw [rampMoves, List.map_cons] at h
          obtain ⟨hm, hms⟩ := List.cons_eq_cons.mp h
          cases hm
          exact .cons ⟨rfl, rfl⟩ (positions_rampMoves hms)

theorem positions_rampFrom {total time : ℝ} {ps : List (Point ℝ)} {ms : List (Move ℝ)}
    (h : rampFrom d fromZ toZ total time a ps = ms.map planMove) :
    List.Forall₂ (fun q m => m.x = some q.x ∧ m.y = some q.y) ps ms := by
  cases ps with
  | nil =>
      cases ms with
      | nil => exact .nil
      | cons m ms => cases h
  | cons q ps =>
      cases ms with
      | nil => cases h
      | cons m ms =>
          rw [rampFrom, List.map_cons] at h
          obtain ⟨hm, hms⟩ := List.cons_eq_cons.mp h
          obtain ⟨most, -, hmove⟩ := Fault.map_eq_ok.mp hm
          cases hmove
          exact .cons ⟨rfl, rfl⟩ (positions_rampMoves hms)

/-- A ramp has no time at a zero plunge feed. -/
theorem ramp?_of_feed_zero (hfeed : d.plungeFeed = 0) :
    ramp? d a rest fromZ toZ = some [.error .divisionByZero] := by
  have hbeq : (d.plungeFeed == (Scalar.zero : ℝ)) = true :=
    decide_eq_true (by rw [Exact.zero_eq]; exact hfeed)
  rw [ramp?, Scalar.quotient, hbeq]
  rfl

/-- The moves of a ramp go down to the depth that it is made for, and the last one goes back to the
vertex where it starts. -/
theorem exists_rampMoves_of_ramp? {planned : List (Planned ℝ)} (hlt : toZ < fromZ)
    (h : ramp? d a rest fromZ toZ = some (.ok .ramp :: planned)) :
    ∃ (ms : List (Move ℝ)) (last : Move ℝ), planned = (ms ++ [last]).map planMove ∧
      Falls fromZ (ms ++ [last]) toZ ∧ last.x = some a.x ∧ last.y = some a.y := by
  by_cases hfeed : d.plungeFeed = 0
  · rw [ramp?_of_feed_zero hfeed] at h
    cases h
  · rw [ramp?, Exact.quotient_eq hfeed] at h
    dsimp only at h
    split at h
    next => cases h
    next htotal =>
      cases h
      rw [Exact.zero_eq] at htotal ⊢
      have htime : (fromZ - toZ) / d.plungeFeed ≠ 0 :=
        div_ne_zero (sub_pos.mpr hlt).ne' hfeed
      obtain ⟨ms, hms, hfalls⟩ := exists_rampFrom d hlt (not_le.mp htotal) htime a
        (outAndBack a (rampWay (d.cutFeed * ((fromZ - toZ) / d.plungeFeed)) 0 a rest).1)
      have hend : rampDepth fromZ toZ
          (rampWay (d.cutFeed * ((fromZ - toZ) / d.plungeFeed)) 0 a rest).2
          (wayLength a (outAndBack a
            (rampWay (d.cutFeed * ((fromZ - toZ) / d.plungeFeed)) 0 a rest).1)) = toZ := by
        rw [outAndBack_length, ← zero_add (2 * _), ← rampWay_length]
        exact rampDepth_total fromZ toZ (not_le.mp htotal)
      rw [hend] at hfalls
      have hpositions := positions_rampFrom hms
      rw [outAndBack_eq] at hpositions
      rcases List.eq_nil_or_concat ms with rfl | ⟨front, last, rfl⟩
      · simpa using hpositions.length_eq
      · rw [List.concat_eq_append] at hms hfalls hpositions
        rw [← List.forall₂_reverse_iff, List.reverse_append, List.reverse_append] at hpositions
        cases hpositions with
        | cons hlast _ => exact ⟨front, last, hms, hfalls, hlast⟩

end

/-! ## Entries -/

/-- A group by which the tool gets to the depth of a run. -/
def MoveGroup.IsEntry {α : Type} : MoveGroup α → Prop
  | .plunge _ | .ramp _ _ | .ontoTab _ => True
  | _ => False

/-- What the groups before a cut do, where `a` is the first vertex of its run. -/
structure Enters (r : ℝ → ℝ) (a : Point ℝ) (fromZ toZ : ℝ) (gs : List (MoveGroup ℝ)) : Prop where
  /-- There is at most one group, and it is an entry. -/
  shape : gs = [] ∨ ∃ g, gs = [g] ∧ g.IsEntry
  /-- They end where they start. -/
  position : positionAfter (a.rounded r) (groupLines gs) = a.rounded r
  /-- They end at the depth of the run. -/
  depth : depthAfter (some (r fromZ)) (groupLines gs) = some (r toZ)
  /-- They stay above that depth. -/
  above : ∀ z : Option ℝ, StaysAbove (r toZ) z (groupLines gs)
  /-- They rise only if the run is higher, and to its depth. -/
  ontoTab : ∀ m, .ontoTab m ∈ gs → fromZ < toZ ∧ m.z = some (r toZ)
  /-- They visit no vertex of the run. -/
  visits : visits gs = []

section

variable {c : ToolpathParams ℝ} {r : ℝ → ℝ} {a : Point ℝ} {fromZ toZ : ℝ}

/-- A move along the depth alone. -/
theorem RoundsMove.vertical (hround : IsRounding c.round r) {m m' : Move ℝ}
    (h : RoundsMove c.round m m') (hx : m.x = none) (hy : m.y = none) {z : ℝ}
    (hz : m.z = some z) : (∀ p : Modal ℝ, p.after m' = p) ∧ m'.z = some (r z) := by
  refine ⟨fun p => ?_, by rw [h.z_eq hround, hz]; rfl⟩
  rw [Modal.after, h.x_eq hround, h.y_eq hround, hx, hy]
  rfl

/-- An entry that is one group. -/
theorem Enters.singleton {g : MoveGroup ℝ} (hg : g.IsEntry) (hvisits : g.visits = [])
    (hposition : positionAfter (a.rounded r) (g.moves.map .move) = a.rounded r)
    (hdepth : depthAfter (some (r fromZ)) (g.moves.map .move) = some (r toZ))
    (habove : ∀ z : Option ℝ, StaysAbove (r toZ) z (g.moves.map .move))
    (hup : ∀ m, g = .ontoTab m → fromZ < toZ ∧ m.z = some (r toZ)) :
    Enters r a fromZ toZ [g] where
  shape := .inr ⟨g, rfl, hg⟩
  position := by
    rw [groupLines_cons, groupLines_nil, List.append_nil, g.positionAfter_lines, hposition]
  depth := by rw [groupLines_cons, groupLines_nil, List.append_nil, g.depthAfter_lines, hdepth]
  above := by
    intro z
    rw [groupLines_cons, groupLines_nil, List.append_nil, g.staysAbove_lines]
    exact habove z
  ontoTab := by
    intro m hm
    exact hup m (List.mem_singleton.mp hm).symm
  visits := by rw [WireErosion.visits, List.flatMap_singleton, hvisits]

/-- An entry that is one move along the depth. -/
theorem Enters.vertical (hround : IsRounding c.round r) {g : MoveGroup ℝ} {m m' : Move ℝ}
    (hg : g.IsEntry) (hmoves : g.moves = [m']) (hm : RoundsMove c.round m m') (hx : m.x = none)
    (hy : m.y = none) (hz : m.z = some toZ) (hup : ∀ n, g = .ontoTab n → fromZ < toZ) :
    Enters r a fromZ toZ [g] := by
  obtain ⟨hposition, hz'⟩ := hm.vertical hround hx hy hz
  have hsilent : ∀ n ∈ g.moves, n.hasXY = false := by
    intro n hn
    rw [hmoves, List.mem_singleton] at hn
    rw [hn, hm.hasXY, Move.hasXY, hx, hy]
    rfl
  refine .singleton hg (MoveGroup.visits_eq_nil hsilent) ?_ ?_ ?_ fun n hn => ⟨hup n hn, ?_⟩
  · rw [hmoves]
    exact hposition _
  · rw [hmoves, List.map_cons, List.map_nil, depthAfter, hz']
    rfl
  · intro z
    rw [hmoves, List.map_cons, StaysAbove, hz']
    exact ⟨⟨_, rfl, le_rfl⟩, trivial⟩
  · rw [hn, MoveGroup.moves] at hmoves
    rw [(List.cons_eq_cons.mp hmoves).1, hz']

/-- The entry of a run whose depth is the top of the tabs if it is above the depth before. -/
theorem ToolpathParams.EmitsEntry.enters (hround : IsRounding c.round r) {tabTop : ℝ}
    {rest : List (Point ℝ)} {gs : List (MoveGroup ℝ)} (hup : fromZ < toZ → toZ = tabTop)
    (h : c.EmitsEntry tabTop a rest fromZ toZ gs) : Enters r a fromZ toZ gs := by
  cases h with
  | level hdown hup' =>
      obtain rfl := le_antisymm (not_lt.mp hdown) (not_lt.mp hup')
      exact ⟨.inl rfl, rfl, rfl, fun _ => trivial, by simp, rfl⟩
  | ontoTab hdown hlt hm =>
      rw [← hup hlt] at hm
      exact .vertical hround trivial rfl hm rfl rfl rfl fun _ _ => hlt
  | plunge hlt hm => exact .vertical hround trivial rfl hm rfl rfl rfl fun n hn => by cases hn
  | @ramp planned way last hlt hramp hrounds _ =>
      obtain ⟨ms, end', rfl, hfalls, hx, hy⟩ := exists_rampMoves_of_ramp? hlt hramp
      obtain ⟨ms', hlines, hms⟩ := Rounds.of_moves hrounds
      rw [List.map_inj_right fun _ _ => Line.move.inj] at hlines
      rw [← hlines] at hms
      have hrounded := hfalls.rounded hround hms
      have hlast : RoundsMove c.round end' last := by
        rw [← List.forall₂_reverse_iff, List.reverse_append, List.reverse_append] at hms
        cases hms with
        | cons hlast _ => exact hlast
      refine .singleton trivial rfl ?_ hrounded.depthAfter_eq hrounded.staysAbove
        fun n hn => by cases hn
      have hend : ∀ p : Modal ℝ, p.after last = a.rounded r := by
        intro p
        rw [Modal.after, hlast.x_eq hround, hlast.y_eq hround, hx, hy]
        rfl
      rw [MoveGroup.moves, List.map_append, positionAfter_append]
      exact hend _

end

end WireErosion
