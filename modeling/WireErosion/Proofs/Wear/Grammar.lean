import WireErosion.Proofs.Number.Difference
import WireErosion.Proofs.Wear.Cuttings

/-!
# The grammar of compiled programs

What a compiled program consists of can be read off its comments.  Each marker announces the moves
up to the next comment (`Announces`): how many there are, how they are driven, and which fields
they name.  `ToolpathParams.grammatical_of_compile` says that the compiler keeps to this grammar,
for all paths and all parameters with which it has a result.

The moves of a ramp are the least obvious part.  There are at least two of them, since a ramp
without a way is never started, and the way back is as long as the way out.
-/

namespace WireErosion

variable {α : Type}

/-! ## Announced moves -/

/-- A move along the depth. -/
def Move.IsVertical (m : Move α) : Prop := m.x = none ∧ m.y = none ∧ m.z.isSome = true

/-- A move that names both axes of the plane. -/
def Move.IsPlanar (m : Move α) : Prop := m.x.isSome = true ∧ m.y.isSome = true

/-- The moves that a comment of a kind announces. -/
def Announces : LineKind → List (Move α) → Prop
  | .cut, ms => ∀ m ∈ ms, m.motion = .linear ∧ m.IsPlanar
  | .retract, ms | .retractForTab, ms => ∃ m, ms = [m] ∧ m.motion = .rapid ∧ m.IsVertical
  | .rapidToStart, ms => ∃ t d, ms = [t, d] ∧ t.motion = .rapid ∧ t.IsPlanar ∧ t.z = none ∧
      d.motion = .rapid ∧ d.IsVertical
  | .plunge, ms => ∃ m, ms = [m] ∧ m.motion = .linear ∧ m.IsVertical
  | .ramp, ms => 2 ≤ ms.length ∧ ∀ m ∈ ms, m.motion = .linear ∧ m.IsPlanar ∧ m.z.isSome = true
  | _, ms => ms = []

/-- Each comment is followed by the moves that it announces, and then by another comment or by the
end. -/
def Program.Grammatical (p : Program α) : Prop :=
  ∀ pre t post, p = pre ++ Line.comment t :: post → Announces (Comment.kind t) (leadingMoves post)

/-- A group with the moves that its comments announce. -/
def MoveGroup.Announced (g : MoveGroup α) : Prop := ∀ k ∈ g.marks, Announces k g.moves

/-- The only comment before some moves is at their front. -/
theorem leadingMoves_of_comment {l : Line α} {ms : List (Move α)} {pre mid : Program α} {t : String}
    (h : l :: ms.map .move = pre ++ Line.comment t :: mid) : leadingMoves mid = ms := by
  cases pre with
  | nil =>
      obtain ⟨-, rfl⟩ := List.cons_eq_cons.mp h
      exact leadingMoves_moves ms
  | cons k pre =>
      obtain ⟨-, hms⟩ := List.cons_eq_cons.mp h
      have hmem : .comment t ∈ ms.map Line.move := by simp [hms]
      simp at hmem

/-- A comment of a group, and the moves after it. -/
theorem MoveGroup.announces_of_lines {g : MoveGroup α} (hg : g.Announced) {pre mid : Program α}
    {t : String} (h : g.lines = pre ++ Line.comment t :: mid) :
    Announces (Comment.kind t) (leadingMoves mid) := by
  have hmark : Comment.kind t ∈ g.marks := by
    have hmem : .comment t ∈ g.lines := by simp [h]
    rw [lines, List.mem_append] at hmem
    rcases hmem with hmem | hmem
    · rw [← kind_comments]
      exact List.mem_map_of_mem (f := Line.kind) hmem
    · simp at hmem
  have hmoves : leadingMoves mid = g.moves := by
    cases g with
    | header i =>
        -- A path has two comments, and no moves after either of them.
        cases pre with
        | nil =>
            obtain ⟨-, rfl⟩ := List.cons_eq_cons.mp h
            rfl
        | cons k pre =>
            obtain ⟨-, hrest⟩ := List.cons_eq_cons.mp h
            exact leadingMoves_of_comment hrest
    | _ => exact leadingMoves_of_comment h
  rw [hmoves]
  exact hg _ hmark

theorem grammatical_groupLines : ∀ {gs : List (MoveGroup α)}, (∀ g ∈ gs, g.Announced) →
    Program.Grammatical (groupLines gs)
  | [], _, pre, t, post, h => by simp at h
  | g :: gs, hgs, pre, t, post, h => by
      obtain ⟨hg, hgs'⟩ := List.forall_mem_cons.mp hgs
      rw [groupLines_cons] at h
      rcases List.append_eq_append_iff.mp h with ⟨mid, rfl, hmid⟩ | ⟨mid, hlines, hmid⟩
      · exact grammatical_groupLines hgs' mid t post hmid
      · cases mid with
        | nil => exact grammatical_groupLines hgs' [] t post hmid.symm
        | cons l mid =>
            obtain ⟨rfl, rfl⟩ := List.cons_eq_cons.mp hmid
            change Announces (Comment.kind t) (leadingMoves (mid ++ groupLines gs))
            rw [leadingMoves_append (leadingMoves_groupLines gs)]
            exact MoveGroup.announces_of_lines hg hlines

/-! ## Rounded moves -/

section

variable {round : α → Except Fault α} {m m' : Move α}

theorem RoundsMove.isVertical (h : RoundsMove round m m') (hm : m.IsVertical) : m'.IsVertical :=
  ⟨roundField_eq_none (hm.1 ▸ h.x), roundField_eq_none (hm.2.1 ▸ h.y),
    (isSome_of_roundField h.z).trans hm.2.2⟩

theorem RoundsMove.isPlanar (h : RoundsMove round m m') (hm : m.IsPlanar) : m'.IsPlanar :=
  ⟨(isSome_of_roundField h.x).trans hm.1, (isSome_of_roundField h.y).trans hm.2⟩

end

variable [Scalar α]

/-! ## Ramps -/

theorem length_rampMoves (fromZ toZ total : α) : ∀ (travelled : α) (a : Point α)
    (ps : List (Point α)), (rampMoves fromZ toZ total travelled a ps).length = ps.length
  | _, _, [] => rfl
  | _, _, b :: ps => congrArg (· + 1) (length_rampMoves fromZ toZ total _ b ps)

theorem length_rampFrom (d : DescentParams α) (fromZ toZ total time : α) (a : Point α)
    (ps : List (Point α)) : (rampFrom d fromZ toZ total time a ps).length = ps.length := by
  cases ps with
  | nil => rfl
  | cons b ps => exact congrArg (· + 1) (length_rampMoves ..)

variable [SteppingScalar α]

/-- A way that has a length has a vertex. -/
theorem rampWay_ne_nil {ideal : α} {a : Point α} {ps : List (Point α)}
    (h : ¬ (rampWay ideal Scalar.zero a ps).2 ≤ Scalar.zero) :
    (rampWay ideal Scalar.zero a ps).1 ≠ [] := by
  cases ps with
  | nil => exact absurd SteppingScalar.zero_le_zero h
  | cons b ps =>
      rw [rampWay] at h ⊢
      split at h
      next hideal =>
        rw [if_pos hideal]
        exact List.cons_ne_nil _ _
      next => exact absurd SteppingScalar.zero_le_zero h

/-- The moves of a ramp that is started. -/
theorem announces_ramp {d : DescentParams α} {a : Point α} {rest : List (Point α)} {fromZ toZ : α}
    {planned : List (Planned α)} (h : ramp? d a rest fromZ toZ = some (.ok .ramp :: planned))
    {round : α → Except Fault α} {ms : List (Move α)}
    (hround : Rounds round planned (ms.map .move)) : Announces .ramp ms := by
  have hplanned : ∃ total time way, way ≠ [] ∧
      planned = rampFrom d fromZ toZ total time a (outAndBack a way) := by
    rw [ramp?] at h
    split at h
    next => cases h
    next =>
      dsimp only at h
      split at h
      next => cases h
      next htotal =>
        cases h
        exact ⟨_, _, _, rampWay_ne_nil htotal, rfl⟩
  obtain ⟨total, time, way, hway, rfl⟩ := hplanned
  constructor
  · have hlength := hround.length_eq
    rw [length_rampFrom, List.length_map, outAndBack, List.length_append, List.length_reverse,
      List.length_cons] at hlength
    have hpos := List.length_pos_iff.mpr hway
    omega
  · intro m hm
    obtain ⟨m', hplanned, hm'⟩ := hround.exists_move (List.mem_map_of_mem hm)
    obtain ⟨b, z, f, s, hmove⟩ := feeds_rampFrom hplanned
    cases hmove
    exact ⟨hm'.motion, hm'.isPlanar ⟨rfl, rfl⟩, isSome_of_roundField hm'.z⟩

/-! ## Compiled groups -/

namespace ToolpathParams

variable {c : ToolpathParams α}

theorem EmitsEntry.announced {tabTop fromZ toZ : α} {a : Point α} {rest : List (Point α)}
    {gs : List (MoveGroup α)} (h : c.EmitsEntry tabTop a rest fromZ toZ gs) :
    ∀ g ∈ gs, g.Announced := by
  intro g hg
  cases h with
  | level => cases hg
  | ontoTab _ _ hm =>
      rw [List.mem_singleton] at hg
      subst hg
      exact List.forall_mem_singleton.mpr ⟨_, rfl, hm.motion, hm.isVertical ⟨rfl, rfl, rfl⟩⟩
  | plunge _ hm =>
      rw [List.mem_singleton] at hg
      subst hg
      exact List.forall_mem_singleton.mpr ⟨_, rfl, hm.motion, hm.isVertical ⟨rfl, rfl, rfl⟩⟩
  | ramp _ hramp hround =>
      rw [List.mem_singleton] at hg
      subst hg
      exact List.forall_mem_singleton.mpr (announces_ramp hramp hround)

omit [Scalar α] [SteppingScalar α] in
theorem announces_cut {rest : List (Point α)} {ms : List (Move α)}
    (h : List.Forall₂ c.FeedsTo rest ms) : Announces .cut ms := by
  induction h with
  | nil => exact fun m hm => by cases hm
  | cons hm _ ih =>
      exact List.forall_mem_cons.mpr
        ⟨⟨hm.motion, isSome_of_roundField hm.x, isSome_of_roundField hm.y⟩, ih⟩

theorem ofGroups_announced : c.OfGroups MoveGroup.Announced where
  rise hm := List.forall_mem_singleton.mpr ⟨_, rfl, hm.motion, hm.isVertical ⟨rfl, rfl, rfl⟩⟩
  header _ := List.forall_mem_cons.mpr ⟨rfl, List.forall_mem_singleton.mpr rfl⟩
  travel ht hd := List.forall_mem_singleton.mpr ⟨_, _, rfl, ht.motion, ht.isPlanar ⟨rfl, rfl⟩,
    roundField_eq_none ht.z, hd.motion, hd.isVertical ⟨rfl, rfl, rfl⟩⟩
  entry h := h.announced
  cut h := List.forall_mem_singleton.mpr (announces_cut h)

/-- A compiled program is made of groups with the moves that they announce. -/
theorem grammatical_of_compile {paths : List (CamPath α)} {p : Program α}
    (h : c.compile paths = .ok p) : p.Grammatical := by
  obtain ⟨rise, parts, rfl, hrise, hparts⟩ := exists_groups h
  exact grammatical_groupLines (List.forall_mem_cons.mpr
    ⟨ofGroups_announced.rise hrise, hparts.forall_groups ofGroups_announced⟩)

end ToolpathParams

end WireErosion
