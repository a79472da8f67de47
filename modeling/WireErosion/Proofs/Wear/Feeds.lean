import WireErosion.Proofs.Wear.Cuttings
import WireErosion.Proofs.Wear.Parsed

/-!
# The feeds of cuts

A feed stays in force until the next one is named.  `cutFeeds` lists the feeds in force at the moves
of the cut blocks of a program, and `linearFeeds` those at its linear moves.

The compiler names the cutting feed at the first move of every cut, and nowhere else in it
(`ToolpathParams.cutsNamed_of_compile`).  So it is in force there whatever was before, and
compensation keeps that, since the points that it puts in are copies and the wear changes depths
only (`NamesFeed.of_compensatesTo`).  A compensated program starts with a move at the retract
feed.  `ToolpathParams.cuts_at_cutFeed` puts this together.
-/

namespace WireErosion

variable {α : Type} {P : α → Prop}

/-! ## Feeds in force -/

/-- The feeds in force at the moves of cut blocks, where `f` is the one before the lines and
`inside` says whether a cut block is open.  A cut block goes from a cut marker up to the next
comment. -/
def cutFeeds (inside : Bool) (f : Option α) : Program α → List (Option α)
  | [] => []
  | .comment t :: ls => cutFeeds (Comment.kind t == .cut) f ls
  | .move m :: ls =>
    if inside then (m.f <|> f) :: cutFeeds true (m.f <|> f) ls else cutFeeds false (m.f <|> f) ls

/-- The feeds in force at linear moves, where `f` is the one before the lines. -/
def linearFeeds (f : Option α) : Program α → List (Option α)
  | [] => []
  | .comment _ :: ls => linearFeeds f ls
  | .move m :: ls =>
    match m.motion with
    | .linear => (m.f <|> f) :: linearFeeds (m.f <|> f) ls
    | .rapid => linearFeeds (m.f <|> f) ls

/-- A feed is in force, and it is one of `P`. -/
def IsFed (P : α → Prop) (v : Option α) : Prop := ∃ u, v = some u ∧ P u

/-- The moves of a cut name their feed themselves. -/
def NamesFeed (P : α → Prop) (ms : List (Move α)) : Prop :=
  ∀ v ∈ cutFeeds true none (ms.map .move), IsFed P v

/-- Moves that do not change the feed. -/
theorem mem_cutFeeds_moves {inside : Bool} {g : Option α} {rest : Program α} {v : Option α} :
    ∀ {ms : List (Move α)}, (∀ m ∈ ms, (m.f <|> g) = g) →
      v ∈ cutFeeds inside g (ms.map .move ++ rest) →
      inside = true ∧ v = g ∨ v ∈ cutFeeds inside g rest
  | [], _, hv => .inr hv
  | m :: ms, h, hv => by
      obtain ⟨hm, hms⟩ := List.forall_mem_cons.mp h
      cases inside with
      | true =>
          rw [List.map_cons, List.cons_append, cutFeeds, if_pos rfl, hm, List.mem_cons] at hv
          rcases hv with rfl | hv
          · exact .inl ⟨rfl, rfl⟩
          · exact mem_cutFeeds_moves hms hv
      | false =>
          rw [List.map_cons, List.cons_append, cutFeeds, if_neg (by simp), hm] at hv
          exact mem_cutFeeds_moves hms hv

/-- The feeds at a move with copies of it, where none is in force after them that is not in force
there anyway. -/
theorem mem_cutFeeds_copies {inside : Bool} {f v : Option α} {m : Move α} {points : List (Move α)}
    {rest ls : Program α} (hpoints : ∀ m' ∈ points, m'.f = m.f)
    (hrest : ∀ {inside : Bool} {f : Option α},
      v ∈ cutFeeds inside f rest → v ∈ cutFeeds inside f ls)
    (hv : v ∈ cutFeeds inside f (.move m :: (points.map .move ++ rest))) :
    v ∈ cutFeeds inside f (.move m :: ls) := by
  have hsame : ∀ m' ∈ points, (m'.f <|> (m.f <|> f)) = (m.f <|> f) := by
    intro m' hm'
    rw [hpoints m' hm']
    cases m.f <;> rfl
  cases inside with
  | true =>
      rw [cutFeeds, if_pos rfl, List.mem_cons] at hv ⊢
      refine hv.elim .inl fun hv => ?_
      rcases mem_cutFeeds_moves hsame hv with ⟨-, hv⟩ | hv
      · exact .inl hv
      · exact .inr (hrest hv)
  | false =>
      rw [cutFeeds, if_neg (by simp)] at hv ⊢
      rcases mem_cutFeeds_moves hsame hv with ⟨hopen, -⟩ | hv
      · cases hopen
      · exact hrest hv

/-- Moves that name their feed have it in force whatever was before. -/
theorem NamesFeed.isFed {ms : List (Move α)} (h : NamesFeed P ms) (f : Option α) :
    ∀ v ∈ cutFeeds true f (ms.map .move), IsFed P v := by
  cases ms with
  | nil => exact fun v hv => by cases hv
  | cons m ms =>
      obtain ⟨u, hu, -⟩ := h (m.f <|> none) (List.mem_cons_self ..)
      have hm : m.f = some u := by
        cases hf : m.f with
        | none => rw [hf] at hu; cases hu
        | some u' => rw [hf] at hu; exact hu
      have hfirst (g : Option α) : (m.f <|> g) = some u := by rw [hm]; rfl
      intro v hv
      refine h v ?_
      rw [List.map_cons, cutFeeds, if_pos rfl, hfirst] at hv ⊢
      exact hv

/-- The feeds at cuts are in force if each cut names its own. -/
theorem isFed_cutFeeds : ∀ {p : Program α} {a : Modal α} {z : Option α} {inside : Bool}
    {f : Option α}, (∀ c ∈ cuttingsFrom a z p, NamesFeed P c.moves) →
      (inside = true → ∀ v ∈ cutFeeds true f ((leadingMoves p).map .move), IsFed P v) →
      ∀ v ∈ cutFeeds inside f p, IsFed P v
  | [], _, _, _, _, _, _ => fun v hv => by cases hv
  | .comment t :: p, a, z, inside, f, h, _ => by
      rw [cuttingsFrom] at h
      rw [cutFeeds]
      split at h
      next hcut =>
        obtain ⟨hfirst, h⟩ := List.forall_mem_cons.mp h
        exact isFed_cutFeeds h fun _ => hfirst.isFed f
      next hcut =>
        refine isFed_cutFeeds h fun hopen => ?_
        exact absurd (by simpa using hopen) hcut
  | .move m :: p, a, z, true, f, h, hopen => by
      have hmoves := hopen rfl
      rw [leadingMoves, List.map_cons, cutFeeds, if_pos rfl] at hmoves
      obtain ⟨hm, hmoves⟩ := List.forall_mem_cons.mp hmoves
      rw [cutFeeds, if_pos rfl]
      exact List.forall_mem_cons.mpr ⟨hm, isFed_cutFeeds h fun _ => hmoves⟩
  | .move m :: p, a, z, false, f, h, _ => by
      rw [cutFeeds, if_neg (by simp)]
      exact isFed_cutFeeds h fun hopen => by cases hopen

/-- Once a feed is in force there is one at every move. -/
theorem isSome_linearFeeds : ∀ {p : Program α} {f : Option α}, f.isSome = true →
    ∀ v ∈ linearFeeds f p, v.isSome = true
  | [], _, _ => fun v hv => by cases hv
  | .comment _ :: p, f, hf => by
      rw [linearFeeds]
      exact isSome_linearFeeds hf
  | .move m :: p, f, hf => by
      have hafter : (m.f <|> f).isSome = true := by
        cases m.f with
        | none => exact hf
        | some u => rfl
      rw [linearFeeds]
      split
      · exact List.forall_mem_cons.mpr ⟨hafter, isSome_linearFeeds hafter⟩
      · exact isSome_linearFeeds hafter

theorem linearFeeds_append_comments {f : Option α} {q : Program α} : ∀ {p : Program α},
    (∀ l ∈ p, l.kind ≠ .move) → linearFeeds f (p ++ q) = linearFeeds f q
  | [], _ => rfl
  | .comment t :: p, h => by
      rw [List.cons_append, linearFeeds]
      exact linearFeeds_append_comments (List.forall_mem_cons.mp h).2
  | .move m :: p, h => absurd rfl (List.forall_mem_cons.mp h).1

/-- There is a feed at every move if the first one names it. -/
theorem isSome_linearFeeds_of_first {t : String} {m : Move α} {p : Program α}
    (hm : m.f.isSome = true) (f : Option α) :
    ∀ v ∈ linearFeeds f (.comment t :: .move m :: p), v.isSome = true := by
  obtain ⟨u, hu⟩ := Option.isSome_iff_exists.mp hm
  have hafter : (m.f <|> f) = some u := by rw [hu]; rfl
  rw [linearFeeds, linearFeeds, hafter]
  split
  · exact List.forall_mem_cons.mpr ⟨rfl, isSome_linearFeeds rfl⟩
  · exact isSome_linearFeeds rfl

/-! ## Compensation -/

section

variable [Scalar α] {w : WearParams α}

/-- The points on a way have the feed of the move that they are copies of. -/
theorem feed_intermediateMoves {m : Move α} {a b : Modal α} {spacing : α} {points : List (Move α)}
    (h : intermediateMoves m a b spacing = .ok points) : ∀ m' ∈ points, m'.f = m.f := by
  unfold intermediateMoves at h
  dsimp only at h
  split at h
  next =>
    cases h
    simp
  next =>
    simp only [Fault.bind_eq_ok, pure, Except.pure, Except.ok.injEq] at h
    obtain ⟨quotient, -, count, -, rfl⟩ := h
    intro m' hm'
    obtain ⟨d, -, rfl⟩ := List.mem_map.mp hm'
    rfl

/-- Subdivision puts in no feed that is not in force there. -/
theorem mem_cutFeeds_of_subdivideFrom {spacing : α} {v : Option α} {ls : List (Line α)} :
    ∀ {p : Modal α} {ls' : List (Line α)} {inside : Bool} {f : Option α},
      subdivideFrom spacing p ls = .ok ls' → v ∈ cutFeeds inside f ls' →
        v ∈ cutFeeds inside f ls := by
  induction ls with
  | nil =>
      intro p ls' inside f h hv
      cases h
      exact hv
  | cons l ls ih =>
      intro p ls' inside f h hv
      cases l with
      | comment t =>
          rw [subdivideFrom, Fault.map_eq_ok] at h
          obtain ⟨rest, hrest, rfl⟩ := h
          rw [cutFeeds] at hv ⊢
          exact ih hrest hv
      | move m =>
          rw [subdivideFrom] at h
          split at h
          next =>
            dsimp only at h
            split at h
            next =>
              cases h
              exact hv
            next =>
              simp only [Fault.bind_eq_ok, pure, Except.pure, Except.ok.injEq] at h
              obtain ⟨points, hpoints, rest, hrest, rfl⟩ := h
              exact mem_cutFeeds_copies (feed_intermediateMoves hpoints) (ih hrest) hv
          next =>
            rw [Fault.map_eq_ok] at h
            obtain ⟨rest, hrest, rfl⟩ := h
            exact mem_cutFeeds_copies (List.forall_mem_nil _) (ih hrest) hv

/-- The wear changes no feed. -/
theorem cutFeeds_wearFrom (ratio : α) {ls : List (Line α)} :
    ∀ (s : WearState α) (inside : Bool) (f : Option α),
      cutFeeds inside f (wearFrom ratio s ls).2 = cutFeeds inside f ls := by
  induction ls with
  | nil => exact fun _ _ _ => rfl
  | cons l ls ih =>
      intro s inside f
      cases l with
      | comment t => exact ih s _ f
      | move m =>
          rw [wearFrom]
          dsimp only
          rw [cutFeeds, cutFeeds, ih, ih]
          rfl

/-- A cut that names its feed still does after compensation. -/
theorem NamesFeed.of_compensatesTo {ms worn : List (Move α)} (h : NamesFeed P ms)
    (hworn : CompensatesTo w ms worn) : NamesFeed P worn := by
  have hblock (ns : List (Move α)) : cutFeeds false none (.cut :: ns.map .move)
      = cutFeeds true none (ns.map .move) := by
    have hkind : Comment.kind Marker.cut = .cut := Line.kind_cut (α := α)
    rw [Line.cut, cutFeeds, hkind]
    rfl
  obtain ⟨z, hz⟩ := hworn
  rw [CutBlock.compensate, subdivide, Fault.map_eq_ok] at hz
  obtain ⟨ls, hls, hz⟩ := hz
  have hlines : (wearFrom w.ratio ⟨(none, none), -w.passDepth, -w.passDepth⟩ ls).2
      = .cut :: worn.map .move := congrArg CutBlock.lines hz
  intro v hv
  refine h v ?_
  rw [← hblock, ← hlines, cutFeeds_wearFrom] at hv
  rw [← hblock]
  exact mem_cutFeeds_of_subdivideFrom hls hv

omit [Scalar α] in
/-- The staged copies of the plunges of groups start with a move at the retract feed. -/
theorem seatingLines_eq_nil_or {gs : List (MoveGroup α)} (feeds : PlungeFeeds α) :
    ∀ {blocks : List (PlungeBlock α)}, (∀ b ∈ blocks, b.IsFrom gs) →
      seatingLines (blocks.map (List.map (PlungeStep.refed feeds))) = [] ∨
      ∃ m rest, m.f = feeds.retract ∧
        seatingLines (blocks.map (List.map (PlungeStep.refed feeds))) = .retract :: .move m :: rest
  | [], _ => .inl rfl
  | b :: blocks, h => by
      obtain ⟨⟨rise, run, -, -, hb⟩, hblocks⟩ := List.forall_mem_cons.mp h
      rw [List.map_cons, seatingLines, List.flatMap_cons]
      split
      next =>
        refine .inr ⟨{ rise with motion := .linear, f := feeds.retract },
          (PlungeBlock.lines ((run.flatMap MoveGroup.steps).map (PlungeStep.refed feeds))).filter
            isStaged ++ seatingLines (blocks.map (List.map (PlungeStep.refed feeds))), rfl, ?_⟩
        have hlines : PlungeBlock.lines (b.map (PlungeStep.refed feeds)) = .retract ::
            .move { rise with motion := .linear, f := feeds.retract } ::
              PlungeBlock.lines ((run.flatMap MoveGroup.steps).map (PlungeStep.refed feeds)) := by
          rw [hb, List.map_append, PlungeBlock.lines, List.map_append]
          rfl
        rw [hlines, List.filter_cons_of_pos isStaged_retract,
          List.filter_cons_of_pos (isStaged_move _)]
        rfl
      next => exact seatingLines_eq_nil_or feeds hblocks

/-- Groups that start with a rise are resumed at the retract feed. -/
theorem Resumes.exists_rise {stage : Stage} {after : Option (Option α)} {rise : Move α}
    {gs gs' : List (MoveGroup α)} (h : Resumes w stage after (.retract rise :: gs) gs') :
    ∃ m rest, m.f = w.retractFeed ∧ groupLines gs' = .retract :: .move m :: rest := by
  cases h with
  | next hnext h => exact ⟨{ rise with motion := .linear, f := w.retractFeed }, _, rfl, rfl⟩
  | keep hnext => cases stage <;> cases hnext

end

/-! ## Compiled programs -/

/-- A program whose cuts name their feeds.  It does not start with moves, so it can come after a
cut. -/
structure CutsNamed (P : α → Prop) (p : Program α) : Prop where
  /-- It does not start with moves. -/
  starts : leadingMoves p = []
  /-- Its cuts name their feeds. -/
  named : ∀ (a : Modal α) (z : Option α), ∀ c ∈ cuttingsFrom a z p, NamesFeed P c.moves

namespace CutsNamed

variable {p q : Program α}

theorem nil : CutsNamed P ([] : Program α) where
  starts := rfl
  named := fun _ _ _ hc => by cases hc

theorem append (hp : CutsNamed P p) (hq : CutsNamed P q) : CutsNamed P (p ++ q) where
  starts := by rw [leadingMoves_append hq.starts, hp.starts]
  named := by
    intro a z c hc
    rw [cuttingsFrom_append hq.starts, List.mem_append] at hc
    exact hc.elim (hp.named _ _ c) (hq.named _ _ c)

/-- Groups that are no cuts. -/
theorem of_groups {gs : List (MoveGroup α)} (h : ∀ g ∈ gs, ∀ ms, g ≠ .cut ms) :
    CutsNamed P (groupLines gs) where
  starts := leadingMoves_groupLines gs
  named := by
    intro a z c hc
    rw [cuttingsFrom_groupLines h] at hc
    cases hc

theorem of_cut {ms : List (Move α)} (h : NamesFeed P ms) : CutsNamed P (.cut :: ms.map .move) where
  starts := rfl
  named := by
    intro a z c hc
    have hcut : cuttingsFrom a z (.cut :: ms.map .move) = [⟨a, z, ms⟩] := cuttingsFrom_cut ms a z
    rw [hcut, List.mem_singleton] at hc
    rw [hc]
    exact h

end CutsNamed

namespace ToolpathParams

variable {c : ToolpathParams α}

/-- The cutting feed as it is written. -/
def IsCutFeed (c : ToolpathParams α) (u : α) : Prop := c.round c.descents.cutFeed = .ok u

/-- The first move of a cut names the cutting feed, and no other one names a feed. -/
theorem exists_namesFeed {rest : List (Point α)} {p : Program α}
    (h : Rounds c.round (c.cutMoves rest) p) :
    ∃ ms, p = ms.map .move ∧ NamesFeed c.IsCutFeed ms := by
  cases rest with
  | nil => exact ⟨[], h.of_nil, fun v hv => by cases hv⟩
  | cons q qs =>
      have hrest :
          (qs.map fun q => planMove (.linear (some q.x) (some q.y) (c.vertexZ q) none none)) =
            (qs.map fun q => Move.linear (some q.x) (some q.y) (c.vertexZ q) none none).map
            planMove := by
        rw [List.map_map]
        rfl
      rw [cutMoves, hrest] at h
      obtain ⟨m, p, rfl, hm, h⟩ := h.of_move
      obtain ⟨ms, rfl, hms⟩ := h.of_moves
      obtain ⟨u, hu, hmf⟩ := roundField_eq_some hm.f
      have hsame : ∀ n ∈ ms, (n.f <|> some u) = some u := by
        intro n hn
        obtain ⟨planned, hplanned, hn⟩ := exists_of_mem_right hms hn
        obtain ⟨q, -, rfl⟩ := List.mem_map.mp hplanned
        rw [roundField_eq_none hn.f]
        rfl
      refine ⟨m :: ms, rfl, fun v hv => ⟨u, ?_, hu⟩⟩
      have hfirst : (m.f <|> none) = some u := by rw [hmf]; rfl
      rw [List.map_cons, cutFeeds, if_pos rfl, hfirst, ← List.append_nil (ms.map Line.move)] at hv
      rcases List.mem_cons.mp hv with rfl | hv
      · rfl
      · rcases mem_cutFeeds_moves hsame hv with ⟨-, hv⟩ | hv
        · exact hv
        · cases hv

variable [Scalar α]

theorem EmitsEntry.ne_cut {tabTop fromZ toZ : α} {a : Point α} {rest : List (Point α)}
    {gs : List (MoveGroup α)} (h : c.EmitsEntry tabTop a rest fromZ toZ gs) :
    ∀ g ∈ gs, ∀ ms, g ≠ .cut ms := by
  cases h <;> simp

theorem cutsNamed_of_runs {tabTop next : α} : ∀ {runs : List (List (Point α))} {inside : Bool}
    {z : α} {p : Program α}, Rounds c.round (c.runLines tabTop next inside z runs).1 p →
      CutsNamed c.IsCutFeed p
  | [], _, _, _, h => by
      rw [h.of_nil]
      exact .nil
  | [] :: runs, inside, z, p, h => by
      rw [runLines] at h
      exact cutsNamed_of_runs h
  | (a :: rest) :: runs, inside, z, p, h => by
      rw [runLines] at h
      dsimp only at h
      rw [List.append_assoc, List.cons_append] at h
      obtain ⟨q, r, rfl, hentry, hr⟩ := h.of_append
      obtain ⟨t, rfl, ht⟩ := hr.of_comment
      obtain ⟨q', u, rfl, hcut, hu⟩ := ht.of_append
      obtain ⟨ms, rfl, hms⟩ := exists_namesFeed hcut
      have hleads : CutsNamed c.IsCutFeed q := by
        split at hentry
        next =>
          rw [hentry.of_nil]
          exact .nil
        next =>
          obtain ⟨gs, rfl, hgs⟩ := exists_entry hentry
          exact .of_groups hgs.ne_cut
      exact hleads.append ((CutsNamed.of_cut hms).append (cutsNamed_of_runs hu))

theorem cutsNamed_of_pass {tabs : Option (Tabs α)} {path : ReadyPath α} {pass : Pass α} {z : α}
    {p : Program α} (h : Rounds c.round (c.passLines tabs path z pass).1 p) :
    CutsNamed c.IsCutFeed p := by
  rw [passLines_eq] at h
  dsimp only at h
  rw [approachLines, List.append_assoc] at h
  obtain ⟨q, r, rfl, hlead, hr⟩ := h.of_append
  obtain ⟨q', r', rfl, htravel, hruns⟩ := hr.of_append
  refine CutsNamed.append ?_ (CutsNamed.append ?_ (cutsNamed_of_runs hruns))
  · split at hlead
    next =>
      rw [← List.append_nil (retractLines c.safeZ)] at hlead
      obtain ⟨m, q, rfl, -, hq⟩ := exists_rise hlead
      rw [hq.of_nil, List.append_nil]
      exact .of_groups (by simp)
    next =>
      rw [hlead.of_nil]
      exact .nil
  · obtain ⟨q, rfl, hq⟩ := Rounds.of_comment htravel
    obtain ⟨t, u, rfl, -, hu⟩ := Rounds.of_move hq
    obtain ⟨d, v, rfl, -, hv⟩ := Rounds.of_move hu
    have htravels : CutsNamed c.IsCutFeed (groupLines [MoveGroup.travel t d]) :=
      .of_groups (by simp)
    rw [hv.of_nil]
    exact htravels

theorem cutsNamed_of_passes {tabs : Option (Tabs α)} {path : ReadyPath α} :
    ∀ {passes : List (Pass α)} {z : α} {p : Program α},
      Rounds c.round (c.passesLines tabs path z passes) p → CutsNamed c.IsCutFeed p
  | [], _, _, h => by
      rw [h.of_nil]
      exact .nil
  | pass :: passes, z, p, h => by
      rw [passesLines] at h
      obtain ⟨q, r, rfl, hpass, hr⟩ := Rounds.of_append h
      exact (cutsNamed_of_pass hpass).append (cutsNamed_of_passes hr)

theorem cutsNamed_of_paths {tabs : Option (Tabs α)} : ∀ {paths : List (CamPath α)} {i : Nat}
    {p : Program α}, Rounds c.round (c.pathsLines tabs i paths) p → CutsNamed c.IsCutFeed p
  | [], _, _, h => by
      rw [h.of_nil]
      exact .nil
  | path :: paths, i, p, h => by
      rw [pathsLines, pathLines] at h
      obtain ⟨q, r, rfl, hpath, hr⟩ := h.of_append
      refine CutsNamed.append ?_ (cutsNamed_of_paths hr)
      split at hpath
      next =>
        rw [hpath.of_nil]
        exact .nil
      next =>
        dsimp only at hpath
        rw [List.cons_append, List.cons_append] at hpath
        obtain ⟨q, rfl, hq⟩ := hpath.of_comment
        obtain ⟨s, rfl, hs⟩ := hq.of_comment
        obtain ⟨q, q', rfl, hpasses, hrise⟩ := hs.of_append
        rw [← List.append_nil (retractLines c.safeZ)] at hrise
        obtain ⟨m, t, rfl, -, ht⟩ := exists_rise hrise
        have hheader : CutsNamed c.IsCutFeed (groupLines [MoveGroup.header i]) :=
          .of_groups (by simp)
        rw [ht.of_nil, List.append_nil]
        exact hheader.append ((cutsNamed_of_passes hpasses).append (.of_groups (by simp)))

/-- The cuts of a compiled program name the cutting feed. -/
theorem cutsNamed_of_compile {paths : List (CamPath α)} {p : Program α}
    (h : c.compile paths = .ok p) : CutsNamed c.IsCutFeed p := by
  have hplan : Rounds c.round (c.plan paths) p := Fault.mapM_eq_ok.mp h
  obtain ⟨m, q, rfl, -, hq⟩ := exists_rise hplan
  exact CutsNamed.append (.of_groups (by simp)) (cutsNamed_of_paths hq)

/-- Cuts run at the cutting feed, in a compiled program and after compensation.  In a compensated
program no linear move comes before a feed, if there is a retract feed. -/
theorem cuts_at_cutFeed {paths : List (CamPath α)} {p : Program α} (h : c.compile paths = .ok p) :
    (∀ v ∈ cutFeeds false none p, ∃ u, v = some u ∧ c.round c.descents.cutFeed = .ok u) ∧
    ∀ (w : WearParams α) (summary q : Program α), IsSummary summary →
      (Program.compensate w (summary ++ p)).outcome = .ok q →
      (∀ v ∈ cutFeeds false none q, ∃ u, v = some u ∧ c.round c.descents.cutFeed = .ok u) ∧
      (w.retractFeed.isSome = true → ∀ v ∈ linearFeeds none q, v.isSome = true) := by
  have hnamed := cutsNamed_of_compile h
  refine ⟨isFed_cutFeeds (hnamed.named (none, none) none) (by simp),
    fun w summary q hsummary hq => ?_⟩
  obtain ⟨rise, parts, rfl, -, hparts⟩ := exists_groups h
  have hregular : ∀ g ∈ MoveGroup.retract rise :: parts.flatten, g.Regular :=
    List.forall_mem_cons.mpr ⟨trivial, hparts.forall_groups ofGroups_regular⟩
  constructor
  · have hcuttings := Program.cuttings_of_compensate hsummary hregular hq
    refine isFed_cutFeeds (a := (none, none)) (z := none) (fun d hd => ?_) (by simp)
    obtain ⟨b, hb, hworn⟩ := exists_of_mem_right hcuttings hd
    rw [cuttings_append_groupLines hsummary.kind_ne_cut] at hb
    exact (hnamed.named _ _ b hb).of_compensatesTo hworn
  · intro hretract
    obtain ⟨blocks, gs', hblocks, hresumes, rfl⟩ :=
      Program.groups_of_compensate hsummary hregular hq
    have hkind := hsummary.kind_ne (k := .move) (by simp) (by simp)
    rw [List.append_assoc, linearFeeds_append_comments hkind]
    rcases seatingLines_eq_nil_or w.feeds hblocks with hnil | ⟨m, rest, hm, hstaged⟩
    · obtain ⟨m, rest, hm, hlines⟩ := hresumes.exists_rise
      rw [hnil, hlines, List.nil_append]
      exact isSome_linearFeeds_of_first (hm ▸ hretract) none
    · rw [hstaged]
      exact isSome_linearFeeds_of_first (hm ▸ hretract) none

end ToolpathParams

/-- Two passes over a path that may be closed are cut at the feed of cuts. -/
theorem loopToolpath_cuts_at_cutFeed : unitWear.retractFeed.isSome = true ∧
    ∃ p q : Program Float, loopToolpath.compile [loopPath] = .ok p ∧
      (Program.compensate unitWear ([.comment "; Wear Ratio:   0.1", .comment ";"] ++ p)).outcome
        = .ok q ∧
      (∀ v ∈ cutFeeds false none p, v = some 200) ∧ (∀ v ∈ cutFeeds false none q, v = some 200) ∧
      ∀ v ∈ linearFeeds none q, v.isSome = true := by
  obtain ⟨p, hp⟩ : ∃ p, loopToolpath.compile [loopPath] = .ok p := ⟨_, rfl⟩
  obtain ⟨q, hq⟩ : ∃ q, (loopToolpath.compile [loopPath]).bind (fun p =>
      (Program.compensate unitWear ([.comment "; Wear Ratio:   0.1", .comment ";"] ++ p)).outcome)
        = .ok q := by
    refine Fault.exists_eq_ok ?_
    decide +kernel
  rw [hp] at hq
  have hsummary : IsSummary ([.comment "; Wear Ratio:   0.1", .comment ";"] : Program Float) :=
    ⟨[], _, rfl, by simp, by decide⟩
  have hfeed : ∀ v : Option Float,
      (∃ u, v = some u ∧ loopToolpath.round loopToolpath.descents.cutFeed = .ok u) →
        v = some 200 := by
    have hround : loopToolpath.round loopToolpath.descents.cutFeed = .ok 200 := by decide +kernel
    rintro v ⟨u, rfl, hu⟩
    rw [Except.ok.inj (hround.symm.trans hu)]
  obtain ⟨hcuts, hworn⟩ := ToolpathParams.cuts_at_cutFeed hp
  obtain ⟨hcuts', hlinear⟩ := hworn unitWear _ q hsummary hq
  exact ⟨rfl, p, q, hp, hq, fun v hv => hfeed v (hcuts v hv), fun v hv => hfeed v (hcuts' v hv),
    hlinear rfl⟩

end WireErosion
