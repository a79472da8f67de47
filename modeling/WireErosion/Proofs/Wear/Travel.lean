import WireErosion.Proofs.Toolpath.Landmark
import WireErosion.Proofs.Wear.Regroup

/-!
# Travel at the clearance height, before and after compensation

`ToolpathParams.TravelsClear` says that every travel of a program happens at the clearance height
and leaves the depth alone, except where the tool goes back to the start of a path that it may
close.  A compiled program is of that kind, and so is what compensation makes of it
(`ToolpathParams.travels_clear`).

In the program proper that is read off the landmarks, which compensation keeps
(`Resumes.landmarks`).  The staged copies have no markers of travel, but each starts with its rise,
and a travel in it comes right after that (`LiftsTo`).
-/

namespace WireErosion

variable {α : Type}

/-! ## Travel in a program -/

/-- A move to a position in the plane, after the lines `pre`, that is rapid or comes after a travel
marker, or after the rise of a staged copy. -/
def IsTravel (pre : Program α) (m : Move α) : Prop :=
  m.hasXY = true ∧ (m.motion = .rapid ∨ pre.getLast? = some .rapidToStart ∨
    ∃ before rise, pre = before ++ [.retract, .move rise])

namespace ToolpathParams

variable [Scalar α]

/-- The lines `pre` end with the start of a further pass over a path that the tool may close, while
no tabs are in effect. -/
def Reenters (c : ToolpathParams α) (paths : List (CamPath α)) (pre : Program α) : Prop :=
  c.activeTabs = none ∧ ∃ (i : Nat) (path : CamPath α) (before mid : Program α),
    pre = before ++ .pathStart i :: (mid ++ [.rapidToStart]) ∧ (∀ j : Nat, .pathStart j ∉ mid) ∧
    .rapidToStart ∈ mid ∧ paths[i]? = some path ∧ path.safeToClose = true

/-- All travel of a program is at the depth `s`, except at the start of a further pass over a path
that the tool may close. -/
def TravelsClear (c : ToolpathParams α) (paths : List (CamPath α)) (s : α) (p : Program α) : Prop :=
  ∀ pre m post, p = pre ++ .move m :: post → IsTravel pre m →
    m.z = none ∧ (depthAfter none pre = some s ∨ c.Reenters paths pre)

end ToolpathParams

/-! ## Rises -/

/-- A move at the start of some lines leaves the depth alone. -/
def StartsLevel (p : Program α) : Prop := ∀ m after, p = .move m :: after → m.z = none

theorem level_nil : StartsLevel ([] : Program α) := by
  intro m after h
  cases h

theorem level_comment (t : String) (p : Program α) : StartsLevel (.comment t :: p) := by
  intro m after h
  cases h

theorem StartsLevel.append {p q : Program α} (hp : StartsLevel p) (hq : StartsLevel q) :
    StartsLevel (p ++ q) := by
  intro m after h
  cases p with
  | nil => exact hq m after h
  | cons l p =>
      cases h
      exact hp m p rfl

/-- After each retract marker the tool rises to the depth `s`, and a move right after that leaves
the depth alone. -/
def LiftsTo (s : α) : Program α → Prop
  | [] => True
  | l :: ls =>
    (l = .retract → ∃ rise after, ls = .move rise :: after ∧ rise.z = some s ∧ StartsLevel after) ∧
      LiftsTo s ls

section

variable {s : α} {p q : Program α}

theorem LiftsTo.of_not_mem : ∀ {p : Program α}, .retract ∉ p → LiftsTo s p
  | [], _ => trivial
  | _ :: _, h => ⟨fun hl => absurd (hl ▸ List.mem_cons_self ..) h,
      of_not_mem fun hmem => h (List.mem_cons_of_mem _ hmem)⟩

theorem LiftsTo.append : ∀ {p : Program α}, LiftsTo s p → LiftsTo s q → StartsLevel q →
    LiftsTo s (p ++ q)
  | [], _, hq, _ => hq
  | l :: ls, ⟨hl, hp⟩, hq, hlevel => by
      refine ⟨fun hretract => ?_, hp.append hq hlevel⟩
      obtain ⟨rise, after, rfl, hz, hafter⟩ := hl hretract
      exact ⟨rise, after ++ q, rfl, hz, hafter.append hlevel⟩

theorem LiftsTo.flatMap {β : Type} {f : β → Program α} : ∀ {xs : List β},
    (∀ x ∈ xs, LiftsTo s (f x) ∧ StartsLevel (f x)) →
      LiftsTo s (xs.flatMap f) ∧ StartsLevel (xs.flatMap f)
  | [], _ => ⟨trivial, level_nil⟩
  | x :: xs, h => by
      have hrest : ∀ x ∈ xs, LiftsTo s (f x) ∧ StartsLevel (f x) :=
        fun x hx => h x (List.mem_cons_of_mem _ hx)
      obtain ⟨hx, hlevel⟩ := h x (List.mem_cons_self ..)
      obtain ⟨hxs, hlevels⟩ := LiftsTo.flatMap hrest
      rw [List.flatMap_cons]
      exact ⟨hx.append hxs hlevels, hlevel.append hlevels⟩

theorem LiftsTo.at_rise {rise : Move α} (after : Program α) : ∀ {before : Program α},
    LiftsTo s (before ++ .retract :: .move rise :: after) → rise.z = some s ∧ StartsLevel after
  | [], h => by
      obtain ⟨rise', after', heq, hz, hafter⟩ := h.1 rfl
      cases heq
      exact ⟨hz, hafter⟩
  | _ :: _, h => LiftsTo.at_rise after h.2

end

/-- A marker that is no retract marker, with moves after it. -/
theorem liftsTo_marker {s : α} {l : Line α} {ms : List (Move α)} (hl : l.kind ≠ .retract)
    (hmove : l.kind ≠ .move) : LiftsTo s (l :: ms.map .move) ∧ StartsLevel (l :: ms.map .move) := by
  constructor
  · refine .of_not_mem fun hmem => ?_
    rcases List.mem_cons.mp hmem with rfl | hmem
    · exact hl Line.kind_retract
    · obtain ⟨n, -, hn⟩ := List.mem_map.mp hmem
      cases hn
  · rintro m rest heq
    cases heq
    exact absurd rfl hmove

/-! ## Groups -/

theorem exists_moves_of_lines {cs post pre : Program α} {m : Move α} {ms : List (Move α)}
    (hcs : ∀ n, .move n ∉ cs) (h : cs ++ ms.map .move = pre ++ .move m :: post) :
    ∃ before after, ms = before ++ m :: after ∧ pre = cs ++ before.map .move := by
  have hmoves : ∀ ls : Program α, ms.map .move = ls ++ .move m :: post →
      ∃ before after, ms = before ++ m :: after ∧ ls = before.map .move := by
    intro ls hls
    obtain ⟨before, rest, rfl, rfl, hrest⟩ := List.map_eq_append_iff.mp hls
    obtain ⟨m', after, rfl, hm, -⟩ := List.map_eq_cons_iff.mp hrest
    cases hm
    exact ⟨before, after, rfl, rfl⟩
  rcases List.append_eq_append_iff.mp h with ⟨ls, rfl, hls⟩ | ⟨ls, rfl, hls⟩
  · obtain ⟨before, after, hms, rfl⟩ := hmoves ls hls
    exact ⟨before, after, hms, rfl⟩
  · cases ls with
    | nil =>
        obtain ⟨before, after, hms, hnil⟩ := hmoves [] hls.symm
        exact ⟨before, after, hms, by rw [List.append_nil, ← hnil, List.append_nil]⟩
    | cons l ls =>
        obtain ⟨rfl, -⟩ := List.cons_eq_cons.mp hls
        exact absurd (by simp) (hcs m)

/-- The group to which a move of a program belongs. -/
theorem exists_group {m : Move α} {post : Program α} :
    ∀ {gs : List (MoveGroup α)} {pre : Program α}, groupLines gs = pre ++ .move m :: post →
    ∃ (before : List (MoveGroup α)) (g : MoveGroup α) (after : List (MoveGroup α))
      (ms ms' : List (Move α)), gs = before ++ g :: after ∧ g.moves = ms ++ m :: ms' ∧
      pre = groupLines before ++ (g.comments ++ ms.map .move)
  | [], pre, h => by cases pre <;> cases h
  | g :: gs, pre, h => by
      have hrest : ∀ ls : Program α, groupLines gs = ls ++ .move m :: post →
          pre = g.lines ++ ls →
          ∃ (before : List (MoveGroup α)) (g' : MoveGroup α) (after : List (MoveGroup α))
            (ms ms' : List (Move α)), g :: gs = before ++ g' :: after ∧
            g'.moves = ms ++ m :: ms' ∧
            pre = groupLines before ++ (g'.comments ++ ms.map .move) := by
        intro ls hls hpre
        obtain ⟨before, g', after, ms, ms', rfl, hmoves, rfl⟩ := exists_group hls
        exact ⟨g :: before, g', after, ms, ms', rfl, hmoves, by rw [hpre]; simp⟩
      rw [groupLines_cons] at h
      rcases List.append_eq_append_iff.mp h with ⟨ls, hpre, hls⟩ | ⟨ls, hlines, hls⟩
      · exact hrest ls hls hpre
      · cases ls with
        | nil => exact hrest [] hls.symm (by simpa using hlines.symm)
        | cons l ls =>
            obtain ⟨rfl, -⟩ := List.cons_eq_cons.mp hls
            obtain ⟨ms, ms', hmoves, rfl⟩ := exists_moves_of_lines g.not_move_comments hlines
            exact ⟨[], g, gs, ms, ms', rfl, hmoves, rfl⟩

/-- The last line of a marker with moves after it is the marker or a move. -/
theorem eq_of_getLast?_moves {t u : String} {ms : List (Move α)}
    (h : (.comment t :: ms.map Line.move).getLast? = some (.comment u)) : t = u := by
  rcases List.eq_nil_or_concat ms with rfl | ⟨ms, n, rfl⟩
  · exact Line.comment.inj (Option.some.inj h)
  · rw [List.map_concat, List.concat_eq_append, ← List.cons_append, List.getLast?_concat] at h
    cases h

/-- A move to a position that is rapid or comes after a travel marker is the travel of its group. -/
theorem MoveGroup.Shaped.eq_travel {g : MoveGroup α} (h : g.Shaped) {m : Move α}
    {ms ms' : List (Move α)} (hmoves : g.moves = ms ++ m :: ms') (hxy : m.hasXY = true)
    (htravel : m.motion = .rapid ∨
      (g.comments ++ ms.map Line.move).getLast? = some .rapidToStart) :
    ∃ d, g = .travel m d ∧ ms = [] := by
  have hmem : m ∈ g.moves := by
    rw [hmoves]
    simp
  -- In a ramp and in a cut the line before a move is another move or the marker.
  have hlinear : ∀ t : String, t ≠ Marker.rapidToStart → g.comments = [.comment t] →
      m.motion = .linear → False := by
    intro t ht hcomments hmotion
    rcases htravel with hrapid | hlast
    · rw [hmotion] at hrapid
      cases hrapid
    · rw [hcomments] at hlast
      exact ht (eq_of_getLast?_moves hlast)
  cases g with
  | retract n =>
      rw [moves, List.mem_singleton] at hmem
      rw [hmem, h] at hxy
      cases hxy
  | header i => cases hmem
  | travel t d =>
      cases ms with
      | nil =>
          obtain ⟨rfl, -⟩ := List.cons_eq_cons.mp hmoves
          exact ⟨d, rfl, rfl⟩
      | cons n ms =>
          have hd : m = d := by
            have htail : [d] = ms ++ m :: ms' := (List.cons_eq_cons.mp hmoves).2
            cases ms with
            | nil => exact (List.cons_eq_cons.mp htail).1.symm
            | cons k ks => simp at htail
          rw [hd, h.2] at hxy
          cases hxy
  | plunge n =>
      rw [moves, List.mem_singleton] at hmem
      rw [hmem, h] at hxy
      cases hxy
  | ramp way last =>
      exact (hlinear Marker.ramp (by decide) rfl (h m hmem)).elim
  | ontoTab n =>
      rw [moves, List.mem_singleton] at hmem
      rw [hmem, h] at hxy
      cases hxy
  | cut ns =>
      exact (hlinear Marker.cut (by decide) rfl (h m hmem)).elim

/-- Groups rise to the depth `s` and start with comments. -/
theorem liftsTo_groupLines {s : α} {gs : List (MoveGroup α)}
    (h : ∀ g ∈ gs, ∀ m, g = .retract m → m.z = some s) :
    LiftsTo s (groupLines gs) ∧ StartsLevel (groupLines gs) := by
  refine LiftsTo.flatMap fun g hg => ⟨?_, ?_⟩
  · cases g with
    | retract m =>
        exact ⟨fun _ => ⟨m, [], rfl, h _ hg m rfl, level_nil⟩, fun hmove => (by cases hmove),
          trivial⟩
    | _ =>
        refine .of_not_mem fun hmem => ?_
        have hmark := MoveGroup.kind_of_mem hmem
        rw [Line.kind_retract] at hmark
        simp [MoveGroup.marks] at hmark
  · obtain ⟨t, ls, hlines⟩ := g.exists_lines
    rw [hlines]
    exact level_comment t ls

/-- Only the group of a path has the marker of one. -/
theorem not_pathStart_groupLines {gs : List (MoveGroup α)} (h : ∀ j, .header j ∉ gs) (j : Nat) :
    .pathStart j ∉ groupLines gs := by
  intro hmem
  obtain ⟨g, hg, hmem⟩ := List.mem_flatMap.mp hmem
  have hmark := MoveGroup.kind_of_mem hmem
  rw [Line.kind_pathStart] at hmark
  cases g with
  | header i => exact h i hg
  | _ => simp [MoveGroup.marks] at hmark

theorem MoveGroup.eq_of_landmark_rise {g : MoveGroup α} {z : Option α}
    (h : g.landmark = .rise z) : ∃ m, g = .retract m ∧ m.z = z := by
  cases g with
  | retract m =>
      cases h
      exact ⟨m, rfl, rfl⟩
  | _ => cases h

theorem MoveGroup.eq_of_landmark_header {g : MoveGroup α} {i : Nat}
    (h : g.landmark = .header i) : g = .header i := by
  cases g with
  | header j =>
      cases h
      rfl
  | _ => cases h

namespace ToolpathParams

variable [Scalar α] {c : ToolpathParams α} {paths : List (CamPath α)} {s : α}

omit [Scalar α] in
/-- After a rise the depth is that of the rise. -/
theorem Risen.depth_eq {gs : List (MoveGroup α)} (h : Risen s (gs.map MoveGroup.landmark))
    (front : Program α) :
    depthAfter none (front ++ groupLines gs ++ [Line.rapidToStart]) = some s := by
  have hrise : ∀ (before : List (MoveGroup α)) {m : Move α} (ls : Program α), m.z = some s →
      (∀ n, .move n ∉ ls) →
      depthAfter none (front ++ (groupLines before ++ (MoveGroup.retract m).lines)
        ++ ls) = some s := by
    intro before m ls hz hls
    rw [depthAfter_append, depthAfter_of_comments hls, ← List.append_assoc, depthAfter_append]
    simp [MoveGroup.lines, MoveGroup.comments, MoveGroup.moves, Line.retract, depthAfter, hz]
  obtain ⟨before, heq | ⟨i, heq⟩⟩ := h
  · obtain ⟨gs₁, gs₂, rfl, -, hgs₂⟩ := List.map_eq_append_iff.mp heq
    obtain ⟨g, rest, rfl, hg, hrest⟩ := List.map_eq_cons_iff.mp hgs₂
    obtain ⟨m, rfl, hz⟩ := MoveGroup.eq_of_landmark_rise hg
    rw [List.map_eq_nil_iff.mp hrest]
    have hdepth := hrise gs₁ [.rapidToStart] hz (by simp [Line.rapidToStart])
    simpa using hdepth
  · obtain ⟨gs₁, gs₂, rfl, -, hgs₂⟩ := List.map_eq_append_iff.mp heq
    obtain ⟨g, rest, rfl, hg, hrest⟩ := List.map_eq_cons_iff.mp hgs₂
    obtain ⟨h, rest', rfl, hh, hrest'⟩ := List.map_eq_cons_iff.mp hrest
    obtain ⟨m, rfl, hz⟩ := MoveGroup.eq_of_landmark_rise hg
    obtain rfl := MoveGroup.eq_of_landmark_header hh
    rw [List.map_eq_nil_iff.mp hrest']
    have hdepth := hrise gs₁ ((MoveGroup.header i).lines ++ [Line.rapidToStart]) hz
      (by simp [MoveGroup.lines, MoveGroup.comments, MoveGroup.moves, Line.rapidToStart,
        Line.blank, Line.pathStart])
    simpa using hdepth

/-- What is approached by landmarks is so in the program. -/
theorem Approached.of_landmarks {gs : List (MoveGroup α)}
    (h : c.Approached paths s (gs.map MoveGroup.landmark)) (front : Program α) :
    depthAfter none (front ++ groupLines gs ++ [Line.rapidToStart]) = some s ∨
      c.Reenters paths (front ++ groupLines gs ++ [Line.rapidToStart]) := by
  rcases h with h | ⟨htabs, i, path, before, mid, heq, hmid, htravel, hi, hclose⟩
  · exact .inl (h.depth_eq front)
  · obtain ⟨gs₁, gs₂, rfl, -, hgs₂⟩ := List.map_eq_append_iff.mp heq
    obtain ⟨g, rest, rfl, hg, rfl⟩ := List.map_eq_cons_iff.mp hgs₂
    obtain rfl := MoveGroup.eq_of_landmark_header hg
    refine .inr ⟨htabs, i, path, front ++ groupLines gs₁ ++ [Line.blank], groupLines rest,
      ?_, ?_, ?_, hi, hclose⟩
    · simp [MoveGroup.lines, MoveGroup.comments, MoveGroup.moves]
    · exact not_pathStart_groupLines fun j hj => hmid j (List.mem_map.mpr ⟨_, hj, rfl⟩)
    · obtain ⟨g, hg, hlandmark⟩ := List.mem_map.mp htravel
      refine List.mem_flatMap.mpr ⟨g, hg, ?_⟩
      cases g with
      | travel t d => exact List.mem_cons_self ..
      | _ => cases hlandmark

/-- The travel of a group is clear after the lines of the groups before it. -/
theorem clear_of_travel (front : Program α) {gs : List (MoveGroup α)} {m : Move α}
    {ls post : Program α} (hshaped : ∀ g ∈ gs, g.Shaped)
    (hclear : c.Clear paths s [] (gs.map MoveGroup.landmark))
    (hls : groupLines gs = ls ++ .move m :: post) (hxy : m.hasXY = true)
    (htravel : m.motion = .rapid ∨ (front ++ ls).getLast? = some .rapidToStart) :
    m.z = none ∧ (depthAfter none (front ++ ls) = some s ∨ c.Reenters paths (front ++ ls)) := by
  obtain ⟨before, g, after, ms, ms', rfl, hmoves, rfl⟩ := exists_group hls
  have hg := hshaped g (by simp)
  have hlast : m.motion = .rapid ∨
      (g.comments ++ ms.map Line.move).getLast? = some .rapidToStart := by
    refine htravel.imp_right fun h => ?_
    have hne : g.comments ++ ms.map Line.move ≠ [] := by cases g <;> simp [MoveGroup.comments]
    rwa [← List.append_assoc, List.getLast?_append_of_ne_nil _ hne] at h
  obtain ⟨d, rfl, rfl⟩ := hg.eq_travel hmoves hxy hlast
  refine ⟨hg.1, ?_⟩
  have happroached := hclear (before.map MoveGroup.landmark) (after.map MoveGroup.landmark)
    (by simp; rfl)
  have htext := Approached.of_landmarks happroached front
  simpa [MoveGroup.comments] using htext

/-- Travel is clear in a program of groups after lines without any. -/
theorem travelsClear_of_groups (front : Program α) {gs : List (MoveGroup α)}
    (hmarker : .rapidToStart ∉ front)
    (hlinear : ∀ m, .move m ∈ front → m.motion = .linear)
    (hlifts : LiftsTo s front) (hshaped : ∀ g ∈ gs, g.Shaped)
    (hrise : ∀ g ∈ gs, ∀ m, g = .retract m → m.z = some s)
    (hclear : c.Clear paths s [] (gs.map MoveGroup.landmark)) :
    c.TravelsClear paths s (front ++ groupLines gs) := by
  rintro pre m post hp ⟨hxy, htravel⟩
  obtain ⟨hlifts', hlevel⟩ := liftsTo_groupLines hrise
  have hall := hlifts.append hlifts' hlevel
  have hrapid : m.motion = .rapid ∨ pre.getLast? = some .rapidToStart →
      m.z = none ∧ (depthAfter none pre = some s ∨ c.Reenters paths pre) := by
    intro htravel
    rcases List.append_eq_append_iff.mp hp with ⟨ls, hpre, hls⟩ | ⟨ls, hfront, hls⟩
    · rw [hpre] at htravel ⊢
      exact clear_of_travel front hshaped hclear hls hxy htravel
    · cases ls with
      | nil =>
          rw [List.append_nil] at hfront
          rw [← hfront, ← List.append_nil front] at htravel ⊢
          exact clear_of_travel front hshaped hclear hls.symm hxy htravel
      | cons l ls =>
          obtain ⟨rfl, -⟩ := List.cons_eq_cons.mp hls
          rcases htravel with hrapid | hlast
          · rw [hlinear m (by rw [hfront]; simp)] at hrapid
            cases hrapid
          · refine absurd ?_ hmarker
            rw [hfront]
            exact List.mem_append_left _ (List.mem_of_getLast? hlast)
  rcases htravel with htravel | htravel | ⟨before, rise, rfl⟩
  · exact hrapid (.inl htravel)
  · exact hrapid (.inr htravel)
  · rw [hp, List.append_assoc] at hall
    obtain ⟨hz, hafter⟩ := LiftsTo.at_rise (.move m :: post) hall
    refine ⟨hafter m post rfl, .inl ?_⟩
    rw [depthAfter_append]
    simp [Line.retract, depthAfter, hz]

end ToolpathParams

/-! ## Compensated groups -/

theorem MoveGroup.landmark_refed (feeds : PlungeFeeds α) (after : Option (Option α))
    (g : MoveGroup α) : (g.refed feeds after).landmark = g.landmark := by
  cases g <;> rfl

theorem MoveGroup.Shaped.refed {g : MoveGroup α} (h : g.Shaped) (feeds : PlungeFeeds α)
    (after : Option (Option α)) : (g.refed feeds after).Shaped := by
  cases g with
  | ramp way last =>
      intro m hm
      rcases List.mem_append.mp hm with hm | hm
      · exact h m (List.mem_append_left _ hm)
      · rw [List.mem_singleton.mp hm]
  | _ => exact h

section

variable [Scalar α] {w : WearParams α} {stage : Stage} {after : Option (Option α)}
variable {gs gs' : List (MoveGroup α)}

/-- Compensation keeps the landmarks. -/
theorem Resumes.landmarks (h : Resumes w stage after gs gs') :
    gs'.map MoveGroup.landmark = gs.map MoveGroup.landmark := by
  induction h with
  | done => rfl
  | cut _ _ ih => rw [List.map_cons, List.map_cons, ih]; rfl
  | next _ _ ih => rw [List.map_cons, List.map_cons, ih, MoveGroup.landmark_refed]
  | keep _ _ _ ih => rw [List.map_cons, List.map_cons, ih]

theorem Resumes.shaped (h : Resumes w stage after gs gs') (hgs : ∀ g ∈ gs, g.Shaped) :
    ∀ g ∈ gs', g.Shaped := by
  induction h with
  | done => simp
  | @cut stage after ms ms' z gs gs' hcut _ ih =>
      obtain ⟨hms, hgs⟩ := List.forall_mem_cons.mp hgs
      refine List.forall_mem_cons.mpr ⟨?_, ih hgs⟩
      intro m' hm'
      obtain ⟨ms'', z', heq, hmotion⟩ := exists_compensate_cut hcut
      obtain ⟨-, hms'⟩ := List.cons_eq_cons.mp (CutBlock.mk.inj heq).1
      rw [List.map_inj_right fun _ _ => Line.move.inj] at hms'
      obtain ⟨m, hm, hm''⟩ := hmotion m' (hms' ▸ hm')
      rw [hm'']
      exact hms m hm
  | next _ _ ih =>
      obtain ⟨hg, hgs⟩ := List.forall_mem_cons.mp hgs
      exact List.forall_mem_cons.mpr ⟨hg.refed _ _, ih hgs⟩
  | keep _ _ _ ih =>
      obtain ⟨hg, hgs⟩ := List.forall_mem_cons.mp hgs
      exact List.forall_mem_cons.mpr ⟨hg, ih hgs⟩

/-- Compensation keeps the depths of rises. -/
theorem Resumes.rise_eq {s : α} (h : Resumes w stage after gs gs')
    (hgs : ∀ g ∈ gs, ∀ m, g = .retract m → m.z = some s) :
    ∀ g ∈ gs', ∀ m, g = .retract m → m.z = some s := by
  rintro g hg m rfl
  have hmem : (MoveGroup.retract m).landmark ∈ gs.map MoveGroup.landmark :=
    h.landmarks ▸ List.mem_map_of_mem hg
  obtain ⟨g', hg', hlandmark⟩ := List.mem_map.mp hmem
  obtain ⟨m', rfl, hz⟩ := MoveGroup.eq_of_landmark_rise hlandmark
  rw [← hz]
  exact hgs _ hg' m' rfl

end

/-! ## Staged copies -/

section

variable {s : α}

@[simp] theorem isStaged_move (m : Move α) : isStaged (.move m) = true := rfl

@[simp] theorem isStaged_retract : isStaged (.retract : Line α) = true := by
  rw [Line.retract, isStaged]
  decide

@[simp] theorem isStaged_blank : isStaged (.blank : Line α) = false := by
  rw [Line.blank, isStaged]
  decide

@[simp] theorem isStaged_pathStart (i : Nat) : isStaged (.pathStart i : Line α) = false := by
  have hkind : Comment.kind (Comment.ofPath i) = .path := Line.kind_pathStart (α := α) i
  simp [Line.pathStart, isStaged, hkind]

@[simp] theorem isStaged_rapidToStart : isStaged (.rapidToStart : Line α) = false := by
  rw [Line.rapidToStart, isStaged]
  decide

@[simp] theorem isStaged_plunge : isStaged (.plunge : Line α) = true := by
  rw [Line.plunge, isStaged]
  decide

@[simp] theorem isStaged_ramp : isStaged (.ramp : Line α) = true := by
  rw [Line.ramp, isStaged]
  decide

/-- The lines of the staged copy of a group. -/
def MoveGroup.stagedLines (feeds : PlungeFeeds α) (g : MoveGroup α) : Program α :=
  (PlungeBlock.lines (g.steps.map (PlungeStep.refed feeds))).filter isStaged

section

variable (feeds : PlungeFeeds α)

theorem MoveGroup.stagedLines_retract (m : Move α) : (MoveGroup.retract m).stagedLines feeds
    = [.retract, .move { m with motion := .linear, f := feeds.retract }] := by
  simp [stagedLines, steps, PlungeBlock.lines, PlungeStep.refed, PlungeFeeds.ofRole]

theorem MoveGroup.stagedLines_header (i : Nat) :
    (MoveGroup.header i : MoveGroup α).stagedLines feeds = [] := by
  simp [stagedLines, steps, PlungeBlock.lines, PlungeStep.refed]

theorem MoveGroup.stagedLines_travel (t d : Move α) : (MoveGroup.travel t d).stagedLines feeds
    = [.move { t with motion := .linear, f := feeds.travel },
      .move { d with motion := .linear, f := feeds.retract }] := by
  simp [stagedLines, steps, PlungeBlock.lines, PlungeStep.refed, PlungeFeeds.ofRole]

theorem MoveGroup.stagedLines_plunge (m : Move α) : (MoveGroup.plunge m).stagedLines feeds
    = .plunge :: [{ m with motion := .linear, f := feeds.plunge }].map .move := by
  simp [stagedLines, steps, PlungeBlock.lines, PlungeStep.refed, PlungeFeeds.ofRole]

theorem MoveGroup.stagedLines_ramp (way : List (Move α)) (last : Move α) :
    (MoveGroup.ramp way last).stagedLines feeds
      = .ramp :: (way ++ [{ last with motion := .linear, f := feeds.plunge }]).map .move := by
  have hway : (way.map Line.move).filter isStaged = way.map .move := by
    rw [List.filter_eq_self]
    intro l hl
    obtain ⟨n, -, rfl⟩ := List.mem_map.mp hl
    rfl
  simp only [stagedLines, steps, PlungeBlock.lines, List.map_append, List.map_cons, List.map_map,
    List.map_nil, List.filter_append, List.cons_append, List.filter_cons]
  simp only [PlungeStep.refed, Function.comp_def, isStaged_ramp, if_true, hway]
  simp [PlungeFeeds.ofRole]

/-- The staged copy of a group rises to the depth of its rise. -/
theorem MoveGroup.liftsTo_stagedLines {g : MoveGroup α} (hg : g.Shaped)
    (hrise : ∀ m, g = .retract m → m.z = some s) :
    LiftsTo s (g.stagedLines feeds) ∧ StartsLevel (g.stagedLines feeds) := by
  cases g with
  | retract m =>
      rw [stagedLines_retract]
      refine ⟨⟨fun _ => ⟨_, [], rfl, hrise m rfl, level_nil⟩, fun hmove => (by cases hmove),
        trivial⟩, ?_⟩
      exact level_comment _ _
  | header i =>
      rw [stagedLines_header]
      exact ⟨trivial, level_nil⟩
  | travel t d =>
      rw [stagedLines_travel]
      refine ⟨⟨fun hmove => (by cases hmove), fun hmove => (by cases hmove), trivial⟩, ?_⟩
      rintro m rest heq
      cases heq
      exact hg.1
  | plunge m =>
      rw [stagedLines_plunge]
      exact liftsTo_marker (by simp) (by simp)
  | ramp way last =>
      rw [stagedLines_ramp]
      exact liftsTo_marker (by simp) (by simp)
  | ontoTab m => exact ⟨trivial, level_nil⟩
  | cut ms => exact ⟨trivial, level_nil⟩

end

theorem MoveGroup.linear_refed_steps (feeds : PlungeFeeds α) {g : MoveGroup α} (hg : g.Shaped)
    {m : Move α} (hm : .move m ∈ PlungeBlock.lines (g.steps.map (PlungeStep.refed feeds))) :
    m.motion = .linear := by
  rw [PlungeBlock.lines, List.map_map, List.mem_map] at hm
  obtain ⟨step, hstep, hline⟩ := hm
  cases g with
  | ramp way last =>
      simp only [steps, List.mem_append, List.mem_cons, List.mem_map, List.not_mem_nil,
        or_false] at hstep
      rcases hstep with (rfl | ⟨n, hn, rfl⟩) | rfl
      · cases hline
      · cases hline
        exact hg _ (List.mem_append_left _ hn)
      · cases hline
        rfl
  | travel t d =>
      simp only [steps, List.mem_cons, List.not_mem_nil, or_false] at hstep
      rcases hstep with rfl | rfl | rfl <;> cases hline <;> rfl
  | ontoTab m => cases hstep
  | cut ms => cases hstep
  | _ =>
      simp only [steps, List.mem_cons, List.not_mem_nil, or_false] at hstep
      rcases hstep with rfl | rfl <;> cases hline <;> rfl

/-- The staged copies of the plunges of some groups rise to the depth of their rises, and they only
have linear moves. -/
theorem liftsTo_seatingLines (feeds : PlungeFeeds α) {gs : List (MoveGroup α)}
    {blocks : List (PlungeBlock α)} (hblocks : ∀ b ∈ blocks, b.IsFrom gs)
    (hshaped : ∀ g ∈ gs, g.Shaped) (hrise : ∀ g ∈ gs, ∀ m, g = .retract m → m.z = some s) :
    (LiftsTo s (seatingLines (blocks.map (List.map (PlungeStep.refed feeds)))) ∧
      StartsLevel (seatingLines (blocks.map (List.map (PlungeStep.refed feeds))))) ∧
    ∀ m, .move m ∈ seatingLines (blocks.map (List.map (PlungeStep.refed feeds))) →
      m.motion = .linear := by
  have hstaged : ∀ b ∈ blocks, ∃ run : List (MoveGroup α), (∀ g ∈ run, g ∈ gs) ∧
      (PlungeBlock.lines (b.map (PlungeStep.refed feeds))).filter isStaged
        = run.flatMap (MoveGroup.stagedLines feeds) := by
    intro b hb
    obtain ⟨rise, run, hmem, hrun, rfl⟩ := hblocks b hb
    refine ⟨.retract rise :: run, List.forall_mem_cons.mpr ⟨hmem, fun g hg => (hrun g hg).1⟩, ?_⟩
    rw [List.flatMap_cons, List.map_append, PlungeBlock.lines, List.map_append, List.filter_append]
    congr 1
    clear hb
    induction run with
    | nil => rfl
    | cons g run ih =>
        rw [List.flatMap_cons, List.flatMap_cons, List.map_append, List.map_append,
          List.filter_append, ih fun g hg => hrun g (List.mem_cons_of_mem _ hg)]
        rfl
  constructor
  · rw [seatingLines, List.flatMap_map]
    refine LiftsTo.flatMap fun b hb => ?_
    split
    · obtain ⟨run, hrun, hlines⟩ := hstaged b hb
      rw [hlines]
      exact LiftsTo.flatMap fun g hg =>
        MoveGroup.liftsTo_stagedLines feeds (hshaped g (hrun g hg)) (hrise g (hrun g hg))
    · exact ⟨trivial, level_nil⟩
  · intro m hm
    rw [seatingLines, List.flatMap_map, List.mem_flatMap] at hm
    obtain ⟨b, hb, hm⟩ := hm
    split at hm
    · obtain ⟨run, hrun, hlines⟩ := hstaged b hb
      rw [hlines] at hm
      obtain ⟨g, hg, hm⟩ := List.mem_flatMap.mp hm
      exact MoveGroup.linear_refed_steps feeds (hshaped g (hrun g hg)) (List.mem_filter.mp hm).1
    · cases hm

end

/-! ## Toolpaths -/

namespace ToolpathParams

section

variable [Scalar α] {c : ToolpathParams α} {paths : List (CamPath α)} {s : α}

/-- A compiled program is made of groups that are clear, with all rises to the clearance height. -/
theorem exists_clear_groups [OrderedScalar α] {p : Program α} (hprogress : c.Progresses)
    (htop : c.topZ ≤ c.safeZ) (htabs : ∀ t, c.activeTabs = some t → t.top < c.safeZ)
    (h : c.compile paths = .ok p) :
    ∃ s gs, p = groupLines gs ∧ c.round c.safeZ = .ok s ∧ (∀ g ∈ gs, Sound s g) ∧
      c.Clear paths s [] (gs.map MoveGroup.landmark) := by
  obtain ⟨rise, parts, rfl, hrise, hparts⟩ := exists_groups h
  obtain ⟨s, hs, hz⟩ := roundField_eq_some hrise.z
  refine ⟨s, _, rfl, hs, List.forall_mem_cons.mpr ⟨hrise.sound hs, hparts.sound hs⟩, ?_⟩
  have hfirst : (MoveGroup.retract rise).landmark = .rise (some s) :=
    congrArg Landmark.rise hz
  have hrest := clear_of_emitsPaths paths hs htop htabs hprogress hparts [] rfl
  rw [List.map_cons, hfirst, ← List.singleton_append]
  exact Clear.append (.of_quiet (by simp)) hrest

variable {gs : List (MoveGroup α)} (hsound : ∀ g ∈ gs, Sound s g)
  (hclear : c.Clear paths s [] (gs.map MoveGroup.landmark))

include hsound hclear

theorem travelsClear_groupLines : c.TravelsClear paths s (groupLines gs) :=
  travelsClear_of_groups [] (by simp) (by simp) trivial (fun g hg => (hsound g hg).1)
    (fun g hg => (hsound g hg).2.2) hclear

/-- Travel stays clear when a program of groups is compensated. -/
theorem travelsClear_of_compensate {w : WearParams α} {summary q : Program α}
    (hsummary : IsSummary summary)
    (hq : (Program.compensate w (summary ++ groupLines gs)).outcome = .ok q) :
    c.TravelsClear paths s q := by
  have hshaped := fun g hg => (hsound g hg).1
  have hrises := fun g hg => (hsound g hg).2.2
  obtain ⟨blocks, gs', hblocks, hresumes, rfl⟩ :=
    Program.groups_of_compensate hsummary (fun g hg => (hsound g hg).2.1) hq
  obtain ⟨⟨hlifts, hlevel⟩, hlinear⟩ := liftsTo_seatingLines w.feeds hblocks hshaped hrises
  have hkind : ∀ {l : Line α}, l ∈ summary → l.kind ≠ .move ∧ l.kind ≠ .retract ∧
      l.kind ≠ .rapidToStart := by
    intro l hl
    rcases hsummary.kind hl with h | h <;> rw [h] <;> simp
  refine travelsClear_of_groups _ ?_ ?_ ?_ (hresumes.shaped hshaped) (hresumes.rise_eq hrises)
    (hresumes.landmarks ▸ hclear)
  · intro hmem
    rcases List.mem_append.mp hmem with hmem | hmem
    · exact (hkind hmem).2.2 Line.kind_rapidToStart
    · exact kind_seatingLines hmem Line.kind_rapidToStart
  · intro m hm
    rcases List.mem_append.mp hm with hm | hm
    · exact absurd rfl (hkind hm).1
    · exact hlinear m hm
  · have hquiet : LiftsTo s summary := .of_not_mem fun hmem => (hkind hmem).2.1 Line.kind_retract
    exact hquiet.append hlifts hlevel

end

/-- All travel of a compiled program is at the clearance height, except for the start of a further
pass over a path that may be closed while no tabs are in effect.  The same holds of the program
after compensation, with the staged copies of its plunges.

On doubles a pass depth that is lost in rounding makes no progress, and such a cut would never
end. -/
theorem travels_clear [Scalar α] [OrderedScalar α] {c : ToolpathParams α}
    {paths : List (CamPath α)} {p : Program α} (hprogress : c.Progresses)
    (htop : c.topZ ≤ c.safeZ) (htabs : ∀ t, c.activeTabs = some t → t.top < c.safeZ)
    (h : c.compile paths = .ok p) :
    ∃ s, c.round c.safeZ = .ok s ∧ c.TravelsClear paths s p ∧
      ∀ (w : WearParams α) (summary q : Program α), IsSummary summary →
        (Program.compensate w (summary ++ p)).outcome = .ok q → c.TravelsClear paths s q := by
  obtain ⟨s, gs, rfl, hs, hsound, hclear⟩ := exists_clear_groups hprogress htop htabs h
  exact ⟨s, hs, travelsClear_groupLines hsound hclear, fun _ _ _ hsummary hq =>
    travelsClear_of_compensate hsound hclear hsummary hq⟩

/-- On the reals a positive pass depth makes progress, so all travel is clear. -/
theorem travels_clear_of_pos {c : ToolpathParams ℝ} {paths : List (CamPath ℝ)}
    {p : Program ℝ} (hpass : 0 < c.passDepth) (htop : c.topZ ≤ c.safeZ)
    (htabs : ∀ t, c.activeTabs = some t → t.top < c.safeZ) (h : c.compile paths = .ok p) :
    ∃ s, c.round c.safeZ = .ok s ∧ c.TravelsClear paths s p ∧
      ∀ (w : WearParams ℝ) (summary q : Program ℝ), IsSummary summary →
        (Program.compensate w (summary ++ p)).outcome = .ok q → c.TravelsClear paths s q := by
  obtain ⟨s, gs, rfl, hs, hsound, hclear⟩ :=
    exists_clear_groups (progresses_of_pos hpass) htop htabs h
  exact ⟨s, hs, travelsClear_groupLines hsound hclear, fun _ _ _ hsummary hq =>
    travelsClear_of_compensate hsound hclear hsummary hq⟩

end ToolpathParams

/-- Two passes without tabs, on doubles that are rounded to three places. -/
def loopToolpath : ToolpathParams Float where
  topZ := 0
  bottomZ := -2
  safeZ := 5
  passDepth := 1
  descents := ⟨false, 60, 200, none⟩
  lengthScale := 1
  usePathZ := false
  offsetX := 0
  offsetY := 0
  tabs := none
  tabZ := none
  round := Scalar.roundTo 3

/-- A path that the tool may close. -/
def loopPath : CamPath Float := ⟨[⟨0, 0, 0⟩, ⟨1, 0, 0⟩, ⟨1, 1, 0⟩, ⟨0, 0, 0⟩], true⟩

/-- Two passes over a path that may be closed, and what compensation makes of them. -/
theorem loopToolpath_travels_clear :
    loopToolpath.Progresses ∧ ∃ (p q : Program Float) (s : Float),
      loopToolpath.compile [loopPath] = .ok p ∧
      (Program.compensate unitWear ([.comment "; Wear Ratio:   0.1", .comment ";"] ++ p)).outcome
        = .ok q ∧
      loopToolpath.round 5 = .ok s ∧
      loopToolpath.TravelsClear [loopPath] s p ∧ loopToolpath.TravelsClear [loopPath] s q := by
  have hprogress : loopToolpath.Progresses := by
    intro _
    decide +kernel
  have hactive : loopToolpath.activeTabs = none := rfl
  obtain ⟨p, hp⟩ : ∃ p, loopToolpath.compile [loopPath] = .ok p := ⟨_, rfl⟩
  obtain ⟨q, hq⟩ : ∃ q, (loopToolpath.compile [loopPath]).bind (fun p =>
      (Program.compensate unitWear ([.comment "; Wear Ratio:   0.1", .comment ";"] ++ p)).outcome)
        = .ok q := by
    refine Fault.exists_eq_ok ?_
    decide +kernel
  rw [hp] at hq
  have hsummary : IsSummary ([.comment "; Wear Ratio:   0.1", .comment ";"] : Program Float) :=
    ⟨[], _, rfl, by simp, by decide⟩
  obtain ⟨s, hs, hclear, hworn⟩ := ToolpathParams.travels_clear hprogress (by decide +kernel)
    (fun t ht => by rw [hactive] at ht; cases ht) hp
  exact ⟨hprogress, p, q, s, hp, hq, hs, hclear, hworn _ _ _ hsummary hq⟩

end WireErosion
