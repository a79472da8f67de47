import WireErosion.Proofs.Residue.Order
import WireErosion.Proofs.Residue.Plunges

/-!
# The shape of a plunge block

A plunge block is the retract marker and then a run of the phases (`Phase.Run`).  Every phase has a
level, which no step lowers.  A step with a role is a move, its role has at least the level of the
phase that takes it, and the phases after it are above that level unless it is a zero plunge or the
end of the block (`Phase.take?_role`).  So the roles come in order, which is what
`PlungeBlock.Shaped` says.

A block of this shape can be put at any feeds and at any depth, and keeps its shape.
-/

namespace WireErosion

variable {α : Type}

/-! ## Runs of the phases -/

namespace Phase

/-- The steps that a block can take from a phase on.  Only a ramp asks whether another move follows,
and there the block goes on exactly if one does. -/
inductive Run : Phase → PlungeBlock α → Prop
  | done (phase : Phase) : Run phase []
  | step {phase next : Phase} {s : PlungeStep α} {b : PlungeBlock α} :
      phase.take? s.line (!b.isEmpty) = some (s.role, next) → Run next b → Run phase (s :: b)

/-- Outside a ramp it makes no difference whether another move follows. -/
theorem take?_of_ne_ramping {phase : Phase} (h : phase ≠ .ramping) (l : Line α)
    (more more' : Bool) : phase.take? l more = phase.take? l more' := by
  cases phase with
  | ramping => exact absurd rfl h
  | _ => cases l <;> rfl

/-- A ramp takes all moves that follow. -/
theorem isEmpty_ramping (n : Nat) : ∀ r : Residue α,
    (!(plungesFrom n (some .ramping) r).1.isEmpty) = startsWithMove r
  | [] => rfl
  | .handle h :: rest => by rw [plungesFrom_handle]; rfl
  | .line (.move m) :: rest => by
      have htaken : taken? (some .ramping) (.line (.move m)) rest = some
          (⟨.move m, if startsWithMove rest then none else some .plunge⟩, .ramping) := rfl
      rw [plungesFrom_taken htaken]
      rfl
  | .line (.comment t) :: rest => by
      by_cases hl : (Line.comment t : Line α).kind = .retract
      · rw [plungesFrom_retract rfl hl]; rfl
      · rw [plungesFrom_line rfl hl]; rfl

/-- What an open block takes is a run from its phase. -/
theorem run_plungesFrom (n : Nat) : ∀ (phase : Phase) (r : Residue α),
    phase.Run (plungesFrom n (some phase) r).1
  | phase, [] => .done phase
  | phase, .handle h :: rest => by rw [plungesFrom_handle]; exact .done phase
  | phase, .line l :: rest => by
      cases ht : taken? (some phase) (.line l) rest with
      | none =>
          by_cases hl : l.kind = .retract
          · rw [plungesFrom_retract ht hl]; exact .done phase
          · rw [plungesFrom_line ht hl]; exact .done phase
      | some taken =>
          obtain ⟨s, next⟩ := taken
          rw [plungesFrom_taken ht]
          refine .step ?_ (run_plungesFrom n next rest)
          simp only [taken?, Option.map_eq_some_iff] at ht
          obtain ⟨⟨role, next'⟩, htake, hs⟩ := ht
          obtain ⟨rfl, rfl⟩ := Prod.mk.inj hs
          by_cases hramp : phase = .ramping
          · have hnext : next' = .ramping := by
              subst hramp
              cases l with
              | move m => cases htake; rfl
              | comment t => cases htake
            subst hramp hnext
            rw [isEmpty_ramping]
            exact htake
          · rw [take?_of_ne_ramping hramp _ _ (startsWithMove rest)]
            exact htake

/-! ## Levels -/

/-- The level of the first role that can still come. -/
def level : Phase → Nat
  | .started => 0
  | .header | .travelling false => 1
  | .travelling true => 2
  | .plunging | .ramping => 3
  | .finished => 4

end Phase

/-- The place of a role in the order of the roles. -/
def PlungeRole.level : PlungeRole → Nat
  | .retract => 0
  | .travel => 1
  | .zeroPlunge => 2
  | .plunge => 3

namespace Phase

theorem level_descent? {k : LineKind} {next : Phase} (h : descent? k = some next) :
    next.level = 3 := by
  cases k with
  | plunge => cases h; rfl
  | ramp => cases h; rfl
  | _ => cases h

/-- A comment of the header leads to the header, to the travel, or to a descent. -/
theorem level_header? {t : String} {next : Phase} (h : header? t = some next) :
    next.level = 1 ∨ next.level = 3 := by
  unfold header? at h
  split at h
  · cases h; exact .inl rfl
  · split at h
    · cases h; exact .inl rfl
    · cases h; exact .inl rfl
    · exact .inr (level_descent? h)

/-- A comment has no role, and it leads to no lower phase and not to the zero plunges. -/
theorem take?_comment {phase next : Phase} {t : String} {more : Bool} {role : Option PlungeRole}
    (h : phase.take? (.comment t : Line α) more = some (role, next)) :
    role = none ∧ phase.level ≤ next.level ∧ next.level ≠ 2 := by
  cases phase with
  | started =>
      obtain ⟨_, hnext, hpair⟩ := Option.map_eq_some_iff.mp h
      cases hpair
      have hl := level_header? hnext
      exact ⟨rfl, Nat.zero_le _, by omega⟩
  | header =>
      obtain ⟨_, hnext, hpair⟩ := Option.map_eq_some_iff.mp h
      cases hpair
      have hl := level_header? hnext
      exact ⟨rfl, show 1 ≤ next.level by omega, by omega⟩
  | travelling travelled =>
      obtain ⟨_, hnext, hpair⟩ := Option.map_eq_some_iff.mp h
      cases hpair
      have hl := level_descent? hnext
      have htravelling : (travelling travelled).level ≤ 2 := by cases travelled <;> decide
      exact ⟨rfl, by omega, by omega⟩
  | _ => cases h

/-- A rapid move of the travel has no role, or it is the first one in the plane, or it is a zero
plunge after that one. -/
theorem travelRole_cases (travelled : Bool) (m : Move α) :
    (travelRole travelled m = none ∧ (travelled || m.hasXY) = travelled) ∨
    (travelRole travelled m = some .travel ∧ travelled = false ∧ m.hasXY = true) ∨
    (travelRole travelled m = some .zeroPlunge ∧ travelled = true ∧ m.hasXY = false) := by
  cases travelled <;> cases hxy : m.hasXY <;> simp [travelRole, hxy]

/-- What a step can do to the level.  Without a role it does not lower the level and does not lead
to the zero plunges.  With a role it is a move.  If that is a zero plunge, the level stays, and
otherwise it rises above that of the role, unless the role is that of the last move of a ramp. -/
theorem take?_cases {phase next : Phase} {l : Line α} {more : Bool} {role : Option PlungeRole}
    (h : phase.take? l more = some (role, next)) :
    (role = none ∧ phase.level ≤ next.level ∧ (next.level = 2 → phase.level = 2)) ∨
    (l.isMove = true ∧ role = some .zeroPlunge ∧ phase.level = 2 ∧ next.level = 2) ∨
    (l.isMove = true ∧ ∃ k, role = some k ∧ k ≠ .zeroPlunge ∧ phase.level = k.level ∧
      (next.level = k.level + 1 ∨ k = .plunge ∧ next.level = 3 ∧ more = false)) := by
  cases l with
  | comment t =>
      obtain ⟨hrole, hle, hne⟩ := take?_comment h
      exact .inl ⟨hrole, hle, fun heq => absurd heq hne⟩
  | move m =>
      cases phase with
      | started => cases h; exact .inr (.inr ⟨rfl, .retract, rfl, by decide, rfl, .inl rfl⟩)
      | header => cases h
      | travelling travelled =>
          cases hmotion : m.motion with
          | linear => simp [take?, hmotion] at h
          | rapid =>
              simp only [take?, hmotion, Option.some.injEq, Prod.mk.injEq] at h
              obtain ⟨rfl, rfl⟩ := h
              rcases travelRole_cases travelled m with ⟨hrole, hstay⟩ | ⟨hrole, rfl, hxy⟩ |
                ⟨hrole, rfl, hxy⟩
              · rw [hstay]
                exact .inl ⟨hrole, Nat.le_refl _, id⟩
              · rw [hxy]
                exact .inr (.inr ⟨rfl, .travel, hrole, by decide, rfl, .inl rfl⟩)
              · exact .inr (.inl ⟨rfl, hrole, rfl, rfl⟩)
      | plunging => cases h; exact .inr (.inr ⟨rfl, .plunge, rfl, by decide, rfl, .inl rfl⟩)
      | ramping =>
          cases more with
          | true => cases h; exact .inl ⟨rfl, Nat.le_refl _, id⟩
          | false =>
              cases h
              exact .inr (.inr ⟨rfl, .plunge, rfl, by decide, rfl, .inr ⟨rfl, rfl, rfl⟩⟩)
      | finished => cases h

theorem level_le_of_take? {phase next : Phase} {l : Line α} {more : Bool}
    {role : Option PlungeRole} (h : phase.take? l more = some (role, next)) :
    phase.level ≤ next.level := by
  rcases take?_cases h with ⟨-, hle, -⟩ | ⟨-, -, hlevel, hnext⟩ |
    ⟨-, k, -, -, hlevel, hnext | ⟨rfl, hnext, -⟩⟩
  · exact hle
  · omega
  · omega
  · rw [hlevel, hnext]
    exact Nat.le_refl _

namespace Run

variable {phase : Phase} {s : PlungeStep α} {b : PlungeBlock α} {k : PlungeRole}

/-- What is left of a run is a run. -/
theorem of_append : ∀ {b₁ : PlungeBlock α} {phase : Phase},
    phase.Run (b₁ ++ b) → ∃ next : Phase, next.Run b
  | [], phase, h => ⟨phase, h⟩
  | _ :: _, _, .step _ h => of_append h

theorem rolesOnMoves (h : phase.Run b) : b.RolesOnMoves := by
  induction h with
  | done _ => exact fun _ hs => absurd hs List.not_mem_nil
  | step htake _ ih =>
      refine List.forall_mem_cons.mpr ⟨fun hrole => ?_, ih⟩
      rcases take?_cases htake with ⟨hnone, -⟩ | ⟨hmove, -⟩ | ⟨hmove, -⟩
      · exact absurd hnone hrole
      · exact hmove
      · exact hmove

/-- All roles of a run have at least the level of its phase. -/
theorem level_le (h : phase.Run b) (hk : some k ∈ b.roles) : phase.level ≤ k.level := by
  induction h with
  | done _ => cases hk
  | step htake _ ih =>
      rw [PlungeBlock.roles_cons] at hk
      rcases List.mem_cons.mp hk with hhead | htail
      · rcases take?_cases htake with ⟨hnone, -⟩ | ⟨-, hzero, hlevel, -⟩ |
          ⟨-, k', hrole, -, hlevel, -⟩
        · rw [hnone] at hhead; cases hhead
        · rw [hzero] at hhead; cases hhead; exact Nat.le_of_eq hlevel
        · rw [hrole] at hhead; cases hhead; exact Nat.le_of_eq hlevel
      · exact Nat.le_trans (level_le_of_take? htake) (ih htail)

/-- After a step with a role other than that of a zero plunge the role does not come again. -/
theorem not_mem_roles (h : phase.Run (s :: b)) (hs : s.role = some k) (hk : k ≠ .zeroPlunge) :
    some k ∉ b.roles := by
  cases h with
  | step htake hb =>
      intro hmem
      rcases take?_cases htake with ⟨hnone, -⟩ | ⟨-, hzero, -⟩ | ⟨-, k', hrole, -, -, hnext⟩
      · rw [hs] at hnone; cases hnone
      · rw [hs] at hzero; cases hzero; exact hk rfl
      · rw [hs] at hrole
        cases hrole
        rcases hnext with hnext | ⟨-, -, hmore⟩
        · have hle := hb.level_le hmem
          omega
        · have hb : b = [] := by simpa using hmore
          rw [hb] at hmem
          cases hmem

/-- The end of the descent ends the run. -/
theorem eq_nil_of_plunge (h : phase.Run (s :: b)) (hs : s.role = some .plunge) : b = [] := by
  cases h with
  | @step _ next _ _ htake hb =>
      rcases take?_cases htake with ⟨hnone, -⟩ | ⟨-, hzero, -⟩ | ⟨-, k', hrole, -, -, hnext⟩
      · rw [hs] at hnone; cases hnone
      · rw [hs] at hzero; cases hzero
      · rw [hs] at hrole
        cases hrole
        rcases hnext with hnext | ⟨-, -, hmore⟩
        · have hfinished : next = .finished := by
            cases next with
            | finished => rfl
            | travelling travelled => cases travelled <;> cases hnext
            | _ => cases hnext
          subst hfinished
          cases hb with
          | done _ => rfl
          | step hfinished _ => simp [take?] at hfinished
        · simpa using hmore

theorem count_le_one (h : phase.Run b) (hk : k ≠ .zeroPlunge) : b.roles.count (some k) ≤ 1 := by
  induction h with
  | done _ => exact Nat.zero_le _
  | @step _ _ s b htake hb ih =>
      rw [PlungeBlock.roles_cons, List.count_cons]
      by_cases hs : s.role = some k
      · rw [List.count_eq_zero.mpr (not_mem_roles (.step htake hb) hs hk)]
        split <;> omega
      · rw [if_neg (by simpa using hs)]
        exact ih

/-- In a run that starts below the zero plunges, each of them comes after the travel. -/
theorem travel_mem (h : phase.Run b) (hlevel : phase.level < 2)
    {pre post : List (Option PlungeRole)} (hroles : b.roles = pre ++ some .zeroPlunge :: post) :
    some .travel ∈ pre := by
  induction h generalizing pre with
  | done _ => cases pre <;> cases hroles
  | @step phase next s b htake hb ih =>
      rw [PlungeBlock.roles_cons] at hroles
      have hcases := take?_cases htake
      cases pre with
      | nil =>
          obtain ⟨hs, -⟩ := List.cons.inj hroles
          rw [hs] at hcases
          rcases hcases with ⟨hnone, -⟩ | ⟨-, -, htwo, -⟩ | ⟨-, k, hrole, hk, -⟩
          · cases hnone
          · omega
          · cases hrole; exact absurd rfl hk
      | cons role pre =>
          obtain ⟨rfl, hrest⟩ : s.role = role ∧ b.roles = pre ++ some .zeroPlunge :: post :=
            List.cons.inj hroles
          have hmem : some PlungeRole.zeroPlunge ∈ b.roles := by simp [hrest]
          have hnext : next.level ≤ 2 := hb.level_le hmem
          rcases hcases with ⟨-, -, htwo⟩ | ⟨-, -, htwo, -⟩ | ⟨-, k, hrole, hk, hlevel', hnext'⟩
          · exact List.mem_cons_of_mem _ (ih (by omega) hrest)
          · omega
          · cases k with
            | retract =>
                have hlow : next.level < 2 := by simp only [PlungeRole.level] at hnext'; omega
                exact List.mem_cons_of_mem _ (ih hlow hrest)
            | travel => rw [hrole]; exact List.mem_cons_self
            | zeroPlunge => exact absurd rfl hk
            | plunge => exact absurd hlevel (by rw [hlevel']; decide)

end Run

end Phase

/-! ## Shaped blocks -/

namespace PlungeBlock

/-- The roles of a plunge block: they are those of moves, and they come in order. -/
structure Shaped (b : PlungeBlock α) : Prop where
  /-- Only moves have roles. -/
  rolesOnMoves : b.RolesOnMoves
  /-- Only the role of a zero plunge is given more than once. -/
  once : ∀ k, k ≠ .zeroPlunge → b.roles.count (some k) ≤ 1
  /-- A zero plunge comes after the travel. -/
  travelFirst : ∀ pre post, b.roles = pre ++ some .zeroPlunge :: post → some .travel ∈ pre
  /-- The end of the descent is the last step. -/
  plungeLast : ∀ pre post, b.roles = pre ++ some .plunge :: post → post = []

/-- A block that starts with a line without a role and goes on with a run is shaped. -/
theorem Shaped.of_run (l : Line α) {b : PlungeBlock α} (h : Phase.Run .started b) :
    Shaped (⟨l, none⟩ :: b) where
  rolesOnMoves := List.forall_mem_cons.mpr ⟨fun hrole => absurd rfl hrole, h.rolesOnMoves⟩
  once k hk := by
    rw [roles_cons, List.count_cons_of_ne (by simp)]
    exact h.count_le_one hk
  travelFirst pre post hroles := by
    rw [roles_cons] at hroles
    cases pre with
    | nil => cases hroles
    | cons role pre =>
        exact List.mem_cons_of_mem _ (h.travel_mem (by decide) (List.cons.inj hroles).2)
  plungeLast pre post hroles := by
    rw [roles_cons] at hroles
    cases pre with
    | nil => cases hroles
    | cons role pre =>
        obtain ⟨b₁, b₂, rfl, -, hb₂⟩ := List.map_eq_append_iff.mp (List.cons.inj hroles).2
        obtain ⟨s, b₂, rfl, hs, rfl⟩ := List.map_eq_cons_iff.mp hb₂
        obtain ⟨phase, hrun⟩ := h.of_append
        rw [hrun.eq_nil_of_plunge hs]
        rfl

/-- Two steps that differ at most in how a move with a role is driven. -/
inductive Refeeds : PlungeStep α → PlungeStep α → Prop
  | plain (l : Line α) : Refeeds ⟨l, none⟩ ⟨l, none⟩
  | role (m : Move α) (k : PlungeRole) (motion : Motion) (f : Option α) :
      Refeeds ⟨.move m, some k⟩ ⟨.move { m with motion, f }, some k⟩

theorem Refeeds.roles_eq {b c : PlungeBlock α} (h : List.Forall₂ Refeeds b c) :
    c.roles = b.roles := by
  induction h with
  | nil => rfl
  | cons hst _ ih => rw [roles_cons, roles_cons, ih]; cases hst <;> rfl

theorem refeeds_refed (feeds : PlungeFeeds α) {s : PlungeStep α}
    (h : s.role ≠ none → s.line.isMove = true) : Refeeds s (s.refed feeds) := by
  obtain ⟨line, role⟩ := s
  cases role with
  | none => exact .plain line
  | some k =>
      cases line with
      | move m => exact .role m k _ _
      | comment t => cases h (by simp)

/-- The feeds of a shaped block can be set, and it keeps its shape. -/
theorem Shaped.refeed {b : PlungeBlock α} (h : b.Shaped) (feeds : PlungeFeeds α) :
    ∃ c, b.refeed feeds = .ok c ∧ List.Forall₂ Refeeds b c ∧ c.Shaped := by
  have hrefeeds : List.Forall₂ Refeeds b (b.map (PlungeStep.refed feeds)) :=
    List.forall₂_map_right_iff.mpr
      (List.forall₂_same.mpr fun s hs => refeeds_refed feeds (h.rolesOnMoves s hs))
  have hroles := Refeeds.roles_eq hrefeeds
  refine ⟨_, refeed_eq feeds h.rolesOnMoves, hrefeeds, h.rolesOnMoves.refed feeds, ?_, ?_, ?_⟩
  · rw [hroles]; exact h.once
  · rw [hroles]; exact h.travelFirst
  · rw [hroles]; exact h.plungeLast

/-- The terminal step of a shaped block can be put at any depth, and only the last line changes. -/
theorem Shaped.withTerminalZ {b : PlungeBlock α} (h : b.Shaped) (z : Option α) :
    ∃ ls, b.withTerminalZ z = .ok ls ∧ AtDepth z b ls ∧ ls.dropLast = b.lines.dropLast := by
  obtain ⟨ls, hls, hdepth⟩ := h.rolesOnMoves.terminalIsMove.exists_atDepth z
  refine ⟨ls, hls, hdepth, ?_⟩
  cases hdepth with
  | kept _ => rfl
  | moved front m back _ =>
      obtain rfl : back = [] := List.map_eq_nil_iff.mp
        (h.plungeLast front.roles back.roles (by simp [roles]))
      simp [lines]

end PlungeBlock

/-! ## The blocks of a residue -/

/-- The lines of an open block are the next ones of the residue. -/
theorem prefix_plungesFrom (n : Nat) : ∀ (phase : Option Phase) (r : Residue α),
    (plungesFrom n phase r).1.lines.map Residual.line <+: r
  | _, [] => List.nil_prefix
  | phase, x :: rest => by
      cases ht : taken? phase x rest with
      | some taken =>
          rw [plungesFrom_taken ht, eq_line_of_taken? ht]
          exact List.cons_prefix_cons.mpr ⟨rfl, prefix_plungesFrom n (some taken.2) rest⟩
      | none =>
          cases x with
          | handle h => rw [plungesFrom_handle]; exact List.nil_prefix
          | line l =>
              by_cases hl : l.kind = .retract
              · rw [plungesFrom_retract ht hl]; exact List.nil_prefix
              · rw [plungesFrom_line ht hl]; exact List.nil_prefix

/-- A block that was pulled out of a residue is a piece of it, a retract marker and a run. -/
theorem mem_plungesFrom {b : PlungeBlock α} : ∀ {n : Nat} {phase : Option Phase} {r : Residue α},
    b ∈ (plungesFrom n phase r).2.1 → b.lines.map Residual.line <:+: r ∧
      ∃ l steps, l.kind = .retract ∧ b = ⟨l, none⟩ :: steps ∧ Phase.Run .started steps
  | n, phase, [], h => by cases h
  | n, phase, x :: rest, h => by
      cases ht : taken? phase x rest with
      | some taken =>
          rw [plungesFrom_taken ht] at h
          obtain ⟨hpiece, hshape⟩ := mem_plungesFrom h
          exact ⟨hpiece.trans (List.suffix_cons x rest).isInfix, hshape⟩
      | none =>
          cases x with
          | handle g =>
              rw [plungesFrom_handle] at h
              obtain ⟨hpiece, hshape⟩ := mem_plungesFrom h
              exact ⟨hpiece.trans (List.suffix_cons _ rest).isInfix, hshape⟩
          | line l =>
              by_cases hl : l.kind = .retract
              · rw [plungesFrom_retract ht hl] at h
                rcases List.mem_cons.mp h with rfl | h
                · have hprefix := prefix_plungesFrom (n + 1) (some .started) rest
                  exact ⟨(List.cons_prefix_cons.mpr ⟨rfl, hprefix⟩).isInfix, l, _, hl, rfl,
                    Phase.run_plungesFrom (n + 1) .started rest⟩
                · obtain ⟨hpiece, hshape⟩ := mem_plungesFrom h
                  exact ⟨hpiece.trans (List.suffix_cons _ rest).isInfix, hshape⟩
              · rw [plungesFrom_line ht hl] at h
                obtain ⟨hpiece, hshape⟩ := mem_plungesFrom h
                exact ⟨hpiece.trans (List.suffix_cons _ rest).isInfix, hshape⟩

/-- Every plunge block of a residue has a role or none for each of its lines, which are a piece of
the residue without a handle, and its roles are shaped.  So its feeds can be set, which changes
only how the moves with roles are driven, and its terminal step can be put at any depth, which
changes at most the last line. -/
theorem extractPlunges_shaped (r : Residue α) :
    ∀ b ∈ (extractPlunges r).1,
      b.lines.length = b.roles.length ∧ b.lines.map Residual.line <:+: r ∧ b.Shaped ∧
      (∀ feeds, ∃ c, b.refeed feeds = .ok c ∧ List.Forall₂ PlungeBlock.Refeeds b c ∧ c.Shaped ∧
        ∀ z, ∃ ls, c.withTerminalZ z = .ok ls ∧ c.AtDepth z ls ∧
          ls.dropLast = c.lines.dropLast) ∧
      ∀ z, ∃ ls, b.withTerminalZ z = .ok ls ∧ b.AtDepth z ls ∧
        ls.dropLast = b.lines.dropLast := by
  intro b hb
  obtain ⟨hpiece, l, steps, -, rfl, hrun⟩ := mem_plungesFrom hb
  have hshaped := PlungeBlock.Shaped.of_run l hrun
  refine ⟨by simp [PlungeBlock.lines, PlungeBlock.roles], hpiece, hshaped, fun feeds => ?_,
    hshaped.withTerminalZ⟩
  obtain ⟨c, hc, hrefeeds, hshapedc⟩ := hshaped.refeed feeds
  exact ⟨c, hc, hrefeeds, hshapedc, hshapedc.withTerminalZ⟩

/-- A retract, the travel to a path with two zero plunges, and a descent along the path. -/
def rampedBlock : PlungeBlock Nat :=
  [⟨.retract, none⟩, ⟨.move (.rapid none none (some 9)), some .retract⟩, ⟨.blank, none⟩,
    ⟨.pathStart 0, none⟩, ⟨.rapidToStart, none⟩, ⟨.move (.rapid (some 3) none none), some .travel⟩,
    ⟨.move (.rapid none none (some 8)), some .zeroPlunge⟩,
    ⟨.move (.rapid none none (some 7)), some .zeroPlunge⟩, ⟨.ramp, none⟩,
    ⟨.move (.linear (some 4) none (some 6) none none), none⟩,
    ⟨.move (.linear (some 3) none (some 5) none none), some .plunge⟩]

/-- A ramped block between the handles of two cuts, and a retract that the second one cuts short. -/
def interruptedResidue : Residue Nat :=
  .handle ⟨.cut, 0⟩ :: (rampedBlock.lines.map .line
    ++ [.line .retract, .line (.pathStart 1), .handle ⟨.cut, 1⟩, .line .rapidToStart])

/-- The ramped block goes down to another depth by a change of its last move. -/
theorem rampedBlock_shaped :
    rampedBlock ∈ (extractPlunges interruptedResidue).1 ∧ rampedBlock.Shaped ∧
      ∃ ls, rampedBlock.withTerminalZ (some 1) = .ok ls ∧ rampedBlock.AtDepth (some 1) ls ∧
        ls.dropLast = rampedBlock.lines.dropLast := by
  have hmem : rampedBlock ∈ (extractPlunges interruptedResidue).1 := by decide
  obtain ⟨-, -, hshaped, -, hdepth⟩ := extractPlunges_shaped interruptedResidue rampedBlock hmem
  exact ⟨hmem, hshaped, hdepth (some 1)⟩

end WireErosion
