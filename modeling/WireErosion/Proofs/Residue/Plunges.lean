import WireErosion.Proofs.Outcome
import WireErosion.Wear.Reassemble

/-!
# The depth and the feeds of a plunge block

The terminal step of a plunge block is the last one with the role of the plunge.  If it is a move,
or if there is none, then the block can be put at any depth, and nothing but the depth of that move
changes (`PlungeBlock.AtDepth`).  If it is a comment, there is a fault.

If only moves have roles then the block can also be put at any feeds (`PlungeBlock.refeed_eq`).
-/

namespace WireErosion

variable {α : Type}

namespace PlungeBlock

variable {s : PlungeStep α} {b front back : PlungeBlock α} {l : Line α} {z : Option α}

theorem terminal?_cons_of_some {i : Nat} (h : b.terminal? = some i) :
    terminal? (s :: b) = some (i + 1) := by
  simp [terminal?, h]

theorem terminal?_cons_of_plunge (h : b.terminal? = none) (hs : s.role = some .plunge) :
    terminal? (s :: b) = some 0 := by
  simp [terminal?, h, hs]

theorem terminal?_cons_of_other (h : b.terminal? = none) (hs : s.role ≠ some .plunge) :
    terminal? (s :: b) = none := by
  simp [terminal?, h, hs]

theorem withTerminalZ_of_none (h : b.terminal? = none) : withTerminalZ z b = .ok b.lines := by
  simp [withTerminalZ, h]

/-- A step before the terminal one stays as it is. -/
theorem withTerminalZ_cons_of_some {i : Nat} (h : b.terminal? = some i) :
    withTerminalZ z (s :: b) = (withTerminalZ z b).map (s.line :: ·) := by
  simp [withTerminalZ, terminal?_cons_of_some h, h, setZ, lines]

/-- The terminal step gets the depth, and what follows it stays as it is. -/
theorem withTerminalZ_cons_of_plunge {m : Move α} (h : b.terminal? = none) :
    withTerminalZ z (⟨.move m, some .plunge⟩ :: b) = .ok (.move { m with z } :: b.lines) := by
  simp [withTerminalZ, terminal?_cons_of_plunge h, setZ, lines]

theorem roles_cons (s : PlungeStep α) (b : PlungeBlock α) : roles (s :: b) = s.role :: b.roles :=
  rfl

theorem terminal?_eq_none : ∀ {b : PlungeBlock α}, some .plunge ∉ b.roles → b.terminal? = none
  | [], _ => rfl
  | s :: b, h => by
      rw [roles_cons, List.mem_cons, not_or] at h
      exact terminal?_cons_of_other (terminal?_eq_none h.2) (Ne.symm h.1)

/-- A block that has the role of the plunge has a last step with it. -/
theorem exists_terminal : ∀ {b : PlungeBlock α}, some .plunge ∈ b.roles →
    ∃ (front : PlungeBlock α) (l : Line α) (back : PlungeBlock α),
      b = front ++ ⟨l, some .plunge⟩ :: back ∧ some .plunge ∉ back.roles
  | [], h => by cases h
  | s :: b, h => by
      by_cases hb : some .plunge ∈ roles b
      · obtain ⟨front, l, back, rfl, hback⟩ := exists_terminal hb
        exact ⟨s :: front, l, back, rfl, hback⟩
      · obtain ⟨l, role⟩ := s
        rw [roles_cons, List.mem_cons] at h
        obtain rfl : some .plunge = role := h.resolve_right hb
        exact ⟨[], l, b, rfl, hb⟩

theorem terminal?_front (hback : some .plunge ∉ back.roles) : ∀ front : PlungeBlock α,
    terminal? (front ++ ⟨l, some .plunge⟩ :: back) = some front.length
  | [] => terminal?_cons_of_plunge (terminal?_eq_none hback) rfl
  | _ :: front => terminal?_cons_of_some (terminal?_front hback front)

/-- What comes before the terminal step stays as it is. -/
theorem withTerminalZ_front (hback : some .plunge ∉ back.roles) : ∀ front : PlungeBlock α,
    withTerminalZ z (front ++ ⟨l, some .plunge⟩ :: back)
      = (withTerminalZ z (⟨l, some .plunge⟩ :: back)).map (front.lines ++ ·)
  | [] => by
      rw [List.nil_append]
      cases withTerminalZ z (⟨l, some .plunge⟩ :: back) <;> rfl
  | s :: front => by
      rw [List.cons_append, withTerminalZ_cons_of_some (terminal?_front hback front),
        withTerminalZ_front hback front]
      cases withTerminalZ z (⟨l, some .plunge⟩ :: back) <;> rfl

theorem withTerminalZ_cons_of_comment {t : String} (hback : some .plunge ∉ back.roles) :
    withTerminalZ z (⟨.comment t, some .plunge⟩ :: back) = .error .wrongKind := by
  simp [withTerminalZ, terminal?_cons_of_plunge (terminal?_eq_none hback), setZ, lines]

/-! ## Depth -/

/-- Only moves have roles. -/
def RolesOnMoves (b : PlungeBlock α) : Prop := ∀ s ∈ b, s.role ≠ none → s.line.isMove = true

/-- The terminal step, if there is one, is a move. -/
def TerminalIsMove (b : PlungeBlock α) : Prop :=
  ∀ (front : PlungeBlock α) (t : String) (back : PlungeBlock α),
    b = front ++ ⟨.comment t, some .plunge⟩ :: back → some .plunge ∈ back.roles

/-- The lines of a block with its terminal step, if there is one, at a depth. -/
inductive AtDepth (z : Option α) : PlungeBlock α → List (Line α) → Prop
  | kept {b : PlungeBlock α} : some .plunge ∉ b.roles → AtDepth z b b.lines
  | moved (front : PlungeBlock α) (m : Move α) (back : PlungeBlock α) :
      some .plunge ∉ back.roles →
      AtDepth z (front ++ ⟨.move m, some .plunge⟩ :: back)
        (front.lines ++ .move { m with z } :: back.lines)

theorem RolesOnMoves.terminalIsMove (h : b.RolesOnMoves) : b.TerminalIsMove := by
  rintro front t back rfl
  cases h ⟨.comment t, some .plunge⟩ (by simp) (by simp)

theorem TerminalIsMove.exists_atDepth (h : b.TerminalIsMove) (z : Option α) :
    ∃ ls, b.withTerminalZ z = .ok ls ∧ AtDepth z b ls := by
  by_cases hplunge : some .plunge ∈ b.roles
  · obtain ⟨front, l, back, rfl, hback⟩ := exists_terminal hplunge
    cases l with
    | move m =>
        refine ⟨_, ?_, .moved front m back hback⟩
        rw [withTerminalZ_front hback, withTerminalZ_cons_of_plunge (terminal?_eq_none hback)]
        rfl
    | comment t => exact absurd (h front t back rfl) hback
  · exact ⟨_, withTerminalZ_of_none (terminal?_eq_none hplunge), .kept hplunge⟩

theorem withTerminalZ_eq_error (h : ¬ b.TerminalIsMove) (z : Option α) :
    b.withTerminalZ z = .error .wrongKind := by
  simp only [TerminalIsMove, not_forall] at h
  obtain ⟨front, t, back, rfl, hback⟩ := h
  rw [withTerminalZ_front hback, withTerminalZ_cons_of_comment hback]
  rfl

/-- The lines of a block that comes after a cut that ended at a depth, or before all cuts. -/
def resume (after : Option (Option α)) (b : PlungeBlock α) : Except Fault (List (Line α)) :=
  match after with
  | none => .ok b.lines
  | some z => b.withTerminalZ z

theorem exists_resume (after : Option (Option α)) (h : b.RolesOnMoves) :
    ∃ ls, b.resume after = .ok ls := by
  cases after with
  | none => exact ⟨_, rfl⟩
  | some z =>
      obtain ⟨ls, hls, -⟩ := h.terminalIsMove.exists_atDepth z
      exact ⟨ls, hls⟩

end PlungeBlock

/-! ## Feeds -/

/-- A step at the feed of its role, if it is a move with a role. -/
def PlungeStep.refed (feeds : PlungeFeeds α) (s : PlungeStep α) : PlungeStep α :=
  match s.role, s.line with
  | some role, .move m => ⟨.move { m with motion := .linear, f := feeds.ofRole role }, some role⟩
  | _, _ => s

theorem PlungeStep.refeed_eq (feeds : PlungeFeeds α) {s : PlungeStep α}
    (h : s.role ≠ none → s.line.isMove = true) : s.refeed feeds = .ok (s.refed feeds) := by
  obtain ⟨line, role⟩ := s
  cases role with
  | none => rfl
  | some role =>
      cases line with
      | move m => rfl
      | comment t => cases h (by simp)

theorem PlungeBlock.refeed_eq (feeds : PlungeFeeds α) {b : PlungeBlock α} (h : b.RolesOnMoves) :
    b.refeed feeds = .ok (b.map (PlungeStep.refed feeds)) := by
  rw [refeed, Fault.mapM_eq_ok, List.forall₂_map_right_iff]
  exact List.forall₂_same.mpr fun s hs => PlungeStep.refeed_eq feeds (h s hs)

theorem PlungeBlock.RolesOnMoves.refed (feeds : PlungeFeeds α) {b : PlungeBlock α}
    (h : b.RolesOnMoves) : PlungeBlock.RolesOnMoves (b.map (PlungeStep.refed feeds)) := by
  intro s hs hrole
  obtain ⟨⟨line, role⟩, hstep, rfl⟩ := List.mem_map.mp hs
  cases role with
  | none => exact absurd rfl hrole
  | some role =>
      have hmove := h _ hstep (by simp)
      cases line with
      | move m => rfl
      | comment t => cases hmove

end WireErosion
