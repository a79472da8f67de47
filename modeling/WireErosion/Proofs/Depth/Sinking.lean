import WireErosion.Proofs.Exact
import WireErosion.Proofs.Outcome
import WireErosion.Depth
import WireErosion.Toolpath.Compile

/-!
# Sinking programs

A program sinks if the commanded depth only goes down, except at a move that comes right after a
retract marker.  `Sinks a p b` says so of a program that is entered at the commanded depth `a`, and
that it is left at the depth `b`.  A depth that was not commanded yet is `none`, and then nothing
but a retract may command one.

Sinking programs go together (`Sinks.append`) and stay sinking under a monotone rounding
(`Sinks.mapNumbers`).  What the relation says about the single moves of a program is
`Sinks.at_move`, and `Sinks.risesFrom_eq_nil` is what it means for the depth check.
-/

namespace WireErosion

/-- Whether a line is a retract marker, of either kind. -/
def Line.IsRetract {α : Type} (l : Line α) : Prop := l.kind = .retract ∨ l.kind = .retractForTab

/-- A retract marker is not a move. -/
theorem Line.not_isRetract_move {α : Type} {m : Move α} : ¬ (Line.move m).IsRetract := by
  rintro (h | h) <;> cases h

/-- The commanded depth after some lines, where `z` is the one before them. -/
def depthAfter {α : Type} (z : Option α) : Program α → Option α
  | [] => z
  | .comment _ :: ls => depthAfter z ls
  | .move m :: ls => depthAfter (m.z <|> z) ls

theorem depthAfter_append {α : Type} : ∀ (z : Option α) (p q : Program α),
    depthAfter z (p ++ q) = depthAfter (depthAfter z p) q
  | _, [], _ => rfl
  | z, .comment _ :: p, q => depthAfter_append z p q
  | z, .move m :: p, q => depthAfter_append (m.z <|> z) p q

theorem depthAfter_of_comments {α : Type} : ∀ {p : Program α}, (∀ m, .move m ∉ p) → ∀ z : Option α,
    depthAfter z p = z
  | [], _, _ => rfl
  | .comment _ :: _, h, z => depthAfter_of_comments (fun m hm => h m (List.mem_cons_of_mem _ hm)) z
  | .move m :: _, h, _ => absurd (List.mem_cons_self ..) (h m)

/-- Moves that go down one after the other, from one depth to another. -/
inductive Falls : ℝ → List (Move ℝ) → ℝ → Prop
  | done {a : ℝ} : Falls a [] a
  | step {a b z : ℝ} {m : Move ℝ} {ms : List (Move ℝ)} :
      m.z = some z → z ≤ a → Falls z ms b → Falls a (m :: ms) b

theorem Falls.append {a b c : ℝ} {ms ns : List (Move ℝ)} (h : Falls a ms b) (h' : Falls b ns c) :
    Falls a (ms ++ ns) c := by
  induction h with
  | done => exact h'
  | step hz hle _ ih => exact .step hz hle (ih h')

/-- A program whose depth only goes down, except right after a retract marker. -/
inductive Sinks : Option ℝ → Program ℝ → Option ℝ → Prop
  | done {a : Option ℝ} : Sinks a [] a
  | comment {a b : Option ℝ} {ls : Program ℝ} (t : String) :
      Sinks a ls b → Sinks a (.comment t :: ls) b
  | level {a : ℝ} {b : Option ℝ} {ls : Program ℝ} {m : Move ℝ} :
      m.z = none → Sinks (some a) ls b → Sinks (some a) (.move m :: ls) b
  | lower {a z : ℝ} {b : Option ℝ} {ls : Program ℝ} {m : Move ℝ} :
      m.z = some z → z ≤ a → Sinks (some z) ls b → Sinks (some a) (.move m :: ls) b
  | lift {a b : Option ℝ} {z : ℝ} {ls : Program ℝ} {l : Line ℝ} {m : Move ℝ} :
      l.IsRetract → m.z = some z → Sinks (some z) ls b → Sinks a (l :: .move m :: ls) b

/-- Moves that go down sink. -/
theorem Falls.sinks {a b : ℝ} {ms : List (Move ℝ)} (h : Falls a ms b) :
    Sinks (some a) (ms.map .move) (some b) := by
  induction h with
  | done => exact .done
  | step hz hle _ ih => exact .lower hz hle ih

namespace Sinks

variable {a b c : Option ℝ} {p q : Program ℝ}

theorem append (h : Sinks a p b) (h' : Sinks b q c) : Sinks a (p ++ q) c := by
  induction h with
  | done => exact h'
  | comment t _ ih => exact .comment t (ih h')
  | level hz _ ih => exact .level hz (ih h')
  | lower hz hle _ ih => exact .lower hz hle (ih h')
  | lift hl hz _ ih => exact .lift hl hz (ih h')

end Sinks

/-! ## Single moves -/

/-- At a move after some lines, which are entered at a commanded depth, the depth goes down or
stays, or the line before the move is a retract marker. -/
def LowersAt (a : Option ℝ) (pre : Program ℝ) (m : Move ℝ) : Prop :=
  (∃ l ∈ pre.getLast?, l.IsRetract) ∨
    ∃ before after, depthAfter a pre = some before ∧
      depthAfter a (pre ++ [.move m]) = some after ∧ after ≤ before

/-- A line in front does not matter but for the depth that it leaves. -/
theorem LowersAt.cons {a b : Option ℝ} {l : Line ℝ} {pre : Program ℝ} {m : Move ℝ}
    (hl : ∀ ls, depthAfter a (l :: ls) = depthAfter b ls) (h : LowersAt b pre m) :
    LowersAt a (l :: pre) m := by
  rcases h with ⟨l', hl', hretract⟩ | ⟨before, after, hbefore, hafter, hle⟩
  · refine .inl ⟨l', ?_, hretract⟩
    rw [List.getLast?_cons, Option.mem_def.mp hl']
    rfl
  · refine .inr ⟨before, after, ?_, ?_, hle⟩
    · rw [hl, hbefore]
    · rw [List.cons_append, hl, hafter]

namespace Sinks

variable {a b : Option ℝ} {p : Program ℝ}

theorem at_move {pre post : Program ℝ} {m : Move ℝ} (h : Sinks a p b)
    (hp : p = pre ++ .move m :: post) : LowersAt a pre m := by
  induction h generalizing pre with
  | done => simp at hp
  | comment t _ ih =>
      cases pre with
      | nil => cases hp
      | cons l pre =>
          cases hp
          exact .cons (fun _ => rfl) (ih rfl)
  | @level a b ls m' hz _ ih =>
      cases pre with
      | nil =>
          cases hp
          exact .inr ⟨a, a, rfl, by simp [depthAfter, hz], le_refl a⟩
      | cons l pre =>
          cases hp
          exact .cons (fun _ => by simp [depthAfter, hz]) (ih rfl)
  | @lower a z b ls m' hz hle _ ih =>
      cases pre with
      | nil =>
          cases hp
          exact .inr ⟨a, z, rfl, by simp [depthAfter, hz], hle⟩
      | cons l pre =>
          cases hp
          exact .cons (fun _ => by simp [depthAfter, hz]) (ih rfl)
  | @lift a b z ls l m' hl hz _ ih =>
      match pre, hp with
      | [], hp =>
          cases hp
          exact absurd hl Line.not_isRetract_move
      | [l'], hp =>
          cases hp
          exact .inl ⟨l, rfl, hl⟩
      | l' :: l'' :: pre, hp =>
          cases hp
          cases l with
          | move m'' => exact absurd hl Line.not_isRetract_move
          | comment t =>
              have hmove : LowersAt a (.move m' :: pre) m :=
                .cons (fun _ => by simp [depthAfter, hz]) (ih rfl)
              exact .cons (fun _ => rfl) hmove

/-! ## The depth check -/

theorem risesFrom_eq_nil {before : Option ℝ} (h : Sinks a p b)
    (hbefore : before = none ∨ before = a) (i : Nat) : risesFrom i before p = [] := by
  induction h generalizing before i with
  | done => rfl
  | comment t _ ih =>
      rw [risesFrom]
      refine ih ?_ (i + 1)
      split
      · exact .inl rfl
      · exact hbefore
  | level hz _ ih =>
      rw [risesFrom, hz, ih (.inl rfl)]
      rcases hbefore with rfl | rfl <;> simp [riseAt?, hz]
  | lower hz hle _ ih =>
      rw [risesFrom, hz, ih (.inr rfl)]
      rcases hbefore with rfl | rfl
      · simp [riseAt?]
      · simp [riseAt?, hz, hle]
  | @lift a b z ls l m hl hz _ ih =>
      cases l with
      | move m' => exact absurd hl Line.not_isRetract_move
      | comment t =>
          have hreset : Comment.kind t = .retract ∨ Comment.kind t = .retractForTab := hl
          rw [risesFrom, if_pos hreset, risesFrom, hz, ih (.inr rfl)]
          simp [riseAt?]

/-- The part of a sinking program that is checked sinks too. -/
theorem of_bodyFrom {i j : Nat} {body : Program ℝ} (h : Sinks a p b)
    (hbody : bodyFrom i p = some (j, body)) : ∃ a', Sinks a' body b := by
  induction h generalizing i with
  | done => cases hbody
  | @comment a b ls t h ih =>
      rw [bodyFrom] at hbody
      split at hbody
      · cases hbody
        exact ⟨a, h⟩
      · exact ih hbody
  | level hz _ ih => exact ih hbody
  | lower hz hle _ ih => exact ih hbody
  | @lift a b z ls l m hl hz _ ih =>
      have hstart : l.kind ≠ .rapidToStart := by
        rcases hl with hl | hl <;> rw [hl] <;> decide
      rw [bodyFrom, if_neg hstart] at hbody
      exact ih hbody

/-- The depth check finds nothing in a sinking program. -/
theorem outcome_checkDepth (h : Sinks a p b) (most : Int) :
    (checkDepth most p).outcome = .ok ⟨0, []⟩ := by
  unfold checkDepth
  split
  next => rfl
  next i body hbody =>
      obtain ⟨a', hbody⟩ := h.of_bodyFrom hbody
      have hrises := hbody.risesFrom_eq_nil (.inl rfl) i
      rw [hrises, Report.outcome_bind (Report.outcome_tellAll _)]
      simp

end Sinks

/-! ## Rounding -/

/-- A line with its coordinates and its feed replaced.  The speed stays as it is. -/
def Line.mapNumbers {α : Type} (r : α → α) : Line α → Line α
  | .comment t => .comment t
  | .move m => .move { m with x := m.x.map r, y := m.y.map r, z := m.z.map r, f := m.f.map r }

theorem Line.kind_mapNumbers {α : Type} (r : α → α) : ∀ l : Line α, (l.mapNumbers r).kind = l.kind
  | .comment _ => rfl
  | .move _ => rfl

variable {r : ℝ → ℝ}

/-- A monotone rounding keeps a program sinking. -/
theorem Sinks.mapNumbers {a b : Option ℝ} {p : Program ℝ} (hr : Monotone r) (h : Sinks a p b) :
    Sinks (a.map r) (p.map (Line.mapNumbers r)) (b.map r) := by
  induction h with
  | done => exact .done
  | comment t _ ih => exact .comment t ih
  | level hz _ ih => exact .level (by simp [hz]) ih
  | lower hz hle _ ih => exact .lower (by simp [hz]) (hr hle) ih
  | @lift a b z ls l m hl hz _ ih =>
      have hl' : (l.mapNumbers r).IsRetract := by
        rw [Line.IsRetract, Line.kind_mapNumbers]
        exact hl
      exact .lift hl' (by simp [hz]) ih

theorem roundField_eq {round : ℝ → Except Fault ℝ} (hround : IsRounding round r) :
    ∀ v : Option ℝ, roundField round v = .ok (v.map r)
  | none => rfl
  | some v => by
      rw [roundField, hround.eq_ok]
      rfl

theorem Line.round_eq {round : ℝ → Except Fault ℝ} (hround : IsRounding round r) :
    ∀ l : Line ℝ, l.round round = .ok (l.mapNumbers r)
  | .comment _ => rfl
  | .move m => by
      rw [Line.round, roundField_eq hround, roundField_eq hround, roundField_eq hround,
        roundField_eq hround]
      rfl

/-- A plan without faults compiles to its rounded lines. -/
theorem ToolpathParams.compile_eq {c : ToolpathParams ℝ} {paths : List (CamPath ℝ)}
    {ls : Program ℝ} (hround : IsRounding c.round r) (hplan : c.plan paths = ls.map .ok) :
    c.compile paths = .ok (ls.map (Line.mapNumbers r)) := by
  rw [compile, hplan, Fault.mapM_eq_ok, List.forall₂_map_left_iff, List.forall₂_map_right_iff]
  exact List.forall₂_same.mpr fun l _ => Line.round_eq hround l

end WireErosion
