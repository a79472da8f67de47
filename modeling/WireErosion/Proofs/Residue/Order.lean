import WireErosion.Proofs.Outcome
import WireErosion.Wear.Compensate

/-!
# The order of handles

What taking a program apart leaves behind.  `Residue.InOrder a b m n r` says that the handles of `r`
are those of the cuts from `m` up to `a` and of the plunges from `n` up to `b`, each once and with
rising indices.  The residue of a program is in order from zero to the lengths of its two tables
(`Program.part_inOrder`), and that is all that putting it together again has to know about it.

`Residue.expand` puts lines in the place of handles.  With the lines of the blocks that were pulled
out it undoes each of the two extractions (`expand_cutsFrom`, `expand_plungesFrom`).
-/

namespace WireErosion

variable {α : Type}

/-! ## One step of an extraction

Equations for what the extractions do with the first line, without the tuples they return. -/

theorem cutsFrom_cut {n : Nat} {inside : Bool} {l : Line α} {ls : Program α} (h : l.kind = .cut) :
    cutsFrom n inside (l :: ls) =
      ([], ⟨l :: (cutsFrom (n + 1) true ls).1, none⟩ :: (cutsFrom (n + 1) true ls).2.1,
        .handle ⟨.cut, n⟩ :: (cutsFrom (n + 1) true ls).2.2) := by
  simp [cutsFrom, h]

theorem cutsFrom_move {n : Nat} {l : Line α} {ls : Program α} (h : l.kind ≠ .cut)
    (hm : l.isMove = true) :
    cutsFrom n true (l :: ls) =
      (l :: (cutsFrom n true ls).1, (cutsFrom n true ls).2.1, (cutsFrom n true ls).2.2) := by
  simp [cutsFrom, h, hm]

theorem cutsFrom_outside {n : Nat} {inside : Bool} {l : Line α} {ls : Program α}
    (h : l.kind ≠ .cut) (ho : (inside && l.isMove) = false) :
    cutsFrom n inside (l :: ls) =
      ([], (cutsFrom n false ls).2.1, .line l :: (cutsFrom n false ls).2.2) := by
  simp [cutsFrom, h, ho]

/-- Outside a block no line belongs to an open one. -/
theorem cutsFrom_closed (n : Nat) : ∀ p : Program α, (cutsFrom n false p).1 = []
  | [] => rfl
  | l :: ls => by
      by_cases h : l.kind = .cut
      · rw [cutsFrom_cut h]
      · rw [cutsFrom_outside h rfl]

theorem plungesFrom_taken {n : Nat} {phase : Option Phase} {r : Residual α} {rest : Residue α}
    {step : PlungeStep α} {ph : Phase} (h : taken? phase r rest = some (step, ph)) :
    plungesFrom n phase (r :: rest) =
      (step :: (plungesFrom n (some ph) rest).1, (plungesFrom n (some ph) rest).2.1,
        (plungesFrom n (some ph) rest).2.2) := by
  simp [plungesFrom, h]

theorem plungesFrom_retract {n : Nat} {phase : Option Phase} {l : Line α} {rest : Residue α}
    (h : taken? phase (.line l) rest = none) (hl : l.kind = .retract) :
    plungesFrom n phase (.line l :: rest) =
      ([], (⟨l, none⟩ :: (plungesFrom (n + 1) (some .started) rest).1)
          :: (plungesFrom (n + 1) (some .started) rest).2.1,
        .handle ⟨.plunge, n⟩ :: (plungesFrom (n + 1) (some .started) rest).2.2) := by
  simp [plungesFrom, h, hl]

theorem plungesFrom_line {n : Nat} {phase : Option Phase} {l : Line α} {rest : Residue α}
    (h : taken? phase (.line l) rest = none) (hl : l.kind ≠ .retract) :
    plungesFrom n phase (.line l :: rest) =
      ([], (plungesFrom n none rest).2.1, .line l :: (plungesFrom n none rest).2.2) := by
  simp [plungesFrom, h, hl]

/-- No phase takes a handle. -/
theorem taken?_handle (phase : Option Phase) (h : Handle) (rest : Residue α) :
    taken? phase (.handle h) rest = none := by
  cases phase with
  | none => rfl
  | some ph => rfl

theorem plungesFrom_handle {n : Nat} {phase : Option Phase} {h : Handle} {rest : Residue α} :
    plungesFrom n phase (.handle h :: rest) =
      ([], (plungesFrom n none rest).2.1, .handle h :: (plungesFrom n none rest).2.2) := by
  simp [plungesFrom, taken?_handle]

/-- What a block takes is a line, and it keeps it as it is. -/
theorem eq_line_of_taken? {phase : Option Phase} {r : Residual α} {rest : Residue α}
    {step : PlungeStep α} {ph : Phase} (h : taken? phase r rest = some (step, ph)) :
    r = .line step.line := by
  cases r with
  | handle g => rw [taken?_handle] at h; cases h
  | line l =>
      cases phase with
      | none => cases h
      | some ph' =>
          simp only [taken?, Option.map_eq_some_iff] at h
          obtain ⟨taken, _, htaken⟩ := h
          cases htaken
          rfl

/-- Without an open block no step belongs to one. -/
theorem plungesFrom_closed (n : Nat) : ∀ r : Residue α, (plungesFrom n none r).1 = []
  | [] => rfl
  | .handle h :: rest => by rw [plungesFrom_handle]
  | .line l :: rest => by
      by_cases hl : l.kind = .retract
      · rw [plungesFrom_retract rfl hl]
      · rw [plungesFrom_line rfl hl]

/-! ## Handles in order -/

namespace Residue

/-- The handles of a kind in a residue, in order. -/
def handles (kind : BlockKind) : Residue α → List Handle
  | [] => []
  | .line _ :: rest => handles kind rest
  | .handle h :: rest => if h.kind = kind then h :: handles kind rest else handles kind rest

/-- The handles are those of the cuts from `m` up to `a` and of the plunges from `n` up to `b`,
each once and with rising indices. -/
inductive InOrder (a b : Nat) : Nat → Nat → Residue α → Prop
  | done : InOrder a b a b []
  | line (l : Line α) {m n : Nat} {rest : Residue α} :
      InOrder a b m n rest → InOrder a b m n (.line l :: rest)
  | cut {m n : Nat} {rest : Residue α} :
      InOrder a b (m + 1) n rest → InOrder a b m n (.handle ⟨.cut, m⟩ :: rest)
  | plunge {m n : Nat} {rest : Residue α} :
      InOrder a b m (n + 1) rest → InOrder a b m n (.handle ⟨.plunge, n⟩ :: rest)

namespace InOrder

variable {a b m n : Nat} {r : Residue α}

theorem cut_le (h : InOrder a b m n r) : m ≤ a := by
  induction h with
  | done => exact Nat.le_refl _
  | line _ _ ih => exact ih
  | cut _ ih => omega
  | plunge _ ih => exact ih

theorem plunge_le (h : InOrder a b m n r) : n ≤ b := by
  induction h with
  | done => exact Nat.le_refl _
  | line _ _ ih => exact ih
  | cut _ ih => exact ih
  | plunge _ ih => omega

theorem handles_cut (h : InOrder a b m n r) :
    r.handles .cut = (List.range' m (a - m)).map fun i : Nat => ⟨.cut, i⟩ := by
  induction h with
  | done => simp [handles]
  | line _ _ ih => exact ih
  | @cut m n rest h ih =>
      have hm : a - m = (a - (m + 1)) + 1 := by have := h.cut_le; omega
      simp [handles, ih, hm, List.range'_succ]
  | plunge _ ih => simpa [handles] using ih

theorem handles_plunge (h : InOrder a b m n r) :
    r.handles .plunge = (List.range' n (b - n)).map fun i : Nat => ⟨.plunge, i⟩ := by
  induction h with
  | done => simp [handles]
  | line _ _ ih => exact ih
  | cut _ ih => simpa [handles] using ih
  | @plunge m n rest h ih =>
      have hn : b - n = (b - (n + 1)) + 1 := by have := h.plunge_le; omega
      simp [handles, ih, hn, List.range'_succ]

end InOrder

end Residue

open Residue

/-- Pulling out cuts leaves their handles in order, and no others. -/
theorem cutsFrom_inOrder (b : Nat) : ∀ (p : Program α) (n : Nat) (inside : Bool),
    InOrder (n + (cutsFrom n inside p).2.1.length) b n b (cutsFrom n inside p).2.2
  | [], _, _ => .done
  | l :: ls, n, inside => by
      by_cases h : l.kind = .cut
      · rw [cutsFrom_cut h]
        have ih := cutsFrom_inOrder b ls (n + 1) true
        rw [Nat.add_right_comm] at ih
        exact .cut ih
      · by_cases hm : (inside && l.isMove) = true
        · obtain ⟨rfl, hmove⟩ := Bool.and_eq_true_iff.mp hm
          rw [cutsFrom_move h hmove]
          exact cutsFrom_inOrder b ls n true
        · rw [cutsFrom_outside h (Bool.eq_false_iff.mpr hm)]
          exact .line l (cutsFrom_inOrder b ls n false)

/-- Pulling out plunges from a residue that has only handles of cuts, and those in order, leaves the
handles of both kinds in order. -/
theorem plungesFrom_inOrder {a b m : Nat} : ∀ {r : Residue α}, InOrder a b m b r →
    ∀ (n : Nat) (phase : Option Phase),
      InOrder a (n + (plungesFrom n phase r).2.1.length) m n (plungesFrom n phase r).2.2
  | [], h, n, phase => by cases h; exact .done
  | .handle g :: rest, h, n, phase => by
      rw [plungesFrom_handle]
      cases h with
      | cut h => exact .cut (plungesFrom_inOrder h n none)
      | plunge h => exact absurd h.plunge_le (by omega)
  | .line l :: rest, .line _ h, n, phase => by
      cases ht : taken? phase (.line l) rest with
      | some taken =>
          rw [plungesFrom_taken ht]
          exact plungesFrom_inOrder h n (some taken.2)
      | none =>
          by_cases hl : l.kind = .retract
          · rw [plungesFrom_retract ht hl]
            have ih := plungesFrom_inOrder h (n + 1) (some .started)
            rw [Nat.add_right_comm] at ih
            exact .plunge ih
          · rw [plungesFrom_line ht hl]
            exact .line l (plungesFrom_inOrder h n none)

/-- The residue of a program is in order from zero to the lengths of its tables. -/
theorem Program.part_inOrder (p : Program α) :
    InOrder p.part.cuts.length p.part.plunges.length 0 0 p.part.rest := by
  have hcuts := cutsFrom_inOrder 0 p 0 false
  have h := plungesFrom_inOrder hcuts 0 none
  rw [Nat.zero_add, Nat.zero_add] at h
  exact h

/-! ## Putting lines in the place of handles -/

/-- The lines of a residue, with lines in the place of every handle. -/
def Residue.expand (f : Handle → List (Line α)) : Residue α → Program α
  | [] => []
  | .line l :: rest => l :: Residue.expand f rest
  | .handle h :: rest => f h ++ Residue.expand f rest

/-- The lines of the cuts in the place of their handles give the program again. -/
theorem expand_cutsFrom (f : Handle → List (Line α)) : ∀ (p : Program α) (n : Nat) (inside : Bool),
    (∀ i b, (cutsFrom n inside p).2.1[i]? = some b → f ⟨.cut, (n + i : Nat)⟩ = b.lines) →
    (cutsFrom n inside p).1 ++ expand f (cutsFrom n inside p).2.2 = p
  | [], _, _, _ => rfl
  | l :: ls, n, inside, hf => by
      by_cases h : l.kind = .cut
      · rw [cutsFrom_cut h] at hf ⊢
        have ih := expand_cutsFrom f ls (n + 1) true fun i b hb => by
          rw [Nat.add_assoc, Nat.add_comm 1]
          exact hf (i + 1) b hb
        have hhead := hf 0 _ rfl
        rw [Nat.add_zero] at hhead
        simp only [expand, hhead, List.nil_append, List.cons_append, ih]
      · by_cases hm : (inside && l.isMove) = true
        · obtain ⟨rfl, hmove⟩ := Bool.and_eq_true_iff.mp hm
          rw [cutsFrom_move h hmove] at hf ⊢
          rw [List.cons_append, expand_cutsFrom f ls n true hf]
        · rw [cutsFrom_outside h (Bool.eq_false_iff.mpr hm)] at hf ⊢
          have ih := expand_cutsFrom f ls n false hf
          rw [cutsFrom_closed, List.nil_append] at ih
          rw [expand, ih, List.nil_append]

/-- The lines of the plunges in the place of their handles give the same lines as before they were
pulled out. -/
theorem expand_plungesFrom (f : Handle → List (Line α)) :
    ∀ (r : Residue α) (n : Nat) (phase : Option Phase),
      (∀ i b, (plungesFrom n phase r).2.1[i]? = some b → f ⟨.plunge, (n + i : Nat)⟩ = b.lines) →
      (plungesFrom n phase r).1.lines ++ expand f (plungesFrom n phase r).2.2 = expand f r
  | [], _, _, _ => rfl
  | .handle g :: rest, n, phase, hf => by
      rw [plungesFrom_handle] at hf ⊢
      have ih := expand_plungesFrom f rest n none hf
      rw [plungesFrom_closed] at ih
      simpa [expand, PlungeBlock.lines] using ih
  | .line l :: rest, n, phase, hf => by
      cases ht : taken? phase (.line l) rest with
      | some taken =>
          rw [plungesFrom_taken ht] at hf ⊢
          have ih := expand_plungesFrom f rest n (some taken.2) hf
          have hline := eq_line_of_taken? ht
          cases hline
          simpa [expand, PlungeBlock.lines] using ih
      | none =>
          by_cases hl : l.kind = .retract
          · rw [plungesFrom_retract ht hl] at hf ⊢
            have ih := expand_plungesFrom f rest (n + 1) (some .started) fun i b hb => by
              rw [Nat.add_assoc, Nat.add_comm 1]
              exact hf (i + 1) b hb
            have hhead := hf 0 _ rfl
            rw [Nat.add_zero] at hhead
            simpa [expand, hhead, PlungeBlock.lines] using ih
          · rw [plungesFrom_line ht hl] at hf ⊢
            have ih := expand_plungesFrom f rest n none hf
            rw [plungesFrom_closed] at ih
            simpa [expand, PlungeBlock.lines] using ih

end WireErosion
