import WireErosion.Proofs.Residue.Order
import WireErosion.Proofs.Residue.Plunges

/-!
# Placing blocks in order

What becomes of a residue whose handles are in order when it is put together with two tables of the
right lengths.  `Placing.Upto m n` is the state in which the handles of the cuts below `m` and of
the plunges below `n` were replaced, and no others.  From such a state the next handle of either
kind is replaced by its block (`placeFrom_cut`, `placeFrom_plunge`), so no notice is given
(`notices_placeFrom`) and every handle is `Replaced` (`replaced_of_placeFrom`).

The only way to fail is to change the depth of a terminal step that is not a move.  A block in which
only moves have roles has no such step (`PlungeBlock.exists_resume`).
-/

namespace WireErosion

open Residue

variable {α : Type}

/-! ## The handles replaced so far -/

namespace Placing

/-- The handles of the cuts below `m` and of the plunges below `n` were replaced, and no others. -/
def Upto (m n : Nat) (s : Placing α) : Prop :=
  ∀ h, h ∈ s.placed ↔ ∃ i : Nat, (i < m ∧ h = ⟨.cut, i⟩) ∨ (i < n ∧ h = ⟨.plunge, i⟩)

variable {m n : Nat} {s : Placing α}

theorem upto_start : (⟨[], none⟩ : Placing α).Upto 0 0 := by
  intro h
  simp

theorem Upto.cut_not_mem (hs : s.Upto m n) : (⟨.cut, m⟩ : Handle) ∉ s.placed := by
  rw [hs]
  rintro ⟨i, ⟨hi, h⟩ | ⟨hi, h⟩⟩
  · simp only [Handle.mk.injEq, Int.natCast_inj] at h
    omega
  · simp at h

theorem Upto.plunge_not_mem (hs : s.Upto m n) : (⟨.plunge, n⟩ : Handle) ∉ s.placed := by
  rw [hs]
  rintro ⟨i, ⟨hi, h⟩ | ⟨hi, h⟩⟩
  · simp at h
  · simp only [Handle.mk.injEq, Int.natCast_inj] at h
    omega

theorem Upto.cut (hs : s.Upto m n) (z : Option (Option α)) :
    (⟨⟨.cut, m⟩ :: s.placed, z⟩ : Placing α).Upto (m + 1) n := by
  intro h
  rw [List.mem_cons, hs]
  constructor
  · rintro (rfl | ⟨i, ⟨hi, rfl⟩ | ⟨hi, rfl⟩⟩)
    · exact ⟨m, .inl ⟨by omega, rfl⟩⟩
    · exact ⟨i, .inl ⟨by omega, rfl⟩⟩
    · exact ⟨i, .inr ⟨hi, rfl⟩⟩
  · rintro ⟨i, ⟨hi, rfl⟩ | ⟨hi, rfl⟩⟩
    · by_cases hm : i = m
      · exact .inl (by rw [hm])
      · exact .inr ⟨i, .inl ⟨by omega, rfl⟩⟩
    · exact .inr ⟨i, .inr ⟨hi, rfl⟩⟩

theorem Upto.plunge (hs : s.Upto m n) (z : Option (Option α)) :
    (⟨⟨.plunge, n⟩ :: s.placed, z⟩ : Placing α).Upto m (n + 1) := by
  intro h
  rw [List.mem_cons, hs]
  constructor
  · rintro (rfl | ⟨i, ⟨hi, rfl⟩ | ⟨hi, rfl⟩⟩)
    · exact ⟨n, .inr ⟨by omega, rfl⟩⟩
    · exact ⟨i, .inl ⟨hi, rfl⟩⟩
    · exact ⟨i, .inr ⟨by omega, rfl⟩⟩
  · rintro ⟨i, ⟨hi, rfl⟩ | ⟨hi, rfl⟩⟩
    · exact .inr ⟨i, .inl ⟨hi, rfl⟩⟩
    · by_cases hn : i = n
      · exact .inl (by rw [hn])
      · exact .inr ⟨i, .inr ⟨by omega, rfl⟩⟩

/-- Once all handles of a kind were replaced there is none to give a notice on. -/
theorem Upto.unplacedNotice_cut (hs : s.Upto m n) : s.unplacedNotice .cut m = [] := by
  have h : s.unplaced .cut m = [] := by
    rw [unplaced, List.filter_eq_nil_iff]
    intro i hi
    have hmem : (⟨.cut, i⟩ : Handle) ∈ s.placed :=
      (hs _).mpr ⟨i, .inl ⟨List.mem_range.mp hi, rfl⟩⟩
    simp [hmem]
  rw [unplacedNotice, h]

theorem Upto.unplacedNotice_plunge (hs : s.Upto m n) : s.unplacedNotice .plunge n = [] := by
  have h : s.unplaced .plunge n = [] := by
    rw [unplaced, List.filter_eq_nil_iff]
    intro i hi
    have hmem : (⟨.plunge, i⟩ : Handle) ∈ s.placed :=
      (hs _).mpr ⟨i, .inr ⟨List.mem_range.mp hi, rfl⟩⟩
    simp [hmem]
  rw [unplacedNotice, h]

end Placing

/-! ## One handle -/

section

variable {cuts : List (CutBlock α)} {plunges : List (PlungeBlock α)} {m n : Nat} {s : Placing α}
variable {rest : Residue α}

theorem placeFrom_line (l : Line α) :
    placeFrom cuts plunges s (.line l :: rest) =
      (placeFrom cuts plunges s rest).bind fun (t, p) => .of (t, l :: p) := rfl

theorem Placing.place?_cut {i : Nat} {b : CutBlock α} (hnew : ⟨.cut, i⟩ ∉ s.placed)
    (hb : cuts[i]? = some b) :
    s.place? cuts plunges ⟨.cut, i⟩
      = some (⟨⟨.cut, i⟩ :: s.placed, some b.lastZ⟩, .ok b.lines) := by
  rw [Placing.place?, if_neg hnew]
  simp [placeBlock, hb]

theorem Placing.place?_plunge {i : Nat} {b : PlungeBlock α} (hnew : ⟨.plunge, i⟩ ∉ s.placed)
    (hb : plunges[i]? = some b) :
    s.place? cuts plunges ⟨.plunge, i⟩
      = some (⟨⟨.plunge, i⟩ :: s.placed, s.afterCut⟩, b.resume s.afterCut) := by
  rw [Placing.place?, if_neg hnew]
  cases h : s.afterCut with
  | none => simp [placeBlock, hb, h, PlungeBlock.resume]
  | some z => simp [placeBlock, hb, h, PlungeBlock.resume]

theorem placeFrom_cut {b : CutBlock α} (hs : s.Upto m n) (hb : cuts[m]? = some b) :
    placeFrom cuts plunges s (.handle ⟨.cut, m⟩ :: rest) =
      (placeFrom cuts plunges ⟨⟨.cut, m⟩ :: s.placed, some b.lastZ⟩ rest).bind
        fun (t, p) => .of (t, b.lines ++ p) := by
  rw [placeFrom, Placing.place?_cut hs.cut_not_mem hb]
  exact Report.of_bind _ _

theorem placeFrom_plunge {b : PlungeBlock α} (hs : s.Upto m n) (hb : plunges[n]? = some b) :
    placeFrom cuts plunges s (.handle ⟨.plunge, n⟩ :: rest) =
      (Report.lift (b.resume s.afterCut)).bind fun ls =>
        (placeFrom cuts plunges ⟨⟨.plunge, n⟩ :: s.placed, s.afterCut⟩ rest).bind
          fun (t, p) => .of (t, ls ++ p) := by
  rw [placeFrom, Placing.place?_plunge hs.plunge_not_mem hb]

end

/-! ## All handles -/

/-- What a line of a residue is replaced by: a line by itself, the handle of a cut by its lines, and
the handle of a plunge by its lines with the terminal step at the depth of some cut, or as it is. -/
inductive Replaced (cuts : List (CutBlock α)) (plunges : List (PlungeBlock α)) :
    Residual α → List (Line α) → Prop
  | line (l : Line α) : Replaced cuts plunges (.line l) [l]
  | cut {i : Nat} {b : CutBlock α} :
      cuts[i]? = some b → Replaced cuts plunges (.handle ⟨.cut, i⟩) b.lines
  | plunge {i : Nat} {b : PlungeBlock α} {after : Option (Option α)} {ls : List (Line α)} :
      plunges[i]? = some b → b.resume after = .ok ls →
      Replaced cuts plunges (.handle ⟨.plunge, i⟩) ls

section

variable {cuts : List (CutBlock α)} {plunges : List (PlungeBlock α)} {m n : Nat} {s : Placing α}
variable {rest : Residue α}

/-- The block of the next cut. -/
theorem Residue.InOrder.cut_eq_some (h : InOrder cuts.length plunges.length (m + 1) n rest) :
    ∃ b, cuts[m]? = some b :=
  ⟨_, List.getElem?_eq_getElem h.cut_le⟩

/-- The block of the next plunge. -/
theorem Residue.InOrder.plunge_eq_some (h : InOrder cuts.length plunges.length m (n + 1) rest) :
    ∃ b, plunges[n]? = some b :=
  ⟨_, List.getElem?_eq_getElem h.plunge_le⟩

/-- Handles in order are replaced without a notice. -/
theorem notices_placeFrom (h : InOrder cuts.length plunges.length m n rest) (hs : s.Upto m n) :
    (placeFrom cuts plunges s rest).notices = [] := by
  induction h generalizing s with
  | done => rfl
  | line l _ ih =>
      rw [placeFrom_line]
      exact Report.notices_bind_eq_nil (ih hs) fun _ _ => rfl
  | cut h ih =>
      obtain ⟨b, hb⟩ := h.cut_eq_some
      rw [placeFrom_cut hs hb]
      exact Report.notices_bind_eq_nil (ih (hs.cut _)) fun _ _ => rfl
  | plunge h ih =>
      obtain ⟨b, hb⟩ := h.plunge_eq_some
      rw [placeFrom_plunge hs hb]
      exact Report.notices_bind_eq_nil rfl fun _ _ =>
        Report.notices_bind_eq_nil (ih (hs.plunge _)) fun _ _ => rfl

/-- Handles in order are all replaced, each by its block. -/
theorem replaced_of_placeFrom {t : Placing α} {p : Program α}
    (h : InOrder cuts.length plunges.length m n rest) (hs : s.Upto m n)
    (hp : (placeFrom cuts plunges s rest).outcome = .ok (t, p)) :
    t.Upto cuts.length plunges.length ∧
      ∃ chunks, List.Forall₂ (Replaced cuts plunges) rest chunks ∧ p = chunks.flatten := by
  induction h generalizing s p with
  | done =>
      cases hp
      exact ⟨hs, [], .nil, rfl⟩
  | line l _ ih =>
      rw [placeFrom_line, Report.outcome_bind_eq_ok] at hp
      obtain ⟨⟨t', p'⟩, hrest, htp⟩ := hp
      cases htp
      obtain ⟨ht, chunks, hchunks, rfl⟩ := ih hs hrest
      exact ⟨ht, [l] :: chunks, .cons (.line l) hchunks, rfl⟩
  | cut h ih =>
      obtain ⟨b, hb⟩ := h.cut_eq_some
      rw [placeFrom_cut hs hb, Report.outcome_bind_eq_ok] at hp
      obtain ⟨⟨t', p'⟩, hrest, htp⟩ := hp
      cases htp
      obtain ⟨ht, chunks, hchunks, rfl⟩ := ih (hs.cut _) hrest
      exact ⟨ht, b.lines :: chunks, .cons (.cut hb) hchunks, rfl⟩
  | plunge h ih =>
      obtain ⟨b, hb⟩ := h.plunge_eq_some
      rw [placeFrom_plunge hs hb, Report.outcome_bind_eq_ok] at hp
      obtain ⟨ls, hls, hp⟩ := hp
      rw [Report.outcome_bind_eq_ok] at hp
      obtain ⟨⟨t', p'⟩, hrest, htp⟩ := hp
      cases htp
      obtain ⟨ht, chunks, hchunks, rfl⟩ := ih (hs.plunge _) hrest
      exact ⟨ht, ls :: chunks, .cons (.plunge hb hls) hchunks, rfl⟩

/-- If in all plunges only moves have roles then handles in order can be replaced. -/
theorem exists_placeFrom (h : InOrder cuts.length plunges.length m n rest) (hs : s.Upto m n)
    (hroles : ∀ b ∈ plunges, b.RolesOnMoves) :
    ∃ t p, (placeFrom cuts plunges s rest).outcome = .ok (t, p) := by
  induction h generalizing s with
  | done => exact ⟨s, [], rfl⟩
  | line l _ ih =>
      obtain ⟨t, p, hp⟩ := ih hs
      exact ⟨t, l :: p, by rw [placeFrom_line, Report.outcome_bind hp]; rfl⟩
  | cut h ih =>
      obtain ⟨b, hb⟩ := h.cut_eq_some
      obtain ⟨t, p, hp⟩ := ih (hs.cut _)
      exact ⟨t, b.lines ++ p, by rw [placeFrom_cut hs hb, Report.outcome_bind hp]; rfl⟩
  | plunge h ih =>
      obtain ⟨b, hb⟩ := h.plunge_eq_some
      obtain ⟨ls, hls⟩ := PlungeBlock.exists_resume s.afterCut (hroles b (List.mem_of_getElem? hb))
      obtain ⟨t, p, hp⟩ := ih (hs.plunge _)
      refine ⟨t, ls ++ p, ?_⟩
      rw [placeFrom_plunge hs hb, Report.outcome_bind hls, Report.outcome_bind hp]
      rfl

/-- A residue in order is put together without a notice. -/
theorem notices_reassemble (h : InOrder cuts.length plunges.length 0 0 rest) :
    (reassemble rest cuts plunges).notices = [] := by
  refine Report.notices_bind_eq_nil (notices_placeFrom h Placing.upto_start) ?_
  rintro ⟨t, p⟩ hp
  obtain ⟨ht, -⟩ := replaced_of_placeFrom h Placing.upto_start hp
  refine Report.notices_bind_eq_nil ?_ fun _ _ => rfl
  rw [Report.notices_tellAll, ht.unplacedNotice_cut, ht.unplacedNotice_plunge]
  rfl

/-- What a residue in order is put together to, given that its handles can be replaced. -/
theorem outcome_reassemble {p : Program α} :
    (reassemble rest cuts plunges).outcome = .ok p ↔
      ∃ t, (placeFrom cuts plunges ⟨[], none⟩ rest).outcome = .ok (t, p) := by
  rw [reassemble, Report.outcome_bind_eq_ok]
  constructor
  · rintro ⟨⟨t, p'⟩, hp, hout⟩
    obtain ⟨-, -, hp'⟩ := Report.outcome_bind_eq_ok.mp hout
    cases hp'
    exact ⟨t, hp⟩
  · rintro ⟨t, hp⟩
    exact ⟨(t, p), hp, rfl⟩

end

end WireErosion
