import WireErosion.Proofs.Residue.Placement

/-!
# Any handles

What becomes of a residue with any handles when it is put together.  `Becomes` says it for one line,
given the lines before it: those alone decide which handles were replaced and which cut was placed
last.  `Placing.Follows` says that a state of the replacing agrees with the lines before.  One line
keeps that (`placeFrom_becomes`), so by induction over the residue every line becomes what `Becomes`
says (`placeFrom_becomeFrom`).

The one way to fail is a plunge after a cut whose terminal step is a comment (`Resumable`).
-/

namespace WireErosion

open Residue

variable {α : Type}

/-! ## What the lines before decide -/

section

variable (cuts : List (CutBlock α)) (plunges : List (PlungeBlock α))

/-- The number of blocks of a kind. -/
def BlockKind.count : BlockKind → Nat
  | .cut => cuts.length
  | .plunge => plunges.length

/-- A block has the index of the handle. -/
def Handle.InRange (h : Handle) : Prop := 0 ≤ h.index ∧ h.index < h.kind.count cuts plunges

/-- Some lines place a cut. -/
def CutPlaced (pre : Residue α) : Prop :=
  ∃ (i : Nat) (b : CutBlock α), cuts[i]? = some b ∧ .handle ⟨.cut, i⟩ ∈ pre

/-- The cut that some lines place last: after its first handle no other cut has its first one. -/
def LastCut (pre : Residue α) (b : CutBlock α) : Prop :=
  ∃ (front : Residue α) (i : Nat) (back : Residue α),
    pre = front ++ .handle ⟨.cut, i⟩ :: back ∧ cuts[i]? = some b ∧ .handle ⟨.cut, i⟩ ∉ front ∧
      ∀ (j : Nat) (c : CutBlock α), cuts[j]? = some c → .handle ⟨.cut, j⟩ ∈ back →
        .handle ⟨.cut, j⟩ ∈ front ++ [.handle ⟨.cut, i⟩]

/-- The lines and the notices that a line of a residue becomes. -/
structure Replacement (α : Type) where
  /-- The lines. -/
  lines : List (Line α)
  /-- The notices. -/
  notices : List (Notice α) := []

/-- What a line of a residue becomes, given the lines before it. -/
inductive Becomes (pre : Residue α) : Residual α → Replacement α → Prop
  | line (l : Line α) : Becomes pre (.line l) ⟨[l], []⟩
  | cut {i : Nat} {b : CutBlock α} :
      cuts[i]? = some b → .handle ⟨.cut, i⟩ ∉ pre →
      Becomes pre (.handle ⟨.cut, i⟩) ⟨b.lines, []⟩
  | plungeBefore {i : Nat} {b : PlungeBlock α} :
      plunges[i]? = some b → .handle ⟨.plunge, i⟩ ∉ pre → ¬ CutPlaced cuts pre →
      Becomes pre (.handle ⟨.plunge, i⟩) ⟨b.lines, []⟩
  | plungeAfter {i : Nat} {b : PlungeBlock α} {c : CutBlock α} {ls : List (Line α)} :
      plunges[i]? = some b → .handle ⟨.plunge, i⟩ ∉ pre → LastCut cuts pre c →
      b.AtDepth c.lastZ ls → Becomes pre (.handle ⟨.plunge, i⟩) ⟨ls, []⟩
  | unknown (h : Handle) :
      ¬ h.InRange cuts plunges →
      Becomes pre (.handle h) ⟨[.comment h.text], [.handleRejected .unknown h]⟩
  | duplicate (h : Handle) :
      h.InRange cuts plunges → .handle h ∈ pre →
      Becomes pre (.handle h) ⟨[.comment h.text], [.handleRejected .duplicate h]⟩

/-- What the lines of a residue become, one after the other, given the lines before them. -/
inductive BecomeFrom : Residue α → Residue α → List (Replacement α) → Prop
  | nil (pre : Residue α) : BecomeFrom pre [] []
  | cons {pre : Residue α} {r : Residual α} {rest : Residue α} {piece : Replacement α}
      {pieces : List (Replacement α)} :
      Becomes cuts plunges pre r piece → BecomeFrom (pre ++ [r]) rest pieces →
      BecomeFrom pre (r :: rest) (piece :: pieces)

/-- A line is the handle of a plunge that is placed after a cut and whose terminal step is a
comment. -/
def Stuck (pre : Residue α) (r : Residual α) : Prop :=
  ∃ (i : Nat) (b : PlungeBlock α), r = .handle ⟨.plunge, i⟩ ∧ r ∉ pre ∧ plunges[i]? = some b ∧
    CutPlaced cuts pre ∧ ¬ b.TerminalIsMove

/-- In every plunge that is placed after a cut the terminal step, if there is one, is a move. -/
def Resumable (rest : Residue α) : Prop :=
  ∀ (front : Residue α) (r : Residual α) (back : Residue α),
    rest = front ++ r :: back → ¬ Stuck cuts plunges front r

end

theorem resumable_of_terminalIsMove {cuts : List (CutBlock α)} {plunges : List (PlungeBlock α)}
    {rest : Residue α} (h : ∀ b ∈ plunges, b.TerminalIsMove) : Resumable cuts plunges rest := by
  rintro front r back - ⟨i, b, -, -, hb, -, hcomment⟩
  exact hcomment (h b (List.mem_of_getElem? hb))

/-! ## The cut placed last -/

section

variable {cuts : List (CutBlock α)} {plunges : List (PlungeBlock α)} {pre : Residue α}
variable {r : Residual α} {b : CutBlock α}

/-- A line places no cut: it is no handle of a cut, or not the first one. -/
def PlacesNoCut (cuts : List (CutBlock α)) (pre : Residue α) (r : Residual α) : Prop :=
  ∀ (i : Nat) (b : CutBlock α), cuts[i]? = some b → r = .handle ⟨.cut, i⟩ → r ∈ pre

theorem LastCut.cutPlaced (h : LastCut cuts pre b) : CutPlaced cuts pre := by
  obtain ⟨front, i, back, rfl, hb, -, -⟩ := h
  exact ⟨i, b, hb, by simp⟩

theorem LastCut.concat (h : LastCut cuts pre b) (hr : PlacesNoCut cuts pre r) :
    LastCut cuts (pre ++ [r]) b := by
  obtain ⟨front, i, back, rfl, hb, hfirst, hback⟩ := h
  refine ⟨front, i, back ++ [r], by simp, hb, hfirst, fun j c hc hmem => ?_⟩
  rcases List.mem_append.mp hmem with hmem | hmem
  · exact hback j c hc hmem
  · have hj := hr j c hc (List.mem_singleton.mp hmem).symm
    rw [← List.mem_singleton.mp hmem, List.append_cons, List.mem_append] at hj
    exact hj.elim id (hback j c hc)

theorem LastCut.concat_cut {i : Nat} (hb : cuts[i]? = some b) (hfirst : .handle ⟨.cut, i⟩ ∉ pre) :
    LastCut cuts (pre ++ [.handle ⟨.cut, i⟩]) b :=
  ⟨pre, i, [], rfl, hb, hfirst, fun _ _ _ h => by cases h⟩

theorem not_cutPlaced_concat (h : ¬ CutPlaced cuts pre) (hr : PlacesNoCut cuts pre r) :
    ¬ CutPlaced cuts (pre ++ [r]) := by
  rintro ⟨i, b, hb, hmem⟩
  rcases List.mem_append.mp hmem with hmem | hmem
  · exact h ⟨i, b, hb, hmem⟩
  · have hi := hr i b hb (List.mem_singleton.mp hmem).symm
    rw [← List.mem_singleton.mp hmem] at hi
    exact h ⟨i, b, hb, hi⟩

end

/-! ## States -/

namespace Placing

variable {cuts : List (CutBlock α)} {plunges : List (PlungeBlock α)} {pre : Residue α}
variable {r : Residual α} {s : Placing α}

/-- A state of the replacing after some lines: the handles in range were replaced, and the depth is
that of the cut placed last. -/
structure Follows (cuts : List (CutBlock α)) (plunges : List (PlungeBlock α)) (pre : Residue α)
    (s : Placing α) : Prop where
  /-- The handles that were replaced. -/
  placed : ∀ h, h ∈ s.placed ↔ h.InRange cuts plunges ∧ .handle h ∈ pre
  /-- Without a depth no cut was placed. -/
  before : s.afterCut = none → ¬ CutPlaced cuts pre
  /-- The depth is that of the cut placed last. -/
  after : ∀ z, s.afterCut = some z → ∃ b, LastCut cuts pre b ∧ z = b.lastZ

theorem follows_start : (⟨[], none⟩ : Placing α).Follows cuts plunges [] where
  placed h := by simp
  before _ := by
    rintro ⟨i, b, -, hmem⟩
    cases hmem
  after z hz := by cases hz

/-- A line that is not replaced leaves the state as it is. -/
theorem Follows.concat (h : s.Follows cuts plunges pre)
    (hr : ∀ g, r = .handle g → g.InRange cuts plunges → r ∈ pre) :
    s.Follows cuts plunges (pre ++ [r]) := by
  have hnocut : PlacesNoCut cuts pre r := by
    intro i b hb hi
    have hlt := (List.getElem?_eq_some_iff.mp hb).1
    exact hr _ hi ⟨Int.natCast_nonneg i, Int.ofNat_lt.mpr hlt⟩
  refine ⟨fun g => ?_, fun hs => not_cutPlaced_concat (h.before hs) hnocut, fun z hz => ?_⟩
  · rw [h.placed, List.mem_append, List.mem_singleton]
    constructor
    · exact fun ⟨hrange, hmem⟩ => ⟨hrange, .inl hmem⟩
    · rintro ⟨hrange, hmem | hmem⟩
      · exact ⟨hrange, hmem⟩
      · exact ⟨hrange, hmem ▸ hr g hmem.symm hrange⟩
  · obtain ⟨b, hb, hzb⟩ := h.after z hz
    exact ⟨b, hb.concat hnocut, hzb⟩

theorem Follows.placed_concat (h : s.Follows cuts plunges pre) {g : Handle}
    (hg : g.InRange cuts plunges) (g' : Handle) :
    g' ∈ g :: s.placed ↔ g'.InRange cuts plunges ∧ .handle g' ∈ pre ++ [.handle g] := by
  rw [List.mem_cons, h.placed, List.mem_append, List.mem_singleton]
  constructor
  · rintro (rfl | ⟨hrange, hmem⟩)
    · exact ⟨hg, .inr rfl⟩
    · exact ⟨hrange, .inl hmem⟩
  · rintro ⟨hrange, hmem | hmem⟩
    · exact .inr ⟨hrange, hmem⟩
    · cases hmem
      exact .inl rfl

theorem Follows.concat_cut (h : s.Follows cuts plunges pre) {i : Nat} {b : CutBlock α}
    (hb : cuts[i]? = some b) (hfirst : .handle ⟨.cut, i⟩ ∉ pre) :
    (⟨⟨.cut, i⟩ :: s.placed, some b.lastZ⟩ : Placing α).Follows cuts plunges
      (pre ++ [.handle ⟨.cut, i⟩]) where
  placed := h.placed_concat
    ⟨Int.natCast_nonneg i, Int.ofNat_lt.mpr (List.getElem?_eq_some_iff.mp hb).1⟩
  before hs := by cases hs
  after z hz := by
    cases hz
    exact ⟨b, .concat_cut hb hfirst, rfl⟩

theorem Follows.concat_plunge (h : s.Follows cuts plunges pre) {i : Nat} {b : PlungeBlock α}
    (hb : plunges[i]? = some b) :
    (⟨⟨.plunge, i⟩ :: s.placed, s.afterCut⟩ : Placing α).Follows cuts plunges
      (pre ++ [.handle ⟨.plunge, i⟩]) where
  placed := h.placed_concat
    ⟨Int.natCast_nonneg i, Int.ofNat_lt.mpr (List.getElem?_eq_some_iff.mp hb).1⟩
  before hs := not_cutPlaced_concat (h.before hs) fun _ _ _ hr => by cases hr
  after z hz := by
    obtain ⟨c, hc, hzc⟩ := h.after z hz
    exact ⟨c, hc.concat (fun _ _ _ hr => by cases hr), hzc⟩

end Placing

/-! ## One line -/

section

variable {cuts : List (CutBlock α)} {plunges : List (PlungeBlock α)} {pre : Residue α}
variable {s : Placing α} {rest : Residue α}

/-- What a line becomes, put before what the lines after it become. -/
def Replacement.andThen (piece : Replacement α) (r : Report α (Placing α × Program α)) :
    Report α (Placing α × Program α) :=
  ⟨piece.notices ++ r.notices, r.outcome.map fun (t, p) => (t, piece.lines ++ p)⟩

theorem Report.bind_append (r : Report α (Placing α × Program α)) (ls : List (Line α)) :
    (r.bind fun (t, p) => .of (t, ls ++ p)) = (⟨ls, []⟩ : Replacement α).andThen r := by
  obtain ⟨notices, outcome⟩ := r
  cases outcome with
  | error e => rfl
  | ok tp => simp [Report.bind, Report.of, Replacement.andThen, Except.map]

theorem Report.tell_bind (n : Notice α) (r : Report α (Placing α × Program α)) (l : Line α) :
    ((Report.tell n).bind fun _ => r.bind fun (t, p) => .of (t, l :: p))
      = (⟨[l], [n]⟩ : Replacement α).andThen r := by
  obtain ⟨notices, outcome⟩ := r
  cases outcome with
  | error e => rfl
  | ok tp => simp [Report.bind, Report.of, Report.tell, Replacement.andThen, Except.map]

/-- The lines of a handle that a state replaces. -/
theorem placeFrom_placed {h : Handle} {t : Placing α} {ls : List (Line α)}
    (hplace : s.place? cuts plunges h = some (t, .ok ls)) :
    placeFrom cuts plunges s (.handle h :: rest)
      = (⟨ls, []⟩ : Replacement α).andThen (placeFrom cuts plunges t rest) := by
  rw [placeFrom, hplace, ← Report.bind_append]
  exact Report.of_bind _ _

theorem placeFrom_rejected {h : Handle} (hplace : s.place? cuts plunges h = none) :
    placeFrom cuts plunges s (.handle h :: rest)
      = (⟨[.comment h.text], [.handleRejected (s.rejection h) h]⟩ : Replacement α).andThen
          (placeFrom cuts plunges s rest) := by
  rw [placeFrom, hplace]
  exact Report.tell_bind _ _ _

theorem Placing.place?_of_mem {h : Handle} (hmem : h ∈ s.placed) :
    s.place? cuts plunges h = none := if_pos hmem

/-- A handle without a block is not replaced. -/
theorem Placing.place?_of_not_inRange {h : Handle} (hrange : ¬ h.InRange cuts plunges) :
    s.place? cuts plunges h = none := by
  obtain ⟨kind, index⟩ := h
  simp only [Placing.place?]
  split
  · rfl
  · cases index with
    | negSucc i => rfl
    | ofNat i =>
        have hlen : kind.count cuts plunges ≤ i :=
          Nat.le_of_not_lt fun hlt => hrange ⟨Int.natCast_nonneg i, Int.ofNat_lt.mpr hlt⟩
        cases kind with
        | cut => simp [placeBlock, List.getElem?_eq_none hlen]
        | plunge => simp [placeBlock, List.getElem?_eq_none hlen]

/-- A handle in range has a block. -/
theorem Handle.InRange.exists_block {h : Handle} (hrange : h.InRange cuts plunges) :
    (∃ (i : Nat) (b : CutBlock α), h = ⟨.cut, i⟩ ∧ cuts[i]? = some b) ∨
      ∃ (i : Nat) (b : PlungeBlock α), h = ⟨.plunge, i⟩ ∧ plunges[i]? = some b := by
  obtain ⟨kind, index⟩ := h
  obtain ⟨hnonneg, hlt⟩ := hrange
  obtain ⟨i, rfl⟩ := Int.eq_ofNat_of_zero_le hnonneg
  have hi := Int.ofNat_lt.mp hlt
  cases kind with
  | cut => exact .inl ⟨i, _, rfl, List.getElem?_eq_getElem hi⟩
  | plunge => exact .inr ⟨i, _, rfl, List.getElem?_eq_getElem hi⟩

/-- The lines of a plunge that is not stuck. -/
theorem Placing.Follows.exists_resume {i : Nat} {b : PlungeBlock α}
    (hs : s.Follows cuts plunges pre) (hb : plunges[i]? = some b)
    (hfirst : .handle ⟨.plunge, i⟩ ∉ pre)
    (hfree : ¬ Stuck cuts plunges pre (.handle ⟨.plunge, i⟩)) :
    ∃ ls, b.resume s.afterCut = .ok ls ∧
      Becomes cuts plunges pre (.handle ⟨.plunge, i⟩) ⟨ls, []⟩ := by
  cases hafter : s.afterCut with
  | none => exact ⟨b.lines, rfl, .plungeBefore hb hfirst (hs.before hafter)⟩
  | some z =>
      obtain ⟨c, hc, rfl⟩ := hs.after z hafter
      have hmove : b.TerminalIsMove :=
        not_not.mp fun hcomment => hfree ⟨i, b, rfl, hfirst, hb, hc.cutPlaced, hcomment⟩
      obtain ⟨ls, hls, hdepth⟩ := hmove.exists_atDepth c.lastZ
      exact ⟨ls, hls, .plungeAfter hb hfirst hc hdepth⟩

/-- What one line becomes in a state that follows the lines before it, unless it is stuck. -/
theorem placeFrom_becomes {r : Residual α} (hs : s.Follows cuts plunges pre)
    (hfree : ¬ Stuck cuts plunges pre r) :
    ∃ t piece, t.Follows cuts plunges (pre ++ [r]) ∧ Becomes cuts plunges pre r piece ∧
      ∀ rest, placeFrom cuts plunges s (r :: rest)
        = piece.andThen (placeFrom cuts plunges t rest) := by
  cases r with
  | line l =>
      refine ⟨s, ⟨[l], []⟩, hs.concat (fun _ hr => by cases hr), .line l, fun rest => ?_⟩
      rw [placeFrom_line, ← Report.bind_append]
      rfl
  | handle h =>
      by_cases hmem : h ∈ s.placed
      · obtain ⟨hrange, hpre⟩ := (hs.placed h).mp hmem
        refine ⟨s, _, hs.concat fun _ _ _ => hpre, .duplicate h hrange hpre, fun rest => ?_⟩
        rw [placeFrom_rejected (Placing.place?_of_mem hmem), Placing.rejection, if_pos hmem]
      · by_cases hrange : h.InRange cuts plunges
        · have hfirst : .handle h ∉ pre := fun hpre => hmem ((hs.placed h).mpr ⟨hrange, hpre⟩)
          rcases hrange.exists_block with ⟨i, b, rfl, hb⟩ | ⟨i, b, rfl, hb⟩
          · exact ⟨_, _, hs.concat_cut hb hfirst, .cut hb hfirst,
              fun rest => placeFrom_placed (Placing.place?_cut hmem hb)⟩
          · obtain ⟨ls, hls, hbecomes⟩ := hs.exists_resume hb hfirst hfree
            have hplace : s.place? cuts plunges ⟨.plunge, i⟩
                = some (⟨⟨.plunge, i⟩ :: s.placed, s.afterCut⟩, .ok ls) := by
              rw [Placing.place?_plunge hmem hb, hls]
            exact ⟨_, _, hs.concat_plunge hb, hbecomes, fun rest => placeFrom_placed hplace⟩
        · refine ⟨s, _, hs.concat ?_, .unknown h hrange, fun rest => ?_⟩
          · rintro _ ⟨⟩ hg
            exact absurd hg hrange
          · rw [placeFrom_rejected (Placing.place?_of_not_inRange hrange), Placing.rejection,
              if_neg hmem]

/-- At a line that is stuck there is a fault. -/
theorem placeFrom_stuck {r : Residual α} (hs : s.Follows cuts plunges pre)
    (hstuck : Stuck cuts plunges pre r) :
    (placeFrom cuts plunges s (r :: rest)).outcome = .error .wrongKind := by
  obtain ⟨i, b, rfl, hfirst, hb, hcut, hcomment⟩ := hstuck
  have hmem : ⟨.plunge, i⟩ ∉ s.placed := fun hmem => hfirst ((hs.placed _).mp hmem).2
  cases hafter : s.afterCut with
  | none => exact absurd hcut (hs.before hafter)
  | some z =>
      rw [placeFrom, Placing.place?_plunge hmem hb, hafter]
      simp only [PlungeBlock.resume, PlungeBlock.withTerminalZ_eq_error hcomment z]
      rfl

end

/-! ## All lines -/

section

variable {cuts : List (CutBlock α)} {plunges : List (PlungeBlock α)}

/-- What the lines become from a state that follows the lines before them, if none is stuck. -/
theorem placeFrom_becomeFrom : ∀ {rest pre : Residue α} {s : Placing α},
    s.Follows cuts plunges pre →
    (∀ front r back, rest = front ++ r :: back → ¬ Stuck cuts plunges (pre ++ front) r) →
    ∃ t pieces, t.Follows cuts plunges (pre ++ rest) ∧ BecomeFrom cuts plunges pre rest pieces ∧
      placeFrom cuts plunges s rest
        = ⟨pieces.flatMap (·.notices), .ok (t, pieces.flatMap (·.lines))⟩
  | [], pre, s, hs, _ => ⟨s, [], by rwa [List.append_nil], .nil pre, rfl⟩
  | r :: rest, pre, s, hs, hfree => by
      have hhead : ¬ Stuck cuts plunges pre r := by simpa using hfree [] r rest rfl
      obtain ⟨s', piece, hs', hpiece, hplace⟩ := placeFrom_becomes hs hhead
      have htail : ∀ front r' back, rest = front ++ r' :: back →
          ¬ Stuck cuts plunges (pre ++ [r] ++ front) r' := fun front r' back h => by
        rw [List.append_assoc]
        exact hfree (r :: front) r' back (by rw [h]; rfl)
      obtain ⟨t, pieces, ht, hpieces, hrest⟩ := placeFrom_becomeFrom hs' htail
      refine ⟨t, piece :: pieces, by rwa [List.append_cons], .cons hpiece hpieces, ?_⟩
      rw [hplace, hrest]
      rfl

/-- If some line is stuck then there is a fault. -/
theorem placeFrom_eq_error : ∀ {rest pre : Residue α} {s : Placing α},
    s.Follows cuts plunges pre →
    (∃ front r back, rest = front ++ r :: back ∧ Stuck cuts plunges (pre ++ front) r) →
    (placeFrom cuts plunges s rest).outcome = .error .wrongKind
  | [], _, _, _, ⟨front, r, back, h, _⟩ => by simp at h
  | r :: rest, pre, s, hs, ⟨front, r', back, h, hstuck⟩ => by
      by_cases hhead : Stuck cuts plunges pre r
      · exact placeFrom_stuck hs hhead
      · obtain ⟨s', piece, hs', -, hplace⟩ := placeFrom_becomes hs hhead
        cases front with
        | nil =>
            obtain ⟨rfl, -⟩ := List.cons.inj h
            exact absurd (by simpa using hstuck) hhead
        | cons r₀ front =>
            obtain ⟨rfl, htail⟩ := List.cons.inj h
            rw [List.append_cons] at hstuck
            rw [hplace, Replacement.andThen,
              placeFrom_eq_error hs' ⟨front, r', back, htail, hstuck⟩]
            rfl

theorem Residue.mem_handles {kind : BlockKind} {h : Handle} {r : Residue α} :
    h ∈ r.handles kind ↔ h.kind = kind ∧ .handle h ∈ r := by
  induction r with
  | nil => simp [handles]
  | cons x rest ih =>
      cases x with
      | line l => simp [handles, ih]
      | handle g =>
          rw [handles, List.mem_cons, Residual.handle.injEq]
          split
          next hg =>
            rw [List.mem_cons, ih]
            constructor
            · rintro (rfl | ⟨hkind, hmem⟩)
              · exact ⟨hg, .inl rfl⟩
              · exact ⟨hkind, .inr hmem⟩
            · rintro ⟨hkind, rfl | hmem⟩
              · exact .inl rfl
              · exact .inr ⟨hkind, hmem⟩
          next hg =>
            rw [ih]
            constructor
            · exact And.imp_right .inr
            · rintro ⟨hkind, rfl | hmem⟩
              · exact absurd hkind hg
              · exact ⟨hkind, hmem⟩

/-- The indices below a count whose handles of a kind are not in a residue. -/
def Residue.missing (r : Residue α) (kind : BlockKind) (count : Nat) : List Nat :=
  (List.range count).filter fun i => (⟨kind, i⟩ : Handle) ∉ r.handles kind

/-- The notice on the blocks that have no handle in a residue, if there are any. -/
def Residue.missingNotices (r : Residue α) (kind : BlockKind) (count : Nat) : List (Notice α) :=
  if r.missing kind count = [] then [] else [.blocksUnplaced kind (r.missing kind count)]

theorem Placing.Follows.unplacedNotice {t : Placing α} {rest : Residue α}
    (ht : t.Follows cuts plunges rest) (kind : BlockKind) :
    t.unplacedNotice kind (kind.count cuts plunges)
      = rest.missingNotices kind (kind.count cuts plunges) := by
  have hmissing : t.unplaced kind (kind.count cuts plunges)
      = rest.missing kind (kind.count cuts plunges) := by
    refine List.filter_congr fun i hi => ?_
    have hrange : (⟨kind, i⟩ : Handle).InRange cuts plunges :=
      ⟨Int.natCast_nonneg i, Int.ofNat_lt.mpr (List.mem_range.mp hi)⟩
    have hplaced : ⟨kind, i⟩ ∈ t.placed ↔ ⟨kind, i⟩ ∈ rest.handles kind := by
      rw [ht.placed, mem_handles]
      exact ⟨fun h => ⟨rfl, h.2⟩, fun h => ⟨hrange, h.2⟩⟩
    simp [hplaced]
  rw [Placing.unplacedNotice, Residue.missingNotices, hmissing]
  cases rest.missing kind (kind.count cuts plunges) <;> rfl

/-- A residue with any handles is put together line by line.  A line stays.  The first handle with
the index of a block is replaced by it, where a plunge after a cut ends at the depth of the cut that
was placed last.  Every other handle becomes its comment and one notice, on a duplicate if the
handle was replaced before.  At the end there is one notice for each kind that has blocks without a
handle.  This fails exactly if a plunge that is placed after a cut ends in a comment. -/
theorem reassemble_becomeFrom (rest : Residue α) (cuts : List (CutBlock α))
    (plunges : List (PlungeBlock α)) :
    (Resumable cuts plunges rest → ∃ pieces, BecomeFrom cuts plunges [] rest pieces ∧
      (reassemble rest cuts plunges).outcome = .ok (pieces.flatMap (·.lines)) ∧
      (reassemble rest cuts plunges).notices = pieces.flatMap (·.notices)
        ++ rest.missingNotices .cut cuts.length ++ rest.missingNotices .plunge plunges.length) ∧
    (¬ Resumable cuts plunges rest →
      (reassemble rest cuts plunges).outcome = .error .wrongKind) := by
  have hstart : (⟨[], none⟩ : Placing α).Follows cuts plunges [] := Placing.follows_start
  constructor
  · intro hfree
    obtain ⟨t, pieces, ht, hpieces, hplace⟩ := placeFrom_becomeFrom hstart hfree
    refine ⟨pieces, hpieces, ?_, ?_⟩
    · rw [reassemble, hplace]
      rfl
    · rw [reassemble, hplace]
      have hcut := ht.unplacedNotice .cut
      have hplunge := ht.unplacedNotice .plunge
      simp only [BlockKind.count, List.nil_append] at hcut hplunge
      simp [Report.bind, Report.tellAll, Report.of, hcut, hplunge]
  · intro hstuck
    simp only [Resumable, not_forall, not_not] at hstuck
    obtain ⟨front, r, back, hrest, hr⟩ := hstuck
    have herror := placeFrom_eq_error hstart ⟨front, r, back, hrest, hr⟩
    rw [reassemble, Report.bind, herror]

end

/-- Two plunges about two cuts in the wrong order, one of which comes again, with handles that no
block has. -/
def tangledResidue : Residue Nat :=
  [.handle ⟨.plunge, 1⟩, .handle ⟨.cut, 1⟩, .line .blank, .handle ⟨.cut, 0⟩, .handle ⟨.cut, 1⟩,
    .handle ⟨.cut, -1⟩, .handle ⟨.plunge, 0⟩, .handle ⟨.plunge, 3⟩]

/-- The tables of cuts for it. -/
def tangledCuts : List (CutBlock Nat) := [⟨[.cut], some 4⟩, ⟨[.cut], some 5⟩, ⟨[.cut], none⟩]

/-- The table of plunges for it. -/
def tangledPlunges : List (PlungeBlock Nat) :=
  [[⟨.move (.linear none none (some 1) none none), some .plunge⟩, ⟨.blank, none⟩],
    [⟨.retract, none⟩]]

/-- The second cut is placed once, three handles are rejected, and the third cut has no handle. -/
theorem tangledResidue_becomeFrom :
    Resumable tangledCuts tangledPlunges tangledResidue ∧
      ∃ pieces, BecomeFrom tangledCuts tangledPlunges [] tangledResidue pieces ∧
        pieces.flatMap (·.lines) = [.retract, .cut, .blank, .cut, .comment "; add cut 1",
          .comment "; add cut -1", .move (.linear none none (some 4) none none), .blank,
          .comment "; add plunge 3"] ∧
        (reassemble tangledResidue tangledCuts tangledPlunges).notices
          = pieces.flatMap (·.notices) ++ [.blocksUnplaced .cut [2]] := by
  have hresumable : Resumable tangledCuts tangledPlunges tangledResidue :=
    resumable_of_terminalIsMove fun b hb => PlungeBlock.RolesOnMoves.terminalIsMove (by
      revert b
      simp [tangledPlunges, PlungeBlock.RolesOnMoves, Line.isMove])
  obtain ⟨pieces, hpieces, houtcome, hnotices⟩ :=
    (reassemble_becomeFrom tangledResidue tangledCuts tangledPlunges).1 hresumable
  refine ⟨hresumable, pieces, hpieces, (Except.ok.inj houtcome).symm, ?_⟩
  rw [hnotices, show tangledResidue.missingNotices .plunge tangledPlunges.length = [] from rfl,
    List.append_nil]
  rfl

/-- After a cut a plunge that ends in a comment is not put in, although it has no move whose depth
could change. -/
theorem reassemble_comment_after_cut :
    (reassemble [.handle ⟨.cut, 0⟩, .handle ⟨.plunge, 0⟩]
      [⟨[.cut, .move (.linear (some 1) none none none none)], some 4⟩]
      [[⟨.retract, none⟩, ⟨.comment "; note", some .plunge⟩]] : Report Nat (Program Nat)).outcome
        = .error .wrongKind := rfl

end WireErosion
