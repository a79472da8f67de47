import WireErosion.Proofs.Residue.Placement
import WireErosion.Proofs.Wear.Strokes

/-!
# Lines in front of a program and behind it

Lines are `Unstructured` if they are moves and comments without a role.  In front of a program such
lines belong to no block.  Behind a program that ends with a rise they do not either, apart from
blank lines, which the block of the rise takes with it and leaves as they are
(`plungesFrom_header`).

So a program between unstructured lines is taken apart into the same blocks as without them
(`Program.part_between`), and the blocks are put together in the same way (`placeFrom_append`).
-/

namespace WireErosion

open Residue

variable {α : Type}

/-- The lines that are not moves are comments without a role. -/
def Program.Unstructured (p : Program α) : Prop := ∀ t, .comment t ∈ p → Comment.kind t = .generic

/-- Lines without structure are recognized line by line. -/
instance (p : Program α) : Decidable p.Unstructured :=
  decidable_of_iff (∀ l ∈ p, l.isMove = true ∨ l.kind = .generic) <| by
    constructor
    · intro h t ht
      exact (h _ ht).resolve_left (by simp [Line.isMove])
    · intro h l hl
      cases l with
      | move m => exact .inl rfl
      | comment t => exact .inr (h t hl)

namespace Program.Unstructured

theorem nil : Unstructured ([] : Program α) := fun _ h => (List.not_mem_nil h).elim

theorem of_cons {l : Line α} {p : Program α} (h : Unstructured (l :: p)) : Unstructured p :=
  fun t ht => h t (List.mem_cons_of_mem _ ht)

theorem kind_ne {p : Program α} (h : p.Unstructured) {k : LineKind} (hmove : k ≠ .move)
    (hgeneric : k ≠ .generic) : ∀ l ∈ p, l.kind ≠ k := by
  intro l hl
  cases l with
  | move m => exact hmove.symm
  | comment t =>
      rw [Line.kind, h t hl]
      exact hgeneric.symm

end Program.Unstructured

/-! ## Cuts -/

/-- A comment and lines after it without a cut are what is left of them. -/
theorem cutsFrom_append_comment {t : String} {q : Program α}
    (hquiet : ∀ l ∈ Line.comment t :: q, l.kind ≠ .cut) (p : Program α) (n : Nat) (inside : Bool) :
    cutsFrom n inside (p ++ Line.comment t :: q) =
      ((cutsFrom n inside p).1, (cutsFrom n inside p).2.1,
        (cutsFrom n inside p).2.2 ++ (Line.comment t :: q).map .line) := by
  induction p generalizing n inside with
  | nil =>
      have houtside : cutsFrom n false (Line.comment t :: q)
          = ([], [], (Line.comment t :: q).map .line) := by
        have happend := cutsFrom_append_outside (n := n) (p := []) hquiet
        rw [List.append_nil] at happend
        rw [happend]
        simp [cutsFrom]
      cases inside with
      | false => exact houtside
      | true => exact (closes_comment t q n).trans houtside
  | cons l p ih =>
      rw [List.cons_append]
      by_cases h : l.kind = .cut
      · rw [cutsFrom_cut h, cutsFrom_cut h, ih]
        rfl
      · by_cases hm : (inside && l.isMove) = true
        · obtain ⟨rfl, hmove⟩ := Bool.and_eq_true_iff.mp hm
          rw [cutsFrom_move h hmove, cutsFrom_move h hmove, ih]
        · rw [Bool.not_eq_true] at hm
          rw [cutsFrom_outside h hm, cutsFrom_outside h hm, ih]
          rfl

/-! ## Plunges -/

/-- No phase takes the marker of a retract. -/
theorem taken?_retract (phase : Option Phase) (rest : Residue α) :
    taken? phase (.line .retract) rest = none := by
  cases phase with
  | none => rfl
  | some ph => cases ph <;> rfl

/-- What is next in a residue is taken or not whatever the lines from the next retract on are. -/
theorem taken?_append_retract (phase : Option Phase) (x : Residual α) (r rest : Residue α) :
    taken? phase x (r ++ Residual.line .retract :: rest) = taken? phase x r := by
  have hmore : startsWithMove (r ++ Residual.line .retract :: rest) = startsWithMove r := by
    cases r <;> rfl
  cases x with
  | handle h => rw [taken?_handle, taken?_handle]
  | line l =>
      cases phase with
      | none => rfl
      | some ph => rw [taken?, taken?, hmore]

/-- A retract ends the plunge before it, so a residue can be taken apart in front of it and from it
on. -/
theorem plungesFrom_append_retract (rest r : Residue α) (n : Nat) (phase : Option Phase) :
    plungesFrom n phase (r ++ Residual.line .retract :: rest) =
      ((plungesFrom n phase r).1,
        (plungesFrom n phase r).2.1 ++ (plungesFrom (n + (plungesFrom n phase r).2.1.length)
          none (.line .retract :: rest)).2.1,
        (plungesFrom n phase r).2.2 ++ (plungesFrom (n + (plungesFrom n phase r).2.1.length)
          none (.line .retract :: rest)).2.2) := by
  induction r generalizing n phase with
  | nil =>
      rw [List.nil_append, plungesFrom_untaken (taken?_retract phase rest)]
      exact Prod.ext (plungesFrom_closed n _) rfl
  | cons x r ih =>
      rw [List.cons_append]
      have hnext := taken?_append_retract phase x r rest
      cases x with
      | handle h =>
          rw [plungesFrom_handle, plungesFrom_handle, ih]
          rfl
      | line l =>
          cases htaken : taken? phase (.line l) r with
          | some taken =>
              rw [plungesFrom_taken (hnext.trans htaken), plungesFrom_taken htaken, ih]
          | none =>
              by_cases hl : l.kind = .retract
              · rw [plungesFrom_retract (hnext.trans htaken) hl, plungesFrom_retract htaken hl, ih,
                  List.length_cons, Nat.add_right_comm, Nat.add_assoc]
                rfl
              · rw [plungesFrom_line (hnext.trans htaken) hl, plungesFrom_line htaken hl, ih]
                rfl

/-- A line that the block of a rise does not take is left over, with all lines after it. -/
theorem plungesFrom_left {l : Line α} {p : Program α} (h : Program.Unstructured (l :: p))
    (htaken : ∀ rest : Residue α, taken? (some .header) (.line l) rest = none) (n : Nat) :
    plungesFrom n (some .header) ((l :: p).map .line) = ([], [], (l :: p).map .line) := by
  have hretract := h.kind_ne (k := .retract) (by simp) (by simp)
  have hlines := plungesFrom_append_lines (n := n) (r := []) hretract
  rw [List.append_nil] at hlines
  rw [List.map_cons, plungesFrom_untaken (htaken _), ← List.map_cons, hlines]
  simp [plungesFrom]

/-- After its rise a block takes only blank lines of what has no structure. -/
theorem plungesFrom_header {p : Program α} (h : p.Unstructured) :
    ∃ taken left, p = taken ++ left ∧ ∀ n, plungesFrom n (some .header) (p.map .line) =
      (taken.map fun l => ⟨l, none⟩, [], left.map .line) := by
  induction p with
  | nil => exact ⟨[], [], rfl, fun _ => rfl⟩
  | cons l p ih =>
      cases l with
      | move m => exact ⟨[], .move m :: p, rfl, plungesFrom_left h fun _ => rfl⟩
      | comment t =>
          have hgeneric := h t (List.mem_cons_self ..)
          cases hblank : Comment.isBlank t with
          | true =>
              obtain ⟨taken, left, rfl, hrest⟩ := ih h.of_cons
              refine ⟨.comment t :: taken, left, rfl, fun n => ?_⟩
              have htaken : ∀ rest : Residue α, taken? (some .header) (.line (.comment t)) rest
                  = some (⟨.comment t, none⟩, .header) := by
                intro rest
                simp [taken?, Phase.take?, Phase.header?, hblank]
              rw [List.map_cons, plungesFrom_taken (htaken _), hrest]
              rfl
          | false =>
              refine ⟨[], .comment t :: p, rfl, plungesFrom_left h fun rest => ?_⟩
              simp [taken?, Phase.take?, Phase.header?, Phase.descent?, hblank, hgeneric]

/-! ## Whole programs -/

/-- The block of a rise and of the lines after it that it takes. -/
def trailedRise (rise : Move α) (taken : List (Line α)) : PlungeBlock α :=
  lastRise rise ++ taken.map fun l => ⟨l, none⟩

/-- A program that ends with a rise, between lines without structure.  Its blocks are those of the
program without the rise, and that of the rise. -/
theorem Program.part_between {pre finish : Program α} (hcut : ∀ l ∈ pre, l.kind ≠ .cut)
    (hretract : ∀ l ∈ pre, l.kind ≠ .retract) (hfinish : finish.Unstructured) (p : Program α)
    (rise : Move α) :
    ∃ taken left, finish = taken ++ left ∧
      Program.part (pre ++ (p ++ Line.retract :: .move rise :: finish)) =
        ⟨p.part.cuts, p.part.plunges ++ [trailedRise rise taken],
          pre.map .line ++ (p.part.rest
            ++ Residual.handle ⟨.plunge, p.part.plunges.length⟩ :: left.map .line)⟩ := by
  obtain ⟨taken, left, rfl, hheader⟩ := plungesFrom_header hfinish
  refine ⟨taken, left, rfl, ?_⟩
  have hquiet : ∀ l ∈ Line.comment Marker.retract :: .move rise :: (taken ++ left),
      l.kind ≠ .cut := by
    intro l hl
    rw [List.mem_cons, List.mem_cons] at hl
    rcases hl with rfl | rfl | hl
    · exact (Line.kind_retract (α := α)).trans_ne (by simp)
    · simp
    · exact hfinish.kind_ne (by simp) (by simp) l hl
  have hrise : ∀ rest : Residue α, taken? (some .started) (.line (.move rise)) rest
      = some (⟨.move rise, some .retract⟩, .header) := fun _ => rfl
  rw [part, extractCuts, cutsFrom_append_outside hcut, Line.retract,
    cutsFrom_append_comment hquiet p]
  dsimp only
  rw [extractPlunges, plungesFrom_append_lines hretract, ← Line.retract, List.map_cons,
    plungesFrom_append_retract, List.map_cons, plungesFrom_retract rfl Line.kind_retract,
    plungesFrom_taken (hrise _), hheader]
  simp [part, extractCuts, extractPlunges, trailedRise, lastRise]

/-! ## Putting together -/

section

variable {cuts : List (CutBlock α)} {plunges : List (PlungeBlock α)}

/-- Handles in order are replaced in the same way if there are more plunges, and what comes after
them is put together from where they leave off. -/
theorem placeFrom_append {more : List (PlungeBlock α)} {m n : Nat} {s t u : Placing α}
    {r rest : Residue α} {p q : Program α} (h : InOrder cuts.length plunges.length m n r)
    (hs : s.Upto m n) (hp : (placeFrom cuts plunges s r).outcome = .ok (t, p))
    (hq : (placeFrom cuts (plunges ++ more) t rest).outcome = .ok (u, q)) :
    (placeFrom cuts (plunges ++ more) s (r ++ rest)).outcome = .ok (u, p ++ q) := by
  induction h generalizing s p with
  | done =>
      cases hp
      exact hq
  | line l _ ih =>
      rw [placeFrom_line, Report.outcome_bind_eq_ok] at hp
      obtain ⟨⟨t', p'⟩, hrest, htp⟩ := hp
      cases htp
      rw [List.cons_append, placeFrom_line, Report.outcome_bind (ih hs hrest)]
      rfl
  | cut h ih =>
      obtain ⟨b, hb⟩ := h.cut_eq_some
      rw [placeFrom_cut hs hb, Report.outcome_bind_eq_ok] at hp
      obtain ⟨⟨t', p'⟩, hrest, htp⟩ := hp
      cases htp
      rw [List.cons_append, placeFrom_cut hs hb, Report.outcome_bind (ih (hs.cut _) hrest),
        List.append_assoc]
      rfl
  | @plunge m n r h ih =>
      obtain ⟨b, hb⟩ := h.plunge_eq_some
      have hb' : (plunges ++ more)[n]? = some b := by
        rw [List.getElem?_append_left h.plunge_le]
        exact hb
      rw [placeFrom_plunge hs hb, Report.outcome_bind_eq_ok] at hp
      obtain ⟨ls, hls, hp⟩ := hp
      rw [Report.outcome_bind_eq_ok] at hp
      obtain ⟨⟨t', p'⟩, hrest, htp⟩ := hp
      cases htp
      rw [List.cons_append, placeFrom_plunge hs hb', Report.outcome_bind hls,
        Report.outcome_bind (ih (hs.plunge _) hrest), List.append_assoc]
      rfl

end

end WireErosion
