import WireErosion.Operation.Header
import WireErosion.Proofs.Outcome
import WireErosion.Proofs.Program.Markers
import WireErosion.Wear.Seating

/-!
# Summaries and staged plunges

A summary is a list of comments without a marker, then the statement of the wear ratio and the empty
comment that closes it.  The summary of an operation is one, whatever its numbers are
(`Operation.isSummary_header`).  In a program that starts with a summary the staged plunges come
right after it (`outcome_stagePlunges`).
-/

namespace WireErosion

open Marker

/-- A summary of parameters. -/
def IsSummary {α : Type} (p : Program α) : Prop :=
  ∃ (pre : Program α) (t : String), p = pre ++ [.comment t, .comment ";"] ∧
    (∀ l ∈ pre, l.kind = .generic) ∧ Comment.kind t = .wearRatio

theorem IsSummary.kind {α : Type} {p : Program α} (h : IsSummary p) {l : Line α} (hl : l ∈ p) :
    l.kind = .generic ∨ l.kind = .wearRatio := by
  obtain ⟨pre, t, rfl, hpre, ht⟩ := h
  simp only [List.mem_append, List.mem_cons, List.not_mem_nil, or_false] at hl
  rcases hl with hl | rfl | rfl
  · exact .inl (hpre l hl)
  · exact .inr ht
  · have hruler : Comment.kind ";" = .generic := by decide
    exact .inl hruler

theorem IsSummary.kind_ne {α : Type} {p : Program α} (h : IsSummary p) {k : LineKind}
    (hgeneric : k ≠ .generic) (hratio : k ≠ .wearRatio) : ∀ l ∈ p, l.kind ≠ k := by
  intro l hl hk
  rcases h.kind hl with h | h
  · exact hgeneric (hk.symm.trans h)
  · exact hratio (hk.symm.trans h)

/-! ## The summary of an operation -/

theorem toList_row (label value : String) :
    ("; " ++ padded labelWidth label ++ value).toList
      = ("; " ++ label).toList
        ++ (List.replicate (labelWidth - label.length) ' ' ++ value.toList) := by
  simp [padded, String.toList_append]

/-- Whether the rows with a label are comments without a marker. -/
def isPlainLabel (label : String) : Bool :=
  clashes path.toList ("; " ++ label).toList
    && Marker.all.all fun m => clashes m.1.toList ("; " ++ label).toList

theorem kind_row {label : String} (h : isPlainLabel label = true) (value : String) :
    Comment.kind ("; " ++ padded labelWidth label ++ value) = .generic := by
  rw [isPlainLabel, Bool.and_eq_true, List.all_eq_true] at h
  exact Comment.kind_eq_generic (toList_row label value) h.1 h.2

/-- A comment with the front of the statement of the wear ratio is one. -/
theorem kind_eq_wearRatio {text : String} {rest : List Char}
    (htext : text.toList = wearRatio.toList ++ rest) : Comment.kind text = .wearRatio := by
  have hpath := pathDigits?_of_clashes htext (by decide)
  have hclash : ∀ m : String, clashes m.toList wearRatio.toList = true →
      (after? m.toList text.toList).isSome = false := by
    intro m hm
    rw [htext, after?_of_clashes _ _ _ hm]
    rfl
  have hratio : (after? wearRatio.toList text.toList).isSome = true := by
    rw [htext, after?_self_append]
    rfl
  rw [Comment.kind, hpath, Marker.all]
  simp [hratio, hclash retractForTab (by decide), hclash retract (by decide),
    hclash rapidToStart (by decide)]

theorem kind_ratioRow (value : String) :
    Comment.kind ("; " ++ padded labelWidth "Wear Ratio:" ++ value) = .wearRatio := by
  have hfront : ("; " ++ "Wear Ratio:").toList = wearRatio.toList := by decide
  have htext := toList_row "Wear Ratio:" value
  rw [hfront] at htext
  exact kind_eq_wearRatio htext

theorem Operation.isSummary_header (op : Operation Float) (index paths : Int) (unit : FeedUnit) :
    IsSummary (op.header index paths unit) := by
  refine ⟨[Line.blank, Line.comment ";"] ++ (op.summaryRows index paths unit).dropLast.map
      (fun row => Line.comment ("; " ++ padded labelWidth row.1 ++ row.2)),
    "; " ++ padded labelWidth "Wear Ratio:" ++ summaryNumber op.wearRatio, rfl, ?_,
    kind_ratioRow _⟩
  intro l hl
  rw [List.mem_append, List.mem_map] at hl
  rcases hl with hl | ⟨⟨label, value⟩, hrow, rfl⟩
  · simp only [List.mem_cons, List.not_mem_nil, or_false] at hl
    rcases hl with rfl | rfl
    · exact Line.kind_blank
    · exact (by decide : Comment.kind ";" = .generic)
  · have hlabels : ((op.summaryRows index paths unit).dropLast.map Prod.fst).all isPlainLabel
        = true := by
      have hnames : (op.summaryRows index paths unit).dropLast.map Prod.fst
          = ["Operation:", "Type:", "Paths:", "Direction:", "Rapid Z:", "Start Z:", "End Z:",
            "Pass Depth:", "Plunge rate:", "Cut rate:"] := rfl
      rw [hnames]
      decide
    have hlabel := List.all_eq_true.mp hlabels label (List.mem_map_of_mem hrow)
    exact kind_row hlabel value

/-! ## Staging -/

section

variable {α : Type}

/-- Staged copies have no travel markers. -/
theorem kind_seatingLines {plunges : List (PlungeBlock α)} {l : Line α}
    (h : l ∈ seatingLines plunges) : l.kind ≠ .rapidToStart := by
  rw [seatingLines, List.mem_flatMap] at h
  obtain ⟨b, -, hl⟩ := h
  split at hl
  · have hstaged := (List.mem_filter.mp hl).2
    cases l with
    | move m => simp
    | comment t =>
        intro hkind
        rw [Line.kind] at hkind
        simp [isStaged, hkind] at hstaged
  · cases hl

theorem ratioLinesFrom_append {pre p : Program α} (hpre : ∀ l ∈ pre, l.kind ≠ .wearRatio) :
    ∀ i : Nat, ratioLinesFrom i (pre ++ p) = ratioLinesFrom (i + pre.length) p := by
  induction pre with
  | nil => exact fun i => rfl
  | cons l pre ih =>
      intro i
      have hl := hpre l (List.mem_cons_self ..)
      rw [List.cons_append, ratioLinesFrom, if_neg hl,
        ih (fun l h => hpre l (List.mem_cons_of_mem _ h)), List.length_cons]
      congr 1
      omega

/-- After a summary the copies come at its end. -/
theorem outcome_stagePlunges {summary : Program α} (h : IsSummary summary) (p : Program α)
    (plunges : List (PlungeBlock α)) :
    (stagePlunges (summary ++ p) plunges).outcome
      = .ok (summary ++ seatingLines plunges ++ p) := by
  obtain ⟨pre, t, rfl, hpre, ht⟩ := h
  have hother : ∀ l ∈ pre, l.kind ≠ .wearRatio := fun l hl => by rw [hpre l hl]; simp
  have hratio : ratioLinesFrom 0 (pre ++ [Line.comment t, Line.comment ";"] ++ p)
      = pre.length :: ratioLinesFrom (pre.length + 1) (.comment ";" :: p) := by
    have hkind : (Line.comment t : Line α).kind = .wearRatio := ht
    rw [List.append_assoc, ratioLinesFrom_append hother, Nat.zero_add, List.cons_append,
      ratioLinesFrom, if_pos hkind]
    rfl
  have hplace : afterRatio (pre ++ [Line.comment t, Line.comment ";"] ++ p) pre.length
      = (pre ++ [Line.comment t, Line.comment ";"]).length := by
    have hnext : (pre ++ [Line.comment t, Line.comment ";"] ++ p)[pre.length + 1]?
        = some (Line.comment ";") := by simp
    have hruler : isRuler (.comment ";" : Line α) = true := by
      rw [isRuler]
      decide
    rw [afterRatio, hnext]
    simp [hruler]
  rw [stagePlunges, stagingPlace?, hratio]
  dsimp only
  rw [Report.outcome_bind (b := some (pre ++ [Line.comment t, Line.comment ";"]).length) ?_]
  · rw [Report.outcome_of, List.take_left, List.drop_left]
  · rw [hplace, Report.outcome_bind (Report.outcome_tellAll _)]
    rfl

end

end WireErosion
