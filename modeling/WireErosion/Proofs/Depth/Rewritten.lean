import WireErosion.Proofs.Depth.Findings
import WireErosion.Proofs.Number.Order
import WireErosion.Proofs.Toolpath.RoundTrip

/-!
# Writing hides rises and makes none

A program is read from its text with the same comments, and with depths that are in order only if
the depths before were (`Double.lt_of_reread_lt`).  A depth may be left out, and then nothing is
compared with it.  Under such a relation of depths (`RisesBack`) two programs line up, and by
induction over them the lines where the second one rises are some of the lines where the first one
does (`Program.lines_rises_sublist`).  So no rise is found in a program that was written and read
but on a line where one was found before (`Program.findsRise_of_reread`).

This asks that every comment is one line that does not start with an opcode.  Then it is read as
itself, and nothing else is (`Line.steadyComment_iff`).
-/

namespace WireErosion

variable {α : Type}

/-! ## Related depths -/

/-- The second depth is related to the first one, or left out. -/
def DepthBy (R : α → α → Prop) (z z' : Option α) : Prop := ∀ b ∈ z', ∃ a ∈ z, R a b

theorem depthBy_none (R : α → α → Prop) (z : Option α) : DepthBy R z none := by
  rintro b ⟨⟩

/-- Comments with one text, or moves with related depths. -/
inductive DepthsBy (R : α → α → Prop) : Line α → Line α → Prop
  | comment (t : String) : DepthsBy R (.comment t) (.comment t)
  | move {m m' : Move α} : DepthBy R m.z m'.z → DepthsBy R (.move m) (.move m')

theorem DepthsBy.kind {R : α → α → Prop} {l l' : Line α} (h : DepthsBy R l l') :
    l'.kind = l.kind := by
  cases h <;> rfl

section

variable [Scalar α] {R : α → α → Prop} {p q : Program α}

/-- Depths that are related to others rise only where those rise. -/
def RisesBack (R : α → α → Prop) : Prop :=
  ∀ {a a' b b' : α}, R a a' → R b b' → a' < b' → a < b

theorem lines_riseAt?_sublist (hR : RisesBack R) (i : Nat) {before before' : Option α}
    (hbefore : DepthBy R before before') {m m' : Move α} (hz : DepthBy R m.z m'.z) :
    ((riseAt? i before' m').toList.map Rise.line).Sublist
      ((riseAt? i before m).toList.map Rise.line) := by
  unfold riseAt?
  split
  next a' b' hb' =>
    obtain ⟨a, ha, haR⟩ := hbefore a' rfl
    obtain ⟨b, hb, hbR⟩ := hz b' hb'
    rw [Option.mem_def.mp ha, Option.mem_def.mp hb]
    dsimp only
    split
    next hlt =>
      rw [if_pos (hR haR hbR hlt)]
      exact .refl _
    next => exact List.nil_sublist _
  next => exact List.nil_sublist _

/-- The lines where related programs rise, by induction over both. -/
theorem lines_risesFrom_sublist (hR : RisesBack R) (h : List.Forall₂ (DepthsBy R) p q) :
    ∀ (i : Nat) {before before' : Option α}, DepthBy R before before' →
      ((risesFrom i before' q).map Rise.line).Sublist ((risesFrom i before p).map Rise.line) := by
  induction h with
  | nil => exact fun _ _ _ _ => .slnil
  | cons hl _ ih =>
      intro i before before' hbefore
      cases hl with
      | comment t =>
          refine ih (i + 1) ?_
          split
          · exact depthBy_none R none
          · exact hbefore
      | move hz =>
          rw [risesFrom, risesFrom, List.map_append, List.map_append]
          exact (lines_riseAt?_sublist hR i hbefore hz).append (ih (i + 1) hz)

namespace Program

theorem lines_rises_sublist (hR : RisesBack R) (h : List.Forall₂ (DepthsBy R) p q) :
    (q.rises.map Rise.line).Sublist (p.rises.map Rise.line) := by
  unfold rises
  rcases bodyFrom_forall₂ DepthsBy.kind h 0 with ⟨hp, hq⟩ | ⟨j, body, body', hp, hq, hbody⟩
  · rw [hp, hq]
  · rw [hp, hq]
    exact lines_risesFrom_sublist hR hbody j (depthBy_none R none)

/-- The depth check finds a rise on a line, if it reports enough of them. -/
def FindsRise (p : Program α) (n : Nat) : Prop :=
  ∃ most check r, (checkDepth most p).outcome = .ok check ∧ r ∈ check.reported ∧ r.line = n

theorem findsRise_iff {n : Nat} : p.FindsRise n ↔ n ∈ p.rises.map Rise.line := by
  rw [List.mem_map]
  constructor
  · rintro ⟨most, check, r, hcheck, hr, hline⟩
    rw [outcome_checkDepth_eq] at hcheck
    cases hcheck
    exact ⟨r, List.mem_of_mem_take hr, hline⟩
  · rintro ⟨r, hr, hline⟩
    refine ⟨p.rises.length, _, r, outcome_checkDepth_eq _ p, ?_, hline⟩
    rwa [Int.toNat_natCast, List.take_length]

end Program

end

/-! ## Comments -/

namespace Line

open Text (IsLine)

/-- A text is one line and does not start with an opcode. -/
structure IsNoMove (text : String) : Prop where
  /-- The text is one line. -/
  isLine : IsLine text.toList
  /-- Its first word is no opcode. -/
  opcode : ∀ w ∈ (Text.fields text.toList).head?, Motion.ofOpcode? w = none

/-- Such a text is read as the comment that it is, and no other one. -/
theorem steadyComment_iff {text : String} : SteadyComment text ↔ IsNoMove text := by
  constructor
  · rintro ⟨hline, hdecode⟩
    refine ⟨hline, fun w hw => ?_⟩
    rw [Line.decode, trimEnd_of_isLine hline, String.ofList_toList] at hdecode
    cases hfields : Text.fields text.toList with
    | nil =>
        rw [hfields] at hw
        cases hw
    | cons opcode words =>
        rw [hfields] at hw hdecode
        obtain rfl : opcode = w := Option.some.inj hw
        cases hmotion : Motion.ofOpcode? opcode with
        | none => rfl
        | some motion =>
            -- Then the text would be read as a move.
            obtain ⟨m, hm⟩ := exists_takeWords text words { motion }
            have hmove := congrArg Report.outcome hdecode
            simp only [hmotion] at hmove
            rw [Report.outcome_bind hm] at hmove
            cases hmove
  · rintro ⟨hline, hopcode⟩
    refine ⟨hline, ?_⟩
    rw [Line.decode, trimEnd_of_isLine hline, String.ofList_toList]
    cases hfields : Text.fields text.toList with
    | nil => rfl
    | cons opcode words =>
        rw [hfields] at hopcode
        simp only [hopcode opcode rfl]

end Line

/-! ## Programs -/

namespace Program

/-- Every comment is one line that does not start with an opcode. -/
def KeepsComments (p : Program Float) : Prop := ∀ t, .comment t ∈ p → Line.IsNoMove t

theorem keepsComments_iff {p : Program Float} : p.KeepsComments ↔ ∀ l ∈ p, l.Steady := by
  constructor
  · intro h l hl
    cases l with
    | move m => trivial
    | comment t => exact Line.steadyComment_iff.mpr (h t hl)
  · intro h t ht
    exact Line.steadyComment_iff.mp (h _ ht)

theorem keepsComments_parse {text : String} {p : Program Float}
    (h : (parse text).outcome = .ok p) : p.KeepsComments := by
  obtain ⟨q, hq, hsteady⟩ := exists_parse text
  obtain rfl : q = p := Except.ok.inj (hq.symm.trans h)
  exact keepsComments_iff.mpr hsteady

theorem keepsComments_compile {c : ToolpathParams Float} {paths : List (CamPath Float)}
    {p : Program Float} (h : c.compile paths = .ok p) : p.KeepsComments :=
  fun _ ht => Line.steadyComment_iff.mp (ToolpathParams.comment_of_compile h ht).1

end Program

/-- A depth is the one that is read from the text of another depth. -/
def RereadAs (places : ℕ) (v v' : Float) : Prop := v' = Double.reread places v

theorem risesBack_rereadAs (places : ℕ) : RisesBack (RereadAs places) := by
  rintro a _ b _ rfl rfl h
  exact Double.lt_of_reread_lt h

theorem Line.ReadAs.depthsBy {places : ℕ} {l l' : Line Float} (h : l.ReadAs places l') :
    DepthsBy (RereadAs places) l l' := by
  cases h with
  | comment t => exact .comment t
  | @move m m' hm =>
      refine .move fun b hb => ?_
      obtain ⟨a, ha, hread⟩ := hm.z.exists_number hb
      exact ⟨a, ha, hread.legible.2⟩

/-- A descent that goes up by less than is written, and by more at the end. -/
def faintRise : Program Float :=
  [.rapidToStart, .move (.linear none none (some (-1.0004)) none none),
    .move (.linear none none (some (-1.0003)) none none),
    .move (.linear none none (some 0) none none)]

/-- The text of the descent with three decimal places. -/
def faintText : String :=
  "; Rapid to initial position\r\nG1 Z-1.000\r\nG1 Z-1.000\r\nG1 Z0.000\r\n"

theorem format_faintRise : faintRise.format 3 = .ok faintText := by decide +kernel

theorem keepsComments_faintRise : faintRise.KeepsComments := by
  have hmarker : Text.IsPrinted Marker.rapidToStart.toList := by decide
  intro t ht
  obtain rfl : t = Marker.rapidToStart := by simpa [faintRise, Line.rapidToStart] using ht
  exact Line.steadyComment_iff.mp (Line.steadyComment_of_semicolon rfl hmarker.isLine)

/-- The first rise is not found in what is read from the text. -/
theorem faintRise_hidden : ∃ q, (Program.parse faintText).outcome = .ok q ∧
    faintRise.FindsRise 2 ∧ ¬ q.FindsRise 2 := by
  refine ⟨[.rapidToStart, .move (.linear none none (some (-1)) none none),
    .move (.linear none none (some (-1)) none none),
    .move (.linear none none (some 0) none none)], rfl, ?_, ?_⟩ <;>
  · rw [Program.findsRise_iff]
    decide +kernel

/-- A program whose comments are lines that start with no opcode, as a parsed or a compiled one,
can be written with some decimal places unless they are too many for a number in it, or a number
with a sign is not legible.  The depth check finds no rise in what is read from the text but on a
line where it finds one in the program.  It may find fewer. -/
theorem Program.findsRise_of_reread :
    (∀ text p, (parse text).outcome = .ok p → p.KeepsComments) ∧
    (∀ (c : ToolpathParams Float) paths p, c.compile paths = .ok p → p.KeepsComments) ∧
    (∀ p : Program Float, p.KeepsComments → ∀ places : ℕ,
      ((∃ written, p.format places = .ok written) ↔
        ∀ l ∈ p, ∀ v ∈ l.decimals, Double.Writable places v) ∧
      ∀ written, p.format places = .ok written →
        ∃ q, (parse written).outcome = .ok q ∧ ∀ n, q.FindsRise n → p.FindsRise n) ∧
    ∃ (p : Program Float) (places : ℕ) (written : String) (q : Program Float) (n : ℕ),
      p.KeepsComments ∧ p.format places = .ok written ∧ (parse written).outcome = .ok q ∧
        p.FindsRise n ∧ ¬ q.FindsRise n := by
  refine ⟨fun _ _ => keepsComments_parse, fun _ _ _ => keepsComments_compile, ?_, ?_⟩
  · intro p hp places
    refine ⟨exists_format_iff (Int.natCast_nonneg places), fun written hwritten => ?_⟩
    obtain ⟨q, hq, -, hpq⟩ := parse_format (keepsComments_iff.mp hp) hwritten
    refine ⟨q, hq, fun n => ?_⟩
    rw [findsRise_iff, findsRise_iff]
    have hdepths := hpq.imp fun _ _ => Line.ReadAs.depthsBy
    exact fun hn => (lines_rises_sublist (risesBack_rereadAs places) hdepths).subset hn
  · obtain ⟨q, hq, hfound, hhidden⟩ := faintRise_hidden
    exact ⟨faintRise, 3, faintText, q, 2, keepsComments_faintRise, format_faintRise, hq, hfound,
      hhidden⟩

/-- A program with a rise that is lost in rounding is written, and its text has no other rise. -/
theorem findsRise_of_reread_faintRise : faintRise.KeepsComments ∧
    faintRise.format 3 = .ok faintText ∧ ∃ q, (Program.parse faintText).outcome = .ok q ∧
      ∀ n, q.FindsRise n → faintRise.FindsRise n := by
  obtain ⟨-, -, hread, -⟩ := Program.findsRise_of_reread
  exact ⟨keepsComments_faintRise, format_faintRise,
    (hread faintRise keepsComments_faintRise 3).2 faintText format_faintRise⟩

end WireErosion
