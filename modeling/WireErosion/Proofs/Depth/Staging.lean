import WireErosion.Proofs.Depth.Findings
import WireErosion.Proofs.Operation.Result
import WireErosion.Proofs.Residue.Frame
import WireErosion.Proofs.Wear.Regroup

/-!
# Staged plunges and the depth check

The depth check starts at the first travel marker, and neither the staged copies of plunges nor the
lines in front of them have one if their anchor comes before it.  So the check of a program with
staged plunges finds what it finds without them, on lines that come later by as many as were put in
(`checksLater_insert`).

The anchor is the first statement of the wear ratio, or in a program without one the first marker of
the path zero (`Program.AnchorsAfter`).  The copies go right before it or after it, and then also
after an empty comment, which is no travel marker either (`exists_split_of_stagePlunges`).

The program of an operation starts with its summary, which states the wear ratio and has no markers.
It goes through wear compensation as it is (`Program.exists_body_of_summary`), so it does not matter
what the hooks hold.
-/

namespace WireErosion

variable {α : Type}

/-! ## Later lines -/

/-- A rise, `k` lines later. -/
def Rise.later (k : Nat) (r : Rise α) : Rise α := { r with line := r.line + k }

/-- A depth check that finds everything `k` lines later. -/
def DepthCheck.later (k : Nat) (c : DepthCheck α) : DepthCheck α :=
  { c with reported := c.reported.map (Rise.later k) }

/-- A notice of the depth check, `k` lines later. -/
def Notice.later (k : Nat) : Notice α → Notice α
  | .depthRises line before after => .depthRises (line + k) before after
  | n => n

/-- The depth check of a program finds what that of another one finds, `k` lines later. -/
def ChecksLater [Scalar α] (k : Nat) (p q : Program α) : Prop :=
  ∀ most : Int, ∃ check, (checkDepth most p).outcome = .ok check ∧
    (checkDepth most q).outcome = .ok (check.later k) ∧
    (checkDepth most q).notices = (checkDepth most p).notices.map (Notice.later k)

theorem bodyFrom_later (k : Nat) : ∀ (p : Program α) (i : Nat),
    bodyFrom (i + k) p = (bodyFrom i p).map fun (j, body) => (j + k, body)
  | [], _ => rfl
  | l :: ls, i => by
      have hnext : i + k + 1 = i + 1 + k := by omega
      rw [bodyFrom, bodyFrom, hnext]
      split
      · rfl
      · exact bodyFrom_later k ls (i + 1)

theorem riseNotices_later (k : Nat) (most : Int) (count : Nat) (rises : List (Rise α)) :
    riseNotices most count (rises.map (Rise.later k))
      = (riseNotices most count rises).map (Notice.later k) := by
  rw [riseNotices, riseNotices, List.map_append, List.map_map, List.map_map]
  congr 1
  split <;> rfl

section

variable [Scalar α]

theorem riseAt?_later (k i : Nat) (before : Option α) (m : Move α) :
    riseAt? (i + k) before m = (riseAt? i before m).map (Rise.later k) := by
  unfold riseAt?
  split
  · split <;> rfl
  · rfl

theorem risesFrom_later (k : Nat) : ∀ (p : Program α) (i : Nat) (before : Option α),
    risesFrom (i + k) before p = (risesFrom i before p).map (Rise.later k)
  | [], _, _ => rfl
  | .comment _ :: ls, i, _ => by
      have hnext : i + k + 1 = i + 1 + k := by omega
      rw [risesFrom, risesFrom, hnext]
      exact risesFrom_later k ls (i + 1) _
  | .move m :: ls, i, before => by
      have hnext : i + k + 1 = i + 1 + k := by omega
      rw [risesFrom, risesFrom, hnext, riseAt?_later, risesFrom_later k ls, List.map_append]
      cases riseAt? i before m <;> rfl

/-- Lines without a travel marker, put in where none came before, only move what is found. -/
theorem checksLater_insert {front lines : Program α} (hfront : ∀ l ∈ front, l.kind ≠ .rapidToStart)
    (hlines : ∀ l ∈ lines, l.kind ≠ .rapidToStart) (back : Program α) :
    ChecksLater lines.length (front ++ back) (front ++ lines ++ back) := by
  intro most
  have hbody : bodyFrom 0 (front ++ lines ++ back)
      = (bodyFrom 0 (front ++ back)).map fun (j, body) => (j + lines.length, body) := by
    have hquiet : ∀ l ∈ front ++ lines, l.kind ≠ .rapidToStart :=
      List.forall_mem_append.mpr ⟨hfront, hlines⟩
    rw [bodyFrom_append_front hquiet, bodyFrom_append_front hfront, List.length_append,
      ← Nat.add_assoc, bodyFrom_later]
  unfold checkDepth
  rw [hbody]
  cases bodyFrom 0 (front ++ back) with
  | none => exact ⟨_, rfl, rfl, rfl⟩
  | some found =>
      obtain ⟨j, body⟩ := found
      simp only [Option.map_some, risesFrom_later, List.length_map, ← List.map_take,
        riseNotices_later]
      refine ⟨_, Report.outcome_bind (Report.outcome_tellAll _),
        Report.outcome_bind (Report.outcome_tellAll _), ?_⟩
      simp [Report.bind, Report.tellAll, Report.of]

end

/-! ## The anchor -/

/-- Whether a line is a marker of the path zero. -/
def Line.IsPathZero : Line α → Prop
  | .comment t => Comment.pathIndex t = .ok (some 0)
  | .move _ => False

/-- The line that staged copies are anchored at comes right after some lines.  It is the first
statement of the wear ratio, or in a program without one the first marker of the path zero. -/
def Program.AnchorsAfter (p pre : Program α) : Prop :=
  ∃ l post, p = pre ++ l :: post ∧
    (l.kind = .wearRatio ∧ (∀ k ∈ pre, k.kind ≠ .wearRatio) ∨
      l.IsPathZero ∧ (∀ k ∈ pre, ¬ k.IsPathZero) ∧ ∀ k ∈ p, k.kind ≠ .wearRatio)

/-- Something that stays is not cut off. -/
theorem Text.mem_trim {p : Char → Bool} {cs : List Char} {c : Char} (hc : c ∈ cs)
    (hp : p c = false) : c ∈ trim p cs := by
  have hdrop : ∀ {ds : List Char}, c ∈ ds → c ∈ ds.dropWhile p := by
    intro ds hd
    rw [← List.takeWhile_append_dropWhile (p := p) (l := ds), List.mem_append] at hd
    refine hd.resolve_left fun htake => ?_
    exact Bool.false_ne_true (hp.symm.trans (List.all_eq_true.mp List.all_takeWhile c htake))
  rw [trim, List.mem_reverse]
  exact hdrop (List.mem_reverse.mpr (hdrop hc))

open Marker in
theorem Marker.eq_append_of_after? : ∀ {ps cs rest : List Char}, after? ps cs = some rest →
    cs = ps ++ rest
  | [], _, _, h => Option.some.inj h
  | _ :: _, [], _, h => nomatch h
  | p :: ps, c :: cs, rest, h => by
      rw [after?] at h
      split at h
      next heq => rw [heq, eq_append_of_after? h, List.cons_append]
      next => cases h

/-- A travel marker starts with its text. -/
theorem Comment.exists_toList_of_kind {t : String} (h : Comment.kind t = .rapidToStart) :
    ∃ rest, t.toList = Marker.rapidToStart.toList ++ rest := by
  rw [Comment.kind] at h
  split at h
  next => cases h
  next =>
    split at h
    next m hm =>
      have hmarker := List.find?_some hm
      have hall := List.mem_of_find?_eq_some hm
      obtain ⟨rest, hrest⟩ := Option.isSome_iff_exists.mp hmarker
      simp only [Marker.all, List.mem_cons, List.not_mem_nil, or_false] at hall
      rcases hall with rfl | rfl | rfl | rfl | rfl | rfl | rfl <;> cases h
      exact ⟨rest, Marker.eq_append_of_after? hrest⟩
    next => cases h

/-- A travel marker is not an empty comment. -/
theorem Line.isRuler_of_kind {l : Line α} (h : l.kind = .rapidToStart) : isRuler l = false := by
  cases l with
  | move m => rfl
  | comment t =>
      obtain ⟨rest, htext⟩ := Comment.exists_toList_of_kind h
      have hletter : 'R' ∈ Text.trim Text.isBlank t.toList :=
        Text.mem_trim (by rw [htext]; exact List.mem_append_left _ (by decide)) (by decide)
      rw [isRuler, beq_eq_false_iff_ne]
      intro htrim
      rw [htrim] at hletter
      exact absurd hletter (by decide)

/-! ## The place of the copies -/

theorem pathZeroFrom_append {pre : Program α} (hpre : ∀ k ∈ pre, ¬ k.IsPathZero) (p : Program α) :
    ∀ {i : Nat} {place : Option Nat}, pathZeroFrom i (pre ++ p) = .ok place →
      pathZeroFrom (i + pre.length) p = .ok place := by
  induction pre with
  | nil => exact fun h => h
  | cons l pre ih =>
      intro i place h
      obtain ⟨hl, hpre⟩ := List.forall_mem_cons.mp hpre
      have hnext : i + (l :: pre).length = i + 1 + pre.length := by
        rw [List.length_cons]
        omega
      rw [hnext]
      refine ih hpre ?_
      cases l with
      | move m => exact h
      | comment t =>
          rw [List.cons_append, pathZeroFrom, Fault.bind_eq_ok] at h
          obtain ⟨index, hindex, h⟩ := h
          have hother : index ≠ some 0 := by
            rintro rfl
            exact hl hindex
          rwa [if_neg hother] at h

theorem ratioLinesFrom_eq_nil {p : Program α} (hp : ∀ k ∈ p, k.kind ≠ .wearRatio) (i : Nat) :
    ratioLinesFrom i p = [] := by
  have happend := ratioLinesFrom_append (p := []) hp i
  rwa [List.append_nil] at happend

/-- The place after a statement of the wear ratio has no travel marker in front of it if there was
none before the statement. -/
theorem exists_split_afterRatio {pre : Program α} {l : Line α}
    (hpre : ∀ k ∈ pre, k.kind ≠ .rapidToStart) (hl : l.kind ≠ .rapidToStart) (post : Program α) :
    ∃ front back, pre ++ l :: post = front ++ back ∧
      afterRatio (pre ++ l :: post) pre.length = front.length ∧
      ∀ k ∈ front, k.kind ≠ .rapidToStart := by
  have hquiet : ∀ k ∈ pre ++ [l], k.kind ≠ .rapidToStart :=
    List.forall_mem_append.mpr ⟨hpre, List.forall_mem_singleton.mpr hl⟩
  have hplain : afterRatio (pre ++ l :: post) pre.length = pre.length + 1 →
      ∃ front back, pre ++ l :: post = front ++ back ∧
        afterRatio (pre ++ l :: post) pre.length = front.length ∧
        ∀ k ∈ front, k.kind ≠ .rapidToStart :=
    fun hplace => ⟨pre ++ [l], post, by simp, by simp [hplace], hquiet⟩
  cases post with
  | nil => exact hplain (by simp [afterRatio])
  | cons r post =>
      cases hruler : isRuler r with
      | false => exact hplain (by simp [afterRatio, hruler])
      | true =>
          have hr : r.kind ≠ .rapidToStart := fun hkind =>
            Bool.false_ne_true ((Line.isRuler_of_kind hkind).symm.trans hruler)
          refine ⟨pre ++ [l] ++ [r], post, by simp, by simp [afterRatio, hruler], ?_⟩
          exact List.forall_mem_append.mpr ⟨hquiet, List.forall_mem_singleton.mpr hr⟩

/-- The copies come before or after their anchor, and no travel marker is in front of them if none
is in front of it. -/
theorem exists_split_of_stagePlunges {p pre q : Program α} {plunges : List (PlungeBlock α)}
    (hanchor : p.AnchorsAfter pre) (hpre : ∀ l ∈ pre, l.kind ≠ .rapidToStart)
    (h : (stagePlunges p plunges).outcome = .ok q) :
    ∃ front back, p = front ++ back ∧ q = front ++ seatingLines plunges ++ back ∧
      ∀ l ∈ front, l.kind ≠ .rapidToStart := by
  obtain ⟨place, hplace, hq⟩ := Report.outcome_bind_eq_ok.mp h
  -- What matters is where the copies come.
  suffices hfront : ∃ front back, p = front ++ back ∧ place = some front.length ∧
      ∀ l ∈ front, l.kind ≠ .rapidToStart by
    obtain ⟨front, back, rfl, rfl, hquiet⟩ := hfront
    dsimp only at hq
    rw [List.take_left, List.drop_left, Report.outcome_of] at hq
    exact ⟨front, back, rfl, (Except.ok.inj hq).symm, hquiet⟩
  obtain ⟨l, post, rfl, ⟨hratio, hfirst⟩ | ⟨hzero, hfirst, hnone⟩⟩ := hanchor
  · have hlines : ratioLinesFrom 0 (pre ++ l :: post)
        = pre.length :: ratioLinesFrom (pre.length + 1) post := by
      rw [ratioLinesFrom_append hfirst, Nat.zero_add, ratioLinesFrom, if_pos hratio]
    have hl : l.kind ≠ .rapidToStart := by
      rw [hratio]
      decide
    rw [stagingPlace?, hlines] at hplace
    dsimp only at hplace
    rw [Report.outcome_bind (Report.outcome_tellAll _), Report.outcome_of] at hplace
    obtain rfl := Except.ok.inj hplace
    obtain ⟨front, back, hsplit, hlength, hquiet⟩ := exists_split_afterRatio hpre hl post
    exact ⟨front, back, hsplit, by rw [hlength], hquiet⟩
  · rw [stagingPlace?, ratioLinesFrom_eq_nil hnone] at hplace
    have hzeroFrom := pathZeroFrom_append hfirst (l :: post) hplace
    cases l with
    | move m => exact hzero.elim
    | comment t =>
        rw [pathZeroFrom, show Comment.pathIndex t = .ok (some 0) from hzero] at hzeroFrom
        obtain rfl := Except.ok.inj hzeroFrom
        exact ⟨pre, .comment t :: post, rfl, by rw [Nat.zero_add], hpre⟩

/-! ## Operations -/

/-- A summary goes through the parting and the putting together of a program as it is. -/
theorem Program.exists_body_of_summary {summary p body : Program α} (hsummary : IsSummary summary)
    {cuts : List (CutBlock α)} {plunges : List (PlungeBlock α)}
    (h : (reassemble (Program.part (summary ++ p)).rest cuts plunges).outcome = .ok body) :
    ∃ rest, body = summary ++ rest := by
  rw [Program.part_summary hsummary] at h
  obtain ⟨t, ht⟩ := outcome_reassemble.mp h
  obtain ⟨rest, -, hbody⟩ := exists_placeFrom_lines ht
  exact ⟨rest, hbody⟩

/-- In a program that starts with a summary the anchor is in the summary. -/
theorem Program.exists_anchorsAfter {summary : Program α} (hsummary : IsSummary summary)
    (rest : Program α) : ∃ pre, Program.AnchorsAfter (summary ++ rest) pre ∧
      ∀ l ∈ pre, l.kind ≠ .rapidToStart := by
  obtain ⟨pre, t, rfl, hpre, ht⟩ := hsummary
  have hother : ∀ k, k ≠ .generic → ∀ l ∈ pre, l.kind ≠ k := by
    rintro k hk l hl rfl
    exact hk (hpre l hl)
  refine ⟨pre, ⟨.comment t, .comment ";" :: rest, by simp, .inl ⟨ht, ?_⟩⟩, ?_⟩
  · exact hother .wearRatio (by decide)
  · exact hother .rapidToStart (by decide)

/-- The program of an operation starts with its summary. -/
theorem Operation.exists_of_assemble [Scalar α] {op : Operation α} {w : Workshop α}
    {summary p : Program α} {before after : Report α (Program α)} {paths : List (CamPath α)}
    (h : (op.assemble w summary before after paths).outcome = .ok p) :
    ∃ rest, p = summary ++ rest := by
  simp only [Operation.assemble, Report.bind_eq, Report.outcome_bind_eq_ok] at h
  obtain ⟨start, -, body, -, finish, -, hp⟩ := h
  exact ⟨start ++ body ++ finish, by rw [← Except.ok.inj hp]; simp only [List.append_assoc]⟩

/-- Staging plunges never disturbs the depth check.  If the anchor of the copies comes before the
first travel marker, the check of the program with the copies finds what it finds without them, on
lines that come later by as many as were put in.  In a run with wear compensation that is so of the
body, whatever the hooks are. -/
theorem stagePlunges_checksLater :
    (∀ (α : Type) [Scalar α] (p pre q : Program α) (plunges : List (PlungeBlock α)),
      p.AnchorsAfter pre → (∀ l ∈ pre, l.kind ≠ .rapidToStart) →
        (stagePlunges p plunges).outcome = .ok q →
          q.length = p.length + (seatingLines plunges).length ∧
            ChecksLater (seatingLines plunges).length p q) ∧
    ∀ [Geometry] (op : Operation Float) (index : Int) (paths : List (CamPath Float))
      (tabs : Option Geometry.Region) (settings : Settings) (result : OperationResult FieldValue),
      settings.compensates = true → (op.run index paths tabs settings).outcome = .ok result →
        ∃ (w : Workshop Float) (assembled : Program Float) (body pre : Program FieldValue)
          (cuts : List (CutBlock FieldValue)) (plunges : List (PlungeBlock FieldValue))
          (check : DepthCheck FieldValue),
          op.Takes tabs paths settings w ∧
          (op.assemble w (op.header index paths.length w.unit) (Program.parse op.hookStart)
            (Program.parse op.hookEnd) paths).outcome = .ok assembled ∧
          assembled.values.part.cuts.mapM (CutBlock.compensate (op.wearValues settings w))
            = .ok cuts ∧
          assembled.values.part.plunges.mapM (PlungeBlock.refeed (op.wearValues settings w).feeds)
            = .ok plunges ∧
          (reassemble assembled.values.part.rest cuts plunges).outcome = .ok body ∧
          body.AnchorsAfter pre ∧ (∀ l ∈ pre, l.kind ≠ .rapidToStart) ∧
          (stagePlunges body plunges).outcome = .ok result.program ∧
          ChecksLater (seatingLines plunges).length body result.program ∧
          (checkDepth defaultReported body).outcome = .ok check ∧
          result.check = check.later (seatingLines plunges).length := by
  have hstaged : ∀ {α : Type} [Scalar α] {p pre q : Program α} {plunges : List (PlungeBlock α)},
      p.AnchorsAfter pre → (∀ l ∈ pre, l.kind ≠ .rapidToStart) →
        (stagePlunges p plunges).outcome = .ok q →
          q.length = p.length + (seatingLines plunges).length ∧
            ChecksLater (seatingLines plunges).length p q := by
    intro α _ p pre q plunges hanchor hpre hq
    obtain ⟨front, back, rfl, rfl, hfront⟩ := exists_split_of_stagePlunges hanchor hpre hq
    refine ⟨?_, checksLater_insert hfront (fun _ => kind_seatingLines) back⟩
    simp only [List.length_append]
    omega
  refine ⟨fun _ _ _ _ _ _ => hstaged, ?_⟩
  intro _ op index paths tabs settings result hcompensates hrun
  obtain ⟨-, w, assembled, htakes, hassembled, hresult⟩ := Operation.run_eq_ok.mp hrun
  obtain ⟨hprogram, hcheck⟩ := Program.toResult_eq_ok.mp hresult
  rw [if_pos hcompensates] at hprogram
  obtain ⟨cuts, plunges, body, hcuts, hplunges, hbody, hq⟩ := Program.stages_of_compensate hprogram
  have hsummary := (op.isSummary_header index paths.length w.unit).values
  obtain ⟨p, rfl⟩ := Operation.exists_of_assemble hassembled
  have hvalues : Program.values (op.header index paths.length w.unit ++ p)
      = (op.header index paths.length w.unit).values ++ p.values := List.map_append
  rw [hvalues] at hcuts hplunges hbody
  obtain ⟨rest, rfl⟩ := Program.exists_body_of_summary hsummary hbody
  obtain ⟨pre, hanchor, hpre⟩ := Program.exists_anchorsAfter hsummary rest
  have hlater := (hstaged hanchor hpre hq).2
  obtain ⟨check, hbefore, hafter, -⟩ := hlater defaultReported
  exact ⟨w, _, _, pre, cuts, plunges, check, htakes, hassembled, hvalues ▸ hcuts,
    hvalues ▸ hplunges, hvalues ▸ hbody, hanchor, hpre, hq, hlater, hbefore,
    Except.ok.inj (hcheck.symm.trans hafter)⟩

/-- An operation with a rise in its start hook, after markers of its own. -/
def hookedOperation : Operation Float :=
  { Operation.plain with
    hookStart := "; Path 0\n; Wear Ratio: 1\n; Rapid to initial position\nG1 Z-1\nG1 Z2" }

/-- A path of one side. -/
def shortPath : CamPath Float := ⟨[⟨0, 0, 0⟩, ⟨1, 0, 0⟩], false⟩

/-- A start hook that looks like a cutting body is not checked after the copies are put in. -/
theorem hookedOperation_checksLater : ∃ (result : OperationResult FieldValue)
    (body : Program FieldValue) (plunges : List (PlungeBlock FieldValue)),
    (hookedOperation.run 0 [shortPath] none {}).outcome = .ok result ∧
      (stagePlunges body plunges).outcome = .ok result.program ∧
      result.program.length = body.length + (seatingLines plunges).length ∧
      ChecksLater (seatingLines plunges).length body result.program := by
  have hrun : (hookedOperation.run 0 [shortPath] none {}).outcome.isOk = true := by decide +kernel
  obtain ⟨result, hresult⟩ := Fault.exists_eq_ok hrun
  obtain ⟨hstaged, hbody⟩ := stagePlunges_checksLater
  obtain ⟨-, -, body, pre, -, plunges, -, -, -, -, -, -, hanchor, hpre, hq, -⟩ :=
    hbody hookedOperation 0 _ none {} result rfl hresult
  obtain ⟨hlength, hlater⟩ := hstaged _ body pre result.program plunges hanchor hpre hq
  exact ⟨result, body, plunges, hresult, hq, hlength, hlater⟩

end WireErosion
