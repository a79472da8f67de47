import WireErosion.Proofs.Operation.Result
import WireErosion.Proofs.Residue.Frame
import WireErosion.Proofs.Residue.Joining
import WireErosion.Proofs.Wear.Regroup

/-!
# Hooks

The hooks of an operation pass through untouched if none of their lines has a structural role.  The
program is the summary, the staged copies, the start hook, the body and the end hook
(`Operation.run_hooks`), and the copies and the body do not depend on the hooks
(`Operation.Lays`).

The body starts and ends with a rise.  The first one keeps the start hook out of all blocks, and the
block of the last one takes no line from the end hook that it changes.
-/

namespace WireErosion

open Residue

variable {α : Type}

/-! ## Compiled programs -/

section

variable [Scalar α] {c : ToolpathParams α}

/-- The groups of some paths are none, or the last one is a rise. -/
theorem ToolpathParams.EmitsPaths.ends {tabs : Option (Tabs α)} {i : Nat} {paths : List (CamPath α)}
    {parts : List (List (MoveGroup α))} (h : c.EmitsPaths tabs i paths parts) :
    parts.flatten = [] ∨ ∃ gs rise, parts.flatten = gs ++ [MoveGroup.retract rise] := by
  induction h with
  | done => exact .inl rfl
  | skip _ _ ih => exact ih
  | @path i path paths p ps passes parts m _ _ _ _ ih =>
      right
      rcases ih with hnil | ⟨gs, rise, hgs⟩
      · exact ⟨.header i :: passes.flatten, m, by simp [hnil]⟩
      · exact ⟨MoveGroup.header i :: passes.flatten ++ [.retract m] ++ gs, rise, by simp [hgs]⟩

/-- A compiled program starts with the marker of a rise, and it ends with a rise. -/
theorem ToolpathParams.ends_of_compile {paths : List (CamPath α)} {p : Program α}
    (h : c.compile paths = .ok p) :
    (∃ ls, p = .retract :: ls) ∧ ∃ front rise, p = front ++ [Line.retract, .move rise] := by
  obtain ⟨first, parts, rfl, -, hparts⟩ := exists_groups h
  refine ⟨⟨_, rfl⟩, ?_⟩
  rcases hparts.ends with hnil | ⟨gs, rise, hgs⟩
  · exact ⟨[], first, by rw [hnil]; rfl⟩
  · refine ⟨groupLines (.retract first :: gs), rise, ?_⟩
    rw [hgs, ← List.cons_append, groupLines_append]
    rfl

end

/-! ## Compensation -/

/-- The block of a rise and of lines that it takes, at its feed, is not staged, and goes back as the
rise and these lines wherever it comes. -/
theorem refeed_trailedRise (feeds : PlungeFeeds α) (rise : Move α) (taken : List (Line α)) :
    ∃ last, PlungeBlock.refeed feeds (trailedRise rise taken) = .ok last ∧ last.terminal? = none ∧
      ∀ after, last.resume after = .ok (lastRiseLines feeds rise ++ taken) := by
  have hroles : PlungeBlock.RolesOnMoves (trailedRise rise taken) := by
    intro step hstep hrole
    rcases List.mem_append.mp hstep with hstep | hstep
    · exact rolesOnMoves_lastRise rise step hstep hrole
    · obtain ⟨l, -, rfl⟩ := List.mem_map.mp hstep
      exact absurd rfl hrole
  have hlines : PlungeBlock.lines ((trailedRise rise taken).map (PlungeStep.refed feeds))
      = lastRiseLines feeds rise ++ taken := by
    simp [trailedRise, PlungeBlock.lines, lastRiseLines, PlungeStep.refed, Function.comp_def]
  have hterminal : PlungeBlock.terminal? ((trailedRise rise taken).map (PlungeStep.refed feeds))
      = none := by
    refine PlungeBlock.terminal?_eq_none ?_
    simp [trailedRise, lastRise, PlungeBlock.roles, PlungeStep.refed]
  refine ⟨_, PlungeBlock.refeed_eq feeds hroles, hterminal, fun after => ?_⟩
  cases after with
  | none => exact congrArg Except.ok hlines
  | some z => exact (PlungeBlock.withTerminalZ_of_none hterminal).trans (congrArg Except.ok hlines)

/-- Neither a summary nor a start hook without structure starts a block. -/
theorem Program.kind_ne_of_front {summary start : Program α} (hsummary : IsSummary summary)
    (hstart : start.Unstructured) {k : LineKind} (hmove : k ≠ .move) (hgeneric : k ≠ .generic)
    (hratio : k ≠ .wearRatio) : ∀ l ∈ summary ++ start, l.kind ≠ k := by
  intro l hl
  rcases List.mem_append.mp hl with hl | hl
  · exact hsummary.kind_ne hgeneric hratio l hl
  · exact hstart.kind_ne hmove hgeneric l hl

variable [Scalar α] {w : WearParams α}

namespace Program

section

variable {front : Program α}

/-- A program that ends with a rise, between lines that start no block and lines without structure,
becomes what it becomes by itself, between the same lines.  The copies are the same. -/
theorem recomposes_between {cuts : List (CutBlock α)}
    (hcuts : front.part.cuts.mapM (CutBlock.compensate w) = .ok cuts) (rise : Move α) :
    ∃ plunges body, ∀ {pre finish : Program α}, (∀ l ∈ pre, l.kind ≠ .cut) →
      (∀ l ∈ pre, l.kind ≠ .retract) → finish.Unstructured →
      ∃ plunges', seatingLines plunges' = seatingLines plunges ∧
        Recomposes w (pre ++ (front ++ Line.retract :: .move rise :: finish)) plunges'
          (pre ++ (body ++ finish)) := by
  obtain ⟨plunges, placed, t, hplunges, horder, hplaced, hupto⟩ := exists_placed hcuts
  refine ⟨plunges, placed ++ lastRiseLines w.feeds rise, ?_⟩
  intro pre finish hcut hretract hfinish
  obtain ⟨taken, left, rfl, hpart⟩ := part_between hcut hretract hfinish front rise
  obtain ⟨last, hlast, hterminal, hresume⟩ := refeed_trailedRise w.feeds rise taken
  refine ⟨plunges ++ [last], by simp [seatingLines, hterminal], cuts, ?_, ?_, ?_⟩
  · rw [hpart]
    exact hcuts
  · rw [hpart]
    exact Fault.mapM_eq_ok.mpr
      (List.rel_append (Fault.mapM_eq_ok.mp hplunges) (.cons hlast .nil))
  -- The block of the rise is the last one of the table, so all handles before its own find the same
  -- blocks as without it.
  · have hblock : (plunges ++ [last])[plunges.length]? = some last := by simp
    have hlength : front.part.plunges.length = plunges.length :=
      (Fault.mapM_eq_ok.mp hplunges).length_eq
    have hrise : (placeFrom cuts (plunges ++ [last]) t
        (.handle ⟨.plunge, plunges.length⟩ :: (left.map .line ++ []))).outcome
          = .ok (⟨⟨.plunge, plunges.length⟩ :: t.placed, t.afterCut⟩,
            lastRiseLines w.feeds rise ++ (taken ++ left)) := by
      have hleft : ∀ s : Placing α, (placeFrom cuts (plunges ++ [last]) s
          (left.map .line ++ [])).outcome = .ok (s, left ++ []) := fun s => placeFrom_lines left rfl
      rw [placeFrom_plunge hupto hblock, Report.outcome_bind (hresume _),
        Report.outcome_bind (hleft _)]
      simp
    rw [List.append_nil] at hrise
    have hrest := placeFrom_append horder Placing.upto_start hplaced hrise
    rw [hpart, hlength, List.append_assoc placed]
    exact outcome_reassemble.mpr ⟨_, placeFrom_lines pre hrest⟩

section

variable {summary start finish : Program α}

/-- If its cuts can be compensated, a program that ends with a rise is compensated to what it
becomes by itself, between the summary with the start hook and the end hook. -/
theorem exists_compensate_between {cuts : List (CutBlock α)}
    (hcuts : front.part.cuts.mapM (CutBlock.compensate w) = .ok cuts)
    (hsummary : IsSummary summary) (hstart : start.Unstructured) (hfinish : finish.Unstructured)
    (rise : Move α) :
    ∃ plunges body, Recomposes w (front ++ [Line.retract, .move rise]) plunges body ∧
      (Program.compensate w
          ((summary ++ start) ++ (front ++ Line.retract :: .move rise :: finish))).outcome
        = .ok (summary ++ seatingLines plunges ++ (start ++ body ++ finish)) := by
  have hcut : ∀ l ∈ summary ++ start, l.kind ≠ .cut :=
    kind_ne_of_front hsummary hstart (by simp) (by simp) (by simp)
  have hretract : ∀ l ∈ summary ++ start, l.kind ≠ .retract :=
    kind_ne_of_front hsummary hstart (by simp) (by simp) (by simp)
  obtain ⟨plunges, body, hbetween⟩ := recomposes_between hcuts rise
  -- By itself the program stands between no lines at all.
  obtain ⟨alone, hseats, halone⟩ := @hbetween [] [] (by simp) (by simp) .nil
  obtain ⟨plunges', hseats', hwhole⟩ := hbetween hcut hretract hfinish
  rw [List.nil_append, List.nil_append, List.append_nil] at halone
  refine ⟨alone, body, halone, compensate_eq_ok.mpr ⟨plunges', _, hwhole, ?_⟩⟩
  rw [List.append_assoc, outcome_stagePlunges hsummary, hseats', hseats]
  simp

/-- A program that ends with a rise, between a summary with a start hook and an end hook, both
without structure, is compensated to what it becomes by itself, between the same lines.  The
copies are staged right after the summary. -/
theorem compensate_between {q : Program α} {rise : Move α} (hsummary : IsSummary summary)
    (hstart : start.Unstructured) (hfinish : finish.Unstructured) :
    (Program.compensate w
        (summary ++ (start ++ (front ++ [Line.retract, .move rise]) ++ finish))).outcome = .ok q ↔
      ∃ plunges body, Recomposes w (front ++ [Line.retract, .move rise]) plunges body ∧
        q = summary ++ seatingLines plunges ++ (start ++ body ++ finish) := by
  have hlines : summary ++ (start ++ (front ++ [Line.retract, .move rise]) ++ finish)
      = (summary ++ start) ++ (front ++ Line.retract :: .move rise :: finish) := by simp
  rw [hlines]
  constructor
  · intro h
    obtain ⟨-, -, ⟨cuts, hcuts, -⟩, -⟩ := compensate_eq_ok.mp h
    obtain ⟨_, _, -, hpart⟩ := part_between
      (kind_ne_of_front hsummary hstart (k := .cut) (by simp) (by simp) (by simp))
      (kind_ne_of_front hsummary hstart (k := .retract) (by simp) (by simp) (by simp))
      hfinish front rise
    rw [hpart] at hcuts
    obtain ⟨plunges, body, hbody, hq⟩ :=
      exists_compensate_between hcuts hsummary hstart hfinish rise
    exact ⟨plunges, body, hbody, Except.ok.inj (h.symm.trans hq)⟩
  · rintro ⟨plunges, body, hbody, rfl⟩
    obtain ⟨cuts, hcuts, -⟩ := id hbody
    obtain ⟨_, _, -, hpart⟩ := @part_between α [] [] (by simp) (by simp) .nil front rise
    rw [List.nil_append] at hpart
    rw [hpart] at hcuts
    obtain ⟨plunges', body', hbody', hq⟩ :=
      exists_compensate_between hcuts hsummary hstart hfinish rise
    obtain ⟨rfl, rfl⟩ := hbody.unique hbody'
    exact hq

end

end

end Program

/-! ## Operations -/

/-- Lines without structure stay so when their numbers become values. -/
theorem Program.Unstructured.values {p : Program Float} (h : p.Unstructured) :
    p.values.Unstructured := by
  intro t ht
  obtain ⟨l, hl, hlt⟩ := List.mem_map.mp ht
  cases l with
  | move m => cases hlt
  | comment u => cases hlt; exact h _ hl

namespace Operation

variable {op : Operation Float} {settings : Settings} {w : Workshop Float}
  {paths : List (CamPath Float)}

/-- The staged copies and the body of an operation.  Without compensation there are no copies, and
the body is the compiled program.  With compensation they are what that becomes by itself. -/
inductive Lays (op : Operation Float) (settings : Settings) (w : Workshop Float)
    (paths : List (CamPath Float)) : Program FieldValue → Program FieldValue → Prop
  | plain {compiled : Program Float} : settings.compensates = false →
      (op.toolpath w).compile (op.prepare paths) = .ok compiled →
      Lays op settings w paths [] compiled.values
  | worn {compiled : Program Float} {plunges : List (PlungeBlock FieldValue)}
      {body : Program FieldValue} : settings.compensates = true →
      (op.toolpath w).compile (op.prepare paths) = .ok compiled →
      compiled.values.Recomposes (op.wearValues settings w) plunges body →
      Lays op settings w paths (seatingLines plunges) body

/-- The body starts with the marker of a rise. -/
theorem Lays.exists_cons {seats body : Program FieldValue}
    (h : op.Lays settings w paths seats body) : ∃ ls, body = .retract :: ls := by
  cases h with
  | plain _ hcompile =>
      obtain ⟨ls, rfl⟩ := (ToolpathParams.ends_of_compile hcompile).1
      exact ⟨_, rfl⟩
  | worn _ hcompile hbody =>
      obtain ⟨ls, rfl⟩ := (ToolpathParams.ends_of_compile hcompile).1
      exact hbody.exists_cons

/-- What is put together with hooks that have no structure, after it is compensated if asked for. -/
theorem compensated_iff {summary start finish : Program Float} {p : Program FieldValue}
    (hsummary : IsSummary summary) (hstart : start.Unstructured) (hfinish : finish.Unstructured) :
    (∃ compiled, (op.toolpath w).compile (op.prepare paths) = .ok compiled ∧
      (if settings.compensates then
        (Program.compensate (op.wearValues settings w)
          (Program.values (summary ++ (start ++ compiled ++ finish)))).outcome
        else .ok (Program.values (summary ++ (start ++ compiled ++ finish)))) = .ok p) ↔
      ∃ seats body, op.Lays settings w paths seats body ∧
        p = summary.values ++ seats ++ (start.values ++ body ++ finish.values) := by
  have hvalues : ∀ compiled : Program Float,
      Program.values (summary ++ (start ++ compiled ++ finish))
        = summary.values ++ (start.values ++ compiled.values ++ finish.values) := by
    intro compiled
    simp [Program.values]
  -- A compiled program ends with a rise, and so do its values.
  have hends : ∀ {compiled : Program Float},
      (op.toolpath w).compile (op.prepare paths) = .ok compiled →
        ∃ front rise, compiled.values = front ++ [Line.retract, .move rise] := by
    intro compiled hcompiled
    obtain ⟨front, rise, rfl⟩ := (ToolpathParams.ends_of_compile hcompiled).2
    exact ⟨Program.values front, rise.map .number,
      by simp [Program.values, Line.map, Line.retract]⟩
  have hbetween : ∀ {compiled : Program Float},
      (op.toolpath w).compile (op.prepare paths) = .ok compiled →
        ((Program.compensate (op.wearValues settings w)
          (Program.values (summary ++ (start ++ compiled ++ finish)))).outcome = .ok p ↔
        ∃ plunges body, compiled.values.Recomposes (op.wearValues settings w) plunges body ∧
          p = summary.values ++ seatingLines plunges
            ++ (start.values ++ body ++ finish.values)) := by
    intro compiled hcompiled
    obtain ⟨front, rise, hcompiled⟩ := hends hcompiled
    rw [hvalues, hcompiled]
    exact Program.compensate_between hsummary.values hstart.values hfinish.values
  constructor
  · rintro ⟨compiled, hcompiled, hp⟩
    split at hp
    next hcompensates =>
      obtain ⟨plunges, body, hbody, rfl⟩ := (hbetween hcompiled).mp hp
      exact ⟨_, body, .worn hcompensates hcompiled hbody, rfl⟩
    next hcompensates =>
      refine ⟨[], _, .plain (Bool.eq_false_iff.mpr hcompensates) hcompiled, ?_⟩
      rw [← Except.ok.inj hp, hvalues, List.append_nil]
  · rintro ⟨seats, body, hlays, rfl⟩
    cases hlays with
    | @plain compiled hcompensates hcompiled =>
        refine ⟨compiled, hcompiled, ?_⟩
        rw [if_neg (by simp [hcompensates]), hvalues, List.append_nil]
    | @worn compiled plunges _ hcompensates hcompiled hbody =>
        refine ⟨compiled, hcompiled, ?_⟩
        rw [if_pos hcompensates]
        exact (hbetween hcompiled).mpr ⟨plunges, body, hbody, rfl⟩

/-- Hooks without structure pass through untouched.  The program of an operation is its summary,
the staged copies, the lines of the start hook, the body, which starts with the marker of a rise,
and the lines of the end hook.  The copies and the body are what they are without the hooks, and
an operation that has them has this program. -/
theorem run_hooks [Geometry] {start finish : Program Float} {program : Program FieldValue}
    (hstart : (Program.parse op.hookStart).outcome = .ok start)
    (hfinish : (Program.parse op.hookEnd).outcome = .ok finish)
    (hbefore : start.Unstructured) (hafter : finish.Unstructured) (index : Int)
    (paths : List (CamPath Float)) (tabs : Option Geometry.Region) (settings : Settings) :
    (∃ result, (op.run index paths tabs settings).outcome = .ok result ∧
        result.program = program) ↔
      op.broken = [] ∧ ∃ w seats body, op.Takes tabs paths settings w ∧
        op.Lays settings w paths seats (.retract :: body) ∧
        program = (op.header index paths.length w.unit).values ++ seats
          ++ (start.values ++ Line.retract :: body ++ finish.values) := by
  have hlays : ∀ w : Workshop Float, (∃ compiled,
      (op.toolpath w).compile (op.prepare paths) = .ok compiled ∧
      (if settings.compensates then
        (Program.compensate (op.wearValues settings w) (Program.values
          (op.header index paths.length w.unit ++ (start ++ compiled ++ finish)))).outcome
        else .ok (Program.values
          (op.header index paths.length w.unit ++ (start ++ compiled ++ finish)))) = .ok program) ↔
      ∃ seats body, op.Lays settings w paths seats body ∧
        program = (op.header index paths.length w.unit).values ++ seats
          ++ (start.values ++ body ++ finish.values) :=
    fun w => compensated_iff (op.isSummary_header _ _ _) hbefore hafter
  constructor
  · rintro ⟨result, hrun, rfl⟩
    obtain ⟨hbroken, w, assembled, htakes, hassembled, hresult⟩ := run_eq_ok.mp hrun
    rw [outcome_assemble hstart hfinish] at hassembled
    obtain ⟨compiled, hcompiled, rfl⟩ := Fault.map_eq_ok.mp hassembled
    obtain ⟨seats, body, hbody, hlines⟩ :=
      (hlays w).mp ⟨compiled, hcompiled, (Program.toResult_eq_ok.mp hresult).1⟩
    obtain ⟨ls, rfl⟩ := hbody.exists_cons
    exact ⟨hbroken, w, seats, ls, htakes, hbody, hlines⟩
  · rintro ⟨hbroken, w, seats, body, htakes, hbody, hlines⟩
    obtain ⟨compiled, hcompiled, hprogram⟩ := (hlays w).mpr ⟨seats, _, hbody, hlines⟩
    obtain ⟨check, hcheck⟩ := exists_checkDepth_outcome defaultReported program
    refine ⟨⟨program, check⟩, run_eq_ok.mpr ⟨hbroken, w, _, htakes, ?_,
      Program.toResult_eq_ok.mpr ⟨hprogram, hcheck⟩⟩, rfl⟩
    rw [outcome_assemble hstart hfinish, hcompiled]
    rfl

end Operation

/-- An operation with a rise before it and a return after it, next to blank lines and comments. -/
def guardedOperation : Operation Float :=
  { Operation.plain with
    hookStart := "G0 Z9\n\n; wire on", hookEnd := "\nG1 X0 F100\n; wire off" }

/-- Hooks with moves, comments and blank lines stand around the body. -/
theorem guardedOperation_run_hooks : ∃ (result : OperationResult FieldValue)
    (w : Workshop Float) (seats body : Program FieldValue),
    (guardedOperation.run 0 [shortGroove] none {}).outcome = .ok result ∧
      guardedOperation.Takes none [shortGroove] {} w ∧
      guardedOperation.Lays {} w [shortGroove] seats (.retract :: body) ∧
      result.program = (guardedOperation.header 0 1 w.unit).values ++ seats
        ++ (Program.values
            [.move (.rapid none none (some 9)), .blank, .comment "; wire on"]
          ++ Line.retract :: body
          ++ Program.values [.blank, .move (.linear (some 0) none none (some 100) none),
            .comment "; wire off"]) := by
  have hread : ∀ {text : String} {p : Program Float},
      (Program.parse text).outcome.toOption = some p → (Program.parse text).outcome = .ok p := by
    intro text p h
    cases hp : (Program.parse text).outcome with
    | error f => rw [hp] at h; cases h
    | ok q => rw [hp] at h; exact congrArg Except.ok (Option.some.inj h)
  have hstart : (Program.parse guardedOperation.hookStart).outcome
      = .ok [.move (.rapid none none (some 9)), .blank, .comment "; wire on"] :=
    hread (by decide +kernel)
  have hfinish : (Program.parse guardedOperation.hookEnd).outcome
      = .ok [.blank, .move (.linear (some 0) none none (some 100) none), .comment "; wire off"] :=
    hread (by decide +kernel)
  have hrun : (guardedOperation.run 0 [shortGroove] none {}).outcome.isOk = true := by
    decide +kernel
  obtain ⟨result, hresult⟩ := Fault.exists_eq_ok hrun
  obtain ⟨-, w, seats, body, htakes, hlays, hprogram⟩ :=
    (Operation.run_hooks hstart hfinish (by decide) (by decide) 0 [shortGroove] none {}).mp
      ⟨result, hresult, rfl⟩
  exact ⟨result, w, seats, body, hresult, htakes, hlays, hprogram⟩

end WireErosion
