import WireErosion.Job.Step
import WireErosion.Proofs.Files.Writing
import WireErosion.Proofs.Operation.Admission

/-!
# What the steps on a job leave alone

Operations run in order, and the first fault ends the work on all of them.  So an operation is
reached if all before it have results (`Job.IsReached`), the first one that is reached and refused
is what is reported, and a program is written only if every operation has a result and the program
has a text (`Job.Writes`).

A step that fails leaves the job and the files as they were.  It is taken change by change, and a
change that was made before the fault would stay (`Bench.step`).  But whatever may fail comes
first: a path file is read to its end before the paths and the tabs are set, and a program is
computed, made a text and its file opened before the file is filled (`Bench.keepsOnFault_step`).

Steps that ask for results leave the job as it is, and only writing touches a file, that of its name
(`Bench.Intact`).  Steps are taken one after the other, whatever became of those before.  So all of
this holds of every step of a sequence (`Bench.attempts_intact`), and the job at the end of it is
what the steps that edit the job make of it, as if no results had been asked for in between.
-/

namespace WireErosion

variable [Geometry]

/-! ## Results -/

namespace Job

variable {j : Job}

/-- The result of an operation with its index. -/
def resultOf (j : Job) (o : Operation Float × Nat) : Except Fault (OperationResult FieldValue) :=
  (o.1.run o.2 j.paths j.tabs j.settings).outcome

/-- An operation with its index that is reached: those before it have results. -/
def IsReached (j : Job) (o : Operation Float × Nat) : Prop :=
  j.paths ≠ [] ∧ Fault.Reaches j.resultOf j.operations.zipIdx o

/-- The text of the program of a job whose operations all are admitted and have results. -/
structure Writes (j : Job) (p : Program FieldValue) (text : String) : Prop where
  /-- There are paths. -/
  loaded : j.paths ≠ []
  /-- No operation breaks a constraint. -/
  admitted : ∀ op ∈ j.operations, op.broken = []
  /-- Every operation has a result, and the program is that of all results. -/
  computed : ∃ rs, List.Forall₂ (fun o r => j.resultOf o = .ok r) j.operations.zipIdx rs ∧
    p = programOf rs
  /-- The whole program has a text. -/
  formatted : p.formatValues j.settings.writtenPlaces = .ok text

theorem outcome_resultsFrom (j : Job) : ∀ (index : Nat) (ops : List (Operation Float)),
    (j.resultsFrom index ops).outcome = (ops.zipIdx index).mapM j.resultOf
  | _, [] => rfl
  | index, op :: ops => by
      rw [resultsFrom, List.zipIdx_cons, List.mapM_cons, Report.outcome_bind_eq]
      congr 1
      funext r
      rw [Report.outcome_bind_eq, outcome_resultsFrom]
      rfl

theorem results_eq_ok {rs : List (OperationResult FieldValue)} : j.results.outcome = .ok rs ↔
    j.paths ≠ [] ∧ List.Forall₂ (fun o r => j.resultOf o = .ok r) j.operations.zipIdx rs := by
  rw [results]
  split_ifs with hpaths
  · simp [Report.fail, List.isEmpty_iff.mp hpaths]
  · rw [outcome_resultsFrom, Fault.mapM_eq_ok, iff_and_self]
    exact fun _ h => hpaths (List.isEmpty_iff.mpr h)

/-- The first operation without a result decides on all. -/
theorem results_eq_error {o : Operation Float × Nat} {f : Fault} (hreached : j.IsReached o)
    (h : j.resultOf o = .error f) : j.results.outcome = .error f := by
  rw [results, if_neg (fun hpaths => hreached.1 (List.isEmpty_iff.mp hpaths)), outcome_resultsFrom,
    Fault.mapM_eq_error]
  exact ⟨o, hreached.2, h⟩

theorem resultOf_of_broken {o : Operation Float × Nat} (h : o.1.broken ≠ []) :
    j.resultOf o = .error (.rejected o.1.broken) := by
  rw [resultOf, Operation.run_of_broken h]

/-- Operations with results are admitted. -/
theorem admitted_of_results {rs : List (OperationResult FieldValue)}
    (h : List.Forall₂ (fun o r => j.resultOf o = .ok r) j.operations.zipIdx rs) :
    ∀ op ∈ j.operations, op.broken = [] := by
  intro op hop
  obtain ⟨i, hi⟩ : ∃ i, (op, i) ∈ j.operations.zipIdx := by
    rw [← List.zipIdx_map_fst 0 j.operations, List.mem_map] at hop
    obtain ⟨⟨op, i⟩, hi, rfl⟩ := hop
    exact ⟨i, hi⟩
  have hall := Fault.exists_mapM_iff.mp ⟨rs, Fault.mapM_eq_ok.mpr h⟩
  obtain ⟨r, hr⟩ := hall _ hi
  by_contra hbroken
  rw [resultOf_of_broken (o := (op, i)) hbroken] at hr
  cases hr

theorem program_eq_ok {p : Program FieldValue} : j.program.outcome = .ok p ↔
    ∃ rs, j.results.outcome = .ok rs ∧ p = programOf rs := by
  rw [program, Report.outcome_bind_eq_ok]
  simp [eq_comm]

theorem writes_iff {p : Program FieldValue} {text : String} : j.Writes p text ↔
    j.program.outcome = .ok p ∧ p.formatValues j.settings.writtenPlaces = .ok text := by
  rw [program_eq_ok]
  constructor
  · rintro ⟨hpaths, -, ⟨rs, hrs, hp⟩, htext⟩
    exact ⟨⟨rs, results_eq_ok.mpr ⟨hpaths, hrs⟩, hp⟩, htext⟩
  · rintro ⟨⟨rs, hresults, hp⟩, htext⟩
    obtain ⟨hpaths, hrs⟩ := results_eq_ok.mp hresults
    exact ⟨hpaths, admitted_of_results hrs, ⟨rs, hrs, hp⟩, htext⟩

/-! ## Changes of a job -/

/-- A job with the paths and the tabs of a path file. -/
def withContents (j : Job) (c : PathFile.Contents) : Job :=
  { j with paths := c.paths, tabs := c.tabs }

/-- A job with other operations. -/
def withOperations (j : Job) (ops : List (Operation Float)) : Job := { j with operations := ops }

theorem load_of_ok {name : String} {text : Option String} {c : PathFile.Contents}
    (h : PathFile.load name text = .ok c) : load name text j = .ok () (j.withContents c) := by
  rw [load, Work.bind_ok (Work.ofExcept_ok h j)]
  rfl

theorem load_of_error {name : String} {text : Option String} {f : Fault}
    (h : PathFile.load name text = .error f) : load name text j = .error f j := by
  rw [load, Work.bind_error (Work.ofExcept_error h j)]

/-- A load that fails does so before it sets anything. -/
theorem keepsOnFault_load (name : String) (text : Option String) :
    Work.KeepsOnFault id (load name text) :=
  (Work.keeps_ofExcept id _).bind_onFault fun _ =>
    ((Work.neverFails_modify _).bind fun _ => Work.neverFails_modify _).keepsOnFault

variable {index : Int} {change : Operation Float → Operation Float}

theorem edit_of_ok {i : Nat} (h : positionOf j.operations.length index = .ok i) :
    edit index change j = .ok () (j.withOperations (j.operations.modify i change)) := by
  rw [edit, Work.get_bind, Work.bind_ok (Work.ofExcept_ok h j)]
  rfl

theorem edit_of_error {f : Fault} (h : positionOf j.operations.length index = .error f) :
    edit index change j = .error f j := by
  rw [edit, Work.get_bind, Work.bind_error (Work.ofExcept_error h j)]

theorem remove_of_ok {i : Nat} (h : positionOf j.operations.length index = .ok i) :
    remove index j = .ok () (j.withOperations (j.operations.eraseIdx i)) := by
  rw [remove, Work.get_bind, Work.bind_ok (Work.ofExcept_ok h j)]
  rfl

theorem remove_of_error {f : Fault} (h : positionOf j.operations.length index = .error f) :
    remove index j = .error f j := by
  rw [remove, Work.get_bind, Work.bind_error (Work.ofExcept_error h j)]

theorem keepsOnFault_edit (index : Int) (change : Operation Float → Operation Float) :
    Work.KeepsOnFault id (edit index change) :=
  (Work.keeps_get id).bind_onFault fun _ => (Work.keeps_ofExcept id _).bind_onFault fun _ =>
    (Work.neverFails_modify _).keepsOnFault

theorem keepsOnFault_remove (index : Int) : Work.KeepsOnFault id (remove index) :=
  (Work.keeps_get id).bind_onFault fun _ => (Work.keeps_ofExcept id _).bind_onFault fun _ =>
    (Work.neverFails_modify _).keepsOnFault

end Job

namespace Program

omit [Geometry]

variable {n : FileName} {places : Int} {p : Program FieldValue} {s t : FileStore}

/-- A program is written if it has a text and the file can be written. -/
theorem writeTo_eq_ok {u : Unit} : p.writeTo n places s = .ok u t ↔
    ∃ text, p.formatValues places = .ok text ∧ s.IsWritable n ∧
      t = s.holding n (asciiText text).toUTF8 := by
  rw [writeTo, Work.bind_eq_ok]
  simp only [Work.ofExcept_eq_ok]
  constructor
  · rintro ⟨text, _, ⟨htext, rfl⟩, hwrite⟩
    exact ⟨text, htext, FileStore.write_eq_ok.mp hwrite⟩
  · rintro ⟨text, htext, hwrite⟩
    exact ⟨text, s, ⟨htext, rfl⟩, FileStore.write_eq_ok.mpr hwrite⟩

/-- A program that cannot be written touches no file. -/
theorem keepsOnFault_writeTo (n : FileName) (places : Int) (p : Program FieldValue) :
    Work.KeepsOnFault id (p.writeTo n places) :=
  (Work.keeps_ofExcept id _).bind_onFault fun _ => FileStore.keepsOnFault_write n _

end Program

/-! ## Work at a bench -/

namespace Bench

variable {b c : Bench} {α τ : Type}

/-- The job and the files of a bench. -/
def kept (b : Bench) : Job × FileStore := (b.job, b.store)

theorem onJob_of_ok {m : Job.Work α} {a : α} {j : Job} (h : m b.job = .ok a j) :
    onJob m b = .ok a { b with job := j } := by
  rw [onJob, h]

theorem onJob_of_error {m : Job.Work α} {f : Fault} {j : Job} (h : m b.job = .error f j) :
    onJob m b = .error f { b with job := j } := by
  rw [onJob, h]

theorem onFiles_eq_ok {m : FileStore.Work α} {a : α} :
    onFiles m b = .ok a c ↔ ∃ s, m b.store = .ok a s ∧ c = { b with store := s } := by
  unfold onFiles
  split <;> simp_all [eq_comm]

/-- A bench with some more notices. -/
def noting (b : Bench) (ns : List (Notice Float)) : Bench := { b with notices := b.notices ++ ns }

theorem note_eq_ok {r : Report Float α} {a : α} :
    note r b = .ok a c ↔ r.outcome = .ok a ∧ c = b.noting r.notices := by
  rw [note, Work.bind_ok (m := modify _) rfl, Work.ofExcept_eq_ok]
  rfl

theorem note_of_error {r : Report Float α} {f : Fault} (h : r.outcome = .error f) (b : Bench) :
    note r b = .error f (b.noting r.notices) := by
  rw [note, Work.bind_ok (m := modify _) rfl, Work.ofExcept_error h]
  rfl

theorem keeps_onJob (m : Job.Work α) : Work.Keeps Bench.store (onJob m) where
  ok {b _ _} h := by
    unfold onJob at h
    split at h <;> cases h
    rfl
  error {b _ _} h := by
    unfold onJob at h
    split at h <;> cases h
    rfl

theorem keeps_onFiles (m : FileStore.Work α) : Work.Keeps Bench.job (onFiles m) where
  ok {b _ _} h := by
    unfold onFiles at h
    split at h <;> cases h
    rfl
  error {b _ _} h := by
    unfold onFiles at h
    split at h <;> cases h
    rfl

theorem keepsOnFault_onJob {m : Job.Work α} (hm : Work.KeepsOnFault id m) :
    Work.KeepsOnFault kept (onJob m) := by
  intro b f c h
  unfold onJob at h
  split at h <;> cases h
  next j hj =>
    have hjob : j = b.job := hm hj
    rw [kept, kept, hjob]

theorem keepsOnFault_onFiles {m : FileStore.Work α} (hm : Work.KeepsOnFault id m) :
    Work.KeepsOnFault kept (onFiles m) := by
  intro b f c h
  unfold onFiles at h
  split at h <;> cases h
  next s hs =>
    have hstore : s = b.store := hm hs
    rw [kept, kept, hstore]

/-- Only notices are kept of a report. -/
theorem keeps_note {view : Bench → τ}
    (hview : ∀ (b : Bench) ns, view { b with notices := ns } = view b) (r : Report Float α) :
    Work.Keeps view (note r) :=
  (Work.keeps_modify view fun b => hview b _).bind fun _ => Work.keeps_ofExcept view _

theorem writeProgram_of_error {n : FileName} {f : Fault} (h : b.job.program.outcome = .error f) :
    writeProgram n b = .error f (b.noting b.job.program.notices) := by
  rw [writeProgram, Work.get_bind, Work.bind_error (note_of_error h b)]

/-- The bench after a text is written, with the notices of the program. -/
def withFile (b : Bench) (n : FileName) (text : String) : Bench :=
  { b with
    store := b.store.holding n (asciiText text).toUTF8
    notices := b.notices ++ b.job.program.notices }

/-- A program is written if it has a text and the file can be written. -/
theorem writeProgram_eq_ok {n : FileName} {p : Program FieldValue} :
    writeProgram n b = .ok p c ↔
      ∃ text, b.job.Writes p text ∧ b.store.IsWritable n ∧ c = b.withFile n text := by
  simp only [writeProgram, Work.get_bind, Work.bind_eq_ok, note_eq_ok, onFiles_eq_ok,
    Program.writeTo_eq_ok, Job.writes_iff]
  constructor
  · rintro ⟨q, _, ⟨hp, rfl⟩, _, _, ⟨s, ⟨text, htext, hn, rfl⟩, rfl⟩, hq⟩
    cases hq
    exact ⟨text, ⟨hp, htext⟩, hn, rfl⟩
  · rintro ⟨text, ⟨hp, htext⟩, hn, rfl⟩
    exact ⟨p, _, ⟨hp, rfl⟩, (), _, ⟨_, ⟨text, htext, hn, rfl⟩, rfl⟩, rfl⟩

/-- A program is computed and its file opened before anything is touched. -/
theorem keepsOnFault_writeProgram (n : FileName) : Work.KeepsOnFault kept (writeProgram n) :=
  (Work.keeps_get kept).bind_onFault fun _ => (keeps_note (fun _ _ => rfl) _).bind_onFault fun p =>
    (Work.keeps_get kept).bind_onFault fun _ =>
      (keepsOnFault_onFiles (p.keepsOnFault_writeTo n _)).bind fun _ => Work.neverFails_pure p

theorem neverFails_showOperations : Work.NeverFails showOperations :=
  Work.neverFails_get.bind fun _ => Work.neverFails_pure _

/-- A step that fails leaves the job and the files as they were. -/
theorem keepsOnFault_step : ∀ s : JobStep, Work.KeepsOnFault kept (step s)
  | .load name text => (keepsOnFault_onJob (Job.keepsOnFault_load name text)).bind fun _ =>
      Work.neverFails_get.bind fun _ => Work.neverFails_pure _
  | .change .. => (keepsOnFault_onJob (Work.neverFails_modify _).keepsOnFault).bind fun _ =>
      Work.neverFails_get.bind fun _ => Work.neverFails_pure _
  | .clearTabs => (keepsOnFault_onJob (Work.neverFails_modify _).keepsOnFault).bind fun _ =>
      Work.neverFails_pure _
  | .add _ => (keepsOnFault_onJob (Work.neverFails_modify _).keepsOnFault).bind fun _ =>
      neverFails_showOperations
  | .edit index change => (keepsOnFault_onJob (Job.keepsOnFault_edit index change)).bind fun _ =>
      neverFails_showOperations
  | .remove index => (keepsOnFault_onJob (Job.keepsOnFault_remove index)).bind fun _ =>
      neverFails_showOperations
  | .compute => ((Work.keeps_get kept).bind fun _ => (keeps_note (fun _ _ => rfl) _).bind
      fun _ => Work.keeps_pure kept _).onFault
  | .assemble => ((Work.keeps_get kept).bind fun _ => (keeps_note (fun _ _ => rfl) _).bind
      fun _ => Work.keeps_pure kept _).onFault
  | .write n => (keepsOnFault_writeProgram n).bind fun _ => Work.neverFails_pure _

end Bench

/-! ## One step -/

/-- Whether a step asks for results. -/
def JobStep.asksForResults : JobStep → Bool
  | .compute | .assemble | .write _ => true
  | _ => false

/-- What a step on a bench may do to it, which leaves another bench and shows something or fails. -/
structure Bench.Intact (b : Bench) (s : JobStep) (c : Bench) (shown : Except Fault Shown) :
    Prop where
  /-- A step that fails changes neither the job nor a file. -/
  failed : ∀ f, shown = .error f → c.job = b.job ∧ c.store = b.store
  /-- A load that does not fail sets the paths and the tabs to those of one file. -/
  loaded : ∀ name text, s = .load name text → ∀ v, shown = .ok v →
    ∃ contents, PathFile.load name text = .ok contents ∧ c.job = b.job.withContents contents
  /-- The job is what it was after a step that asks for results. -/
  job : s.asksForResults = true → c.job = b.job
  /-- No other step than writing touches a file. -/
  untouched : (∀ n, s ≠ .write n) → c.store = b.store
  /-- What is written is the program of all operations, to one file. -/
  written : ∀ n, s = .write n → ∀ v, shown = .ok v → ∃ p text, v = .program p ∧
    b.job.Writes p text ∧ b.store.IsWritable n ∧ c.store.folders = b.store.folders ∧
    c.store.bytes? (FileStore.key n) = some (asciiText text).toUTF8 ∧
    ∀ k, k ≠ FileStore.key n → c.store.bytes? k = b.store.bytes? k
  /-- It is written if it can be. -/
  writes : ∀ n, s = .write n → ∀ p text, b.job.Writes p text → b.store.IsWritable n →
    shown = .ok (.program p)
  /-- An operation that is reached and breaks constraints is refused, with all of them. -/
  refused : s.asksForResults = true → ∀ o, b.job.IsReached o → o.1.broken ≠ [] →
    shown = .error (.rejected o.1.broken)

/-- A job after a step, which is the same unless the step edits it. -/
def JobStep.onJob (s : JobStep) (j : Job) : Job :=
  match s with
  | .load name text =>
    match PathFile.load name text with
    | .ok contents => j.withContents contents
    | .error _ => j
  | .change fields => { j with settings := j.settings.setAll fields }
  | .clearTabs => { j with tabs := none }
  | .add op => j.withOperations (j.operations ++ [op])
  | .edit index f =>
    match positionOf j.operations.length index with
    | .ok i => j.withOperations (j.operations.modify i f)
    | .error _ => j
  | .remove index =>
    match positionOf j.operations.length index with
    | .ok i => j.withOperations (j.operations.eraseIdx i)
    | .error _ => j
  | .compute | .assemble | .write _ => j

namespace Bench

variable {b c : Bench} {s : JobStep} {v : Shown} {f : Fault}

theorem attempt_of_ok (h : step s b = .ok v c) : b.attempt s = (c, .ok v) := by
  rw [attempt, h]

theorem attempt_of_error (h : step s b = .error f c) : b.attempt s = (c, .error f) := by
  rw [attempt, h]

/-! ### Loads -/

theorem step_load_of_ok {name : String} {text : Option String} {contents : PathFile.Contents}
    (h : PathFile.load name text = .ok contents) : step (.load name text) b =
      .ok (.paths contents.paths.length contents.tabs)
        { b with job := b.job.withContents contents } := by
  rw [step, Work.bind_ok (onJob_of_ok (Job.load_of_ok h))]
  rfl

theorem step_load_of_error {name : String} {text : Option String}
    (h : PathFile.load name text = .error f) : step (.load name text) b = .error f b := by
  rw [step, Work.bind_error (onJob_of_error (Job.load_of_error h))]

/-! ### Results -/

/-- Steps that ask for results leave the job as it is. -/
theorem keeps_step_of_asksForResults (hs : s.asksForResults = true) :
    Work.Keeps Bench.job (step s) := by
  have hnote {α : Type} (r : Report Float α) : Work.Keeps Bench.job (note r) :=
    keeps_note (fun _ _ => rfl) r
  cases s with
  | compute =>
      exact (Work.keeps_get _).bind fun _ => (hnote _).bind fun _ => Work.keeps_pure _ _
  | assemble =>
      exact (Work.keeps_get _).bind fun _ => (hnote _).bind fun _ => Work.keeps_pure _ _
  | write n =>
      refine Work.Keeps.bind ?_ fun _ => Work.keeps_pure _ _
      exact (Work.keeps_get _).bind fun _ => (hnote _).bind fun _ => (Work.keeps_get _).bind
        fun _ => (keeps_onFiles _).bind fun _ => Work.keeps_pure _ _
  | _ => cases hs

/-- A step that asks for results fails as they do. -/
theorem exists_step_eq_error (hs : s.asksForResults = true)
    (h : b.job.results.outcome = .error f) : ∃ c, step s b = .error f c := by
  have hprogram : b.job.program.outcome = .error f :=
    Report.outcome_bind_eq_error.mpr (.inl h)
  cases s with
  | compute =>
      refine ⟨b.noting b.job.results.notices, ?_⟩
      rw [step, Work.get_bind, Work.bind_error (note_of_error h b)]
  | assemble =>
      refine ⟨b.noting b.job.program.notices, ?_⟩
      rw [step, Work.get_bind, Work.bind_error (note_of_error hprogram b)]
  | write n => exact ⟨_, Work.bind_error (writeProgram_of_error hprogram) _⟩
  | _ => cases hs

theorem exists_step_of_isReached {o : Operation Float × Nat} (hs : s.asksForResults = true)
    (hreached : b.job.IsReached o) (hbroken : o.1.broken ≠ []) :
    ∃ c, step s b = .error (.rejected o.1.broken) c :=
  exists_step_eq_error hs (Job.results_eq_error hreached (Job.resultOf_of_broken hbroken))

/-! ### Writing -/

/-- No other step than writing touches a file. -/
theorem keeps_step_of_ne (hs : ∀ n, s ≠ .write n) : Work.Keeps Bench.store (step s) := by
  have hget {α : Type} (f : Bench → α) : Work.Keeps Bench.store (f <$> get : Work α) :=
    (Work.keeps_get _).bind fun _ => Work.keeps_pure _ _
  cases s with
  | load | change | add | edit | remove => exact (keeps_onJob _).bind fun _ => hget _
  | clearTabs => exact (keeps_onJob _).bind fun _ => Work.keeps_pure _ _
  | compute | assemble =>
      refine (Work.keeps_get _).bind fun b => Work.Keeps.bind ?_ fun _ => Work.keeps_pure _ _
      exact keeps_note (fun _ _ => rfl) _
  | write n => exact absurd rfl (hs n)

theorem step_write_eq_ok {n : FileName} : step (.write n) b = .ok v c ↔ ∃ p text,
    v = .program p ∧ b.job.Writes p text ∧ b.store.IsWritable n ∧ c = b.withFile n text := by
  rw [step, Work.bind_eq_ok]
  simp only [writeProgram_eq_ok]
  constructor
  · rintro ⟨p, _, ⟨text, hp, hn, rfl⟩, hv⟩
    cases hv
    exact ⟨p, text, rfl, hp, hn, rfl⟩
  · rintro ⟨p, text, rfl, hp, hn, rfl⟩
    exact ⟨p, _, ⟨text, hp, hn, rfl⟩, rfl⟩

/-! ### What a step does to a bench -/

theorem intact_of_error (h : step s b = .error f c) : b.Intact s c (.error f) where
  failed _ _ := Prod.mk.inj (keepsOnFault_step s h)
  loaded _ _ _ _ hv := by cases hv
  job hs := (keeps_step_of_asksForResults hs).error h
  untouched hs := (keeps_step_of_ne hs).error h
  written _ _ _ hv := by cases hv
  writes n hs p text hp hn := by
    subst hs
    rw [step_write_eq_ok.mpr ⟨p, text, rfl, hp, hn, rfl⟩] at h
    cases h
  refused hs o hreached hbroken := by
    obtain ⟨d, hd⟩ := exists_step_of_isReached hs hreached hbroken
    rw [hd] at h
    cases h
    rfl

theorem intact_of_ok (h : step s b = .ok v c) : b.Intact s c (.ok v) where
  failed _ hf := by cases hf
  loaded name text hs w _ := by
    subst hs
    cases hload : PathFile.load name text with
    | error f =>
        rw [step_load_of_error hload] at h
        cases h
    | ok contents =>
        rw [step_load_of_ok hload] at h
        cases h
        exact ⟨contents, rfl, rfl⟩
  job hs := (keeps_step_of_asksForResults hs).ok h
  untouched hs := (keeps_step_of_ne hs).ok h
  written n hs w hw := by
    subst hs
    cases hw
    obtain ⟨p, text, hv, hp, hn, rfl⟩ := step_write_eq_ok.mp h
    obtain ⟨hnew, hothers⟩ := FileStore.bytes?_holding b.store n (asciiText text).toUTF8
    exact ⟨p, text, hv, hp, hn, rfl, hnew, hothers⟩
  writes n hs p text hp hn := by
    subst hs
    rw [step_write_eq_ok.mpr ⟨p, text, rfl, hp, hn, rfl⟩] at h
    cases h
    rfl
  refused hs o hreached hbroken := by
    obtain ⟨d, hd⟩ := exists_step_of_isReached hs hreached hbroken
    rw [hd] at h
    cases h

/-- A step leaves alone what it should. -/
theorem intact_attempt (b : Bench) (s : JobStep) : b.Intact s (b.attempt s).1 (b.attempt s).2 := by
  cases h : step s b with
  | ok v c =>
      rw [attempt_of_ok h]
      exact intact_of_ok h
  | error f c =>
      rw [attempt_of_error h]
      exact intact_of_error h

/-- What becomes of the job does not depend on the files. -/
theorem job_attempt (b : Bench) (s : JobStep) : (b.attempt s).1.job = s.onJob b.job := by
  cases s with
  | load name text =>
      rw [JobStep.onJob]
      cases hload : PathFile.load name text with
      | ok contents => rw [attempt_of_ok (step_load_of_ok hload)]
      | error f => rw [attempt_of_error (step_load_of_error hload)]
  | change fields => rfl
  | clearTabs => rfl
  | add op => rfl
  | edit index f =>
      rw [JobStep.onJob]
      cases hi : positionOf b.job.operations.length index with
      | ok i => rw [attempt_of_ok (Work.bind_ok (onJob_of_ok (Job.edit_of_ok hi)) _)]
      | error e => rw [attempt_of_error (Work.bind_error (onJob_of_error (Job.edit_of_error hi)) _)]
  | remove index =>
      rw [JobStep.onJob]
      cases hi : positionOf b.job.operations.length index with
      | ok i => rw [attempt_of_ok (Work.bind_ok (onJob_of_ok (Job.remove_of_ok hi)) _)]
      | error e =>
          rw [attempt_of_error (Work.bind_error (onJob_of_error (Job.remove_of_error hi)) _)]
  | compute | assemble | write => exact (intact_attempt b _).job rfl

/-! ## Sequences of steps -/

theorem attempts_cons (b : Bench) (s : JobStep) (ss : List JobStep) :
    b.attempts (s :: ss) =
      (((b.attempt s).1.attempts ss).1, (b.attempt s).2 :: ((b.attempt s).1.attempts ss).2) := rfl

/-- The steps of a sequence are taken one after the other. -/
theorem attempts_append (b : Bench) (ss ts : List JobStep) :
    b.attempts (ss ++ ts) = (((b.attempts ss).1.attempts ts).1,
      (b.attempts ss).2 ++ ((b.attempts ss).1.attempts ts).2) := by
  induction ss generalizing b with
  | nil => rfl
  | cons s ss ih =>
      rw [List.cons_append, attempts_cons, ih, attempts_cons, List.cons_append]

theorem job_attempts (b : Bench) (ss : List JobStep) :
    (b.attempts ss).1.job = ss.foldl (fun j s => s.onJob j) b.job := by
  induction ss generalizing b with
  | nil => rfl
  | cons s ss ih =>
      rw [List.foldl_cons, ← job_attempt, ← ih, attempts_cons]

/-- Each step of a sequence is taken on what those before it left, and those after it go on from
there.  The step leaves alone what it should. -/
theorem attempts_intact (b : Bench) (steps : List JobStep) :
    (b.attempts steps).1.job = steps.foldl (fun j s => s.onJob j) b.job ∧
      ∀ before s after, steps = before ++ s :: after → ∃ c d e shownBefore shown shownAfter,
        b.attempts before = (c, shownBefore) ∧ c.attempt s = (d, shown) ∧
          d.attempts after = (e, shownAfter) ∧
          b.attempts steps = (e, shownBefore ++ shown :: shownAfter) ∧ c.Intact s d shown := by
  refine ⟨job_attempts b steps, ?_⟩
  rintro before s after rfl
  exact ⟨_, _, _, _, _, _, rfl, rfl, rfl, attempts_append b before (s :: after),
    intact_attempt _ s⟩

end Bench

end WireErosion
