import WireErosion.Proofs.Job.Steps
import WireErosion.Proofs.Operation.Faults
import WireErosion.Proofs.Path.Loading
import WireErosion.Proofs.Program.RoundTrip
import WireErosion.Region.Library

/-!
# How compiling ends

Compiling a path file ends with a status, or with a fault that no command deals with.  If everything
else is in order (`CompileRequest.Supplies`), the text of the path file and the geometry library
decide which.

* A complaint about the text ends with status one, and so does a rejected operation.
* A fault of the text that is no complaint is let out, and so is a failure of the library on the
  tabs (`PathFile.Escapes`).
* So is the lack of paths, a fault of arithmetic in the operation, and any fault of the library
  while the operation runs.
* Nothing else is (`run_compile_fault_iff`).
-/

namespace WireErosion

/-- With feeds that are numbers and decimal places well below the digits that are read, the program
of an operation has a text. -/
theorem Operation.exists_formatValues_of_run [Geometry] {op : Operation Float} {index : Int}
    {paths : List (CamPath Float)} {tabs : Option Geometry.Region} {settings : Settings}
    {feeds : Option Float × Option Float} {result : OperationResult FieldValue} {places : Int}
    (hfeeds : settings.feeds = .ok feeds) (hnonneg : 0 ≤ places)
    (hle : places + 309 ≤ Numeral.mostDoubleDigits)
    (h : (op.run index paths tabs settings).outcome = .ok result) :
    ∃ text, result.program.formatValues places = .ok text := by
  obtain ⟨p, hp⟩ := exists_values_of_run hfeeds h
  rw [hp, formatValues_number, Program.exists_format_iff hnonneg]
  intro l _ v _
  have hlegible : Double.isLegible places.toNat v = true := Double.isLegible_of_le (by omega) v
  have hplaces : (Numeral.mostDoubleDigits : ℤ) ≤ mostWrittenPlaces := by decide
  exact ⟨by omega, fun _ => hlegible⟩

namespace CommandLine

open Session

/-! ## Sessions -/

namespace Session

variable {α β : Type} {m : Session α} {t t' : Terminal}

/-- How a session ends that starts at a terminal. -/
def ending (m : Session α) (t : Terminal) : Ending :=
  match m t with
  | .ok _ _ => .status 0
  | .error e _ => e

theorem ending_error {e : Ending} (h : m t = .error e t') : m.ending t = e := by
  rw [ending, h]

theorem ending_bind_ok {a : α} (h : m t = .ok a t') (f : α → Session β) :
    ending (m >>= f) t = (f a).ending t' := by
  rw [ending, Work.bind_ok h, ending]

theorem ending_bind_error {e : Ending} (h : m t = .error e t') (f : α → Session β) :
    ending (m >>= f) t = e :=
  ending_error (Work.bind_error h f)

theorem ending_pure (a : α) (f : α → Session β) (t : Terminal) :
    ending (pure a >>= f) t = (f a).ending t :=
  rfl

theorem ending_get (f : Terminal → Session β) (t : Terminal) :
    ending (get >>= f) t = (f t).ending t :=
  rfl

theorem ending_say (line : String) (f : Unit → Session β) (t : Terminal) :
    ending (say line >>= f) t = (f ()).ending { t with said := t.said ++ [line] } :=
  rfl

theorem onFiles_of_ok {m : FileStore.Work α} {a : α} {after : FileStore}
    (h : m t.store = .ok a after) : onFiles m t = .ok a { t with store := after } := by
  rw [onFiles, h]

theorem onFiles_of_error {m : FileStore.Work α} {f : Fault} {after : FileStore}
    (h : m t.store = .error f after) :
    onFiles m t = .error (.fault f) { t with store := after } := by
  rw [onFiles, h]

theorem settle_ok {r : Except Fault α} {a : α} (h : r = .ok a) (t : Terminal) :
    settle r t = .ok a t := by
  rw [h]
  rfl

end Session

/-! ## What a request needs -/

/-- The settings that a file name leads to, or the defaults. -/
def settingsIn (store : FileStore) (home : FileName) (name : Option FileName) :
    Except Fault Settings :=
  let n := name.getD (usualSettings home)
  if store.contains n then
    (store.read n).bind fun bytes => (readUnicode bytes).bind Settings.ofText
  else .ok {}

theorem loadSettings_eq (t : Terminal) {name : Option FileName} {s : Settings}
    (h : settingsIn t.store t.home name = .ok s) : loadSettings name t = .ok s t := by
  unfold settingsIn at h
  unfold loadSettings
  rw [Work.get_bind, Work.get_bind]
  dsimp only at h ⊢
  split at h
  next hthere =>
    rw [if_pos hthere]
    exact settle_ok h t
  next hthere =>
    cases h
    rw [if_neg hthere]
    rfl

/-- What a compile request needs besides the text of its path file: a file that can be written,
settings that can be used, and hooks that can be read. -/
structure CompileRequest.Supplies (c : CompileRequest) (home : FileName) (store : FileStore) where
  /-- The file to write. -/
  output : FileName
  /-- The settings as the request changes them. -/
  settings : Settings
  /-- The unit of feeds. -/
  unit : FeedUnit
  /-- The count of decimal places. -/
  places : Int
  /-- The feeds of travel and of retracts. -/
  feeds : Option Float × Option Float
  /-- The text of the start hook. -/
  hookStart : String
  /-- The text of the end hook. -/
  hookEnd : String
  /-- The request leads to the file to write. -/
  target_eq : c.target = .ok output
  /-- The file can be written. -/
  isWritable : store.IsWritable output
  /-- The settings can be read. -/
  settings_eq : (settingsIn store home c.settings).map c.adjust = .ok settings
  /-- The settings name the unit. -/
  unit_eq : settings.unit = .ok unit
  /-- The settings hold the count of decimal places. -/
  places_eq : settings.places = .integer places
  /-- The count of decimal places is no negative one. -/
  places_nonneg : 0 ≤ places
  /-- Every number can be read with so many decimal places. -/
  places_le : places + 309 ≤ Numeral.mostDoubleDigits
  /-- The settings hold feeds that are numbers. -/
  feeds_eq : settings.feeds = .ok feeds
  /-- The start hook can be read. -/
  hookStart_eq : hookText store c.hookStart = .ok hookStart
  /-- The end hook can be read. -/
  hookEnd_eq : hookText store c.hookEnd = .ok hookEnd

section

variable [Geometry]

/-- The paths of a file that can be read are loaded as its text is. -/
theorem loadPaths_eq {store : FileStore} {n : FileName} {text : String} {j : Job}
    (htext : (store.read n).bind readUnicode = .ok text) :
    loadPaths store j n = (PathFile.ofText n.text internalScale text).map j.withContents := by
  obtain ⟨bytes, hbytes, -⟩ := Fault.bind_eq_ok.mp htext
  rw [loadPaths, if_pos (FileStore.contains_of_read hbytes), htext]
  simp only [Except.map, bind, Except.bind]
  cases hcontents : PathFile.ofText n.text internalScale text with
  | ok contents =>
      have hload : Job.load n.text (some text) j = .ok () (j.withContents contents) :=
        Job.load_of_ok hcontents
      rw [hload]
      rfl
  | error f =>
      have hload : Job.load n.text (some text) j = .error f j := Job.load_of_error hcontents
      rw [hload]
      rfl

namespace CompileRequest.Supplies

variable {c : CompileRequest} {home : FileName} {store : FileStore} (s : c.Supplies home store)

/-- The operation of the request with its hooks. -/
def operation : Operation Float :=
  { c.operation with hookStart := s.hookStart, hookEnd := s.hookEnd }

/-- The job of the request with what its path file holds. -/
def job (contents : PathFile.Contents) : Job :=
  ⟨s.settings, contents.paths, contents.tabs, [s.operation]⟩

theorem prepare_eq {text : String} (htext : (store.read c.input).bind readUnicode = .ok text) :
    c.prepare s.settings store = (PathFile.ofText c.input.text internalScale text).map
      fun contents =>
        (⟨s.settings, contents.paths, contents.tabs, []⟩, s.hookStart, s.hookEnd) := by
  rw [CompileRequest.prepare, loadPaths_eq htext, s.hookStart_eq, s.hookEnd_eq]
  cases PathFile.ofText c.input.text internalScale text <;> rfl

theorem results_of_nil {contents : PathFile.Contents} (hpaths : contents.paths = []) :
    (s.job contents).results = .fail .noPaths := by
  rw [Job.results, if_pos (by rw [job, hpaths]; rfl)]

/-- A job with one operation fails exactly if that operation does. -/
theorem results_eq_error {contents : PathFile.Contents} {e : Fault} (hpaths : contents.paths ≠ []) :
    (s.job contents).results.outcome = .error e ↔
      (s.operation.run 0 contents.paths contents.tabs s.settings).outcome = .error e := by
  rw [Job.results, if_neg (by simpa [job] using hpaths)]
  simp only [job, Job.resultsFrom, Report.of_bind, Nat.cast_zero, Report.outcome_bind_eq_error]
  simp

/-- The results of a job with one operation are that of the operation, and they have a text. -/
theorem exists_formatValues {contents : PathFile.Contents}
    {rs : List (OperationResult FieldValue)} (h : (s.job contents).results.outcome = .ok rs) :
    ∃ text, (programOf rs).formatValues s.places = .ok text := by
  obtain ⟨-, hrs⟩ := Job.results_eq_ok.mp h
  cases hrs with
  | cons hr hnil =>
      cases hnil
      obtain ⟨text, htext⟩ := Operation.exists_formatValues_of_run s.feeds_eq s.places_nonneg
        s.places_le hr
      exact ⟨text, by rwa [programOf, List.flatMap_singleton]⟩

end CompileRequest.Supplies

end

/-! ## Compiling -/

/-- How compiling ends on a fault of an input file. -/
def reported (f : Fault) : Ending := if isComplaint f then .status 1 else .fault f

/-- How compiling ends on the outcome of its job. -/
def endingOf {α : Type} : Except Fault α → Ending
  | .ok _ => .status 0
  | .error (.rejected _) => .status 1
  | .error f => .fault f

/-- A terminal after some notices are shown. -/
def Terminal.after (t : Terminal) (notices : List (Notice Float)) : Terminal :=
  { t with complaints := t.complaints ++ logLines t.level notices }

theorem note_eq {α : Type} (r : Report Float α) (t : Terminal) :
    note r t = .ok r.outcome (t.after r.notices) :=
  rfl

theorem resultsOf_eq_ok [Geometry] {j : Job} {rs : List (OperationResult FieldValue)}
    (h : j.results.outcome = .ok rs) (t : Terminal) :
    resultsOf j t = .ok rs (t.after j.results.notices) := by
  rw [resultsOf, Work.bind_ok (note_eq _ _), h]
  rfl

theorem ending_resultsOf [Geometry] {α : Type} {j : Job} {f : Fault}
    (h : j.results.outcome = .error f) (g : List (OperationResult FieldValue) → Session α)
    (t : Terminal) : ending (resultsOf j >>= g) t = endingOf j.results.outcome := by
  have hresults : ∃ t', resultsOf j t = .error (endingOf j.results.outcome) t' := by
    rw [resultsOf, Work.bind_ok (note_eq _ _), h]
    cases f <;> exact ⟨_, rfl⟩
  obtain ⟨t', ht'⟩ := hresults
  exact ending_bind_error ht' g

theorem ending_sayViolations {α : Type} {count : Nat} {m : Session α} {t : Terminal} {e : Ending}
    (h : ∀ said, m.ending { t with said } = e) :
    ending (sayViolations count >>= fun _ => m) t = e := by
  unfold sayViolations
  split
  next => exact h t.said
  next => exact h _

theorem ending_writeProgram {n : FileName} {places : Int} {p : Program FieldValue} {text : String}
    {t : Terminal} (htext : p.formatValues places = .ok text) (hn : t.store.IsWritable n) :
    (writeProgram p n places).ending t = .status 0 := by
  have hwrite := Program.writeTo_eq_ok (u := ()).mpr ⟨text, htext, hn, rfl⟩
  rw [writeProgram, ending_bind_ok (onFiles_of_ok hwrite)]
  rfl

theorem writtenPlaces_eq {s : Settings} {places : Int} (h : s.places = .integer places) :
    s.writtenPlaces = places := by
  rw [Settings.writtenPlaces, h]

theorem CompileRequest.Supplies.ending_run [Geometry] {c : CompileRequest} {home : FileName}
    {store : FileStore} (s : c.Supplies home store) {text : String}
    (htext : (store.read c.input).bind readUnicode = .ok text) (level : Level) :
    c.run.ending ⟨level, [], [], store, home⟩ =
      match PathFile.ofText c.input.text internalScale text with
      | .error f => reported f
      | .ok contents => endingOf (s.job contents).results.outcome := by
  obtain ⟨loaded, hloaded, hadjust⟩ := Fault.map_eq_ok.mp s.settings_eq
  unfold CompileRequest.run
  rw [ending_bind_ok (settle_ok s.target_eq _),
    ending_bind_ok (loadSettings_eq ⟨level, [], [], store, home⟩ hloaded)]
  simp only [hadjust, ending_say, ending_get, s.prepare_eq htext]
  cases PathFile.ofText c.input.text internalScale text with
  | error f =>
    simp only [Except.map, reported]
    split <;> rfl
  | ok contents =>
    simp only [Except.map, ending_pure, ending_say]
    rw [ending_bind_ok (settle_ok s.unit_eq _), ending_say]
    cases hresults : (s.job contents).results.outcome with
    | error f =>
      rw [← hresults]
      exact ending_resultsOf hresults _ _
    | ok rs =>
      refine (ending_bind_ok (resultsOf_eq_ok hresults _) _).trans ?_
      obtain ⟨written, hwritten⟩ := s.exists_formatValues hresults
      rw [ending_say, writtenPlaces_eq s.places_eq]
      exact ending_sayViolations fun said => ending_writeProgram hwritten s.isWritable

theorem reported_eq_fault {f e : Fault} :
    reported f = .fault e ↔ f = e ∧ isComplaint e = false := by
  unfold reported
  split
  next hf =>
    constructor
    · intro h
      cases h
    · rintro ⟨rfl, he⟩
      exact absurd hf (by simp [he])
  next hf =>
    constructor
    · intro h
      cases h
      exact ⟨rfl, by simpa using hf⟩
    · rintro ⟨rfl, -⟩
      rfl

theorem reported_eq_status {f : Fault} {n : Nat} (h : reported f = .status n) : n = 1 := by
  unfold reported at h
  split at h <;> cases h
  rfl

theorem endingOf_eq_fault {α : Type} {r : Except Fault α} {e : Fault} :
    endingOf r = .fault e ↔ r = .error e ∧ ∀ broken, e ≠ .rejected broken := by
  cases r with
  | ok a => simp [endingOf]
  | error f => cases f <;> simp [endingOf] <;> rintro rfl <;> simp

theorem endingOf_eq_status {α : Type} {r : Except Fault α} {n : Nat} (h : endingOf r = .status n) :
    n = 0 ∨ n = 1 := by
  cases r with
  | ok a => cases h; exact .inl rfl
  | error f => cases f <;> cases h; exact .inr rfl

/-- What the paths of a path file can make a session end with. -/
theorem CompileRequest.Supplies.endingOf_results [Geometry] {c : CompileRequest} {home : FileName}
    {store : FileStore} (s : c.Supplies home store) (contents : PathFile.Contents) (e : Fault) :
    endingOf (s.job contents).results.outcome = .fault e ↔
      contents.paths = [] ∧ e = .noPaths ∨
      contents.paths ≠ [] ∧ (e.isArithmetic = true ∨ ∃ f, e = .geometry f) ∧
        (s.operation.run 0 contents.paths contents.tabs s.settings).outcome = .error e := by
  rw [endingOf_eq_fault]
  by_cases hpaths : contents.paths = []
  · have hrejected : ∀ broken, Fault.noPaths ≠ .rejected broken := by simp
    simp only [s.results_of_nil hpaths, Report.fail, Except.error.injEq, hpaths, true_and, ne_eq,
      not_true_eq_false, false_and, or_false]
    exact ⟨fun h => h.1.symm, fun h => ⟨h.symm, h ▸ hrejected⟩⟩
  · simp only [s.results_eq_error hpaths, hpaths, false_and, false_or, ne_eq, not_false_eq_true,
      true_and]
    constructor
    · rintro ⟨h, hrejected⟩
      rcases Operation.isArithmetic_of_run s.unit_eq s.places_eq s.feeds_eq h with hbroken | he
      · exact absurd hbroken (hrejected _)
      · exact ⟨he, h⟩
    · rintro ⟨he, h⟩
      refine ⟨h, ?_⟩
      rintro broken rfl
      rcases he with he | ⟨f, hf⟩
      · cases he
      · cases hf

theorem ending_run [Geometry] {arguments : List String} {home : FileName} {store : FileStore}
    {level : Level} {command : Command} (h : Request.ofArguments arguments = .ok ⟨level, command⟩) :
    (run arguments home store).ending = command.run.ending ⟨level, [], [], store, home⟩ := by
  simp only [run, h, Session.ending]
  cases command.run ⟨level, [], [], store, home⟩ <;> rfl

/-- Whatever the geometry library does, compiling a path file lets out exactly these faults: one
of its text that is no complaint, the lack of paths, and one of arithmetic or of the library in
the operation.  Otherwise it ends with status zero or one.  Under any name and in any unit, the
faults of a text that are no complaints are those of `PathFile.Escapes`. -/
theorem run_compile_fault_iff [Geometry] {arguments : List String} {home : FileName}
    {store : FileStore} {level : Level} {c : CompileRequest} {text : String}
    (hrequest : Request.ofArguments arguments = .ok ⟨level, .compile c⟩)
    (htext : (store.read c.input).bind readUnicode = .ok text) (s : c.Supplies home store) :
    (∀ (name : String) (scale : Float) (e : Fault),
      PathFile.ofText name scale text = .error e ∧ isComplaint e = false ↔
        ∃ fs, Json.parse text = .ok (.object fs) ∧ PathFile.Escapes scale fs e) ∧
    (∀ e, (run arguments home store).ending = .fault e ↔
      (∃ fs, Json.parse text = .ok (.object fs) ∧ PathFile.Escapes internalScale fs e) ∨
      ∃ contents, PathFile.ofText c.input.text internalScale text = .ok contents ∧
        (contents.paths = [] ∧ e = .noPaths ∨
          contents.paths ≠ [] ∧ (e.isArithmetic = true ∨ ∃ f, e = .geometry f) ∧
            (s.operation.run 0 contents.paths contents.tabs s.settings).outcome = .error e)) ∧
    ∀ n, (run arguments home store).ending = .status n → n = 0 ∨ n = 1 := by
  have hending : (run arguments home store).ending
      = match PathFile.ofText c.input.text internalScale text with
        | .error f => reported f
        | .ok contents => endingOf (s.job contents).results.outcome := by
    rw [ending_run hrequest]
    exact s.ending_run htext level
  refine ⟨fun name scale e => PathFile.ofText_eq_error, fun e => ?_, fun n hn => ?_⟩
  · rw [hending, ← @PathFile.ofText_eq_error _ c.input.text]
    cases PathFile.ofText c.input.text internalScale text with
    | error f => simp [reported_eq_fault]
    | ok contents => simp [s.endingOf_results]
  · rw [hending] at hn
    split at hn
    next => exact .inr (reported_eq_status hn)
    next => exact endingOf_eq_status hn

/-! ## One path file -/

/-- The files of a folder that holds a path file only. -/
def onePathFile (text : String) : FileStore := ⟨[(["p.json"], text.toUTF8)], []⟩

/-- The request to compile that path file. -/
def plainRequest : CompileRequest where
  input := ⟨false, ["p.json"]⟩
  output := none
  settings := none
  feedUnit := none
  withoutWear := false
  operation := { Operation.starter with name := "Cut" }
  hookStart := none
  hookEnd := none

/-- What the request needs is there, whatever the path file holds. -/
def plainSupplies (text : String) : plainRequest.Supplies ⟨true, ["home"]⟩ (onePathFile text) where
  output := ⟨false, ["p.gcode"]⟩
  settings := {}
  unit := .perMinute
  places := 3
  feeds := (some defaultTravelFeed, some defaultRetractFeed)
  hookStart := ""
  hookEnd := ""
  target_eq := rfl
  isWritable := ⟨rfl, rfl⟩
  settings_eq := rfl
  unit_eq := rfl
  places_eq := rfl
  places_nonneg := by decide
  places_le := by decide
  feeds_eq := rfl
  hookStart_eq := rfl
  hookEnd_eq := rfl

theorem read_onePathFile {text : String} (h : Text.unifyBreaks text.toList = text.toList) :
    ((onePathFile text).read plainRequest.input).bind readUnicode = .ok text := by
  have hdecode : String.fromUTF8? text.toUTF8 = some text := by
    rw [String.fromUTF8?, String.toUTF8_eq_toByteArray, dif_pos text.isValidUTF8]
    rfl
  change readUnicode text.toUTF8 = _
  simp only [readUnicode, hdecode, h, String.ofList_toList]

theorem plainRequest_ofArguments :
    Request.ofArguments ["compile", "p.json"] = .ok ⟨.warning, .compile plainRequest⟩ :=
  rfl

/-- The lack of paths is let out. -/
theorem noPaths_run_compile :
    (run ["compile", "p.json"] ⟨true, ["home"]⟩ (onePathFile "\x7b\"paths\": []\x7d")).ending
      = .fault .noPaths := by
  have hparse : Json.parse "\x7b\"paths\": []\x7d" = .ok (.object [("paths", .array [])]) := by cbv
  have hload : PathFile.ofText plainRequest.input.text internalScale "\x7b\"paths\": []\x7d"
      = .ok ⟨[], none⟩ := by
    rw [PathFile.ofText, hparse]
    rfl
  exact ((run_compile_fault_iff plainRequest_ofArguments (read_onePathFile rfl)
    (plainSupplies _)).2.1 .noPaths).mpr (.inr ⟨_, hload, .inl ⟨rfl, rfl⟩⟩)

/-- A path file whose paths are a number is a value of the wrong kind, which is no complaint. -/
theorem numberForPaths_escapes :
    PathFile.ofText "p.json" internalScale "\x7b\"paths\": 5\x7d" = .error .wrongKind ∧
      isComplaint .wrongKind = false ∧
      (run ["compile", "p.json"] ⟨true, ["home"]⟩ (onePathFile "\x7b\"paths\": 5\x7d")).ending
        = .fault .wrongKind := by
  have hparse : Json.parse "\x7b\"paths\": 5\x7d" = .ok (.object [("paths", .integer 5)]) := by cbv
  have hload : PathFile.ofText plainRequest.input.text internalScale "\x7b\"paths\": 5\x7d"
      = .error .wrongKind := by
    rw [PathFile.ofText, hparse]
    rfl
  refine ⟨hload, rfl, ?_⟩
  rw [ending_run plainRequest_ofArguments, Command.run,
    (plainSupplies _).ending_run (read_onePathFile rfl), hload]
  rfl

end CommandLine

end WireErosion
