import WireErosion.Proofs.CommandLine.Compiling

/-!
# What post-processing a file leaves

Post-processing a file takes the steps of post-processing a text one by one, and says things in
between.  So it ends as some work on the files does (`Session.Follows`): with status zero or with
the fault of the work, and with the files as the work leaves them.  One lemma for each kind of
step says so, and `PostRequest.follows_run` puts them together.

The file is read with its line breaks unified.  Lines end at all of them anyway, so the text that is
compensated is that of the bytes as they are (`parse_readAscii`).

A text that is compensated is in the file at the end if the file can be written
(`FileStore.IsWritable`).  Nothing makes the folder of a file that is to be written.  If it is not
there, that is a fault after all the work is done.
-/

namespace WireErosion

/-! ## Files -/

/-- The text of bytes in ASCII, with its line breaks as they are. -/
def asciiOf (bytes : ByteArray) : String := String.ofList (bytes.toList.map asciiChar)

theorem parse_readAscii (bytes : ByteArray) :
    Program.parse (readAscii bytes) = Program.parse (asciiOf bytes) := by
  rw [Program.parse, Program.parse, readAscii, asciiOf, String.toList_ofList, String.toList_ofList,
    Text.lines_unifyBreaks]

namespace CommandLine

/-! ## Sessions and computations of files -/

/-- The session wrote bytes to a file, and changed nothing else. -/
structure Transcript.Wrote (r : Transcript) (before : FileStore) (n : FileName)
    (bytes : ByteArray) : Prop where
  /-- It ended with status zero. -/
  ending : r.ending = .status 0
  /-- The file holds the bytes. -/
  written : r.terminal.store.read n = .ok bytes
  /-- Every other file holds what it held. -/
  others : ∀ k, k ≠ FileStore.key n → r.terminal.store.bytes? k = before.bytes? k
  /-- The folders are the same. -/
  folders : r.terminal.store.folders = before.folders

/-- The session let out a fault, and changed no file. -/
structure Transcript.LetOut (r : Transcript) (before : FileStore) (f : Fault) : Prop where
  /-- It ended with the fault. -/
  ending : r.ending = .fault f
  /-- The files are the same. -/
  store : r.terminal.store = before

namespace Session

variable {α β : Type} {t t' : Terminal}

/-- What is left of a session that starts at a terminal. -/
def transcript (m : Session Unit) (t : Terminal) : Transcript :=
  match m t with
  | .ok _ t' => ⟨.status 0, t'⟩
  | .error e t' => ⟨e, t'⟩

/-- A session ends as some work on its files does, and leaves them as the work does. -/
def Follows (m : Session Unit) (t : Terminal) (w : FileStore.Work Unit) : Prop :=
  match w t.store with
  | .ok _ after => (m.transcript t).ending = .status 0 ∧ (m.transcript t).terminal.store = after
  | .error f after => (m.transcript t).ending = .fault f ∧ (m.transcript t).terminal.store = after

variable {w : FileStore.Work Unit}

/-- A session goes on from one that has a result and changes no file. -/
theorem follows_bind {m : Session α} {a : α} {f : α → Session Unit} (hm : m t = .ok a t')
    (hstore : t'.store = t.store) (h : (f a).Follows t' w) : Follows (m >>= f) t w := by
  have htranscript : transcript (m >>= f) t = (f a).transcript t' := by
    rw [transcript, Work.bind_ok hm, transcript]
  unfold Follows at h ⊢
  rwa [htranscript, ← hstore]

/-- A session ends with a fault of what it needs, or goes on. -/
theorem follows_settle {x : Except Fault α} {f : α → Session Unit} {k : α → FileStore.Work Unit}
    (h : ∀ a, x = .ok a → (f a).Follows t (k a)) :
    Follows (settle x >>= f) t (ofExcept x >>= k) := by
  cases x with
  | error e => exact ⟨rfl, rfl⟩
  | ok a => exact follows_bind rfl rfl (h a rfl)

/-- A session shows the notices of a report, and ends with its fault or goes on. -/
theorem follows_report {r : Report Float α} {f : α → Session Unit} {k : α → FileStore.Work Unit}
    (h : ∀ a, r.outcome = .ok a → (f a).Follows (t.after r.notices) (k a)) :
    Follows (note r >>= fun x => settle x >>= f) t (ofExcept r.outcome >>= k) :=
  follows_bind (note_eq r t) rfl (follows_settle h)

theorem follows_say {line : String} {m : Session Unit}
    (h : ∀ said, m.Follows { t with said } w) : Follows (say line >>= fun _ => m) t w :=
  follows_bind rfl rfl (h _)

theorem follows_sayViolations {count : Nat} {m : Session Unit}
    (h : ∀ said, m.Follows { t with said } w) :
    Follows (sayViolations count >>= fun _ => m) t w := by
  unfold sayViolations
  split
  next => exact h t.said
  next => exact follows_say h

theorem follows_writeProgram (p : Program FieldValue) (n : FileName) (places : Int) (t : Terminal) :
    (writeProgram p n places).Follows t (p.writeTo n places) := by
  unfold Follows transcript writeProgram
  cases hwrite : p.writeTo n places t.store with
  | ok u after =>
      rw [Work.bind_ok (onFiles_of_ok hwrite)]
      exact ⟨rfl, rfl⟩
  | error f after =>
      rw [Work.bind_error (onFiles_of_error hwrite)]
      exact ⟨rfl, rfl⟩

/-- A session that follows a write leaves what was written, if it can be. -/
theorem Follows.wrote {m : Session Unit} {n : FileName} {bytes : ByteArray}
    (h : m.Follows t (FileStore.write n bytes)) (hn : t.store.IsWritable n) :
    (m.transcript t).Wrote t.store n bytes := by
  rw [Follows, FileStore.write_of_isWritable hn] at h
  obtain ⟨hending, hstore⟩ := h
  refine ⟨hending, ?_, ?_, ?_⟩
  · rw [hstore, FileStore.read_holding hn]
  · rw [hstore]
    exact (FileStore.bytes?_holding t.store n bytes).2
  · rw [hstore]
    rfl

theorem Follows.letOut {m : Session Unit} {n : FileName} {bytes : ByteArray}
    (h : m.Follows t (FileStore.write n bytes)) (hn : ¬ t.store.IsWritable n) :
    (m.transcript t).LetOut t.store (t.store.obstacle n) := by
  rw [Follows, FileStore.write_of_not_isWritable hn] at h
  exact ⟨h.1, h.2⟩

end Session

/-! ## Post-processing -/

open Session

variable {p : PostRequest} {settings : Settings} {bytes : ByteArray} {output : FileName}

/-- A file has a name that another one can be made of. -/
theorem PostRequest.exists_target {store : FileStore} (hfile : store.isFolder p.input = false) :
    ∃ output, p.target = .ok output := by
  unfold PostRequest.target
  cases p.output with
  | some n => exact ⟨n, rfl⟩
  | none =>
      have hparts : p.input.parts ≠ [] := fun h => by
        rw [store.isFolder_of_nil h] at hfile
        cases hfile
      obtain ⟨last, hlast⟩ := Option.isSome_iff_exists.mp (List.getLast?_isSome.mpr hparts)
      simp only [FileName.rename, FileName.stemAndExtension?, hlast, Option.map_some]
      exact ⟨_, rfl⟩

theorem outcome_postProcess (w : WearParams FieldValue) (places : Int) (text : String) :
    (postProcess w places text).outcome
      = (Program.parse text).outcome >>= fun program =>
          (program.compensateValues w).outcome >>= fun program =>
            program.checkValues.outcome >>= fun _ => program.formatValues places := by
  simp only [postProcess, Report.bind_eq, Report.outcome_bind_eq, Report.outcome_lift]

/-- Post-processing a file ends as post-processing its text and writing the result does. -/
theorem PostRequest.follows_run {t : Terminal} (htarget : p.target = .ok output)
    (hsettings : settingsIn t.store t.home p.settings = .ok settings)
    (hbytes : t.store.read p.input = .ok bytes) :
    p.run.Follows t
      (ofExcept (postProcess (p.wear settings) (p.writtenPlaces settings)
          (asciiOf bytes)).outcome >>=
        fun text => FileStore.write output (asciiText text).toUTF8) := by
  unfold PostRequest.run
  refine follows_bind (settle_ok htarget t) rfl (follows_bind (loadSettings_eq t hsettings) rfl ?_)
  refine follows_say fun said => follows_bind (m := get) rfl rfl ?_
  have hthere : ¬ (!t.store.contains p.input) = true := by
    simp [FileStore.contains_of_read hbytes]
  dsimp only
  -- the text that is read has other line breaks, but the same lines
  rw [if_neg hthere, outcome_postProcess, ← parse_readAscii]
  refine follows_bind (settle_ok hbytes _) rfl ?_
  simp only [Work.ofExcept_bind, bind_assoc]
  refine follows_report fun program _ => follows_say fun _ => follows_say fun _ => ?_
  refine follows_report fun program _ => follows_report fun check _ => ?_
  exact follows_sayViolations fun _ => follows_writeProgram program output _ _

theorem run_eq_transcript [Geometry] {arguments : List String} {home : FileName} {store : FileStore}
    {level : Level} {command : Command}
    (h : Request.ofArguments arguments = .ok ⟨level, command⟩) :
    run arguments home store = command.run.transcript ⟨level, [], [], store, home⟩ := by
  unfold run transcript
  cases hrun : command.run ⟨level, [], [], store, home⟩ with
  | ok u t => simp only [h, hrun]
  | error e t => simp only [h, hrun]

/-- Arguments that are read to their end ask for what their reading does. -/
theorem Request.ofArguments_post {arguments rest : List String} {main r : Reading}
    (hmain : mainGrammar.read arguments = .ok main)
    (hoperand : main.operand = some ("post" :: rest)) (hread : postGrammar.read rest = .ok r)
    (hcut : main.isCut = false ∧ r.isCut = false) (hextras : main.extras ++ r.extras = []) :
    Request.ofArguments arguments
      = .ok ⟨((main.value? "--log-level").bind Level.named?).getD .warning,
          .post (postRequest r)⟩ := by
  obtain ⟨given, operand, extras, cut⟩ := main
  obtain ⟨given', operand', extras', cut'⟩ := r
  obtain ⟨rfl, rfl⟩ := hcut
  obtain ⟨rfl, rfl⟩ := List.append_eq_nil_iff.mp hextras
  obtain rfl := hoperand
  have hgrammar : (if "post" = "compile" then compileGrammar else postGrammar) = postGrammar := rfl
  simp only [Request.ofArguments, hmain, Except.mapError, bind, Except.bind, hgrammar, hread]
  rfl

/-- Post-processing the file of some bytes agrees with post-processing their text: what is a fault
of one is let out by the other, and a text is in the file at the end, as ASCII, if the file can be
written. -/
theorem run_post_agrees [Geometry] {arguments : List String} {home : FileName} {store : FileStore}
    {level : Level} (hrequest : Request.ofArguments arguments = .ok ⟨level, .post p⟩)
    (hsettings : settingsIn store home p.settings = .ok settings)
    (hfile : store.isFolder p.input = false) (hbytes : store.read p.input = .ok bytes) :
    ∃ output, p.target = .ok output ∧
      (∀ text,
        (postProcess (p.wear settings) (p.writtenPlaces settings) (asciiOf bytes)).outcome
            = .ok text →
          (store.IsWritable output →
            (run arguments home store).Wrote store output (asciiText text).toUTF8) ∧
          (¬ store.IsWritable output →
            (run arguments home store).LetOut store (store.obstacle output))) ∧
      ∀ f,
        (postProcess (p.wear settings) (p.writtenPlaces settings) (asciiOf bytes)).outcome
            = .error f →
          (run arguments home store).LetOut store f := by
  obtain ⟨output, htarget⟩ := PostRequest.exists_target hfile
  have hfollows := PostRequest.follows_run (t := ⟨level, [], [], store, home⟩) htarget hsettings
    hbytes
  rw [run_eq_transcript hrequest]
  refine ⟨output, htarget, fun text htext => ?_, fun f hf => ?_⟩
  · rw [htext] at hfollows
    exact ⟨hfollows.wrote, hfollows.letOut⟩
  · rw [hf] at hfollows
    exact ⟨hfollows.1, hfollows.2⟩

/-! ## One program file -/

/-- A program file, and some folders. -/
def oneProgramFile (text : String) (folders : List (List String)) : FileStore :=
  ⟨[(["p.gcode"], text.toUTF8)], folders⟩

/-- A program with breaks of every kind and a letter that is not ASCII. -/
def mixedProgram : String := "; caf\u00e9\r; cut\nG1 X0 Y0\r\nG1 X0.3 Y0"

/-- Arguments that ask for that file, and for the result in a folder. -/
def folderArguments : List String :=
  ["p.gcode", "--wear-ratio", "0.01", "--pass-depth", "1", "--plunge-feed", "50", "-o", "d/q.gcode"]

/-- The request that they make. -/
def folderPost : PostRequest where
  input := ⟨false, ["p.gcode"]⟩
  output := some ⟨false, ["d", "q.gcode"]⟩
  settings := none
  wearRatio := 0.01
  passDepth := 1
  plungeFeed := 50
  travelFeed := none
  retractFeed := none
  places := none

/-- What is read from them. -/
def folderReading : Reading where
  given := [("-o", "d/q.gcode"), ("--plunge-feed", "50"), ("--pass-depth", "1"),
    ("--wear-ratio", "0.01")]
  operand := some ["p.gcode"]

theorem folderArguments_request :
    Request.ofArguments ("post" :: folderArguments) = .ok ⟨.warning, .post folderPost⟩ := by
  have hmain : mainGrammar.read ("post" :: folderArguments)
      = .ok ⟨[], some ("post" :: folderArguments), [], false⟩ := by decide +kernel
  have hread : postGrammar.read folderArguments = .ok folderReading := by decide +kernel
  have hratio : folderReading.number? "--wear-ratio" = some 0.01 := by decide +kernel
  have hdepth : folderReading.number? "--pass-depth" = some 1 := by decide +kernel
  have hfeed : folderReading.number? "--plunge-feed" = some 50 := by decide +kernel
  have houtput : folderReading.file? "-o" = some ⟨false, ["d", "q.gcode"]⟩ := by decide +kernel
  rw [Request.ofArguments_post hmain rfl hread ⟨rfl, rfl⟩ rfl, postRequest, hratio, hdepth, hfeed,
    houtput]
  rfl

/-- The text of the result is written if its folder is there. -/
theorem folder_run_post :
    (run ("post" :: folderArguments) ⟨true, ["home"]⟩ (oneProgramFile mixedProgram [["d"]])).Wrote
      (oneProgramFile mixedProgram [["d"]]) ⟨false, ["d", "q.gcode"]⟩
      "; caf??\r\n; cut\r\nG1 X0.000 Y0.000 Z-1.000\r\nG1 X0.300 Y0.000 Z-1.003\r\n".toUTF8 := by
  have hsettings : settingsIn (oneProgramFile mixedProgram [["d"]]) ⟨true, ["home"]⟩
      folderPost.settings = .ok {} := rfl
  have hbytes : (oneProgramFile mixedProgram [["d"]]).read folderPost.input
      = .ok mixedProgram.toUTF8 := rfl
  have hpost : (postProcess (folderPost.wear {}) (folderPost.writtenPlaces {})
      (asciiOf mixedProgram.toUTF8)).outcome
      = .ok ("; caf\ufffd\ufffd\r\n; cut\r\nG1 X0.000 Y0.000 Z-1.000\r\n"
          ++ "G1 X0.300 Y0.000 Z-1.003\r\n") := by decide +kernel
  have hascii : asciiText ("; caf\ufffd\ufffd\r\n; cut\r\nG1 X0.000 Y0.000 Z-1.000\r\n"
      ++ "G1 X0.300 Y0.000 Z-1.003\r\n")
      = "; caf??\r\n; cut\r\nG1 X0.000 Y0.000 Z-1.000\r\nG1 X0.300 Y0.000 Z-1.003\r\n" := by
    decide +kernel
  obtain ⟨output, htarget, hwrites, -⟩ :=
    run_post_agrees folderArguments_request hsettings rfl hbytes
  cases htarget
  rw [← hascii]
  exact (hwrites _ hpost).1 ⟨rfl, rfl⟩

/-- Nothing makes the folder of the result. -/
theorem noFolder_run_post :
    Request.ofArguments ("post" :: folderArguments) = .ok ⟨.warning, .post folderPost⟩ ∧
      settingsIn (oneProgramFile "M5\n" []) ⟨true, ["home"]⟩ folderPost.settings = .ok {} ∧
      (oneProgramFile "M5\n" []).read folderPost.input = .ok "M5\n".toUTF8 ∧
      (postProcess (folderPost.wear {}) (folderPost.writtenPlaces {})
          (asciiOf "M5\n".toUTF8)).outcome = .ok "M5\r\n" ∧
      (run ("post" :: folderArguments) ⟨true, ["home"]⟩ (oneProgramFile "M5\n" [])).LetOut
        (oneProgramFile "M5\n" []) (.noSuchFile "d/q.gcode") := by
  have hsettings : settingsIn (oneProgramFile "M5\n" []) ⟨true, ["home"]⟩ folderPost.settings
      = .ok {} := rfl
  have hbytes : (oneProgramFile "M5\n" []).read folderPost.input = .ok "M5\n".toUTF8 := rfl
  have hpost : (postProcess (folderPost.wear {}) (folderPost.writtenPlaces {})
      (asciiOf "M5\n".toUTF8)).outcome = .ok "M5\r\n" := by decide +kernel
  refine ⟨folderArguments_request, hsettings, hbytes, hpost, ?_⟩
  have hnot : ¬ (oneProgramFile "M5\n" []).IsWritable ⟨false, ["d", "q.gcode"]⟩ := fun h =>
    Bool.false_ne_true h.2
  have hfollows := PostRequest.follows_run (p := folderPost)
    (t := ⟨.warning, [], [], oneProgramFile "M5\n" [], ⟨true, ["home"]⟩⟩) rfl hsettings hbytes
  rw [hpost] at hfollows
  rw [run_eq_transcript folderArguments_request]
  exact Session.Follows.letOut hfollows hnot

end CommandLine

end WireErosion
