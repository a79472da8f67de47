import WireErosion.Proofs.Toolpath.Progress
import WireErosion.Proofs.Toolpath.RoundTrip
import WireErosion.Proofs.Wear.Grammar
import WireErosion.Proofs.Wear.Travel

/-!
# Compiled programs taken apart

What the wear pass makes of a compiled program when it takes it apart.  Each cut marker gives a
cut block (`cutsFrom_at`), and each retract a plunge block, which goes on as far as the groups
after it can be part of it (`plungeBlocks`).  A block that gets as far as the travel to a vertex
has the roles of the retract, the travel and the way down to the finished depth, and that of the
plunge if and only if a descent follows there (`plungeBlocks_travelsIn`).

If there are no tabs, no path may be closed and the cut is below the clearance height, then the tool
rises between any two passes.  Each pass is then one cut between two plunge blocks, and nothing else
is left of the program (`ToolpathParams.part_of_compile`).
-/

namespace WireErosion

variable {α : Type}

/-! ## Cut blocks -/

/-- The block that is open goes on with the moves at the front. -/
theorem cutsFrom_open : ∀ (n : Nat) (p : Program α),
    (cutsFrom n true p).1 = (leadingMoves p).map .move
  | _, [] => rfl
  | n, .move m :: p => by
      rw [cutsFrom_move (by simp) rfl, leadingMoves, List.map_cons, cutsFrom_open n p]
  | n, .comment t :: p => by
      by_cases hcut : Line.kind (.comment t : Line α) = .cut
      · rw [cutsFrom_cut hcut]
        rfl
      · rw [cutsFrom_outside hcut rfl]
        rfl

/-- Only a cut marker starts a block. -/
theorem blocks_cutsFrom_cons {l : Line α} (hl : l.kind ≠ .cut) (n : Nat) (inside : Bool)
    (p : Program α) :
    (cutsFrom n inside (l :: p)).2.1 = (cutsFrom n (inside && l.isMove) p).2.1 := by
  cases hopen : inside && l.isMove with
  | false => rw [cutsFrom_outside hl hopen]
  | true =>
      obtain ⟨rfl, hmove⟩ := Bool.and_eq_true_iff.mp hopen
      rw [cutsFrom_move hl hmove]

theorem length_cutsFrom : ∀ (n : Nat) (inside : Bool) (p : Program α),
    (cutsFrom n inside p).2.1.length = p.countP fun l => l.kind = .cut
  | _, _, [] => rfl
  | n, inside, l :: p => by
      by_cases hcut : l.kind = .cut
      · rw [cutsFrom_cut hcut, List.length_cons, length_cutsFrom,
          List.countP_cons_of_pos (by simpa)]
      · rw [blocks_cutsFrom_cons hcut, length_cutsFrom, List.countP_cons_of_neg (by simpa)]

/-- A cut marker and the moves after it are a block. -/
theorem cutsFrom_at {l : Line α} (hl : l.kind = .cut) (post : Program α) :
    ∀ (n : Nat) (inside : Bool) (pre : Program α),
      (cutsFrom n inside (pre ++ l :: post)).2.1[pre.countP fun l => l.kind = .cut]?
        = some ⟨l :: (leadingMoves post).map .move, none⟩
  | n, inside, [] => by
      rw [List.nil_append, cutsFrom_cut hl, cutsFrom_open]
      rfl
  | n, inside, k :: pre => by
      rw [List.cons_append]
      by_cases hcut : k.kind = .cut
      · rw [cutsFrom_cut hcut, List.countP_cons_of_pos (by simpa), List.getElem?_cons_succ]
        exact cutsFrom_at hl post _ _ pre
      · rw [blocks_cutsFrom_cons hcut, List.countP_cons_of_neg (by simpa)]
        exact cutsFrom_at hl post _ _ pre

/-! ## Plunge blocks -/

/-- Whether some lines start with the marker of a descent. -/
def startsDescent : Program α → Bool
  | [] => false
  | l :: _ => l.kind = .plunge || l.kind = .ramp

/-- The roles of a plunge block with a travel, and with a descent or without one. -/
def travelRoles (descends : Bool) : List PlungeRole :=
  .retract :: .travel :: .zeroPlunge :: if descends then [.plunge] else []

/-- A plunge block that gets as far as the travel to a vertex, and that has `i` others before it
in a program.  It has the roles of its retract, of the travel and of the way down to the finished
depth.  Its last move has that of a descent, just when the line after that way starts one. -/
def PlungeBlock.TravelsIn (p : Program α) (i : ℕ) (b : PlungeBlock α) : Prop :=
  ∃ (before after : Program α) (rise t d : Move α) (header tail : PlungeBlock α),
    p = before ++ (b.lines ++ after) ∧ before.countP (fun l => l.kind = .retract) = i ∧
    b = [⟨.retract, none⟩, ⟨.move rise, some .retract⟩] ++ header
      ++ [⟨.rapidToStart, none⟩, ⟨.move t, some .travel⟩, ⟨.move d, some .zeroPlunge⟩] ++ tail ∧
    b.roles.reduceOption = travelRoles (startsDescent (tail.lines ++ after)) ∧
    (startsDescent (tail.lines ++ after) = true → ∃ front m, b = front ++ [⟨.move m, some .plunge⟩])

theorem Stage.run_closed (gs : List (MoveGroup α)) : Stage.closed.run gs = [] := by
  cases gs with
  | nil => rfl
  | cons g gs =>
      cases g with
      | retract m => exact Stage.run_retract ..
      | _ => exact Stage.run_none rfl gs

/-- What an open block goes on with is at the front of the groups. -/
theorem Stage.exists_run : ∀ (stage : Stage) (gs : List (MoveGroup α)),
    ∃ rest, gs = stage.run gs ++ rest
  | _, [] => ⟨[], rfl⟩
  | stage, g :: gs => by
      rcases stage.run_cons g gs with hrun | ⟨next, -, -, hrun⟩
      · exact ⟨g :: gs, by rw [hrun, List.nil_append]⟩
      · obtain ⟨rest, hrest⟩ := Stage.exists_run next gs
        exact ⟨rest, by rw [hrun, List.cons_append, ← hrest]⟩

theorem MoveGroup.lines_steps {stage next : Stage} {g : MoveGroup α}
    (h : stage.next? g = some next) : PlungeBlock.lines g.steps = g.lines := by
  cases g with
  | ramp way last => simp [PlungeBlock.lines, steps, lines, comments, moves]
  | ontoTab m => cases stage <;> cases h
  | cut ms => cases stage <;> cases h
  | _ => rfl

theorem PlungeBlock.lines_append (b c : PlungeBlock α) : (b ++ c).lines = b.lines ++ c.lines :=
  List.map_append

/-- The lines of what an open block goes on with. -/
theorem lines_steps_run : ∀ (stage : Stage) (gs : List (MoveGroup α)),
    PlungeBlock.lines ((stage.run gs).flatMap MoveGroup.steps) = groupLines (stage.run gs)
  | _, [] => rfl
  | stage, g :: gs => by
      rcases stage.run_cons g gs with hrun | ⟨next, hnext, -, hrun⟩
      · rw [hrun]
        rfl
      · rw [hrun, List.flatMap_cons, PlungeBlock.lines_append, MoveGroup.lines_steps hnext,
          lines_steps_run next gs]
        rfl

/-- After a travel there is a descent or nothing. -/
theorem run_travelled (gs : List (MoveGroup α)) :
    (startsDescent (groupLines gs) = false ∧ Stage.travelled.run gs = []) ∨
    (startsDescent (groupLines gs) = true ∧ ∃ (front : PlungeBlock α) (m : Move α),
      (Stage.travelled.run gs).flatMap MoveGroup.steps = front ++ [⟨.move m, some .plunge⟩] ∧
      front.roles.reduceOption = []) := by
  cases gs with
  | nil => exact .inl ⟨rfl, rfl⟩
  | cons g gs =>
      cases g with
      | plunge m =>
          have hnext : Stage.travelled.next? (.plunge m) = some .closed := rfl
          refine .inr ⟨by simp [startsDescent, MoveGroup.lines, MoveGroup.comments],
            [⟨.plunge, none⟩], m, ?_, rfl⟩
          rw [Stage.run_some hnext (by simp), Stage.run_closed]
          rfl
      | ramp way last =>
          have hnext : Stage.travelled.next? (.ramp way last) = some .closed := rfl
          refine .inr ⟨by simp [startsDescent, MoveGroup.lines, MoveGroup.comments],
            ⟨.ramp, none⟩ :: way.map fun m => ⟨.move m, none⟩, last, ?_, ?_⟩
          · rw [Stage.run_some hnext (by simp), Stage.run_closed]
            simp [MoveGroup.steps]
          · simp [PlungeBlock.roles, List.reduceOption, Function.comp_def]
      | _ => exact .inl ⟨by simp [startsDescent, MoveGroup.lines, MoveGroup.comments],
          by simp [Stage.run, Stage.next?]⟩

/-- After a rise there are headers, and perhaps a travel. -/
theorem run_lifted : ∀ gs : List (MoveGroup α),
    (∀ t d, .travel t d ∉ Stage.lifted.run gs) ∨
    ∃ (headers rest : List (MoveGroup α)) (t d : Move α),
      gs = headers ++ MoveGroup.travel t d :: rest ∧
      (∀ g ∈ headers, ∃ i, g = .header i) ∧
      Stage.lifted.run gs = headers ++ MoveGroup.travel t d :: Stage.travelled.run rest
  | [] => .inl (by simp [Stage.run])
  | g :: gs => by
      cases g with
      | header i =>
          have hrun : Stage.lifted.run (.header i :: gs) = .header i :: Stage.lifted.run gs :=
            Stage.run_some rfl (by simp) gs
          rcases run_lifted gs with hnone | ⟨headers, rest, t, d, rfl, hheaders, hrest⟩
          · refine .inl fun t d hmem => hnone t d ?_
            rw [hrun] at hmem
            simpa using hmem
          · refine .inr ⟨.header i :: headers, rest, t, d, rfl, ?_, by rw [hrun, hrest]; rfl⟩
            exact List.forall_mem_cons.mpr ⟨⟨i, rfl⟩, hheaders⟩
      | travel t d => exact .inr ⟨[], gs, t, d, rfl, by simp, Stage.run_some rfl (by simp) gs⟩
      | retract m => exact .inl (by simp [Stage.run_retract])
      | plunge m =>
          have hnext : Stage.lifted.next? (.plunge m) = some .closed := rfl
          refine .inl fun t d hmem => ?_
          rw [Stage.run_some hnext (by simp), Stage.run_closed] at hmem
          simp at hmem
      | ramp way last =>
          have hnext : Stage.lifted.next? (.ramp way last) = some .closed := rfl
          refine .inl fun t d hmem => ?_
          rw [Stage.run_some hnext (by simp), Stage.run_closed] at hmem
          simp at hmem
      | ontoTab m => exact .inl (by simp [Stage.run, Stage.next?])
      | cut ms => exact .inl (by simp [Stage.run, Stage.next?])

/-- Each block begins at a retract. -/
theorem plungeBlocks_at : ∀ {gs : List (MoveGroup α)} {i : ℕ} {b : PlungeBlock α},
    (plungeBlocks gs)[i]? = some b → ∃ (before rest : List (MoveGroup α)) (rise : Move α),
      gs = before ++ MoveGroup.retract rise :: rest ∧
      (groupLines before).countP (fun l => l.kind = .retract) = i ∧
      b = (MoveGroup.retract rise).steps ++ (Stage.lifted.run rest).flatMap MoveGroup.steps
  | [], _, _, h => by simp [plungeBlocks] at h
  | g :: gs, i, b, h => by
      by_cases hlift : ∃ rise, g = .retract rise
      · obtain ⟨rise, rfl⟩ := hlift
        rw [plungeBlocks] at h
        cases i with
        | zero => exact ⟨[], gs, rise, rfl, rfl, (Option.some.inj h).symm⟩
        | succ i =>
            obtain ⟨before, rest, rise', rfl, hcount, hb⟩ := plungeBlocks_at h
            refine ⟨.retract rise :: before, rest, rise', rfl, ?_, hb⟩
            rw [groupLines_cons, List.countP_append, hcount, MoveGroup.lines, MoveGroup.comments]
            simp [MoveGroup.moves, Nat.add_comm]
      · have hlift' : ∀ rise, g ≠ .retract rise := fun rise h => hlift ⟨rise, h⟩
        rw [plungeBlocks_cons hlift'] at h
        obtain ⟨before, rest, rise, rfl, hcount, hb⟩ := plungeBlocks_at h
        refine ⟨g :: before, rest, rise, rfl, ?_, hb⟩
        have hnone : g.lines.countP (fun l => l.kind = .retract) = 0 :=
          List.countP_eq_zero.mpr fun l hl => by simpa using MoveGroup.kind_ne_retract hlift' hl
        rw [groupLines_cons, List.countP_append, hnone, hcount, Nat.zero_add]

theorem PlungeBlock.reduceOption_roles_append (b c : PlungeBlock α) :
    (b ++ c).roles.reduceOption = b.roles.reduceOption ++ c.roles.reduceOption := by
  rw [roles, List.map_append, List.reduceOption_append]
  rfl

theorem roles_headers : ∀ {headers : List (MoveGroup α)}, (∀ g ∈ headers, ∃ i, g = .header i) →
    (PlungeBlock.roles (headers.flatMap MoveGroup.steps)).reduceOption = []
  | [], _ => rfl
  | g :: headers, h => by
      obtain ⟨⟨i, rfl⟩, hheaders⟩ := List.forall_mem_cons.mp h
      exact (roles_headers hheaders :)

/-- A block that goes on with headers and a travel. -/
theorem travelsIn_of_run {before headers rest after : List (MoveGroup α)} {rise t d : Move α}
    (hheaders : ∀ g ∈ headers, ∃ i, g = .header i)
    (hrest : rest = Stage.travelled.run rest ++ after) :
    PlungeBlock.TravelsIn
      (groupLines (before ++ MoveGroup.retract rise :: (headers ++ MoveGroup.travel t d :: rest)))
      ((groupLines before).countP fun l => l.kind = .retract)
      ((MoveGroup.retract rise).steps ++ headers.flatMap MoveGroup.steps
        ++ (MoveGroup.travel t d).steps
        ++ (Stage.travelled.run rest).flatMap MoveGroup.steps) := by
  have hheader : PlungeBlock.lines (headers.flatMap MoveGroup.steps) = groupLines headers := by
    rw [PlungeBlock.lines, groupLines, List.map_flatMap]
    refine List.flatMap_congr fun g hg => ?_
    obtain ⟨i, rfl⟩ := hheaders g hg
    rfl
  have htail : PlungeBlock.lines ((Stage.travelled.run rest).flatMap MoveGroup.steps)
      ++ groupLines after = groupLines rest := by
    rw [lines_steps_run, ← groupLines_append, ← hrest]
  refine ⟨groupLines before, groupLines after, rise, t, d, _, _, ?_, rfl, rfl, ?_, ?_⟩
  · rw [PlungeBlock.lines_append, PlungeBlock.lines_append, PlungeBlock.lines_append, hheader,
      List.append_assoc _ _ (groupLines after), htail]
    simp
    rfl
  · rw [htail]
    simp only [PlungeBlock.reduceOption_roles_append, roles_headers hheaders, List.append_nil]
    rcases run_travelled rest with ⟨hstart, hnil⟩ | ⟨hstart, front, m, hfront, hroles⟩
    · rw [hstart, hnil]
      rfl
    · rw [hstart, hfront, PlungeBlock.reduceOption_roles_append, hroles]
      rfl
  · rw [htail]
    intro hstart
    rcases run_travelled rest with ⟨hstart', -⟩ | ⟨-, front, m, hfront, -⟩
    · rw [hstart] at hstart'
      cases hstart'
    · rw [hfront, ← List.append_assoc]
      exact ⟨_, m, rfl⟩

/-- The plunge blocks that get as far as the travel. -/
theorem plungeBlocks_travelsIn {gs : List (MoveGroup α)} {i : ℕ} {b : PlungeBlock α}
    (h : (plungeBlocks gs)[i]? = some b) (htravel : ∃ l ∈ b.lines, l.kind = .rapidToStart) :
    b.TravelsIn (groupLines gs) i := by
  obtain ⟨before, rest, rise, rfl, rfl, rfl⟩ := plungeBlocks_at h
  rcases run_lifted rest with hnone | ⟨headers, rest, t, d, rfl, hheaders, hrun⟩
  · have hlines : PlungeBlock.lines ((MoveGroup.retract rise).steps
        ++ (Stage.lifted.run rest).flatMap MoveGroup.steps)
          = groupLines (.retract rise :: Stage.lifted.run rest) := by
      rw [PlungeBlock.lines_append, lines_steps_run]
      rfl
    obtain ⟨l, hl, hkind⟩ := htravel
    rw [hlines, groupLines, List.mem_flatMap] at hl
    obtain ⟨g, hg, hl⟩ := hl
    refine absurd hkind (MoveGroup.kind_ne_of_marks (by simp) ?_ hl)
    cases g with
    | travel t d =>
        rcases List.mem_cons.mp hg with hg | hg
        · cases hg
        · exact absurd hg (hnone t d)
    | _ => simp [MoveGroup.marks]
  · obtain ⟨after, hafter⟩ := Stage.exists_run .travelled rest
    have hblock : PlungeBlock.TravelsIn
        (groupLines (before ++ MoveGroup.retract rise
          :: (headers ++ MoveGroup.travel t d :: rest))) _ _ :=
      travelsIn_of_run hheaders hafter
    rwa [List.append_assoc, List.append_assoc, ← List.flatMap_cons, ← List.flatMap_append,
      ← hrun] at hblock

/-! ## What is left -/

/-- What is left of some groups after a stage, where `m` cuts and `n` plunges came before. -/
def leftOf (m n : ℕ) (stage : Stage) (gs : List (MoveGroup α)) : Residue α :=
  (plungesFrom n stage.phase (cutsRemoved m gs)).2.2

section

variable {m n : ℕ} {gs : List (MoveGroup α)}

theorem leftOf_cut (stage : Stage) (ms : List (Move α)) :
    leftOf m n stage (.cut ms :: gs) = .handle ⟨.cut, m⟩ :: leftOf (m + 1) n .closed gs := by
  rw [leftOf, cutsRemoved, plungesFrom_handle]
  rfl

theorem leftOf_retract (stage : Stage) (rise : Move α) :
    leftOf m n stage (.retract rise :: gs) =
      .handle ⟨.plunge, n⟩ :: leftOf m (n + 1) .lifted gs := by
  rw [leftOf, cutsRemoved_cons (by simp), plungesFrom_retractGroup]
  rfl

theorem leftOf_next {stage next : Stage} {g : MoveGroup α} (hg : g.Regular)
    (hnext : stage.next? g = some next) (hlift : ∀ rise, g ≠ .retract rise) :
    leftOf m n stage (g :: gs) = leftOf m n next gs := by
  have hcut : ∀ ms, g ≠ .cut ms := by
    rintro ms rfl
    cases stage <;> cases hnext
  rw [leftOf, cutsRemoved_cons hcut,
    plungesFrom_next hg hnext hlift (startsWithMove_cutsRemoved m gs)]
  rfl

end

/-- The descent of a pass, which may be missing. -/
def IsDescent (entry : List (MoveGroup α)) : Prop :=
  entry = [] ∨ (∃ last, entry = [.plunge last]) ∨ ∃ way last, entry = [.ramp way last]

/-- The groups of some passes, with a rise after each of them, and with headers of paths. -/
inductive PassGroups : ℕ → List (MoveGroup α) → Prop
  | done : PassGroups 0 []
  | header {k : ℕ} {gs : List (MoveGroup α)} (i : Nat) :
      PassGroups k gs → PassGroups k (.header i :: gs)
  | pass {k : ℕ} {t d rise : Move α} {entry gs : List (MoveGroup α)} {ms : List (Move α)} :
      IsDescent entry → PassGroups k gs →
      PassGroups (k + 1) (.travel t d :: (entry ++ MoveGroup.cut ms :: .retract rise :: gs))

/-- What is left of a descent and the cut after it. -/
theorem leftOf_descent {m n : ℕ} {entry gs : List (MoveGroup α)} (h : IsDescent entry)
    (hregular : ∀ g ∈ entry, g.Regular) (ms : List (Move α)) :
    leftOf m n .travelled (entry ++ MoveGroup.cut ms :: gs)
      = .handle ⟨.cut, m⟩ :: leftOf (m + 1) n .closed gs := by
  rcases h with rfl | ⟨last, rfl⟩ | ⟨way, last, rfl⟩
  · exact leftOf_cut .travelled ms
  · have hnext : Stage.travelled.next? (.plunge last) = some .closed := rfl
    rw [List.singleton_append, leftOf_next (hregular _ (by simp)) hnext (by simp), leftOf_cut]
  · have hnext : Stage.travelled.next? (.ramp way last) = some .closed := rfl
    rw [List.singleton_append, leftOf_next (hregular _ (by simp)) hnext (by simp), leftOf_cut]

/-- A cut and a plunge are left of each pass. -/
theorem PassGroups.leftOf_eq {k : ℕ} {gs : List (MoveGroup α)} (h : PassGroups k gs) :
    ∀ m n : ℕ, (∀ g ∈ gs, g.Regular) →
      leftOf m n .lifted gs
        = (List.range k).flatMap fun i =>
          [.handle ⟨.cut, (m + i : ℕ)⟩, .handle ⟨.plunge, (n + i : ℕ)⟩] := by
  induction h with
  | done => exact fun _ _ _ => rfl
  | header i _ ih =>
      intro m n hgs
      obtain ⟨hheader, hgs⟩ := List.forall_mem_cons.mp hgs
      rw [leftOf_next hheader rfl (by simp)]
      exact ih m n hgs
  | @pass k t d rise entry gs ms hentry _ ih =>
      intro m n hgs
      have hnext : Stage.lifted.next? (.travel t d) = some .travelled := rfl
      simp only [List.forall_mem_cons, List.forall_mem_append] at hgs
      obtain ⟨htravel, hdescent, -, -, hgs⟩ := hgs
      rw [leftOf_next htravel hnext (by simp), leftOf_descent hentry hdescent, leftOf_retract,
        ih (m + 1) (n + 1) hgs, List.range_succ_eq_map, List.flatMap_cons, List.flatMap_map]
      simp only [Nat.succ_eq_add_one, Nat.add_assoc, Nat.add_comm 1]
      rfl

/-- Groups taken apart. -/
theorem Program.part_groupLines {gs : List (MoveGroup α)} (hgs : ∀ g ∈ gs, g.Regular) :
    Program.part (groupLines gs) = ⟨cutBlocks gs, plungeBlocks gs, leftOf 0 0 .closed gs⟩ := by
  rw [Program.part, extractCuts, cutsFrom_groups]
  dsimp only
  rw [extractPlunges, ← (plungesFrom_cutsRemoved 0 0 .closed hgs).2]
  rfl

/-! ## Compiled programs -/

namespace ToolpathParams

variable [Scalar α] {c : ToolpathParams α}

/-- The number of passes over all paths.  There are none over an empty path. -/
def totalPasses (c : ToolpathParams α) (paths : List (CamPath α)) : ℕ :=
  (paths.map fun path => if path.points.isEmpty then 0 else c.passes.length).sum

theorem ofGroups_regular : c.OfGroups MoveGroup.Regular where
  rise _ := trivial
  header _ := trivial
  travel ht hd := ⟨ht.motion, ht.hasXY, hd.motion, hd.hasXY⟩
  entry h g hg := (h.runGroup g hg).2.2
  cut _ := trivial

theorem EmitsEntry.isDescent {tabTop fromZ toZ : α} {a : Point α} {rest : List (Point α)}
    {gs : List (MoveGroup α)} (h : c.EmitsEntry tabTop a rest fromZ toZ gs) (hup : ¬ fromZ < toZ) :
    IsDescent gs := by
  cases h with
  | level => exact .inl rfl
  | ontoTab _ hrise => exact absurd hrise hup
  | plunge => exact .inr (.inl ⟨_, rfl⟩)
  | ramp => exact .inr (.inr ⟨_, _, rfl⟩)

/-- Without tabs a pass is one run along the whole path. -/
theorem EmitsPass.of_whole (hflat : c.usePathZ = false) {p : Point α} {path : CamPath α}
    (hpoints : path.points ≠ []) {z last : α} {pass : Pass α} (hup : ¬ pass.finished < pass.next)
    {gs : List (MoveGroup α)} (h : c.EmitsPass none (c.ready none p path) z pass gs last) :
    last = pass.next ∧ ∃ lead travel drop entry ms,
      gs = lead ++ MoveGroup.travel travel drop :: (entry ++ [MoveGroup.cut ms]) ∧
      c.EmitsLead none (c.ready none p path) z lead ∧ IsDescent entry := by
  cases h with
  | @intro lead travel drop _ _ hlead _ _ hlegs =>
      obtain ⟨v, vs, hv⟩ := List.exists_cons_of_ne_nil hpoints
      have hruns : c.passRuns none (c.ready none p path) pass
          = [c.convert v :: vs.map c.convert] := by
        simp [passRuns, ToolpathParams.ready, runsOf, hv]
      rw [hruns] at hlegs
      cases hlegs with
      | @cut _ _ _ _ _ _ entry ms _ hentry _ hdone =>
          cases hdone
          rw [if_neg (by simp [hflat])] at hentry ⊢
          exact ⟨rfl, lead, travel, drop, entry, ms, by simp, hlead, hentry.isDescent hup⟩

/-- The passes over a path without tabs that may not be closed, and the groups after them. -/
theorem EmitsPasses.passGroups (hflat : c.usePathZ = false) {p : Point α} {path : CamPath α}
    (hpoints : path.points ≠ []) (hclose : path.safeToClose = false) {z : α}
    {passes : List (Pass α)} {parts : List (List (MoveGroup α))}
    (h : c.EmitsPasses none (c.ready none p path) z passes parts) (hne : passes ≠ [])
    (hchain : passes.IsChain fun pass _ => pass.next < c.safeZ)
    (hup : ∀ pass ∈ passes, ¬ pass.finished < pass.next) {k : ℕ} (rise : Move α)
    {rest : List (MoveGroup α)} (hrest : PassGroups k rest) :
    ∃ lead gs, parts.flatten ++ MoveGroup.retract rise :: rest = lead ++ gs ∧
      c.EmitsLead none (c.ready none p path) z lead ∧ PassGroups (passes.length + k) gs := by
  induction h with
  | done => exact absurd rfl hne
  | @pass z last pass passes gs parts hpass hpasses ih =>
      obtain ⟨hup, hups⟩ := List.forall_mem_cons.mp hup
      obtain ⟨rfl, lead, travel, drop, entry, ms, rfl, hlead, hentry⟩ :=
        hpass.of_whole hflat hpoints hup
      -- The tool rises after the pass, at the end of the path or before the next pass.
      have hrises : ∃ rise' gs',
          parts.flatten ++ MoveGroup.retract rise :: rest = .retract rise' :: gs' ∧
            PassGroups (passes.length + k) gs' := by
        cases hchain with
        | singleton =>
            cases hpasses
            exact ⟨rise, rest, rfl, by rwa [List.length_nil, Nat.zero_add]⟩
        | cons_cons hlow hchain =>
            obtain ⟨lead', gs', heq, hlead', hgs'⟩ := ih (List.cons_ne_nil _ _) hchain hups
            cases hlead' with
            | stay hstay => exact absurd ⟨hlow, by simp [ready, hclose]⟩ hstay
            | rise => exact ⟨_, gs', heq, hgs'⟩
      obtain ⟨rise', gs', heq, hgs'⟩ := hrises
      refine ⟨lead, .travel travel drop :: (entry ++ MoveGroup.cut ms :: .retract rise' :: gs'),
        ?_, hlead, ?_⟩
      · rw [List.flatten_cons, List.append_assoc, heq]
        simp
      · rw [List.length_cons, Nat.add_right_comm]
        exact .pass hentry hgs'

variable [SteppingScalar α]

/-- The passes over some paths without tabs that may not be closed. -/
theorem EmitsPaths.passGroups (hflat : c.usePathZ = false) (hpass : Scalar.zero < c.passDepth)
    (hdeep : c.bottomZ < c.topZ) (htop : c.topZ ≤ c.safeZ) (hfinishes : c.Finishes) {i : Nat}
    {paths : List (CamPath α)} {parts : List (List (MoveGroup α))}
    (h : c.EmitsPaths none i paths parts)
    (hclose : ∀ path ∈ paths, path.points ≠ [] → path.safeToClose = false) :
    PassGroups (c.totalPasses paths) parts.flatten := by
  induction h with
  | done => exact .done
  | skip hpoints _ ih =>
      have hrest := ih (List.forall_mem_cons.mp hclose).2
      rw [totalPasses, List.map_cons, hpoints, List.sum_cons]
      exact (Nat.zero_add _).symm ▸ hrest
  | @path i path paths p ps passes parts rise hpoints hpasses _ _ ih =>
      obtain ⟨hfirst, hothers⟩ := List.forall_mem_cons.mp hclose
      have hne : path.points ≠ [] := by simp [hpoints]
      obtain ⟨lead, gs, heq, hlead, hgs⟩ := hpasses.passGroups hflat hne (hfirst hne)
        (hfinishes.passes_ne_nil hdeep)
        ((isChain_passes htop (hfinishes.progresses hpass)).imp fun _ _ h => h.2)
        (fun _ hmem => not_lt_next_of_mem_passes hflat hpass hmem) rise (ih hothers)
      -- The tool rose before the path, so it does not rise again.
      cases hlead with
      | stay =>
          rw [List.flatten_cons, List.cons_append, List.cons_append, List.append_assoc,
            List.singleton_append, heq, totalPasses, List.map_cons, hpoints, List.sum_cons]
          exact .header i hgs
      | rise hrises => exact absurd hrises.1 (SteppingScalar.lt_irrefl _)

/-- A compiled program keeps to its grammar and is taken apart by it.  Each cut marker gives a cut
block with the moves that it announces, and there are no other cut blocks.  The plunge blocks that
get as far as a travel have the roles of `PlungeBlock.TravelsIn`.

Where there are no tabs, no path may be closed and the passes come down to the final depth, what is
left are the plunges and cuts in turn, one cut for each pass and a plunge before and after it. -/
theorem part_of_compile {paths : List (CamPath α)} {p : Program α}
    (h : c.compile paths = .ok p) :
    p.Grammatical ∧
    (p.part.cuts.length = p.countP (fun l => l.kind = .cut) ∧
      ∀ (pre : Program α) (t : String) (post : Program α), p = pre ++ Line.comment t :: post →
        Comment.kind t = .cut →
        p.part.cuts[pre.countP fun l => l.kind = .cut]?
          = some ⟨.comment t :: (leadingMoves post).map .move, none⟩) ∧
    (∀ (i : ℕ) (b : PlungeBlock α), p.part.plunges[i]? = some b →
      (∃ l ∈ b.lines, l.kind = .rapidToStart) → b.TravelsIn p i) ∧
    (c.usePathZ = false → c.activeTabs = none →
      (∀ path ∈ paths, path.points ≠ [] → path.safeToClose = false) →
      Scalar.zero < c.passDepth → c.bottomZ < c.topZ → c.topZ ≤ c.safeZ → c.Finishes →
      p.part.rest = .handle ⟨.plunge, 0⟩ :: (List.range (c.totalPasses paths)).flatMap fun i =>
        [.handle ⟨.cut, i⟩, .handle ⟨.plunge, i + 1⟩]) := by
  refine ⟨grammatical_of_compile h, ⟨length_cutsFrom 0 false p, ?_⟩, ?_⟩
  · rintro pre t post rfl hcut
    exact cutsFrom_at (l := .comment t) hcut post 0 false pre
  · obtain ⟨rise, parts, rfl, hrise, hparts⟩ := exists_groups h
    have hregular : ∀ g ∈ MoveGroup.retract rise :: parts.flatten, g.Regular :=
      List.forall_mem_cons.mpr ⟨trivial, hparts.forall_groups ofGroups_regular⟩
    rw [Program.part_groupLines hregular]
    refine ⟨fun i b => plungeBlocks_travelsIn, ?_⟩
    intro hflat htabs hclose hpass hdeep htop hfinishes
    rw [htabs] at hparts
    have hpasses := hparts.passGroups hflat hpass hdeep htop hfinishes hclose
    dsimp only
    rw [leftOf_retract, hpasses.leftOf_eq 0 1 (List.forall_mem_cons.mp hregular).2]
    simp [Nat.add_comm 1]

end ToolpathParams

/-! ## Two passes -/

/-- An open path after an empty one, in two passes. -/
theorem loopToolpath_part : ∃ p, loopToolpath.compile [⟨[], true⟩, groovePath] = .ok p ∧
    p.Grammatical ∧ p.part.cuts.length = p.countP (fun l => l.kind = .cut) ∧
    (∃ b : PlungeBlock Float, p.part.plunges[0]? = some b ∧ b.TravelsIn p 0) ∧
    p.part.rest = [.handle ⟨.plunge, 0⟩, .handle ⟨.cut, 0⟩, .handle ⟨.plunge, 1⟩,
      .handle ⟨.cut, 1⟩, .handle ⟨.plunge, 2⟩] := by
  obtain ⟨p, hp⟩ : ∃ p, loopToolpath.compile [⟨[], true⟩, groovePath] = .ok p := ⟨_, rfl⟩
  obtain ⟨hgrammatical, ⟨hcuts, -⟩, hplunges, hrest⟩ := ToolpathParams.part_of_compile hp
  have hfirst : ∃ b : PlungeBlock Float, p.part.plunges[0]? = some b ∧
      ∃ l ∈ b.lines, l.kind = .rapidToStart := by
    obtain rfl : _ = p := Except.ok.inj hp
    exact ⟨_, rfl, .rapidToStart, by decide +kernel, rfl⟩
  obtain ⟨b, hb, htravel⟩ := hfirst
  have hfinishes : loopToolpath.Finishes := by
    rw [ToolpathParams.Finishes]
    decide +kernel
  have htotal : loopToolpath.totalPasses [⟨[], true⟩, groovePath] = 2 := by decide +kernel
  rw [htotal] at hrest
  refine ⟨p, hp, hgrammatical, hcuts, ⟨b, hb, hplunges 0 b hb htravel⟩, ?_⟩
  exact hrest rfl rfl (by simp [groovePath]) (by decide +kernel) (by decide +kernel)
    (by decide +kernel) hfinishes

end WireErosion

