import WireErosion.Proofs.Residue.Lossless

/-!
# The frame of wear compensation

What wear compensation leaves alone.  A `Site` says where a line of a program stands: outside all
blocks, in a cut, or in a plunge with its role there.  `Parted.sites` are the lines of a program
that was taken apart with their sites, and they are the lines of the program in order
(`Parted.sites_lines`).

`Image` says what compensation may make of one line at its site.  Each stage is shown to turn lines
into images one by one: the subdivision and the wear of a cut (`images_compensate`), and the feeds
and the terminal depth of a plunge (`images_resume`).  So the whole program is the images of its
lines in order, with one run of seating lines put in at most (`Program.compensate_frame`).
-/

namespace WireErosion

open Residue

variable {α : Type}

/-! ## Sites -/

/-- Where a line of a program stands. -/
inductive Site where
  /-- Outside all blocks. -/
  | outside
  /-- In a cut. -/
  | cut
  /-- In a plunge, with its role and whether it is the terminal step. -/
  | plunge (role : Option PlungeRole) (terminal : Bool)

/-- The lines of a plunge with their sites.  The terminal step is the last one with the role of the
plunge. -/
def PlungeBlock.sites : PlungeBlock α → List (Line α × Site)
  | [] => []
  | s :: b => (s.line, .plunge s.role (s.role = some .plunge && (terminal? b).isNone)) :: sites b

/-- The lines of the block that a handle stands for, with their sites. -/
def Parted.sitesOf (t : Parted α) (h : Handle) : List (Line α × Site) :=
  match h.kind, h.index with
  | .cut, .ofNat i => (t.cuts[i]?.map fun b => b.lines.map fun l => (l, Site.cut)).getD []
  | .plunge, .ofNat i => (t.plunges[i]?.map PlungeBlock.sites).getD []
  | _, .negSucc _ => []

/-- The lines of a residue with their sites, given those of its handles. -/
def Residue.sites (f : Handle → List (Line α × Site)) : Residue α → List (Line α × Site)
  | [] => []
  | .line l :: rest => (l, .outside) :: Residue.sites f rest
  | .handle h :: rest => f h ++ Residue.sites f rest

/-- The lines of a program that was taken apart, with their sites. -/
def Parted.sites (t : Parted α) : List (Line α × Site) := t.rest.sites t.sitesOf

theorem PlungeBlock.sites_lines : ∀ b : PlungeBlock α, b.sites.map Prod.fst = b.lines
  | [] => rfl
  | s :: b => congrArg (s.line :: ·) (sites_lines b)

theorem Parted.sitesOf_lines (t : Parted α) (h : Handle) :
    (t.sitesOf h).map Prod.fst = t.linesOf h := by
  obtain ⟨kind, index⟩ := h
  cases index with
  | negSucc i => cases kind <;> rfl
  | ofNat i =>
      cases kind with
      | cut =>
          cases hb : t.cuts[i]? with
          | none => simp [sitesOf, linesOf, hb]
          | some b => simp [sitesOf, linesOf, hb, Function.comp_def]
      | plunge =>
          cases hb : t.plunges[i]? with
          | none => simp [sitesOf, linesOf, hb]
          | some b => simp [sitesOf, linesOf, hb, PlungeBlock.sites_lines]

theorem Residue.sites_lines {f : Handle → List (Line α × Site)} {g : Handle → List (Line α)}
    (h : ∀ handle, (f handle).map Prod.fst = g handle) :
    ∀ r : Residue α, (r.sites f).map Prod.fst = r.expand g
  | [] => rfl
  | .line l :: rest => congrArg (l :: ·) (Residue.sites_lines h rest)
  | .handle handle :: rest => by
      rw [Residue.sites, List.map_append, h, Residue.sites_lines h rest, Residue.expand]

/-- The sites of a program that was taken apart are sites of its lines, in order. -/
theorem Parted.sites_lines (t : Parted α) : t.sites.map Prod.fst = t.restore :=
  Residue.sites_lines t.sitesOf_lines t.rest

/-! ## Images -/

/-- What compensation may make of a line at a site.  A comment and a move outside all blocks stay.
A move of a cut may change its depth, and moves may come after it if it names a position in the
plane.  A move of a plunge may change its motion and its feed if it has a role, and its depth if it
is the terminal step. -/
inductive Image : Line α × Site → List (Line α) → Prop
  | comment (t : String) (site : Site) : Image (.comment t, site) [.comment t]
  | outside (m : Move α) : Image (.move m, .outside) [.move m]
  | cut (m : Move α) (z : Option α) (inserted : List (Move α)) :
      (inserted ≠ [] → m.hasXY = true) →
      Image (.move m, .cut) (.move { m with z } :: inserted.map .move)
  | plunge (m : Move α) (role : Option PlungeRole) (terminal : Bool) (motion : Motion)
      (f z : Option α) :
      (role = none → motion = m.motion ∧ f = m.f) → (terminal = false → z = m.z) →
      Image (.move m, .plunge role terminal) [.move { m with motion, f, z }]

/-- Some lines are the images of other lines at their sites, one after the other. -/
def Images (sites : List (Line α × Site)) (ls : List (Line α)) : Prop :=
  ∃ images, List.Forall₂ Image sites images ∧ ls = images.flatten

theorem Images.nil : Images ([] : List (Line α × Site)) [] := ⟨[], .nil, rfl⟩

theorem Images.cons {site : Line α × Site} {sites : List (Line α × Site)} {image ls : List (Line α)}
    (h : Image site image) (hs : Images sites ls) : Images (site :: sites) (image ++ ls) := by
  obtain ⟨images, himages, rfl⟩ := hs
  exact ⟨image :: images, .cons h himages, rfl⟩

theorem Images.append {sites sites' : List (Line α × Site)} {ls ls' : List (Line α)}
    (h : Images sites ls) (h' : Images sites' ls') : Images (sites ++ sites') (ls ++ ls') := by
  obtain ⟨images, himages, rfl⟩ := h
  obtain ⟨images', himages', rfl⟩ := h'
  exact ⟨images ++ images', List.rel_append himages himages', List.flatten_append.symm⟩

/-- The first line of a program is its own image if it is a comment. -/
theorem Images.of_comment {sites : List (Line α × Site)} {ls p : Program α} {t : String}
    (h : Images sites ls) (hsites : sites.map Prod.fst = .comment t :: p) :
    ∃ rest, ls = .comment t :: rest := by
  obtain ⟨images, himages, rfl⟩ := h
  cases himages with
  | nil => cases hsites
  | @cons site image sites images himage _ =>
      obtain ⟨l, site⟩ := site
      obtain rfl : l = .comment t := (List.cons.inj hsites).1
      cases himage with
      | comment => exact ⟨images.flatten, rfl⟩

/-! ## Plunges -/

/-- The feeds of a plunge change neither the roles of its steps nor which one is terminal. -/
theorem PlungeStep.role_refeed {feeds : PlungeFeeds α} {s t : PlungeStep α}
    (h : s.refeed feeds = .ok t) : t.role = s.role := by
  obtain ⟨line, role⟩ := s
  cases role with
  | none => cases h; rfl
  | some role =>
      cases line with
      | move m => cases h; rfl
      | comment text => cases h

theorem PlungeBlock.terminal?_refeed {feeds : PlungeFeeds α} {b c : PlungeBlock α}
    (h : List.Forall₂ (fun s t => PlungeStep.refeed feeds s = .ok t) b c) :
    c.terminal? = b.terminal? := by
  induction h with
  | nil => rfl
  | cons hst _ ih => simp only [terminal?, ih, PlungeStep.role_refeed hst]

/-- A step at the feed of its role, with its depth changed if it is the terminal step. -/
theorem image_refeed {feeds : PlungeFeeds α} {s : PlungeStep α} {l : Line α}
    {role : Option PlungeRole} (h : s.refeed feeds = .ok ⟨l, role⟩) (terminal : Bool) :
    Image (s.line, .plunge s.role terminal) [l] ∧
      ∀ m z, l = .move m →
        Image (s.line, .plunge s.role true) [.move { m with z }] := by
  obtain ⟨line, role'⟩ := s
  cases role' with
  | none =>
      cases h
      constructor
      · cases l with
        | move m =>
            exact .plunge m none terminal m.motion m.f m.z (fun _ => ⟨rfl, rfl⟩) fun _ => rfl
        | comment t => exact .comment t _
      · rintro m z rfl
        exact .plunge m none true m.motion m.f z (fun _ => ⟨rfl, rfl⟩) (by simp)
  | some role' =>
      cases line with
      | move m =>
          cases h
          constructor
          · exact .plunge m _ terminal .linear _ m.z (by simp) fun _ => rfl
          · rintro m' z hm
            cases hm
            exact .plunge m _ true .linear _ z (by simp) (by simp)
      | comment t => cases h

theorem images_lines_refeed {feeds : PlungeFeeds α} {b c : PlungeBlock α}
    (h : List.Forall₂ (fun s t => PlungeStep.refeed feeds s = .ok t) b c) :
    Images b.sites c.lines := by
  induction h with
  | nil => exact .nil
  | cons hst _ ih => exact .cons (image_refeed hst _).1 ih

/-- A plunge at its feeds, with the depth of its terminal step replaced. -/
theorem images_withTerminalZ {feeds : PlungeFeeds α} {z : Option α} {b c : PlungeBlock α}
    {ls : List (Line α)} (h : List.Forall₂ (fun s t => PlungeStep.refeed feeds s = .ok t) b c)
    (hls : c.withTerminalZ z = .ok ls) : Images b.sites ls := by
  induction h generalizing ls with
  | nil => cases hls; exact .nil
  | @cons s t b c hst hbc ih =>
      cases ht : PlungeBlock.terminal? c with
      | some i =>
          rw [PlungeBlock.withTerminalZ_cons_of_some ht, Fault.map_eq_ok] at hls
          obtain ⟨ls', hls', rfl⟩ := hls
          exact .cons (image_refeed hst _).1 (ih hls')
      | none =>
          by_cases hrole : t.role = some .plunge
          · obtain ⟨line, role⟩ := t
            cases hrole
            have hs : s.role = some .plunge := (PlungeStep.role_refeed hst).symm
            cases line with
            | move m =>
                rw [PlungeBlock.withTerminalZ_cons_of_plunge ht] at hls
                cases hls
                have hterminal : PlungeBlock.terminal? b = none := by
                  rw [← PlungeBlock.terminal?_refeed hbc, ht]
                have himage := (image_refeed hst true).2 m z rfl
                rw [PlungeBlock.sites, hs, hterminal]
                rw [hs] at himage
                exact .cons himage (images_lines_refeed hbc)
            | comment text =>
                obtain ⟨line', role'⟩ := s
                cases hs
                cases line' with
                | move m => cases hst
                | comment text' => cases hst
          · rw [PlungeBlock.withTerminalZ_of_none
              (PlungeBlock.terminal?_cons_of_other ht hrole)] at hls
            cases hls
            exact images_lines_refeed (.cons hst hbc)

/-- What a plunge becomes after its feeds are set and it comes after some cut. -/
theorem images_resume {feeds : PlungeFeeds α} {b c : PlungeBlock α} {after : Option (Option α)}
    {ls : List (Line α)} (h : b.refeed feeds = .ok c) (hls : c.resume after = .ok ls) :
    Images b.sites ls := by
  have hbc := Fault.mapM_eq_ok.mp h
  cases after with
  | none => cases hls; exact images_lines_refeed hbc
  | some z => exact images_withTerminalZ hbc hls

/-! ## Cuts -/

section

variable [Scalar α] {ratio : α}

theorem wearFrom_append (s : WearState α) : ∀ ls ls' : List (Line α),
    wearFrom ratio s (ls ++ ls') =
      ((wearFrom ratio (wearFrom ratio s ls).1 ls').1,
        (wearFrom ratio s ls).2 ++ (wearFrom ratio (wearFrom ratio s ls).1 ls').2)
  | [], _ => rfl
  | .comment t :: ls, ls' => by simp [wearFrom, wearFrom_append s ls ls']
  | .move m :: ls, ls' => by simp [wearFrom, wearFrom_append (s.step ratio m).1 ls ls']

/-- The wear on moves gives moves of the same motions. -/
theorem exists_wearFrom_moves (ratio : α) (s : WearState α) : ∀ ms : List (Move α),
    ∃ worn : List (Move α), (wearFrom ratio s (ms.map .move)).2 = worn.map .move ∧
      worn.map Move.motion = ms.map Move.motion
  | [] => ⟨[], rfl, rfl⟩
  | m :: ms => by
      obtain ⟨worn, hworn, hmotions⟩ := exists_wearFrom_moves ratio (s.step ratio m).1 ms
      exact ⟨(s.step ratio m).2 :: worn, by simp [wearFrom, hworn],
        by rw [List.map_cons, hmotions]; rfl⟩

/-- The wear on a cut without points put in. -/
theorem images_wearFrom (s : WearState α) : ∀ ls : List (Line α),
    Images (ls.map fun l => (l, .cut)) (wearFrom ratio s ls).2
  | [] => .nil
  | .comment t :: ls => .cons (.comment t .cut) (images_wearFrom s ls)
  | .move m :: ls =>
      .cons (.cut m (some (s.step ratio m).1.depth) [] (by simp))
        (images_wearFrom (s.step ratio m).1 ls)

/-- The wear on a cut with the points put in.  They belong to the image of the move before them. -/
theorem images_subdivideFrom {spacing : α} : ∀ {ls out : List (Line α)} {p : Modal α},
    subdivideFrom spacing p ls = .ok out →
    ∀ s : WearState α, Images (ls.map fun l => (l, .cut)) (wearFrom ratio s out).2
  | [], _, _, h, _ => by cases h; exact .nil
  | .comment t :: ls, out, p, h, s => by
      rw [subdivideFrom, Fault.map_eq_ok] at h
      obtain ⟨out', hout, rfl⟩ := h
      exact .cons (.comment t .cut) (images_subdivideFrom hout s)
  | .move m :: ls, out, p, h, s => by
      rw [subdivideFrom] at h
      split at h
      next hxy =>
        dsimp only at h
        split at h
        next => cases h; exact images_wearFrom s _
        next there _ =>
          simp only [Fault.bind_eq_ok, pure, Except.pure, Except.ok.injEq] at h
          obtain ⟨points, -, rest, hrest, rfl⟩ := h
          obtain ⟨worn, hworn, -⟩ := exists_wearFrom_moves ratio (s.step ratio m).1 points
          simp only [wearFrom, wearFrom_append, hworn]
          exact .cons (.cut m (some (s.step ratio m).1.depth) worn fun _ => hxy)
            (images_subdivideFrom hrest _)
      next =>
        rw [Fault.map_eq_ok] at h
        obtain ⟨out', hout, rfl⟩ := h
        exact .cons (.cut m (some (s.step ratio m).1.depth) [] (by simp))
          (images_subdivideFrom hout _)

/-- What a cut becomes when it is subdivided and put at its worn depths. -/
theorem images_compensate {w : WearParams α} {b c : CutBlock α} (h : b.compensate w = .ok c) :
    Images (b.lines.map fun l => (l, .cut)) c.lines := by
  rw [CutBlock.compensate, Fault.map_eq_ok] at h
  obtain ⟨out, hout, rfl⟩ := h
  exact images_subdivideFrom hout _

end

/-! ## The whole program -/

/-- The partner of a member of a list that is related to another list one by one. -/
theorem getElem?_of_forall₂ {β γ : Type} {R : β → γ → Prop} :
    ∀ {xs : List β} {ys : List γ}, List.Forall₂ R xs ys → ∀ {i : Nat} {y : γ}, ys[i]? = some y →
      ∃ x, xs[i]? = some x ∧ R x y
  | _, _, .nil, _, _, h => by simp at h
  | _, _, .cons hxy _, 0, _, h => by cases h; exact ⟨_, rfl, hxy⟩
  | _, _, .cons _ hs, i + 1, _, h => getElem?_of_forall₂ hs (i := i) h

/-- Staging puts one run of lines into a program, or none. -/
theorem eq_of_stagePlunges {p q : Program α} {plunges : List (PlungeBlock α)}
    (h : (stagePlunges p plunges).outcome = .ok q) :
    q = p ∨ ∃ i, q = p.take i ++ seatingLines plunges ++ p.drop i := by
  obtain ⟨place, -, hq⟩ := Report.outcome_bind_eq_ok.mp h
  cases place with
  | none =>
      obtain ⟨-, -, hp⟩ := Report.outcome_bind_eq_ok.mp hq
      cases hp
      exact .inl rfl
  | some i => cases hq; exact .inr ⟨i, rfl⟩

variable [Scalar α]

/-- The blocks that replace handles are images of the blocks that were pulled out. -/
theorem images_of_replaced {w : WearParams α} {t : Parted α} {cuts : List (CutBlock α)}
    {plunges : List (PlungeBlock α)}
    (hcuts : List.Forall₂ (fun b c => CutBlock.compensate w b = .ok c) t.cuts cuts)
    (hplunges : List.Forall₂ (fun b c => PlungeBlock.refeed w.feeds b = .ok c) t.plunges plunges)
    {r : Residue α} {chunks : List (List (Line α))}
    (h : List.Forall₂ (Replaced cuts plunges) r chunks) :
    Images (r.sites t.sitesOf) chunks.flatten := by
  induction h with
  | nil => exact .nil
  | @cons residual chunk r chunks hreplaced _ ih =>
      cases hreplaced with
      | line l =>
          cases l with
          | comment text => exact .cons (.comment text .outside) ih
          | move m => exact .cons (.outside m) ih
      | @cut i c hc =>
          obtain ⟨b, hb, hbc⟩ := getElem?_of_forall₂ hcuts hc
          have hsites : t.sitesOf ⟨.cut, i⟩ = b.lines.map fun l => (l, .cut) := by
            simp [Parted.sitesOf, hb]
          rw [Residue.sites, hsites]
          exact (images_compensate hbc).append ih
      | @plunge i c after ls hc hls =>
          obtain ⟨b, hb, hbc⟩ := getElem?_of_forall₂ hplunges hc
          have hsites : t.sitesOf ⟨.plunge, i⟩ = b.sites := by
            simp [Parted.sitesOf, hb]
          rw [Residue.sites, hsites]
          exact (images_resume hbc hls).append ih

/-- The stages of a compensation that has a result. -/
theorem Program.stages_of_compensate {w : WearParams α} {p q : Program α}
    (h : (p.compensate w).outcome = .ok q) :
    ∃ cuts plunges body,
      p.part.cuts.mapM (CutBlock.compensate w) = .ok cuts ∧
      p.part.plunges.mapM (PlungeBlock.refeed w.feeds) = .ok plunges ∧
      (reassemble p.part.rest cuts plunges).outcome = .ok body ∧
      (stagePlunges body plunges).outcome = .ok q := by
  simp only [Program.compensate, Report.bind_eq, Report.outcome_bind_eq_ok, Report.outcome_lift]
    at h
  obtain ⟨-, -, -, -, cuts, hcuts, plunges, hplunges, body, hbody, hq⟩ := h
  exact ⟨cuts, plunges, body, hcuts, hplunges, hbody, hq⟩

/-- What becomes of a program when it is taken apart, its cuts and plunges are changed, and it is
put together again: the plunges at their feeds, and the body without copies. -/
def Program.Recomposes (w : WearParams α) (p : Program α) (plunges : List (PlungeBlock α))
    (body : Program α) : Prop :=
  ∃ cuts, p.part.cuts.mapM (CutBlock.compensate w) = .ok cuts ∧
    p.part.plunges.mapM (PlungeBlock.refeed w.feeds) = .ok plunges ∧
    (reassemble p.part.rest cuts plunges).outcome = .ok body

theorem Program.Recomposes.unique {w : WearParams α} {p body body' : Program α}
    {plunges plunges' : List (PlungeBlock α)}
    (h : p.Recomposes w plunges body) (h' : p.Recomposes w plunges' body') :
    plunges = plunges' ∧ body = body' := by
  obtain ⟨cuts, hcuts, hplunges, hbody⟩ := h
  obtain ⟨cuts', hcuts', hplunges', hbody'⟩ := h'
  obtain rfl := Except.ok.inj (hcuts.symm.trans hcuts')
  obtain rfl := Except.ok.inj (hplunges.symm.trans hplunges')
  exact ⟨rfl, Except.ok.inj (hbody.symm.trans hbody')⟩

/-- The first line stays the first one if it is a comment. -/
theorem Program.Recomposes.exists_cons {w : WearParams α} {p body : Program α}
    {plunges : List (PlungeBlock α)} {t : String}
    (h : Program.Recomposes w (.comment t :: p) plunges body) :
    ∃ rest, body = .comment t :: rest := by
  obtain ⟨cuts, hcuts, hplunges, hbody⟩ := h
  have hcuts := Fault.mapM_eq_ok.mp hcuts
  have hplunges := Fault.mapM_eq_ok.mp hplunges
  have horder := part_inOrder (.comment t :: p)
  rw [hcuts.length_eq, hplunges.length_eq] at horder
  obtain ⟨s, hplaced⟩ := outcome_reassemble.mp hbody
  obtain ⟨-, chunks, hchunks, rfl⟩ := replaced_of_placeFrom horder Placing.upto_start hplaced
  refine (images_of_replaced hcuts hplunges hchunks).of_comment (t := t) (p := p) ?_
  exact (Parted.sites_lines _).trans (restore_part _)

theorem Program.compensate_eq_ok {w : WearParams α} {p q : Program α} :
    (p.compensate w).outcome = .ok q ↔
      ∃ plunges body, p.Recomposes w plunges body ∧
        (stagePlunges body plunges).outcome = .ok q := by
  constructor
  · intro h
    obtain ⟨cuts, plunges, body, hcuts, hplunges, hbody, hq⟩ := stages_of_compensate h
    exact ⟨plunges, body, ⟨cuts, hcuts, hplunges, hbody⟩, hq⟩
  · rintro ⟨plunges, body, ⟨cuts, hcuts, hplunges, hbody⟩, hq⟩
    simp only [compensate, Report.bind_eq, hcuts, hplunges]
    rw [Report.outcome_bind (Report.outcome_tell _), Report.outcome_bind (Report.outcome_tell _),
      Report.outcome_bind (Report.outcome_lift _), Report.outcome_bind (Report.outcome_lift _),
      Report.outcome_bind hbody]
    exact hq

/-- A compensated program is what its blocks are put together to, with one run of seating lines put
in at most, and that is the images of its lines in order.  So no line is lost, doubled or moved, and
each changes only as its site allows. -/
theorem Program.compensate_frame {w : WearParams α} {p q : Program α}
    (h : (p.compensate w).outcome = .ok q) :
    ∃ cuts plunges body,
      p.part.cuts.mapM (CutBlock.compensate w) = .ok cuts ∧
      p.part.plunges.mapM (PlungeBlock.refeed w.feeds) = .ok plunges ∧
      (reassemble p.part.rest cuts plunges).outcome = .ok body ∧
      (q = body ∨ ∃ i, q = body.take i ++ seatingLines plunges ++ body.drop i) ∧
      p.part.sites.map Prod.fst = p ∧
      ∃ images, List.Forall₂ Image p.part.sites images ∧ body = images.flatten := by
  obtain ⟨cuts, plunges, body, hcuts, hplunges, hbody, hq⟩ := stages_of_compensate h
  have hcuts' := Fault.mapM_eq_ok.mp hcuts
  have hplunges' := Fault.mapM_eq_ok.mp hplunges
  have horder := p.part_inOrder
  rw [hcuts'.length_eq, hplunges'.length_eq] at horder
  obtain ⟨t, ht⟩ := outcome_reassemble.mp hbody
  obtain ⟨-, chunks, hchunks, rfl⟩ := replaced_of_placeFrom horder Placing.upto_start ht
  refine ⟨cuts, plunges, chunks.flatten, hcuts, hplunges, hbody, eq_of_stagePlunges hq, ?_,
    images_of_replaced hcuts' hplunges' hchunks⟩
  rw [Parted.sites_lines, p.restore_part]

/-- A summary, a plunge and a cut of unit length, on doubles. -/
def unitCut : Program Float :=
  [.comment "; Wear Ratio:   0.1", .retract, .move (.rapid none none (some 5)), .blank,
    .pathStart 0, .rapidToStart, .move (.rapid (some 0) (some 0) none),
    .move (.rapid none none (some 0)), .plunge,
    .move (.linear none none (some (-1)) (some 50) none), .cut,
    .move (.linear (some 0) (some 0) none none none),
    .move (.linear (some 1) (some 0) none none none)]

/-- A tenth of the distance worn off, and points every four tenths. -/
def unitWear : WearParams Float := ⟨0.1, 50, 1, some 1000, some 10, 0, 5, 0.4⟩

/-- A program of one stroke is compensated line by line. -/
theorem unitCut_compensate_frame :
    ∃ q, (unitCut.compensate unitWear).outcome = .ok q ∧
      ∃ body, (q = body ∨ ∃ i seats, q = body.take i ++ seats ++ body.drop i) ∧
        unitCut.part.sites.map Prod.fst = unitCut ∧
        ∃ images, List.Forall₂ Image unitCut.part.sites images ∧ body = images.flatten := by
  obtain ⟨q, hq⟩ : ∃ q, (unitCut.compensate unitWear).outcome = .ok q := ⟨_, rfl⟩
  obtain ⟨-, plunges, body, -, -, -, hseats, hlines, himages⟩ := Program.compensate_frame hq
  refine ⟨q, hq, body, ?_, hlines, himages⟩
  rcases hseats with h | ⟨i, h⟩
  · exact .inl h
  · exact .inr ⟨i, seatingLines plunges, h⟩

end WireErosion
