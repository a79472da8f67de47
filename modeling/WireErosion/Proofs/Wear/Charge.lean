import WireErosion.Proofs.Operation.WornTabs
import WireErosion.Proofs.Wear.Neutral
import WireErosion.Proofs.Wear.Parsed

/-!
# What a compiled cut is charged

A cut block begins with its marker, and the tool then stands at the first vertex of the run, which
the block does not name.  The wear along a block starts from no known position.  So the way from
the first vertex to the first move is not charged, and a cut ends higher than it would if the
whole of its way was (`ToolpathParams.lastZ_of_compile`).
-/

namespace WireErosion

open scoped Exact

/-! ## Passes that come down -/

/-- Passes without a positive depth do not come down. -/
theorem bottom_lt_depthOfPasses {passDepth bottom : ℝ} (hpass : passDepth ≤ 0) :
    ∀ {fuel : ℕ} {finished : ℝ}, bottom < finished →
      bottom < depthOfPasses finished (passesFrom passDepth bottom fuel finished)
  | 0, _, h => h
  | fuel + 1, finished, h => by
      have hnext : bottom < (passFrom passDepth bottom finished).next := by
        rw [passFrom, Exact.max_eq]
        exact lt_max_of_lt_left (by linarith)
      rw [passesFrom, if_pos h, depthOfPasses_cons]
      exact bottom_lt_depthOfPasses hpass hnext

/-- If the passes come down to the final depth then each of them goes down. -/
theorem ToolpathParams.Finishes.next_le {c : ToolpathParams ℝ} (h : c.Finishes)
    (hflat : c.usePathZ = false) : ∀ pass ∈ c.passes, pass.next ≤ pass.finished := by
  intro pass hmem
  rw [Finishes, passes_of_flat hflat] at h
  rw [passes_of_flat hflat] at hmem
  rcases lt_or_ge 0 c.passDepth with hpass | hpass
  · exact (next_lt_of_mem_passesFrom hpass hmem).le
  · have hnone : ¬ c.bottomZ < c.topZ := fun hdeep => h (bottom_lt_depthOfPasses hpass hdeep)
    rw [schedule] at hmem
    cases hfuel : passBound c.passDepth c.bottomZ c.topZ with
    | zero => rw [hfuel] at hmem; cases hmem
    | succ fuel => rw [hfuel, passesFrom, if_neg hnone] at hmem; cases hmem

/-! ## The way of a cut -/

/-- The length of the way of a cut, from where the tool stands at its marker to its last move. -/
noncomputable def Cutting.way (k : Cutting ℝ) : ℝ := wayFrom k.position (k.moves.map .move)

/-- The length of the way from where the tool stands at the marker to the first move. -/
noncomputable def Cutting.lead (k : Cutting ℝ) : ℝ :=
  wayFrom k.position ((k.moves.take 1).map .move)

/-- The block of a cut. -/
def Cutting.block {α : Type} (k : Cutting α) : CutBlock α := ⟨.cut :: k.moves.map .move, none⟩

theorem authoredDepths_level {α : Type} : ∀ {ms : List (Move α)}, (∀ m ∈ ms, m.z = none) →
    authoredDepths (ms.map .move) = []
  | [], _ => rfl
  | m :: ms, h => by
      obtain ⟨hm, hms⟩ := List.forall_mem_cons.mp h
      rw [List.map_cons, authoredDepths, hm, authoredDepths_level hms]
      rfl

/-- From an unknown position all but the way to the first move is charged, if that names both
axes. -/
theorem Cutting.wayFrom_unknown {k : Cutting ℝ}
    (h : ∀ m ∈ k.moves, ∃ x y, m.x = some x ∧ m.y = some y) :
    wayFrom (none, none) (k.moves.map .move) = k.way - k.lead := by
  rw [way, lead]
  cases hmoves : k.moves with
  | nil => simp [wayFrom]
  | cons m ms =>
      obtain ⟨x, y, hx, hy⟩ := h m (by simp [hmoves])
      have hafter : ∀ a : Modal ℝ, a.after m = (some x, some y) := fun a => by
        rw [Modal.after, hx, hy]
        rfl
      simp [wayFrom, hafter, Modal.distance]

/-- A block is compensated, and ends at the depth that it authored last less the wear from no known
position on. -/
theorem CutBlock.exists_compensate {w : WearParams ℝ} (hspacing : 0 < w.segmentLength)
    (b : CutBlock ℝ) : ∃ b', b.compensate w = .ok b' ∧ b'.lastZ
      = some (lastAuthored (-w.passDepth) b.lines - w.ratio * wayFrom (none, none) b.lines) := by
  refine ⟨_, by rw [CutBlock.compensate, subdivide, subdivideFrom_eq hspacing]; rfl, ?_⟩
  refine congrArg some ?_
  rw [depth_wearFrom, lastAuthored_interleave, wayFrom_interleave hspacing]

/-- The cut of a run is compensated, and ends at the depth of one pass less the wear from the first
move on. -/
theorem RunCut.Compiles.exists_lastZ {r : ℝ → ℝ} {t : RunCut} {k : Cutting ℝ}
    (h : t.Compiles r k) {w : WearParams ℝ} (hspacing : 0 < w.segmentLength) :
    ∃ b, k.block.compensate w = .ok b ∧
      b.lastZ = some (-w.passDepth - w.ratio * (k.way - k.lead)) := by
  obtain ⟨b, hb, hlast⟩ := CutBlock.exists_compensate hspacing k.block
  refine ⟨b, hb, hlast.trans ?_⟩
  have hnamed : ∀ m ∈ k.moves, ∃ x y, m.x = some x ∧ m.y = some y := by
    intro m hm
    obtain ⟨q, -, hq, -⟩ := exists_of_mem_right h.moves hm
    obtain ⟨hx, hy⟩ := Prod.mk.inj hq
    exact ⟨r q.x, r q.y, hx, hy⟩
  have hauthored : lastAuthored (-w.passDepth) k.block.lines = -w.passDepth := by
    rw [lastAuthored, Cutting.block, Line.cut, authoredDepths, authoredDepths_level h.level]
    rfl
  have hway : wayFrom (none, none) k.block.lines = k.way - k.lead :=
    Cutting.wayFrom_unknown hnamed
  rw [hauthored, hway]

/-! ## Compiled programs -/

namespace ToolpathParams

variable {c : ToolpathParams ℝ} {r : ℝ → ℝ} {paths : List (CamPath ℝ)} {p : Program ℝ}

/-- The cut blocks of a compiled program are those of its cuts, which are the runs that the toolpath
asks for. -/
theorem cuts_of_compile (hround : IsRounding c.round r) (hflat : c.usePathZ = false)
    (hfinishes : c.Finishes) (hp : c.compile paths = .ok p) :
    p.part.cuts = p.cuttings.map Cutting.block ∧
      List.Forall₂ (RunCut.Compiles r) (c.runCuts paths) p.cuttings := by
  constructor
  · obtain ⟨gs, rfl, hgs⟩ := exists_regular_groups hp
    rw [Program.part_groupLines hgs]
    exact cutBlocks_eq gs (none, none) none
  · obtain ⟨rise, parts, rfl, -, hparts⟩ := exists_groups hp
    rw [Program.cuttings, cuttingsFrom_cons_other (by simp)]
    exact hparts.cuttings hround hflat (hfinishes.next_le hflat) _ _

/-- Every cut of a compiled program is entered at the first vertex of its run.  It is compensated to
end at the depth of one pass less the wear on its way without the way to the first move.  That is
where it would end if its whole way was charged exactly if there is no wear or that move stays where
the tool is. -/
theorem lastZ_of_compile (hround : IsRounding c.round r) (hflat : c.usePathZ = false)
    (hfinishes : c.Finishes) (hp : c.compile paths = .ok p) {w : WearParams ℝ}
    (hspacing : 0 < w.segmentLength) :
    List.Forall₂ (RunCut.Compiles r) (c.runCuts paths) p.cuttings ∧
    ∃ blocks, p.part.cuts.mapM (CutBlock.compensate w) = .ok blocks ∧
      List.Forall₂ (fun (k : Cutting ℝ) (b : CutBlock ℝ) =>
        b.lastZ = some (-w.passDepth - w.ratio * (k.way - k.lead)) ∧
        (b.lastZ = some (-w.passDepth - w.ratio * k.way) ↔ w.ratio = 0 ∨ k.lead = 0))
        p.cuttings blocks := by
  obtain ⟨hcuts, hruns⟩ := cuts_of_compile hround hflat hfinishes hp
  refine ⟨hruns, ?_⟩
  have hends : ∀ k ∈ p.cuttings, ∃ b, k.block.compensate w = .ok b ∧
      b.lastZ = some (-w.passDepth - w.ratio * (k.way - k.lead)) := by
    intro k hk
    obtain ⟨t, -, ht⟩ := exists_of_mem_right hruns hk
    exact ht.exists_lastZ hspacing
  obtain ⟨blocks, hblocks⟩ : ∃ blocks, p.part.cuts.mapM (CutBlock.compensate w) = .ok blocks := by
    rw [hcuts]
    refine Fault.exists_mapM_eq_ok fun b hb => ?_
    obtain ⟨k, hk, rfl⟩ := List.mem_map.mp hb
    obtain ⟨b, hb, -⟩ := hends k hk
    exact ⟨b, hb⟩
  refine ⟨blocks, hblocks, ?_⟩
  rw [hcuts, Fault.mapM_eq_ok, List.forall₂_map_left_iff] at hblocks
  refine ((List.forall₂_and_left _ _).mpr ⟨hends, hblocks⟩).imp fun k b h => ?_
  obtain ⟨⟨b', hb', hlast⟩, hb⟩ := h
  obtain rfl : b = b' := Except.ok.inj (hb.symm.trans hb')
  refine ⟨hlast, ?_⟩
  rw [hlast, Option.some.injEq, ← mul_eq_zero]
  constructor <;> intro h <;> linarith

end ToolpathParams

/-- A toolpath in one pass that does not round. -/
noncomputable def exactToolpath : ToolpathParams ℝ :=
  { slabToolpath ⟨false, 60, 200, none⟩ none with round := .ok }

/-- A straight path with a vertex in its middle. -/
noncomputable def straightPath : CamPath ℝ := ⟨[⟨0, 0, 0⟩, ⟨1, 0, 0⟩, ⟨2, 0, 0⟩], false⟩

/-- A tenth of the distance is lost. -/
noncomputable def tenthWear : WearParams ℝ where
  ratio := 1 / 10
  plungeFeed := 60
  passDepth := 1
  travelFeed := none
  retractFeed := none
  startZ := 0
  rapidZ := 5
  segmentLength := 2 / 5

theorem isRounding_exactToolpath : IsRounding exactToolpath.round id := ⟨fun _ => rfl, monotone_id⟩

theorem exactToolpath_finishes : exactToolpath.Finishes :=
  ToolpathParams.finishes_of_pos rfl (by norm_num [exactToolpath, slabToolpath])
    (by norm_num [exactToolpath, slabToolpath])

theorem exactToolpath_runCuts : exactToolpath.runCuts [straightPath]
    = [⟨false, -5, ⟨0, 0, 0⟩, [⟨1, 0, 0⟩, ⟨2, 0, 0⟩]⟩] := by
  have hcount : passCount exactToolpath.passDepth exactToolpath.bottomZ exactToolpath.topZ = 1 :=
    slab_passCount
  rw [ToolpathParams.runCuts_noTabs rfl (by norm_num [exactToolpath, slabToolpath])
    (by norm_num [exactToolpath, slabToolpath]) rfl, List.flatMap_singleton]
  simp only [straightPath, hcount, List.range_succ, List.range_zero, List.nil_append, List.map_cons,
    List.map_nil]
  norm_num [passZ, exactToolpath, slabToolpath, ToolpathParams.convert]

/-- The cut along the straight path is two long, and half of that is before its first move. -/
theorem straightPath_way {k : Cutting ℝ}
    (h : RunCut.Compiles id ⟨false, -5, ⟨0, 0, 0⟩, [⟨1, 0, 0⟩, ⟨2, 0, 0⟩]⟩ k) :
    k.position = (some 0, some 0) ∧ k.way = 2 ∧ k.lead = 1 := by
  obtain ⟨m₁, _, h₁, hmoves, hk⟩ := List.forall₂_cons_left_iff.mp h.moves
  obtain ⟨m₂, _, h₂, hnone, rfl⟩ := List.forall₂_cons_left_iff.mp hmoves
  obtain rfl := List.forall₂_nil_left_iff.mp hnone
  obtain ⟨hx₁, hy₁⟩ := Prod.mk.inj h₁.1
  obtain ⟨hx₂, hy₂⟩ := Prod.mk.inj h₂.1
  have hposition : k.position = (some 0, some 0) := h.position
  refine ⟨hposition, ?_, ?_⟩
  · norm_num [Cutting.way, hk, hposition, wayFrom, Modal.after, hx₁, hy₁, hx₂, hy₂, Modal.distance]
  · norm_num [Cutting.lead, hk, hposition, wayFrom, Modal.after, hx₁, hy₁, Modal.distance]

/-- Of a straight path of two sides the first one is not charged. -/
theorem exactToolpath_lastZ :
    IsRounding exactToolpath.round id ∧ exactToolpath.usePathZ = false ∧ exactToolpath.Finishes ∧
      0 < tenthWear.segmentLength ∧ ∃ p, exactToolpath.compile [straightPath] = .ok p ∧
        ∃ b, p.part.cuts.mapM (CutBlock.compensate tenthWear) = .ok [b] ∧
          b.lastZ = some (-11 / 10) := by
  have hspacing : 0 < tenthWear.segmentLength := by norm_num [tenthWear]
  obtain ⟨p, hp⟩ := ToolpathParams.exists_compile_of_feed (fun h => by cases h)
    isRounding_exactToolpath [straightPath]
  refine ⟨isRounding_exactToolpath, rfl, exactToolpath_finishes, hspacing, p, hp, ?_⟩
  obtain ⟨hruns, blocks, hblocks, hlast⟩ := ToolpathParams.lastZ_of_compile
    isRounding_exactToolpath rfl exactToolpath_finishes hp hspacing
  rw [exactToolpath_runCuts] at hruns
  obtain ⟨k, _, hk, hruns, hcuttings⟩ := List.forall₂_cons_left_iff.mp hruns
  obtain rfl := List.forall₂_nil_left_iff.mp hruns
  rw [hcuttings] at hlast
  obtain ⟨b, _, ⟨hb, -⟩, hnone, rfl⟩ := List.forall₂_cons_left_iff.mp hlast
  obtain rfl := List.forall₂_nil_left_iff.mp hnone
  obtain ⟨-, hway, hlead⟩ := straightPath_way hk
  refine ⟨b, hblocks, ?_⟩
  rw [hb, hway, hlead]
  norm_num [tenthWear]

/-- The cut along the straight path is a tenth too shallow for its length. -/
theorem straightPath_undercharged :
    ∃ p, exactToolpath.compile [straightPath] = .ok p ∧ ∃ k b, p.cuttings = [k] ∧
      p.part.cuts.mapM (CutBlock.compensate tenthWear) = .ok [b] ∧
      k.position = (some 0, some 0) ∧ k.way = 2 ∧ b.lastZ = some (-11 / 10) ∧
      b.lastZ ≠ some (-tenthWear.passDepth - tenthWear.ratio * k.way) := by
  obtain ⟨p, hp⟩ := ToolpathParams.exists_compile_of_feed (fun h => by cases h)
    isRounding_exactToolpath [straightPath]
  obtain ⟨hcuts, hruns⟩ := ToolpathParams.cuts_of_compile isRounding_exactToolpath rfl
    exactToolpath_finishes hp
  rw [exactToolpath_runCuts] at hruns
  obtain ⟨k, _, hk, hruns, hcuttings⟩ := List.forall₂_cons_left_iff.mp hruns
  obtain rfl := List.forall₂_nil_left_iff.mp hruns
  obtain ⟨hposition, hway, hlead⟩ := straightPath_way hk
  obtain ⟨b, hb, hlast⟩ := hk.exists_lastZ (w := tenthWear) (by norm_num [tenthWear])
  have hdepth : b.lastZ = some (-11 / 10) := by
    rw [hlast, hway, hlead]
    norm_num [tenthWear]
  refine ⟨p, hp, k, b, hcuttings, ?_, hposition, hway, hdepth, ?_⟩
  · rw [hcuts, hcuttings, Fault.mapM_eq_ok]
    exact .cons hb .nil
  · rw [hdepth, hway]
    norm_num [tenthWear]

end WireErosion
