import WireErosion.Path.Split

/-!
# The runs of a path join

The runs of a path that is split at a region go through the vertices of the path in order, with the
points put in at which the path meets the border (`refined`).  Each run starts where the one before
it ended (`joined_splitRuns`), so without these first points the runs are the path once
(`tails_splitRuns`).
-/

namespace WireErosion

variable {α : Type}

/-- Each run that is not empty starts at the last vertex before it, where `a` comes before the first
one. -/
def Joined (a : Point α) : List (List (Point α)) → Prop
  | [] => True
  | [] :: runs => Joined a runs
  | (b :: rest) :: runs => b = a ∧ Joined (rest.getLastD b) runs

theorem Joined.map (f : Point α → Point α) {runs : List (List (Point α))} {a : Point α}
    (h : Joined a runs) : Joined (f a) (runs.map (List.map f)) := by
  induction runs generalizing a with
  | nil => trivial
  | cons run runs ih =>
      cases run with
      | nil => exact ih h
      | cons b rest =>
          obtain ⟨rfl, h⟩ := h
          refine ⟨rfl, ?_⟩
          rw [List.getLastD_map]
          exact ih h

/-- The pieces go on where the one before them ended, the first one at `a`. -/
def Linked (a : Point α) : List (Point α × Point α) → Prop
  | [] => True
  | piece :: pieces => piece.1 = a ∧ Linked piece.2 pieces

variable [Scalar α]

/-! ## Pieces -/

/-- The points at which a segment is broken up. -/
def breakPoints (region : TabRegion α) (a b : Point α) : List (Point α) :=
  if region.length a b == Scalar.zero then [] else (breakWays region a b).map (pointAt a b)

/-- The vertices of a path with the points put in at which its segments are broken up. -/
def refined (region : TabRegion α) : List (Point α) → List (Point α)
  | [] => []
  | [a] => [a]
  | a :: b :: ps => a :: breakPoints region a b ++ refined region (b :: ps)

theorem segmentPieces_eq (region : TabRegion α) (a b : Point α) :
    segmentPieces region a b = piecesThrough a b (breakPoints region a b) := by
  rw [segmentPieces, breakPoints]
  split <;> rfl

omit [Scalar α] in
theorem piecesThrough_ends (a b : Point α) : ∀ ps : List (Point α),
    (piecesThrough a b ps).map Prod.snd = ps ++ [b] := by
  intro ps
  induction ps generalizing a with
  | nil => rfl
  | cons p ps ih => rw [piecesThrough, List.map_cons, ih, List.cons_append]

omit [Scalar α] in
theorem Linked.piecesThrough_append {b : Point α} {pieces : List (Point α × Point α)}
    (h : Linked b pieces) : ∀ (ps : List (Point α)) (a : Point α),
      Linked a (piecesThrough a b ps ++ pieces)
  | [], _ => ⟨rfl, h⟩
  | _ :: ps, _ => ⟨rfl, h.piecesThrough_append ps _⟩

theorem pathPieces_ends (region : TabRegion α) : ∀ (a : Point α) (ps : List (Point α)),
    a :: (pathPieces region (a :: ps)).map Prod.snd = refined region (a :: ps)
  | _, [] => rfl
  | a, b :: ps => by
      rw [pathPieces, List.map_append, segmentPieces_eq, piecesThrough_ends, refined,
        ← pathPieces_ends region b ps]
      simp

theorem linked_pathPieces (region : TabRegion α) : ∀ (a : Point α) (ps : List (Point α)),
    Linked a (pathPieces region (a :: ps))
  | _, [] => trivial
  | a, b :: ps => by
      rw [pathPieces, segmentPieces_eq]
      exact (linked_pathPieces region b ps).piecesThrough_append _ _

/-! ## Runs -/

/-- The points that the runs go through after they have started are the ends of the pieces. -/
theorem tails_splitFrom (region : TabRegion α) : ∀ (pieces : List (Point α × Point α))
    (inside started : Bool),
    (if started then (splitFrom region inside started pieces).1
        else (splitFrom region inside started pieces).1.tail)
      ++ (splitFrom region inside started pieces).2.flatMap List.tail = pieces.map Prod.snd
  | [], inside, started => by cases started <;> rfl
  | (a, b) :: pieces, inside, started => by
      by_cases hside : isInside region a b = inside
      · have ih := tails_splitFrom region pieces inside true
        rw [if_pos rfl] at ih
        rw [splitFrom, if_pos hside]
        cases started <;> simpa using ih
      · have ih := tails_splitFrom region pieces (!inside) true
        rw [if_pos rfl] at ih
        rw [splitFrom, if_neg hside]
        cases started <;> simpa using ih

/-- Runs that are split off start where the pieces before them ended. -/
theorem joined_splitFrom (region : TabRegion α) : ∀ {pieces : List (Point α × Point α)}
    {a : Point α} (inside : Bool), Linked a pieces →
    Joined ((splitFrom region inside true pieces).1.getLastD a)
        (splitFrom region inside true pieces).2 ∧
      Joined a ((splitFrom region inside false pieces).1
        :: (splitFrom region inside false pieces).2)
  | [], _, _, _ => ⟨trivial, trivial⟩
  | (_, b) :: pieces, _, inside, ⟨rfl, h⟩ => by
      have hsame := (joined_splitFrom region inside h).1
      have hother := (joined_splitFrom region (!inside) h).1
      rw [splitFrom, splitFrom]
      split
      next =>
        simp only [if_true, Bool.false_eq_true, if_false, Joined, List.getLastD_cons, true_and]
        exact ⟨hsame, hsame⟩
      next =>
        simp only [Joined, List.getLastD_nil, List.getLastD_cons, true_and]
        exact ⟨hother, hother⟩

/-- The runs of a path go through its vertices and the points that are put in. -/
theorem tails_splitRuns (region : TabRegion α) (a : Point α) (ps : List (Point α)) :
    a :: (splitRuns region (a :: ps)).flatMap List.tail = refined region (a :: ps) := by
  rw [splitRuns]
  split
  next hlength =>
    cases ps with
    | nil => rfl
    | cons b ps =>
        simp only [List.length_cons] at hlength
        omega
  next hlength =>
    have hends := tails_splitFrom region (pathPieces region (a :: ps)) false false
    rw [if_neg (by simp)] at hends
    rw [← pathPieces_ends, ← hends]
    rfl

theorem joined_splitRuns (region : TabRegion α) (a : Point α) (ps : List (Point α)) :
    Joined a (splitRuns region (a :: ps)) := by
  rw [splitRuns]
  split
  next => exact ⟨rfl, trivial⟩
  next => exact (joined_splitFrom region false (linked_pathPieces region a ps)).2

end WireErosion
