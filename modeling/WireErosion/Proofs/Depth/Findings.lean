import Mathlib.Data.Set.Card
import WireErosion.Proofs.Depth.Sinking
import WireErosion.Proofs.Ordered

/-!
# What the depth check finds

The check goes through a program once and carries along the depth that the next move is compared
with (`comparedAfter`).  After any lines that is the depth of the last move among them, unless a
retract marker came after it (`comparedAfter_eq_some`).  So the check finds exactly the rises of a
program (`Program.mem_rises`), each of them once and in the order of the lines
(`Program.pairwise_rises`), and how many of them it reports does not matter to that
(`outcome_checkDepth_eq`).

The depths after the first travel marker, cut at retract markers and at moves without a depth, are
the stretches of a program (`stretches`).  Nothing rises in a program exactly if no depth of a
stretch is above the one before it (`risesFrom_eq_nil`), and of doubles that are numbers that says
that the stretches only go down.
-/

namespace WireErosion

variable {α : Type}

/-! ## The part that is checked -/

/-- The part of a program after its first travel marker, where `i` is the index of its first
line. -/
def Program.ChecksFrom (p : Program α) (i : Nat) (body : Program α) : Prop :=
  ∃ pre marker, p = pre ++ marker :: body ∧ (∀ l ∈ pre, l.kind ≠ .rapidToStart) ∧
    marker.kind = .rapidToStart ∧ i = pre.length + 1

theorem bodyFrom_eq_some {p body : Program α} {i j : Nat} :
    bodyFrom i p = some (j, body) ↔ ∃ k, p.ChecksFrom k body ∧ j = i + k := by
  induction p generalizing i with
  | nil => simp [bodyFrom, Program.ChecksFrom]
  | cons l ls ih =>
      rw [bodyFrom]
      split
      next hl =>
        constructor
        · rintro ⟨⟩
          exact ⟨1, ⟨[], l, rfl, by simp, hl, rfl⟩, rfl⟩
        · rintro ⟨k, ⟨pre, marker, hp, hpre, -, rfl⟩, rfl⟩
          cases pre with
          | nil =>
              cases hp
              rfl
          | cons l' pre =>
              cases hp
              exact absurd hl (hpre l (List.mem_cons_self ..))
      next hl =>
        rw [ih]
        constructor
        · rintro ⟨k, ⟨pre, marker, rfl, hpre, hmarker, rfl⟩, rfl⟩
          refine ⟨pre.length + 2, ⟨l :: pre, marker, rfl, ?_, hmarker, rfl⟩, by omega⟩
          exact List.forall_mem_cons.mpr ⟨hl, hpre⟩
        · rintro ⟨k, ⟨pre, marker, hp, hpre, hmarker, rfl⟩, rfl⟩
          cases pre with
          | nil =>
              cases hp
              exact absurd hmarker hl
          | cons l' pre =>
              cases hp
              have hpre' := (List.forall_mem_cons.mp hpre).2
              exact ⟨pre.length + 1, ⟨pre, marker, rfl, hpre', hmarker, rfl⟩, by simp; omega⟩

theorem bodyFrom_zero_eq_some {p body : Program α} {i : Nat} :
    bodyFrom 0 p = some (i, body) ↔ p.ChecksFrom i body := by
  rw [bodyFrom_eq_some]
  constructor
  · rintro ⟨k, h, rfl⟩
    rwa [Nat.zero_add]
  · intro h
    exact ⟨i, h, (Nat.zero_add i).symm⟩

/-- Lines without a travel marker are passed by. -/
theorem bodyFrom_append_front {front : Program α} (hfront : ∀ l ∈ front, l.kind ≠ .rapidToStart)
    (p : Program α) (i : Nat) : bodyFrom i (front ++ p) = bodyFrom (i + front.length) p := by
  induction front generalizing i with
  | nil => rfl
  | cons l front ih =>
      obtain ⟨hl, hfront⟩ := List.forall_mem_cons.mp hfront
      rw [List.cons_append, bodyFrom, if_neg hl, ih hfront, List.length_cons]
      congr 1
      omega

theorem bodyFrom_eq_none {p : Program α} (hp : ∀ l ∈ p, l.kind ≠ .rapidToStart) (i : Nat) :
    bodyFrom i p = none := by
  have hpassed := bodyFrom_append_front hp [] i
  rwa [List.append_nil] at hpassed

/-- Programs with the same kinds of lines have their first travel markers in one place. -/
theorem bodyFrom_forall₂ {R : Line α → Line α → Prop} (hR : ∀ {l l'}, R l l' → l'.kind = l.kind)
    {p q : Program α} (h : List.Forall₂ R p q) : ∀ i : Nat,
    (bodyFrom i p = none ∧ bodyFrom i q = none) ∨
      ∃ j body body', bodyFrom i p = some (j, body) ∧ bodyFrom i q = some (j, body') ∧
        List.Forall₂ R body body' := by
  induction h with
  | nil => exact fun _ => .inl ⟨rfl, rfl⟩
  | @cons l l' p q hl hrest ih =>
      intro i
      rw [bodyFrom, bodyFrom, hR hl]
      split
      · exact .inr ⟨_, p, q, rfl, rfl, hrest⟩
      · exact ih (i + 1)

/-! ## The depth that a move is compared with -/

/-- The depth that a move after some lines is compared with, where `before` is the one before
them. -/
def comparedAfter (before : Option α) : Program α → Option α
  | [] => before
  | .comment t :: ls =>
    comparedAfter (if Comment.kind t = .retract ∨ Comment.kind t = .retractForTab then none
      else before) ls
  | .move m :: ls => comparedAfter m.z ls

theorem comparedAfter_append : ∀ (before : Option α) (p q : Program α),
    comparedAfter before (p ++ q) = comparedAfter (comparedAfter before p) q
  | _, [], _ => rfl
  | _, .comment _ :: p, q => comparedAfter_append _ p q
  | _, .move m :: p, q => comparedAfter_append m.z p q

/-- Whether a line is a comment and no retract marker. -/
def Line.IsQuiet (l : Line α) : Prop := l.isMove = false ∧ ¬ l.IsRetract

theorem Line.isQuiet_comment {t : String} :
    (Line.comment t : Line α).IsQuiet ↔ ¬ (Line.comment t : Line α).IsRetract :=
  ⟨fun h => h.2, fun h => ⟨rfl, h⟩⟩

/-- The last line of a list with an element in it is that element, or it comes after it. -/
theorem concat_eq_append_cons {β : Type} {xs front back : List β} {a b : β} :
    xs ++ [b] = front ++ a :: back ↔
      (xs = front ∧ b = a ∧ back = []) ∨ ∃ ys, back = ys ++ [b] ∧ xs = front ++ a :: ys := by
  constructor
  · intro h
    rcases List.eq_nil_or_concat' back with rfl | ⟨ys, c, rfl⟩
    · obtain ⟨hfront, hb⟩ := List.append_inj' h rfl
      exact .inl ⟨hfront, List.singleton_inj.mp hb, rfl⟩
    · rw [← List.cons_append, ← List.append_assoc] at h
      obtain ⟨hfront, hb⟩ := List.append_inj' h rfl
      obtain rfl := List.singleton_inj.mp hb
      exact .inr ⟨ys, rfl, hfront⟩
  · rintro (⟨rfl, rfl, rfl⟩ | ⟨ys, rfl, rfl⟩)
    · rfl
    · simp

/-- It is the depth of the last move, unless a retract marker came after that. -/
theorem comparedAfter_eq_some {p : Program α} {a : α} :
    comparedAfter none p = some a ↔
      ∃ front m quiet, p = front ++ .move m :: quiet ∧ (∀ l ∈ quiet, l.IsQuiet) ∧ m.z = some a := by
  -- By induction from the last line on, since that line decides first.
  induction p using List.reverseRecOn with
  | nil => simp [comparedAfter]
  | append_singleton p l ih =>
      simp only [comparedAfter_append, concat_eq_append_cons]
      cases l with
      | move m =>
          constructor
          · intro hz
            exact ⟨p, m, [], .inl ⟨rfl, rfl, rfl⟩, by simp, hz⟩
          · rintro ⟨front, m', quiet, ⟨-, hm, -⟩ | ⟨quiet, rfl, -⟩, hquiet, hz⟩
            · cases hm
              exact hz
            · cases (hquiet (.move m) (by simp)).1
      | comment t =>
          by_cases hretract : (Line.comment t : Line α).IsRetract
          · have hnone : comparedAfter (comparedAfter none p) [.comment t] = none := if_pos hretract
            constructor
            · intro hz
              rw [hnone] at hz
              cases hz
            · rintro ⟨front, m, quiet, ⟨-, hm, -⟩ | ⟨quiet, rfl, -⟩, hquiet, -⟩
              · cases hm
              · exact absurd hretract (hquiet (.comment t) (by simp)).2
          · have hsame : comparedAfter (comparedAfter none p) [.comment t] = comparedAfter none p :=
              if_neg hretract
            have hlast : (Line.comment t : Line α).IsQuiet := Line.isQuiet_comment.mpr hretract
            rw [hsame, ih]
            constructor
            · rintro ⟨front, m, quiet, hp, hquiet, hz⟩
              refine ⟨front, m, quiet ++ [.comment t], .inr ⟨quiet, rfl, hp⟩, ?_, hz⟩
              simpa [or_imp, forall_and] using ⟨hquiet, hlast⟩
            · rintro ⟨front, m, quiet, ⟨-, hm, -⟩ | ⟨quiet, rfl, hp⟩, hquiet, hz⟩
              · cases hm
              · exact ⟨front, m, quiet, hp, fun l hl => hquiet l (by simp [hl]), hz⟩

/-! ## The rises of a program -/

section

variable [Scalar α]

/-- The rises of a program, in the order of its lines. -/
def Program.rises (p : Program α) : List (Rise α) :=
  match bodyFrom 0 p with
  | none => []
  | some (i, body) => risesFrom i none body

/-- Whether a program has a rise: after its first travel marker there is a move with a depth, then
there are comments none of which is a retract marker, and then there is the move of the rise, with a
depth above. -/
def Program.HasRise (p : Program α) (r : Rise α) : Prop :=
  ∃ pre marker front m quiet post,
    p = pre ++ marker :: (front ++ .move m :: quiet ++ .move r.move :: post) ∧
      (∀ l ∈ pre, l.kind ≠ .rapidToStart) ∧ marker.kind = .rapidToStart ∧
      (∀ l ∈ quiet, l.IsQuiet) ∧
      r.line = (pre ++ marker :: (front ++ .move m :: quiet)).length ∧
      m.z = some r.before ∧ r.move.z = some r.after ∧ r.before < r.after

theorem mem_riseAt? {i : Nat} {before : Option α} {m : Move α} {r : Rise α} :
    r ∈ (riseAt? i before m).toList ↔
      r.line = i ∧ r.move = m ∧ before = some r.before ∧ m.z = some r.after ∧
        r.before < r.after := by
  obtain ⟨line, a, b, move⟩ := r
  unfold riseAt?
  split
  next a' b' hz =>
    split_ifs with hlt
    · simp only [Option.toList_some, List.mem_singleton, Rise.mk.injEq, hz, Option.some.injEq]
      constructor
      · rintro ⟨rfl, rfl, rfl, rfl⟩
        exact ⟨rfl, rfl, rfl, rfl, hlt⟩
      · rintro ⟨rfl, rfl, rfl, rfl, -⟩
        exact ⟨rfl, rfl, rfl, rfl⟩
    · simp only [Option.toList_none, List.not_mem_nil, hz, Option.some.injEq, false_iff]
      rintro ⟨-, -, rfl, rfl, h⟩
      exact hlt h
  next hnone =>
    simp only [Option.toList_none, List.not_mem_nil, false_iff]
    rintro ⟨-, -, hbefore, hz, -⟩
    exact hnone a b hbefore hz

/-- An element of a list is the first one, or it comes after that. -/
theorem exists_cons_eq_append_cons {β : Type} {b a : β} {xs : List β} {P : List β → Prop} :
    (∃ front back, b :: xs = front ++ a :: back ∧ P front) ↔
      (b = a ∧ P []) ∨ ∃ front back, xs = front ++ a :: back ∧ P (b :: front) := by
  constructor
  · rintro ⟨front, back, h, hP⟩
    cases front with
    | nil =>
        cases h
        exact .inl ⟨rfl, hP⟩
    | cons b' front =>
        cases h
        exact .inr ⟨front, back, rfl, hP⟩
  · rintro (⟨rfl, hP⟩ | ⟨front, back, rfl, hP⟩)
    · exact ⟨[], xs, rfl, hP⟩
    · exact ⟨b :: front, back, rfl, hP⟩

/-- A rise is at a move, and it is above the depth that this move is compared with. -/
theorem mem_risesFrom {p : Program α} {i : Nat} {before : Option α} {r : Rise α} :
    r ∈ risesFrom i before p ↔
      ∃ pre post, p = pre ++ .move r.move :: post ∧ r.line = i + pre.length ∧
        comparedAfter before pre = some r.before ∧ r.move.z = some r.after ∧
        r.before < r.after := by
  induction p generalizing i before with
  | nil => simp [risesFrom]
  | cons l ls ih =>
      -- A rise behind the first line is one of the rest, where the first line was passed.
      have hrest : ∀ b : Option α, (∀ pre, comparedAfter before (l :: pre) = comparedAfter b pre) →
          (r ∈ risesFrom (i + 1) b ls ↔ ∃ pre post, ls = pre ++ .move r.move :: post ∧
            r.line = i + (l :: pre).length ∧ comparedAfter before (l :: pre) = some r.before ∧
            r.move.z = some r.after ∧ r.before < r.after) := by
        intro b hb
        simp only [ih, hb, List.length_cons, Nat.add_assoc, Nat.add_comm 1]
      rw [exists_cons_eq_append_cons]
      cases l with
      | comment t =>
          rw [risesFrom, hrest _ fun _ => rfl]
          simp
      | move m =>
          rw [risesFrom, List.mem_append, mem_riseAt?, hrest _ fun _ => rfl]
          refine or_congr ?_ Iff.rfl
          constructor
          · rintro ⟨hline, hm, hbefore, hz, hlt⟩
            exact ⟨congrArg _ hm.symm, hline, hbefore, hm ▸ hz, hlt⟩
          · rintro ⟨hm, hline, hbefore, hz, hlt⟩
            cases hm
            exact ⟨hline, rfl, hbefore, hz, hlt⟩

/-- The rises are found in the order of their lines. -/
theorem pairwise_risesFrom : ∀ (p : Program α) (i : Nat) (before : Option α),
    (risesFrom i before p).Pairwise fun r r' => r.line < r'.line
  | [], _, _ => .nil
  | .comment _ :: ls, i, _ => pairwise_risesFrom ls (i + 1) _
  | .move m :: ls, i, before => by
      rw [risesFrom, List.pairwise_append]
      refine ⟨?_, pairwise_risesFrom ls (i + 1) m.z, ?_⟩
      · cases riseAt? i before m <;> simp
      · intro r hr r' hr'
        have hline : r.line = i := (mem_riseAt?.mp hr).1
        obtain ⟨pre, -, -, hline', -⟩ := mem_risesFrom.mp hr'
        omega

namespace Program

variable {p : Program α}

theorem rises_of_checksFrom {i : Nat} {body : Program α} (h : p.ChecksFrom i body) :
    p.rises = risesFrom i none body := by
  rw [rises, bodyFrom_zero_eq_some.mpr h]

theorem rises_eq_nil_of_not_checksFrom (h : ∀ i body, ¬ p.ChecksFrom i body) : p.rises = [] := by
  rw [rises]
  split
  next => rfl
  next i body hbody => exact absurd (bodyFrom_zero_eq_some.mp hbody) (h i body)

/-- They are its rises and nothing else. -/
theorem mem_rises {r : Rise α} : r ∈ p.rises ↔ p.HasRise r := by
  have hmem : r ∈ p.rises ↔ ∃ i body, p.ChecksFrom i body ∧ r ∈ risesFrom i none body := by
    by_cases hnone : ∀ i body, ¬ p.ChecksFrom i body
    · simp [rises_eq_nil_of_not_checksFrom hnone, hnone]
    · simp only [not_forall, not_not] at hnone
      obtain ⟨i, body, hbody⟩ := hnone
      refine ⟨fun h => ⟨i, body, hbody, rises_of_checksFrom hbody ▸ h⟩, ?_⟩
      rintro ⟨j, body', hbody', h⟩
      rwa [rises_of_checksFrom hbody']
  rw [hmem]
  simp only [mem_risesFrom, comparedAfter_eq_some]
  constructor
  · rintro ⟨i, body, ⟨pre, marker, rfl, hpre, hmarker, rfl⟩, _, post, rfl, hline,
      ⟨front, m, quiet, rfl, hquiet, hm⟩, hz, hlt⟩
    refine ⟨pre, marker, front, m, quiet, post, rfl, hpre, hmarker, hquiet, ?_, hm, hz, hlt⟩
    rw [List.length_append, List.length_cons]
    omega
  · rintro ⟨pre, marker, front, m, quiet, post, rfl, hpre, hmarker, hquiet, hline, hm, hz, hlt⟩
    rw [List.length_append, List.length_cons] at hline
    exact ⟨_, _, ⟨pre, marker, rfl, hpre, hmarker, rfl⟩, front ++ .move m :: quiet, post, rfl,
      by omega, ⟨front, m, quiet, rfl, hquiet, hm⟩, hz, hlt⟩

theorem pairwise_rises (p : Program α) : p.rises.Pairwise fun r r' => r.line < r'.line := by
  rw [rises]
  split
  · exact .nil
  · exact pairwise_risesFrom _ _ _

/-- No line has two rises, so there are as many rises as there are lines with one. -/
theorem length_rises (p : Program α) :
    p.rises.length = {n | ∃ r, p.HasRise r ∧ r.line = n}.ncard := by
  have hlines : {n | ∃ r, p.HasRise r ∧ r.line = n} =
      ((p.rises.map Rise.line).toFinset : Set Nat) := by
    ext n
    simp [mem_rises]
  have hnodup : (p.rises.map Rise.line).Nodup :=
    List.pairwise_map.mpr ((pairwise_rises p).imp Nat.ne_of_lt)
  rw [hlines, Set.ncard_coe_finset, List.toFinset_card_of_nodup hnodup, List.length_map]

end Program

/-- The check counts all rises and reports the first ones. -/
theorem outcome_checkDepth_eq (most : Int) (p : Program α) :
    (checkDepth most p).outcome = .ok ⟨p.rises.length, p.rises.take most.toNat⟩ := by
  unfold checkDepth Program.rises
  cases bodyFrom 0 p with
  | none => simp
  | some found => exact Report.outcome_bind (Report.outcome_tellAll _)

/-- Every rise that is reported has a notice, and their number has one if some are not. -/
theorem notices_checkDepth (most : ℕ) (p : Program α) :
    (checkDepth most p).notices = riseNotices most p.rises.length (p.rises.take most) := by
  unfold checkDepth Program.rises
  cases bodyFrom 0 p with
  | none => simp [riseNotices, Report.of]
  | some found => simp [Report.bind, Report.tellAll, Report.of]

end

/-! ## Stretches -/

/-- The depth of a line. -/
def Line.depth? : Line α → Option α
  | .move m => m.z
  | .comment _ => none

/-- Whether a line ends a stretch: a retract marker or a move without a depth. -/
def Line.endsStretch : Line α → Bool
  | .move m => m.z.isNone
  | .comment t => decide (Comment.kind t = .retract ∨ Comment.kind t = .retractForTab)

/-- The depths of some lines, cut where a stretch ends. -/
def stretches (p : Program α) : List (List α) :=
  (p.splitOnP Line.endsStretch).map fun ls => ls.filterMap Line.depth?

theorem stretches_nil : stretches ([] : Program α) = [[]] := rfl

theorem stretches_ends {l : Line α} (h : l.endsStretch = true) (p : Program α) :
    stretches (l :: p) = [] :: stretches p := by
  rw [stretches, List.splitOnP_cons_eq_if_modifyHead, if_pos h]
  rfl

theorem stretches_goes_on {l : Line α} (h : l.endsStretch = false) (p : Program α) :
    stretches (l :: p) = (stretches p).modifyHead (l.depth?.toList ++ ·) := by
  rw [stretches, stretches, List.splitOnP_cons_eq_if_modifyHead, if_neg (by simp [h])]
  cases p.splitOnP Line.endsStretch with
  | nil => rfl
  | cons ls rest => cases hl : l.depth? <;> simp [hl]

theorem exists_stretches (p : Program α) : ∃ ds rest, stretches p = ds :: rest := by
  refine List.exists_cons_of_ne_nil fun h => ?_
  exact List.splitOnP_ne_nil _ _ (List.map_eq_nil_iff.mp h)

/-- A depth of a stretch is the depth of a line. -/
theorem exists_depth_of_mem_stretches {p : Program α} {ds : List α} {d : α} (hds : ds ∈ stretches p)
    (hd : d ∈ ds) : ∃ l ∈ p, l.depth? = some d := by
  induction p generalizing ds with
  | nil =>
      obtain rfl := List.mem_singleton.mp hds
      cases hd
  | cons l p ih =>
      obtain ⟨es, rest, hstretches⟩ := exists_stretches p
      have hrest : ∀ {es}, es ∈ stretches p → d ∈ es → ∃ k ∈ l :: p, k.depth? = some d := by
        intro es hes hd
        obtain ⟨k, hk, hz⟩ := ih hes hd
        exact ⟨k, List.mem_cons_of_mem _ hk, hz⟩
      cases hends : l.endsStretch with
      | true =>
          rw [stretches_ends hends, List.mem_cons] at hds
          rcases hds with rfl | hds
          · cases hd
          · exact hrest hds hd
      | false =>
          rw [stretches_goes_on hends, hstretches, List.modifyHead_cons, List.mem_cons] at hds
          rcases hds with rfl | hds
          · rcases List.mem_append.mp hd with hd | hd
            · exact ⟨l, List.mem_cons_self .., Option.mem_toList.mp hd⟩
            · exact hrest (by simp [hstretches]) hd
          · exact hrest (by simp [hstretches, hds]) hd

section

variable [Scalar α]

/-- Depths none of which is above the one before it. -/
def NeverRises (ds : List α) : Prop := ds.IsChain fun a b => ¬ a < b

theorem riseAt?_eq_none {i : Nat} {before : Option α} {m : Move α} :
    riseAt? i before m = none ↔ ∀ a ∈ before, ∀ b ∈ m.z, ¬ a < b := by
  unfold riseAt?
  split
  next a b hz => simp [hz]
  next hnone =>
    simp only [true_iff]
    intro a ha b hb
    exact absurd hb (hnone a b ha)

/-- Nothing rises exactly if no depth of a stretch is above the one before it, where the depth
before the first line belongs to the first stretch. -/
theorem risesFrom_eq_nil (p : Program α) : ∀ (i : Nat) (before : Option α),
    risesFrom i before p = [] ↔
      ∀ ds ∈ (stretches p).modifyHead (before.toList ++ ·), NeverRises ds := by
  have hone : ∀ before : Option α, NeverRises before.toList
    | none => .nil
    | some a => .singleton a
  induction p with
  | nil =>
      intro i before
      simp [risesFrom, stretches_nil, hone]
  | cons l p ih =>
      intro i before
      obtain ⟨ds, rest, hstretches⟩ := exists_stretches p
      simp only [hstretches, List.modifyHead_cons, List.forall_mem_cons] at ih
      cases l with
      | comment t =>
          rw [risesFrom, ih]
          split
          next hretract =>
            rw [stretches_ends (l := .comment t) (decide_eq_true hretract), hstretches]
            simp [hone]
          next hretract =>
            rw [stretches_goes_on (l := .comment t) (decide_eq_false hretract), hstretches]
            simp [Line.depth?]
      | move m =>
          rw [risesFrom, List.append_eq_nil_iff, Option.toList_eq_nil_iff, riseAt?_eq_none, ih]
          cases hz : m.z with
          | none =>
              rw [stretches_ends (l := .move m) (by simp [Line.endsStretch, hz]), hstretches]
              simp [hone]
          | some b =>
              rw [stretches_goes_on (l := .move m) (by simp [Line.endsStretch, hz]), hstretches]
              cases before with
              | none => simp [Line.depth?, hz]
              | some a => simp [Line.depth?, hz, NeverRises, and_assoc]

theorem Program.rises_eq_nil {p : Program α} :
    p.rises = [] ↔ ∀ i body, p.ChecksFrom i body → ∀ ds ∈ stretches body, NeverRises ds := by
  have hfront : ∀ body : Program α,
      (stretches body).modifyHead ((none : Option α).toList ++ ·) = stretches body := by
    intro body
    obtain ⟨ds, rest, h⟩ := exists_stretches body
    rw [h]
    rfl
  by_cases hnone : ∀ i body, ¬ p.ChecksFrom i body
  · simp [rises_eq_nil_of_not_checksFrom hnone, hnone]
  · simp only [not_forall, not_not] at hnone
    obtain ⟨i, body, hbody⟩ := hnone
    constructor
    · intro h j body' hbody'
      rw [rises_of_checksFrom hbody', risesFrom_eq_nil, hfront] at h
      exact h
    · intro h
      rw [rises_of_checksFrom hbody, risesFrom_eq_nil, hfront]
      exact h i body hbody

end

/-! ## Depths that are numbers -/

/-- The depths of a program are numbers. -/
def Program.DepthsAreNumbers (p : Program Float) : Prop :=
  ∀ l ∈ p, ∀ z ∈ l.depth?, z.isNaN = false

/-- Numbers none of which is above the one before it go down all the way. -/
theorem neverRises_iff {ds : List Float} (h : ∀ d ∈ ds, d.isNaN = false) :
    NeverRises ds ↔ ds.Pairwise fun a b => b ≤ a := by
  have htrans : Trans (fun a b : Float => b ≤ a) (fun a b => b ≤ a) (fun a b => b ≤ a) :=
    ⟨fun h h' => Double.trans_le h' h⟩
  rw [← List.isChain_iff_pairwise, NeverRises, List.isChain_iff_getElem, List.isChain_iff_getElem]
  refine forall₂_congr fun i hi => ?_
  exact Double.not_lt_iff (h _ (List.getElem_mem _)) (h _ (List.getElem_mem _))

/-- The check counts the rises of a program, one for each line that has one, and reports the first
ones of them in the order of the lines, with one more notice if there are more.  It counts none
exactly if the stretches after the first travel marker only go down, provided that the depths are
numbers. -/
theorem checkDepth_finds (most : ℕ) (p : Program Float) :
    ∃ (rises : List (Rise Float)) (check : DepthCheck Float),
      (checkDepth most p).outcome = .ok check ∧
      rises.Pairwise (fun r r' => r.line < r'.line) ∧ (∀ r, r ∈ rises ↔ p.HasRise r) ∧
      check.count = {n | ∃ r, p.HasRise r ∧ r.line = n}.ncard ∧
      check.reported = rises.take (min check.count most) ∧
      (checkDepth most p).notices =
        check.reported.map (fun r => .depthRises r.line r.before r.after) ++
          (if most < check.count then [.depthTotal check.count most] else []) ∧
      (p.DepthsAreNumbers → (check.count = 0 ↔
        ∀ i body, p.ChecksFrom i body → ∀ ds ∈ stretches body, ds.Pairwise fun a b => b ≤ a)) := by
  refine ⟨p.rises, _, outcome_checkDepth_eq most p, p.pairwise_rises, fun _ => Program.mem_rises,
    p.length_rises, ?_, ?_, ?_⟩
  · simp [List.take_eq_take_iff, min_comm]
  · rw [notices_checkDepth, riseNotices]
    simp only [Nat.cast_lt, Int.toNat_natCast]
  · intro hnumbers
    rw [List.length_eq_zero_iff, Program.rises_eq_nil]
    refine forall₂_congr fun i body => forall_congr' fun hbody => forall₂_congr fun ds hds => ?_
    refine neverRises_iff fun d hd => ?_
    obtain ⟨l, hl, hz⟩ := exists_depth_of_mem_stretches hds hd
    obtain ⟨pre, marker, rfl, -⟩ := hbody
    exact hnumbers l (by simp [hl]) d hz

/-- A descent, a move without a depth, a cut at a lesser depth, and a retract. -/
def liftedStroke : Program Float :=
  [.rapidToStart, .move (.rapid none none (some 5)),
    .move (.linear none none (some (-2)) none none), .move (.linear (some 3) none none none none),
    .move (.linear none none (some (-1)) none none), .retract, .move (.rapid none none (some 5))]

/-- A rise across a move without a depth is not found. -/
theorem checkDepth_finds_nothing :
    ∃ check, (checkDepth 50 liftedStroke).outcome = .ok check ∧ check.count = 0 := by
  obtain ⟨_, check, hcheck, -, -, -, -, -, hcount⟩ := checkDepth_finds 50 liftedStroke
  refine ⟨check, hcheck, (hcount (by unfold Program.DepthsAreNumbers; decide +kernel)).mpr ?_⟩
  intro i body hbody
  obtain ⟨-, rfl⟩ := Prod.mk.inj (Option.some.inj (bodyFrom_zero_eq_some.mpr hbody))
  decide +kernel

end WireErosion
