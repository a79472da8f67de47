import WireErosion.Program.Line

/-!
# The kinds of comments that are written

The kind of a comment whose text is only known at its front.  A marker that differs from the front
somewhere (`clashes`) is not the marker of any such comment, so a comment is of no marker's kind as
soon as all of them clash (`Comment.kind_eq_generic`).

A path marker with an index that is a natural number is recognized (`Line.kind_pathStart`).
-/

namespace WireErosion

namespace Marker

/-- Whether two lists of characters differ where both have one. -/
def clashes : List Char → List Char → Bool
  | p :: ps, c :: cs => p != c || clashes ps cs
  | _, _ => false

theorem after?_of_clashes (rest : List Char) : ∀ ps cs : List Char, clashes ps cs = true →
    after? ps (cs ++ rest) = none
  | [], cs, h => by cases cs <;> cases h
  | _ :: _, [], h => by cases h
  | p :: ps, c :: cs, h => by
      rw [List.cons_append, after?]
      split
      next heq =>
        rw [clashes, heq, bne_self_eq_false, Bool.false_or] at h
        exact after?_of_clashes rest ps cs h
      next => rfl

theorem after?_self_append (rest : List Char) : ∀ ps : List Char, after? ps (ps ++ rest) = some rest
  | [] => rfl
  | p :: ps => by
      rw [List.cons_append, after?, if_pos rfl]
      exact after?_self_append rest ps

/-- The front of a text clashes with the marker of a path. -/
theorem pathDigits?_of_clashes {text : String} {front rest : List Char}
    (htext : text.toList = front ++ rest) (h : clashes path.toList front = true) :
    pathDigits? text = none := by
  rw [pathDigits?, htext, after?_of_clashes rest _ _ h]
  rfl

end Marker

open Marker

/-- A comment whose front clashes with all markers is of no marker's kind. -/
theorem Comment.kind_eq_generic {text : String} {front rest : List Char}
    (htext : text.toList = front ++ rest) (hpath : clashes path.toList front = true)
    (hall : ∀ m ∈ Marker.all, clashes m.1.toList front = true) : Comment.kind text = .generic := by
  have hfind : (Marker.all.find? fun m => (after? m.1.toList text.toList).isSome) = none := by
    rw [List.find?_eq_none]
    intro m hm
    rw [htext, after?_of_clashes rest _ _ (hall m hm)]
    simp
  rw [Comment.kind, pathDigits?_of_clashes htext hpath, hfind]
  rfl

/-! ## The markers themselves -/

namespace Line

variable {α : Type}

@[simp] theorem kind_move (m : Move α) : (Line.move m).kind = .move := rfl

@[simp] theorem kind_blank : (Line.blank : Line α).kind = .generic := by
  rw [blank, kind]
  decide

@[simp] theorem kind_cut : (Line.cut : Line α).kind = .cut := by
  rw [cut, kind]
  decide

@[simp] theorem kind_plunge : (Line.plunge : Line α).kind = .plunge := by
  rw [plunge, kind]
  decide

@[simp] theorem kind_ramp : (Line.ramp : Line α).kind = .ramp := by
  rw [ramp, kind]
  decide

@[simp] theorem kind_retract : (Line.retract : Line α).kind = .retract := by
  rw [retract, kind]
  decide

@[simp] theorem kind_retractForTab : (Line.retractForTab : Line α).kind = .retractForTab := by
  rw [retractForTab, kind]
  decide

@[simp] theorem kind_rapidToStart : (Line.rapidToStart : Line α).kind = .rapidToStart := by
  rw [rapidToStart, kind]
  decide

end Line

/-! ## Path markers -/

theorem leadingDigits_ne_nil {c : Char} (cs : List Char) (hc : c.isDigit = true) :
    leadingDigits (c :: cs) ≠ [] := by
  have hrange : '0' ≤ c ∧ c ≤ '9' := by
    rw [Char.isDigit, Bool.and_eq_true, decide_eq_true_eq, decide_eq_true_eq] at hc
    exact hc
  have hascii : c.toNat < 128 := by
    have hle : c.toNat ≤ '9'.toNat := UInt32.le_iff_toNat_le.mp hrange.2
    have hnine : '9'.toNat = 57 := by decide
    omega
  rw [leadingDigits, Text.digitValue?, if_pos hascii, if_pos hrange]
  simp

theorem toList_ofPath (index : Nat) :
    (Comment.ofPath (index : Int)).toList = path.toList ++ Nat.toDigits 10 index := by
  rw [Comment.ofPath, String.toList_append]
  congr 1
  exact Nat.toList_repr

@[simp] theorem Line.kind_pathStart {α : Type} (index : Nat) :
    (Line.pathStart index : Line α).kind = .path := by
  have hdigits : (pathDigits? (Comment.ofPath index)).isSome = true := by
    rw [pathDigits?, toList_ofPath, after?_self_append]
    cases hlist : Nat.toDigits 10 index with
    | nil => exact absurd hlist Nat.toDigits_ne_nil
    | cons c cs =>
        have hc : c.isDigit = true := by
          refine Nat.isDigit_of_mem_toDigits (b := 10) (n := index) (by decide) (by decide) ?_
          rw [hlist]
          exact List.mem_cons_self ..
        have hne := leadingDigits_ne_nil cs hc
        cases hleading : leadingDigits (c :: cs) with
        | nil => exact absurd hleading hne
        | cons d ds => simp [hleading]
  rw [Line.pathStart, Line.kind, Comment.kind, if_pos hdigits]

/-- A path marker is not blank. -/
theorem isBlank_ofPath (index : Nat) : Comment.isBlank (Comment.ofPath index) = false := by
  rw [Comment.isBlank, Text.isBlankText, toList_ofPath, List.all_append]
  have hfront : path.toList.all Text.isBlank = false := by decide
  rw [hfront, Bool.false_and]

end WireErosion
