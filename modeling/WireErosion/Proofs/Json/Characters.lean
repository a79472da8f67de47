import WireErosion.Proofs.Json.Literals
import WireErosion.Proofs.Text.Pieces

/-!
# The characters of written JSON

A value is written with the characters of ASCII that show, spaces and line feeds
(`isShown_indented`).  So it is read from a file as it was written, whatever breaks a file has
(`readUnicode_indented`).
-/

namespace WireErosion.Json

open Decimal (Written AreDigits)

/-- A text of spaces, line feeds and the characters of ASCII that show. -/
def IsShown (cs : List Char) : Prop := ∀ c ∈ cs, c = '\n' ∨ 32 ≤ c.toNat ∧ c.toNat ≤ 126

-- It is decided by going through the text, not by going through the type of characters.
instance (cs : List Char) : Decidable (IsShown cs) := List.decidableBAll _ cs

theorem IsShown.append {cs ds : List Char} (hcs : IsShown cs) (hds : IsShown ds) :
    IsShown (cs ++ ds) :=
  List.forall_mem_append.mpr ⟨hcs, hds⟩

theorem IsShown.cons {c : Char} {cs : List Char} (hc : IsShown [c]) (hcs : IsShown cs) :
    IsShown (c :: cs) :=
  hc.append hcs

/-! ## Numbers -/

theorem isShown_of_areDigits {ds : List Char} (h : AreDigits ds) : IsShown ds := by
  intro c hc
  obtain ⟨hlow, hhigh⟩ : 48 ≤ c.toNat ∧ c.toNat ≤ 57 := Char.isDigit_iff_toNat.mp (h c hc)
  exact .inr ⟨by omega, by omega⟩

theorem isShown_signText (negative : Bool) : IsShown (Double.signText negative).toList := by
  cases negative <;> decide

theorem isShown_written {t : Written} (ht : t.IsNumeral) : IsShown t.chars := by
  have hwhole : IsShown t.whole := by
    rcases ht.whole with hzero | hwhole
    · rw [hzero]
      decide
    · exact isShown_of_areDigits hwhole.digits
  have hfraction : IsShown (Written.pointChars t.fraction) := by
    have hdigits := isShown_of_areDigits ht.fraction
    cases hfraction : t.fraction with
    | nil => exact List.forall_mem_nil _
    | cons d ds => exact (by decide : IsShown ['.']).append (hfraction ▸ hdigits)
  have hexponent : IsShown (Written.exponentChars t.exponent) := by
    cases t.exponent with
    | none => exact List.forall_mem_nil _
    | some e =>
        have hdigits : AreDigits (Decimal.paddedDigits 2 e.natAbs) := fun c hc =>
          Numeral.isDigit_of_mem_paddedDigits hc
        rw [Written.exponentChars, exponentText_toList]
        refine .cons (by decide) (.cons ?_ (isShown_of_areDigits hdigits))
        split <;> decide
  exact (hwhole.append hfraction).append hexponent

theorem isShown_numberLiteral (x : Float) : IsShown (numberLiteral x).toList := by
  rw [numberLiteral]
  split
  next => decide
  next s _ => cases s <;> decide
  next s m q hx =>
    obtain ⟨t, htext, ht, -, -⟩ := Double.exists_shortest hx
    rw [htext]
    exact (isShown_signText s).append (isShown_written ht)

/-! ## Texts -/

theorem isShown_unitEscape {n : ℕ} (hn : n < 65536) : IsShown (unitEscape n) := by
  have hdigit : ∀ k < 16, IsShown [k.digitChar] := by decide
  rw [unitEscape, fourHexDigits_eq hn]
  exact .cons (by decide) (.cons (by decide) (.cons (hdigit _ (by omega))
    (.cons (hdigit _ (by omega)) (.cons (hdigit _ (by omega)) (hdigit _ (by omega))))))

theorem isShown_charText (c : Char) : IsShown (charText c) := by
  obtain ⟨e, he, -, htext⟩ | ⟨hprinted, -, -, htext⟩ | ⟨hplane, htext⟩ | ⟨-, htext⟩ :=
    charText_cases c
  · exact htext ▸ .cons (by decide) (List.forall_mem_singleton.mpr (.inr he))
  · exact htext ▸ List.forall_mem_singleton.mpr (.inr hprinted)
  · exact htext ▸ isShown_unitEscape hplane
  · have hplanes := toNat_lt c
    exact htext ▸ (isShown_unitEscape (by omega)).append (isShown_unitEscape (by omega))

theorem isShown_textLiteral (s : String) : IsShown (textLiteral s).toList := by
  have hchars : IsShown (s.toList.flatMap charText) := fun c hc => by
    obtain ⟨d, -, hd⟩ := List.mem_flatMap.mp hc
    exact isShown_charText d c hd
  rw [toList_textLiteral]
  exact (IsShown.cons (by decide) hchars).append (by decide)

/-! ## Values -/

theorem isShown_atomLiteral (v : Value) : IsShown (atomLiteral v).toList := by
  cases v with
  | null => decide
  | bool b => cases b <;> decide
  | integer n =>
      rw [atomLiteral, toList_toString]
      exact (isShown_signText _).append (isShown_of_areDigits (Decimal.areDigits_digits _))
  | number x => exact isShown_numberLiteral x
  | string s => exact isShown_textLiteral s
  | array ms => exact (by decide : IsShown "[]".toList)
  | object fs => exact (by decide : IsShown "\x7b\x7d".toList)

theorem isShown_newLine (depth : ℕ) : IsShown (newLine depth).toList := by
  rw [newLine, String.toList_append]
  refine IsShown.append (by decide) fun c hc => ?_
  obtain rfl := List.eq_of_mem_replicate (String.toList_ofList ▸ hc)
  decide

theorem isShown_onLines (depth : ℕ) {opening closing : String} {texts : List String}
    (hopening : IsShown opening.toList) (hclosing : IsShown closing.toList)
    (htexts : ∀ t ∈ texts, IsShown t.toList) :
    IsShown (onLines depth opening closing texts).toList := by
  have hbetween : IsShown (("," ++ newLine (depth + 1)).intercalate texts).toList := by
    rw [String.toList_intercalate, String.toList_append]
    intro c hc
    rcases Text.mem_intercalate hc with hc | ⟨cs, hcs, hc⟩
    · exact IsShown.append (by decide) (isShown_newLine _) c hc
    · obtain ⟨t, ht, rfl⟩ := List.mem_map.mp hcs
      exact htexts t ht c hc
  rw [onLines]
  simp only [String.toList_append]
  exact (((hopening.append (isShown_newLine _)).append hbetween).append
    (isShown_newLine _)).append hclosing

mutual

theorem isShown_indented (depth : ℕ) : ∀ v : Value, IsShown (indented depth v).toList
  | .array (m :: ms) => by
      rw [indented]
      exact isShown_onLines depth (by decide) (by decide)
        (isShown_indentedMembers (depth + 1) (m :: ms))
  | .object (f :: fs) => by
      rw [indented]
      exact isShown_onLines depth (by decide) (by decide)
        (isShown_indentedFields (depth + 1) (f :: fs))
  | .array [] => isShown_atomLiteral (.array [])
  | .object [] => isShown_atomLiteral (.object [])
  | .null => isShown_atomLiteral .null
  | .bool b => isShown_atomLiteral (.bool b)
  | .integer n => isShown_atomLiteral (.integer n)
  | .number x => isShown_atomLiteral (.number x)
  | .string s => isShown_atomLiteral (.string s)

theorem isShown_indentedMembers (depth : ℕ) : ∀ ms : List Value,
    ∀ t ∈ indentedMembers depth ms, IsShown t.toList
  | [], _, ht => nomatch ht
  | m :: ms, t, ht => by
      rw [indentedMembers, List.mem_cons] at ht
      rcases ht with rfl | ht
      · exact isShown_indented depth m
      · exact isShown_indentedMembers depth ms t ht

theorem isShown_indentedFields (depth : ℕ) : ∀ fs : List (String × Value),
    ∀ t ∈ indentedFields depth fs, IsShown t.toList
  | [], _, ht => nomatch ht
  | (name, v) :: fs, t, ht => by
      rw [indentedFields, List.mem_cons] at ht
      rcases ht with rfl | ht
      · rw [String.toList_append, String.toList_append]
        exact ((isShown_textLiteral name).append (by decide)).append (isShown_indented depth v)
      · exact isShown_indentedFields depth fs t ht

end

/-- A value is read from the bytes of a file as it was written. -/
theorem readUnicode_indented (depth : ℕ) (v : Value) :
    readUnicode (indented depth v).toUTF8 = .ok (indented depth v) := by
  refine readUnicode_toUTF8 fun hreturn => ?_
  exact absurd (isShown_indented depth v _ hreturn) (by decide)

end WireErosion.Json
