import WireErosion.Proofs.Json.Characters
import WireErosion.Proofs.Json.RoundTrip
import WireErosion.Settings

/-!
# Settings are loaded as they were saved

A settings file holds an object.  Fields of it that are no settings do not count, and what it lacks
has its default (`Settings.field?_setAll`).  So settings that were saved are loaded as they were,
and with fields added to the file and others taken out of it those that are left are.

Only an integer that is too long to be read stands in the way, also one in a field that would not
count (`Settings.longTheme_not_loaded`).
-/

namespace WireErosion

/-! ## Fields -/

namespace Json

theorem field?_cons (name : String) (f : String × Value) (fs : List (String × Value)) :
    field? name (f :: fs) = if f.1 = name then some f.2 else field? name fs := by
  by_cases h : f.1 = name <;> simp [field?, h]

theorem field?_eq_none {name : String} {fs : List (String × Value)}
    (h : name ∉ fs.map Prod.fst) : field? name fs = none := by
  induction fs with
  | nil => rfl
  | cons f fs ih =>
      obtain ⟨hf, hfs⟩ := not_or.mp (mt List.mem_cons.mpr h)
      rw [field?_cons, if_neg (Ne.symm hf), ih hfs]

theorem field?_of_mem {f : String × Value} {fs : List (String × Value)} (hf : f ∈ fs)
    (hnodup : (fs.map Prod.fst).Nodup) : field? f.1 fs = some f.2 := by
  induction fs with
  | nil => cases hf
  | cons g fs ih =>
      obtain ⟨hg, hfs⟩ := List.nodup_cons.mp hnodup
      rcases List.mem_cons.mp hf with rfl | hf
      · rw [field?_cons, if_pos rfl]
      · have hne : g.1 ≠ f.1 := fun heq => hg (heq ▸ List.mem_map_of_mem hf)
        rw [field?_cons, if_neg hne, ih hf hfs]

end Json

open Json (Value field? field?_cons field?_eq_none field?_of_mem fieldsFit FieldsDistinct)

namespace Settings

/-- The names of the settings. -/
def names : List String := ({} : Settings).fields.map Prod.fst

theorem names_eq (s : Settings) : s.fields.map Prod.fst = names := rfl

theorem fields_set (s : Settings) (changed : String) (v : Value) : (s.set changed v).fields
    = s.fields.map fun f => if changed = f.1 then (f.1, v) else f := by
  rw [set]
  split_ifs <;> simp_all [fields]

/-- One setting is changed and no other. -/
theorem field?_set (s : Settings) {name : String} (hname : name ∈ names) (changed : String)
    (v : Value) : field? name (s.set changed v).fields
      = if changed = name then some v else field? name s.fields := by
  rw [fields_set]
  rw [← s.names_eq] at hname
  generalize s.fields = fs at hname ⊢
  induction fs with
  | nil => cases hname
  | cons f fs ih =>
      have hfirst : (if changed = f.1 then (f.1, v) else f).1 = f.1 := by split <;> rfl
      rw [List.map_cons, field?_cons, field?_cons, hfirst]
      by_cases hf : f.1 = name
      · subst hf
        rw [if_pos rfl, if_pos rfl]
        split <;> rfl
      · rw [if_neg hf, if_neg hf, ih (List.mem_of_ne_of_mem (Ne.symm hf) hname)]

/-- Settings that are among some fields are changed to their values, the others stay. -/
theorem field?_setAll {name : String} (hname : name ∈ names) :
    ∀ {fs : List (String × Value)} (s : Settings), (fs.map Prod.fst).Nodup →
      field? name (s.setAll fs).fields = (field? name fs).or (field? name s.fields)
  | [], _, _ => rfl
  | (changed, v) :: fs, s, hnodup => by
      obtain ⟨hchanged, hfs⟩ := List.nodup_cons.mp hnodup
      change field? name ((s.set changed v).setAll fs).fields = _
      rw [field?_setAll hname _ hfs, field?_set s hname, field?_cons]
      split
      next heq =>
        subst heq
        rw [field?_eq_none hchanged]
        rfl
      next => rfl

/-- Settings with all settings of others are those. -/
theorem setAll_fields (s t : Settings) : s.setAll t.fields = t := by
  simp [setAll, fields, set]

/-! ## Files -/

/-- An object is loaded from a file on whose lines it stands. -/
theorem ofText_indented {fs : List (String × Value)} (hnames : (fs.map Prod.fst).Nodup)
    (hdistinct : FieldsDistinct fs) :
    (readUnicode (Json.indented 0 (.object fs)).toUTF8).bind ofText
      = (fieldsFit fs).map fun _ => setAll {} fs := by
  have hparse := Json.parse_indented (v := .object fs) ⟨hnames, hdistinct⟩ 0
  rw [Value.fits] at hparse
  rw [Json.readUnicode_indented]
  change ofText _ = _
  rw [ofText, hparse]
  cases fieldsFit fs <;> rfl

/-- Settings are loaded as they were saved.  Loaded from any object that agrees with them on its
settings, they are as they were where the object has them, and the defaults elsewhere. -/
theorem ofText_toText (s : Settings) (hs : FieldsDistinct s.fields) (kept : List (String × Value))
    (hnames : (kept.map Prod.fst).Nodup) (hdistinct : FieldsDistinct kept)
    (hkept : ∀ f ∈ kept, f.1 ∈ names → f ∈ s.fields) :
    (readUnicode s.toText.toUTF8).bind ofText = (fieldsFit s.fields).map (fun _ => s) ∧
    ∃ t : Settings,
      (∀ name ∈ names, field? name t.fields
        = if name ∈ kept.map Prod.fst then field? name s.fields
          else field? name ({} : Settings).fields) ∧
      (readUnicode (Json.indented 0 (.object kept)).toUTF8).bind ofText
        = (fieldsFit kept).map (fun _ => t) ∧
      ∀ text, Json.parse text = .ok (.object kept) → ofText text = .ok t := by
  have hsaved : (s.fields.map Prod.fst).Nodup := by
    rw [names_eq]
    decide
  have hload := ofText_indented hsaved hs
  rw [setAll_fields] at hload
  refine ⟨hload, setAll {} kept, fun name hname => ?_, ofText_indented hnames hdistinct,
    fun text htext => ?_⟩
  · rw [field?_setAll hname _ hnames]
    split
    next hmem =>
      obtain ⟨f, hf, rfl⟩ := List.mem_map.mp hmem
      rw [field?_of_mem hf hnames, field?_of_mem (hkept f hf hname) hsaved, Option.some_or]
    next hmem => rw [field?_eq_none hmem, Option.none_or]
  · rw [ofText, htext]
    rfl

/-- Settings with a quote, a backslash and a character beyond the first plane are loaded as they
were saved.  A theme is no setting, and does not keep the decimal places from being loaded. -/
theorem darkTheme_loaded :
    let s : Settings := { places := .integer 4, lastFolder := .string "C:\\\"é😀" }
    (readUnicode s.toText.toUTF8).bind ofText = .ok s ∧
    ∃ t : Settings, field? "decimal_places" t.fields = some (.integer 4) ∧
      field? "last_open_dir" t.fields = some (.string "") ∧
      (readUnicode (Json.indented 0 (.object
        [("decimal_places", .integer 4), ("theme", .string "dark")])).toUTF8).bind ofText
          = .ok t := by
  intro s
  obtain ⟨hsaved, t, hfields, hload, -⟩ := ofText_toText s
    (by simp [s, FieldsDistinct, fields, Value.Distinct])
    [("decimal_places", .integer 4), ("theme", .string "dark")] (by decide)
    (by simp [FieldsDistinct, Value.Distinct]) (by simp [s, names, fields])
  exact ⟨hsaved, t, hfields "decimal_places" (by decide), hfields "last_open_dir" (by decide),
    hload⟩

/-- A theme with too many digits keeps the decimal places from being loaded. -/
theorem longTheme_not_loaded : "theme" ∉ names ∧
    (readUnicode (Json.indented 0 (.object
      [("decimal_places", .integer 4), ("theme", .integer (10 ^ Numeral.mostDigits))])).toUTF8).bind
        ofText = .error (.numeralTooLong 4301) := by
  refine ⟨by decide, ?_⟩
  have hlength : (Decimal.digits (10 ^ Numeral.mostDigits : ℤ).natAbs).length = 4301 := by
    have hbase : Int.natAbs 10 = 10 := rfl
    rw [Int.natAbs_pow, hbase]
    exact Decimal.length_digits (k := Numeral.mostDigits) le_rfl
      (Nat.pow_lt_pow_right (by decide) (Nat.lt_succ_self _))
  rw [ofText_indented (by decide) (by simp [FieldsDistinct, Value.Distinct]),
    Json.fieldsFit_cons, Json.fieldsFit_cons, Value.fits, Value.fits, hlength]
  rfl

end Settings

end WireErosion
