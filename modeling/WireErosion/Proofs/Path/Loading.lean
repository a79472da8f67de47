import WireErosion.CommandLine.Session
import WireErosion.Proofs.Outcome

/-!
# How a path file fails

Compiling complains about a path file that cannot be read.  That a text is not JSON, has no paths,
or has a path or a tab that is not one, is a complaint (`isComplaint`).  Three faults are not.

* A value of the wrong kind, if it stands for the list of paths or anywhere in the tabs.  In a path
  it is a complaint.
* An integer that is too large, in a path or in a tab.
* A failure of the geometry library at a tab or at the region of all tabs.

`PathFile.Escapes` says where they stand.  A fault is met before all that come after it, so
everything in front of it can be read.
-/

namespace WireErosion

open CommandLine (isComplaint)

/-! ## JSON -/

namespace Json

/-- The faults of a text that is not JSON. -/
inductive IsRefusal : Fault → Prop
  | malformed : IsRefusal .malformedJson
  | long (digits : Nat) : IsRefusal (.numeralTooLong digits)
  | longLiteral (literal : String) : IsRefusal (.literalTooLong literal)

theorem isRefusal_of_number {negative : Bool} {cs : List Char} {e : Fault}
    (h : number negative cs = .error e) : IsRefusal e := by
  unfold number at h
  split at h
  next => cases h; exact .malformed
  next =>
    dsimp only at h
    split at h
    next =>
      split at h
      next => cases h; exact .long _
      next => cases h
    next =>
      split at h
      next => cases h
      next => cases h; exact .longLiteral _

theorem isRefusal_of_atom {cs : List Char} {e : Fault} (h : atom cs = .error e) :
    IsRefusal e := by
  unfold atom at h
  split at h
  next => cases h; exact .malformed
  next =>
    split at h
    next => cases h
    next => exact isRefusal_of_number h
  next =>
    split at h
    next => cases h
    next => cases h
    next => cases h
    next => cases h
    next => cases h
    next => exact isRefusal_of_number h

theorem isRefusal_of_text {cs : List Char} {e : Fault} (h : text cs = .error e) :
    IsRefusal e := by
  unfold text at h
  split at h
  next =>
    split at h
    next => cases h
    next => cases h; exact .malformed
  next => cases h; exact .malformed

section

variable {fuel : Nat} {cs : List Char} {e : Fault}

theorem isRefusal_of_value_succ
    (hmembers : ∀ {cs : List Char} {e : Fault}, members fuel cs = .error e → IsRefusal e)
    (hfields : ∀ {before : List (String × Value)} {cs : List Char} {e : Fault},
      fields fuel before cs = .error e → IsRefusal e)
    (h : value (fuel + 1) cs = .error e) : IsRefusal e := by
  unfold value at h
  split at h
  next => exact isRefusal_of_text (Fault.map_eq_error.mp h)
  next =>
    split at h
    next => cases h
    next => exact hmembers (Fault.map_eq_error.mp h)
  next =>
    split at h
    next => cases h
    next => exact hfields (Fault.map_eq_error.mp h)
  next => exact isRefusal_of_atom h

theorem isRefusal_of_members_succ
    (hvalue : ∀ {cs : List Char} {e : Fault}, value fuel cs = .error e → IsRefusal e)
    (hmembers : ∀ {cs : List Char} {e : Fault}, members fuel cs = .error e → IsRefusal e)
    (h : members (fuel + 1) cs = .error e) : IsRefusal e := by
  unfold members at h
  rw [Fault.bind_eq_error] at h
  rcases h with h | ⟨⟨v, rest⟩, -, h⟩
  · exact hvalue h
  · dsimp only at h
    split at h
    next => cases h
    next =>
      rw [Fault.bind_eq_error] at h
      rcases h with h | ⟨⟨vs, rest⟩, -, h⟩
      · exact hmembers h
      · cases h
    next => cases h; exact .malformed

theorem isRefusal_of_fields_succ {before : List (String × Value)}
    (hvalue : ∀ {cs : List Char} {e : Fault}, value fuel cs = .error e → IsRefusal e)
    (hfields : ∀ {before : List (String × Value)} {cs : List Char} {e : Fault},
      fields fuel before cs = .error e → IsRefusal e)
    (h : fields (fuel + 1) before cs = .error e) : IsRefusal e := by
  unfold fields at h
  rw [Fault.bind_eq_error] at h
  rcases h with h | ⟨⟨name, rest⟩, -, h⟩
  · exact isRefusal_of_text h
  · dsimp only at h
    split at h
    next =>
      rw [Fault.bind_eq_error] at h
      rcases h with h | ⟨⟨v, rest⟩, -, h⟩
      · exact hvalue h
      · dsimp only at h
        split at h
        next => cases h
        next => exact hfields h
        next => cases h; exact .malformed
    next => cases h; exact .malformed

end

/-- The three readers call each other, each with less fuel. -/
theorem isRefusal_of_fuel : ∀ fuel : Nat,
    (∀ {cs : List Char} {e : Fault}, value fuel cs = .error e → IsRefusal e) ∧
    (∀ {cs : List Char} {e : Fault}, members fuel cs = .error e → IsRefusal e) ∧
    ∀ {before : List (String × Value)} {cs : List Char} {e : Fault},
      fields fuel before cs = .error e → IsRefusal e
  | 0 => by
      refine ⟨fun h => ?_, fun h => ?_, fun h => ?_⟩ <;> cases h <;> exact .malformed
  | fuel + 1 => by
      obtain ⟨hvalue, hmembers, hfields⟩ := isRefusal_of_fuel fuel
      exact ⟨isRefusal_of_value_succ hmembers hfields, isRefusal_of_members_succ hvalue hmembers,
        isRefusal_of_fields_succ hvalue hfields⟩

/-- A text is refused as malformed or for the length of a number, and for nothing else. -/
theorem isRefusal_of_parse {s : String} {e : Fault} (h : parse s = .error e) : IsRefusal e := by
  unfold parse at h
  rw [Fault.bind_eq_error] at h
  rcases h with h | ⟨⟨v, rest⟩, -, h⟩
  · exact (isRefusal_of_fuel _).1 h
  · dsimp only at h
    split at h
    next => cases h
    next => cases h; exact .malformed

end Json

/-! ## Values -/

namespace PathFile

open Json (Value field?)

/-- Whether a value counts as a list. -/
def isListed : Value → Bool
  | .array _ | .object _ | .string _ => true
  | _ => false

theorem members_eq_error {v : Value} {e : Fault} :
    members v = .error e ↔ isListed v = false ∧ e = .wrongKind := by
  cases v <;> simp [members, isListed, eq_comm]

/-- The faults of a number that are no complaints. -/
inductive NumberEscapes : Value → Fault → Prop
  | null : NumberEscapes .null .wrongKind
  | array (vs : List Value) : NumberEscapes (.array vs) .wrongKind
  | object (fs : List (String × Value)) : NumberEscapes (.object fs) .wrongKind
  | integer {n : Int} : (Float.ofInt n).isInf = true → NumberEscapes (.integer n) .integerTooLarge

theorem double_eq_error {v : Value} {e : Fault} :
    double v = .error e ∧ isComplaint e = false ↔ NumberEscapes v e := by
  constructor
  · rintro ⟨h, he⟩
    cases v with
    | null => cases h; exact .null
    | bool b => cases h
    | integer n =>
        simp only [double] at h
        split at h
        next hn => cases h; exact .integer hn
        next => cases h
    | number x => cases h
    | string s =>
        simp only [double] at h
        split at h
        next => cases h
        next => cases h; cases he
    | array vs => cases h; exact .array vs
    | object fs => cases h; exact .object fs
  · rintro (_ | vs | fs | hn)
    · exact ⟨rfl, rfl⟩
    · exact ⟨rfl, rfl⟩
    · exact ⟨rfl, rfl⟩
    · exact ⟨by rw [double]; exact if_pos hn, rfl⟩

/-! ## Paths -/

/-- A path that cannot be read since an integer in it is too large: the first coordinate that cannot
be read of the first vertex that cannot be read. -/
inductive PathEscapes (scale : Float) : Value → Prop
  | integer {fs : List (String × Value)} {list v : Value} {vs cs : List Value} {n : Int} :
      field? "points" fs = some list → members list = .ok vs →
      Fault.Reaches (point scale) vs v → firstMembers 3 v = .ok cs →
      Fault.Reaches double cs (.integer n) → (Float.ofInt n).isInf = true →
      PathEscapes scale (.object fs)

theorem firstMembers_ne_tooLarge (count : Nat) (v : Value) :
    firstMembers count v ≠ .error .integerTooLarge := by
  cases v <;> simp [firstMembers, members, Except.map]

theorem members_ne_tooLarge (v : Value) : members v ≠ .error .integerTooLarge := by
  rw [Ne, members_eq_error]
  simp

theorem double_eq_tooLarge {v : Value} :
    double v = .error .integerTooLarge ↔ ∃ n, v = .integer n ∧ (Float.ofInt n).isInf = true := by
  constructor
  · intro h
    cases double_eq_error.mp ⟨h, rfl⟩ with
    | @integer n hn => exact ⟨n, rfl, hn⟩
  · rintro ⟨n, rfl, hn⟩
    exact (double_eq_error.mpr (.integer hn)).1

theorem point_eq_tooLarge {scale : Float} {v : Value} :
    point scale v = .error .integerTooLarge ↔
      ∃ cs n, firstMembers 3 v = .ok cs ∧ Fault.Reaches double cs (.integer n) ∧
        (Float.ofInt n).isInf = true := by
  unfold point
  simp only [Fault.bind_eq_error, Fault.mapM_eq_error, double_eq_tooLarge]
  constructor
  · rintro (h | ⟨cs, hcs, ⟨x, hx, n, rfl, hn⟩ | ⟨ds, -, h⟩⟩)
    · exact absurd h (firstMembers_ne_tooLarge 3 v)
    · exact ⟨cs, n, hcs, hx, hn⟩
    · split at h <;> cases h
  · rintro ⟨cs, n, hcs, hx, hn⟩
    exact .inr ⟨cs, hcs, .inl ⟨_, hx, n, rfl, hn⟩⟩

theorem points_eq_tooLarge {scale : Float} {v : Value} :
    points scale v = .error .integerTooLarge ↔ PathEscapes scale v := by
  constructor
  · intro h
    unfold points at h
    split at h
    next fs =>
      split at h
      next list hlist =>
        simp only [Fault.bind_eq_error, Fault.mapM_eq_error, point_eq_tooLarge] at h
        obtain h | ⟨vs, hvs, v, hv, cs, n, hcs, hx, hn⟩ := h
        · exact absurd h (members_ne_tooLarge list)
        · exact .integer hlist hvs hv hcs hx hn
      next => cases h
    next => cases h
  · rintro ⟨hlist, hvs, hv, hcs, hx, hn⟩
    simp only [points, hlist, Fault.bind_eq_error, Fault.mapM_eq_error, point_eq_tooLarge]
    exact .inr ⟨_, hvs, _, hv, _, _, hcs, hx, hn⟩

/-- A fault in a path is a complaint, unless it is an integer that is too large. -/
theorem path_eq_error {name : String} {scale : Float} {index : Nat} {v : Value} {e : Fault} :
    path name scale index v = .error e ∧ isComplaint e = false ↔
      PathEscapes scale v ∧ e = .integerTooLarge := by
  rw [← points_eq_tooLarge]
  constructor
  · rintro ⟨h, he⟩
    unfold path at h
    split at h
    next => cases h
    next f hf =>
      cases h
      cases f <;> first | exact ⟨hf, rfl⟩ | cases he
  · rintro ⟨h, rfl⟩
    exact ⟨by rw [path, h]; rfl, rfl⟩

theorem exists_path {name : String} {scale : Float} {index : Nat} {v : Value} :
    (∃ p, path name scale index v = .ok p) ↔ ∃ ps, points scale v = .ok ps := by
  unfold path
  cases points scale v with
  | ok ps => simp
  | error f => simp

/-! ## Tabs -/

/-- The faults of a vertex of a tab that are no complaints. -/
inductive CornerEscapes : Value → Fault → Prop
  | kind {v : Value} : isListed v = false → CornerEscapes v .wrongKind
  | first {v x y : Value} {rest : List Value} {e : Fault} :
      members v = .ok (x :: y :: rest) → NumberEscapes x e → CornerEscapes v e
  | second {v x y : Value} {rest : List Value} {a : Float} {e : Fault} :
      members v = .ok (x :: y :: rest) → double x = .ok a → NumberEscapes y e → CornerEscapes v e

theorem corner_eq_error {scale : Float} {v : Value} {e : Fault} :
    corner scale v = .error e ∧ isComplaint e = false ↔ CornerEscapes v e := by
  constructor
  · rintro ⟨h, he⟩
    unfold corner at h
    rw [Fault.bind_eq_error] at h
    rcases h with h | ⟨vs, hvs, h⟩
    · obtain ⟨hkind, rfl⟩ := members_eq_error.mp h
      exact .kind hkind
    · split at h
      next x y rest =>
        simp only [Fault.bind_eq_error] at h
        obtain h | ⟨a, ha, h | ⟨b, -, h⟩⟩ := h
        · exact .first hvs (double_eq_error.mp ⟨h, he⟩)
        · exact .second hvs ha (double_eq_error.mp ⟨h, he⟩)
        · cases h
      next => cases h; cases he
  · rintro (hkind | ⟨hvs, hx⟩ | ⟨hvs, hx, hy⟩)
    · exact ⟨by unfold corner; rw [members_eq_error.mpr ⟨hkind, rfl⟩]; rfl, rfl⟩
    · obtain ⟨hx, he⟩ := double_eq_error.mpr hx
      refine ⟨?_, he⟩
      simp only [corner, Fault.bind_eq_error]
      exact .inr ⟨_, hvs, Fault.bind_eq_error.mpr (.inl hx)⟩
    · obtain ⟨hy, he⟩ := double_eq_error.mpr hy
      refine ⟨?_, he⟩
      simp only [corner, Fault.bind_eq_error]
      exact .inr ⟨_, hvs,
        Fault.bind_eq_error.mpr (.inr ⟨_, hx, Fault.bind_eq_error.mpr (.inl hy)⟩)⟩

/-- A fault of the geometry library is no complaint if the library fails. -/
theorem ofGeometry_eq_error {α : Type} {r : Except GeometryFault α} {e : Fault} :
    Fault.ofGeometry r = .error e ∧ isComplaint e = false ↔
      ∃ words, r = .error (.failure words) ∧ e = .geometry (.failure words) := by
  constructor
  · rintro ⟨h, he⟩
    cases r with
    | ok a => cases h
    | error f =>
        cases h
        cases f with
        | badValue words => cases he
        | failure words => exact ⟨words, rfl, rfl⟩
  · rintro ⟨words, rfl, rfl⟩
    exact ⟨rfl, rfl⟩

section

variable [Geometry]

/-- The faults of a tab that are no complaints. -/
inductive TabEscapes (scale : Float) : Value → Fault → Prop
  | kind {v : Value} : isListed v = false → TabEscapes scale v .wrongKind
  | corner {v w : Value} {vs : List Value} {e : Fault} :
      members v = .ok vs → Fault.Reaches (corner scale) vs w → CornerEscapes w e →
      TabEscapes scale v e
  | failure {v : Value} {vs : List Value} {corners : List (Float × Float)} {words : String} :
      members v = .ok vs → vs.mapM (corner scale) = .ok corners →
      Geometry.polygon corners = .error (.failure words) →
      TabEscapes scale v (.geometry (.failure words))

theorem tab_eq_error {scale : Float} {v : Value} {e : Fault} :
    tab scale v = .error e ∧ isComplaint e = false ↔ TabEscapes scale v e := by
  constructor
  · rintro ⟨h, he⟩
    simp only [tab, Fault.bind_eq_error, Fault.mapM_eq_error] at h
    obtain h | ⟨vs, hvs, ⟨w, hw, h⟩ | ⟨corners, hcorners, h⟩⟩ := h
    · obtain ⟨hkind, rfl⟩ := members_eq_error.mp h
      exact .kind hkind
    · exact .corner hvs hw (corner_eq_error.mp ⟨h, he⟩)
    · obtain ⟨words, hpolygon, rfl⟩ := ofGeometry_eq_error.mp ⟨h, he⟩
      exact .failure hvs hcorners hpolygon
  · rintro (hkind | ⟨hvs, hw, hcorner⟩ | ⟨hvs, hcorners, hpolygon⟩)
    · exact ⟨by unfold tab; rw [members_eq_error.mpr ⟨hkind, rfl⟩]; rfl, rfl⟩
    · obtain ⟨hcorner, he⟩ := corner_eq_error.mpr hcorner
      refine ⟨?_, he⟩
      simp only [tab, Fault.bind_eq_error, Fault.mapM_eq_error]
      exact .inr ⟨_, hvs, .inl ⟨_, hw, hcorner⟩⟩
    · obtain ⟨hgeometry, he⟩ := ofGeometry_eq_error.mpr ⟨_, hpolygon, rfl⟩
      refine ⟨?_, he⟩
      simp only [tab, Fault.bind_eq_error, Fault.mapM_eq_error]
      exact .inr ⟨_, hvs, .inr ⟨_, hcorners, hgeometry⟩⟩

/-- The faults of the tabs that are no complaints. -/
inductive TabsEscape (scale : Float) : Value → Fault → Prop
  | kind {v : Value} : v.isTruthy = true → isListed v = false → TabsEscape scale v .wrongKind
  | tab {v w : Value} {vs : List Value} {e : Fault} :
      v.isTruthy = true → members v = .ok vs → Fault.Reaches (tab scale) vs w →
      TabEscapes scale w e → TabsEscape scale v e
  | failure {v : Value} {vs : List Value} {polygons : List Geometry.Polygon} {words : String} :
      v.isTruthy = true → members v = .ok vs → vs.mapM (tab scale) = .ok polygons →
      Geometry.region polygons = .error (.failure words) →
      TabsEscape scale v (.geometry (.failure words))

theorem tabs_eq_error {scale : Float} {v : Value} {e : Fault} :
    tabs scale v = .error e ∧ isComplaint e = false ↔ TabsEscape scale v e := by
  constructor
  · rintro ⟨h, he⟩
    unfold tabs at h
    split at h
    next htruthy =>
      simp only [Fault.bind_eq_error, Fault.mapM_eq_error] at h
      obtain h | ⟨vs, hvs, ⟨w, hw, h⟩ | ⟨polygons, hpolygons, h⟩⟩ := h
      · obtain ⟨hkind, rfl⟩ := members_eq_error.mp h
        exact .kind htruthy hkind
      · exact .tab htruthy hvs hw (tab_eq_error.mp ⟨h, he⟩)
      · obtain ⟨words, hregion, rfl⟩ := ofGeometry_eq_error.mp ⟨h, he⟩
        exact .failure htruthy hvs hpolygons hregion
    next => cases h
  · rintro (⟨htruthy, hkind⟩ | ⟨htruthy, hvs, hw, htab⟩ | ⟨htruthy, hvs, hpolygons, hregion⟩)
    · refine ⟨?_, rfl⟩
      simp only [tabs, htruthy, if_true, Fault.bind_eq_error]
      exact .inl (members_eq_error.mpr ⟨hkind, rfl⟩)
    · obtain ⟨htab, he⟩ := tab_eq_error.mpr htab
      refine ⟨?_, he⟩
      simp only [tabs, htruthy, if_true, Fault.bind_eq_error, Fault.mapM_eq_error]
      exact .inr ⟨_, hvs, .inl ⟨_, hw, htab⟩⟩
    · obtain ⟨hgeometry, he⟩ := ofGeometry_eq_error.mpr ⟨_, hregion, rfl⟩
      refine ⟨?_, he⟩
      simp only [tabs, htruthy, if_true, Fault.bind_eq_error, Fault.mapM_eq_error]
      exact .inr ⟨_, hvs, .inr ⟨_, hpolygons, hgeometry⟩⟩

end

/-! ## Files -/

/-- Up to which path the paths can be read does not depend on their indices. -/
theorem exists_reaches_zipIdx (name : String) {scale : Float} {v : Value} :
    ∀ (vs : List Value) (n : Nat),
      (∃ i, Fault.Reaches (fun p => path name scale p.2 p.1) (vs.zipIdx n) (v, i)) ↔
        Fault.Reaches (points scale) vs v
  | [], n => by simp [Fault.Reaches]
  | w :: vs, n => by
      simp only [List.zipIdx_cons, Fault.reaches_cons, Prod.mk.injEq, exists_path,
        ← exists_reaches_zipIdx name vs (n + 1)]
      constructor
      · rintro ⟨i, ⟨rfl, rfl⟩ | ⟨hw, hi⟩⟩
        · exact .inl rfl
        · exact .inr ⟨hw, i, hi⟩
      · rintro (rfl | ⟨hw, i, hi⟩)
        · exact ⟨n, .inl ⟨rfl, rfl⟩⟩
        · exact ⟨i, .inr ⟨hw, hi⟩⟩

theorem exists_paths {name : String} {scale : Float} {vs : List Value} :
    (∃ ps, (vs.zipIdx.mapM fun p => path name scale p.2 p.1) = .ok ps) ↔
      ∀ v ∈ vs, ∃ ps, points scale v = .ok ps := by
  rw [Fault.exists_mapM_iff]
  simp only [exists_path]
  constructor
  · intro h v hv
    rw [← List.zipIdx_map_fst 0 vs] at hv
    obtain ⟨p, hp, rfl⟩ := List.mem_map.mp hv
    exact h p hp
  · exact fun h p hp => h p.1 (List.fst_mem_of_mem_zipIdx hp)

section

variable [Geometry]

/-- The faults of the fields of a path file that are no complaints. -/
inductive Escapes (scale : Float) (fs : List (String × Value)) : Fault → Prop
  | kind {list : Value} :
      field? "paths" fs = some list → isListed list = false → Escapes scale fs .wrongKind
  | path {list v : Value} {vs : List Value} :
      field? "paths" fs = some list → members list = .ok vs → Fault.Reaches (points scale) vs v →
      PathEscapes scale v → Escapes scale fs .integerTooLarge
  | tabs {list : Value} {vs : List Value} {e : Fault} :
      field? "paths" fs = some list → members list = .ok vs →
      (∀ v ∈ vs, ∃ ps, points scale v = .ok ps) →
      TabsEscape scale ((field? "tabs" fs).getD .null) e → Escapes scale fs e

theorem ofFields_eq_error {name : String} {scale : Float} {fs : List (String × Value)}
    {e : Fault} :
    ofFields name scale fs = .error e ∧ isComplaint e = false ↔ Escapes scale fs e := by
  constructor
  · rintro ⟨h, he⟩
    unfold ofFields at h
    split at h
    next => cases h; cases he
    next list hlist =>
      simp only [Fault.bind_eq_error] at h
      obtain h | ⟨vs, hvs, h | ⟨ps, hps, h | ⟨region, -, h⟩⟩⟩ := h
      · obtain ⟨hkind, rfl⟩ := members_eq_error.mp h
        exact .kind hlist hkind
      · obtain ⟨⟨v, i⟩, hreaches, hv⟩ := Fault.mapM_eq_error.mp h
        obtain ⟨hpath, rfl⟩ := path_eq_error.mp ⟨hv, he⟩
        exact .path hlist hvs ((exists_reaches_zipIdx name vs 0).mp ⟨i, hreaches⟩) hpath
      · exact .tabs hlist hvs (exists_paths.mp ⟨ps, hps⟩) (tabs_eq_error.mp ⟨h, he⟩)
      · cases h
  · rintro (⟨hlist, hkind⟩ | ⟨hlist, hvs, hreaches, hpath⟩ | ⟨hlist, hvs, hpaths, htabs⟩)
    · refine ⟨?_, rfl⟩
      simp only [ofFields, hlist, Fault.bind_eq_error]
      exact .inl (members_eq_error.mpr ⟨hkind, rfl⟩)
    · refine ⟨?_, rfl⟩
      obtain ⟨i, hi⟩ := (exists_reaches_zipIdx name _ 0).mpr hreaches
      have hfails := Fault.mapM_eq_error.mpr ⟨_, hi, (path_eq_error.mpr ⟨hpath, rfl⟩).1⟩
      simp only [ofFields, hlist, Fault.bind_eq_error]
      exact .inr ⟨_, hvs, .inl hfails⟩
    · obtain ⟨htabs, he⟩ := tabs_eq_error.mpr htabs
      obtain ⟨ps, hps⟩ := exists_paths.mpr hpaths
      refine ⟨?_, he⟩
      simp only [ofFields, hlist, Fault.bind_eq_error]
      exact .inr ⟨_, hvs, .inr ⟨ps, hps, .inl htabs⟩⟩

/-- A text fails with a fault that is no complaint exactly if it is JSON for an object whose fields
do. -/
theorem ofText_eq_error {name : String} {scale : Float} {text : String} {e : Fault} :
    ofText name scale text = .error e ∧ isComplaint e = false ↔
      ∃ fs, Json.parse text = .ok (.object fs) ∧ Escapes scale fs e := by
  constructor
  · rintro ⟨h, he⟩
    unfold ofText at h
    split at h
    next fs hfs => exact ⟨fs, hfs, ofFields_eq_error.mp ⟨h, he⟩⟩
    next => cases h; cases he
    next => cases h; cases he
    next f hf hparse =>
      cases h
      cases Json.isRefusal_of_parse hparse with
      | malformed => exact absurd rfl hf
      | long | longLiteral => cases he
  · rintro ⟨fs, hfs, hescapes⟩
    obtain ⟨h, he⟩ := ofFields_eq_error.mpr hescapes
    exact ⟨by rw [ofText, hfs]; exact h, he⟩

end

end PathFile

end WireErosion
