import Mathlib.Data.List.Forall2
import WireErosion.Notice

/-!
# Opening results

How a computation that may end in a fault came to its result.  `Fault.bind_eq_ok`,
`Fault.map_eq_ok` and `Fault.mapM_eq_ok` take such a computation apart into the steps that gave
their results, and `Report.outcome_bind_eq_ok` does so for a report.  A list of computations with
results gives the results line by line, which `List.Forall₂` says.
-/

namespace WireErosion

variable {α β γ δ : Type}

/-! ## Faults -/

namespace Fault

theorem exists_eq_ok : ∀ {x : Except Fault β}, x.isOk = true → ∃ b, x = .ok b
  | .ok b, _ => ⟨b, rfl⟩

theorem bind_eq_ok {x : Except Fault β} {f : β → Except Fault γ} {c : γ} :
    (x >>= f) = .ok c ↔ ∃ b, x = .ok b ∧ f b = .ok c := by
  cases x with
  | error e => simp [bind, Except.bind]
  | ok b => simp [bind, Except.bind]

theorem map_eq_ok {x : Except Fault β} {f : β → γ} {c : γ} :
    x.map f = .ok c ↔ ∃ b, x = .ok b ∧ f b = c := by
  cases x with
  | error e => simp [Except.map]
  | ok b => simp [Except.map]

/-- A list of computations has results exactly if each of them has. -/
theorem mapM_eq_ok {f : β → Except Fault γ} :
    ∀ {xs : List β} {ys : List γ},
      xs.mapM f = .ok ys ↔ List.Forall₂ (fun x y => f x = .ok y) xs ys
  | [], ys => by
      simp only [List.mapM_nil, List.forall₂_nil_left_iff, pure, Except.pure, Except.ok.injEq]
      exact eq_comm
  | x :: xs, ys => by
      simp only [List.mapM_cons, bind_eq_ok, mapM_eq_ok, List.forall₂_cons_left_iff, pure,
        Except.pure, Except.ok.injEq]
      constructor
      · rintro ⟨y, hy, ys', hys, rfl⟩
        exact ⟨y, ys', hy, hys, rfl⟩
      · rintro ⟨y, ys', hy, hys, rfl⟩
        exact ⟨y, hy, ys', hys, rfl⟩

theorem exists_mapM_eq_ok {f : β → Except Fault γ} :
    ∀ {xs : List β}, (∀ x ∈ xs, ∃ y, f x = .ok y) → ∃ ys, xs.mapM f = .ok ys
  | [], _ => ⟨[], rfl⟩
  | x :: xs, h => by
      obtain ⟨⟨y, hy⟩, hxs⟩ := List.forall_mem_cons.mp h
      obtain ⟨ys, hys⟩ := exists_mapM_eq_ok hxs
      exact ⟨y :: ys, mapM_eq_ok.mpr (.cons hy (mapM_eq_ok.mp hys))⟩

theorem exists_mapM_iff {f : β → Except Fault γ} {xs : List β} :
    (∃ ys, xs.mapM f = .ok ys) ↔ ∀ x ∈ xs, ∃ y, f x = .ok y := by
  constructor
  · rintro ⟨ys, hys⟩
    rw [mapM_eq_ok] at hys
    induction hys with
    | nil => simp
    | @cons x y xs ys hy _ ih => exact List.forall_mem_cons.mpr ⟨⟨y, hy⟩, ih⟩
  · exact exists_mapM_eq_ok

theorem bind_eq_error {x : Except Fault β} {f : β → Except Fault γ} {e : Fault} :
    (x >>= f) = .error e ↔ x = .error e ∨ ∃ b, x = .ok b ∧ f b = .error e := by
  cases x with
  | error d => simp [bind, Except.bind]
  | ok b => simp [bind, Except.bind]

theorem map_eq_error {x : Except Fault β} {f : β → γ} {e : Fault} :
    x.map f = .error e ↔ x = .error e := by
  cases x with
  | error d => simp [Except.map]
  | ok b => simp [Except.map]

/-- A member of a list with a result for each member before it. -/
def Reaches (f : β → Except Fault γ) (xs : List β) (x : β) : Prop :=
  ∃ pre post, xs = pre ++ x :: post ∧ ∀ y ∈ pre, ∃ c, f y = .ok c

theorem reaches_cons {f : β → Except Fault γ} {xs : List β} {x y : β} :
    Reaches f (x :: xs) y ↔ y = x ∨ (∃ c, f x = .ok c) ∧ Reaches f xs y := by
  constructor
  · rintro ⟨pre, post, hxs, hpre⟩
    cases pre with
    | nil => exact .inl (List.cons.inj hxs).1.symm
    | cons z pre =>
        obtain ⟨rfl, rfl⟩ := List.cons.inj hxs
        obtain ⟨hz, hpre⟩ := List.forall_mem_cons.mp hpre
        exact .inr ⟨hz, pre, post, rfl, hpre⟩
  · rintro (rfl | ⟨hx, pre, post, rfl, hpre⟩)
    · exact ⟨[], xs, rfl, by simp⟩
    · exact ⟨x :: pre, post, rfl, List.forall_mem_cons.mpr ⟨hx, hpre⟩⟩

/-- A list of computations fails with the fault of the first one that has no result. -/
theorem mapM_eq_error {f : β → Except Fault γ} {e : Fault} : ∀ {xs : List β},
    xs.mapM f = .error e ↔ ∃ x, Reaches f xs x ∧ f x = .error e
  | [] => by
      constructor
      · intro h
        cases h
      · rintro ⟨x, ⟨pre, post, hxs, -⟩, -⟩
        exact absurd hxs (by simp)
  | x :: xs => by
      rw [List.mapM_cons, bind_eq_error]
      simp only [bind_eq_error, mapM_eq_error, reaches_cons, pure, Except.pure, reduceCtorEq,
        and_false, exists_false, or_false]
      constructor
      · rintro (hx | ⟨y, hy, z, hz, he⟩)
        · exact ⟨x, .inl rfl, hx⟩
        · exact ⟨z, .inr ⟨⟨y, hy⟩, hz⟩, he⟩
      · rintro ⟨z, rfl | ⟨⟨y, hy⟩, hz⟩, he⟩
        · exact .inl he
        · exact .inr ⟨y, hy, z, hz, he⟩

end Fault

/-! ## Reports -/

namespace Report

@[simp] theorem bind_eq (r : Report α β) (f : β → Report α γ) : (r >>= f) = r.bind f := rfl

@[simp] theorem pure_eq (b : β) : (pure b : Report α β) = .of b := rfl

@[simp] theorem outcome_of (b : β) : (of b : Report α β).outcome = .ok b := rfl

@[simp] theorem outcome_tell (n : Notice α) : (tell n).outcome = .ok () := rfl

@[simp] theorem outcome_tellAll (ns : List (Notice α)) : (tellAll ns).outcome = .ok () := rfl

@[simp] theorem outcome_lift (x : Except Fault β) : (lift x : Report α β).outcome = x := rfl

@[simp] theorem outcome_mapNotices (f : α → γ) (r : Report α β) :
    (r.mapNotices f).outcome = r.outcome :=
  rfl

@[simp] theorem notices_of (b : β) : (of b : Report α β).notices = [] := rfl

@[simp] theorem notices_tellAll (ns : List (Notice α)) : (tellAll ns).notices = ns := rfl

@[simp] theorem of_bind (b : β) (f : β → Report α γ) : (of b).bind f = f b := by
  simp [Report.bind, of]

theorem bind_bind (r : Report α β) (f : β → Report α γ) (g : γ → Report α δ) :
    (r.bind f).bind g = r.bind fun b => (f b).bind g := by
  unfold Report.bind
  cases r.outcome with
  | error e => rfl
  | ok b => cases h : (f b).outcome <;> simp [h]

theorem outcome_bind_eq (r : Report α β) (f : β → Report α γ) :
    (r.bind f).outcome = r.outcome >>= fun b => (f b).outcome := by
  unfold Report.bind
  cases r.outcome <;> rfl

theorem outcome_bind_eq_ok {r : Report α β} {f : β → Report α γ} {c : γ} :
    (r.bind f).outcome = .ok c ↔ ∃ b, r.outcome = .ok b ∧ (f b).outcome = .ok c := by
  unfold Report.bind
  cases h : r.outcome with
  | error e => simp
  | ok b => simp

theorem outcome_bind_eq_error {r : Report α β} {f : β → Report α γ} {e : Fault} :
    (r.bind f).outcome = .error e ↔
      r.outcome = .error e ∨ ∃ b, r.outcome = .ok b ∧ (f b).outcome = .error e := by
  unfold Report.bind
  cases h : r.outcome with
  | error d => simp
  | ok b => simp

theorem outcome_bind {r : Report α β} {f : β → Report α γ} {b : β} (h : r.outcome = .ok b) :
    (r.bind f).outcome = (f b).outcome := by
  simp only [Report.bind, h]

theorem notices_bind {r : Report α β} {f : β → Report α γ} {b : β} (h : r.outcome = .ok b) :
    (r.bind f).notices = r.notices ++ (f b).notices := by
  simp only [Report.bind, h]

/-- A silent report with a result is just that result. -/
theorem eq_of {r : Report α β} {b : β} (hsilent : r.notices = []) (h : r.outcome = .ok b) :
    r = .of b := by
  cases r
  cases hsilent
  cases h
  rfl

/-- A report that goes on silently after a silent one is silent. -/
theorem notices_bind_eq_nil {r : Report α β} {f : β → Report α γ} (h : r.notices = [])
    (hf : ∀ b, r.outcome = .ok b → (f b).notices = []) : (r.bind f).notices = [] := by
  unfold Report.bind
  cases hr : r.outcome with
  | error e => exact h
  | ok b => simp [h, hf b hr]

end Report

end WireErosion
