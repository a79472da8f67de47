import WireErosion.Files.Store

/-!
# Work that fails

Work on a state may fail after it has changed the state, and then the change stays.  What may be
said of a piece of work is this, where a view shows what is of interest in the state.

* It keeps the view, whether it fails or not (`Keeps`).
* It never fails (`NeverFails`).
* It keeps the view if it fails (`KeepsOnFault`).

The last one is what holds of work that does everything that may fail before it changes anything: of
work that keeps the view and goes on with work that keeps it on a fault (`Keeps.bind_onFault`), and
of work that keeps it on a fault and goes on with work that never fails (`KeepsOnFault.bind`).
-/

namespace WireErosion.Work

variable {ε σ τ α β : Type}

/-! ## Opening results -/

section

variable {m : EStateM ε σ α} {f : α → EStateM ε σ β} {s t : σ}

theorem bind_ok {a : α} (h : m s = .ok a t) (f : α → EStateM ε σ β) : (m >>= f) s = f a t := by
  change EStateM.bind m f s = _
  rw [EStateM.bind, h]

theorem bind_error {e : ε} (h : m s = .error e t) (f : α → EStateM ε σ β) :
    (m >>= f) s = .error e t := by
  change EStateM.bind m f s = _
  rw [EStateM.bind, h]

theorem get_bind (f : σ → EStateM ε σ β) (s : σ) : (get >>= f) s = f s s := rfl

theorem bind_eq_ok {b : β} :
    (m >>= f) s = .ok b t ↔ ∃ a u, m s = .ok a u ∧ f a u = .ok b t := by
  cases hm : m s with
  | error e u => simp [bind_error hm]
  | ok a u =>
      rw [bind_ok hm]
      constructor
      · exact fun h => ⟨a, u, rfl, h⟩
      · rintro ⟨_, _, ⟨⟩, h⟩
        exact h

theorem bind_eq_error {e : ε} : (m >>= f) s = .error e t ↔
    m s = .error e t ∨ ∃ a u, m s = .ok a u ∧ f a u = .error e t := by
  cases hm : m s with
  | error d u => simp [bind_error hm]
  | ok a u =>
      rw [bind_ok hm]
      constructor
      · exact fun h => .inr ⟨a, u, rfl, h⟩
      · rintro (h | ⟨_, _, ⟨⟩, h⟩)
        · cases h
        · exact h

theorem ofExcept_eq_ok {r : Except ε α} {a : α} :
    (ofExcept r : EStateM ε σ α) s = .ok a t ↔ r = .ok a ∧ t = s := by
  cases r with
  | ok b =>
      constructor
      · rintro ⟨⟩
        exact ⟨rfl, rfl⟩
      · rintro ⟨⟨⟩, rfl⟩
        rfl
  | error e =>
      constructor
      · rintro ⟨⟩
      · rintro ⟨⟨⟩, -⟩

theorem ofExcept_ok {r : Except ε α} {a : α} (h : r = .ok a) (s : σ) :
    (ofExcept r : EStateM ε σ α) s = .ok a s := by
  rw [h]
  rfl

theorem ofExcept_error {r : Except ε α} {e : ε} (h : r = .error e) (s : σ) :
    (ofExcept r : EStateM ε σ α) s = .error e s := by
  rw [h]
  rfl

/-- A result that is got in two steps may be got in two pieces of work. -/
theorem ofExcept_bind (r : Except ε α) (g : α → Except ε β) :
    (ofExcept (r >>= g) : EStateM ε σ β) = ofExcept r >>= fun a => ofExcept (g a) := by
  cases r <;> rfl

end

/-! ## What work keeps -/

/-- Work keeps what a view shows of the state, whether it fails or not. -/
structure Keeps (view : σ → τ) (m : EStateM ε σ α) : Prop where
  /-- If it does not fail. -/
  ok : ∀ {s a t}, m s = .ok a t → view t = view s
  /-- If it fails. -/
  error : ∀ {s e t}, m s = .error e t → view t = view s

/-- Work has a result in every state. -/
def NeverFails (m : EStateM ε σ α) : Prop := ∀ s, ∃ a t, m s = .ok a t

/-- Work keeps what a view shows of the state if it fails. -/
def KeepsOnFault (view : σ → τ) (m : EStateM ε σ α) : Prop :=
  ∀ ⦃s e t⦄, m s = .error e t → view t = view s

section

variable {view : σ → τ} {m : EStateM ε σ α} {f : α → EStateM ε σ β}

theorem Keeps.bind (hm : Keeps view m) (hf : ∀ a, Keeps view (f a)) : Keeps view (m >>= f) where
  ok h := by
    obtain ⟨a, u, ha, hb⟩ := bind_eq_ok.mp h
    exact ((hf a).ok hb).trans (hm.ok ha)
  error h := by
    rcases bind_eq_error.mp h with h | ⟨a, u, ha, he⟩
    · exact hm.error h
    · exact ((hf a).error he).trans (hm.ok ha)

theorem Keeps.onFault (hm : Keeps view m) : KeepsOnFault view m := fun _ _ _ => hm.error

/-- Work that keeps the view goes on with work that keeps it on a fault. -/
theorem Keeps.bind_onFault (hm : Keeps view m) (hf : ∀ a, KeepsOnFault view (f a)) :
    KeepsOnFault view (m >>= f) := by
  intro s e t h
  rcases bind_eq_error.mp h with h | ⟨a, u, ha, he⟩
  · exact hm.error h
  · exact (hf a he).trans (hm.ok ha)

/-- Work that keeps the view on a fault goes on with work that never fails. -/
theorem KeepsOnFault.bind (hm : KeepsOnFault view m) (hf : ∀ a, NeverFails (f a)) :
    KeepsOnFault view (m >>= f) := by
  intro s e t h
  rcases bind_eq_error.mp h with h | ⟨a, u, -, he⟩
  · exact hm h
  · obtain ⟨b, v, hb⟩ := hf a u
    rw [hb] at he
    cases he

theorem NeverFails.bind (hm : NeverFails m) (hf : ∀ a, NeverFails (f a)) :
    NeverFails (m >>= f) := by
  intro s
  obtain ⟨a, t, ha⟩ := hm s
  obtain ⟨b, u, hb⟩ := hf a t
  exact ⟨b, u, bind_eq_ok.mpr ⟨a, t, ha, hb⟩⟩

theorem NeverFails.keepsOnFault (hm : NeverFails m) : KeepsOnFault view m := by
  intro s e t h
  obtain ⟨a, u, ha⟩ := hm s
  rw [ha] at h
  cases h

end

/-! ## Small pieces of work -/

section

variable (view : σ → τ)

theorem keeps_pure (a : α) : Keeps view (pure a : EStateM ε σ α) where
  ok h := by cases h; rfl
  error h := by cases h

theorem keeps_get : Keeps view (get : EStateM ε σ σ) where
  ok h := by cases h; rfl
  error h := by cases h

theorem keeps_throw (e : ε) : Keeps view (throw e : EStateM ε σ α) where
  ok h := by cases h
  error h := by cases h; rfl

theorem keeps_ofExcept (r : Except ε α) : Keeps view (ofExcept r : EStateM ε σ α) := by
  cases r with
  | ok a => exact keeps_pure view a
  | error e => exact keeps_throw view e

theorem keeps_modify {g : σ → σ} (h : ∀ s, view (g s) = view s) :
    Keeps view (modify g : EStateM ε σ PUnit) where
  ok hs := by cases hs; exact h _
  error hs := by cases hs

end

theorem neverFails_pure (a : α) : NeverFails (pure a : EStateM ε σ α) := fun s => ⟨a, s, rfl⟩

theorem neverFails_get : NeverFails (get : EStateM ε σ σ) := fun s => ⟨s, s, rfl⟩

theorem neverFails_modify (g : σ → σ) : NeverFails (modify g : EStateM ε σ PUnit) :=
  fun s => ⟨⟨⟩, g s, rfl⟩

end WireErosion.Work
