import CilEdit.Error

/-!
Computations on a state that may fail.

A step gives a value or fails; in both cases the state keeps what the step has done to it so far.
-/

namespace CilEdit

/-- A computation on a state of type `σ` that gives an `α` or fails with an `ε`; in both cases the
state keeps what the step has done to it so far. -/
def Step (ε σ α : Type) : Type :=
  σ → Except ε α × σ

namespace Step

variable {ε ε' σ α β : Type}

@[always_inline]
instance : Monad (Step ε σ) where
  pure a s := (.ok a, s)
  bind step next s :=
    match step s with
    | (.ok a, s) => next a s
    | (.error e, s) => (.error e, s)

@[inline]
def fail (e : ε) : Step ε σ α := fun s => (.error e, s)

@[inline]
def ofExcept (x : Except ε α) : Step ε σ α := fun s => (x, s)

@[inline]
def read (look : σ → Except ε α) : Step ε σ α := fun s => (look s, s)

/-- A result with a changed state, or a failure that leaves it as it was. -/
@[inline]
def update (change : σ → Except ε (α × σ)) : Step ε σ α := fun s =>
  match change s with
  | .ok (a, s) => (.ok a, s)
  | .error e => (.error e, s)

@[inline]
def modify (change : σ → σ) : Step ε σ Unit := fun s => (.ok (), change s)

@[inline]
def modifyGet (change : σ → α × σ) : Step ε σ α := fun s =>
  let (a, s) := change s
  (.ok a, s)

def mapError (wrap : ε → ε') (step : Step ε σ α) : Step ε' σ α := fun s =>
  match step s with
  | (.error e, s) => (.error (wrap e), s)
  | (.ok a, s) => (.ok a, s)

theorem bind_ok {step : Step ε σ α} {next : α → Step ε σ β} {s t : σ} {a : α}
    (h : step s = (.ok a, t)) : (step >>= next) s = next a t := by
  simp only [bind, h]

theorem bind_error {step : Step ε σ α} {next : α → Step ε σ β} {s t : σ} {e : ε}
    (h : step s = (.error e, t)) : (step >>= next) s = (.error e, t) := by
  simp only [bind, h]

theorem bind_eq_ok {step : Step ε σ α} {next : α → Step ε σ β} {s u : σ} {b : β} :
    (step >>= next) s = (.ok b, u) ↔ ∃ a t, step s = (.ok a, t) ∧ next a t = (.ok b, u) := by
  constructor
  · intro h
    match hstep : step s with
    | (.error e, t) =>
        rw [bind_error hstep] at h
        cases h
    | (.ok a, t) => exact ⟨a, t, rfl, (bind_ok hstep).symm.trans h⟩
  · rintro ⟨a, t, hstep, hnext⟩
    exact (bind_ok hstep).trans hnext

theorem bind_apply (step : Step ε σ α) (next : α → Step ε σ β) (s : σ) :
    (step >>= next) s = match step s with
      | (.ok a, s) => next a s
      | (.error e, s) => (.error e, s) := rfl

theorem pure_apply (a : α) (s : σ) : (pure a : Step ε σ α) s = (.ok a, s) := rfl

theorem read_apply (look : σ → Except ε α) (s : σ) : read look s = (look s, s) := rfl

theorem modify_apply (change : σ → σ) (s : σ) :
    (modify change : Step ε σ Unit) s = (.ok (), change s) := rfl

theorem modifyGet_apply (change : σ → α × σ) (s : σ) :
    (modifyGet change : Step ε σ α) s = (.ok (change s).1, (change s).2) := rfl

theorem fail_apply (e : ε) (s : σ) : (fail e : Step ε σ α) s = (.error e, s) := rfl

theorem ofExcept_apply (x : Except ε α) (s : σ) : ofExcept x s = (x, s) := rfl

theorem read_eq_ok_iff {look : σ → Except ε α} {s t : σ} {a : α} :
    read look s = (.ok a, t) ↔ look s = .ok a ∧ s = t := by
  rw [read_apply, Prod.mk.injEq]

theorem ofExcept_eq_ok_iff {x : Except ε α} {s t : σ} {a : α} :
    ofExcept x s = (.ok a, t) ↔ x = .ok a ∧ s = t := by
  rw [ofExcept_apply, Prod.mk.injEq]

theorem ofExcept_bind_eq_ok_iff {x : Except ε α} {next : α → Step ε σ β} {s t : σ} {b : β} :
    (ofExcept x >>= next) s = (.ok b, t) ↔ ∃ a, x = .ok a ∧ next a s = (.ok b, t) := by
  rw [bind_eq_ok]
  constructor
  · rintro ⟨a, u, hstep, hnext⟩
    obtain ⟨hx, rfl⟩ := ofExcept_eq_ok_iff.mp hstep
    exact ⟨a, hx, hnext⟩
  · rintro ⟨a, hx, hnext⟩
    exact ⟨a, s, ofExcept_eq_ok_iff.mpr ⟨hx, rfl⟩, hnext⟩

theorem modifyGet_eq_ok_iff {change : σ → α × σ} {s t : σ} {a : α} :
    (modifyGet change : Step ε σ α) s = (.ok a, t) ↔ change s = (a, t) := by
  rw [modifyGet_apply, Prod.mk.injEq, Except.ok.injEq, ← Prod.mk.injEq]

/-- A look-up that decides how the state changes keeps what every such change keeps. -/
theorem ofExcept_bind_modifyGet {P : σ → Prop} {s : σ} (x : Except ε α) {change : α → σ → β × σ}
    (hs : P s) (hchange : ∀ a, P (change a s).2) :
    P ((ofExcept x >>= fun a => modifyGet (change a)) s).2 := by
  cases x with
  | error e => exact hs
  | ok a => exact hchange a

theorem mapError_eq_ok_iff {wrap : ε → ε'} {step : Step ε σ α} {s t : σ} {a : α} :
    step.mapError wrap s = (.ok a, t) ↔ step s = (.ok a, t) := by
  rw [mapError]
  match step s with
  | (.error e, u) => exact ⟨nofun, nofun⟩
  | (.ok b, u) => simp only [Prod.mk.injEq, Except.ok.injEq]

theorem bind_eq_error {step : Step ε σ α} {next : α → Step ε σ β} {s u : σ} {e : ε}
    (h : (step >>= next) s = (.error e, u)) :
    step s = (.error e, u) ∨ ∃ a t, step s = (.ok a, t) ∧ next a t = (.error e, u) := by
  match hstep : step s with
  | (.error cause, t) =>
      rw [bind_error hstep] at h
      cases h
      exact .inl rfl
  | (.ok a, t) => exact .inr ⟨a, t, rfl, (bind_ok hstep).symm.trans h⟩

/-- The step changes nothing. -/
def Still (step : Step ε σ α) : Prop :=
  ∀ s, (step s).2 = s

/-- The step changes nothing where it fails. -/
def Atomic (step : Step ε σ α) : Prop :=
  ∀ s e t, step s = (.error e, t) → t = s

theorem still_read (look : σ → Except ε α) : (read look).Still := fun _ => rfl

theorem still_ofExcept (x : Except ε α) : (ofExcept x : Step ε σ α).Still := fun _ => rfl

theorem Still.eq {step : Step ε σ α} (h : step.Still) {s t : σ} {result : Except ε α}
    (hstep : step s = (result, t)) : t = s :=
  (congrArg Prod.snd hstep).symm.trans (h s)

theorem Still.mapError {step : Step ε σ α} (h : step.Still) (wrap : ε → ε') :
    (step.mapError wrap).Still := by
  intro s
  rw [Step.mapError]
  match hstep : step s with
  | (.error e, t) => exact h.eq hstep
  | (.ok a, t) => exact h.eq hstep

theorem Still.bind {step : Step ε σ α} {next : α → Step ε σ β} (h : step.Still)
    (hnext : ∀ a, (next a).Still) : (step >>= next).Still := by
  intro s
  match hstep : step s with
  | (.error e, t) =>
      rw [bind_error hstep]
      exact h.eq hstep
  | (.ok a, t) =>
      rw [bind_ok hstep, hnext a t]
      exact h.eq hstep

theorem atomic_of_still {step : Step ε σ α} (h : step.Still) : step.Atomic :=
  fun _ _ _ hstep => h.eq hstep

theorem Atomic.mapError {step : Step ε σ α} (h : step.Atomic) (wrap : ε → ε') :
    (step.mapError wrap).Atomic := by
  intro s e t hfail
  rw [Step.mapError] at hfail
  match hstep : step s with
  | (.error cause, u) =>
      rw [hstep] at hfail
      cases hfail
      exact h s cause _ hstep
  | (.ok a, u) =>
      rw [hstep] at hfail
      cases hfail

/-- After a step that changes nothing, a failure leaves what the next step leaves. -/
theorem Still.bind_atomic {step : Step ε σ α} {next : α → Step ε σ β} (h : step.Still)
    (hnext : ∀ a, (next a).Atomic) : (step >>= next).Atomic := by
  intro s e u hfail
  rcases bind_eq_error hfail with hstep | ⟨a, t, hstep, hfail⟩
  · exact h.eq hstep
  · exact (hnext a t e u hfail).trans (h.eq hstep)

/-- Nothing fails after the last step that changes the state. -/
theorem Atomic.bind_pure {step : Step ε σ α} (h : step.Atomic) (f : α → β) :
    (step >>= fun a => pure (f a)).Atomic := by
  intro s e u hfail
  rcases bind_eq_error hfail with hstep | ⟨a, t, -, hreturn⟩
  · exact h s e u hstep
  · cases hreturn

end Step

end CilEdit
