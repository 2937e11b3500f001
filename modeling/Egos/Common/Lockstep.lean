import Egos.Common.Wp

/-!
# Two runs in lockstep

Code runs in lockstep from related states when both runs return the same value in related states
or both stop with the same panic. The rules follow the shape of the code; with `Lockstep.wp`, what
holds of the run from one state carries over to the run from the other.
-/

namespace Egos

variable {ε σ α β : Type} {R : σ → σ → Prop}

/-- Two outcomes with the same value in related states, or with the same panic. -/
inductive SameOutcome (R : σ → σ → Prop) : EStateM.Result ε σ α → EStateM.Result ε σ α → Prop
  | ok {s t : σ} (a : α) (h : R s t) : SameOutcome R (.ok a s) (.ok a t)
  | error (e : ε) (s t : σ) : SameOutcome R (.error e s) (.error e t)

/-- From related states the code has the same outcome. -/
def Lockstep (R : σ → σ → Prop) (m : EStateM ε σ α) : Prop :=
  ∀ s t, R s t → SameOutcome R (m s) (m t)

namespace Lockstep

variable {m : EStateM ε σ α} {f : α → EStateM ε σ β}

/-- Returning a value is in lockstep. -/
theorem pure (a : α) : Lockstep R (Pure.pure a : EStateM ε σ α) := fun _ _ h => .ok a h

/-- So is a panic. -/
theorem throw (e : ε) : Lockstep R (MonadExcept.throw e : EStateM ε σ α) :=
  fun s t _ => .error e s t

/-- So is a change that keeps the relation. -/
theorem modify {g : σ → σ} (h : ∀ s t, R s t → R (g s) (g t)) :
    Lockstep R (modifyGet fun s => (⟨⟩, g s) : EStateM ε σ PUnit) := by
  intro s t hst
  exact SameOutcome.ok PUnit.unit (h s t hst)

/-- Code is in lockstep if its parts are. -/
theorem bind (hm : Lockstep R m) (hf : ∀ a, Lockstep R (f a)) : Lockstep R (m >>= f) := by
  intro s t hst
  change SameOutcome R (EStateM.bind m f s) (EStateM.bind m f t)
  unfold EStateM.bind
  have hsame := hm s t hst
  revert hsame
  generalize m s = x
  generalize m t = y
  intro hsame
  cases hsame with
  | ok a h => exact hf a _ _ h
  | error e s t => exact .error e s t

/-- Reading the state first: what is done then is the same for related states. -/
theorem get_bind {f : σ → EStateM ε σ β} (hf : ∀ s t, R s t → f s = f t)
    (hl : ∀ s, Lockstep R (f s)) : Lockstep R ((get : EStateM ε σ σ) >>= f) := by
  intro s t hst
  change SameOutcome R (f s s) (f t t)
  rw [hf s t hst]
  exact hl t s t hst

/-- What holds of one run holds of the other, up to the relation. -/
theorem wp {Q : α → σ → Prop} {E : ε → σ → Prop} {s t : σ} (hm : Lockstep R m) (hst : R s t)
    (h : Egos.wp m Q E t) :
    Egos.wp m (fun a s' => ∃ t', R s' t' ∧ Q a t') (fun e _ => ∃ t', E e t') s := by
  have hsame := hm s t hst
  unfold Egos.wp at h ⊢
  revert hsame h
  generalize m s = x
  generalize m t = y
  intro h hsame
  cases hsame with
  | ok a hR => exact ⟨_, hR, h⟩
  | error e s t => exact ⟨t, h⟩

end Lockstep

/-! ## Results of two programs -/

section results

variable {γ : Type} {P : α → γ → Prop} {x : Except ε α} {y : Except ε γ}

/-- Two results with related values, or with the same error. -/
inductive SameResult (P : α → γ → Prop) : Except ε α → Except ε γ → Prop
  | ok {a : α} {b : γ} (h : P a b) : SameResult P (.ok a) (.ok b)
  | error (e : ε) : SameResult P (.error e) (.error e)

/-- A value on one side has a related value on the other. -/
theorem SameResult.of_ok (h : SameResult P x y) {a : α} (hx : x = .ok a) :
    ∃ b, y = .ok b ∧ P a b := by
  cases h with
  | ok h =>
    cases hx
    exact ⟨_, rfl, h⟩
  | error e => cases hx

/-- A value on the other side. -/
theorem SameResult.of_ok_right (h : SameResult P x y) {b : γ} (hy : y = .ok b) :
    ∃ a, x = .ok a ∧ P a b := by
  cases h with
  | ok h =>
    cases hy
    exact ⟨_, rfl, h⟩
  | error e => cases hy

end results

end Egos
