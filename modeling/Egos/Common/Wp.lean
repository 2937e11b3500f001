import Mathlib.Control.Basic
import Mathlib.Order.Defs.Unbundled
import Mathlib.Tactic.Common

/-!
# Weakest preconditions for stateful code that can panic

`EStateM ε σ` is the monad of C code with a state `σ` that either returns a value or stops with a
panic `ε`. A panic does not undo anything: the state it stops in is part of the outcome, so that
what a half-done operation leaves behind can be talked about.

`wp m Q E s` says that running `m` from `s` either returns with `Q` or panics with `E`. The rules
below push `wp` through `pure`, `bind`, `throw` and conditionals; loops are recursive functions and
are handled by induction at their own definitions.
-/

namespace Egos

variable {ε σ α β : Type}

/-- Running `m` from `s` returns with `Q` or panics with `E`. -/
def wp (m : EStateM ε σ α) (Q : α → σ → Prop) (E : ε → σ → Prop) (s : σ) : Prop :=
  match m s with
  | .ok a s' => Q a s'
  | .error e s' => E e s'

/-- The postcondition of a run that returned. -/
theorem wp_ok {m : EStateM ε σ α} {Q : α → σ → Prop} {E : ε → σ → Prop} {s s' : σ} {a : α}
    (h : wp m Q E s) (hm : m s = .ok a s') : Q a s' := by
  simpa [wp, hm] using h

/-- The postcondition of a run that panicked. -/
theorem wp_error {m : EStateM ε σ α} {Q : α → σ → Prop} {E : ε → σ → Prop} {s s' : σ} {e : ε}
    (h : wp m Q E s) (hm : m s = .error e s') : E e s' := by
  simpa [wp, hm] using h

/-- A run that satisfies a `wp` whose panic postcondition is empty returns. -/
theorem wp_returns {m : EStateM ε σ α} {Q : α → σ → Prop} {s : σ}
    (h : wp m Q (fun _ _ => False) s) : ∃ a s', m s = .ok a s' ∧ Q a s' := by
  cases hm : m s with
  | ok a s' => exact ⟨a, s', rfl, wp_ok h hm⟩
  | error e s' => exact (wp_error h hm).elim

/-- A run that satisfies a `wp` whose postcondition is empty panics. -/
theorem wp_panics {m : EStateM ε σ α} {E : ε → σ → Prop} {s : σ}
    (h : wp m (fun _ _ => False) E s) : ∃ e s', m s = .error e s' ∧ E e s' := by
  cases hm : m s with
  | ok a s' => exact (wp_ok h hm).elim
  | error e s' => exact ⟨e, s', rfl, wp_error h hm⟩

/-- Both postconditions may be weakened. -/
theorem wp_mono {m : EStateM ε σ α} {Q Q' : α → σ → Prop} {E E' : ε → σ → Prop} {s : σ}
    (h : wp m Q E s) (hQ : ∀ a s', Q a s' → Q' a s') (hE : ∀ e s', E e s' → E' e s') :
    wp m Q' E' s := by
  cases hm : m s with
  | ok a s' =>
    have := hQ a s' (wp_ok h hm)
    simpa [wp, hm] using this
  | error e s' =>
    have := hE e s' (wp_error h hm)
    simpa [wp, hm] using this

/-- A run that returns meets two postconditions when it meets each. -/
theorem wp_and {m : EStateM ε σ α} {Q Q' : α → σ → Prop} {E : ε → σ → Prop} {s : σ}
    (h : wp m Q E s) (h' : wp m Q' (fun _ _ => True) s) :
    wp m (fun a s' => Q a s' ∧ Q' a s') E s := by
  cases hm : m s with
  | ok a s' =>
    have := And.intro (wp_ok h hm) (wp_ok h' hm)
    simpa [wp, hm] using this
  | error e s' =>
    have := wp_error h hm
    simpa [wp, hm] using this

/-- Postconditions that can be decided can be tested by running the code. -/
instance (m : EStateM ε σ α) (Q : α → σ → Prop) (E : ε → σ → Prop) (s : σ)
    [∀ a s', Decidable (Q a s')] [∀ e s', Decidable (E e s')] : Decidable (wp m Q E s) :=
  match h : m s with
  | .ok a s' => decidable_of_iff (Q a s') (by simp [wp, h])
  | .error e s' => decidable_of_iff (E e s') (by simp [wp, h])

/-- A value is returned. -/
@[simp] theorem wp_pure (a : α) (Q : α → σ → Prop) (E : ε → σ → Prop) (s : σ) :
    wp (pure a) Q E s = Q a s := rfl

/-- A panic stops the code. -/
@[simp] theorem wp_throw (e : ε) (Q : α → σ → Prop) (E : ε → σ → Prop) (s : σ) :
    wp (throw e) Q E s = E e s := rfl

/-- The state is read. -/
@[simp] theorem wp_get (Q : σ → σ → Prop) (E : ε → σ → Prop) (s : σ) :
    wp (get : EStateM ε σ σ) Q E s = Q s s := rfl

/-- The state is changed. -/
@[simp] theorem wp_modify (f : σ → σ) (Q : PUnit → σ → Prop) (E : ε → σ → Prop) (s : σ) :
    wp (modify f : EStateM ε σ PUnit) Q E s = Q ⟨⟩ (f s) := rfl

/-- What comes after starts from what came before. -/
@[simp] theorem wp_bind (m : EStateM ε σ α) (f : α → EStateM ε σ β) (Q : β → σ → Prop)
    (E : ε → σ → Prop) (s : σ) :
    wp (m >>= f) Q E s = wp m (fun a s' => wp (f a) Q E s') E s := by
  simp only [wp, bind, EStateM.bind]
  cases m s <;> rfl

/-- Run the first half to a postcondition from which the second half goes through. -/
theorem wp_seq {m : EStateM ε σ α} {f : α → EStateM ε σ β} {P : α → σ → Prop} {Q : β → σ → Prop}
    {E : ε → σ → Prop} {s : σ} (hm : wp m P E s) (hf : ∀ a s', P a s' → wp (f a) Q E s') :
    wp (m >>= f) Q E s := by
  rw [wp_bind]
  exact wp_mono hm hf (fun _ _ h => h)

/-- Sequencing with a call whose panics are among those of the caller. -/
theorem wp_call {m : EStateM ε σ α} {f : α → EStateM ε σ β} {Q : α → σ → Prop} {R : β → σ → Prop}
    {E E' : ε → σ → Prop} {s : σ} (hm : wp m Q E s) (hE : ∀ e s', E e s' → E' e s')
    (hf : ∀ a s', Q a s' → wp (f a) R E' s') : wp (m >>= f) R E' s :=
  wp_seq (wp_mono hm (fun _ _ h => h) hE) hf

/-! ## Invariants -/

/-- Every run of `m` from a state with `P` ends in one, whether it returns or panics. -/
def Keeps (P : σ → Prop) (m : EStateM ε σ α) : Prop :=
  ∀ s, P s → wp m (fun _ s' => P s') (fun _ s' => P s') s

namespace Keeps

variable {P : σ → Prop} {m : EStateM ε σ α} {f : α → EStateM ε σ β}

/-- Returning a value keeps `P`. -/
theorem pure (a : α) : Keeps P (Pure.pure a : EStateM ε σ α) := fun _ h => h

/-- A panic keeps `P`. -/
theorem throw (e : ε) : Keeps P (MonadExcept.throw e : EStateM ε σ α) := fun _ h => h

/-- Code keeps `P` if its parts do. -/
theorem bind (hm : Keeps P m) (hf : ∀ a, Keeps P (f a)) : Keeps P (m >>= f) :=
  fun s hs => wp_seq (hm s hs) fun a s' hs' => hf a s' hs'

end Keeps

/-! ## Relations between the states before and after -/

/-- Every run of `m` that returns goes from a state to one that is related to it. -/
structure Moves (R : σ → σ → Prop) (m : EStateM ε σ α) : Prop where
  wp : ∀ s, wp m (fun _ s' => R s s') (fun _ _ => True) s

namespace Moves

variable {R : σ → σ → Prop} [IsPreorder σ R] {m : EStateM ε σ α} {f : α → EStateM ε σ β}

omit [IsPreorder σ R] in
/-- A run that returns goes from one state to another by `R`. -/
theorem ok {s s' : σ} {a : α} (h : Moves R m) (hm : m s = .ok a s') : R s s' :=
  wp_ok (Q := fun _ s' => R s s') (h.wp s) hm

/-- Returning a value moves nothing. -/
theorem pure (a : α) : Moves R (Pure.pure a : EStateM ε σ α) := ⟨fun s => refl_of R s⟩

omit [IsPreorder σ R] in
/-- Nothing is said of a panic. -/
theorem throw (e : ε) : Moves R (MonadExcept.throw e : EStateM ε σ α) := ⟨fun _ => trivial⟩

omit [IsPreorder σ R] in
/-- A change of the state that is one by `R`. -/
theorem modify {g : σ → σ} (h : ∀ s, R s (g s)) :
    Moves R (modifyGet fun s => (⟨⟩, g s) : EStateM ε σ PUnit) := ⟨h⟩

/-- Moves by `R`, one after the other. -/
theorem bind (hm : Moves R m) (hf : ∀ a, Moves R (f a)) : Moves R (m >>= f) :=
  ⟨fun s => wp_seq (hm.wp s) fun a s' hs =>
    wp_mono ((hf a).wp s') (fun _ _ h => trans_of R hs h) fun _ _ _ => trivial⟩

omit [IsPreorder σ R] in
/-- Reading the state first. -/
theorem get_bind {f : σ → EStateM ε σ β}
    (hf : ∀ s, Egos.wp (f s) (fun _ s' => R s s') (fun _ _ => True) s) :
    Moves R ((get : EStateM ε σ σ) >>= f) := ⟨hf⟩

end Moves

end Egos
