import Mathlib.Tactic.Common

/-!
# Runs of a transition system

A system is given by its initial state and a partial function `next`: action `a` leads from `s` to
`s'` when `next s a = some s'`, and cannot be taken or stops the system when it is `none`. A
condition `ok` on the state before a step and the action restricts the runs that are considered.
-/

namespace Egos

variable {σ α : Type}

/-- The states that are reached by runs whose steps all meet `ok`. -/
inductive Reach (next : σ → α → Option σ) (ok : σ → α → Prop) (s₀ : σ) : σ → Prop
  | init : Reach next ok s₀ s₀
  | step {s s' : σ} {a : α} :
      Reach next ok s₀ s → ok s a → next s a = some s' → Reach next ok s₀ s'

variable {next : σ → α → Option σ} {ok ok' : σ → α → Prop} {s₀ s : σ}

/-- What holds initially and is kept by every step holds in every reached state. -/
theorem Reach.invariant {P : σ → Prop} (h : Reach next ok s₀ s) (h₀ : P s₀)
    (hstep : ∀ s a s', P s → ok s a → next s a = some s' → P s') : P s := by
  induction h with
  | init => exact h₀
  | step _ hok hnext ih => exact hstep _ _ _ ih hok hnext

/-- A run under a condition is one under a weaker condition. -/
theorem Reach.mono (h : Reach next ok s₀ s) (hok : ∀ s a, ok s a → ok' s a) :
    Reach next ok' s₀ s := by
  induction h with
  | init => exact .init
  | step _ ha hnext ih => exact .step ih (hok _ _ ha) hnext

/-- A run, and then another. -/
theorem Reach.trans {s' : σ} (h : Reach next ok s₀ s) (h' : Reach next ok s s') :
    Reach next ok s₀ s' := by
  apply h'.invariant h
  intro s₁ a s₂ h₁ hok hnext
  exact h₁.step hok hnext

/-- Take a list of actions one after the other. -/
def runActions (next : σ → α → Option σ) : σ → List α → Option σ
  | s, [] => some s
  | s, a :: as => (next s a).bind fun s' => runActions next s' as

/-- A list of actions can be taken from `s`, and its result meets `Q`. -/
def Yields (next : σ → α → Option σ) (s : σ) (as : List α) (Q : σ → Prop) : Prop :=
  ∃ s', runActions next s as = some s' ∧ Q s'

section Yields

variable {as bs : List α} {Q R : σ → Prop}

/-- No actions do nothing. -/
theorem Yields.nil (h : Q s) : Yields next s [] Q := ⟨s, rfl, h⟩

/-- One action, and then the others. -/
theorem Yields.cons {a : α} {s' : σ} (hnext : next s a = some s') (h : Yields next s' as Q) :
    Yields next s (a :: as) Q := by
  obtain ⟨s₂, hrun, hQ⟩ := h
  refine ⟨s₂, ?_, hQ⟩
  rw [runActions, hnext]
  exact hrun

/-- Some actions, and then others. -/
theorem Yields.append (h : Yields next s as Q) (hQ : ∀ s', Q s' → Yields next s' bs R) :
    Yields next s (as ++ bs) R := by
  induction as generalizing s with
  | nil =>
    obtain ⟨_, ⟨⟩, hs⟩ := h
    exact hQ s hs
  | cons a as ih =>
    obtain ⟨s₂, hrun, hs₂⟩ := h
    obtain ⟨s₁, hnext, hrun⟩ := Option.bind_eq_some_iff.1 hrun
    exact .cons hnext (ih ⟨s₂, hrun, hs₂⟩)

end Yields

/-- Check that every step of a run meets `ok`. -/
def runMeets (next : σ → α → Option σ) (ok : σ → α → Bool) : σ → List α → Bool
  | _, [] => true
  | s, a :: as =>
    ok s a && match next s a with
      | some s' => runMeets next ok s' as
      | none => true

/-- A list of actions whose steps meet `ok` reaches its result. -/
theorem Reach.of_runActions {check : σ → α → Bool} (hcheck : ∀ s a, check s a = true → ok s a)
    (as : List α) (hs : Reach next ok s₀ s) {s' : σ} (hrun : runActions next s as = some s')
    (hmeets : runMeets next check s as = true) : Reach next ok s₀ s' := by
  induction as generalizing s with
  | nil =>
    cases hrun
    exact hs
  | cons a as ih =>
    rw [runActions] at hrun
    rw [runMeets, Bool.and_eq_true] at hmeets
    cases hnext : next s a with
    | none =>
      rw [hnext] at hrun
      cases hrun
    | some s'' =>
      rw [hnext] at hrun hmeets
      exact ih (.step hs (hcheck s a hmeets.1) hnext) hrun hmeets.2

/-- A list of actions reaches its result when nothing is asked of the steps. -/
theorem Reach.of_runActions_true (as : List α) {s' : σ}
    (hrun : runActions next s₀ as = some s') : Reach next (fun _ _ => True) s₀ s' := by
  have hcheck : ∀ s a, (fun _ _ => true : σ → α → Bool) s a = true → True := fun _ _ _ => trivial
  refine Reach.of_runActions hcheck as .init hrun ?_
  clear hrun
  induction as generalizing s₀ with
  | nil => rfl
  | cons a as ih =>
    rw [runMeets, Bool.true_and]
    split
    · exact ih
    · rfl

/-! ## Evaluation

A state that is made of functions is wrapped once more by every step of a run. To evaluate a long
run, the values at the arguments in use are written out after each step, so that each is found at
once. -/

/-- The function `f`, with its values on the list `l` at hand. -/
def tabulate {β γ : Type} [DecidableEq β] (l : List β) (f : β → γ) : β → γ := fun b =>
  match l.find? (fun c => decide (c = b)) with
  | some c => f c
  | none => f b

/-- Writing out some values of a function does not change it. -/
theorem tabulate_eq {β γ : Type} [DecidableEq β] (l : List β) (f : β → γ) : tabulate l f = f := by
  funext b
  unfold tabulate
  split
  · rename_i c hc
    have heq := List.find?_some hc
    rw [of_decide_eq_true heq]
  · rfl

/-- A system together with a specification that follows its actions. -/
def lockstep {τ : Type} (next : σ → α → Option σ) (follow : τ → α → τ) (x : σ × τ) (a : α) :
    Option (σ × τ) :=
  (next x.1 a).map fun s' => (s', follow x.2 a)

/-- An invariant of a system and its specification. -/
theorem Reach.lockstep_invariant {τ : Type} {follow : τ → α → τ} {ok : σ × τ → α → Prop}
    {P : σ → τ → Prop} {x₀ x : σ × τ} (h : Reach (lockstep next follow) ok x₀ x) (h₀ : P x₀.1 x₀.2)
    (hstep : ∀ s t a s', P s t → ok (s, t) a → next s a = some s' → P s' (follow t a)) :
    P x.1 x.2 := by
  refine Reach.invariant (P := fun x => P x.1 x.2) h h₀ fun x a x' hx hok hnext => ?_
  obtain ⟨s', hs', rfl⟩ := Option.map_eq_some_iff.1 hnext
  exact hstep x.1 x.2 a s' hx hok hs'

end Egos
