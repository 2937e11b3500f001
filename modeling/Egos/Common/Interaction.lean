import Mathlib.Tactic.Common

/-!
# Programs that interact with their environment

A program has ended with a value, has stopped with an error, or asks its environment for an
operation and goes on with the result. A `Protocol` is what is expected of a program from outside:
the operations it may ask for in a state of the conversation, and the states that the results it may
be given lead to. `Prog.Follows` checks a program against a protocol, one operation after the other,
and composes along `bind`. `Prog.Returns` says that a program comes to its end, if it is given
results of a certain kind.
-/

namespace Egos

/-- A program over operations `Op`, where operation `o` has a result in `Res o`. -/
inductive Prog {Op : Type} (Res : Op → Type) (ε α : Type)
  | ret (a : α)
  | stop (e : ε)
  | op (o : Op) (k : Res o → Prog Res ε α)

variable {Op : Type} {Res : Op → Type} {ε α β σ : Type}

namespace Prog

/-- Run `x`, then `f` on its value. -/
def bind : Prog Res ε α → (α → Prog Res ε β) → Prog Res ε β
  | ret a, f => f a
  | stop e, _ => stop e
  | op o k, f => op o fun r => bind (k r) f

instance : Monad (Prog Res ε) where
  pure := ret
  bind := bind

/-- Ask for an operation and return its result. -/
def call (o : Op) : Prog Res ε (Res o) := op o ret

end Prog

/-- What is expected of a program in each state of a conversation. -/
structure Protocol {Op : Type} (Res : Op → Type) (ε σ : Type) where
  /-- the operations that the program may ask for -/
  allows : σ → Op → Prop
  /-- the results that it may be given, and the state after each -/
  next : σ → (o : Op) → Res o → σ → Prop
  /-- the errors that it may stop with -/
  stops : σ → ε → Prop

namespace Prog

/-- From state `s` on, the program keeps to the protocol, and `Q` holds when it ends. -/
def Follows (P : Protocol Res ε σ) (Q : σ → α → Prop) : Prog Res ε α → σ → Prop
  | ret a, s => Q s a
  | stop e, s => P.stops s e
  | op o k, s => P.allows s o ∧ ∀ r s', P.next s o r s' → Follows P Q (k r) s'

variable {P : Protocol Res ε σ} {Q : σ → α → Prop} {R : σ → β → Prop} {s : σ}

/-- A program that has come to its end. -/
@[simp] theorem follows_pure {a : α} : (pure a : Prog Res ε α).Follows P Q s ↔ Q s a := Iff.rfl

/-- A program that has stopped. -/
@[simp] theorem follows_stop {e : ε} : (stop e : Prog Res ε α).Follows P Q s ↔ P.stops s e :=
  Iff.rfl

/-- A program, and then another. -/
theorem Follows.bind {x : Prog Res ε α} {f : α → Prog Res ε β} (hx : x.Follows P Q s)
    (hf : ∀ s a, Q s a → (f a).Follows P R s) : (x >>= f).Follows P R s := by
  induction x generalizing s with
  | ret a => exact hf s a hx
  | stop e => exact hx
  | op o k ih => exact ⟨hx.1, fun r s' hr => ih r (hx.2 r s' hr)⟩

/-- One operation, then the rest of the program. -/
theorem Follows.call {o : Op} {f : Res o → Prog Res ε β} (ho : P.allows s o)
    (hf : ∀ r s', P.next s o r s' → (f r).Follows P R s') :
    (Prog.call o >>= f).Follows P R s :=
  ⟨ho, hf⟩

/-- The program is always given a result that `grants` admits, and with such results it comes to its
end with `Q`. -/
def Returns (grants : (o : Op) → Res o → Prop) (Q : α → Prop) : Prog Res ε α → Prop
  | ret a => Q a
  | stop _ => False
  | op o k => (∃ r, grants o r) ∧ ∀ r, grants o r → Returns grants Q (k r)

variable {grants : (o : Op) → Res o → Prop} {S : α → Prop} {T : β → Prop}

/-- A program that returns, and then another. -/
theorem Returns.bind {x : Prog Res ε α} {f : α → Prog Res ε β} (hx : x.Returns grants S)
    (hf : ∀ a, S a → (f a).Returns grants T) : (x >>= f).Returns grants T := by
  induction x with
  | ret a => exact hf a hx
  | stop e => exact hx.elim
  | op o k ih => exact ⟨hx.1, fun r hr => ih r (hx.2 r hr)⟩

/-- One operation, then the rest of the program. -/
theorem Returns.call {o : Op} {f : Res o → Prog Res ε β} (ho : ∃ r, grants o r)
    (hf : ∀ r, grants o r → (f r).Returns grants T) :
    (Prog.call o >>= f).Returns grants T :=
  ⟨ho, hf⟩

end Prog

end Egos
