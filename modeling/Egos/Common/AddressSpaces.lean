import Mathlib.Logic.Function.Basic
import Egos.Common.Memory
import Egos.Common.Reach

/-!
# Memory systems with address spaces

A memory system lets one process at a time see its memory: `switch` decides whose it is, and `load`
and `store` go to the address space that is visible. How the bytes of the other processes are kept
is up to the system. `PrivateMemories` says that it keeps them well: there is a view of the memory
of every process that a switch leaves as it is, that a store changes in one byte of one process, and
that a load reads from. Code that runs on such a system can then be understood on the views.
-/

namespace Egos

open Function (update update_self update_of_ne)

/-- A memory system with processes `P`. What is done to build up the address space of a process is
an operation `Op`. -/
structure AddressSpaces (σ P Op : Type) where
  /-- the process whose memory is visible -/
  curr : σ → P
  switch : P → σ → σ
  load : σ → Memory
  store : σ → ℕ → UInt8 → σ
  /-- the memory of a process is taken back -/
  free : P → σ → σ
  owner : Op → P
  perform : σ → Op → Option σ

namespace AddressSpaces

variable {σ P Op : Type} (A : AddressSpaces σ P Op)

/-- Store `n` bytes from address `a` on. -/
def storeBytes (s : σ) (a : ℕ) : ℕ → (ℕ → UInt8) → σ
  | 0, _ => s
  | n + 1, f => A.store (storeBytes s a n f) (a + n) (f n)

end AddressSpaces

/-- Every process has a memory of its own: `view s p` is what process `p` has at the addresses that
it maps. An address space is built up while its process is not visible. -/
structure PrivateMemories {σ P Op : Type} [DecidableEq P] (A : AddressSpaces σ P Op) where
  Inv : σ → Prop
  Ok : σ → Op → Prop
  Freeable : P → Prop
  Maps : σ → P → ℕ → Prop
  view : σ → P → Memory
  inv_switch : ∀ {s p}, Inv s → Inv (A.switch p s)
  curr_switch : ∀ {s p}, Inv s → A.curr (A.switch p s) = p
  maps_switch : ∀ {s p}, Inv s → Maps (A.switch p s) = Maps s
  view_switch : ∀ {s p}, Inv s → view (A.switch p s) = view s
  load_eq : ∀ {s a}, Inv s → Maps s (A.curr s) a → A.load s a = view s (A.curr s) a
  inv_store : ∀ {s a b}, Inv s → Maps s (A.curr s) a → Inv (A.store s a b)
  curr_store : ∀ {s a b}, Inv s → Maps s (A.curr s) a → A.curr (A.store s a b) = A.curr s
  maps_store : ∀ {s a b}, Inv s → Maps s (A.curr s) a → Maps (A.store s a b) = Maps s
  view_store : ∀ {s a b}, Inv s → Maps s (A.curr s) a →
    view (A.store s a b) = update (view s) (A.curr s) (update (view s (A.curr s)) a b)
  inv_free : ∀ {s p}, Inv s → Freeable p → Inv (A.free p s)
  curr_free : ∀ {s p}, Inv s → Freeable p → A.curr (A.free p s) = A.curr s
  maps_free : ∀ {s p q a}, Inv s → Freeable p → q ≠ p → Maps s q a → Maps (A.free p s) q a
  view_free : ∀ {s p q}, Inv s → Freeable p → q ≠ p → view (A.free p s) q = view s q
  store_free : ∀ {s p a b}, A.store (A.free p s) a b = A.free p (A.store s a b)
  inv_perform : ∀ {s s' op}, Inv s → Ok s op → A.owner op ≠ A.curr s →
    A.perform s op = some s' → Inv s'
  curr_perform : ∀ {s s' op}, Inv s → Ok s op → A.owner op ≠ A.curr s →
    A.perform s op = some s' → A.curr s' = A.curr s
  maps_perform : ∀ {s s' op q a}, Inv s → Ok s op → A.owner op ≠ A.curr s →
    A.perform s op = some s' → q ≠ A.owner op → Maps s q a → Maps s' q a
  view_perform : ∀ {s s' op q}, Inv s → Ok s op → A.owner op ≠ A.curr s →
    A.perform s op = some s' → q ≠ A.owner op → view s' q = view s q

namespace PrivateMemories

variable {σ P Op : Type} [DecidableEq P] {A : AddressSpaces σ P Op} (M : PrivateMemories A)
  {s : σ} {a n : ℕ}

/-- What storing `n` bytes does: the process that is visible has them, and nothing else changes. -/
structure Stored (s : σ) (a n : ℕ) (f : ℕ → UInt8) (s' : σ) : Prop where
  inv : M.Inv s'
  curr : A.curr s' = A.curr s
  maps : M.Maps s' = M.Maps s
  view : M.view s' = update (M.view s) (A.curr s) ((M.view s (A.curr s)).blit a n f)

/-- Stores of several bytes, by induction on how many. -/
theorem stored (f : ℕ → UInt8) (hs : M.Inv s) : ∀ {n : ℕ},
    (∀ j, j < n → M.Maps s (A.curr s) (a + j)) → M.Stored s a n f (A.storeBytes s a n f)
  | 0, _ => by
    refine ⟨hs, rfl, rfl, ?_⟩
    rw [Memory.blit_zero, Function.update_eq_self]
    rfl
  | n + 1, hmaps => by
    have ih : M.Stored s a n f (A.storeBytes s a n f) :=
      stored f hs fun j hj => hmaps j (by omega)
    have hmap : M.Maps (A.storeBytes s a n f) (A.curr (A.storeBytes s a n f)) (a + n) := by
      rw [ih.maps, ih.curr]
      exact hmaps n (by omega)
    refine ⟨M.inv_store ih.inv hmap, (M.curr_store ih.inv hmap).trans ih.curr,
      (M.maps_store ih.inv hmap).trans ih.maps, ?_⟩
    rw [AddressSpaces.storeBytes, M.view_store ih.inv hmap, ih.view, ih.curr, update_self,
      Function.update_idem, Memory.blit_succ]

include M in
/-- Stores come to the same before and after memory is taken back. -/
theorem storeBytes_free (s : σ) (p : P) (a n : ℕ) (f : ℕ → UInt8) :
    A.storeBytes (A.free p s) a n f = A.free p (A.storeBytes s a n f) := by
  induction n with
  | zero => rfl
  | succ n ih => rw [AddressSpaces.storeBytes, ih, M.store_free, AddressSpaces.storeBytes]

/-- The memory that is visible is that of the current process. -/
theorem load_view (hs : M.Inv s) (hmaps : ∀ j, j < n → M.Maps s (A.curr s) (a + j)) {x : ℕ}
    (hx : a ≤ x) (hx' : x < a + n) : A.load s x = M.view s (A.curr s) x := by
  refine M.load_eq hs ?_
  have := hmaps (x - a) (by omega)
  rwa [Nat.add_sub_cancel' hx] at this

/-! ### Building up an address space -/

/-- An operation that builds up the memory of process `p`. -/
def Builds (p : P) (s : σ) (op : Op) : Prop := M.Ok s op ∧ A.owner op = p

/-- What holds while the memory of a process is built up that is not visible: nothing changes for
the others. -/
structure Built (p : P) (s s' : σ) : Prop where
  inv : M.Inv s'
  curr : A.curr s' = A.curr s
  maps : ∀ {q a}, q ≠ p → M.Maps s q a → M.Maps s' q a
  view : ∀ {q}, q ≠ p → M.view s' q = M.view s q

/-- A run of operations for one process, by induction on the run. -/
theorem built_of_reach {p : P} {s' : σ} (hs : M.Inv s) (hp : p ≠ A.curr s)
    (h : Reach A.perform (M.Builds p) s s') : M.Built p s s' := by
  apply h.invariant
  · exact ⟨hs, rfl, fun _ hmaps => hmaps, fun _ => rfl⟩
  · rintro s₁ op s₂ h₁ ⟨hok, rfl⟩ hstep
    have hcurr : A.owner op ≠ A.curr s₁ := h₁.curr ▸ hp
    exact ⟨M.inv_perform h₁.inv hok hcurr hstep,
      (M.curr_perform h₁.inv hok hcurr hstep).trans h₁.curr,
      fun hq hmaps => M.maps_perform h₁.inv hok hcurr hstep hq (h₁.maps hq hmaps),
      fun hq => (M.view_perform h₁.inv hok hcurr hstep hq).trans (h₁.view hq)⟩

end PrivateMemories

end Egos
