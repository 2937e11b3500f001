import Mathlib.Data.List.TakeWhile
import Mathlib.Logic.Function.Basic
import Mathlib.Tactic.Common

/-!
# Strings in buffers

A buffer is a function from indices to bytes. The string in a buffer of `size` bytes is what stands
before its first null.
-/

namespace Egos

/-- The string in a buffer of `size` bytes. -/
def bufString (size : ℕ) (buf : ℕ → UInt8) : List UInt8 :=
  ((List.range size).map buf).takeWhile (· ≠ 0)

/-- The buffer starts with the bytes `s`. -/
def Holds (buf : ℕ → UInt8) (s : List UInt8) : Prop := ∀ j (h : j < s.length), buf j = s[j]

/-- Write the string `s` and its null at `pos`, if there is room for it. -/
def putString (size : ℕ) (buf : ℕ → UInt8) (pos : ℕ) (s : List UInt8) : Option (ℕ → UInt8) :=
  if pos + s.length < size then
    some fun j => if pos ≤ j ∧ j ≤ pos + s.length then s.getD (j - pos) 0 else buf j
  else none

variable {size : ℕ} {buf : ℕ → UInt8} {s : List UInt8}

/-- Every buffer holds the empty string. -/
theorem holds_nil (buf : ℕ → UInt8) : Holds buf [] := fun _ h => absurd h (Nat.not_lt_zero _)

/-- A byte behind what the buffer holds does not matter. -/
theorem Holds.update_of_le (h : Holds buf s) {i : ℕ} (hi : s.length ≤ i) (c : UInt8) :
    Holds (Function.update buf i c) s := by
  intro j hj
  rw [Function.update_of_ne (by omega), h j hj]

/-- The last byte is left out. -/
theorem Holds.dropLast (h : Holds buf s) : Holds buf s.dropLast := by
  intro j hj
  rw [List.getElem_dropLast]
  exact h j _

/-- One more byte. -/
theorem Holds.append_byte (h : Holds buf s) (c : UInt8) :
    Holds (Function.update buf s.length c) (s ++ [c]) := by
  intro j hj
  rw [List.getElem_append]
  split
  next hlt => rw [Function.update_of_ne (by omega), h j hlt]
  next hge =>
    have hj' : j = s.length := by
      rw [List.length_append, List.length_singleton] at hj
      omega
    subst hj'
    simp

/-- What stands before the null of a text is the string. -/
theorem bufString_of_holds (h : Holds buf s) (hnull : buf s.length = 0) (hlt : s.length < size) :
    bufString size buf = s.takeWhile (· ≠ 0) := by
  obtain ⟨k, rfl⟩ : ∃ k, size = s.length + (k + 1) := ⟨size - s.length - 1, by omega⟩
  have hmap : (List.range s.length).map buf = s := by
    refine List.ext_getElem (by simp) fun j _ hj => ?_
    rw [List.getElem_map, List.getElem_range, h j hj]
  rw [bufString, List.range_add, List.map_append, hmap, List.range_succ_eq_map]
  simp only [List.map_cons, Nat.add_zero, hnull]
  rw [List.takeWhile_append]
  split
  next hall =>
    rw [List.takeWhile_cons_of_neg (by decide), List.append_nil,
      (List.takeWhile_prefix _).eq_of_length hall]
  next => rfl

/-- The buffer contains a string of which every byte is known. -/
structure HasString (size : ℕ) (buf : ℕ → UInt8) (s : List UInt8) : Prop where
  holds : Holds buf s
  null : buf s.length = 0
  no_null : 0 ∉ s
  length_lt : s.length < size

/-- The string in the buffer. -/
theorem HasString.bufString_eq (h : HasString size buf s) : bufString size buf = s := by
  rw [bufString_of_holds h.holds h.null h.length_lt, List.takeWhile_eq_self_iff]
  intro c hc
  simpa using fun h0 : c = 0 => h.no_null (h0 ▸ hc)

/-- A string written behind the bytes `s`. -/
theorem Holds.put {t : List UInt8} (h : Holds buf s) (hs : 0 ∉ s) (ht : 0 ∉ t)
    (hlen : (s ++ t).length < size) :
    ∃ buf', putString size buf s.length t = some buf' ∧ HasString size buf' (s ++ t) := by
  rw [List.length_append] at hlen
  refine ⟨_, if_pos hlen, ?_, ?_, by simp [hs, ht], by rwa [List.length_append]⟩
  · intro j hj
    rw [List.length_append] at hj
    by_cases hlt : j < s.length
    · rw [List.getElem_append_left hlt, ← h j hlt]
      exact if_neg (by omega)
    · have hget : t.getD (j - s.length) 0 = t[j - s.length] := by
        rw [List.getD_eq_getElem?_getD, List.getElem?_eq_getElem (by omega), Option.getD_some]
      rw [List.getElem_append_right (by omega), ← hget]
      exact if_pos ⟨by omega, by omega⟩
  · rw [List.length_append]
    simp

end Egos
