import Mathlib.Tactic.Common

/-!
# Fields of a text

The fields of a list are its parts between separators, without the empty ones: leading, repeated and
trailing separators do not matter.
-/

namespace Egos

variable {α : Type} [DecidableEq α] {sep : α} {w : List α}

/-- The parts of a list between separators that are not empty. -/
def fields (sep : α) (l : List α) : List (List α) := (l.splitOn sep).filter (· ≠ [])

/-- The field that a part without separators gives. -/
def fieldOf (w : List α) : List (List α) := if w = [] then [] else [w]

/-- A part without separators. -/
theorem fields_part (hw : sep ∉ w) : fields sep w = fieldOf w := by
  rw [fields, List.splitOn_eq_singleton hw, fieldOf]
  by_cases h : w = [] <;> simp [h]

/-- A part, a separator and the rest. -/
theorem fields_part_sep (hw : sep ∉ w) (l : List α) :
    fields sep (w ++ sep :: l) = fieldOf w ++ fields sep l := by
  have hsplit : (w ++ sep :: l).splitOn sep = w :: l.splitOn sep := by
    refine List.splitOnP_append_cons_of_forall_mem (p := (· == sep)) ?_ sep (by simp) l
    intro c hc
    exact beq_eq_false_iff_ne.2 fun h => hw (h ▸ hc)
  rw [fields, hsplit, fieldOf]
  by_cases h : w = [] <;> simp [h, fields]

/-- A separator at the start. -/
theorem fields_sep (l : List α) : fields sep (sep :: l) = fields sep l :=
  fields_part_sep List.not_mem_nil l

/-- The first field contains what stands before any separator. -/
theorem exists_fields_cons (hw : sep ∉ w) (hne : w ≠ []) (l : List α) :
    ∃ v fs, fields sep (w ++ l) = (w ++ v) :: fs := by
  have hfield (v : List α) : fieldOf (w ++ v) = [w ++ v] :=
    if_neg (List.append_ne_nil_of_left_ne_nil hne v)
  by_cases hl : sep ∈ l
  · obtain ⟨v, l', rfl, hv⟩ := List.eq_append_cons_of_mem hl
    refine ⟨v, fields sep l', ?_⟩
    rw [← List.append_assoc, fields_part_sep (by simp [hw, hv]), hfield]
    rfl
  · refine ⟨l, [], ?_⟩
    rw [fields_part (by simp [hw, hl]), hfield]

/-- The first field starts with an element of the list. -/
theorem exists_fields_head {l : List α} (h : ∃ c ∈ l, c ≠ sep) :
    ∃ c v fs, c ∈ l ∧ fields sep l = (c :: v) :: fs := by
  induction l with
  | nil =>
    obtain ⟨c, hc, -⟩ := h
    exact absurd hc List.not_mem_nil
  | cons b l ih =>
    by_cases hb : b = sep
    · subst hb
      obtain ⟨c, hc, hne⟩ := h
      have hmem := (List.mem_cons.1 hc).resolve_left hne
      obtain ⟨c, v, fs, hmem, hfields⟩ := ih ⟨c, hmem, hne⟩
      exact ⟨c, v, fs, .tail _ hmem, by rw [fields_sep, hfields]⟩
    · obtain ⟨v, fs, hfields⟩ :=
        exists_fields_cons (w := [b]) (by simpa using Ne.symm hb) (by simp) l
      exact ⟨b, v, fs, List.mem_cons_self, hfields⟩

/-- A list without fields has separators only. -/
theorem fields_eq_nil_iff {l : List α} : fields sep l = [] ↔ ∀ c ∈ l, c = sep := by
  constructor
  · intro h
    by_contra! hne
    obtain ⟨c, v, fs, -, hfields⟩ := exists_fields_head hne
    rw [h] at hfields
    cases hfields
  · intro h
    induction l with
    | nil => rfl
    | cons c l ih =>
      obtain ⟨rfl, hrest⟩ := List.forall_mem_cons.1 h
      rw [fields_sep, ih hrest]

/-- Fields with a separator before each. -/
theorem fields_flatMap {ws : List (List α)} (hws : ∀ w ∈ ws, w ≠ [] ∧ sep ∉ w) :
    fields sep (ws.flatMap (sep :: ·)) = ws := by
  induction ws with
  | nil => rfl
  | cons w ws ih =>
    obtain ⟨⟨hne, hsep⟩, hws⟩ := List.forall_mem_cons.1 hws
    have hfield : fieldOf w = [w] := if_neg hne
    rw [List.flatMap_cons, List.cons_append, fields_sep]
    cases ws with
    | nil => rw [List.flatMap_nil, List.append_nil, fields_part hsep, hfield]
    | cons w' ws =>
      have hnext := ih hws
      rw [List.flatMap_cons, List.cons_append, fields_sep] at hnext
      rw [List.flatMap_cons, List.cons_append, fields_part_sep hsep, hnext, hfield]
      rfl

end Egos
