import Egos.Earth.Mmu
import Mathlib.Data.List.Nodup
import Mathlib.Data.List.FinRange

/-!
# The free frames

The frames not in use as a list: `mmu_alloc` takes its first element, and stops when it is empty.
With this list a run of the loader says not only that it takes frames, but which.
-/

namespace Egos.Earth

open Function (update update_self update_of_ne)

/-- The frames not in use, in the order in which `mmu_alloc` gives them out. -/
def Mmu.freeFrames (s : Mmu) : List (Fin nframes) :=
  (List.finRange nframes).filter fun i => !(s.table i).use

variable {s s' : Mmu} {i : Fin nframes} {rest : List (Fin nframes)}

/-- The free frames are those that are not in use. -/
theorem Mmu.mem_freeFrames : i ∈ s.freeFrames ↔ (s.table i).use = false := by
  simp [Mmu.freeFrames]

/-- Every free frame is listed once. -/
theorem Mmu.nodup_freeFrames (s : Mmu) : s.freeFrames.Nodup :=
  (List.nodup_finRange nframes).filter _

/-- The list depends on the frames in use only. -/
theorem Mmu.freeFrames_congr (h : ∀ i, (s'.table i).use = (s.table i).use) :
    s'.freeFrames = s.freeFrames := by
  simp only [Mmu.freeFrames, h]

/-- Taking the first free frame. -/
theorem Mmu.freeFrames_take (h : s.freeFrames = i :: rest) {e : FrameMapping} (he : e.use = true)
    (htable : s'.table = update s.table i e) : s'.freeFrames = rest := by
  have hnodup := s.nodup_freeFrames
  rw [h, List.nodup_cons] at hnodup
  have hfilter : s'.freeFrames = s.freeFrames.filter (· ≠ i) := by
    rw [Mmu.freeFrames, Mmu.freeFrames, List.filter_filter, htable]
    refine List.filter_congr fun j _ => ?_
    by_cases hj : j = i
    · subst hj
      simp [he]
    · simp [hj]
  rw [hfilter, h, List.filter_cons_of_neg (by simp)]
  exact List.filter_eq_self.2 fun j hj => by
    simpa using fun he : j = i => hnodup.1 (he ▸ hj)

/-- `mmu_alloc` gives the first free frame, or stops when there is none. -/
theorem mmuAlloc_first {Q : Fin nframes × ℕ → Mmu → Prop} {E : String → Mmu → Prop}
    (hQ : ∀ i rest, s.freeFrames = i :: rest →
      Q (i, pagingRead i) (s.setFrame i fun e => { e with use := true }))
    (hE : s.freeFrames = [] → E "mmu_alloc: no more available frames" s) :
    wp mmuAlloc Q E s := by
  have hhead : ((List.finRange nframes).find? fun i => !(s.table i).use) = s.freeFrames.head? :=
    List.head?_filter.symm
  unfold mmuAlloc
  rw [wp_bind, wp_get, hhead]
  cases hfree : s.freeFrames with
  | nil => exact hE hfree
  | cons i rest => exact hQ i rest hfree

end Egos.Earth
