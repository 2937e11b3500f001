import Egos.Common.Lockstep
import Egos.Earth.PageTableOps

/-!
# Page tables of a new process

`page_table_map` for a process depends on memory, on which frames are in use and on the root of that
process, not on the pids in the frame table or the tables of other processes. So a process that has
no page tables yet can be treated as the only one: its run is in lockstep with one from a state in
which every frame in use is a data page, and there the invariant of page-table mode holds.
-/

namespace Egos.Earth

open Function (update update_self update_of_ne)

variable {s t : Mmu} {p : ℤ}

/-- Two states that are the same to `page_table_map` for process `p`. -/
structure SameFor (p : ℤ) (s t : Mmu) : Prop where
  mem : s.mem = t.mem
  use : ∀ i, (s.table i).use = (t.table i).use
  base : s.pidToPagetableBase p = t.pidToPagetableBase p
  pageTablePid : s.pageTablePid = t.pageTablePid

namespace SameFor

/-- The same frames are free. -/
theorem freeFrames (h : SameFor p s t) : s.freeFrames = t.freeFrames := Mmu.freeFrames_congr h.use

/-- A change of a frame-table entry that is the same for the two as far as `use` goes. -/
theorem setFrame (h : SameFor p s t) (i : Fin nframes) {f : FrameMapping → FrameMapping}
    (hf : ∀ e e', e.use = e'.use → (f e).use = (f e').use) :
    SameFor p (s.setFrame i f) (t.setFrame i f) where
  mem := h.mem
  use j := by
    by_cases hj : j = i
    · subst hj
      simpa only [Mmu.setFrame, update_self] using hf _ _ (h.use j)
    · simpa only [Mmu.setFrame, update_of_ne hj] using h.use j
  base := h.base
  pageTablePid := h.pageTablePid

/-- A change of memory. -/
theorem withMem (h : SameFor p s t) {m : Memory → Memory} :
    SameFor p { s with mem := m s.mem } { t with mem := m t.mem } :=
  ⟨congrArg m h.mem, h.use, h.base, h.pageTablePid⟩

end SameFor

/-! ## Lockstep -/

/-- `mmu_alloc` looks only at which frames are in use. -/
theorem lockstep_mmuAlloc : Lockstep (SameFor p) mmuAlloc := by
  refine Lockstep.get_bind (fun s t h => by simp only [h.use]) fun s => ?_
  split
  · exact Lockstep.bind (Lockstep.modify fun _ _ h => h.setFrame _ fun _ _ _ => rfl)
      fun _ => Lockstep.pure _
  · exact Lockstep.throw _

/-- A new page table gets the same frame in both. -/
theorem lockstep_allocPageTable : Lockstep (SameFor p) (allocPageTable p) :=
  Lockstep.bind lockstep_mmuAlloc fun x =>
    Lockstep.bind (Lockstep.modify fun _ _ h => h.setFrame _ fun _ _ he => he) fun _ =>
      Lockstep.bind (Lockstep.modify fun _ _ h =>
        h.withMem (m := fun mem => mem.memset x.2 0 pageSize)) fun _ => Lockstep.pure _

/-- The root is the same in both, and is allocated in both or in neither. -/
theorem lockstep_rootPageTable : Lockstep (SameFor p) (rootPageTable p) := by
  refine Lockstep.get_bind (fun s t h => by simp only [h.base]) fun s => ?_
  split
  · refine Lockstep.bind lockstep_allocPageTable fun root => ?_
    refine Lockstep.bind (Lockstep.modify fun s t h => ?_) fun _ => Lockstep.pure _
    exact ⟨h.mem, h.use, by simp only [update_self], h.pageTablePid⟩
  · exact Lockstep.pure _

/-- The next page table is the same in both. -/
theorem lockstep_nextPageTable (addr : ℕ) : Lockstep (SameFor p) (nextPageTable p addr) := by
  refine Lockstep.get_bind (fun s t h => by simp only [h.mem]) fun s => ?_
  split
  · exact Lockstep.pure _
  · refine Lockstep.bind lockstep_allocPageTable fun pt => ?_
    exact Lockstep.bind (Lockstep.modify fun _ _ h =>
      h.withMem (m := fun mem => mem.writeLE addr 8 _)) fun _ => Lockstep.pure _

/-- The walk goes through the same page tables. -/
theorem lockstep_walkPageTables (addr : ℕ) : Lockstep (SameFor p) (walkPageTables p addr) := by
  unfold walkPageTables
  split
  · exact Lockstep.throw _
  · exact Lockstep.bind lockstep_rootPageTable fun _ =>
      Lockstep.bind (lockstep_nextPageTable _) fun _ => lockstep_nextPageTable _

/-- The leaf entries of an identity mapping, by induction on how many are left. -/
theorem lockstep_identityEntries (leafPt vpn0 addr flag : ℕ) : ∀ n i : ℕ,
    Lockstep (SameFor p) (identityEntries leafPt vpn0 addr flag n i)
  | 0, _ => Lockstep.pure _
  | n + 1, i => by
    unfold identityEntries
    split
    · exact Lockstep.throw _
    · exact Lockstep.bind (Lockstep.modify fun _ _ h =>
        h.withMem (m := fun mem => mem.writeLE _ 8 _)) fun _ =>
          lockstep_identityEntries leafPt vpn0 addr flag n (i + 1)

/-- The identity mappings of all regions. -/
theorem lockstep_setupRegions (regions : List (ℕ × ℕ)) :
    Lockstep (SameFor p) (setupRegions p regions) := by
  induction regions with
  | nil => exact Lockstep.pure _
  | cons r regions ih =>
    have hregion : Lockstep (SameFor p) (setupIdentityRegion p r.1 r.2 osXwrv) :=
      Lockstep.bind (lockstep_walkPageTables _) fun _ => lockstep_identityEntries _ _ _ _ _ _
    exact Lockstep.bind hregion fun _ => ih

/-- `page_table_map` for `p` does the same in both. -/
theorem lockstep_pageTableMap (pageNo : ℕ) (f : Fin nframes) :
    Lockstep (SameFor p) (pageTableMap p pageNo f) := by
  have hensure : Lockstep (SameFor p) (ensureIdentityMapping p) := by
    refine Lockstep.get_bind (fun s t h => by simp only [h.base]) fun s => ?_
    rw [pagetableIdentityMapping_eq]
    split
    · exact lockstep_setupRegions _
    · exact Lockstep.pure _
  unfold pageTableMap
  split
  · exact Lockstep.throw _
  · exact Lockstep.bind hensure fun _ =>
      Lockstep.bind (lockstep_walkPageTables _) fun _ =>
        Lockstep.modify fun _ _ h => h.withMem (m := fun mem => mem.writeLE _ 8 _)

/-! ## The only process -/

/-- The state with every frame in use taken for a data page. -/
def Mmu.bare (s : Mmu) : Mmu :=
  { s with
    table := fun i => ⟨(s.table i).use, 0, 0⟩
    pidToPagetableBase := fun _ => 0 }

/-- No process has page tables. -/
def Ghost.bare (s : Mmu) : Ghost where
  kind i := if (s.table i).use then .data else .free
  maps _ _ := none
  dead _ := False

/-- A process without page tables is alone in the bare state. -/
theorem sameFor_bare (hp : s.pidToPagetableBase p = 0) : SameFor p s s.bare :=
  ⟨rfl, fun _ => rfl, hp, rfl⟩

/-- In the bare state no frame is a page table. -/
theorem Ghost.bare_ne_table (s : Mmu) (i : Fin nframes) (q : ℤ) (n : Node) :
    (Ghost.bare s).kind i ≠ .table q n := by
  unfold Ghost.bare
  dsimp only
  split <;> simp

/-- The bare state has the invariant of page-table mode. -/
theorem pageTables_bare (s : Mmu) : PageTables (Ghost.bare s) s.bare := by
  have hno := Ghost.bare_ne_table s
  refine ⟨fun i => ?_, fun i _ p n hi => absurd hi (hno i p n), fun i p hi => absurd hi (hno i p _),
    fun _ _ hb => absurd rfl hb, fun i p c _ _ hi => absurd hi (hno i p c),
    fun i p n _ hi => absurd hi (hno i p n), fun _ _ hm => absurd rfl hm,
    fun _ _ _ _ hm => by cases hm⟩
  simp only [Ghost.bare, Mmu.bare]
  cases (s.table i).use
  · rfl
  · exact ⟨rfl, rfl⟩

/-- In the bare state no process has page tables. -/
theorem tablesOf_bare (s : Mmu) (p : ℤ) : tablesOf (Ghost.bare s).kind p = ∅ :=
  Set.eq_empty_of_forall_notMem fun _ ⟨i, hi⟩ => Ghost.bare_ne_table s i p _ hi

end Egos.Earth
