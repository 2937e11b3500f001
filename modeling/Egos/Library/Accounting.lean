import Egos.Common.Reach
import Egos.Library.Elf

/-!
# Frames of processes

Runs of program loads and frees. The frames that are allocated on behalf of a process are those that
`mmu_alloc` has returned while its program was loaded: for each page that is mapped, and for each
page table (`Takes`). The loader does nothing else to the frame table. With the software TLB the pid
of every frame is recorded, so that `mmu_free` finds all of them; with page tables this is done for
the page tables only.
-/

namespace Egos.Library

open Egos.Earth
open Function (update update_self update_of_ne)

variable {t : Translation} {pid : ℤ} {s s' : Mmu}

/-! ## What loading a program does to the frame table -/

/-- Frames in use stay as they are, and frames that are newly in use belong to `pid`, but for those
whose pid page-table mode leaves as it was. -/
def Allocates (t : Translation) (pid : ℤ) (s s' : Mmu) : Prop :=
  ∀ i, s'.table i = s.table i ∨
    ((s.table i).use = false ∧ (s'.table i).use = true ∧
      ((s'.table i).pid = pid ∨ (t = .pageTable ∧ (s'.table i).pid = (s.table i).pid)))

namespace Allocates

/-- Nothing is allocated when nothing is done. -/
theorem refl (s : Mmu) : Allocates t pid s s := fun _ => Or.inl rfl

/-- Allocations for one process, one after the other. -/
theorem trans {s₁ s₂ s₃ : Mmu} (h : Allocates t pid s₁ s₂) (h' : Allocates t pid s₂ s₃) :
    Allocates t pid s₁ s₃ := by
  intro i
  rcases h i with he | ⟨hu, hu', hp⟩ <;> rcases h' i with he' | ⟨hv, hv', hp'⟩
  · exact Or.inl (he'.trans he)
  · rw [he] at hv hp'
    exact Or.inr ⟨hv, hv', hp'⟩
  · rw [← he'] at hu' hp
    exact Or.inr ⟨hu, hu', hp⟩
  · rw [hu'] at hv
    cases hv

/-- Code that does not touch the frame table. -/
theorem of_table (h : s'.table = s.table) : Allocates t pid s s' :=
  fun i => Or.inl (congrFun h i)

/-- One new frame. -/
theorem single {i : Fin nframes} {e : FrameMapping} (hi : (s.table i).use = false)
    (htable : s'.table = update s.table i e) (hu : e.use = true)
    (hp : e.pid = pid ∨ (t = .pageTable ∧ e.pid = (s.table i).pid)) : Allocates t pid s s' := by
  intro j
  rw [htable]
  by_cases hj : j = i
  · subst hj
    rw [update_self]
    exact Or.inr ⟨hi, hu, hp⟩
  · exact Or.inl (update_of_ne hj _ _)

end Allocates

/-- From one state to another by what the loader does for `pid`, where `mmu_alloc` has returned the
frames in the list. -/
inductive Takes (t : Translation) (pid : ℤ) : Mmu → List (Fin nframes) → Mmu → Prop
  /-- Something that is not about frames. -/
  | other {s s' : Mmu} : s'.table = s.table → Takes t pid s [] s'
  /-- A page, with the software TLB. -/
  | softPage {s s₁ : Mmu} {i : Fin nframes} {base : ℕ} (pageNo : ℕ) : t = .softTlb →
      mmuAlloc s = .ok (i, base) s₁ → Takes t pid s [i] (softTlbMap pid pageNo i s₁)
  /-- A page, with page tables; `page_table_map` may need some more of them. -/
  | page {s s₁ s₂ : Mmu} {i : Fin nframes} {base pageNo : ℕ} {tables : List (Fin nframes)} :
      t = .pageTable → mmuAlloc s = .ok (i, base) s₁ → pageTableMap pid pageNo i s₁ = .ok () s₂ →
      Takes t pid s₁ tables s₂ → Takes t pid s (i :: tables) s₂
  /-- A page table. -/
  | table {s s' : Mmu} {i : Fin nframes} : t = .pageTable →
      allocPageTable pid s = .ok (pagingRead i) s' → Takes t pid s [i] s'
  /-- One after the other. -/
  | append {s₁ s₂ s₃ : Mmu} {frames frames' : List (Fin nframes)} : Takes t pid s₁ frames s₂ →
      Takes t pid s₂ frames' s₃ → Takes t pid s₁ (frames ++ frames') s₃

/-- The frames in a list are those that are newly in use. -/
structure Took (t : Translation) (pid : ℤ) (s : Mmu) (frames : List (Fin nframes)) (s' : Mmu) :
    Prop where
  allocates : Allocates t pid s s'
  mem_iff : ∀ i, i ∈ frames ↔ (s.table i).use = false ∧ (s'.table i).use = true

namespace Took

/-- No frame is taken if the frame table is as it was. -/
theorem of_table (h : s'.table = s.table) : Took t pid s [] s' := by
  refine ⟨.of_table h, fun i => ?_⟩
  rw [h]
  simp

/-- One new frame. -/
theorem single {i : Fin nframes} {e : FrameMapping} (hi : (s.table i).use = false)
    (htable : s'.table = update s.table i e) (hu : e.use = true)
    (hp : e.pid = pid ∨ (t = .pageTable ∧ e.pid = (s.table i).pid)) : Took t pid s [i] s' := by
  refine ⟨.single hi htable hu hp, fun j => ?_⟩
  rw [htable, List.mem_singleton]
  by_cases hj : j = i
  · subst hj
    simp [hi, hu]
  · rw [update_of_ne hj]
    simp [hj]

/-- The frames taken by one and then another. -/
theorem trans {s₁ s₂ s₃ : Mmu} {frames frames' : List (Fin nframes)}
    (h : Took t pid s₁ frames s₂) (h' : Took t pid s₂ frames' s₃) :
    Took t pid s₁ (frames ++ frames') s₃ := by
  refine ⟨h.allocates.trans h'.allocates, fun i => ?_⟩
  rw [List.mem_append, h.mem_iff, h'.mem_iff]
  -- a frame that is in use stays so
  rcases h.allocates i with he | ⟨hu, hu', -⟩ <;> rcases h'.allocates i with he' | ⟨hv, hv', -⟩
  · simp [he, he']
  · simp [← he, hv, hv']
  · simp [he', hu, hu']
  · rw [hu'] at hv
    cases hv

end Took

/-- What `mmu_alloc` does. -/
theorem mmuAlloc_ok {i : Fin nframes} {base : ℕ} (h : mmuAlloc s = .ok (i, base) s') :
    (s.table i).use = false ∧ s' = s.setFrame i fun e => { e with use := true } := by
  have hspec : wp mmuAlloc (fun r s' => (s.table r.1).use = false ∧
      s' = s.setFrame r.1 fun e => { e with use := true }) (fun _ _ => True) s :=
    mmuAlloc_spec (fun i hi => ⟨hi, rfl⟩) fun _ => trivial
  rw [wp, h] at hspec
  exact hspec

/-- What the allocation of a page table does to the frame table. -/
theorem allocPageTable_spec (pid : ℤ) (s : Mmu) :
    wp (allocPageTable pid) (fun pt s' => ∃ i, pt = pagingRead i ∧ (s.table i).use = false ∧
      s'.table = update s.table i { s.table i with use := true, pid := pid })
      (fun _ _ => True) s := by
  unfold allocPageTable
  rw [wp_bind]
  refine mmuAlloc_spec (fun i hi => ?_) fun _ => trivial
  simp only [wp_bind, wp_modify, wp_pure, Mmu.setFrame, update_self, Function.update_idem]
  exact ⟨i, rfl, hi, rfl⟩

/-- Frames are at different addresses. -/
theorem pagingRead_injective : Function.Injective pagingRead := by
  intro i j h
  by_contra hij
  have := pagingRead_disjoint hij
  omega

/-- The frames that are taken are those that are newly in use, and belong to `pid` as far as this is
recorded. -/
theorem Takes.took {frames : List (Fin nframes)} (h : Takes t pid s frames s') :
    Took t pid s frames s' := by
  induction h with
  | other h => exact .of_table h
  | @softPage s s₁ i base pageNo ht halloc =>
    obtain ⟨hi, rfl⟩ := mmuAlloc_ok halloc
    have htable : (softTlbMap pid pageNo i (s.setFrame i fun e => { e with use := true })).table
        = update s.table i ⟨true, pid, pageNo⟩ := by
      simp only [softTlbMap, Mmu.setFrame, Function.update_idem, update_self]
    exact .single hi htable rfl (Or.inl rfl)
  | @page s _ _ i _ _ _ ht halloc _ _ ih =>
    obtain ⟨hi, rfl⟩ := mmuAlloc_ok halloc
    have htable : (s.setFrame i fun e => { e with use := true }).table
        = update s.table i { s.table i with use := true } := rfl
    exact Took.trans (.single hi htable rfl (Or.inr ⟨ht, rfl⟩)) ih
  | table _ halloc =>
    obtain ⟨j, hij, hj, htable⟩ := wp_ok (allocPageTable_spec _ _) halloc
    obtain rfl := pagingRead_injective hij
    exact .single hj htable rfl (Or.inl rfl)
  | append _ _ ih ih' => exact ih.trans ih'

/-- Some frames are taken. -/
def TakesSome (t : Translation) (pid : ℤ) (s s' : Mmu) : Prop := ∃ frames, Takes t pid s frames s'

instance : IsPreorder Mmu (TakesSome t pid) where
  refl _ := ⟨[], .other rfl⟩
  trans _ _ _ := fun ⟨_, h⟩ ⟨_, h'⟩ => ⟨_, h.append h'⟩

/-- What is not about frames takes none. -/
theorem TakesSome.of_table (h : s'.table = s.table) : TakesSome t pid s s' := ⟨[], .other h⟩

/-- The frames that are taken are allocated for the process. -/
theorem TakesSome.allocates (h : TakesSome t pid s s') : Allocates t pid s s' :=
  h.elim fun _ h => h.took.allocates

/-! ## Page tables -/

/-- A page table takes one frame, with the pid of its process. -/
theorem moves_allocPageTable : Moves (TakesSome .pageTable pid) (allocPageTable pid) := by
  refine ⟨fun s => ?_⟩
  cases hrun : allocPageTable pid s with
  | ok pt s' =>
    obtain ⟨i, rfl, -⟩ := wp_ok (allocPageTable_spec pid s) hrun
    rw [wp, hrun]
    exact ⟨[i], .table rfl hrun⟩
  | error e s' =>
    rw [wp, hrun]
    trivial

/-- The root takes a frame if there is none yet. -/
theorem moves_rootPageTable : Moves (TakesSome .pageTable pid) (rootPageTable pid) := by
  refine Moves.get_bind fun s => ?_
  split
  · refine Moves.wp ?_ s
    exact Moves.bind moves_allocPageTable fun _ =>
      Moves.bind (Moves.modify fun _ => .of_table rfl) fun _ => Moves.pure _
  · exact refl_of (TakesSome _ _) s

/-- So does the table below an entry. -/
theorem moves_nextPageTable (addr : ℕ) :
    Moves (TakesSome .pageTable pid) (nextPageTable pid addr) := by
  refine Moves.get_bind fun s => ?_
  split
  · exact refl_of (TakesSome _ _) s
  · refine Moves.wp ?_ s
    exact Moves.bind moves_allocPageTable fun _ =>
      Moves.bind (Moves.modify fun _ => .of_table rfl) fun _ => Moves.pure _

/-- A walk takes the frames of the tables that are missing. -/
theorem moves_walkPageTables (addr : ℕ) :
    Moves (TakesSome .pageTable pid) (walkPageTables pid addr) := by
  unfold walkPageTables
  split
  · exact Moves.throw _
  · exact Moves.bind moves_rootPageTable fun _ =>
      Moves.bind (moves_nextPageTable _) fun _ => moves_nextPageTable _

/-- The leaf entries of an identity mapping take no frame. -/
theorem moves_identityEntries (leafPt vpn0 addr flag : ℕ) : ∀ n i : ℕ,
    Moves (TakesSome .pageTable pid) (identityEntries leafPt vpn0 addr flag n i)
  | 0, _ => Moves.pure _
  | n + 1, i => by
    unfold identityEntries
    split
    · exact Moves.throw _
    · exact Moves.bind (Moves.modify fun _ => .of_table rfl) fun _ =>
        moves_identityEntries leafPt vpn0 addr flag n (i + 1)

/-- An identity mapping takes the frames of its page tables. -/
theorem moves_setupIdentityRegion (addr npages flag : ℕ) :
    Moves (TakesSome .pageTable pid) (setupIdentityRegion pid addr npages flag) :=
  Moves.bind (moves_walkPageTables addr) fun _ => moves_identityEntries ..

/-- So does the identity mapping of all regions. -/
theorem moves_pagetableIdentityMapping :
    Moves (TakesSome .pageTable pid) (pagetableIdentityMapping pid) := by
  have hregion : ∀ addr npages flag, Moves (TakesSome .pageTable pid)
      (setupIdentityRegion pid addr npages flag) := moves_setupIdentityRegion
  unfold pagetableIdentityMapping
  refine Moves.bind (hregion ..) fun _ => ?_
  refine Moves.bind (hregion ..) fun _ => ?_
  split
  · exact hregion ..
  refine Moves.bind (hregion ..) fun _ => ?_
  refine Moves.bind (hregion ..) fun _ => ?_
  refine Moves.bind (hregion ..) fun _ => ?_
  refine Moves.bind (hregion ..) fun _ => ?_
  split
  · exact hregion ..
  · exact Moves.pure _

/-- `page_table_map` takes the frames of the page tables that are missing. -/
theorem moves_pageTableMap (pageNo : ℕ) (i : Fin nframes) :
    Moves (TakesSome .pageTable pid) (pageTableMap pid pageNo i) := by
  have hensure : Moves (TakesSome .pageTable pid) (ensureIdentityMapping pid) := by
    refine Moves.get_bind fun s => ?_
    split
    · exact moves_pagetableIdentityMapping.wp s
    · exact refl_of (TakesSome _ _) s
  unfold pageTableMap
  split
  · exact Moves.throw _
  · exact Moves.bind hensure fun _ =>
      Moves.bind (moves_walkPageTables _) fun _ =>
        Moves.modify fun _ => .of_table rfl

/-! ## The loader -/

/-- A page that is mapped has a new frame. -/
theorem moves_mapNext (pageNo : ℕ) : Moves (TakesSome t pid) (mapNext t pid pageNo) := by
  refine ⟨fun s => ?_⟩
  unfold mapNext
  rw [wp_bind]
  cases halloc : mmuAlloc s with
  | error e s' =>
    rw [wp, halloc]
    trivial
  | ok r s₁ =>
    rw [wp, halloc]
    dsimp only
    cases t with
    | softTlb => exact ⟨[r.1], .softPage pageNo rfl halloc⟩
    | pageTable =>
      rw [wp_bind]
      cases hmap : pageTableMap pid pageNo r.1 s₁ with
      | error e s' =>
        rw [mmuMap, wp, hmap]
        trivial
      | ok _ s₂ =>
        obtain ⟨tables, htables⟩ := (moves_pageTableMap pageNo r.1).ok hmap
        rw [mmuMap, wp, hmap]
        exact ⟨r.1 :: tables, .page rfl halloc hmap htables⟩

section loader

variable (reader : Reader) (argc : ℕ) (argv : Option (ℕ → UInt8))

/-- The blocks of the kernel go to memory and take no frame. -/
theorem moves_loadGrassBlocks : ∀ n blockOffset off : ℕ,
    Moves (TakesSome t pid) (loadGrassBlocks reader n blockOffset off)
  | 0, _, _ => Moves.pure _
  | n + 1, blockOffset, off =>
    Moves.bind (Moves.modify fun _ => .of_table rfl) fun _ =>
      moves_loadGrassBlocks n (blockOffset + 1) (off + blockSize)

/-- The blocks of a segment take a frame for every page. -/
theorem moves_loadAppBlocks : ∀ n blockOffset off codeStart base : ℕ,
    Moves (TakesSome t pid) (loadAppBlocks t pid reader n blockOffset off codeStart base)
  | 0, _, _, _, _ => Moves.pure _
  | n + 1, blockOffset, off, codeStart, base => by
    have hpage : Moves (TakesSome t pid) (loadAppPage t pid off codeStart base) := by
      unfold loadAppPage
      split
      · exact Moves.bind (moves_mapNext _) fun _ => Moves.pure _
      · exact Moves.pure _
    exact Moves.bind hpage fun x =>
      Moves.bind (Moves.modify fun _ => .of_table rfl) fun _ =>
        moves_loadAppBlocks n (blockOffset + 1) (off + blockSize) x.1 x.2

/-- So do the pages of zeros behind the segment. -/
theorem moves_loadAppZeros : ∀ n codeStart : ℕ,
    Moves (TakesSome t pid) (loadAppZeros t pid n codeStart)
  | 0, _ => Moves.pure _
  | n + 1, codeStart =>
    Moves.bind (moves_mapNext codeStart) fun _ =>
      Moves.bind (Moves.modify fun _ => .of_table rfl) fun _ =>
        moves_loadAppZeros n (codeStart + 1)

/-- The pointers to the arguments take no frame. -/
theorem moves_loadAppArgv (argvAddr : ℕ) : ∀ n i : ℕ,
    Moves (TakesSome t pid) (loadAppArgv argvAddr n i)
  | 0, _ => Moves.pure _
  | n + 1, i =>
    Moves.bind (Moves.modify fun _ => .of_table rfl) fun _ =>
      moves_loadAppArgv argvAddr n (i + 1)

/-- `load_app` takes frames for its process only. -/
theorem moves_loadApp (ph : ProgramHeader) :
    Moves (TakesSome t pid) (loadApp t pid reader argc argv ph) := by
  unfold loadApp
  refine Moves.bind (moves_loadAppBlocks ..) fun x => ?_
  refine Moves.bind (Moves.modify fun s => ?_) fun _ => ?_
  · split <;> exact .of_table rfl
  refine Moves.bind (moves_loadAppZeros ..) fun _ => ?_
  refine Moves.bind (moves_mapNext _) fun base => ?_
  refine Moves.bind (Moves.modify fun _ => .of_table rfl) fun _ => ?_
  refine Moves.bind (Moves.modify fun s => ?_) fun _ => ?_
  · split <;> exact .of_table rfl
  refine Moves.bind (moves_loadAppArgv ..) fun _ => ?_
  exact Moves.bind (moves_mapNext _) fun _ => Moves.pure _

/-- `elf_load` takes frames for its process only. -/
theorem moves_elfLoad : Moves (TakesSome t pid) (elfLoad t pid reader argc argv) := by
  have hsegment : ∀ buf i, Moves (TakesSome t pid)
      (elfLoadSegment t pid reader argc argv buf i) := by
    intro buf i
    unfold elfLoadSegment
    split_ifs
    · exact Moves.pure _
    · exact Moves.bind (moves_loadGrassBlocks ..) fun _ =>
        Moves.modify fun _ => .of_table rfl
    · exact moves_loadApp ..
    · exact Moves.throw _
  have hsegments : ∀ buf n i, Moves (TakesSome t pid)
      (elfLoadSegments t pid reader argc argv buf n i) := by
    intro buf n
    induction n with
    | zero => exact fun _ => Moves.pure _
    | succ n ih => exact fun i => Moves.bind (hsegment buf i) fun _ => ih (i + 1)
  exact hsegments ..

end loader

/-! ## Runs -/

/-- A program is loaded for a process, in which `mmu_alloc` returns `frames`, or a process is
freed. -/
inductive FrameOp
  | load (pid : ℤ) (reader : Reader) (argc : ℕ) (argv : Option (ℕ → UInt8))
      (frames : List (Fin nframes))
  | free (pid : ℤ)

/-- The state of the MMU with the frames that were allocated on behalf of each process, and the
processes that have been loaded and those of them that have not been freed. The kernel is process
0. -/
structure FrameRun where
  mmu : Mmu
  allocated : ℤ → Fin nframes → Bool
  loaded : ℤ → Bool
  live : ℤ → Bool

/-- The state after `mmu_init`, in which `mmu_alloc` has returned `tables` for the kernel. -/
def FrameRun.init (s : Mmu) (tables : List (Fin nframes)) : FrameRun where
  mmu := s
  allocated p i := p == 0 && decide (i ∈ tables)
  loaded p := p == 0
  live p := p == 0

/-- The operations on the code. The frames that `mmu_alloc` returns during a load are those that
are allocated on behalf of its process. -/
def frameStep (t : Translation) (m : FrameRun) : FrameOp → Option FrameRun
  | .load pid reader argc argv frames =>
    match elfLoad t pid reader argc argv m.mmu with
    | .ok _ s' => some {
        mmu := s'
        allocated := fun p i => m.allocated p i || (p == pid && decide (i ∈ frames))
        loaded := fun p => m.loaded p || p == pid
        live := fun p => m.live p || p == pid }
    | .error _ _ => none
  | .free pid => some { m with
      mmu := mmuFree pid m.mmu
      live := fun p => m.live p && p != pid }

/-- Programs are loaded for new processes, and processes are freed. -/
def FreshPids (t : Translation) (m : FrameRun) : FrameOp → Prop
  | .load pid reader argc argv frames => 0 < pid ∧ m.loaded pid = false ∧
      ∀ a s', elfLoad t pid reader argc argv m.mmu = .ok a s' → Takes t pid m.mmu frames s'
  | .free pid => 0 < pid

/-- The condition on a step: with page tables, a process that is freed has been given no frame. -/
def PidsRecorded (t : Translation) (m : FrameRun) (op : FrameOp) : Prop :=
  FreshPids t m op ∧ match op with
    | .free pid => t = .softTlb ∨ ∀ i, m.allocated pid i = false
    | .load _ _ _ _ _ => True

/-- What the runs keep. -/
structure FramesOk (t : Translation) (m : FrameRun) : Prop where
  fresh : ∀ p, m.loaded p = false → m.live p = false ∧ ∀ i, m.allocated p i = false
  unused : ∀ i, (m.mmu.table i).use = false → (m.mmu.table i).pid = 0
  used : ∀ p i, m.live p = true → m.allocated p i = true → (m.mmu.table i).use = true
  owner : ∀ i, (m.mmu.table i).use = true → ∃ p, m.live p = true ∧ m.allocated p i = true ∧
    ((m.mmu.table i).pid = p ∨ (t = .pageTable ∧ (m.mmu.table i).pid = 0))
  unique : ∀ p q i, m.live p = true → m.allocated p i = true → m.live q = true →
    m.allocated q i = true → p = q

variable {m m' : FrameRun}

/-- Loading a program. -/
theorem FramesOk.load {frames : List (Fin nframes)} (h : FramesOk t m)
    (hnew : m.loaded pid = false) (htakes : Takes t pid m.mmu frames s') :
    FramesOk t
      { mmu := s'
        allocated := fun p i => m.allocated p i || (p == pid && decide (i ∈ frames))
        loaded := fun p => m.loaded p || p == pid
        live := fun p => m.live p || p == pid } := by
  obtain ⟨hdead, hnone⟩ := h.fresh pid hnew
  obtain ⟨halloc, hmem⟩ := htakes.took
  -- the frames of the other processes are as before
  have hold : ∀ p i, p ≠ pid →
      (m.allocated p i || (p == pid && decide (i ∈ frames))) = m.allocated p i := by
    intro p i hp
    simp [beq_eq_false_iff_ne.2 hp]
  have hmine : ∀ i, (m.allocated pid i || (pid == pid && decide (i ∈ frames))) = true ↔
      (m.mmu.table i).use = false ∧ (s'.table i).use = true := by
    intro i
    rw [← hmem i]
    simp [hnone i]
  have hlive : ∀ p, p ≠ pid → (m.live p || p == pid) = m.live p := by
    intro p hp
    simp [beq_eq_false_iff_ne.2 hp]
  have hkeep : ∀ i, (m.mmu.table i).use = true → s'.table i = m.mmu.table i := by
    intro i hi
    rcases halloc i with he | ⟨hu, -⟩
    · exact he
    · rw [hi] at hu
      cases hu
  refine ⟨fun p hp => ?_, fun i hi => ?_, fun p i hp ha => ?_, fun i hi => ?_,
    fun p q i hp ha hq hb => ?_⟩
  · simp only [Bool.or_eq_false_iff, beq_eq_false_iff_ne] at hp
    refine ⟨?_, fun i => ?_⟩
    · exact (hlive p hp.2).trans (h.fresh p hp.1).1
    · exact (hold p i hp.2).trans ((h.fresh p hp.1).2 i)
  · rcases halloc i with he | ⟨-, hu, -⟩
    · rw [he] at hi ⊢
      exact h.unused i hi
    · exact absurd (hu.symm.trans hi) (by decide)
  · by_cases hpp : p = pid
    · subst hpp
      exact ((hmine i).1 ha).2
    · have hu := h.used p i ((hlive p hpp) ▸ hp) ((hold p i hpp) ▸ ha)
      rw [hkeep i hu]
      exact hu
  · by_cases hu : (m.mmu.table i).use = true
    · obtain ⟨p, hp, ha, hown⟩ := h.owner i hu
      have hpp : p ≠ pid := fun he => by
        rw [he, hdead] at hp
        cases hp
      refine ⟨p, (hlive p hpp).trans hp, (hold p i hpp).trans ha, ?_⟩
      rw [hkeep i hu]
      exact hown
    · have hu : (m.mmu.table i).use = false := by simpa using hu
      refine ⟨pid, by simp, (hmine i).2 ⟨hu, hi⟩, ?_⟩
      rcases halloc i with he | ⟨-, -, hown | ⟨ht, hpid⟩⟩
      · rw [he, hu] at hi
        cases hi
      · exact Or.inl hown
      · exact Or.inr ⟨ht, hpid.trans (h.unused i hu)⟩
  · by_cases hpp : p = pid <;> by_cases hqq : q = pid
    · exact hpp.trans hqq.symm
    · rw [hpp] at ha
      have hu := h.used q i ((hlive q hqq) ▸ hq) ((hold q i hqq) ▸ hb)
      exact absurd ((hmine i).1 ha).1 (by simp [hu])
    · rw [hqq] at hb
      have hu := h.used p i ((hlive p hpp) ▸ hp) ((hold p i hpp) ▸ ha)
      exact absurd ((hmine i).1 hb).1 (by simp [hu])
    · exact h.unique p q i ((hlive p hpp) ▸ hp) ((hold p i hpp) ▸ ha) ((hlive q hqq) ▸ hq)
        ((hold q i hqq) ▸ hb)

/-- When the pids are recorded, `mmu_free` finds the frames of a process and no others. -/
theorem FramesOk.freed (h : FramesOk t m) (hpid : 0 < pid)
    (hok : t = .softTlb ∨ ∀ i, m.allocated pid i = false) {i : Fin nframes}
    (hi : (m.mmu.table i).use = true) :
    (m.mmu.table i).pid = pid ↔ m.live pid = true ∧ m.allocated pid i = true := by
  obtain ⟨p, hp, ha, hown⟩ := h.owner i hi
  constructor
  · intro he
    rcases hown with hown | ⟨-, h0⟩
    · obtain rfl : p = pid := hown.symm.trans he
      exact ⟨hp, ha⟩
    · omega
  · rintro ⟨hl, hal⟩
    obtain rfl : p = pid := h.unique p pid i hp ha hl hal
    rcases hown with hown | ⟨ht, -⟩
    · exact hown
    · rcases hok with hok | hok
      · rw [ht] at hok
        cases hok
      · rw [hok i] at hal
        cases hal

/-- Freeing a process. -/
theorem FramesOk.free (h : FramesOk t m) (hpid : 0 < pid)
    (hok : t = .softTlb ∨ ∀ i, m.allocated pid i = false) :
    FramesOk t { m with mmu := mmuFree pid m.mmu, live := fun p => m.live p && p != pid } := by
  have hlive : ∀ p, (m.live p && p != pid) = true ↔ m.live p = true ∧ p ≠ pid := by
    intro p
    simp
  have htable : ∀ i, ((mmuFree pid m.mmu).table i).use = true →
      (mmuFree pid m.mmu).table i = m.mmu.table i ∧ (m.mmu.table i).pid ≠ pid := by
    intro i hi
    simp only [mmuFree] at hi ⊢
    split at hi
    · cases hi
    · rename_i hc
      rw [if_neg hc]
      exact ⟨rfl, fun he => hc ⟨hi, he⟩⟩
  refine ⟨fun p hp => ?_, fun i hi => ?_, fun p i hp ha => ?_, fun i hi => ?_,
    fun p q i hp ha hq hb => ?_⟩
  · obtain ⟨hl, ha⟩ := h.fresh p hp
    exact ⟨by simp [hl], ha⟩
  · simp only [mmuFree] at hi ⊢
    split at hi
    · rename_i hc
      rw [if_pos hc]
    · rename_i hc
      rw [if_neg hc]
      exact h.unused i hi
  · obtain ⟨hp, hne⟩ := (hlive p).1 hp
    have hu := h.used p i hp ha
    simp only [mmuFree]
    rw [if_neg]
    · exact hu
    · rintro ⟨-, he⟩
      obtain ⟨hl, hal⟩ := (h.freed hpid hok hu).1 he
      exact hne (h.unique p pid i hp ha hl hal)
  · obtain ⟨he, hne⟩ := htable i hi
    rw [he] at hi ⊢
    obtain ⟨p, hp, ha, hown⟩ := h.owner i hi
    refine ⟨p, (hlive p).2 ⟨hp, ?_⟩, ha, hown⟩
    rintro rfl
    exact hne ((h.freed hpid hok hi).2 ⟨hp, ha⟩)
  · exact h.unique p q i ((hlive p).1 hp).1 ha ((hlive q).1 hq).1 hb

/-- Every operation keeps the invariant. -/
theorem FramesOk.step {op : FrameOp} (h : FramesOk t m) (hok : PidsRecorded t m op)
    (hstep : frameStep t m op = some m') : FramesOk t m' := by
  cases op with
  | load pid reader argc argv frames =>
    obtain ⟨-, hnew, htakes⟩ := hok.1
    cases hrun : elfLoad t pid reader argc argv m.mmu with
    | ok a s' =>
      rw [frameStep, hrun] at hstep
      cases hstep
      exact h.load hnew (htakes a s' hrun)
    | error e s' =>
      rw [frameStep, hrun] at hstep
      cases hstep
  | free pid =>
    cases hstep
    exact h.free hok.1 hok.2

/-- An executable of one byte: a program header at 64 with offset 512, address `APPS_ENTRY`, and
file and memory size 1. -/
def oneByteElf : Reader := fun blockNo off =>
  if blockNo ≠ 0 then 0
  else match off with
    | 32 => 64
    | 56 => 1
    | 73 => 2
    | 81 => 0x70
    | 82 => 0x02
    | 83 => 0x40
    | 96 => 1
    | 104 => 1
    | _ => 0

end Egos.Library
