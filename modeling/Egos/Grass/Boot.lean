import Egos.Grass.Spawn
import Egos.Grass.MemoryModes
import Egos.Library.LoadGrass
import Egos.Library.LoaderModes

/-!
# From reset to the first process

`main` of `earth.c` sets up the memory management and loads the kernel, and `main` of `grass.c`
loads `GPID_PROCESS` and switches to it. Neither can stop, since the programs fit the frames there
are. What they leave is a state from which the kernel runs as in `Egos.Grass.MemoryRuns` and starts
programs as in `Egos.Grass.Spawn`.
-/

namespace Egos.Grass

open Earth Library

/-! ## The code -/

/-- `main` of `earth.c`, from `mmu_init` to the `mret` to `GRASS_ENTRY`. -/
def earthMain (t : Translation) (grassRead : Reader) : MmuM Unit := do
  mmuInit t
  elfLoad t 0 grassRead 0 none

/-- What `main` of `grass.c` does to memory until it jumps to `APPS_ENTRY`. -/
def grassMain (t : Translation) (sysProcRead : Reader) : MmuM Unit := do
  elfLoad t gpidProcess sysProcRead 0 none
  modify (mmuSwitch t gpidProcess)

/-- Both. -/
def bootMain (t : Translation) (grassRead sysProcRead : Reader) : MmuM Unit := do
  earthMain t grassRead
  grassMain t sysProcRead

variable {σ Op : Type} {A : AddressSpaces σ ℤ Op} {M : PrivateMemories A} {t : Translation}
  {L : PageLoader t M} {s s' : σ} {grass reader : Reader} {gh ph : ProgramHeader} {mem : Memory}

/-- The process table of a kernel that has not run, which is in zeroed memory. -/
def MemKernel.zeroed (s : σ) (hart : Context) : MemKernel σ where
  procSet _ := ⟨0, .unused, 0⟩
  sp _ := 0
  mepc _ := 0
  procCurrIdx := 0
  procNprocs := 0
  memory := s
  hart

/-- `proc_set_running(proc_alloc())` of `main` of `grass.c`. -/
theorem bootMem_kernel (s : σ) (hart : Context) :
    ∃ k, (MemKernel.zeroed s hart).procAlloc = .ok (gpidProcess, k) ∧
      k.procSetRunning gpidProcess = (bootMem s hart).kernel := by
  have halloc : (MemKernel.zeroed s hart).procAlloc = .ok (gpidProcess, {
      MemKernel.zeroed s hart with
      procNprocs := 1
      procSet := Function.update (fun _ => ⟨0, .unused, 0⟩) 0 ⟨1, .loading, 0⟩ }) := rfl
  refine ⟨_, halloc, ?_⟩
  unfold bootMem MemKernel.procSetRunning MemKernel.procSetStatus MemKernel.zeroed
  congr 1
  funext i
  dsimp only
  by_cases hi : i = 0
  · simp [hi]
  · simp [hi]

/-! ## One memory system -/

/-- The frames that are free when the kernel is entered: page tables for the kernel take six. -/
def framesAtEntry (t : Translation) : ℕ :=
  match t with
  | .softTlb => 256
  | .pageTable => 250

/-- The state when the kernel is entered: no process has memory. -/
structure Initial (L : PageLoader t M) (s : σ) : Prop where
  inv : M.Inv s
  curr : ∀ p, 0 < p → A.curr s ≠ p
  untouched : ∀ p, 0 < p → L.Untouched s p
  frames : (L.mmu s).freeFrames.length = framesAtEntry t

/-- The state when the first process is entered: it has its program, and no other process has
memory. -/
structure Booted (L : PageLoader t M) (reader : Reader) (ph : ProgramHeader) (s : σ) : Prop where
  boots : BootsOn M s
  untouched : ∀ q, gpidProcess < q → L.Untouched s q
  program : HoldsProgram (segmentByte reader ph) ph 0 none (M.view s gpidProcess)
  frames : (L.mmu s).freeFrames.length + framesTaken t (codePages ph + 2) = framesAtEntry t

/-- There are frames for the largest program. -/
theorem framesTaken_le (hsize : ph.pFilesz ≤ appsArg - appsEntry) :
    framesTaken t (codePages ph + 2) ≤ framesAtEntry t := by
  have hpages := codePages_le hsize
  cases t with
  | softTlb =>
    change codePages ph + 2 ≤ 256
    omega
  | pageTable =>
    change codePages ph + 2 + 6 ≤ 250
    omega

/-- Switching processes takes no frame. -/
theorem freeFrames_mmuSwitch (t : Translation) (pid : ℤ) (m : Mmu) :
    (mmuSwitch t pid m).freeFrames = m.freeFrames := by
  apply Mmu.freeFrames_congr
  intro i
  cases t with
  | softTlb =>
    change ((softTlbSwitch pid m).table i).use = _
    rw [softTlbSwitch_table]
  | pageTable =>
    change ((pageTableSwitch pid m).table i).use = _
    rw [pageTableSwitch]
    split <;> rfl

/-- While the memory of a process is built up, the others stay as they are. -/
theorem untouched_of_builds {p q : ℤ} (hs : M.Inv s) (hcurr : p ≠ A.curr s) (hq : p ≠ q)
    (hnew : L.Untouched s q) (h : Reach A.perform (M.Builds p) s s') : L.Untouched s' q := by
  induction h with
  | init => exact hnew
  | step hreach hbuilds hstep ih =>
    obtain ⟨hok, rfl⟩ := hbuilds
    exact L.untouched_perform (M.built_of_reach hs hcurr hreach).inv hok hstep hq ih

/-- `main` of `grass.c` loads the first process, and switches to it. -/
theorem grassMain_spec (hs : Initial L s) (hfree : ∀ p, p ≥ gpidUserStart → M.Freeable p)
    (himage : AppImage reader ph) (hsize : ph.pFilesz ≤ appsArg - appsEntry) :
    wp (grassMain t reader)
      (fun _ m => ∃ s', L.mmu s' = m ∧ Booted L reader ph s' ∧
        ∀ a, a < appsEntry → m.mem a = (L.mmu s).mem a)
      (fun _ _ => False) (L.mmu s) := by
  have hpos : (0 : ℤ) < gpidProcess := by decide
  have hnew := hs.untouched _ hpos
  have hcurr := hs.curr _ hpos
  have hpages := codePages_le hsize
  have hframes := framesTaken_le (t := t) hsize
  have henough : ¬ Stops t gpidProcess (L.mmu s) (codePages ph + 2) := by
    rintro (hlt | ⟨-, hbig⟩)
    · rw [hs.frames] at hlt
      exact absurd hframes (not_le.2 hlt)
    · exact absurd hbig (by decide)
  have hload := PageLoader.elfLoad_loaded (L := L) none himage hsize (Nat.zero_le _) hs.inv hcurr
    hnew
  have hspec := elfLoad_spec none himage (L.fresh hnew hcurr) hsize
    (show 132 + 32 * 0 ≤ 4096 by omega)
  refine wp_seq (wp_mono (wp_and hload (wp_mono hspec (fun _ _ h => h) fun _ _ _ => trivial))
    (fun _ _ h => h) fun _ _ h => henough h) ?_
  rintro _ _ ⟨⟨s', rfl, hloaded⟩, hloading⟩
  have hinv := hloaded.built.inv
  refine ⟨A.switch gpidProcess s', L.switch, ⟨⟨hfree, M.inv_switch hinv, M.curr_switch hinv, ?_⟩,
    fun q hq => ?_, ?_, ?_⟩, fun a ha => ?_⟩
  · rw [HasArea, M.maps_switch hinv]
    exact hasArea_of_hasProgram hloaded.has
  · apply L.untouched_switch
    exact untouched_of_builds hs.inv (Ne.symm hcurr) hq.ne (hs.untouched q (hpos.trans hq))
      hloaded.reach
  · rw [M.view_switch hinv]
    exact hloaded.has.program
  · rw [L.switch, freeFrames_mmuSwitch, hloading.free, List.length_drop, hs.frames]
    omega
  · refine hloading.switch_low (L.fresh hnew hcurr) (layout_appPage hpages) (fun k _ => ?_) ha
    unfold appPage
    split <;> omega

/-! ## The software TLB -/

/-- At first all frames are free. -/
theorem freeFrames_boot (mem : Memory) : (Mmu.boot mem).freeFrames.length = 256 := by
  have hall : (Mmu.boot mem).freeFrames = List.finRange nframes :=
    List.filter_eq_self.2 fun _ _ => rfl
  rw [hall, List.length_finRange]

/-- The memory system when the kernel is entered, with the software TLB. -/
theorem initial_softTlb (mem : Memory) : Initial softTlbLoader (Mmu.boot mem) := by
  refine ⟨⟨fun _ hi => (by cases hi), fun _ _ hi => (by cases hi)⟩, fun p hp he => ?_,
    fun _ _ _ hi => (by cases hi.1), ?_⟩
  · have he : (-1 : ℤ) = p := he
    omega
  · exact freeFrames_boot mem

/-- `main` of `earth.c` loads the kernel and takes no frame, with the software TLB. -/
theorem earthMain_softTlb (himage : GrassImage grass gh) (hsize : gh.pFilesz ≤ grassSize) :
    wp (earthMain .softTlb grass)
      (fun _ s => Initial softTlbLoader s ∧ HoldsGrass (segmentByte grass gh) gh s.mem)
      (fun _ _ => False) (Mmu.boot mem) := by
  have hinit : wp (mmuInit .softTlb) (fun _ s => s = Mmu.boot mem) (fun _ _ => False)
      (Mmu.boot mem) := rfl
  refine wp_seq hinit ?_
  rintro _ _ rfl
  refine wp_mono (elfLoad_grass himage hsize _) ?_ fun _ _ h => h
  rintro _ s ⟨hs, hgrass, -⟩
  rw [hs]
  exact ⟨initial_softTlb s.mem, hgrass⟩

/-! ## Page tables -/

/-- `mmu_init` takes six frames for the tables of the kernel. -/
theorem mmuInit_pageTable (mem : Memory) : ∃ s, mmuInit .pageTable (Mmu.boot mem) = .ok () s ∧
    (∀ p, p ≠ 0 → s.pidToPagetableBase p = 0) ∧ s.freeFrames.length = 250 := by
  have hboot : PageTables (Ghost.bare (Mmu.boot mem)) (Mmu.boot mem) :=
    pageTables_bare (Mmu.boot mem)
  have hwp : wp (mmuInit .pageTable)
      (fun _ s => (∀ p, p ≠ 0 → s.pidToPagetableBase p = 0) ∧ s.freeFrames.length = 250)
      (fun _ _ => False) (Mmu.boot mem) := by
    refine wp_call (pagetableIdentityMapping_spec hboot id) (fun _ _ hshort => ?_)
      fun _ s hs => ?_
    · rw [Short, tablesOf_bare, Set.ncard_empty, Set.empty_union, paths_identityRegions,
        ncard_appTables, freeFrames_boot] at hshort
      omega
    · obtain ⟨kind', hgrow, -⟩ := hs
      have hcount := hgrow.count
      rw [hgrow.tables, tablesOf_bare, Set.ncard_empty, Set.empty_union, paths_identityRegions,
        ncard_appTables, freeFrames_boot] at hcount
      refine ⟨fun p hp => hgrow.bases p hp, ?_⟩
      change s.freeFrames.length = 250
      omega
  obtain ⟨⟨⟩, s, hs, h⟩ := wp_returns hwp
  exact ⟨s, hs, h⟩

/-- The memory system when the kernel is entered, with page tables. -/
theorem initial_pageTable {s : Mmu} (hinit : mmuInit .pageTable (Mmu.boot mem) = .ok () s)
    (hbases : ∀ p, p ≠ 0 → s.pidToPagetableBase p = 0) (hfree : s.freeFrames.length = 250)
    {mem' : Memory} (hmem : ∀ i a, InFrame i a → mem' a = s.mem a) :
    Initial pageTableLoader (Spaces.init { s with mem := mem' }) := by
  have hpid := mmuInit_pageTablePid hinit
  obtain ⟨g, hg⟩ := spacesOk_init hinit
  refine ⟨⟨⟨g, hg.withMem_outside hmem⟩, fun hne => ?_⟩, fun p hp he => ?_, fun p hp => ?_, ?_⟩
  · change s.pidToPagetableBase s.pageTablePid ≠ 0 at hne
    rw [hpid] at hne
    exact absurd (hbases _ (by decide)) hne
  · have he : s.pageTablePid = p := he
    omega
  · exact ⟨hp, rfl, hbases p hp.ne'⟩
  · exact hfree

/-- `main` of `earth.c` loads the kernel and sets up its tables, with page tables. -/
theorem earthMain_pageTable (himage : GrassImage grass gh) (hsize : gh.pFilesz ≤ grassSize) :
    wp (earthMain .pageTable grass)
      (fun _ s => ∃ m, pageTableLoader.mmu m = s ∧ Initial pageTableLoader m ∧
        HoldsGrass (segmentByte grass gh) gh s.mem)
      (fun _ _ => False) (Mmu.boot mem) := by
  obtain ⟨s, hinit, hbases, hfree⟩ := mmuInit_pageTable mem
  have hwp : wp (mmuInit .pageTable) (fun _ s' => s' = s) (fun _ _ => False) (Mmu.boot mem) := by
    rw [wp, hinit]
  refine wp_seq hwp ?_
  rintro _ s rfl
  refine wp_mono (elfLoad_grass himage hsize s) ?_ fun _ _ h => h
  rintro _ s' ⟨hs', hgrass, hsame⟩
  have hframes : ∀ i a, InFrame i a → s'.mem a = s.mem a := by
    rintro i a ⟨ha, -⟩
    apply hsame
    rintro ⟨-, ha'⟩
    have ha' : a < 1073901568 := ha'
    rw [pagingRead_eq] at ha
    omega
  refine ⟨Spaces.init { s with mem := s'.mem }, hs'.symm, ?_, hgrass⟩
  exact initial_pageTable hinit hbases hfree hframes

/-! ## Booting in both modes -/

/-- The kernel and the first process are in memory, and the process table has that process as the
running one. From there on every run of the kernel on memory is a run of the kernel on areas. -/
structure Boots (L : PageLoader t M) (kernel : ℕ → UInt8) (gh : ProgramHeader)
    (image : ℕ → UInt8) (ph : ProgramHeader) (s : σ) : Prop where
  kernel : HoldsGrass kernel gh (L.mmu s).mem
  program : HoldsProgram image ph 0 none (M.view s gpidProcess)
  frames : (L.mmu s).freeFrames.length + framesTaken t (codePages ph + 2) = framesAtEntry t
  table : ∀ hart, ∃ k, (MemKernel.zeroed s hart).procAlloc = .ok (gpidProcess, k) ∧
    k.procSetRunning gpidProcess = (bootMem s hart).kernel
  refines : ∀ {hart x}, Reach (memStep A) (MemOk M) (bootMem s hart) x →
    ∃ (area : ℤ → Syscall Content) (m : Machine Content),
      Reach step (fun _ _ => True) (bootMachine area) m ∧ Represents M x m

/-- The system boots with the software TLB. -/
theorem bootMain_softTlb (mem : Memory) (hgrass : GrassImage grass gh)
    (hgsize : gh.pFilesz ≤ grassSize) (himage : AppImage reader ph)
    (hsize : ph.pFilesz ≤ appsArg - appsEntry) :
    ∃ s, bootMain .softTlb grass reader (Mmu.boot mem) = .ok () s ∧
      Booted softTlbLoader reader ph s ∧ HoldsGrass (segmentByte grass gh) gh s.mem := by
  have hwp : wp (bootMain .softTlb grass reader) (fun _ s => Booted softTlbLoader reader ph s ∧
      HoldsGrass (segmentByte grass gh) gh s.mem) (fun _ _ => False) (Mmu.boot mem) := by
    refine wp_seq (earthMain_softTlb hgrass hgsize) ?_
    rintro _ s ⟨hs, hkernel⟩
    refine wp_mono (grassMain_spec hs (fun _ _ => trivial) himage hsize) ?_ fun _ _ h => h
    rintro _ _ ⟨s', rfl, hbooted, hlow⟩
    exact ⟨hbooted, hkernel.congr hgsize hlow⟩
  obtain ⟨⟨⟩, s, hs⟩ := wp_returns hwp
  exact ⟨s, hs⟩

/-- The system boots with page tables. -/
theorem bootMain_pageTable (mem : Memory) (hgrass : GrassImage grass gh)
    (hgsize : gh.pFilesz ≤ grassSize) (himage : AppImage reader ph)
    (hsize : ph.pFilesz ≤ appsArg - appsEntry) :
    ∃ m, bootMain .pageTable grass reader (Mmu.boot mem) = .ok () m.mmu ∧
      Booted pageTableLoader reader ph m ∧ HoldsGrass (segmentByte grass gh) gh m.mmu.mem := by
  have hwp : wp (bootMain .pageTable grass reader) (fun _ s => ∃ m, pageTableLoader.mmu m = s ∧
      Booted pageTableLoader reader ph m ∧ HoldsGrass (segmentByte grass gh) gh s.mem)
      (fun _ _ => False) (Mmu.boot mem) := by
    refine wp_seq (earthMain_pageTable hgrass hgsize) ?_
    rintro _ _ ⟨m, rfl, hm, hkernel⟩
    refine wp_mono (grassMain_spec hm (fun p hp => lt_of_lt_of_le (by decide) hp) himage hsize) ?_
      fun _ _ h => h
    rintro _ _ ⟨m', rfl, hbooted, hlow⟩
    exact ⟨m', rfl, hbooted, hkernel.congr hgsize hlow⟩
  obtain ⟨⟨⟩, _, hs, m, rfl, hm⟩ := wp_returns hwp
  exact ⟨m, hs, hm⟩

end Egos.Grass
