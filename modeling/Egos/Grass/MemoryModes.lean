import Mathlib.Tactic.FinCases
import Egos.Earth.TableMemory
import Egos.Earth.WindowMemory
import Egos.Grass.Contexts

/-!
# The kernel in both translation modes

`main` of `grass.c` loads `GPID_PROCESS`, switches its memory in and jumps to its entry. From there
on the kernel that works on the memory of the machine, with the software TLB or with page tables,
does what the kernel with one system-call area for each pid does. What is known about the runs of
that kernel, such as that messages are delivered once, holds of the kernel on memory.
-/

namespace Egos.Grass

open Earth
open Riscv (Reg)

variable {σ Op : Type} {A : AddressSpaces σ ℤ Op} {M : PrivateMemories A}

/-- The kernel on areas is in the state of the kernel on memory: the tables agree, the memory that
is visible is that of the same process, and every process that has started has its area in its
memory. -/
structure Represents (M : PrivateMemories A) (x : MemMachine σ) (m : Machine Content) :
    Prop where
  procSet : m.kernel.procSet = x.kernel.procSet
  procCurrIdx : m.kernel.procCurrIdx = x.kernel.procCurrIdx
  procNprocs : m.kernel.procNprocs = x.kernel.procNprocs
  allocated : m.allocated = x.allocated
  mmuPid : m.kernel.mmuPid = A.curr x.kernel.memory
  area : ∀ p, Live x.kernel.procSet p → m.kernel.area p = syscallAt (M.view x.kernel.memory p)

/-- A machine that is followed is represented. -/
theorem Follows.represents {x : MemMachine σ} {m : Machine Content} (h : Follows M x m) :
    Represents M x m := by
  refine ⟨h.sim.procSet, h.sim.procCurrIdx, h.sim.procNprocs, h.allocated, h.sim.mmuPid,
    fun p hp => ?_⟩
  rw [← h.sim.procSet] at hp
  exact h.sim.area p hp

/-- Every state that is reached on a memory system agrees with one on areas. -/
theorem BootsOn.exists_follows {s : σ} {hart : Context} {x : MemMachine σ} (hb : BootsOn M s)
    (h : Reach (memStep A) (MemOk M) (bootMem s hart) x) : ∃ m, Follows M x m := by
  obtain ⟨-, m, -, hfollows, -⟩ := exists_run_on_areas hb
    (h.mono fun _ _ hok => ⟨hok, False.elim⟩) fun _ => syscallAt fun _ => 0
  exact ⟨m, hfollows⟩

/-- Runs on a memory system are runs on areas. -/
theorem BootsOn.represented {s : σ} {hart : Context} {x : MemMachine σ} (hb : BootsOn M s)
    (h : Reach (memStep A) (MemOk M) (bootMem s hart) x) :
    ∃ (area : ℤ → Syscall Content) (m : Machine Content),
      Reach step (fun _ _ => True) (bootMachine area) m ∧ Represents M x m := by
  obtain ⟨area, m, hreach, hfollows, -⟩ := exists_run_on_areas hb
    (h.mono fun _ _ hok => ⟨hok, False.elim⟩) fun _ => syscallAt fun _ => 0
  exact ⟨area, m, hreach.mono fun _ _ _ => trivial, hfollows.represents⟩

/-! ## The software TLB -/

/-- The pages are in order in every run of the software TLB. -/
theorem pagesOk_of_reach {mem : Memory} {s : Mmu} (h : Reach tlbStep TlbOk (Mmu.boot mem) s) :
    s.PagesOk := by
  apply h.invariant
  · exact ⟨fun _ hi => (by cases hi), fun _ _ hi => (by cases hi)⟩
  · exact fun _ _ _ hs hok hstep => hs.tlbStep hok hstep

/-- The kernel boots on what the loader has built, with the software TLB. -/
theorem bootsOn_softTlb {mem : Memory} {s : Mmu} {i : Fin nframes}
    (hload : Reach tlbStep TlbOk (Mmu.boot mem) s) (hpage : s.MapsPage gpidProcess areaPage i) :
    BootsOn softTlbMemories (softTlbSwitch gpidProcess s) := by
  refine ⟨fun _ _ => trivial, (pagesOk_of_reach hload).switch _, softTlbSwitch_softTlbPid _ _,
    fun j hj => ⟨i, ?_⟩⟩
  rw [area_page hj, Mmu.MapsPage, Mmu.Owns, softTlbSwitch_table]
  exact hpage

/-! ### A run -/

/-- A check that implies the conditions on processes and the loader: frames are on one page, which
is not that of the system-call area. -/
def checkWindow (x : MemMachine Mmu) : MemAction WindowOp → Bool
  | .perform op => decide (TlbOk x.kernel.memory op.tlbOp)
  | .setReady pid => decide (∃ i, x.kernel.memory.MapsPage pid areaPage i)
  | .send _ _ _ _ | .recv _ _ | .intr _ _ _ =>
    let sp := (x.kernel.hart.reg .sp).toNat
    decide (112 ≤ sp ∧ (sp - 104) / 4096 = sp / 4096 ∧ sp / 4096 ≠ areaPage ∧
      ∃ i, x.kernel.memory.MapsPage x.kernel.memory.softTlbPid (sp / 4096) i)
  | .store _ _ => false
  | .alloc | .free _ | .compute _ => true

/-- A frame on one page that is not that of the system-call area. -/
theorem hasFrame_of_page {k : MemKernel σ} (hfits : 112 ≤ (k.hart.reg .sp).toNat)
    (hone : ((k.hart.reg .sp).toNat - 104) / 4096 = (k.hart.reg .sp).toNat / 4096)
    (hne : (k.hart.reg .sp).toNat / 4096 ≠ areaPage)
    (hmaps : ∀ a, a / 4096 = (k.hart.reg .sp).toNat / 4096 →
      M.Maps k.memory (A.curr k.memory) a) : HasFrame M k := by
  have hbase : (k.hart.reg .sp - 112).toNat = (k.hart.reg .sp).toNat - 112 := by bv_omega
  have hpage : ∀ j, j < 104 → ((k.hart.reg .sp - 112).toNat + 8 + j) / 4096
      = (k.hart.reg .sp).toNat / 4096 := by
    intro j hj
    rw [hbase]
    omega
  refine ⟨hfits, fun j hj => hmaps _ (hpage j hj), fun j hj harea => hne ?_⟩
  rw [← hpage j hj, ← area_page (j := (k.hart.reg .sp - 112).toNat + 8 + j - syscallArg),
    Nat.add_sub_cancel' harea.1]
  have := harea.2
  have := harea.1
  omega

/-- The check of a step, with the software TLB. -/
theorem memOk_of_checkWindow {x : MemMachine Mmu} {a : MemAction WindowOp}
    (h : checkWindow x a = true) : MemOk softTlbMemories x a := by
  cases a with
  | perform op =>
    have hop : TlbOk x.kernel.memory op.tlbOp := of_decide_eq_true h
    exact hop
  | setReady pid =>
    rw [checkWindow, decide_eq_true_iff] at h
    obtain ⟨i, hi⟩ := h
    rw [MemOk]
    intro j hj
    refine ⟨i, ?_⟩
    rw [area_page hj]
    exact hi
  | send | recv | intr =>
    rw [checkWindow, decide_eq_true_iff] at h
    obtain ⟨hfits, hone, hne, i, hi⟩ := h
    rw [MemOk]
    exact hasFrame_of_page hfits hone hne fun a ha => ⟨i, ha ▸ hi⟩
  | store => cases h
  | alloc | free | compute => trivial

/-- A context with its stack pointer in the upper page of the stack. -/
def onStack : Context := ⟨fun r => if r = .sp then 0x400FCF00 else 7, 0x40027010⟩

/-- `GPID_PROCESS` gets two pages. -/
def windowPages : List TlbOp := [.mapPage 1 0x400FB, .mapPage 1 0x400FC]

/-- It loads a second process. -/
def windowLoad : List (MemAction WindowOp) :=
  [.alloc, .perform (.mapPage 2 0x400FB), .perform (.mapPage 2 0x400FC), .setReady 2]

/-- It waits for a message. -/
def windowWait : MemAction WindowOp := .recv 4 fun _ => 0

/-- The second process sends it one. -/
def windowReply : List (MemAction WindowOp) :=
  [.compute onStack, .send 1 (fun _ => 5) 4 fun _ => 0]

/-- The conditions are met, and `GPID_PROCESS` does not run. -/
def checkOther (x : MemMachine Mmu) (a : MemAction WindowOp) : Bool :=
  checkWindow x a && decide (x.kernel.currPid ≠ 1)

/-- The run can be made. -/
theorem window_run : ∃ (s : Mmu) (x x₁ x₂ : MemMachine Mmu),
    Reach tlbStep TlbOk (Mmu.boot fun _ => 0) s ∧ s.MapsPage gpidProcess areaPage 0 ∧
    Reach (memStep softTlbSpaces) (MemOk softTlbMemories)
      (bootMem (softTlbSwitch gpidProcess s) onStack) x ∧
    x.kernel.currPid = 1 ∧ MemOk softTlbMemories x windowWait ∧
    memStep softTlbSpaces x windowWait = some x₁ ∧ x₁.kernel.currPid = 2 ∧
    Reach (memStep softTlbSpaces)
      (fun y b => MemOk softTlbMemories y b ∧ y.kernel.currPid ≠ 1) x₁ x₂ ∧
    x₂.kernel.currPid = 1 := by
  have hpages : runMeets tlbStep (fun s op => decide (TlbOk s op)) (Mmu.boot fun _ => 0)
      windowPages = true := by decide +kernel
  have hrun : (runActions tlbStep (Mmu.boot fun _ => 0) windowPages).any (fun s =>
      decide (s.MapsPage gpidProcess areaPage 0) &&
      runMeets (memStep softTlbSpaces) checkWindow (bootMem (softTlbSwitch gpidProcess s) onStack)
        windowLoad &&
      (runActions (memStep softTlbSpaces) (bootMem (softTlbSwitch gpidProcess s) onStack)
        windowLoad).any fun x =>
        decide (x.kernel.currPid = 1) && checkWindow x windowWait &&
        (memStep softTlbSpaces x windowWait).any fun x₁ =>
          decide (x₁.kernel.currPid = 2) &&
          runMeets (memStep softTlbSpaces) checkOther x₁ windowReply &&
          (runActions (memStep softTlbSpaces) x₁ windowReply).any fun x₂ =>
            decide (x₂.kernel.currPid = 1)) = true := by decide +kernel
  obtain ⟨s, hs, hrun⟩ := (Option.any_eq_true _ _).1 hrun
  rw [Bool.and_eq_true, Bool.and_eq_true, decide_eq_true_iff] at hrun
  obtain ⟨⟨hmaps, hmeets⟩, hrun⟩ := hrun
  obtain ⟨x, hx, hrun⟩ := (Option.any_eq_true _ _).1 hrun
  rw [Bool.and_eq_true, Bool.and_eq_true, decide_eq_true_iff] at hrun
  obtain ⟨⟨hcurr, hwait⟩, hrun⟩ := hrun
  obtain ⟨x₁, hx₁, hrun⟩ := (Option.any_eq_true _ _).1 hrun
  rw [Bool.and_eq_true, Bool.and_eq_true, decide_eq_true_iff] at hrun
  obtain ⟨⟨hcurr₁, hmeets₁⟩, hrun⟩ := hrun
  obtain ⟨x₂, hx₂, hcurr₂⟩ := (Option.any_eq_true _ _).1 hrun
  refine ⟨s, x, x₁, x₂, .of_runActions (fun _ _ => of_decide_eq_true) _ .init hs hpages, hmaps,
    .of_runActions (fun _ _ => memOk_of_checkWindow) _ .init hx hmeets, hcurr,
    memOk_of_checkWindow hwait, hx₁, hcurr₁,
    .of_runActions (fun y b hy => ?_) _ .init hx₂ hmeets₁, of_decide_eq_true hcurr₂⟩
  rw [checkOther, Bool.and_eq_true, decide_eq_true_iff] at hy
  exact ⟨memOk_of_checkWindow hy.1, hy.2⟩

/-! ### Results -/

/-- With the software TLB, the kernel refines the kernel on areas: whatever has been loaded before,
and whatever system calls, interrupts, loads, stores and computations follow, there is a run on
areas that ends in the state that the memory represents. -/
theorem soft_tlb_kernel_refines {mem : Memory} {s : Mmu} {i : Fin nframes} {hart : Context}
    {x : MemMachine Mmu} (hload : Reach tlbStep TlbOk (Mmu.boot mem) s)
    (hpage : s.MapsPage gpidProcess areaPage i)
    (h : Reach (memStep softTlbSpaces) (MemOk softTlbMemories)
      (bootMem (softTlbSwitch gpidProcess s) hart) x) :
    ∃ (area : ℤ → Syscall Content) (m : Machine Content),
      Reach step (fun _ _ => True) (bootMachine area) m ∧ Represents softTlbMemories x m :=
  (bootsOn_softTlb hload hpage).represented h

/-- The first process waits for a message and the second one runs. -/
theorem soft_tlb_kernel_refines_waiting :
    ∃ (x : MemMachine Mmu) (area : ℤ → Syscall Content) (m : Machine Content),
      x.kernel.currPid = 2 ∧ Reach step (fun _ _ => True) (bootMachine area) m ∧
        Represents softTlbMemories x m := by
  obtain ⟨s, x, x₁, x₂, hload, hpage, hreach, -, hok, hstep, hcurr, -, -⟩ := window_run
  obtain ⟨area, m, hm⟩ := soft_tlb_kernel_refines hload hpage (hreach.step hok hstep)
  exact ⟨x₁, area, m, hcurr, hm⟩

/-- With the software TLB, `ctx_start` returns: a process that traps and runs again, after any steps
of other processes, has its registers, its `mepc` and its memory. -/
theorem soft_tlb_context_returns {mem : Memory} {s : Mmu} {i : Fin nframes} {hart : Context}
    {x x₁ x₂ : MemMachine Mmu} {a : MemAction WindowOp}
    (hload : Reach tlbStep TlbOk (Mmu.boot mem) s) (hpage : s.MapsPage gpidProcess areaPage i)
    (hreach : Reach (memStep softTlbSpaces) (MemOk softTlbMemories)
      (bootMem (softTlbSwitch gpidProcess s) hart) x)
    (hok : MemOk softTlbMemories x a) (htrap : Traps x a)
    (hstep : memStep softTlbSpaces x a = some x₁)
    (hrun : Reach (memStep softTlbSpaces)
      (fun y b => MemOk softTlbMemories y b ∧ y.kernel.currPid ≠ x.kernel.currPid) x₁ x₂)
    (hback : x₂.kernel.currPid = x.kernel.currPid) : Returned softTlbMemories x a x₂ :=
  returned_of_run (bootsOn_softTlb hload hpage) hreach hok htrap hstep hrun hback

/-- The first process waits for a message, the second one sends it, and the first one is back. -/
theorem soft_tlb_context_returns_message :
    ∃ x x₁ x₂ : MemMachine Mmu, memStep softTlbSpaces x windowWait = some x₁ ∧
      x₁.kernel.currPid = 2 ∧ x₂.kernel.currPid = 1 ∧
      Returned softTlbMemories x windowWait x₂ := by
  obtain ⟨s, x, x₁, x₂, hload, hpage, hreach, hcurr, hok, hstep, hcurr₁, hrun, hback⟩ := window_run
  rw [← hcurr] at hrun hback
  have htrap : Traps x windowWait := show 4 ≤ syscallMsgLen by decide
  exact ⟨x, x₁, x₂, hstep, hcurr₁, hback.trans hcurr,
    soft_tlb_context_returns hload hpage hreach hok htrap hstep hrun hback⟩

/-! ## Page tables -/

/-- The kernel boots on what the loader has built, with page tables. -/
theorem bootsOn_pageTable {mem : Memory} {s : Mmu} {m : Spaces} {f : Fin nframes}
    (hinit : mmuInit .pageTable (Mmu.boot mem) = .ok () s)
    (hload : Reach spaceStep SpaceOk (Spaces.init s) m)
    (hlive : m.freed gpidProcess = false) (hpage : m.given gpidProcess areaPage = some f) :
    BootsOn pageTableMemories { m with mmu := pageTableSwitch gpidProcess m.mmu } := by
  refine ⟨fun p hp => lt_of_lt_of_le (by decide) hp, tablesInUse_switch hinit hload (by decide),
    pageTableSwitch_pageTablePid _ _, fun j hj => ⟨hlive, f, ?_⟩⟩
  rw [area_page hj]
  exact hpage

/-! ### A run -/

/-- `GPID_PROCESS` gets two pages. -/
def tablePages : List SpaceOp := [.load 1 0x400FB, .load 1 0x400FC]

/-- It loads a second process. -/
def tableLoad : List (MemAction TableOp) :=
  [.alloc, .perform (.load 2 0x400FB), .perform (.load 2 0x400FC), .setReady 2]

/-- A check that implies the conditions on the loader. -/
def checkTables (x : MemMachine Spaces) : MemAction TableOp → Bool
  | .perform op => decide (SpaceOk x.kernel.memory op.spaceOp)
  | .setReady pid => !x.kernel.memory.freed pid && (x.kernel.memory.given pid areaPage).isSome
  | .alloc | .free _ | .compute _ => true
  | _ => false

/-- The check of a step, with page tables. -/
theorem memOk_of_checkTables {x : MemMachine Spaces} {a : MemAction TableOp}
    (h : checkTables x a = true) : MemOk pageTableMemories x a := by
  cases a with
  | perform op =>
    have hop : SpaceOk x.kernel.memory op.spaceOp := of_decide_eq_true h
    exact hop
  | setReady pid =>
    rw [checkTables, Bool.and_eq_true, Bool.not_eq_true', Option.isSome_iff_exists] at h
    obtain ⟨hfreed, f, hf⟩ := h
    rw [MemOk]
    intro j hj
    refine ⟨hfreed, f, ?_⟩
    rw [area_page hj]
    exact hf
  | send | recv | intr | store => cases h
  | alloc | free | compute => trivial

/-- The table when the second process has been set ready. -/
def loadedSlots (i : Fin maxNprocess) : Process :=
  if i = 0 then ⟨1, .running, 0⟩ else if i = 1 then ⟨2, .ready, 0⟩ else ⟨0, .unused, 0⟩

/-- The second process has been loaded, and both have the page of their stack. -/
def Loaded (x : MemMachine Spaces) : Prop :=
  (∀ i, x.kernel.procSet i = loadedSlots i) ∧ x.kernel.procCurrIdx = 0 ∧
    x.kernel.hart.reg .sp = onStack.reg .sp ∧
    ∀ p ∈ [1, 2], x.kernel.memory.freed p = false ∧
      (x.kernel.memory.given p 0x400FC).isSome = true

instance (x : MemMachine Spaces) : Decidable (Loaded x) :=
  inferInstanceAs (Decidable (_ ∧ _ ∧ _ ∧ _))

/-- What has to be checked to make the run. -/
def tableRuns (s : Mmu) : Bool :=
  runMeets spaceStep (fun m op => decide (SpaceOk m op)) (Spaces.init s) tablePages &&
    (runActions spaceStep (Spaces.init s) tablePages).any fun m =>
      !m.freed gpidProcess && (m.given gpidProcess areaPage).isSome &&
      runMeets (memStep pageTableSpaces) checkTables
        (bootMem { m with mmu := pageTableSwitch gpidProcess m.mmu } onStack) tableLoad &&
      (runActions (memStep pageTableSpaces)
        (bootMem { m with mmu := pageTableSwitch gpidProcess m.mmu } onStack) tableLoad).any
        fun x => decide (x.kernel.procNprocs = 2 ∧ Loaded x)

theorem tableRuns_boot : decide (wp (mmuInit .pageTable) (fun _ s => tableRuns s = true)
    (fun _ _ => False) (Mmu.boot fun _ => 0)) = true := by decide +kernel

/-- The run can be made. -/
theorem table_run : ∃ (s : Mmu) (m : Spaces) (f : Fin nframes) (x : MemMachine Spaces),
    mmuInit .pageTable (Mmu.boot fun _ => 0) = .ok () s ∧
    Reach spaceStep SpaceOk (Spaces.init s) m ∧ m.freed gpidProcess = false ∧
    m.given gpidProcess areaPage = some f ∧
    Reach (memStep pageTableSpaces) (MemOk pageTableMemories)
      (bootMem { m with mmu := pageTableSwitch gpidProcess m.mmu } onStack) x ∧
    x.kernel.procNprocs = 2 ∧ Loaded x := by
  -- a name for the memory keeps the run from being evaluated again
  obtain ⟨mem, hmem, hruns⟩ : ∃ mem : Memory, mem = (fun _ => 0) ∧
      decide (wp (mmuInit .pageTable) (fun _ s => tableRuns s = true) (fun _ _ => False)
        (Mmu.boot mem)) = true := ⟨_, rfl, tableRuns_boot⟩
  rw [← hmem]
  obtain ⟨_, s, hinit, hrun⟩ := wp_returns (of_decide_eq_true hruns)
  rw [tableRuns, Bool.and_eq_true] at hrun
  obtain ⟨hpages, hrun⟩ := hrun
  obtain ⟨m, hm, hrun⟩ := (Option.any_eq_true _ _).1 hrun
  simp only [Bool.and_eq_true, Bool.not_eq_true', Option.isSome_iff_exists] at hrun
  obtain ⟨⟨⟨hfreed, f, hf⟩, hmeets⟩, hrun⟩ := hrun
  obtain ⟨x, hx, hcheck⟩ := (Option.any_eq_true _ _).1 hrun
  exact ⟨s, m, f, x, hinit, .of_runActions (fun _ _ => of_decide_eq_true) _ .init hm hpages,
    hfreed, hf, .of_runActions (fun _ _ => memOk_of_checkTables) _ .init hx hmeets,
    of_decide_eq_true hcheck⟩

/-! ### Results -/

/-- With page tables, the kernel refines the kernel on areas. -/
theorem page_table_kernel_refines {mem : Memory} {s : Mmu} {m₀ : Spaces} {f : Fin nframes}
    {hart : Context} {x : MemMachine Spaces}
    (hinit : mmuInit .pageTable (Mmu.boot mem) = .ok () s)
    (hload : Reach spaceStep SpaceOk (Spaces.init s) m₀)
    (hlive : m₀.freed gpidProcess = false) (hpage : m₀.given gpidProcess areaPage = some f)
    (h : Reach (memStep pageTableSpaces) (MemOk pageTableMemories)
      (bootMem { m₀ with mmu := pageTableSwitch gpidProcess m₀.mmu } hart) x) :
    ∃ (area : ℤ → Syscall Content) (m : Machine Content),
      Reach step (fun _ _ => True) (bootMachine area) m ∧ Represents pageTableMemories x m :=
  (bootsOn_pageTable hinit hload hlive hpage).represented h

/-- A second process has been loaded. -/
theorem page_table_kernel_refines_loaded :
    ∃ (x : MemMachine Spaces) (area : ℤ → Syscall Content) (m : Machine Content),
      x.kernel.procNprocs = 2 ∧ Reach step (fun _ _ => True) (bootMachine area) m ∧
        Represents pageTableMemories x m := by
  obtain ⟨s, m₀, f, x, hinit, hload, hfreed, hf, hreach, hcount, -⟩ := table_run
  obtain ⟨area, m, hm⟩ := page_table_kernel_refines hinit hload hfreed hf hreach
  exact ⟨x, area, m, hcount, hm⟩

/-- With page tables, `ctx_start` returns. -/
theorem page_table_context_returns {mem : Memory} {s : Mmu} {m₀ : Spaces} {f : Fin nframes}
    {hart : Context} {x x₁ x₂ : MemMachine Spaces} {a : MemAction TableOp}
    (hinit : mmuInit .pageTable (Mmu.boot mem) = .ok () s)
    (hload : Reach spaceStep SpaceOk (Spaces.init s) m₀)
    (hlive : m₀.freed gpidProcess = false) (hpage : m₀.given gpidProcess areaPage = some f)
    (hreach : Reach (memStep pageTableSpaces) (MemOk pageTableMemories)
      (bootMem { m₀ with mmu := pageTableSwitch gpidProcess m₀.mmu } hart) x)
    (hok : MemOk pageTableMemories x a) (htrap : Traps x a)
    (hstep : memStep pageTableSpaces x a = some x₁)
    (hrun : Reach (memStep pageTableSpaces)
      (fun y b => MemOk pageTableMemories y b ∧ y.kernel.currPid ≠ x.kernel.currPid) x₁ x₂)
    (hback : x₂.kernel.currPid = x.kernel.currPid) : Returned pageTableMemories x a x₂ :=
  returned_of_run (bootsOn_pageTable hinit hload hlive hpage) hreach hok htrap hstep hrun hback

/-! ### A second process answers -/

/-- The table when the first process waits for a message and the second runs. -/
def waitingSlots (i : Fin maxNprocess) : Process :=
  if i = 0 then ⟨1, .waitToRecv, 0⟩ else if i = 1 then ⟨2, .running, 0⟩ else ⟨0, .unused, 0⟩

section areas

variable {N : Type} {k : Kernel N}

/-- On areas, `GPID_PROCESS` waits and the second process is entered. -/
theorem sysRecv_loadedSlots (hset : k.procSet = loadedSlots) (hidx : k.procCurrIdx = 0)
    (hmmu : k.mmuPid = 1) :
    ∃ k', sysRecv k = .ok k' ∧ k'.procSet = waitingSlots ∧ k'.procCurrIdx = 1 := by
  obtain ⟨set, idx, n, mmu, area, log⟩ := k
  subst hset hidx hmmu
  refine ⟨_, rfl, ?_, rfl⟩
  funext i
  fin_cases i <;> rfl

/-- On areas, the second process sends it a message and `GPID_PROCESS` runs again. -/
theorem sysSend_waitingSlots (hset : k.procSet = waitingSlots) (hidx : k.procCurrIdx = 1)
    (hmmu : k.mmuPid = 2) (c : N) :
    ∃ k', sysSend k gpidProcess c = .ok k' ∧ k'.currPid = gpidProcess := by
  obtain ⟨set, idx, n, mmu, area, log⟩ := k
  subst hset hidx hmmu
  exact ⟨_, rfl, rfl⟩

end areas

/-- There is room for the frame on the stack of a process that has the page of it. -/
theorem hasFrame_onStack {k : MemKernel Spaces} (hsp : k.hart.reg .sp = onStack.reg .sp)
    (hmaps : ∀ a, a / 4096 = 0x400FC →
      pageTableMemories.Maps k.memory (pageTableSpaces.curr k.memory) a) :
    HasFrame pageTableMemories k := by
  have hsp : (k.hart.reg .sp).toNat = 0x400FCF00 := by
    rw [hsp]
    rfl
  have hpage : areaPage = 0x400FB := by decide
  refine hasFrame_of_page ?_ ?_ ?_ fun a ha => hmaps a ?_
  · rw [hsp]
    decide
  · rw [hsp]
  · rw [hsp, hpage]
    decide
  · rwa [hsp] at ha

/-- `GPID_PROCESS` waits for a message. -/
def tableWait : MemAction TableOp := .recv 4 fun _ => 0

/-- The second process sends it one. -/
def tableReply : MemAction TableOp := .send 1 (fun _ => 5) 4 fun _ => 0

/-- `GPID_PROCESS` calls `sys_recv`, and the second process is entered. -/
theorem Loaded.waits {x : MemMachine Spaces} {m : Machine Content} (h : Loaded x)
    (hfollows : Follows pageTableMemories x m) :
    ∃ k, memStep pageTableSpaces x tableWait = some { x with kernel := k } ∧
      MemOk pageTableMemories x tableWait ∧ k.procSet = waitingSlots ∧ k.procCurrIdx = 1 ∧
      ∀ a, a / 4096 = 0x400FC → pageTableMemories.Maps k.memory 2 a := by
  obtain ⟨hset, hidx, hsp, hstack⟩ := h
  have hmaps : ∀ p ∈ [1, 2], ∀ a, a / 4096 = 0x400FC →
      pageTableMemories.Maps x.kernel.memory p a := by
    intro p hp a ha
    obtain ⟨g, hg⟩ := Option.isSome_iff_exists.1 (hstack p hp).2
    exact ⟨(hstack p hp).1, g, ha ▸ hg⟩
  have hset₁ : m.kernel.procSet = loadedSlots := hfollows.sim.procSet.trans (funext hset)
  have hidx₁ : m.kernel.procCurrIdx = 0 := hfollows.sim.procCurrIdx.trans hidx
  have hmmu : m.kernel.mmuPid = 1 := by
    rw [hfollows.handles.mmu, Kernel.currPid, hset₁, hidx₁]
    rfl
  have hframe : HasFrame pageTableMemories x.kernel := hasFrame_onStack hsp fun a ha => by
    rw [← hfollows.sim.mmuPid, hmmu]
    exact hmaps 1 (by simp) a ha
  obtain ⟨k₁, hk₁, hset₂, hidx₂⟩ := sysRecv_loadedSlots hset₁ hidx₁ hmmu
  have hsize : 4 ≤ syscallMsgLen := by decide
  obtain ⟨k, hk, hsim⟩ :=
    (hfollows.sim.sysRecv hfollows.handles hframe hsize fun _ => 0).of_ok_right hk₁
  refine ⟨k, ?_, hframe, hsim.procSet.symm.trans hset₂, hsim.procCurrIdx.symm.trans hidx₂,
    fun a ha => hsim.maps 2 trivial a (hmaps 2 (by simp) a ha)⟩
  rw [tableWait, memStep, hk]
  rfl

/-- The second process calls `sys_send`, and `GPID_PROCESS` runs again. -/
theorem Follows.replies {x : MemMachine Spaces} {m : Machine Content}
    (hfollows : Follows pageTableMemories x m) (hset : x.kernel.procSet = waitingSlots)
    (hidx : x.kernel.procCurrIdx = 1) (hsp : x.kernel.hart.reg .sp = onStack.reg .sp)
    (hmaps : ∀ a, a / 4096 = 0x400FC → pageTableMemories.Maps x.kernel.memory 2 a) :
    ∃ k, memStep pageTableSpaces x tableReply = some { x with kernel := k } ∧
      MemOk pageTableMemories x tableReply ∧ k.currPid = gpidProcess := by
  have hset₁ : m.kernel.procSet = waitingSlots := hfollows.sim.procSet.trans hset
  have hidx₁ : m.kernel.procCurrIdx = 1 := hfollows.sim.procCurrIdx.trans hidx
  have hmmu : m.kernel.mmuPid = 2 := by
    rw [hfollows.handles.mmu, Kernel.currPid, hset₁, hidx₁]
    rfl
  have hframe : HasFrame pageTableMemories x.kernel := hasFrame_onStack hsp fun a ha => by
    rw [← hfollows.sim.mmuPid, hmmu]
    exact hmaps a ha
  obtain ⟨k₁, hk₁, hcurr⟩ := sysSend_waitingSlots hset₁ hidx₁ hmmu
    (Sim.sentContent m.kernel (fun _ => 5) 4)
  have hsize : 4 ≤ syscallMsgLen := by decide
  obtain ⟨k, hk, hsim⟩ := (hfollows.sim.sysSend hfollows.handles hframe 1 (fun _ => 5) hsize
    fun _ => 0).of_ok_right hk₁
  refine ⟨k, ?_, hframe, hsim.currPid.symm.trans hcurr⟩
  rw [tableReply, memStep, hk]
  rfl

/-- The call returns when the second process has sent a message. -/
theorem page_table_context_returns_answered : ∃ x x₁ x₂ : MemMachine Spaces,
    memStep pageTableSpaces x tableWait = some x₁ ∧ x₁.kernel.currPid = 2 ∧
      x₂.kernel.currPid = 1 ∧ Returned pageTableMemories x tableWait x₂ := by
  obtain ⟨s, m₀, f, x, hinit, hload, hfreed, hf, hreach, -, hloaded⟩ := table_run
  have hb := bootsOn_pageTable hinit hload hfreed hf
  have hx : x.kernel.currPid = 1 := by
    rw [MemKernel.currPid, hloaded.2.1, hloaded.1]
    rfl
  obtain ⟨m, hfollows⟩ := hb.exists_follows hreach
  obtain ⟨k, hwait, hokWait, hset, hidx, hmaps⟩ := hloaded.waits hfollows
  have hcurr : k.currPid = 2 := by
    rw [MemKernel.currPid, hset, hidx]
    rfl
  have hother : k.currPid ≠ x.kernel.currPid := by
    rw [hcurr, hx]
    decide
  -- the second process sets its stack pointer before it sends
  have hcompute : memStep pageTableSpaces { x with kernel := k } (.compute onStack)
      = some { x with kernel := { k with hart := onStack } } := rfl
  have hokCompute : MemOk pageTableMemories { x with kernel := k } (.compute onStack) := trivial
  obtain ⟨m', hfollows'⟩ :=
    hb.exists_follows ((hreach.step hokWait hwait).step hokCompute hcompute)
  obtain ⟨k', hreply, hokReply, hback⟩ := hfollows'.replies hset hidx rfl hmaps
  refine ⟨x, { x with kernel := k }, { x with kernel := k' }, hwait, hcurr, hback, ?_⟩
  exact page_table_context_returns hinit hload hfreed hf hreach hokWait
    (show 4 ≤ syscallMsgLen by decide) hwait
    (.step (.step .init ⟨hokCompute, hother⟩ hcompute) ⟨hokReply, hother⟩ hreply)
    (hback.trans hx.symm)

end Egos.Grass
