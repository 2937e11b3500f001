import Egos.Common.Reach
import Egos.Earth.Mmu

/-!
# The software TLB gives private memories

With the software TLB, all processes see their pages through one window, and a page of a process
that is not switched in is kept in its frame. The specification is one private memory for each pid.
The current copy of a page is at its `home`: in the window if its process is switched in, in its
frame otherwise. Homes of different pages do not overlap, and `soft_tlb_switch` moves every page to
its new home.
-/

namespace Egos.Earth

/-! ## The specification -/

/-- What happens to the memory of processes: the loader maps a page and fills its frame, a process
is switched in or freed, and the process that is switched in stores a byte. -/
inductive TlbOp
  | mapPage (pid : ℤ) (pageNo : ℕ)
  | fill (pid : ℤ) (pageNo : ℕ) (frameId : Fin nframes) (off : ℕ) (byte : UInt8)
  | switch (pid : ℤ)
  | free (pid : ℤ)
  | store (pageNo off : ℕ) (byte : UInt8)

/-- One private memory for each pid: the byte last written to an offset of a page, by the loader or
by the process, since the page was mapped. -/
structure PrivateMemory where
  curr : ℤ
  byte : ℤ → ℕ → ℕ → Option UInt8

namespace PrivateMemory

/-- No process is switched in and no page has been written. -/
def empty : PrivateMemory := ⟨-1, fun _ _ _ => none⟩

/-- Write a byte to the memory of a process. -/
def write (p : PrivateMemory) (pid : ℤ) (pageNo off : ℕ) (byte : UInt8) : PrivateMemory :=
  { p with
    byte := fun q v o => if q = pid ∧ v = pageNo ∧ o = off then some byte else p.byte q v o }

/-- What an operation does to the private memories. -/
def step (p : PrivateMemory) : TlbOp → PrivateMemory
  | .mapPage pid pageNo =>
    { p with byte := fun q v o => if q = pid ∧ v = pageNo then none else p.byte q v o }
  | .fill pid pageNo _ off byte => p.write pid pageNo off byte
  | .switch pid => { p with curr := pid }
  | .free pid => { p with byte := fun q v o => if q = pid then none else p.byte q v o }
  | .store pageNo off byte => p.write p.curr pageNo off byte

end PrivateMemory

/-! ## The code -/

/-- A page of the address space outside the frame cache. -/
def WindowPage (pageNo : ℕ) : Prop :=
  pageNo < 2 ^ 52 ∧
    (pageNo * pageSize + pageSize ≤ frameCacheStart ∨ frameCacheEnd ≤ pageNo * pageSize)

/-- A frame holds a page of a process. -/
def Mmu.MapsPage (s : Mmu) (pid : ℤ) (pageNo : ℕ) (i : Fin nframes) : Prop :=
  s.Owns pid i ∧ (s.table i).pageNo = pageNo

/-- `mmu_alloc` and then `soft_tlb_map`. -/
def softTlbMapPage (pid : ℤ) (pageNo : ℕ) : MmuM (Fin nframes) := do
  let (frameId, _) ← mmuAlloc
  modify (softTlbMap pid pageNo frameId)
  pure frameId

/-- A load by the process that is switched in. -/
def Mmu.load (s : Mmu) (pageNo off : ℕ) : UInt8 := s.mem (pageAddr pageNo + off)

/-- The operations on the code. -/
def tlbStep (s : Mmu) : TlbOp → Option Mmu
  | .mapPage pid pageNo =>
    match softTlbMapPage pid pageNo s with
    | .ok _ s' => some s'
    | .error _ _ => none
  | .fill _ _ frameId off byte => some (s.store (pagingRead frameId + off) byte)
  | .switch pid => some (softTlbSwitch pid s)
  | .free pid => some (mmuFree pid s)
  | .store pageNo off byte => some (s.store (pageAddr pageNo + off) byte)

/-- What the loader and processes keep to: a page is mapped once, outside the frame cache, and it is
filled while its process is not switched in; a process stores to pages it maps. -/
def TlbOk (s : Mmu) : TlbOp → Prop
  | .mapPage pid pageNo => WindowPage pageNo ∧ ∀ i, ¬ s.MapsPage pid pageNo i
  | .fill pid pageNo frameId off _ =>
    pid ≠ s.softTlbPid ∧ s.MapsPage pid pageNo frameId ∧ off < pageSize
  | .store pageNo off _ => (∃ i, s.MapsPage s.softTlbPid pageNo i) ∧ off < pageSize
  | _ => True

instance (pageNo : ℕ) : Decidable (WindowPage pageNo) := inferInstanceAs (Decidable (_ ∧ _))

instance (s : Mmu) (pid : ℤ) (pageNo : ℕ) : DecidablePred (s.MapsPage pid pageNo) :=
  fun i => inferInstanceAs (Decidable (s.Owns pid i ∧ _))

instance (s : Mmu) : DecidablePred (TlbOk s)
  | .mapPage _ _ => inferInstanceAs (Decidable (_ ∧ ∀ i, ¬ s.MapsPage _ _ i))
  | .fill _ _ _ _ _ => inferInstanceAs (Decidable (_ ∧ s.MapsPage _ _ _ ∧ _))
  | .store _ _ _ => inferInstanceAs (Decidable ((∃ i, s.MapsPage _ _ i) ∧ _))
  | .switch _ | .free _ => .isTrue trivial

/-! ## Homes of pages -/

/-- The window has no frame in it. -/
theorem WindowPage.disjoint {pageNo : ℕ} (h : WindowPage pageNo) (i : Fin nframes) :
    pageAddr pageNo + 4096 ≤ pagingRead i ∨ pagingRead i + 4096 ≤ pageAddr pageNo := by
  have hi : i.val < 256 := i.isLt
  have hd : pageNo * 4096 + 4096 ≤ 1074790400 ∨ 1075838976 ≤ pageNo * 4096 := h.2
  rw [pageAddr_eq h.1, pagingRead_eq]
  omega

/-- Different pages of the window are apart. -/
theorem WindowPage.disjoint_of_ne {v w : ℕ} (hv : WindowPage v) (hw : WindowPage w) (h : v ≠ w) :
    pageAddr v + 4096 ≤ pageAddr w ∨ pageAddr w + 4096 ≤ pageAddr v := by
  rw [pageAddr_eq hv.1, pageAddr_eq hw.1]
  omega

/-- The address of the current copy of the page in a frame. -/
def Mmu.home (s : Mmu) (i : Fin nframes) : ℕ :=
  if (s.table i).pid = s.softTlbPid then pageAddr (s.table i).pageNo else pagingRead i

/-- The pages in use are outside the frame cache and each is in one frame. -/
structure Mmu.PagesOk (s : Mmu) : Prop where
  window : ∀ i, (s.table i).use = true → WindowPage (s.table i).pageNo
  unique : ∀ i j, (s.table i).use = true → (s.table j).use = true →
    (s.table i).pid = (s.table j).pid → (s.table i).pageNo = (s.table j).pageNo → i = j

/-- So are the homes of different pages. -/
theorem Mmu.PagesOk.home_disjoint {s : Mmu} (h : s.PagesOk) {i j : Fin nframes}
    (hi : (s.table i).use = true) (hj : (s.table j).use = true) (hij : i ≠ j) :
    s.home i + 4096 ≤ s.home j ∨ s.home j + 4096 ≤ s.home i := by
  unfold Mmu.home
  split <;> split
  · rename_i hpi hpj
    refine (h.window i hi).disjoint_of_ne (h.window j hj) fun he => ?_
    exact hij (h.unique i j hi hj (hpi.trans hpj.symm) he)
  · exact (h.window i hi).disjoint j
  · exact ((h.window j hj).disjoint i).symm
  · exact pagingRead_disjoint hij

/-- The simulation: every byte of a private memory is at the home of its page. -/
structure Simulates (s : Mmu) (p : PrivateMemory) : Prop where
  curr : p.curr = s.softTlbPid
  pages : s.PagesOk
  byte : ∀ i off b, (s.table i).use = true → off < 4096 →
    p.byte (s.table i).pid (s.table i).pageNo off = some b → s.mem (s.home i + off) = b

variable {s s' : Mmu} {p : PrivateMemory}

/-! ## One operation -/

/-- Writing a byte at the home of a page. -/
theorem Simulates.write (h : Simulates s p) {i : Fin nframes} {off : ℕ}
    (hi : (s.table i).use = true) (hoff : off < 4096) (b : UInt8) :
    Simulates (s.store (s.home i + off) b)
      (p.write (s.table i).pid (s.table i).pageNo off b) := by
  refine ⟨h.curr, ⟨h.pages.window, h.pages.unique⟩, fun j o c hj ho hc => ?_⟩
  change Function.update s.mem (s.home i + off) b (s.home j + o) = c
  by_cases hji : j = i
  · subst hji
    by_cases hoo : o = off
    · subst hoo
      rw [Function.update_self]
      simpa [PrivateMemory.write, Mmu.store] using hc
    · rw [Function.update_of_ne (by omega)]
      refine h.byte j o c hj ho ?_
      simpa [PrivateMemory.write, Mmu.store, hoo] using hc
  · have hne : ¬ ((s.table j).pid = (s.table i).pid ∧ (s.table j).pageNo = (s.table i).pageNo) :=
      fun he => hji (h.pages.unique j i hj hi he.1 he.2)
    have hd := h.pages.home_disjoint hj hi hji
    rw [Function.update_of_ne (by omega)]
    refine h.byte j o c hj ho ?_
    have hc : (if (s.table j).pid = (s.table i).pid ∧ (s.table j).pageNo = (s.table i).pageNo ∧
        o = off then some b else p.byte (s.table j).pid (s.table j).pageNo o) = some c := hc
    rwa [if_neg fun he => hne ⟨he.1, he.2.1⟩] at hc

/-- Freeing the frames of a process. -/
theorem Simulates.free (h : Simulates s p) (pid : ℤ) :
    Simulates (mmuFree pid s) (p.step (.free pid)) := by
  have hkeep : ∀ i, ((mmuFree pid s).table i).use = true →
      (mmuFree pid s).table i = s.table i ∧ (s.table i).pid ≠ pid := by
    intro i hi
    simp only [mmuFree] at hi ⊢
    split at hi
    · cases hi
    · rename_i hc
      rw [if_neg hc]
      exact ⟨rfl, fun hp => hc ⟨hi, hp⟩⟩
  refine ⟨h.curr, ⟨fun i hi => ?_, fun i j hi hj => ?_⟩, fun i off b hi hoff hb => ?_⟩
  · obtain ⟨he, -⟩ := hkeep i hi
    rw [he] at hi ⊢
    exact h.pages.window i hi
  · obtain ⟨hei, -⟩ := hkeep i hi
    obtain ⟨hej, -⟩ := hkeep j hj
    rw [hei] at hi ⊢
    rw [hej] at hj ⊢
    exact h.pages.unique i j hi hj
  · obtain ⟨he, hpid⟩ := hkeep i hi
    have hhome : (mmuFree pid s).home i = s.home i := by
      rw [Mmu.home, he]
      rfl
    rw [he] at hi hb
    rw [hhome]
    have hb : (if (s.table i).pid = pid then none
        else p.byte (s.table i).pid (s.table i).pageNo off) = some b := hb
    rw [if_neg hpid] at hb
    exact h.byte i off b hi hoff hb

/-- What `mmu_alloc` and `soft_tlb_map` leave behind. -/
theorem softTlbMapPage_spec {pid : ℤ} {pageNo : ℕ} {i : Fin nframes}
    (hrun : softTlbMapPage pid pageNo s = .ok i s') :
    (s.table i).use = false ∧
      s' = { s with table := Function.update s.table i ⟨true, pid, pageNo⟩ } := by
  have hwp : wp (softTlbMapPage pid pageNo) (fun i s' => (s.table i).use = false ∧
      s' = { s with table := Function.update s.table i ⟨true, pid, pageNo⟩ })
      (fun _ _ => True) s := by
    unfold softTlbMapPage
    rw [wp_bind]
    refine mmuAlloc_spec (fun i hi => ?_) fun _ => trivial
    simp only [wp_bind, wp_modify, wp_pure, softTlbMap, Mmu.setFrame, Function.update_self,
      Function.update_idem]
    exact ⟨hi, trivial⟩
  have hspec := wp_ok hwp hrun
  exact hspec

/-- Mapping a page of a process. -/
theorem Simulates.mapPage (h : Simulates s p) {pid : ℤ} {pageNo : ℕ}
    (hok : TlbOk s (.mapPage pid pageNo)) {i : Fin nframes}
    (hrun : softTlbMapPage pid pageNo s = .ok i s') :
    Simulates s' (p.step (.mapPage pid pageNo)) := by
  obtain ⟨hwin, hnew⟩ := hok
  obtain ⟨-, rfl⟩ := softTlbMapPage_spec hrun
  have hnew' : ∀ j, (s.table j).use = true →
      ¬ ((s.table j).pid = pid ∧ (s.table j).pageNo = pageNo) :=
    fun j hj he => hnew j ⟨⟨hj, he.1⟩, he.2⟩
  refine ⟨h.curr, ⟨fun j hj => ?_, fun j l hj hl hjl hjl' => ?_⟩, fun j off b hj hoff hb => ?_⟩
  · by_cases hji : j = i
    · subst hji
      simpa using hwin
    · simp only [Function.update_of_ne hji] at hj ⊢
      exact h.pages.window j hj
  · by_cases hji : j = i <;> by_cases hli : l = i
    · rw [hji, hli]
    · subst hji
      simp only [Function.update_self, Function.update_of_ne hli] at hl hjl hjl'
      exact absurd ⟨hjl.symm, hjl'.symm⟩ (hnew' l hl)
    · subst hli
      simp only [Function.update_self, Function.update_of_ne hji] at hj hjl hjl'
      exact absurd ⟨hjl, hjl'⟩ (hnew' j hj)
    · simp only [Function.update_of_ne hji, Function.update_of_ne hli] at hj hl hjl hjl'
      exact h.pages.unique j l hj hl hjl hjl'
  · by_cases hji : j = i
    · subst hji
      simp [PrivateMemory.step] at hb
    · have hhome : Mmu.home { s with table := Function.update s.table i ⟨true, pid, pageNo⟩ } j
          = s.home j := by
        simp only [Mmu.home, Function.update_of_ne hji]
      rw [hhome]
      simp only [PrivateMemory.step, Function.update_of_ne hji] at hj hb
      rw [if_neg (hnew' j hj)] at hb
      exact h.byte j off b hj hoff hb

/-- The memory after the first loop of `soft_tlb_switch`. -/
def Mmu.flushed (s : Mmu) : Memory :=
  s.mem.copyAll (s.Owns s.softTlbPid) pagingRead (fun i => pageAddr (s.table i).pageNo) 4096
    (List.finRange nframes)

/-- `soft_tlb_switch` copies pages out and in. -/
theorem softTlbSwitch_mem {pid : ℤ} (hne : pid ≠ s.softTlbPid) :
    (softTlbSwitch pid s).mem = s.flushed.copyAll (s.Owns pid)
      (fun i => pageAddr (s.table i).pageNo) pagingRead 4096 (List.finRange nframes) := by
  simp only [softTlbSwitch, if_neg hne, Mmu.flushed, Memory.copyAll, pagingWrite]

/-- It leaves the frame table. -/
theorem softTlbSwitch_table (pid : ℤ) (s : Mmu) : (softTlbSwitch pid s).table = s.table := by
  unfold softTlbSwitch
  split <;> rfl

/-- It notes the process. -/
theorem softTlbSwitch_softTlbPid (pid : ℤ) (s : Mmu) : (softTlbSwitch pid s).softTlbPid = pid := by
  unfold softTlbSwitch
  split
  · exact Eq.symm ‹_›
  · rfl

/-- Switching moves every page to its new home. -/
theorem softTlbSwitch_home (h : s.PagesOk) (pid : ℤ) {i : Fin nframes} {off : ℕ}
    (hi : (s.table i).use = true) (hoff : off < 4096) :
    (softTlbSwitch pid s).mem ((softTlbSwitch pid s).home i + off) = s.mem (s.home i + off) := by
  by_cases hne : pid = s.softTlbPid
  · rw [softTlbSwitch, if_pos hne]
  have hall := List.mem_finRange i
  rw [softTlbSwitch_mem hne, Mmu.home, softTlbSwitch_table, softTlbSwitch_softTlbPid]
  have hframe : ∀ j, s.Owns pid j → ¬ (pageAddr (s.table j).pageNo ≤ pagingRead i + off ∧
      pagingRead i + off < pageAddr (s.table j).pageNo + 4096) := by
    intro j hj
    have := (h.window j hj.1).disjoint i
    omega
  by_cases hout : (s.table i).pid = s.softTlbPid
  · -- switched out: from the window to the frame
    have hpid : (s.table i).pid ≠ pid := fun he => hne (he.symm.trans hout)
    rw [if_neg hpid, Mmu.home, if_pos hout, Memory.copyAll_of_not_mem fun j _ hj => hframe j hj]
    exact Memory.copyAll_apply ⟨hi, hout⟩ hoff (fun j _ hj => pagingRead_disjoint (Ne.symm hj))
      (fun j _ => (h.window i hi).disjoint j) hall
  · -- the frame is not written in the first loop
    have hkeep : s.flushed (pagingRead i + off) = s.mem (pagingRead i + off) := by
      refine Memory.copyAll_of_not_mem fun j _ hj => ?_
      have := pagingRead_disjoint (i := j) (j := i) fun he => hout (he ▸ hj.2)
      omega
    rw [Mmu.home, if_neg hout, ← hkeep]
    by_cases hin : (s.table i).pid = pid
    · -- switched in: from the frame to the window
      rw [if_pos hin]
      refine Memory.copyAll_apply ⟨hi, hin⟩ hoff (fun j hj hji => ?_)
        (fun j hj => ((h.window j hj.1).disjoint i).symm) hall
      refine (h.window i hi).disjoint_of_ne (h.window j hj.1) fun he => hji ?_
      exact (h.unique i j hi hj.1 (hin.trans hj.2.symm) he).symm
    · rw [if_neg hin]
      exact Memory.copyAll_of_not_mem fun j _ hj => hframe j hj

/-- `soft_tlb_switch` is simulated: no page changes. -/
theorem Simulates.switch (h : Simulates s p) (pid : ℤ) :
    Simulates (softTlbSwitch pid s) (p.step (.switch pid)) := by
  have htable := softTlbSwitch_table pid s
  refine ⟨(softTlbSwitch_softTlbPid pid s).symm, ⟨?_, ?_⟩, fun i off b hi hoff hb => ?_⟩
  · rw [htable]
    exact h.pages.window
  · rw [htable]
    exact h.pages.unique
  · rw [htable] at hi hb
    rw [softTlbSwitch_home h.pages pid hi hoff]
    exact h.byte i off b hi hoff hb

/-- Every operation keeps the simulation. -/
theorem Simulates.tlbStep {op : TlbOp} (h : Simulates s p) (hok : TlbOk s op)
    (hstep : tlbStep s op = some s') : Simulates s' (p.step op) := by
  cases op with
  | mapPage pid pageNo =>
    cases hrun : softTlbMapPage pid pageNo s with
    | ok i t =>
      rw [Egos.Earth.tlbStep, hrun] at hstep
      cases hstep
      exact h.mapPage hok hrun
    | error e t =>
      rw [Egos.Earth.tlbStep, hrun] at hstep
      cases hstep
  | fill pid pageNo i off byte =>
    cases hstep
    obtain ⟨hpid, ⟨⟨hi, rfl⟩, rfl⟩, hoff⟩ := hok
    have hhome : s.home i = pagingRead i := if_neg hpid
    have hw := h.write hi hoff byte
    rwa [hhome] at hw
  | switch pid =>
    cases hstep
    exact h.switch pid
  | free pid =>
    cases hstep
    exact h.free pid
  | store pageNo off byte =>
    cases hstep
    obtain ⟨⟨i, ⟨hi, hpid⟩, rfl⟩, hoff⟩ := hok
    have hhome : s.home i = pageAddr (s.table i).pageNo := if_pos hpid
    have hw := h.write hi hoff byte
    rw [hhome, hpid, ← h.curr] at hw
    exact hw

/-- The software TLB simulates one private memory for each pid. In every run, in any order of loads
of new pages, switches, frees and stores, a load by the process that is switched in, from a page
that it maps, returns the byte that it last stored there, or that the loader put there if it has
stored none. -/
theorem soft_tlb_private_memories {mem : Memory} {x : Mmu × PrivateMemory}
    (h : Reach (lockstep tlbStep PrivateMemory.step) (fun x op => TlbOk x.1 op)
      (Mmu.boot mem, PrivateMemory.empty) x) :
    x.2.curr = x.1.softTlbPid ∧
    ∀ pageNo off byte, (∃ i, x.1.MapsPage x.1.softTlbPid pageNo i) → off < pageSize →
      x.2.byte x.2.curr pageNo off = some byte → x.1.load pageNo off = byte := by
  have hboot : Simulates (Mmu.boot mem) .empty :=
    ⟨rfl, ⟨fun _ hi => (by cases hi), fun _ _ hi => (by cases hi)⟩, fun _ _ _ hi => (by cases hi)⟩
  have hsim : Simulates x.1 x.2 :=
    h.lockstep_invariant hboot fun _ _ _ _ hs hok hstep => hs.tlbStep hok hstep
  refine ⟨hsim.curr, ?_⟩
  rintro pageNo off byte ⟨i, ⟨hi, hpid⟩, rfl⟩ hoff hbyte
  rw [hsim.curr, ← hpid] at hbyte
  have hload := hsim.byte i off byte hi hoff hbyte
  rwa [Mmu.home, if_pos hpid] at hload

/-- Two processes have a page at `APPS_ENTRY`. The first stores to a byte that the loader had
filled, is switched out for the second, and is switched in again. -/
def twoProcesses : List TlbOp :=
  [.mapPage 5 0x40027, .fill 5 0x40027 0 3 7, .mapPage 6 0x40027, .fill 6 0x40027 1 3 9, .switch 5,
    .store 0x40027 3 8, .switch 6, .free 4, .switch 5]

/-- The first process finds the byte that it stored. -/
theorem soft_tlb_private_memories_two :
    ∃ x, Reach (lockstep tlbStep PrivateMemory.step) (fun x op => TlbOk x.1 op)
        (Mmu.boot fun _ => 0, PrivateMemory.empty) x ∧
      x.1.softTlbPid = 5 ∧ x.1.load 0x40027 3 = 8 := by
  have hrun : (runActions (lockstep tlbStep PrivateMemory.step)
      (Mmu.boot fun _ => 0, PrivateMemory.empty) twoProcesses).any (fun x =>
        decide (x.1.softTlbPid = 5 ∧ (∃ i, x.1.MapsPage x.1.softTlbPid 0x40027 i) ∧
          x.2.byte x.2.curr 0x40027 3 = some 8)) = true := by decide +kernel
  have hmeets : runMeets (lockstep tlbStep PrivateMemory.step) (fun x op => decide (TlbOk x.1 op))
      (Mmu.boot fun _ => 0, PrivateMemory.empty) twoProcesses = true := by decide +kernel
  obtain ⟨x, hx, hcheck⟩ := (Option.any_eq_true _ _).1 hrun
  obtain ⟨hpid, hmaps, hbyte⟩ := of_decide_eq_true hcheck
  have hreach : Reach (lockstep tlbStep PrivateMemory.step) (fun x op => TlbOk x.1 op)
      (Mmu.boot fun _ => 0, PrivateMemory.empty) x :=
    .of_runActions (fun _ _ => of_decide_eq_true) _ .init hx hmeets
  exact ⟨x, hreach, hpid, (soft_tlb_private_memories hreach).2 _ _ _ hmaps (by decide) hbyte⟩

end Egos.Earth
