import Egos.Common.Lockstep
import Egos.Grass.MemoryKernel
import Egos.Grass.Started

/-!
# The kernel on a memory system refines the kernel on areas

On a memory system that gives every process a memory of its own, the kernel does what the kernel of
`Egos.Grass.Kernel` does with one system-call area for each pid. The relation `Sim` ties the area of
a process to its memory once the process has started. Until then its memory is being built up, and
the area is free; it is fixed, in hindsight, to what the memory holds when the process is set ready.
-/

namespace Egos.Grass

open Riscv (Reg)

variable {σ Op : Type} {A : AddressSpaces σ ℤ Op} (M : PrivateMemories A)

/-- The memories of some processes, and the addresses that they map. -/
structure Memories where
  view : ℤ → Memory
  maps : ℤ → ℕ → Prop
  seen : ℤ → Prop

/-- The memories in a state of the memory system. -/
def Memories.at (M : PrivateMemories A) (s : σ) : Memories := ⟨M.view s, M.Maps s, fun _ => True⟩

/-- The memories of the processes that are not in `lost`. -/
def Memories.except (V : Memories) (lost : ℤ → Prop) : Memories :=
  { V with seen := fun p => V.seen p ∧ ¬ lost p }

/-- The process `p` gets `n` bytes from address `a` on. -/
def Memories.blit (V : Memories) (p : ℤ) (a n : ℕ) (f : ℕ → UInt8) : Memories :=
  { V with view := Function.update V.view p ((V.view p).blit a n f) }

/-- The views after one process gets some bytes. -/
theorem Memories.blit_view (V : Memories) (p : ℤ) (a n : ℕ) (f : ℕ → UInt8) :
    (V.blit p a n f).view = Function.update V.view p ((V.view p).blit a n f) := rfl

/-- The kernel on memory and the kernel on areas agree, as far as the areas of the pids in `live`
go. Outside their areas the processes have the memories `V`. -/
structure Sim (V : Memories) (live : ℤ → Prop) (k : MemKernel σ) (k₀ : Kernel Content) :
    Prop where
  procSet : k₀.procSet = k.procSet
  procCurrIdx : k₀.procCurrIdx = k.procCurrIdx
  procNprocs : k₀.procNprocs = k.procNprocs
  mmuPid : k₀.mmuPid = A.curr k.memory
  inv : M.Inv k.memory
  mapped : ∀ p, live p → HasArea M k.memory p
  area : ∀ p, live p → k₀.area p = syscallAt (M.view k.memory p)
  kept : ∀ p, V.seen p → ∀ a, ¬ InArea a → M.view k.memory p a = V.view p a
  maps : ∀ p, V.seen p → ∀ a, V.maps p a → M.Maps k.memory p a

variable {M} {V : Memories} {live live' : ℤ → Prop} {k : MemKernel σ} {k₀ : Kernel Content}

namespace Sim

/-- The simulation of fewer processes. -/
theorem mono (h : Sim M V live k k₀) (hl : ∀ p, live' p → live p) : Sim M V live' k k₀ :=
  ⟨h.procSet, h.procCurrIdx, h.procNprocs, h.mmuPid, h.inv, fun p hp => h.mapped p (hl p hp),
    fun p hp => h.area p (hl p hp), h.kept, h.maps⟩

/-- The simulation with fewer memories known. -/
theorem except (h : Sim M V live k k₀) (lost : ℤ → Prop) : Sim M (V.except lost) live k k₀ :=
  ⟨h.procSet, h.procCurrIdx, h.procNprocs, h.mmuPid, h.inv, h.mapped, h.area,
    fun p hp => h.kept p hp.1, fun p hp => h.maps p hp.1⟩

/-- The memories as they are now. -/
theorem rebase (h : Sim M V live k k₀) : Sim M (.at M k.memory) live k k₀ :=
  ⟨h.procSet, h.procCurrIdx, h.procNprocs, h.mmuPid, h.inv, h.mapped, h.area,
    fun _ _ _ _ => rfl, fun _ _ _ ha => ha⟩

/-- The two kernels have the same current process. -/
theorem currPid (h : Sim M V live k k₀) : k₀.currPid = k.currPid := by
  rw [Kernel.currPid, MemKernel.currPid, h.procSet, h.procCurrIdx]

/-- The current process has the same status in both. -/
theorem currStatus (h : Sim M V live k k₀) : k₀.currStatus = k.currStatus := by
  rw [Kernel.currStatus, MemKernel.currStatus, h.procSet, h.procCurrIdx]

/-- The contexts are not part of the relation. -/
theorem withContext (h : Sim M V live k k₀) (sp mepc : Fin maxNprocess → BitVec 64)
    (hart : Context) : Sim M V live { k with sp, mepc, hart } k₀ :=
  ⟨h.procSet, h.procCurrIdx, h.procNprocs, h.mmuPid, h.inv, h.mapped, h.area, h.kept, h.maps⟩

/-! ## Tables -/

/-- The log is of the kernel on areas alone. -/
theorem note (h : Sim M V live k k₀) (e : Event Content) : Sim M V live k (k₀.note e) :=
  ⟨h.procSet, h.procCurrIdx, h.procNprocs, h.mmuPid, h.inv, h.mapped, h.area, h.kept, h.maps⟩

/-- Writing to the current slot is simulated. -/
theorem setCurr (h : Sim M V live k k₀) (p : Process) :
    Sim M V live (k.setCurr p) (k₀.setCurr p) := by
  refine ⟨?_, h.procCurrIdx, h.procNprocs, h.mmuPid, h.inv, h.mapped, h.area, h.kept, h.maps⟩
  rw [Kernel.setCurr, MemKernel.setCurr, h.procSet, h.procCurrIdx]

/-- `proc_set_status` is simulated. -/
theorem procSetStatus (h : Sim M V live k k₀) (pid : ℤ) (status : ProcStatus) :
    Sim M V live (k.procSetStatus pid status) (procSetStatus k₀ pid status) := by
  refine ⟨?_, h.procCurrIdx, h.procNprocs, h.mmuPid, h.inv, h.mapped, h.area, h.kept, h.maps⟩
  rw [Grass.procSetStatus, MemKernel.procSetStatus, h.procSet]

/-! ## Memory -/

/-- `mmu_switch` is simulated. -/
theorem mmuSwitch (h : Sim M V live k k₀) (pid : ℤ) :
    Sim M V live (k.mmuSwitch A pid) (k₀.mmuSwitch pid) := by
  refine ⟨h.procSet, h.procCurrIdx, h.procNprocs, (M.curr_switch h.inv).symm, M.inv_switch h.inv,
    fun p hp => ?_, fun p hp => ?_, fun p hp a ha => ?_, fun p hp a ha => ?_⟩
  · intro j hj
    change M.Maps (A.switch pid k.memory) p (syscallArg + j)
    rw [M.maps_switch h.inv]
    exact h.mapped p hp j hj
  · change k₀.area p = syscallAt (M.view (A.switch pid k.memory) p)
    rw [M.view_switch h.inv]
    exact h.area p hp
  · change M.view (A.switch pid k.memory) p a = V.view p a
    rw [M.view_switch h.inv]
    exact h.kept p hp a ha
  · change M.Maps (A.switch pid k.memory) p a
    rw [M.maps_switch h.inv]
    exact h.maps p hp a ha

/-- The system-call area of the visible process is read from memory. -/
theorem sc (h : Sim M V live k k₀) (hl : live k₀.mmuPid) :
    k₀.sc = syscallAt (M.view k.memory (A.curr k.memory)) := by
  rw [Kernel.sc, h.area _ hl, h.mmuPid]

/-- The kernel reads the area of the process that is visible. -/
theorem load (h : Sim M V live k k₀) (hl : live k₀.mmuPid) {x : ℕ} (hx : syscallArg ≤ x)
    (hx' : x < syscallArg + syscallSize) :
    A.load k.memory x = M.view k.memory (A.curr k.memory) x := by
  have hmaps := h.mapped _ hl
  rw [h.mmuPid] at hmaps
  exact M.load_view h.inv hmaps hx hx'

/-- The `int`s that the kernel reads are those of the visible memory. -/
theorem readInt (h : Sim M V live k k₀) (hl : live k₀.mmuPid) {a : ℕ} (ha : syscallArg ≤ a)
    (ha' : a + 4 ≤ syscallArg + syscallSize) :
    k.readInt A a = Grass.readInt (M.view k.memory (A.curr k.memory)) a :=
  readInt_congr fun _ hx hx' => h.load hl (ha.trans hx) (lt_of_lt_of_le hx' ha')

/-- The kernel writes to the area of the process that is visible. -/
theorem stored (h : Sim M V live k k₀) (hl : live k₀.mmuPid) {a n : ℕ} (f : ℕ → UInt8)
    (ha : syscallArg ≤ a) (hn : a + n ≤ syscallArg + syscallSize) :
    M.Stored k.memory a n f (A.storeBytes k.memory a n f) := by
  apply M.stored f h.inv
  intro j hj
  have hmap := h.mapped _ hl (a + j - syscallArg) (by omega)
  rw [h.mmuPid, Nat.add_sub_cancel' (by omega)] at hmap
  exact hmap

/-- A write to the area of the process that is visible. -/
theorem writeBytes (h : Sim M V live k k₀) (hl : live k₀.mmuPid) {a n : ℕ} {f : ℕ → UInt8}
    (ha : syscallArg ≤ a) (hn : a + n ≤ syscallArg + syscallSize) {sc : Syscall Content}
    (hsc : syscallAt ((M.view k.memory (A.curr k.memory)).blit a n f) = sc) :
    Sim M V live (k.writeBytes A a n f) (k₀.setSc sc) := by
  have hst := h.stored hl f ha hn
  refine ⟨h.procSet, h.procCurrIdx, h.procNprocs, h.mmuPid.trans hst.curr.symm, hst.inv,
    fun p hp j hj => ?_, fun p hp => ?_, fun p hp x hx => ?_, fun p hp x hx => ?_⟩
  · change M.Maps (A.storeBytes k.memory a n f) p (syscallArg + j)
    rw [hst.maps]
    exact h.mapped p hp j hj
  · change Function.update k₀.area k₀.mmuPid sc p
      = syscallAt (M.view (A.storeBytes k.memory a n f) p)
    rw [hst.view, h.mmuPid]
    by_cases hcurr : p = A.curr k.memory
    · rw [hcurr, Function.update_self, Function.update_self, hsc]
    · rw [Function.update_of_ne hcurr, Function.update_of_ne hcurr, h.area p hp]
  · change M.view (A.storeBytes k.memory a n f) p x = V.view p x
    rw [hst.view]
    by_cases hcurr : p = A.curr k.memory
    · have hout : ¬ (a ≤ x ∧ x < a + n) := fun hc => hx ⟨ha.trans hc.1, hc.2.trans_le hn⟩
      rw [hcurr, Function.update_self, Memory.blit, if_neg hout, ← hcurr]
      exact h.kept p hp x hx
    · rw [Function.update_of_ne hcurr]
      exact h.kept p hp x hx
  · change M.Maps (A.storeBytes k.memory a n f) p x
    rw [hst.maps]
    exact h.maps p hp x hx

/-- A write to memory of the process that is visible, outside its area. -/
theorem writeOutside (h : Sim M V live k k₀) {a n : ℕ} {f : ℕ → UInt8}
    (hmaps : ∀ j, j < n → M.Maps k.memory (A.curr k.memory) (a + j))
    (hout : ∀ j, j < n → ¬ InArea (a + j)) :
    Sim M (V.blit (A.curr k.memory) a n f) live (k.writeBytes A a n f) k₀ := by
  have hst := M.stored f h.inv hmaps
  have hdisjoint : ∀ x, InArea x → ¬ (a ≤ x ∧ x < a + n) := by
    intro x hx hc
    apply hout (x - a) (by omega)
    rwa [Nat.add_sub_cancel' hc.1]
  refine ⟨h.procSet, h.procCurrIdx, h.procNprocs, h.mmuPid.trans hst.curr.symm, hst.inv,
    fun p hp j hj => ?_, fun p hp => ?_, fun p hp x hx => ?_, fun p hp x hx => ?_⟩
  · change M.Maps (A.storeBytes k.memory a n f) p (syscallArg + j)
    rw [hst.maps]
    exact h.mapped p hp j hj
  · change k₀.area p = syscallAt (M.view (A.storeBytes k.memory a n f) p)
    rw [h.area p hp, hst.view]
    by_cases hcurr : p = A.curr k.memory
    · rw [hcurr, Function.update_self]
      apply syscallAt_congr
      intro x hx hx'
      rw [Memory.blit, if_neg (hdisjoint x ⟨hx, hx'⟩)]
    · rw [Function.update_of_ne hcurr]
  · change M.view (A.storeBytes k.memory a n f) p x = _
    rw [hst.view]
    by_cases hcurr : p = A.curr k.memory
    · subst hcurr
      rw [Memories.blit_view, Function.update_self, Function.update_self, Memory.blit, Memory.blit,
        h.kept _ hp x hx]
    · rw [Memories.blit_view, Function.update_of_ne hcurr, Function.update_of_ne hcurr]
      exact h.kept p hp x hx
  · change M.Maps (A.storeBytes k.memory a n f) p x
    rw [hst.maps]
    exact h.maps p hp x hx

section fields

variable (h : Sim M V live k k₀) (hl : live k₀.mmuPid) (v : ℤ)

include h hl

/-- A write to `sc->type`. -/
theorem writeType : Sim M V live (k.writeInt A syscallArg v)
    (k₀.setSc { k₀.sc with type := .ofInt (v.bmod (2 ^ 32)) }) := by
  refine h.writeBytes hl (le_refl _) (by decide) ?_
  rw [syscallAt_type, h.sc hl]

/-- A write to `sc->retval`. -/
theorem writeRetval : Sim M V live (k.writeInt A (syscallArg + 1036) v)
    (k₀.setSc { k₀.sc with retval := v.bmod (2 ^ 32) }) := by
  refine h.writeBytes hl (by omega) (by decide) ?_
  rw [syscallAt_retval, h.sc hl]

/-- A write to `sc->msg.sender`. -/
theorem writeSender : Sim M V live (k.writeInt A (syscallArg + 4) v)
    (k₀.setSc { k₀.sc with msg := { k₀.sc.msg with sender := v.bmod (2 ^ 32) } }) := by
  refine h.writeBytes hl (by omega) (by decide) ?_
  rw [syscallAt_msg _ _ (by omega) (by omega), sysMsgAt_sender, h.sc hl]
  rfl

/-- A write to `sc->msg.receiver`. -/
theorem writeReceiver : Sim M V live (k.writeInt A (syscallArg + 8) v)
    (k₀.setSc { k₀.sc with msg := { k₀.sc.msg with receiver := v.bmod (2 ^ 32) } }) := by
  refine h.writeBytes hl (by omega) (by decide) ?_
  rw [syscallAt_msg _ _ (by omega) (by omega), sysMsgAt_receiver, h.sc hl]
  rfl

/-- A `memcpy` to `sc->msg.content`. -/
theorem writeContent {n : ℕ} (hn : n ≤ syscallMsgLen) (f : ℕ → UInt8) :
    Sim M V live (k.writeBytes A (syscallArg + 12) n f)
      (k₀.setSc { k₀.sc with msg := { k₀.sc.msg with
        content := fun j => if j.val < n then f j else k₀.sc.msg.content j } }) := by
  have hlen : syscallMsgLen = 1024 := rfl
  have hsize : syscallSize = 1040 := rfl
  refine h.writeBytes hl (by omega) (by omega) ?_
  rw [syscallAt_msg _ _ (by omega) (by omega), sysMsgAt_content, h.sc hl]
  rfl

omit hl in
/-- The message is copied as it is in the memory of the source. -/
theorem copyMsg {src dst : ℤ} (hsrc : live src) (hdst : live dst) :
    Sim M V live (k.copyMsg A src dst) (copyMsg k₀ src dst) := by
  have h₁ := h.mmuSwitch src
  have h₂ := h₁.mmuSwitch dst
  have hsize : syscallSize = 1040 := rfl
  have hmsg : sysMsgSize = 1032 := rfl
  refine Sim.note (h₂.writeBytes hdst (by omega) (by omega) ?_) _
  rw [syscallAt_msg _ _ (by omega) (by omega), sysMsgAt_copy fun j hj =>
    h₁.load hsrc (by omega) (by omega), h₂.sc hdst, h₁.sc hsrc]
  rfl

end fields

/-- Memory that is taken back no longer matters. -/
theorem free (h : Sim M V live k k₀) {pid : ℤ} (hf : M.Freeable pid)
    (hseen : ∀ p, V.seen p → p ≠ pid) :
    Sim M V (fun p => live p ∧ p ≠ pid) { k with memory := A.free pid k.memory } k₀ := by
  refine ⟨h.procSet, h.procCurrIdx, h.procNprocs, h.mmuPid.trans (M.curr_free h.inv hf).symm,
    M.inv_free h.inv hf, fun p hp j hj => ?_, fun p hp => ?_, fun p hp a ha => ?_,
    fun p hp a ha => ?_⟩
  · exact M.maps_free h.inv hf hp.2 (h.mapped p hp.1 j hj)
  · change k₀.area p = syscallAt (M.view (A.free pid k.memory) p)
    rw [M.view_free h.inv hf hp.2]
    exact h.area p hp.1
  · change M.view (A.free pid k.memory) p a = V.view p a
    rw [M.view_free h.inv hf (hseen p hp)]
    exact h.kept p hp a ha
  · exact M.maps_free h.inv hf (hseen p hp) (h.maps p hp a ha)

/-! ## `kernel.c` -/

/-- The two kernels select the same slot. -/
theorem nextIdx (h : Sim M V live k k₀) : nextIdx k₀ = k.nextIdx := by
  rw [Grass.nextIdx, MemKernel.nextIdx, h.procSet, h.procCurrIdx]

/-- Switching to the current process is simulated. -/
theorem switchCurr (h : Sim M V live k k₀) :
    Sim M V live (k.mmuSwitch A k.currPid) (k₀.mmuSwitch k₀.currPid) := by
  rw [h.currPid]
  exact h.mmuSwitch _

/-- Setting the current process running is simulated. -/
theorem runCurr (h : Sim M V live k k₀) :
    Sim M V live (k.procSetRunning k.currPid) (procSetRunning k₀ k₀.currPid) := by
  rw [h.currPid]
  exact h.procSetStatus _ .running

/-- `proc_yield` is simulated. -/
theorem procYield (h : Sim M V live k k₀) :
    SameResult (fun l => Sim M V live l.kernel) (k.procYield A) (procYield k₀) := by
  unfold MemKernel.procYield Grass.procYield
  rw [h.nextIdx]
  cases k.nextIdx with
  | none => exact .error _
  | some next =>
    have hpre : Sim M V live (if k.currStatus = .running then k.procSetRunnable k.currPid else k)
        (if k₀.currStatus = .running then procSetRunnable k₀ k₀.currPid else k₀) := by
      rw [h.currStatus, h.currPid]
      split
      · exact h.procSetStatus _ _
      · exact h
    revert hpre
    generalize (if k.currStatus = .running then k.procSetRunnable k.currPid else k) = k₁
    generalize (if k₀.currStatus = .running then procSetRunnable k₀ k₀.currPid else k₀) = k₂
    intro hpre
    have hmove : Sim M V live { k₁ with procCurrIdx := next }
        (({ k₂ with procCurrIdx := next }).note (.select next (k₀.procSet next).status)) :=
      ⟨hpre.procSet, rfl, hpre.procNprocs, hpre.mmuPid, hpre.inv, hpre.mapped,
        hpre.area, hpre.kept, hpre.maps⟩
    have hrun := hmove.switchCurr.runCurr
    dsimp only
    split
    · exact .ok hrun
    · exact .ok hrun

/-- What the handlers need: the processes that have started have their areas in memory, the one
that is visible is the current one, and its pid is an `int`. -/
structure Handles (live : ℤ → Prop) (k₀ : Kernel Content) : Prop where
  live : ∀ p, Live k₀.procSet p → live p
  mmu : k₀.mmuPid = k₀.currPid
  curr : Live k₀.procSet k₀.currPid
  int : k₀.currPid.bmod (2 ^ 32) = k₀.currPid

/-- The area of the visible process is in memory. -/
theorem Handles.visible (hh : Handles live k₀) : live k₀.mmuPid := hh.mmu ▸ hh.live _ hh.curr

/-- The handlers may be entered with other areas and events. -/
theorem Handles.congr {k₁ : Kernel Content} (hh : Handles live k₀)
    (hset : k₁.procSet = k₀.procSet) (hidx : k₁.procCurrIdx = k₀.procCurrIdx)
    (hmmu : k₁.mmuPid = k₀.mmuPid) : Handles live k₁ := by
  have hcurr : k₁.currPid = k₀.currPid := by
    rw [Kernel.currPid, Kernel.currPid, hset, hidx]
  refine ⟨?_, ?_, ?_, ?_⟩
  · rw [hset]
    exact hh.live
  · rw [hmmu, hcurr]
    exact hh.mmu
  · rw [hset, hcurr]
    exact hh.curr
  · rw [hcurr]
    exact hh.int

/-- `proc_send` is simulated. -/
theorem procSend (h : Sim M V live k k₀) (hh : Handles live k₀) :
    SameResult (fun l => Sim M V live l.kernel) (k.procSend A) (procSend k₀) := by
  have h₁ := h.writeSender hh.visible k.currPid
  rw [← h.currPid, hh.int, h.currPid] at h₁
  unfold MemKernel.procSend
  rw [procSend_eq (show k₀.setSc _ = _ from rfl)]
  rw [← h.currPid] at h₁ ⊢
  revert h₁
  generalize k.writeInt A (syscallArg + 4) k₀.currPid = k₁
  have hvisible : live (k₀.setSc { k₀.sc with
    msg := { k₀.sc.msg with sender := k₀.currPid } }).mmuPid := hh.visible
  have hlive : ∀ p, Live (k₀.setSc { k₀.sc with
    msg := { k₀.sc.msg with sender := k₀.currPid } }).procSet p → live p := hh.live
  have hcurr : live (k₀.setSc { k₀.sc with
    msg := { k₀.sc.msg with sender := k₀.currPid } }).currPid := hh.live _ hh.curr
  revert hvisible hlive hcurr
  generalize k₀.setSc { k₀.sc with msg := { k₀.sc.msg with sender := k₀.currPid } } = k₂
  intro hvisible hlive hcurr h₁
  have hreceiver : k₂.sc.msg.receiver = k₁.readInt A (syscallArg + 8) := by
    rw [h₁.sc hvisible, h₁.readInt hvisible (by omega) (by decide)]
    simp only [syscallAt, sysMsgAt]
  rw [hreceiver, h₁.procSet]
  dsimp only
  cases hfind : (List.finRange maxNprocess).find? fun i =>
      (k₁.procSet i).pid = k₁.readInt A (syscallArg + 8) with
  | none =>
    have hret := h₁.writeRetval hvisible (-1)
    have hminus : (-1 : ℤ).bmod (2 ^ 32) = -1 := by decide
    rw [hminus] at hret
    exact .ok hret
  | some i =>
    dsimp only
    have hi : (k₁.procSet i).pid = k₁.readInt A (syscallArg + 8) := by
      simpa using List.find?_some hfind
    by_cases hw : (k₁.procSet i).status = .waitToRecv
    · rw [if_neg (not_not.2 hw), if_neg (not_not.2 hw)]
      have hdst : live (k₁.readInt A (syscallArg + 8)) := by
        refine hlive _ ⟨i, ?_, ?_⟩
        · rw [h₁.procSet]
          exact hi
        · rw [h₁.procSet, hw]
          rfl
      have hcopy := h₁.copyMsg hcurr hdst
      rw [h₁.currPid] at hcopy ⊢
      exact (hcopy.procSetStatus _ .runnable).procYield
    · rw [if_pos hw, if_pos hw, h₁.procCurrIdx]
      exact (h₁.setCurr _).procYield

/-- The two kernels find the same sender. -/
theorem findSender (h : Sim M V live k k₀) : findSender k₀ = k.findSender := by
  rw [Grass.findSender, MemKernel.findSender, h.procSet, h.currPid]

/-- `proc_recv` is simulated. -/
theorem procRecv (h : Sim M V live k k₀) (hh : Handles live k₀) :
    SameResult (fun l => Sim M V live l.kernel) (k.procRecv A) (procRecv k₀) := by
  unfold MemKernel.procRecv Grass.procRecv
  dsimp only
  rw [← h.findSender, h.procSet, h.procCurrIdx, h.currPid]
  by_cases hnone : Grass.findSender k₀ = -1
  · rw [if_pos hnone, if_pos hnone]
    exact (h.setCurr _).procYield
  · rw [if_neg hnone, if_neg hnone]
    have hsrc : live (Grass.findSender k₀) := by
      rcases findSender_spec k₀ with ⟨hfind, -⟩ | ⟨i, ⟨hw, -⟩, hfind⟩
      · exact absurd hfind hnone
      · exact hh.live _ ⟨i, hfind.symm, by rw [hw]; rfl⟩
    have hcopy := h.copyMsg hsrc (hh.live _ hh.curr)
    rw [h.currPid] at hcopy
    exact (hcopy.procSetStatus _ .runnable).procYield

/-- The first two assignments of `proc_syscall`. -/
theorem clear (h : Sim M V live k k₀) (hl : live k₀.mmuPid) :
    Sim M V live ((k.writeInt A (syscallArg + 1036) 0).writeInt A syscallArg 0)
      (k₀.setSc { k₀.sc with retval := 0, type := .unused }) := by
  have h₁ := (h.writeRetval hl 0).writeType hl 0
  have hzero : (0 : ℤ).bmod (2 ^ 32) = 0 := by decide
  have hunused : SyscallType.ofInt 0 = .unused := rfl
  rw [hzero, hunused] at h₁
  simpa only [Kernel.setSc, Kernel.sc, Function.update_self, Function.update_idem] using h₁

/-- The dispatch on the type of the system call is simulated. -/
theorem dispatch {type : ℤ} (hh : Handles live k₀) (htype : k₀.sc.type = .ofInt type)
    (h : Sim M V live k (k₀.setSc { k₀.sc with retval := 0, type := .unused })) :
    SameResult (fun l => Sim M V live l.kernel) (k.dispatch A type) (procSyscall k₀) := by
  unfold MemKernel.dispatch Grass.procSyscall
  rw [htype]
  cases SyscallType.ofInt type with
  | recv => exact (h.note _).procRecv (hh.congr rfl rfl rfl)
  | send => exact (h.note _).procSend (hh.congr rfl rfl rfl)
  | unused | ncalls | other => exact .error _

/-- `proc_syscall` is simulated. -/
theorem procSyscall (h : Sim M V live k k₀) (hh : Handles live k₀) :
    SameResult (fun l => Sim M V live l.kernel) (k.procSyscall A) (procSyscall k₀) := by
  have htype : k₀.sc.type = .ofInt (k.readInt A syscallArg) := by
    rw [h.sc hh.visible, h.readInt hh.visible (le_refl _) (by decide)]
    simp only [syscallAt]
  have heq : k.procSyscall A = ((k.writeInt A (syscallArg + 1036) 0).writeInt A syscallArg
      0).dispatch A (k.readInt A syscallArg) := rfl
  rw [heq]
  exact dispatch hh htype (h.clear hh.visible)

/-- Returning to a process changes the registers and nothing else. -/
theorem ctxEntry {e : MemKernel σ → Except String (Leave σ)}
    {e₀ : Kernel Content → Except String (Kernel Content)} {left : Reg → BitVec 64}
    (h : SameResult (fun l => Sim M V live l.kernel) (e k.saveMepc) (e₀ k₀)) :
    SameResult (Sim M V live) (k.ctxEntry A e left) (ctxEntry e₀ k₀) := by
  unfold Grass.ctxEntry MemKernel.ctxEntry
  revert h
  generalize e k.saveMepc = x
  generalize e₀ k₀ = y
  intro h
  cases h with
  | @ok l k₁ h =>
    cases l with
    | returns k' => exact .ok ((Sim.withContext h _ _ _).note _)
    | enters k' => exact .ok ((Sim.withContext h _ _ _).note _)
  | error e => exact .error e

/-- The memories when the frame is saved. -/
def saved (A : AddressSpaces σ ℤ Op) (V : Memories) (k : MemKernel σ) : Memories :=
  V.blit (A.curr k.memory) ((k.hart.reg .sp - 112).toNat + 8) 104 (frame k.hart.reg)

/-- `ctx_start` saves the frame outside the area, so the kernel on areas does nothing. -/
theorem ctxStart (h : Sim M V live k k₀) (hf : HasFrame M k) :
    Sim M (saved A V k) live (k.ctxStart A) k₀ :=
  (h.writeOutside hf.maps hf.out).withContext _ _ _

/-- A trap: the frame is saved and the handler runs. -/
theorem trap {e : MemKernel σ → Except String (Leave σ)}
    {e₀ : Kernel Content → Except String (Kernel Content)} {left : Reg → BitVec 64}
    (h : Sim M V live k k₀) (hf : HasFrame M k)
    (he : ∀ {V k}, Sim M V live k k₀ →
      SameResult (fun l => Sim M V live l.kernel) (e k) (e₀ k₀)) :
    SameResult (Sim M (saved A V k) live) ((k.ctxStart A).ctxEntry A e left)
      (Grass.ctxEntry e₀ k₀) :=
  ctxEntry (he ((h.ctxStart hf).withContext _ _ _))

include M in
/-- The process that is killed saves its frame all the same. -/
theorem ctxStart_killCurr (hne : k.currPid ≠ -1) :
    (k.killCurr A).ctxStart A = (k.ctxStart A).killCurr A := by
  have hpid : (k.ctxStart A).currPid = k.currPid := rfl
  unfold MemKernel.killCurr MemKernel.procFree
  rw [hpid, if_pos hne, if_pos hne]
  simp only [MemKernel.ctxStart, MemKernel.procSetRunnable, MemKernel.procSetStatus,
    M.storeBytes_free]
  rfl

/-- Killing the current process is simulated; its memory is no longer known. -/
theorem killCurr (h : Sim M V live k k₀) (hf : M.Freeable k₀.currPid)
    (huser : k₀.currPid ≥ gpidUserStart) (hseen : ∀ p, V.seen p → p ≠ k₀.currPid) :
    Sim M V (fun p => live p ∧ p ≠ k₀.currPid) (k.killCurr A)
      (procSetRunnable (procFree k₀ k₀.currPid) gpidShell) := by
  have hne : k₀.currPid ≠ -1 := fun he => absurd (he ▸ huser) (by decide)
  have hfree : Sim M V (fun p => live p ∧ p ≠ k₀.currPid) (k.procFree A k.currPid)
      (procFree k₀ k₀.currPid) := by
    unfold MemKernel.procFree Grass.procFree
    rw [← h.currPid, if_pos hne, if_pos hne]
    exact (h.free hf hseen).procSetStatus _ .unused
  exact hfree.procSetStatus _ .runnable

/-- `excp_entry` is simulated. -/
theorem excpEntry (h : Sim M V live k k₀) (hh : Handles live k₀) (hf : HasFrame M k) (id : ℕ)
    (left : Reg → BitVec 64) :
    SameResult (Sim M (saved A V k) live) (k.excpEntry A id left) (excpEntry k₀ id) := by
  unfold MemKernel.excpEntry Grass.excpEntry
  have hcond : id = excpIdEcallU ∨ id = excpIdEcallS ∨ excpIdEcallM ≠ 0 :=
    Or.inr (Or.inr (by decide))
  rw [if_pos hcond, if_pos hcond]
  have hskip : Sim M V live k.skipEcall k₀ := h.withContext _ _ _
  exact hskip.trap ⟨hf.fits, hf.maps, hf.out⟩ fun h => h.procSyscall hh

/-- An interrupt that does not kill the current process. -/
theorem intrEntry (h : Sim M V live k k₀) (hh : Handles live k₀) (hf : HasFrame M k) {id : ℕ}
    {ttyRecvIntr : Bool} {left : Reg → BitVec 64}
    (hswitch : ¬ (id = intrIdTimer ∧ k.currPid < gpidShell))
    (hkill : ¬ (ttyRecvIntr = true ∧ k₀.currPid ≥ gpidUserStart)) :
    SameResult (Sim M (saved A V k) live) (k.intrEntry A id ttyRecvIntr left)
      (intrEntry k₀ id ttyRecvIntr) := by
  have hswitch₀ : ¬ (id = intrIdTimer ∧ k₀.currPid < gpidShell) := h.currPid ▸ hswitch
  unfold MemKernel.intrEntry Grass.intrEntry
  rw [if_neg hswitch, if_neg hswitch₀, ← h.currPid, if_neg hkill, if_neg hkill]
  by_cases hsoft : id = intrIdSoft
  · rw [if_pos hsoft, if_pos hsoft]
    exact h.trap hf fun h => h.procSyscall hh
  rw [if_neg hsoft, if_neg hsoft]
  by_cases htimer : id = intrIdTimer
  · rw [if_pos htimer, if_pos htimer]
    exact h.trap hf fun h => h.procYield
  · rw [if_neg htimer, if_neg htimer]
    exact .error _

/-- An interrupt that kills the current process. -/
theorem intrEntry_kill (h : Sim M V live k k₀) {id : ℕ} {left : Reg → BitVec 64}
    (hf : HasFrame M k) (hfree : M.Freeable k₀.currPid) (huser : k₀.currPid ≥ gpidUserStart)
    (hseen : ∀ p, V.seen p → p ≠ k₀.currPid) :
    SameResult (Sim M (saved A V k) fun p => live p ∧ p ≠ k₀.currPid)
      (k.intrEntry A id true left) (Grass.intrEntry k₀ id true) := by
  have hkernel : ¬ (id = intrIdTimer ∧ k₀.currPid < gpidShell) :=
    fun hc => absurd hc.2 (not_lt.2 (le_trans (by decide) huser))
  have hne : k.currPid ≠ -1 := fun he => absurd (he ▸ h.currPid ▸ huser) (by decide)
  unfold MemKernel.intrEntry Grass.intrEntry
  rw [← h.currPid, if_neg hkernel, if_neg hkernel, if_pos ⟨rfl, huser⟩, if_pos ⟨rfl, huser⟩,
    ctxStart_killCurr (M := M) hne]
  exact ctxEntry (((h.ctxStart hf).killCurr hfree huser hseen).withContext _ _ _).procYield

/-! ## `syscall.c` -/

/-- The content field after the `memcpy` of `sys_send`. -/
def sentContent (k₀ : Kernel Content) (msg : ℕ → UInt8) (size : ℕ) : Content :=
  fun j => if j.val < size then msg j else k₀.sc.msg.content j

/-- Filling the area leaves room for the frame, and has no part in it. -/
theorem frame_writeBytes (h : Sim M V live k k₀) (hl : live k₀.mmuPid) {a n : ℕ} {f : ℕ → UInt8}
    (ha : syscallArg ≤ a) (hn : a + n ≤ syscallArg + syscallSize) (hf : HasFrame M k) :
    HasFrame M (k.writeBytes A a n f) ∧ saved A V (k.writeBytes A a n f) = saved A V k := by
  have hst := h.stored hl f ha hn
  have hcurr : A.curr (k.writeBytes A a n f).memory = A.curr k.memory := hst.curr
  refine ⟨⟨hf.fits, fun j hj => ?_, hf.out⟩, ?_⟩
  · have hmaps : M.Maps (k.writeBytes A a n f).memory = M.Maps k.memory := hst.maps
    rw [hcurr, hmaps]
    exact hf.maps j hj
  · rw [saved, saved, hcurr]
    rfl

/-- `sys_send` is simulated. -/
theorem sysSend (h : Sim M V live k k₀) (hh : Handles live k₀) (hf : HasFrame M k) (receiver : ℤ)
    (msg : ℕ → UInt8) {size : ℕ} (hsize : size ≤ syscallMsgLen) (left : Reg → BitVec 64) :
    SameResult (Sim M (saved A V k) live) (k.sysSend A receiver msg size left)
      (sysSend k₀ (receiver.bmod (2 ^ 32)) (sentContent k₀ msg size)) := by
  have hlen : syscallMsgLen = 1024 := rfl
  have htotal : syscallSize = 1040 := rfl
  have h₁ := h.writeType hh.visible SyscallType.send.toInt
  have h₂ := h₁.writeReceiver hh.visible receiver
  have h₃ := h₂.writeContent hh.visible hsize msg
  obtain ⟨hf₁, hsaved₁⟩ := h.frame_writeBytes (n := 4) (f := intBytes SyscallType.send.toInt)
    hh.visible (le_refl _) (by omega) hf
  obtain ⟨hf₂, hsaved₂⟩ := h₁.frame_writeBytes (n := 4) (f := intBytes receiver) hh.visible
    (Nat.le_add_right _ 8) (by omega) hf₁
  obtain ⟨hf₃, hsaved₃⟩ := h₂.frame_writeBytes (n := size) (f := msg) hh.visible
    (Nat.le_add_right _ 12) (by omega) hf₂
  have htype : SyscallType.ofInt (SyscallType.send.toInt.bmod (2 ^ 32)) = .send := by decide
  simp only [Kernel.setSc, Kernel.sc, Function.update_self, Function.update_idem, htype] at h₃
  unfold MemKernel.sysSend Grass.sysSend sysInvoke
  rw [if_neg (by omega), ← hsaved₃.trans (hsaved₂.trans hsaved₁)]
  exact Sim.excpEntry h₃ (hh.congr rfl rfl rfl) hf₃ _ left

/-- `sys_recv` is simulated. -/
theorem sysRecv (h : Sim M V live k k₀) (hh : Handles live k₀) (hf : HasFrame M k) {size : ℕ}
    (hsize : size ≤ syscallMsgLen) (left : Reg → BitVec 64) :
    SameResult (Sim M (saved A V k) live) (k.sysRecv A size left) (sysRecv k₀) := by
  have htotal : syscallSize = 1040 := rfl
  have h₁ := h.writeType hh.visible SyscallType.recv.toInt
  obtain ⟨hf₁, hsaved₁⟩ := h.frame_writeBytes (n := 4) (f := intBytes SyscallType.recv.toInt)
    hh.visible (le_refl _) (by omega) hf
  have htype : SyscallType.ofInt (SyscallType.recv.toInt.bmod (2 ^ 32)) = .recv := by decide
  rw [htype] at h₁
  unfold MemKernel.sysRecv Grass.sysRecv sysInvoke
  rw [if_neg (by omega), ← hsaved₁]
  exact Sim.excpEntry h₁ (hh.congr rfl rfl rfl) hf₁ _ left

/-! ## `process.c` -/

/-- `proc_alloc` is simulated, with the same pid. -/
theorem procAlloc (h : Sim M V live k k₀) :
    SameResult (fun r r₀ => r.1 = r₀.1 ∧ Sim M V live r.2 r₀.2) k.procAlloc (procAlloc k₀) := by
  unfold MemKernel.procAlloc Grass.procAlloc
  rw [h.procSet, h.procNprocs]
  cases (List.finRange maxNprocess).find? fun i => (k.procSet i).status = .unused with
  | none => exact .error _
  | some i =>
    exact .ok ⟨rfl, rfl, h.procCurrIdx, rfl, h.mmuPid, h.inv, h.mapped, h.area, h.kept, h.maps⟩

/-- The table after one round of the loop of `proc_free`. -/
def freeSlot (procSet : Fin maxNprocess → Process) (i : Fin maxNprocess) :
    Fin maxNprocess → Process :=
  if (procSet i).pid ≥ gpidUserStart ∧ (procSet i).status ≠ .unused then
    Function.update procSet i { procSet i with status := .unused }
  else procSet

/-- One round of the loop of `proc_free` is simulated. -/
theorem freeUser (h : Sim M V live k k₀) (hf : ∀ p, p ≥ gpidUserStart → M.Freeable p)
    (hl : ∀ p, live p → p < gpidUserStart) (hseen : ∀ p, V.seen p → p < gpidUserStart)
    (i : Fin maxNprocess) :
    Sim M V live (k.freeUser A i) { k₀ with procSet := freeSlot k₀.procSet i } := by
  unfold MemKernel.freeUser freeSlot
  rw [h.procSet]
  by_cases hfree : (k.procSet i).pid ≥ gpidUserStart ∧ (k.procSet i).status ≠ .unused
  · rw [if_pos hfree, if_pos hfree]
    have hne : ∀ p, p < gpidUserStart → p ≠ (k.procSet i).pid := fun p hp he =>
      absurd hp (not_lt.2 (he ▸ hfree.1))
    have hmem := (h.free (hf _ hfree.1) fun p hp => hne p (hseen p hp)).mono fun p hp =>
      ⟨hp, hne p (hl p hp)⟩
    exact ⟨rfl, hmem.procCurrIdx, hmem.procNprocs, hmem.mmuPid, hmem.inv, hmem.mapped,
      hmem.area, hmem.kept, hmem.maps⟩
  · rw [if_neg hfree, if_neg hfree]
    exact ⟨rfl, h.procCurrIdx, h.procNprocs, h.mmuPid, h.inv, h.mapped, h.area, h.kept, h.maps⟩

/-- The loop of `proc_free`, round by round. -/
theorem freeUsers (hf : ∀ p, p ≥ gpidUserStart → M.Freeable p)
    (hl : ∀ p, live p → p < gpidUserStart) (hseen : ∀ p, V.seen p → p < gpidUserStart)
    (l : List (Fin maxNprocess)) (h : Sim M V live k k₀) :
    Sim M V live (l.foldl (fun k i => k.freeUser A i) k)
      { k₀ with procSet := l.foldl freeSlot k₀.procSet } := by
  induction l generalizing k k₀ with
  | nil => exact h
  | cons i l ih => exact ih (h.freeUser hf hl hseen i)

/-- A slot that has been freed is not freed again, so the rounds do not depend on each other. -/
theorem foldl_freeSlot (l : List (Fin maxNprocess)) (procSet : Fin maxNprocess → Process)
    (j : Fin maxNprocess) : l.foldl freeSlot procSet j
      = if j ∈ l ∧ (procSet j).pid ≥ gpidUserStart ∧ (procSet j).status ≠ .unused then
          { procSet j with status := .unused }
        else procSet j := by
  induction l generalizing procSet with
  | nil => simp
  | cons i l ih =>
    rw [List.foldl_cons, ih]
    unfold freeSlot
    by_cases hji : j = i
    · subst hji
      by_cases hfree : (procSet j).pid ≥ gpidUserStart ∧ (procSet j).status ≠ .unused
      · simp [hfree]
      · simp only [hfree, and_false, if_false]
    · by_cases hfree : (procSet i).pid ≥ gpidUserStart ∧ (procSet i).status ≠ .unused
      · simp [hfree, hji]
      · simp [hfree, hji]

/-- `proc_free(-1)` is simulated; the memories of user processes are no longer known. -/
theorem procFree_all (h : Sim M V live k k₀) (hf : ∀ p, p ≥ gpidUserStart → M.Freeable p)
    (hseen : ∀ p, V.seen p → p < gpidUserStart) :
    Sim M V (fun p => live p ∧ p < gpidUserStart) (k.procFree A (-1)) (procFree k₀ (-1)) := by
  have hall : ¬ ((-1 : ℤ) ≠ -1) := not_not.2 rfl
  have hlow : Sim M V (fun p => live p ∧ p < gpidUserStart) k k₀ := h.mono fun _ hp => hp.1
  have hfree := freeUsers hf (fun _ hp => hp.2) hseen (List.finRange maxNprocess) hlow
  have hset : (List.finRange maxNprocess).foldl freeSlot k₀.procSet
      = (procFree k₀ (-1)).procSet := by
    funext j
    rw [foldl_freeSlot, procFree, if_neg hall]
    simp only [List.mem_finRange, true_and]
  have heq : procFree k₀ (-1) = { k₀ with procSet := (procFree k₀ (-1)).procSet } := by
    rw [procFree, if_neg hall]
  rw [MemKernel.procFree, if_neg hall, heq, ← hset]
  exact hfree

/-- `proc_free` of one process is simulated; its memory is no longer known. -/
theorem procFree_one (h : Sim M V live k k₀) {pid : ℤ} (hf : M.Freeable pid) (hpid : pid ≠ -1)
    (hseen : ∀ p, V.seen p → p ≠ pid) :
    Sim M V (fun p => live p ∧ p ≠ pid) (k.procFree A pid) (procFree k₀ pid) := by
  unfold MemKernel.procFree Grass.procFree
  rw [if_pos hpid, if_pos hpid]
  exact (h.free hf hseen).procSetStatus _ .unused

end Sim

end Egos.Grass
