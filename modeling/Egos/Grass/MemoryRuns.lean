import Egos.Grass.MemoryRefinement
import Egos.Grass.SlotOrder

/-!
# Runs of the kernel on a memory system

Every step of the kernel on memory is a step of the kernel on areas or changes nothing there. The
areas of a run are given at its start, so the area of a process that has not started is left open
along the run: whatever is asked of it, there is a run that has it. When the process is set ready it
is asked to be what the memory holds.
-/

namespace Egos.Grass

open Riscv (Reg)

variable {σ Op : Type} {A : AddressSpaces σ ℤ Op} {M : PrivateMemories A}
  {x x' : MemMachine σ} {m m' : Machine Content} {V : Memories} {live : ℤ → Prop}

/-- The machine on memory and the machine on areas agree, and the latter is in order. -/
structure Follows (M : PrivateMemories A) (x : MemMachine σ) (m : Machine Content) : Prop where
  sim : Sim M (.at M x.kernel.memory) (Live m.kernel.procSet) x.kernel m.kernel
  allocated : m.allocated = x.allocated
  machine : MachineOk m
  stay : ServersStay m
  loads : LoadsOne m
  order : SlotOrder m
  bound : m.kernel.procNprocs < 2 ^ 31

/-- A machine that is followed is ready for its handlers. -/
theorem Follows.handles (h : Follows M x m) : Sim.Handles (Live m.kernel.procSet) m.kernel := by
  have hs := h.machine.scheduled
  refine ⟨fun _ hp => hp, hs.mmu, hs.live_curr, ?_⟩
  have hrange := hs.table.pid_range m.kernel.procCurrIdx
  have hbound := h.bound
  have hcurr : m.kernel.currPid = (m.kernel.procSet m.kernel.procCurrIdx).pid := rfl
  apply Int.bmod_eq_of_le <;> omega

/-- A step of the kernel on areas that the kernel on memory has followed. -/
theorem Follows.of_step {a : Action Content} (h : Follows M x m) (hstep : step m a = some m')
    (hone : a = .alloc → m.allocated = none) (hsim : Sim M V live x'.kernel m'.kernel)
    (hlive : ∀ p, Live m'.kernel.procSet p → live p) (halloc : m'.allocated = x'.allocated) :
    Follows M x' m' := by
  have hs := h.machine.scheduled
  refine ⟨(hsim.mono hlive).rebase, halloc, h.machine.step hstep, h.stay.step hs hstep,
    h.loads.step hs h.stay hone hstep, h.order.step hs h.loads h.stay hstep, ?_⟩
  have hbound := h.bound
  cases step_outcome hs hstep with
  | send ho | softSend ho => exact ho.procNprocs ▸ hbound
  | recv ho | softRecv ho => exact ho.procNprocs ▸ hbound
  | ignored _ => exact hbound
  | @killed _ next _ _ =>
    exact (yieldTo_procNprocs (Egos.Grass.killed m.kernel) next).symm ▸ hbound
  | @preempted _ next _ _ => exact (yieldTo_procNprocs m.kernel next).symm ▸ hbound
  | alloc _ hlt _ => exact hlt
  | setReady _ _ => exact hbound
  | free _ _ =>
    rw [procFree_eq]
    exact hbound

/-- `proc_free` of `pid` frees process `p`. -/
def Frees (pid p : ℤ) : Prop := if pid = -1 then p ≥ gpidUserStart else p = pid

/-- The memories of the processes after a step, but for their system-call areas: the process that is
visible saves its frame when it traps, and it can store. Processes whose memory is freed, or built
up, are left out. -/
def memoriesAfter (M : PrivateMemories A) (x : MemMachine σ) : MemAction Op → Memories
  | .send _ _ size _ | .recv size _ =>
    if size ≤ syscallMsgLen then Sim.saved A (.at M x.kernel.memory) x.kernel
    else .at M x.kernel.memory
  | .intr id ttyRecvIntr _ =>
    if id = intrIdTimer ∧ x.kernel.currPid < gpidShell then .at M x.kernel.memory
    else Sim.saved A ((Memories.at M x.kernel.memory).except fun p =>
      (ttyRecvIntr = true ∧ x.kernel.currPid ≥ gpidUserStart) ∧ p = x.kernel.currPid) x.kernel
  | .store a byte =>
    (Memories.at M x.kernel.memory).blit (A.curr x.kernel.memory) a 1 fun _ => byte
  | .free pid => (Memories.at M x.kernel.memory).except (Frees pid)
  | .perform op => (Memories.at M x.kernel.memory).except fun p => p = A.owner op
  | _ => .at M x.kernel.memory

/-- The processes have these memories, and those that are live have not been left out. -/
structure Keeps (M : PrivateMemories A) (x : MemMachine σ) (a : MemAction Op)
    (x' : MemMachine σ) : Prop where
  view : ∀ p, (memoriesAfter M x a).seen p → ∀ c, ¬ InArea c →
    M.view x'.kernel.memory p c = (memoriesAfter M x a).view p c
  maps : ∀ p, (memoriesAfter M x a).seen p → ∀ c, M.Maps x.kernel.memory p c →
    M.Maps x'.kernel.memory p c
  seen : ∀ p, Live x.kernel.procSet p → Live x'.kernel.procSet p → (memoriesAfter M x a).seen p

/-- The memories after a step are mapped as they were before it. -/
theorem memoriesAfter_maps (a : MemAction Op) :
    (memoriesAfter M x a).maps = M.Maps x.kernel.memory := by
  cases a with
  | send | recv | intr =>
    rw [memoriesAfter]
    split <;> rfl
  | store | alloc | setReady | free | compute | perform => rfl

/-- What a step of the kernel on memory is for the kernel on areas: nothing, or a step that is an
interrupt only if it was one. -/
inductive Matched (M : PrivateMemories A) (x : MemMachine σ) (a : MemAction Op)
    (x' : MemMachine σ) (m : Machine Content) : Prop
  | stutter : Follows M x' m → Keeps M x a x' → Matched M x a x' m
  | step {a₀ : Action Content} {m' : Machine Content} : step m a₀ = some m' → Follows M x' m' →
      Keeps M x a x' → (∀ id b, a₀ = .intr id b → ∃ left, a = .intr id b left) →
      Matched M x a x' m

/-- A step that has been followed is matched. -/
theorem Follows.matched_of_step {a : MemAction Op} {a₀ : Action Content} (h : Follows M x m)
    (hstep : step m a₀ = some m') (hone : a₀ = .alloc → m.allocated = none)
    (hsim : Sim M (memoriesAfter M x a) live x'.kernel m'.kernel)
    (hlive : ∀ p, Live m'.kernel.procSet p → live p)
    (hseen : ∀ p, Live m'.kernel.procSet p → (memoriesAfter M x a).seen p)
    (halloc : m'.allocated = x'.allocated)
    (hintr : ∀ id b, a₀ = .intr id b → ∃ left, a = .intr id b left) : Matched M x a x' m := by
  refine .step hstep (h.of_step hstep hone hsim hlive halloc) ⟨hsim.kept, fun p hp c hc => ?_,
    fun p _ hp' => ?_⟩ hintr
  · refine hsim.maps p hp c ?_
    rw [memoriesAfter_maps]
    exact hc
  · rw [← hsim.procSet] at hp'
    exact hseen p hp'

/-- A system call or an interrupt that does not kill. -/
theorem Follows.matched {a : MemAction Op} {r : Except String (MemKernel σ)}
    {r₀ : Except String (Kernel Content)} (h : Follows M x m) (a₀ : Action Content)
    (hsame : SameResult (Sim M (memoriesAfter M x a) (Live m.kernel.procSet)) r r₀)
    (hstep₀ : step m a₀ = r₀.toOption.map fun k => { m with kernel := k })
    (hstep : (r.toOption.map fun k => ({ x with kernel := k } : MemMachine σ)) = some x')
    (hseen : ∀ p, (memoriesAfter M x a).seen p)
    (halloc : a₀ ≠ .alloc) (hready : ∀ pid, a₀ ≠ .setReady pid)
    (hintr : ∀ id b, a₀ = .intr id b → ∃ left, a = .intr id b left) : Matched M x a x' m := by
  obtain ⟨k', hk', rfl⟩ := Option.map_eq_some_iff.1 hstep
  obtain ⟨k₀', hk₀', hsim⟩ := hsame.of_ok (eq_ok_of_toOption hk')
  rw [hk₀'] at hstep₀
  have hs := h.machine.scheduled
  obtain ⟨hnone, -⟩ := h.loads.startsNone_step hs h.stay halloc hready hstep₀
  exact h.matched_of_step hstep₀ (fun he => absurd he halloc) hsim (fun _ => hnone.live)
    (fun p _ => hseen p) h.allocated hintr

/-- After a kill the process that was killed is not live. -/
theorem live_killed {k : Kernel Content} {next : Fin maxNprocess} {p : ℤ} (hs : Scheduled k)
    (huser : k.currPid ≥ gpidUserStart) (hnext : nextIdx (killed k) = some next)
    (hp : Live (returnTo (yieldTo (killed k) next)).procSet p) : p ≠ k.currPid := by
  obtain ⟨i, hpid, hstart⟩ := hp
  have hnone := startsNone_yieldTo hnext
  have hstart' := hnone.started hstart
  rw [hnone.pid, killed_pid] at hpid
  rintro rfl
  have hi : i = k.procCurrIdx :=
    (hs.table.pid_inj _ _ (hs.table.pid_ne_zero hs.curr_used) hpid.symm).symm
  have hshell : (k.procSet i).pid ≠ gpidShell := by
    rw [hpid]
    exact fun he => absurd (he ▸ huser) (by decide)
  rw [killed_status, if_neg hshell, if_pos hi] at hstart'
  cases hstart'

/-- Ctrl+C on a user process is matched. -/
theorem Follows.matched_kill {id : ℕ} {left : Reg → BitVec 64} (h : Follows M x m)
    (hf : ∀ p, p ≥ gpidUserStart → M.Freeable p) (hframe : HasFrame M x.kernel)
    (huser : m.kernel.currPid ≥ gpidUserStart)
    (hstep : memStep A x (.intr id true left) = some x') :
    Matched M x (.intr id true left) x' m := by
  have hs := h.machine.scheduled
  obtain ⟨k', hk', rfl⟩ := Option.map_eq_some_iff.1 hstep
  have hkill : true = true ∧ x.kernel.currPid ≥ gpidUserStart := ⟨rfl, h.sim.currPid ▸ huser⟩
  obtain ⟨k₀', hk₀', hsim⟩ :=
    ((h.sim.except fun p => (true = true ∧ x.kernel.currPid ≥ gpidUserStart) ∧
      p = x.kernel.currPid).intrEntry_kill hframe (hf _ huser) huser fun p hp he =>
        hp.2 ⟨hkill, he.trans h.sim.currPid⟩).of_ok (eq_ok_of_toOption hk')
  have hstep₀ : step m (.intr id true) = some ⟨k₀', m.allocated⟩ := by
    rw [step, hk₀']
    rfl
  have hkernel : ¬ (id = intrIdTimer ∧ m.kernel.currPid < gpidShell) :=
    fun hc => absurd hc.2 (not_lt.2 (le_trans (by decide) huser))
  rw [intrEntry, if_neg hkernel, if_pos ⟨rfl, huser⟩, killCurr, procFree_curr hs huser] at hk₀'
  obtain ⟨next, hnext, rfl⟩ := ctxEntry_procYield hs.killed.1 hk₀'
  have hnone := (h.loads.startsNone_killed hs h.stay huser).trans (startsNone_yieldTo hnext)
  have hafter : memoriesAfter M x (.intr id true left)
      = Sim.saved A ((Memories.at M x.kernel.memory).except fun p =>
        (true = true ∧ x.kernel.currPid ≥ gpidUserStart) ∧ p = x.kernel.currPid) x.kernel :=
    if_neg (h.sim.currPid ▸ hkernel)
  rw [← hafter] at hsim
  refine h.matched_of_step hstep₀ (by simp) hsim (fun p hp => ?_) (fun p hp => ?_) h.allocated ?_
  · exact ⟨hnone.live hp, live_killed hs huser hnext hp⟩
  · rw [hafter]
    exact ⟨trivial, fun hc => live_killed hs huser hnext hp (hc.2.trans h.sim.currPid.symm)⟩
  · rintro _ _ ⟨⟩
    exact ⟨left, rfl⟩

/-- A new process has not started. -/
theorem live_of_alloc {p : ℤ} (hs : Scheduled m.kernel) (hstep : step m .alloc = some m')
    (hp : Live m'.kernel.procSet p) : Live m.kernel.procSet p := by
  cases step_outcome hs hstep with
  | @alloc i _ _ _ =>
    obtain ⟨j, hj, hstart⟩ := hp
    rw [allocated_procSet] at hj hstart
    split at hstart
    · cases hstart
    · rename_i hne
      rw [if_neg hne] at hj
      exact ⟨j, hj, hstart⟩

/-- A process that has started once is not started again. -/
theorem live_of_step {a : Action Content} {p : ℤ} (h : Follows M x m)
    (hstep : Grass.step m a = some m') (hp : ¬ NotStarted m p) (hlive : Live m'.kernel.procSet p) :
    Live m.kernel.procSet p := by
  have hs := h.machine.scheduled
  by_cases halloc : a = .alloc
  · subst halloc
    exact live_of_alloc hs hstep hlive
  by_cases hready : ∃ pid, a = .setReady pid
  · obtain ⟨pid, rfl⟩ := hready
    cases step_outcome hs hstep with
    | setReady _ hpid =>
      obtain ⟨j, hj, hstart⟩ := hlive
      have hset : (procSetReady m.kernel pid).procSet j = if (m.kernel.procSet j).pid = pid then
        { m.kernel.procSet j with status := .ready } else m.kernel.procSet j := rfl
      rw [hset] at hj hstart
      split at hj
      · rename_i heq
        exact absurd (Or.inr (hpid.trans (congrArg some (heq.symm.trans hj)))) hp
      · rename_i hne
        rw [if_neg hne] at hstart
        exact ⟨j, hj, hstart⟩
  · exact (h.loads.startsNone_step hs h.stay halloc (fun pid he => hready ⟨pid, he⟩) hstep).1.live
      hlive

/-- `proc_alloc` is matched. -/
theorem Follows.matched_alloc (h : Follows M x m) (hstep : memStep A x .alloc = some x') :
    Matched M x .alloc x' m := by
  have hs := h.machine.scheduled
  rw [memStep] at hstep
  split at hstep
  · rename_i hguard
    obtain ⟨hcurr, hnone, hlt⟩ := hguard
    obtain ⟨r, hr, rfl⟩ := Option.map_eq_some_iff.1 hstep
    obtain ⟨r₀, hr₀, hpid, hsim⟩ := h.sim.procAlloc.of_ok (eq_ok_of_toOption hr)
    have hstep₀ : step m .alloc = some ⟨r₀.2, some r₀.1⟩ := by
      rw [step, if_pos ⟨h.sim.currPid.trans hcurr, by rw [h.sim.procNprocs]; exact hlt⟩, hr₀]
      rfl
    exact h.matched_of_step hstep₀ (fun _ => h.allocated.trans hnone) hsim
      (fun _ => live_of_alloc hs hstep₀) (fun _ _ => trivial) (congrArg some hpid.symm)
      (by rintro _ _ ⟨⟩)
  · cases hstep

/-- `proc_set_ready` is matched. -/
theorem Follows.matched_setReady {pid : ℤ} (h : Follows M x m)
    (hmapped : HasArea M x.kernel.memory pid)
    (harea : m.kernel.area pid = syscallAt (M.view x.kernel.memory pid))
    (hstep : memStep A x (.setReady pid) = some x') : Matched M x (.setReady pid) x' m := by
  rw [memStep] at hstep
  split at hstep
  · rename_i hguard
    obtain ⟨hcurr, halloc⟩ := hguard
    cases hstep
    have hstep₀ : step m (.setReady pid) = some ⟨procSetReady m.kernel pid, none⟩ := by
      rw [step, if_pos ⟨h.sim.currPid.trans hcurr, h.allocated.trans halloc⟩]
    have hready := h.sim.procSetStatus pid .ready
    have hsim : Sim M (.at M x.kernel.memory) (fun p => Live m.kernel.procSet p ∨ p = pid)
        (x.kernel.procSetReady pid) (procSetReady m.kernel pid) := by
      refine ⟨hready.procSet, hready.procCurrIdx, hready.procNprocs, hready.mmuPid, hready.inv,
        fun p hp => ?_, fun p hp => ?_, fun _ _ _ _ => rfl, fun _ _ _ ha => ha⟩
      · rcases hp with hp | rfl
        · exact hready.mapped p hp
        · exact hmapped
      · rcases hp with hp | rfl
        · exact hready.area p hp
        · exact harea
    refine h.matched_of_step hstep₀ (by simp) hsim (fun p hp => ?_) (fun _ _ => trivial) rfl
      (by rintro _ _ ⟨⟩)
    obtain ⟨j, hj, hstart⟩ := hp
    have hset : (procSetReady m.kernel pid).procSet j = if (m.kernel.procSet j).pid = pid then
        { m.kernel.procSet j with status := .ready } else m.kernel.procSet j := rfl
    rw [hset] at hj hstart
    split at hj
    · exact Or.inr (hj.symm.trans ‹_›)
    · rename_i hne
      rw [if_neg hne] at hstart
      exact Or.inl ⟨j, hj, hstart⟩
  · cases hstep

/-- `proc_free` is matched. -/
theorem Follows.matched_free {pid : ℤ} (h : Follows M x m)
    (hf : ∀ p, p ≥ gpidUserStart → M.Freeable p)
    (hstep : memStep A x (.free pid) = some x') : Matched M x (.free pid) x' m := by
  have hs := h.machine.scheduled
  rw [memStep] at hstep
  split at hstep
  · rename_i hguard
    obtain ⟨hcurr, -, hpid⟩ := hguard
    cases hstep
    have hstep₀ : step m (.free pid) = some { m with kernel := procFree m.kernel pid } := by
      rw [step, if_pos ⟨h.sim.currPid.trans hcurr, hpid⟩]
    have hnot : ∀ p, Live (procFree m.kernel pid).procSet p → ¬ Frees pid p := by
      rintro p ⟨i, hi, hstart⟩
      rw [procFree_procSet] at hi hstart
      split at hstart
      · cases hstart
      · rename_i hne
        rw [if_neg hne] at hi
        subst hi
        exact hne
    have hlive := fun p => (startsNone_procFree m.kernel pid).live (p := p)
    have hexcept := h.sim.except (Frees pid)
    by_cases hall : pid = -1
    · subst hall
      have hlow : ∀ p, ¬ Frees (-1) p → p < gpidUserStart := fun p hp => not_le.1 hp
      exact h.matched_of_step hstep₀ (by simp)
        (hexcept.procFree_all hf fun p hp => hlow p hp.2)
        (fun p hp => ⟨hlive _ hp, hlow p (hnot p hp)⟩) (fun p hp => ⟨trivial, hnot p hp⟩)
        h.allocated (by rintro _ _ ⟨⟩)
    · have hother : ∀ p, ¬ Frees pid p → p ≠ pid := fun p hp => by rwa [Frees, if_neg hall] at hp
      exact h.matched_of_step hstep₀ (by simp)
        (hexcept.procFree_one (hf pid (hpid.resolve_right hall)) hall fun p hp => hother p hp.2)
        (fun p hp => ⟨hlive _ hp, hother p (hnot p hp)⟩) (fun p hp => ⟨trivial, hnot p hp⟩)
        h.allocated (by rintro _ _ ⟨⟩)
  · cases hstep

/-- A store outside the system-call area. -/
theorem Follows.matched_store {a : ℕ} {byte : UInt8} (h : Follows M x m)
    (hmaps : M.Maps x.kernel.memory (A.curr x.kernel.memory) a) (hout : ¬ InArea a)
    (hstep : memStep A x (.store a byte) = some x') : Matched M x (.store a byte) x' m := by
  cases hstep
  have hzero : ∀ j, j < 1 → a + j = a := fun j hj => by omega
  have hsim := h.sim.writeOutside (n := 1) (f := fun _ => byte)
    (fun j hj => (hzero j hj).symm ▸ hmaps) (fun j hj => (hzero j hj).symm ▸ hout)
  refine .stutter ⟨hsim.rebase, h.allocated, h.machine, h.stay, h.loads, h.order, h.bound⟩
    ⟨hsim.kept, hsim.maps, fun _ _ _ => trivial⟩

/-- Work on the memory of the process that is being loaded. -/
theorem Follows.matched_perform {op : Op} {s : σ} (h : Follows M x m)
    (hok : M.Ok x.kernel.memory op)
    (howner : x.allocated = some (A.owner op)) (hs : A.perform x.kernel.memory op = some s) :
    Matched M x (.perform op) { x with kernel := { x.kernel with memory := s } } m := by
  have hsim := h.sim
  have hne : ∀ p, Live m.kernel.procSet p → p ≠ A.owner op := fun p hp =>
    (h.loads.ne_of_live h.machine.scheduled.table hp (Or.inr (h.allocated.trans howner))).symm
  have hcurr : A.owner op ≠ A.curr x.kernel.memory := by
    rw [← hsim.mmuPid]
    exact (hne _ (h.handles.mmu ▸ h.handles.curr)).symm
  refine .stutter ⟨⟨hsim.procSet, hsim.procCurrIdx, hsim.procNprocs,
    hsim.mmuPid.trans (M.curr_perform hsim.inv hok hcurr hs).symm,
    M.inv_perform hsim.inv hok hcurr hs, fun p hp j hj => ?_, fun p hp => ?_,
    fun _ _ _ _ => rfl, fun _ _ _ ha => ha⟩, h.allocated, h.machine, h.stay, h.loads, h.order,
    h.bound⟩
    ⟨fun p hp c _ => ?_, fun p hp c hc => ?_, fun p hp _ => ⟨trivial, ?_⟩⟩
  · exact M.maps_perform hsim.inv hok hcurr hs (hne p hp) (hsim.mapped p hp j hj)
  · change m.kernel.area p = syscallAt (M.view s p)
    rw [M.view_perform hsim.inv hok hcurr hs (hne p hp)]
    exact hsim.area p hp
  · change M.view s p c = M.view x.kernel.memory p c
    rw [M.view_perform hsim.inv hok hcurr hs hp.2]
  · exact M.maps_perform hsim.inv hok hcurr hs hp.2 hc
  · rw [← hsim.procSet] at hp
    exact hne p hp

/-- Every step is matched, if the area of a process that is set ready is that of its memory. -/
theorem Follows.step {a : MemAction Op} (h : Follows M x m)
    (hf : ∀ p, p ≥ gpidUserStart → M.Freeable p) (hok : MemOk M x a)
    (harea : ∀ pid, a = .setReady pid →
      m.kernel.area pid = syscallAt (M.view x.kernel.memory pid))
    (hstep : memStep A x a = some x') : Matched M x a x' m := by
  cases a with
  | send receiver msg size left =>
    by_cases hsize : size ≤ syscallMsgLen
    · refine h.matched (.send (receiver.bmod (2 ^ 32)) (Sim.sentContent m.kernel msg size)) ?_ rfl
        hstep ?_ (by simp) (by simp) (by simp)
      · rw [memoriesAfter, if_pos hsize]
        exact h.sim.sysSend h.handles hok receiver msg hsize left
      · rw [memoriesAfter, if_pos hsize]
        exact fun _ => trivial
    · rw [memStep, MemKernel.sysSend, if_pos (not_le.1 hsize)] at hstep
      cases hstep
      exact .stutter h ⟨fun _ _ _ _ => by rw [memoriesAfter, if_neg hsize]; rfl,
        fun _ _ _ hc => hc, fun _ _ _ => by rw [memoriesAfter, if_neg hsize]; trivial⟩
  | recv size left =>
    by_cases hsize : size ≤ syscallMsgLen
    · refine h.matched .recv ?_ rfl hstep ?_ (by simp) (by simp) (by simp)
      · rw [memoriesAfter, if_pos hsize]
        exact h.sim.sysRecv h.handles hok hsize left
      · rw [memoriesAfter, if_pos hsize]
        exact fun _ => trivial
    · rw [memStep, MemKernel.sysRecv, if_pos (not_le.1 hsize)] at hstep
      cases hstep
      exact .stutter h ⟨fun _ _ _ _ => by rw [memoriesAfter, if_neg hsize]; rfl,
        fun _ _ _ hc => hc, fun _ _ _ => by rw [memoriesAfter, if_neg hsize]; trivial⟩
  | intr id ttyRecvIntr left =>
    by_cases hkernel : id = intrIdTimer ∧ x.kernel.currPid < gpidShell
    · rw [memStep, MemKernel.intrEntry, if_pos hkernel] at hstep
      cases hstep
      exact .stutter h ⟨fun _ _ _ _ => by rw [memoriesAfter, if_pos hkernel]; rfl,
        fun _ _ _ hc => hc, fun _ _ _ => by rw [memoriesAfter, if_pos hkernel]; trivial⟩
    by_cases hkill : ttyRecvIntr = true ∧ m.kernel.currPid ≥ gpidUserStart
    · obtain ⟨rfl, huser⟩ := hkill
      exact h.matched_kill hf hok huser hstep
    · refine h.matched (.intr id ttyRecvIntr) ?_ rfl hstep ?_ (by simp) (by simp) ?_
      · rw [memoriesAfter, if_neg hkernel]
        exact (h.sim.except _).intrEntry h.handles hok hkernel hkill
      · rw [memoriesAfter, if_neg hkernel]
        exact fun p => ⟨trivial, fun hc => hkill (h.sim.currPid ▸ hc.1)⟩
      · rintro _ _ ⟨⟩
        exact ⟨left, rfl⟩
  | alloc => exact h.matched_alloc hstep
  | setReady pid => exact h.matched_setReady hok (harea pid rfl) hstep
  | free pid => exact h.matched_free hf hstep
  | store a byte => exact h.matched_store hok.1 hok.2 hstep
  | compute hart =>
    cases hstep
    exact .stutter ⟨h.sim.withContext _ _ _, h.allocated, h.machine, h.stay, h.loads, h.order,
      h.bound⟩
      ⟨fun _ _ _ _ => rfl, fun _ _ _ hc => hc, fun _ _ _ => trivial⟩
  | perform op =>
    rw [memStep] at hstep
    split at hstep
    · rename_i hguard
      obtain ⟨s, hs, rfl⟩ := Option.map_eq_some_iff.1 hstep
      exact h.matched_perform hok hguard.2 hs
    · cases hstep

/-! ## Whole runs -/

/-- Interrupts are timer interrupts, and none of them kills a process. -/
def NoKillMem (x : MemMachine σ) : MemAction Op → Prop
  | .intr id ttyRecvIntr _ =>
    id = intrIdTimer ∧ (ttyRecvIntr = true → x.kernel.currPid < gpidUserStart)
  | _ => True

/-- A step that kills nothing is matched by one that kills nothing. -/
theorem Follows.noKill {a : MemAction Op} {a₀ : Action Content} (h : Follows M x m)
    (hquiet : NoKillMem x a) (hintr : ∀ id b, a₀ = .intr id b → ∃ left, a = .intr id b left) :
    NoKill m a₀ := by
  cases a₀ with
  | intr id b =>
    obtain ⟨left, rfl⟩ := hintr id b rfl
    refine ⟨hquiet.1, fun hb => ?_⟩
    rw [h.sim.currPid]
    exact hquiet.2 hb
  | send | recv | alloc | setReady | free => trivial

/-- The memory system when the kernel jumps to the entry of `GPID_PROCESS`. -/
structure BootsOn (M : PrivateMemories A) (s : σ) : Prop where
  freeable : ∀ p, p ≥ gpidUserStart → M.Freeable p
  inv : M.Inv s
  curr : A.curr s = gpidProcess
  mapped : HasArea M s gpidProcess

/-- A machine that boots with the area of `GPID_PROCESS` is followed. -/
theorem follows_boot {s : σ} {hart : Context} {area : ℤ → Syscall Content} (hb : BootsOn M s)
    (harea : area gpidProcess = syscallAt (M.view s gpidProcess)) :
    Follows M (bootMem s hart) (bootMachine area) := by
  have hlive : ∀ p, Live (bootMachine area).kernel.procSet p → p = gpidProcess := by
    rintro p ⟨i, hi, hstart⟩
    simp only [bootMachine, boot] at hi hstart
    split at hi
    · exact hi.symm
    · rename_i hne
      rw [if_neg hne] at hstart
      cases hstart
  refine ⟨⟨rfl, rfl, rfl, hb.curr.symm, hb.inv, fun p hp => ?_, fun p hp => ?_,
    fun _ _ _ _ => rfl, fun _ _ _ ha => ha⟩, rfl, machineOk_boot area, serversStay_boot area,
    loadsOne_boot area, slotOrder_boot area, (show (1 : ℤ) < 2 ^ 31 by decide)⟩
  · rw [hlive p hp]
    exact hb.mapped
  · rw [hlive p hp]
    exact harea

/-- `proc_set_ready` ends the loading of a process. -/
theorem memStep_setReady {pid : ℤ} (hstep : memStep A x (.setReady pid) = some x') :
    x.allocated = some pid ∧ x'.allocated = none ∧
      x'.kernel.procNprocs = x.kernel.procNprocs := by
  rw [memStep] at hstep
  split at hstep
  · rename_i hguard
    cases hstep
    exact ⟨hguard.2, rfl, rfl⟩
  · cases hstep

/-- A process that has been set ready has started. -/
theorem Follows.started_of_setReady {pid : ℤ} (h : Follows M x m) (h' : Follows M x' m')
    (hstep : memStep A x (.setReady pid) = some x') : ¬ NotStarted m' pid := by
  obtain ⟨hsome, hnone, hnprocs⟩ := memStep_setReady hstep
  have hlast : pid = m.kernel.procNprocs := h.stay.last pid (h.allocated.trans hsome)
  rintro (hlt | hpid)
  · rw [h'.sim.procNprocs, hnprocs, ← h.sim.procNprocs, ← hlast] at hlt
    exact lt_irrefl _ hlt
  · rw [h'.allocated, hnone] at hpid
    cases hpid

/-- For every run on memory, and whatever `g` asks of the areas of processes that have not started,
there is a run of the kernel on areas that agrees with it. -/
theorem exists_run_on_areas {quiet : Prop} {s : σ} {hart : Context} (hb : BootsOn M s)
    (h : Reach (memStep A) (fun x a => MemOk M x a ∧ (quiet → NoKillMem x a)) (bootMem s hart) x)
    (g : ℤ → Syscall Content) :
    ∃ (area : ℤ → Syscall Content) (m : Machine Content),
      Reach step (fun m a => quiet → NoKill m a) (bootMachine area) m ∧ Follows M x m ∧
        ∀ p, NotStarted m p → m.kernel.area p = g p := by
  classical
  induction h generalizing g with
  | init =>
    refine ⟨Function.update g gpidProcess (syscallAt (M.view s gpidProcess)), _, .init,
      follows_boot hb (Function.update_self _ _ _), fun p hp => ?_⟩
    refine Function.update_of_ne ?_ _ _
    rintro rfl
    rcases hp with hlt | hsome
    · exact lt_irrefl _ hlt
    · cases hsome
  | @step x x' a _ hok hnext ih =>
    -- a process that is set ready now is asked to have the area that is in its memory
    obtain ⟨area, m, hreach, hfollows, hg⟩ := ih fun p =>
      if a = .setReady p then syscallAt (M.view x.kernel.memory p) else g p
    have hready : ∀ pid, a = .setReady pid →
        m.kernel.area pid = syscallAt (M.view x.kernel.memory pid) := by
      rintro pid rfl
      rw [hg pid (Or.inr (hfollows.allocated.trans (memStep_setReady hnext).1)), if_pos rfl]
    have hrest : ∀ {m'}, Follows M x' m' → ∀ p, NotStarted m' p → NotStarted m p →
        m.kernel.area p = g p := by
      intro m' hfollows' p hp' hp
      rw [hg p hp, if_neg]
      rintro rfl
      exact hfollows.started_of_setReady hfollows' hnext hp'
    cases hfollows.step hb.freeable hok.1 hready hnext with
    | stutter hfollows' _ =>
      exact ⟨area, m, hreach, hfollows', fun p hp => hrest hfollows' p hp hp⟩
    | @step a₀ m' hstep hfollows' _ hintr =>
      refine ⟨area, m', .step hreach (fun hq => hfollows.noKill (hok.2 hq) hintr) hstep, hfollows',
        fun p hp => ?_⟩
      have hs := hfollows.machine.scheduled
      have hbefore := hp.of_step hs hfollows.loads hfollows.stay hstep
      rw [hfollows.loads.area_step hs hbefore hstep]
      exact hrest hfollows' p hp hbefore

/-- Every step from a state that is reached is matched. -/
theorem exists_matched {a : MemAction Op} {s : σ} {hart : Context} (hb : BootsOn M s)
    (h : Reach (memStep A) (MemOk M) (bootMem s hart) x) (hok : MemOk M x a)
    (hstep : memStep A x a = some x') : ∃ m, Follows M x m ∧ Matched M x a x' m := by
  obtain ⟨area, m, -, hfollows, hg⟩ := exists_run_on_areas hb
    (h.mono fun _ _ hok => ⟨hok, False.elim⟩) fun p => syscallAt (M.view x.kernel.memory p)
  refine ⟨m, hfollows, hfollows.step hb.freeable hok ?_ hstep⟩
  rintro pid rfl
  exact hg pid (Or.inr (hfollows.allocated.trans (memStep_setReady hstep).1))

end Egos.Grass
