import Egos.Grass.Kills

/-!
# Which processes have started

A process starts when `GPID_PROCESS` sets it ready. When `GPID_PROCESS` loads one process at a time,
nothing else starts one: the kernel marks a slot as runnable, waiting or running only if its process
has started, also when it wakes the shell after a kill. Until then the kernel leaves the system-call
area of the process alone.
-/

namespace Egos.Grass

variable {M : Type} {k k' k'' : Kernel M} {m m' : Machine M}

/-- A process with this status has been set ready and has not been freed. -/
def ProcStatus.started : ProcStatus → Bool
  | .unused | .loading => false
  | _ => true

/-- The pids of the processes that have started. -/
def Live (procSet : Fin maxNprocess → Process) (p : ℤ) : Prop :=
  ∃ i, (procSet i).pid = p ∧ (procSet i).status.started = true

/-- A process that can run has started. -/
theorem ProcStatus.started_of_canRun {s : ProcStatus} (h : s.canRun = true) :
    s.started = true := by
  cases s <;> first | rfl | cases h

/-- A process that has not started is loading, or its slot is not in use. -/
theorem ProcStatus.started_iff {s : ProcStatus} :
    s.started = true ↔ s ≠ .unused ∧ s ≠ .loading := by
  cases s <;> decide

/-- The current process has started. -/
theorem Scheduled.live_curr (h : Scheduled k) : Live k.procSet k.currPid := by
  refine ⟨k.procCurrIdx, rfl, ?_⟩
  rw [show (k.procSet k.procCurrIdx).status = .running from h.running]
  rfl

/-! ## Changes that start no process -/

/-- A change of the table that starts no process: it frees slots, and moves others from one status
to another after they have started. -/
structure StartsNone (k k' : Kernel M) : Prop where
  nprocs : k'.procNprocs = k.procNprocs
  pid : ∀ i, (k'.procSet i).pid = (k.procSet i).pid
  status : ∀ i, (k'.procSet i).status = .unused ∨
    (k'.procSet i).status = (k.procSet i).status ∨
    ((k.procSet i).status.started = true ∧ (k'.procSet i).status.started = true)

/-- Two changes that start no process, one after the other. -/
theorem StartsNone.trans (h : StartsNone k k') (h' : StartsNone k' k'') : StartsNone k k'' := by
  refine ⟨h'.nprocs.trans h.nprocs, fun i => (h'.pid i).trans (h.pid i), fun i => ?_⟩
  rcases h'.status i with hun | heq | ⟨hstart, hstart'⟩
  · exact Or.inl hun
  · rw [heq]
    exact h.status i
  · rcases h.status i with hun | heq | ⟨hfirst, -⟩
    · rw [hun] at hstart
      cases hstart
    · exact Or.inr (Or.inr ⟨heq ▸ hstart, hstart'⟩)
    · exact Or.inr (Or.inr ⟨hfirst, hstart'⟩)

/-- A slot that has started afterwards had started before. -/
theorem StartsNone.started (h : StartsNone k k') {i : Fin maxNprocess}
    (hi : (k'.procSet i).status.started = true) : (k.procSet i).status.started = true := by
  rcases h.status i with hun | heq | ⟨hstart, -⟩
  · rw [hun] at hi
    cases hi
  · exact heq ▸ hi
  · exact hstart

/-- A process that has started afterwards had started before. -/
theorem StartsNone.live (h : StartsNone k k') {p : ℤ} (hp : Live k'.procSet p) :
    Live k.procSet p := by
  obtain ⟨i, hpid, hstart⟩ := hp
  exact ⟨i, (h.pid i).symm.trans hpid, h.started hstart⟩

/-- A slot that is loading was loading before. -/
theorem StartsNone.loading (h : StartsNone k k') {i : Fin maxNprocess}
    (hi : (k'.procSet i).status = .loading) : (k.procSet i).status = .loading := by
  rcases h.status i with hun | heq | ⟨-, hstart⟩
  · rw [hun] at hi
    cases hi
  · exact heq.symm.trans hi
  · rw [hi] at hstart
    cases hstart

/-- One slot moves after its process has started. -/
theorem StartsNone.of_slot {i : Fin maxNprocess} {status : ProcStatus}
    {receiverPid : Fin maxNprocess → ℤ} (hn : k'.procNprocs = k.procNprocs)
    (hset : ∀ j, k'.procSet j
      = if j = i then ⟨(k.procSet j).pid, status, receiverPid j⟩ else k.procSet j)
    (hi : (k.procSet i).status.started = true) (hstatus : status.started = true) :
    StartsNone k k' := by
  refine ⟨hn, fun j => ?_, fun j => ?_⟩
  · rw [hset]
    split <;> rfl
  · rw [hset]
    split
    · rename_i hj
      exact Or.inr (Or.inr ⟨hj ▸ hi, hstatus⟩)
    · exact Or.inr (Or.inl rfl)

/-- `proc_yield` starts no process. -/
theorem startsNone_yieldTo {next : Fin maxNprocess} (hnext : nextIdx k = some next) :
    StartsNone k (returnTo (yieldTo k next)) := by
  refine ⟨yieldTo_procNprocs k next, yieldTo_pid k next, fun j => ?_⟩
  have hstatus : ((returnTo (yieldTo k next)).procSet j).status = _ := yieldTo_status k next j
  rw [hstatus]
  split_ifs with hj hcurr
  · rw [hj]
    exact Or.inr (Or.inr ⟨ProcStatus.started_of_canRun (nextIdx_canRun hnext), rfl⟩)
  · rw [hcurr.1, show (k.procSet k.procCurrIdx).status = .running from hcurr.2]
    exact Or.inr (Or.inr ⟨rfl, rfl⟩)
  · exact Or.inr (Or.inl rfl)

/-- `sys_send` starts no process. -/
theorem SendOutcome.startsNone {r : ℤ} {c : M} (h : Scheduled k) (ho : SendOutcome k r c k') :
    StartsNone k k' := by
  have hcurr : (k.procSet k.procCurrIdx).status.started = true := by
    rw [show (k.procSet k.procCurrIdx).status = .running from h.running]
    rfl
  cases ho with
  | missing _ => exact ⟨rfl, fun _ => rfl, fun _ => Or.inr (Or.inl rfl)⟩
  | blocked _ _ hnext =>
    have hslot : StartsNone k (Egos.Grass.sendBlocked k r c) :=
      .of_slot rfl (sendBlocked_procSet k r c) hcurr rfl
    exact hslot.trans (startsNone_yieldTo hnext)
  | @delivered i _ _ hw hnext =>
    have hslot : StartsNone k (Egos.Grass.sendDelivered k r c i) :=
      .of_slot rfl (sendDelivered_procSet k r c i) (by rw [hw]; rfl) rfl
    exact hslot.trans (startsNone_yieldTo hnext)

/-- `sys_recv` starts no process. -/
theorem RecvOutcome.startsNone (h : Scheduled k) (ho : RecvOutcome k k') : StartsNone k k' := by
  have hcurr : (k.procSet k.procCurrIdx).status.started = true := by
    rw [show (k.procSet k.procCurrIdx).status = .running from h.running]
    rfl
  cases ho with
  | blocked _ hnext =>
    have hslot : StartsNone k (Egos.Grass.recvBlocked k) :=
      .of_slot rfl (recvBlocked_procSet k) hcurr rfl
    exact hslot.trans (startsNone_yieldTo hnext)
  | @taken i _ hw _ hnext =>
    have hslot : StartsNone k (Egos.Grass.recvTaken k i) :=
      .of_slot rfl (recvTaken_procSet k i) (by rw [hw]; rfl) rfl
    exact hslot.trans (startsNone_yieldTo hnext)

/-- `proc_free` starts no process. -/
theorem startsNone_procFree (k : Kernel M) (pid : ℤ) : StartsNone k (procFree k pid) := by
  refine ⟨by rw [procFree_eq], fun j => ?_, fun j => ?_⟩
  · rw [procFree_procSet]
    split <;> rfl
  · rw [procFree_procSet]
    split
    · exact Or.inl rfl
    · exact Or.inr (Or.inl rfl)

/-! ## One process at a time -/

/-- The slots that are loading are that of the process `GPID_PROCESS` is loading, which has not
started. -/
structure LoadsOne (m : Machine M) : Prop where
  loading : ∀ i, (m.kernel.procSet i).status = .loading →
    m.allocated = some (m.kernel.procSet i).pid
  allocated : ∀ i, m.allocated = some (m.kernel.procSet i).pid →
    (m.kernel.procSet i).status.started = false

/-- When the kernel boots no process is loading. -/
theorem loadsOne_boot (area : ℤ → Syscall M) : LoadsOne (bootMachine area) := by
  refine ⟨fun i hi => ?_, fun i hi => by cases hi⟩
  simp only [bootMachine, boot] at hi
  split at hi <;> cases hi

/-- A process that has started is not one that has not. -/
theorem LoadsOne.ne_of_live (h : LoadsOne m) (ht : TableOk m.kernel) {p q : ℤ}
    (hp : Live m.kernel.procSet p) (hq : NotStarted m q) : q ≠ p := by
  rintro rfl
  obtain ⟨i, rfl, hstart⟩ := hp
  rcases hq with hlt | halloc
  · exact absurd (ht.pid_range i).2 (not_le.2 hlt)
  · rw [h.allocated i halloc] at hstart
    cases hstart

/-- A change that starts no process keeps this. -/
theorem LoadsOne.keep (h : LoadsOne m) (hk : StartsNone m.kernel k') :
    LoadsOne ⟨k', m.allocated⟩ := by
  refine ⟨fun i hi => ?_, fun i hi => ?_⟩
  · change m.allocated = some (k'.procSet i).pid
    rw [hk.pid]
    exact h.loading i (hk.loading hi)
  · rw [hk.pid] at hi
    have hnot := h.allocated i hi
    by_contra hstart
    rw [hk.started (by simpa using hstart)] at hnot
    cases hnot

/-- The shell has started by the time a user process is killed, so that waking it starts nothing. -/
theorem LoadsOne.startsNone_killed (h : LoadsOne m) (hs : Scheduled m.kernel)
    (hstay : ServersStay m) (huser : m.kernel.currPid ≥ gpidUserStart) :
    StartsNone m.kernel (killed m.kernel) := by
  refine ⟨rfl, killed_pid m.kernel, fun j => ?_⟩
  rw [killed_status]
  split_ifs with hshell hcurr
  · refine Or.inr (Or.inr ⟨ProcStatus.started_iff.2 ⟨hstay.used j ?_ ?_, fun hload => ?_⟩, rfl⟩)
    · rw [hshell]
      decide
    · rw [hshell]
      decide
    · exact hstay.shell_started hs huser (Or.inr (hshell ▸ h.loading j hload))
  · exact Or.inl rfl
  · exact Or.inr (Or.inl rfl)

/-- What a step starts: nothing, unless it sets a process ready. -/
theorem LoadsOne.startsNone_step {a : Action M} (h : LoadsOne m) (hs : Scheduled m.kernel)
    (hstay : ServersStay m) (halloc : a ≠ .alloc) (hready : ∀ pid, a ≠ .setReady pid)
    (hstep : step m a = some m') : StartsNone m.kernel m'.kernel ∧ m'.allocated = m.allocated := by
  cases step_outcome hs hstep with
  | send ho | softSend ho => exact ⟨ho.startsNone hs, rfl⟩
  | recv ho | softRecv ho => exact ⟨ho.startsNone hs, rfl⟩
  | ignored _ => exact ⟨⟨rfl, fun _ => rfl, fun _ => Or.inr (Or.inl rfl)⟩, rfl⟩
  | killed huser hnext =>
    exact ⟨(h.startsNone_killed hs hstay huser).trans (startsNone_yieldTo hnext), rfl⟩
  | preempted _ hnext => exact ⟨startsNone_yieldTo hnext, rfl⟩
  | alloc _ _ _ => exact absurd rfl halloc
  | setReady _ _ => exact absurd rfl (hready _)
  | free _ _ => exact ⟨startsNone_procFree _ _, rfl⟩

/-- A process that has not started after a step had not started before it. -/
theorem NotStarted.of_step {a : Action M} {p : ℤ} (hs : Scheduled m.kernel) (hl : LoadsOne m)
    (hstay : ServersStay m) (hstep : step m a = some m') (hp : NotStarted m' p) :
    NotStarted m p := by
  by_cases halloc : a = .alloc
  · subst halloc
    cases step_outcome hs hstep with
    | alloc _ _ _ =>
      rcases hp with hlt | hsome
      · exact Or.inl ((Int.lt_succ _).trans hlt)
      · exact Or.inl (Option.some.inj hsome ▸ Int.lt_succ _)
  by_cases hready : ∃ pid, a = .setReady pid
  · obtain ⟨pid, rfl⟩ := hready
    cases step_outcome hs hstep with
    | setReady _ _ => exact Or.inl (hp.resolve_right (by simp))
  · obtain ⟨hnone, hsame⟩ := hl.startsNone_step hs hstay halloc
      (fun pid he => hready ⟨pid, he⟩) hstep
    rcases hp with hlt | hsome
    · exact Or.inl (hnone.nprocs ▸ hlt)
    · exact Or.inr (hsame ▸ hsome)

/-- So does every step, if `GPID_PROCESS` loads one process at a time. -/
theorem LoadsOne.step {a : Action M} (h : LoadsOne m) (hs : Scheduled m.kernel)
    (hstay : ServersStay m) (hone : a = .alloc → m.allocated = none)
    (hstep : step m a = some m') : LoadsOne m' := by
  by_cases halloc : a = .alloc
  · have hnone := hone halloc
    subst halloc
    cases step_outcome hs hstep with
    | @alloc i _ _ _ =>
      have hset := allocated_procSet m.kernel i
      refine ⟨fun j hj => ?_, fun j hj => ?_⟩
      · rw [hset] at hj ⊢
        split at hj
        · rw [if_pos ‹_›]
        · have := h.loading j hj
          rw [hnone] at this
          cases this
      · rw [hset] at hj ⊢
        split at hj
        · rw [if_pos ‹_›]
          rfl
        · have := (hs.table.pid_range j).2
          rw [← Option.some.inj hj] at this
          omega
  by_cases hready : ∃ pid, a = .setReady pid
  · obtain ⟨pid, rfl⟩ := hready
    cases step_outcome hs hstep with
    | setReady _ hpid =>
      refine ⟨fun j hj => ?_, fun j hj => by cases hj⟩
      have hset : (procSetReady m.kernel pid).procSet j = if (m.kernel.procSet j).pid = pid then
        { m.kernel.procSet j with status := .ready } else m.kernel.procSet j := rfl
      rw [hset] at hj
      split at hj
      · cases hj
      · rename_i hne
        exact absurd (Option.some.inj ((h.loading j hj).symm.trans hpid)) hne
  · obtain ⟨hnone, hsame⟩ := h.startsNone_step hs hstay halloc
      (fun pid he => hready ⟨pid, he⟩) hstep
    have hkeep := h.keep hnone
    rw [← hsame] at hkeep
    exact hkeep

/-! ## Areas of processes that have not started -/

/-- `sys_send` leaves the area of a process that does not wait for a message. -/
theorem SendOutcome.area {r : ℤ} {c : M} {p : ℤ} (ho : SendOutcome k r c k') (hp : p ≠ k.currPid)
    (hr : ∀ i, (k.procSet i).pid = p → (k.procSet i).status ≠ .waitToRecv) :
    k'.area p = k.area p := by
  cases ho with
  | missing _ => exact Function.update_of_ne hp _ _
  | @blocked _ next _ _ _ =>
    refine (congrFun (yieldTo_area (Egos.Grass.sendBlocked k r c) next) p).trans ?_
    exact Function.update_of_ne hp _ _
  | @delivered i next hi hw _ =>
    have hne : p ≠ r := fun he => hr i (hi.trans he.symm) hw
    refine (congrFun (yieldTo_area (Egos.Grass.sendDelivered k r c i) next) p).trans ?_
    exact (Function.update_of_ne hne _ _).trans (Function.update_of_ne hp _ _)

/-- `sys_recv` leaves the areas of other processes. -/
theorem RecvOutcome.area {p : ℤ} (ho : RecvOutcome k k') (hp : p ≠ k.currPid) :
    k'.area p = k.area p := by
  cases ho with
  | @blocked next _ _ =>
    refine (congrFun (yieldTo_area (Egos.Grass.recvBlocked k) next) p).trans ?_
    exact Function.update_of_ne hp _ _
  | @taken i next _ _ _ =>
    refine (congrFun (yieldTo_area (Egos.Grass.recvTaken k i) next) p).trans ?_
    exact (Function.update_of_ne hp _ _).trans (Function.update_of_ne hp _ _)

/-- The kernel leaves the area of a process alone until the process has started. -/
theorem LoadsOne.area_step {a : Action M} {p : ℤ} (h : LoadsOne m) (hs : Scheduled m.kernel)
    (hp : NotStarted m p) (hstep : Grass.step m a = some m') :
    m'.kernel.area p = m.kernel.area p := by
  have hcurr : p ≠ m.kernel.currPid := h.ne_of_live hs.table hs.live_curr hp
  have hwait : ∀ i, (m.kernel.procSet i).pid = p →
      (m.kernel.procSet i).status ≠ .waitToRecv := fun i hi hw =>
    h.ne_of_live hs.table ⟨i, rfl, by rw [hw]; rfl⟩ hp hi.symm
  cases step_outcome hs hstep with
  | send ho | softSend ho => exact ho.area hcurr hwait
  | recv ho | softRecv ho => exact ho.area hcurr
  | ignored _ => rfl
  | @killed _ next _ _ => exact congrFun (yieldTo_area (Egos.Grass.killed m.kernel) next) p
  | @preempted _ next _ _ => exact congrFun (yieldTo_area m.kernel next) p
  | alloc _ _ _ | setReady _ _ => rfl
  | free _ _ => rw [procFree_eq]

end Egos.Grass
