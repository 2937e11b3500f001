import Egos.Grass.Kills

/-!
# Faults

`excp_entry` is meant to free a user process that faults and to give control back to the shell. The
test for a system call ends in `|| EXCP_ID_ECALL_M`, which is a constant and not a comparison, so
every exception goes to `proc_syscall`: no fault of a user process is isolated, whatever its number
and whatever the process has left in its system-call area. The branch that is never taken would
isolate every one of them.
-/

namespace Egos.Grass

variable {M : Type} {k k' : Kernel M} {m m' : Machine M}

/-- What the fault of the current process leads to, if it is isolated: the process is freed, the
shell can run, the other slots are as they were but for the shell and the process that runs next,
and that is another one. -/
structure FaultIsolated (k k' : Kernel M) : Prop where
  freed : (k'.procSet k.procCurrIdx).status = .unused
  shell : ∃ i, (k'.procSet i).pid = gpidShell ∧ (k'.procSet i).status.canRun = true
  others : ∀ i, i ≠ k.procCurrIdx → (k'.procSet i).pid = (k.procSet i).pid ∧
    (k'.procSet i).receiverPid = (k.procSet i).receiverPid ∧
    ((k'.procSet i).status = (k.procSet i).status ∨ (k.procSet i).pid = gpidShell ∨
      i = k'.procCurrIdx ∧ (k'.procSet i).status = .running)
  control : k'.procCurrIdx ≠ k.procCurrIdx

/-- A system call does not free its process. -/
theorem not_faultIsolated_procSyscall (hs : Scheduled k)
    (hrun : ctxEntry procSyscall k = .ok k') : ¬ FaultIsolated k k' := by
  intro h
  have hunused : (k.procSet k.procCurrIdx).status = .unused :=
    (ctxEntry_procSyscall hs hrun).elim (fun ho => (ho.keepsSlots _).2 h.freed)
      fun ho => (ho.keepsSlots _).2 h.freed
  exact hs.curr_used hunused

/-! ## The branch for faults -/

/-- `proc_yield` finds a process if there is one that can run. -/
theorem nextIdx_of_canRun {i : Fin maxNprocess} (h : (k.procSet i).status.canRun = true) :
    ∃ next, nextIdx k = some next := by
  have hcycle : ∀ curr j : Fin maxNprocess, j ∈ (List.range maxNprocess).map fun n =>
      curr + Fin.ofNat maxNprocess (n + 1) := by decide
  exact Option.isSome_iff_exists.1 (List.find?_isSome.2 ⟨i, hcycle k.procCurrIdx i, h⟩)

/-- The branch for faults frees the process and yields, if the shell is in the table. -/
theorem killCurr_eq (hs : Scheduled k) (huser : k.currPid ≥ gpidUserStart)
    {i : Fin maxNprocess} (hi : (k.procSet i).pid = gpidShell) :
    ∃ next, nextIdx (killed k) = some next ∧
      killCurr k = .ok (returnTo (yieldTo (killed k) next)) := by
  have hcan : ((killed k).procSet i).status.canRun = true := by
    rw [killed_status, if_pos hi]
    rfl
  obtain ⟨next, hnext⟩ := nextIdx_of_canRun hcan
  have hyield : procYield (killed k) = .ok (yieldTo (killed k) next) := by
    rw [procYield_eq hs.killed.1, hnext]
  refine ⟨next, hnext, ?_⟩
  rw [killCurr, procFree_curr hs huser, ctxEntry]
  exact congrArg (· >>= _) hyield

/-- A fault ends the current process and wakes the shell, and does no more. -/
theorem killCurr_isolates (hs : Scheduled k) (huser : k.currPid ≥ gpidUserStart)
    {i : Fin maxNprocess} (hi : (k.procSet i).pid = gpidShell) :
    ∃ k', killCurr k = .ok k' ∧ FaultIsolated k k' := by
  obtain ⟨next, hnext, hkill⟩ := killCurr_eq hs huser hi
  have hcurr : (k.procSet k.procCurrIdx).pid ≠ gpidShell := fun he =>
    absurd (he ▸ huser : gpidShell ≥ gpidUserStart) (by decide)
  have hfreed : ((killed k).procSet k.procCurrIdx).status = .unused := by
    rw [killed_status, if_neg hcurr, if_pos rfl]
  -- the process that is freed is not the one that runs next
  have hne : next ≠ k.procCurrIdx := by
    rintro rfl
    have hrun := nextIdx_canRun hnext
    rw [hfreed] at hrun
    cases hrun
  have hstatus : ∀ j, ((yieldTo (killed k) next).procSet j).status
      = if j = next then .running else ((killed k).procSet j).status := by
    intro j
    rw [yieldTo_status]
    refine if_congr Iff.rfl rfl (if_neg fun hc => ?_)
    have hrunning : ((killed k).procSet k.procCurrIdx).status = .running := hc.2
    rw [hfreed] at hrunning
    cases hrunning
  refine ⟨_, hkill, ?_, ⟨i, (yieldTo_pid _ next i).trans ((killed_pid k i).trans hi), ?_⟩,
    fun j hj => ⟨(yieldTo_pid _ next j).trans (killed_pid k j),
      (yieldTo_receiverPid _ next j).trans (killed_receiverPid k j), ?_⟩, hne⟩
  · exact (hstatus _).trans ((if_neg hne.symm).trans hfreed)
  · have hrun : ((yieldTo (killed k) next).procSet i).status.canRun = true := by
      rw [hstatus, killed_status, if_pos hi]
      split <;> rfl
    exact hrun
  · by_cases hnext' : j = next
    · exact Or.inr (Or.inr ⟨hnext', (hstatus j).trans (if_pos hnext')⟩)
    by_cases hshell : (k.procSet j).pid = gpidShell
    · exact Or.inr (Or.inl hshell)
    · refine Or.inl ((hstatus j).trans ((if_neg hnext').trans ?_))
      rw [killed_status, if_neg hshell, if_neg hj]

/-- Faults are not isolated. In every reachable state in which a user process runs, whatever is in
its system-call area, no exception leads to what the fault of a process should lead to, though the
branch of `excp_entry` for faults does. -/
theorem fault_not_isolated {area : ℤ → Syscall M}
    (h : Reach step (fun _ _ => True) (bootMachine area) m)
    (huser : m.kernel.currPid ≥ gpidUserStart) (sc : Syscall M) :
    (∀ id, ¬ ∃ k', excpEntry (m.kernel.setSc sc) id = .ok k' ∧
      FaultIsolated (m.kernel.setSc sc) k') ∧
    ∃ k', killCurr (m.kernel.setSc sc) = .ok k' ∧ FaultIsolated (m.kernel.setSc sc) k' := by
  obtain ⟨hok, hstay⟩ := serversStay_of_reach h
  have hs : Scheduled (m.kernel.setSc sc) := hok.scheduled.setSc sc
  refine ⟨fun id => ?_, ?_⟩
  · rintro ⟨k', hrun, hisolated⟩
    rw [excpEntry, if_pos (Or.inr (Or.inr (by decide)))] at hrun
    exact not_faultIsolated_procSyscall hs hrun hisolated
  · have hmax : (5 : ℤ) ≤ m.kernel.procNprocs :=
      le_trans huser (hok.scheduled.table.pid_range _).2
    obtain ⟨i, hi⟩ := hstay.here gpidShell (by decide) (by decide)
      (show (4 : ℤ) ≤ m.kernel.procNprocs by omega)
    exact killCurr_isolates hs huser hi

/-- The client of `clientKilled` faults while it runs, instead of being killed. -/
theorem fault_not_isolated_client :
    ∃ m : Machine Unit, m.kernel.currPid = 5 ∧
      (∀ id, ¬ ∃ k', excpEntry (m.kernel.setSc (nullArea 5)) id = .ok k' ∧
        FaultIsolated (m.kernel.setSc (nullArea 5)) k') := by
  have hrun : (runActions step (bootMachine nullArea) (clientKilled.take 14)).any
      (fun m => m.kernel.currPid = 5) = true := by decide +kernel
  obtain ⟨m, hm, hcurr⟩ := (Option.any_eq_true _ _).1 hrun
  have hcurr : m.kernel.currPid = 5 := of_decide_eq_true hcurr
  exact ⟨m, hcurr, (fault_not_isolated (.of_runActions_true _ hm) hcurr.ge _).1⟩

/-- A user process that makes no system call and faults in a store takes the kernel down. -/
theorem fault_is_fatal :
    ∃ m : Machine Unit, Reach step (fun _ _ => True) (bootMachine nullArea) m ∧
      m.kernel.currPid = 5 ∧
      excpEntry m.kernel 7 = .error "proc_syscall: got unknown syscall type=0" := by
  have hrun : (runActions step (bootMachine nullArea) (clientKilled.take 14)).any
      (fun m => m.kernel.currPid = 5 && m.kernel.sc.type = .unused) = true := by decide +kernel
  obtain ⟨m, hm, hcheck⟩ := (Option.any_eq_true _ _).1 hrun
  simp only [Bool.and_eq_true, decide_eq_true_eq] at hcheck
  refine ⟨m, .of_runActions_true _ hm, hcheck.1, ?_⟩
  rw [excpEntry, if_pos (by decide), ctxEntry, procSyscall, hcheck.2]
  rfl

end Egos.Grass
