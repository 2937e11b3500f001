import Egos.Grass.Messaging

/-!
# Kills

Ctrl+C makes `intr_entry` free the current user process and make the shell runnable, whatever the
shell is doing. A shell that waits in `sys_recv` then returns without a message, which it can tell;
one that waits in `sys_send` returns 0 although nothing has been copied, and since it has left
`PROC_WAIT_TO_SEND` no receiver finds it any more. In every run whose kills do not find the shell in
`PROC_WAIT_TO_SEND` no message is lost.
-/

namespace Egos.Grass

variable {M : Type} {k k' : Kernel M} {m m' : Machine M}

/-- The condition on a step: a kill does not find the shell waiting to send, and system calls are
made by `ecall` and not by the software interrupt. -/
def SparesShell (m : Machine M) : Action M → Prop
  | .intr id ttyRecvIntr => id ≠ intrIdSoft ∧
      (ttyRecvIntr = true → m.kernel.currPid ≥ gpidUserStart →
        ∀ i, (m.kernel.procSet i).pid = gpidShell → (m.kernel.procSet i).status ≠ .waitToSend)
  | _ => True

instance (m : Machine M) (a : Action M) : Decidable (SparesShell m a) :=
  match a with
  | .intr _ _ => inferInstanceAs (Decidable (_ ∧ (_ → _ → ∀ _, _ → _)))
  | .send _ _ | .recv | .free _ | .alloc | .setReady _ => inferInstanceAs (Decidable True)

/-- The kernel processes and the shell stay in the table once they have been allocated, and the
process that is being loaded is the last one allocated. -/
structure ServersStay (m : Machine M) : Prop where
  here : ∀ p, 0 < p → p < gpidUserStart → p ≤ m.kernel.procNprocs →
    ∃ i, (m.kernel.procSet i).pid = p
  used : ∀ i, 0 < (m.kernel.procSet i).pid → (m.kernel.procSet i).pid < gpidUserStart →
    (m.kernel.procSet i).status ≠ .unused
  last : ∀ p, m.allocated = some p → p = m.kernel.procNprocs

/-- When the kernel boots there is only `GPID_PROCESS`. -/
theorem serversStay_boot (area : ℤ → Syscall M) : ServersStay (bootMachine area) := by
  refine ⟨fun p hpos _ hle => ⟨0, ?_⟩, fun i hpid _ => ?_, fun _ hp => by cases hp⟩
  · have hle : p ≤ 1 := hle
    simp only [bootMachine, boot, if_true]
    omega
  · simp only [bootMachine, boot] at hpid ⊢
    split at hpid
    · simp_all
    · exact absurd hpid (by decide)

/-- A step that keeps the pids and frees user processes only. -/
theorem ServersStay.congr (h : ServersStay m)
    (hpid : ∀ j, (k'.procSet j).pid = (m.kernel.procSet j).pid)
    (hstatus : ∀ j, (k'.procSet j).status = .unused →
      (m.kernel.procSet j).status = .unused ∨ ¬ (m.kernel.procSet j).pid < gpidUserStart)
    (hn : k'.procNprocs = m.kernel.procNprocs) : ServersStay ⟨k', m.allocated⟩ := by
  refine ⟨fun p hpos hlt hle => ?_, fun j hpos hlt hun => ?_,
    fun p hp => (h.last p hp).trans hn.symm⟩
  · obtain ⟨i, hi⟩ := h.here p hpos hlt (hn ▸ hle)
    exact ⟨i, (hpid i).trans hi⟩
  rw [hpid] at hpos hlt
  rcases hstatus j hun with he | he
  · exact h.used j hpos hlt he
  · exact he hlt

/-- `proc_yield` frees no slot. -/
theorem yieldTo_unused {next j : Fin maxNprocess}
    (h : ((yieldTo k next).procSet j).status = .unused) : (k.procSet j).status = .unused := by
  rw [yieldTo_status] at h
  split_ifs at h
  exact h

/-- A yield does not touch the processes that wait to send, but for the one that yields. -/
theorem yieldTo_waitToSend {next j : Fin maxNprocess} (hnext : nextIdx k = some next)
    (hj : j ≠ k.procCurrIdx) (hwait : (k.procSet j).status = .waitToSend) :
    (yieldTo k next).procSet j = k.procSet j := by
  have hne : j ≠ next := by
    rintro rfl
    have hrun := nextIdx_canRun hnext
    rw [hwait] at hrun
    cases hrun
  refine Process.ext (yieldTo_pid k next j) ?_ (yieldTo_receiverPid k next j)
  rw [yieldTo_status, if_neg hne, if_neg fun h => hj h.1]

/-- A change of one slot that does not free it, before a yield. -/
theorem keepsSlots_yieldTo {k₁ : Kernel M} {i next : Fin maxNprocess}
    {p : Fin maxNprocess → Process}
    (hset : ∀ j, k₁.procSet j = if j = i then p j else k.procSet j)
    (hpid : ∀ j, (p j).pid = (k.procSet j).pid) (hused : ∀ j, (p j).status ≠ .unused)
    (j : Fin maxNprocess) :
    ((returnTo (yieldTo k₁ next)).procSet j).pid = (k.procSet j).pid ∧
      (((returnTo (yieldTo k₁ next)).procSet j).status = .unused →
        (k.procSet j).status = .unused) := by
  refine ⟨(yieldTo_pid k₁ next j).trans ?_, fun h => ?_⟩
  · rw [hset]
    split
    · exact hpid j
    · rfl
  · have hslot := yieldTo_unused h
    rw [hset] at hslot
    split at hslot
    · exact absurd hslot (hused j)
    · exact hslot

/-- No system call frees a slot. -/
theorem SendOutcome.keepsSlots {r : ℤ} {c : M} (ho : SendOutcome k r c k') (j : Fin maxNprocess) :
    (k'.procSet j).pid = (k.procSet j).pid ∧
      ((k'.procSet j).status = .unused → (k.procSet j).status = .unused) := by
  cases ho with
  | missing _ => exact ⟨rfl, id⟩
  | blocked _ _ _ =>
    exact keepsSlots_yieldTo (sendBlocked_procSet k r c) (fun _ => rfl) (fun _ => by simp) j
  | delivered _ _ _ =>
    exact keepsSlots_yieldTo (sendDelivered_procSet k r c _) (fun _ => rfl) (fun _ => by simp) j

/-- `sys_recv` frees no slot. -/
theorem RecvOutcome.keepsSlots (ho : RecvOutcome k k') (j : Fin maxNprocess) :
    (k'.procSet j).pid = (k.procSet j).pid ∧
      ((k'.procSet j).status = .unused → (k.procSet j).status = .unused) := by
  cases ho with
  | blocked _ _ =>
    exact keepsSlots_yieldTo (recvBlocked_procSet k) (fun _ => rfl) (fun _ => by simp) j
  | taken _ _ _ =>
    exact keepsSlots_yieldTo (recvTaken_procSet k _) (fun _ => rfl) (fun _ => by simp) j

/-- Every step keeps the servers. -/
theorem ServersStay.step {a : Action M} (hs : Scheduled m.kernel) (h : ServersStay m)
    (hstep : step m a = some m') : ServersStay m' := by
  cases step_outcome hs hstep with
  | send ho | softSend ho =>
    exact h.congr (fun j => (ho.keepsSlots j).1) (fun j hj => Or.inl ((ho.keepsSlots j).2 hj))
      ho.procNprocs
  | recv ho | softRecv ho =>
    exact h.congr (fun j => (ho.keepsSlots j).1) (fun j hj => Or.inl ((ho.keepsSlots j).2 hj))
      ho.procNprocs
  | ignored _ => exact h
  | @killed _ next hge _ =>
    refine h.congr (fun j => (yieldTo_pid _ _ _).trans (killed_pid _ j)) (fun j hj => ?_)
      (yieldTo_procNprocs (Egos.Grass.killed m.kernel) next)
    have hslot := yieldTo_unused hj
    rw [killed_status] at hslot
    split_ifs at hslot with hshell hcurr
    · subst hcurr
      exact Or.inr (not_lt.2 hge)
    · exact Or.inl hslot
  | @preempted _ next _ _ =>
    exact h.congr (yieldTo_pid m.kernel next) (fun j hj => Or.inl (yieldTo_unused hj))
      (yieldTo_procNprocs m.kernel next)
  | @alloc i _ _ hi =>
    refine ⟨fun p hpos hlt hle => ?_, fun j hpos hlt => ?_, fun p hp => (Option.some.inj hp).symm⟩
    · rcases (show p ≤ m.kernel.procNprocs + 1 from hle).lt_or_eq with hle | rfl
      · obtain ⟨j, hj⟩ := h.here p hpos hlt (Int.lt_add_one_iff.1 hle)
        -- a slot that is taken over is not that of a server
        have hne : j ≠ i := fun he => h.used j (hj ▸ hpos) (hj ▸ hlt) (he ▸ hi)
        exact ⟨j, by rw [allocated_procSet, if_neg hne]; exact hj⟩
      · exact ⟨i, by rw [allocated_procSet, if_pos rfl]⟩
    · rw [allocated_procSet] at hpos hlt ⊢
      split
      · simp
      · rename_i hj
        rw [if_neg hj] at hpos hlt
        exact h.used j hpos hlt
  | @setReady pid _ _ =>
    have hset : ∀ j, (procSetReady m.kernel pid).procSet j = if (m.kernel.procSet j).pid = pid then
        { m.kernel.procSet j with status := .ready } else m.kernel.procSet j := fun _ => rfl
    refine ⟨fun p hpos hlt hle => ?_, fun j hpos hlt => ?_, fun p hp => by cases hp⟩
    · obtain ⟨j, hj⟩ := h.here p hpos hlt hle
      refine ⟨j, Eq.trans ?_ hj⟩
      rw [hset]
      split <;> rfl
    · rw [hset] at hpos hlt ⊢
      split
      · simp
      · rename_i hj
        rw [if_neg hj] at hpos hlt
        exact h.used j hpos hlt
  | @free pid _ hpid =>
    refine h.congr (fun j => ?_) (fun j hj => ?_) (by rw [procFree_eq])
    · rw [procFree_procSet]
      split <;> rfl
    · rw [procFree_procSet] at hj
      split at hj
      · rename_i hfreed
        refine Or.inr (not_lt.2 ?_)
        rw [Freed] at hfreed
        split at hfreed
        · exact hfreed
        · rw [hfreed]
          exact hpid.resolve_right ‹_›
      · exact Or.inl hj

/-- The servers stay in every run. -/
theorem serversStay_of_reach {area : ℤ → Syscall M}
    (h : Reach step (fun _ _ => True) (bootMachine area) m) : MachineOk m ∧ ServersStay m := by
  induction h with
  | init => exact ⟨machineOk_boot area, serversStay_boot area⟩
  | step _ _ hstep ih => exact ⟨ih.1.step hstep, ih.2.step ih.1.scheduled hstep⟩

/-! ## A kill and the calls in progress -/

/-- A kill touches the slots of the killed process and of the shell only. -/
theorem killed_other {j : Fin maxNprocess} (hshell : (k.procSet j).pid ≠ gpidShell)
    (hj : j ≠ k.procCurrIdx) : (killed k).procSet j = k.procSet j := by
  rw [killed, procSetRunnable, procSetStatus]
  dsimp only
  rw [Kernel.setSlot_pid, if_neg hshell, Kernel.setSlot_procSet, if_neg hj]

/-- A process that does not wait to send may be made runnable. -/
theorem SlotOk.wake {p p' : Process} {oc : Option (Call M × List (Copy M))} {msg : SysMsg M}
    (h : SlotOk True p oc msg) (hpid : p'.pid = p.pid) (hused : p.status ≠ .unused)
    (hsend : p.status ≠ .waitToSend) (hrun : p'.status = .runnable) : SlotOk True p' oc msg := by
  have hdone : CallDone True p.pid oc msg := by
    rw [SlotOk] at h
    split at h
    · exact absurd ‹_› hused
    · exact Or.inl h
    · exact Or.inl h
    · exact h
    · exact h
    · exact absurd ‹_› hsend
    · exact Or.inr (Or.inr (Or.inr ⟨trivial, h⟩))
  rw [SlotOk, hrun, hpid]
  exact hdone

/-- The shell has started by the time a user process runs. -/
theorem ServersStay.shell_started (h : ServersStay m) (hs : Scheduled m.kernel)
    (huser : m.kernel.currPid ≥ gpidUserStart) : ¬ NotStarted m gpidShell := by
  have hmax : (5 : ℤ) ≤ m.kernel.procNprocs := le_trans huser (hs.table.pid_range _).2
  rintro (hlt | hlast)
  · exact absurd (show m.kernel.procNprocs < 4 from hlt) (by omega)
  · have : (4 : ℤ) = m.kernel.procNprocs := h.last _ hlast
    omega

/-- A kill that does not find the shell waiting to send keeps the calls of all processes. -/
theorem CallsOk.killed (h : CallsOk True (NotStarted m) m.kernel) (hs : Scheduled m.kernel)
    (hstay : ServersStay m) (huser : m.kernel.currPid ≥ gpidUserStart)
    (hshell : ∀ i, (m.kernel.procSet i).pid = gpidShell →
      (m.kernel.procSet i).status ≠ .waitToSend) :
    CallsOk True (NotStarted m) (killed m.kernel) := by
  refine ⟨fun j _ => ?_, h.noCall, fun j hj => ?_, h.history⟩
  · rw [killed_pid]
    have hslot := h.slot j trivial
    by_cases hp : (m.kernel.procSet j).pid = gpidShell
    · refine hslot.wake (killed_pid _ j) (hstay.used j ?_ ?_) (hshell j hp) ?_
      · rw [hp]; decide
      · rw [hp]; decide
      · rw [killed_status, if_pos hp]
    by_cases hj : j = m.kernel.procCurrIdx
    · refine SlotOk.unused ?_ _ _
      rw [killed_status, if_neg hp, if_pos hj]
    · rw [killed_other hp hj]
      exact hslot
  · rw [killed_pid] at hj
    have hp : (m.kernel.procSet j).pid ≠ gpidShell := fun he =>
      hstay.shell_started hs huser (he ▸ hj)
    rw [killed_status, if_neg hp]
    split
    · exact Or.inr rfl
    · exact h.unborn j hj

/-- The messages in flight, and the processes that are never freed. -/
structure KillsOk (m : Machine M) : Prop where
  messages : MessagesOk True m
  stay : ServersStay m

/-- Every step that spares the shell keeps the invariant. -/
theorem KillsOk.step {a : Action M} (h : KillsOk m) (hok : SparesShell m a)
    (hstep : step m a = some m') : KillsOk m' := by
  have hs := h.messages.machine.scheduled
  refine ⟨h.messages.step (fun b ha => ?_) (fun id ha huser => ?_) hstep, h.stay.step hs hstep⟩
  · subst ha
    exact hok.1 rfl
  · subst ha
    exact h.messages.calls.killed hs h.stay huser (hok.2 rfl huser)

/-- A kill loses no message, in every run whose kills do not find the shell waiting to send. A call
of `sys_send` returns 0 only after its message has been copied to the receiver, once; and after a
kill every other process that waited to send still waits to send to the same receiver. -/
theorem kill_loses_no_message {area : ℤ → Syscall M}
    (h : Reach step SparesShell (bootMachine area) m) :
    (∀ later p retval msg earlier, m.kernel.log = later ++ .run p retval msg :: earlier →
      ∀ r c copies, openCall p earlier = some (.send r c, copies) → retval = 0 →
        copies = [⟨p, r, ⟨p, r, c⟩⟩]) ∧
    ∀ id m', SparesShell m (.intr id true) → m.kernel.currPid ≥ gpidUserStart →
      step m (.intr id true) = some m' → ∀ i, i ≠ m.kernel.procCurrIdx →
        (m.kernel.procSet i).status = .waitToSend → m'.kernel.procSet i = m.kernel.procSet i := by
  have hok : KillsOk m := h.invariant ⟨messagesOk_boot True area, serversStay_boot area⟩
    fun _ _ _ hm hok hstep => hm.step hok hstep
  refine ⟨fun later p retval msg earlier hlog => ?_, fun id m' hspares huser hstep i hi hwait => ?_⟩
  · have hevent : EventOk True (.run p retval msg) earlier :=
      LogOk.event (hlog ▸ hok.messages.calls.history)
    exact hevent.1
  · cases step_outcome hok.messages.machine.scheduled hstep with
    | ignored hlt => exact absurd hlt (not_lt.2 (le_trans (by decide) huser))
    | softSend _ => exact absurd rfl hspares.1
    | softRecv _ => exact absurd rfl hspares.1
    | killed _ hnext =>
      have hshell : (m.kernel.procSet i).pid ≠ gpidShell := fun he =>
        hspares.2 rfl huser i he hwait
      have hkept := killed_other hshell hi
      rw [← hkept] at hwait ⊢
      exact yieldTo_waitToSend hnext hi hwait
    | preempted _ hnext => exact yieldTo_waitToSend hnext hi hwait

/-- A client is killed while `GPID_FILE` waits to send it a reply: `GPID_FILE` goes on waiting. -/
theorem kill_loses_no_message_client :
    ∃ m m' : Machine Unit, Reach step SparesShell (bootMachine nullArea) m ∧
      m.kernel.currPid = 5 ∧ step m (.intr intrIdTimer true) = some m' ∧
      (m.kernel.procSet 1).pid = gpidFile ∧ (m.kernel.procSet 1).status = .waitToSend ∧
      m'.kernel.procSet 1 = m.kernel.procSet 1 := by
  have hrun : (runActions step (bootMachine nullArea) (clientKilled.take 14)).any (fun m =>
      m.kernel.currPid = 5 && m.kernel.procCurrIdx = 4 && (m.kernel.procSet 1).pid = gpidFile &&
      (m.kernel.procSet 1).status = .waitToSend &&
      decide (SparesShell m (.intr intrIdTimer true)) &&
      (step m (.intr intrIdTimer true)).isSome) = true := by decide +kernel
  have hmeets : runMeets step (fun m a => decide (SparesShell m a)) (bootMachine nullArea)
      (clientKilled.take 14) = true := by decide +kernel
  obtain ⟨m, hm, hcheck⟩ := (Option.any_eq_true _ _).1 hrun
  have hreach : Reach step SparesShell (bootMachine nullArea) m :=
    Reach.of_runActions (fun _ _ => of_decide_eq_true) _ .init hm hmeets
  simp only [Bool.and_eq_true, decide_eq_true_eq] at hcheck
  obtain ⟨⟨⟨⟨⟨hcurr, hidx⟩, hpid⟩, hwait⟩, hspares⟩, hsome⟩ := hcheck
  obtain ⟨m', hstep⟩ := Option.isSome_iff_exists.1 hsome
  exact ⟨m, m', hreach, hcurr, hstep, hpid, hwait, (kill_loses_no_message hreach).2 _ _ hspares
    hcurr.ge hstep 1 (by rw [hidx]; decide) hwait⟩

/-- The servers and a user process with pid 5 are started. `GPID_PROCESS` sends to `GPID_FILE`,
which takes the message, and `GPID_DIR` waits; so the shell's message to `GPID_PROCESS` has to wait.
Then the user process is killed, and `GPID_PROCESS` and `GPID_FILE` wait for messages. -/
def killedWhileShellSends : List (Action Unit) :=
  [.alloc, .setReady 2, .alloc, .setReady 3, .alloc, .setReady 4, .alloc, .setReady 5,
    .send gpidFile (), .recv, .recv, .send gpidProcess (), .intr intrIdTimer true, .recv, .recv]

/-- The shell returns from `sys_send` with 0, and its message has not been copied. -/
theorem kill_loses_message_of_shell :
    ∃ (m : Machine Unit) (msg : SysMsg Unit) (earlier : List (Event Unit)),
      Reach step (fun _ _ => True) (bootMachine nullArea) m ∧
      m.kernel.log = .run gpidShell 0 msg :: earlier ∧
      openCall gpidShell earlier = some (.send gpidProcess (), []) := by
  have hrun : (runActions step (bootMachine nullArea) killedWhileShellSends).any (fun m =>
      match m.kernel.log with
      | .run p retval _ :: earlier => p = gpidShell && retval = 0 &&
        match openCall gpidShell earlier with
        | some (.send r _, []) => r = gpidProcess
        | _ => false
      | _ => false) = true := by decide +kernel
  obtain ⟨m, hm, hcheck⟩ := (Option.any_eq_true _ _).1 hrun
  have hreach : Reach step (fun _ _ => True) (bootMachine nullArea) m := .of_runActions_true _ hm
  split at hcheck
  · rename_i p retval msg earlier hlog
    simp only [Bool.and_eq_true, decide_eq_true_eq] at hcheck
    obtain ⟨⟨rfl, rfl⟩, hopen⟩ := hcheck
    split at hopen
    · rename_i r c hcall
      obtain rfl : r = gpidProcess := of_decide_eq_true hopen
      exact ⟨m, msg, earlier, hreach, hlog, hcall⟩
    · cases hopen
  · cases hcheck

end Egos.Grass
