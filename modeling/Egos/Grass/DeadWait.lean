import Egos.Grass.Schedule

/-!
# Waiting on processes that are gone

`proc_send` searches the table by pid and does not look whether the slot it finds is in use, and no
path that frees a process looks for processes that wait to send to it. So a process can wait for one
that does not exist; this happens to `GPID_FILE` in the run `clientKilled`. The waits are in order
in every run that avoids the two: no call of `sys_send` names the pid left in an unused slot, and no
process is freed while one that stays waits to send to it.
-/

namespace Egos.Grass

variable {M : Type} {k k' : Kernel M} {m m' : Machine M}

/-- Every process that waits to send waits for a process that exists. -/
def WaitsOnLive (k : Kernel M) : Prop :=
  ∀ i, (k.procSet i).status = .waitToSend →
    ∃ j, (k.procSet j).pid = (k.procSet i).receiverPid ∧ (k.procSet j).status ≠ .unused

/-- No process waits to send to one that is freed, unless it is freed too. -/
def NoneWaitsFor (k : Kernel M) (freed : Fin maxNprocess → Prop) : Prop :=
  ∀ i j, (k.procSet i).status = .waitToSend → ¬ freed i →
    (k.procSet j).pid = (k.procSet i).receiverPid → ¬ freed j

/-- The condition on a step: a call of `sys_send` does not name the pid left in an unused slot, no
process that stays waits to send to one that is freed, and system calls are made by `ecall` and not
by the software interrupt. -/
def KeepsReceivers (m : Machine M) : Action M → Prop
  | .send r _ => ∀ j, (m.kernel.procSet j).pid = r → (m.kernel.procSet j).status ≠ .unused
  | .intr id ttyRecvIntr => id ≠ intrIdSoft ∧
      (ttyRecvIntr = true → m.kernel.currPid ≥ gpidUserStart →
        NoneWaitsFor m.kernel fun j => j = m.kernel.procCurrIdx)
  | .free pid => NoneWaitsFor m.kernel (Freed m.kernel pid)
  | _ => True

instance (k : Kernel M) (freed : Fin maxNprocess → Prop) [DecidablePred freed] :
    Decidable (NoneWaitsFor k freed) :=
  inferInstanceAs (Decidable (∀ _ _, _ → _ → _ → _))

instance (m : Machine M) (a : Action M) : Decidable (KeepsReceivers m a) :=
  match a with
  | .send _ _ => inferInstanceAs (Decidable (∀ _, _ → _))
  | .intr _ _ => inferInstanceAs (Decidable (_ ∧ (_ → _ → NoneWaitsFor _ _)))
  | .free _ => inferInstanceAs (Decidable (NoneWaitsFor _ _))
  | .recv | .alloc | .setReady _ => inferInstanceAs (Decidable True)

/-- A change after which every wait is an old one for a slot that stays in use, or in order. -/
theorem WaitsOnLive.congr (h : WaitsOnLive k)
    (hwait : ∀ i, (k'.procSet i).status = .waitToSend →
      ((k.procSet i).status = .waitToSend ∧
        (k'.procSet i).receiverPid = (k.procSet i).receiverPid ∧
        ∀ j, (k.procSet j).pid = (k.procSet i).receiverPid → (k.procSet j).status ≠ .unused →
          (k'.procSet j).pid = (k.procSet j).pid ∧ (k'.procSet j).status ≠ .unused) ∨
      ∃ j, (k'.procSet j).pid = (k'.procSet i).receiverPid ∧ (k'.procSet j).status ≠ .unused) :
    WaitsOnLive k' := by
  intro i hi
  rcases hwait i hi with ⟨hold, hr, hkeep⟩ | hnew
  · obtain ⟨j, hj, hused⟩ := h i hold
    obtain ⟨hpid, hused'⟩ := hkeep j hj hused
    exact ⟨j, by rw [hpid, hr, hj], hused'⟩
  · exact hnew

/-- Yielding starts no wait and frees no slot. -/
theorem WaitsOnLive.yieldTo (h : WaitsOnLive k) (next : Fin maxNprocess) :
    WaitsOnLive (returnTo (yieldTo k next)) := by
  have hstatus : ∀ j, ((returnTo (Egos.Grass.yieldTo k next)).procSet j).status = _ :=
    yieldTo_status k next
  have hpid : ∀ j, ((returnTo (Egos.Grass.yieldTo k next)).procSet j).pid = _ :=
    yieldTo_pid k next
  have hrecv : ∀ j, ((returnTo (Egos.Grass.yieldTo k next)).procSet j).receiverPid = _ :=
    yieldTo_receiverPid k next
  refine h.congr fun i hi => Or.inl ⟨?_, hrecv i, fun j _ hused => ⟨hpid j, ?_⟩⟩
  · rw [hstatus] at hi
    split_ifs at hi
    exact hi
  · rw [hstatus]
    split_ifs
    · decide
    · decide
    · exact hused

/-- Making one slot in use runnable, or waiting to receive, starts no wait to send. -/
theorem WaitsOnLive.update (h : WaitsOnLive k) {i : Fin maxNprocess} {status : ProcStatus}
    (hset : ∀ j, k'.procSet j = if j = i then { k.procSet j with status } else k.procSet j)
    (hsend : status ≠ .waitToSend) (hunused : status ≠ .unused) : WaitsOnLive k' := by
  refine h.congr fun j hj => Or.inl ⟨?_, ?_, fun l _ hused => ⟨?_, ?_⟩⟩
  · rw [hset j] at hj
    split at hj
    · exact absurd hj hsend
    · exact hj
  · rw [hset j]
    split <;> rfl
  · rw [hset l]
    split <;> rfl
  · rw [hset l]
    split
    · exact hunused
    · exact hused

/-- `sys_send` to a process that is there leaves nobody waiting for one that is not. -/
theorem SendOutcome.waitsOnLive {r : ℤ} {c : M} (h : WaitsOnLive k) (ho : SendOutcome k r c k')
    (hr : ∀ j, (k.procSet j).pid = r → (k.procSet j).status ≠ .unused) : WaitsOnLive k' := by
  cases ho with
  | missing _ => exact h
  | @blocked i _ hi _ _ =>
    refine WaitsOnLive.yieldTo (h.congr fun j hj => ?_) _
    by_cases hjc : j = k.procCurrIdx
    · -- the new wait is for slot `i`, which is in use
      refine Or.inr ⟨i, ?_, ?_⟩
      · rw [sendBlocked_procSet, sendBlocked_procSet, if_pos hjc]
        split <;> exact hi
      · rw [sendBlocked_procSet]
        split
        · simp
        · exact hr i hi
    · rw [sendBlocked_procSet, if_neg hjc] at hj ⊢
      refine Or.inl ⟨hj, rfl, fun l _ hused => ?_⟩
      rw [sendBlocked_procSet]
      split
      · exact ⟨rfl, by simp⟩
      · exact ⟨rfl, hused⟩
  | delivered _ _ _ =>
    exact (h.update (sendDelivered_procSet k r c _) (by decide) (by decide)).yieldTo _

/-- Nor does `sys_recv`. -/
theorem RecvOutcome.waitsOnLive (h : WaitsOnLive k) (ho : RecvOutcome k k') : WaitsOnLive k' := by
  cases ho with
  | blocked _ _ => exact (h.update (recvBlocked_procSet k) (by decide) (by decide)).yieldTo _
  | taken _ _ _ => exact (h.update (recvTaken_procSet k _) (by decide) (by decide)).yieldTo _

/-- Freeing slots that no process that stays waits for. -/
theorem WaitsOnLive.free (h : WaitsOnLive k) {freed : Fin maxNprocess → Prop}
    (hpid : ∀ j, (k'.procSet j).pid = (k.procSet j).pid)
    (hrecv : ∀ j, (k'.procSet j).receiverPid = (k.procSet j).receiverPid)
    (hwait : ∀ j, (k'.procSet j).status = .waitToSend →
      (k.procSet j).status = .waitToSend ∧ ¬ freed j)
    (hused : ∀ j, ¬ freed j → (k.procSet j).status ≠ .unused → (k'.procSet j).status ≠ .unused)
    (hkeep : NoneWaitsFor k freed) : WaitsOnLive k' := by
  refine h.congr fun i hi => Or.inl ?_
  obtain ⟨hold, hstays⟩ := hwait i hi
  exact ⟨hold, hrecv i, fun j hj hl => ⟨hpid j, hused j (hkeep i j hold hstays hj) hl⟩⟩

/-- Every step that keeps receivers keeps the waits in order. -/
theorem WaitsOnLive.step {a : Action M} (hs : Scheduled m.kernel) (h : WaitsOnLive m.kernel)
    (hok : KeepsReceivers m a) (hstep : step m a = some m') : WaitsOnLive m'.kernel := by
  cases step_outcome hs hstep with
  | send ho => exact ho.waitsOnLive h hok
  | recv ho => exact ho.waitsOnLive h
  | softSend _ => exact absurd rfl hok.1
  | softRecv _ => exact absurd rfl hok.1
  | ignored _ => exact h
  | @killed id next huser _ =>
    refine WaitsOnLive.yieldTo (h.free (killed_pid _) (killed_receiverPid _) (fun j hj => ?_)
      (fun j hj hu => ?_) (hok.2 rfl huser)) next
    · rw [killed_status] at hj
      split_ifs at hj with h1 h2
      exact ⟨hj, h2⟩
    · rw [killed_status, if_neg hj]
      split_ifs
      · decide
      · exact hu
  | preempted _ _ => exact h.yieldTo _
  | @alloc i _ _ hi =>
    refine h.congr fun j hj => Or.inl ?_
    rw [allocated_procSet] at hj ⊢
    split at hj
    · cases hj
    · rename_i hji
      rw [if_neg hji]
      refine ⟨hj, rfl, fun l _ hused => ?_⟩
      rw [allocated_procSet, if_neg fun he => hused (by rw [he]; exact hi)]
      exact ⟨rfl, hused⟩
  | @setReady pid _ _ =>
    have hset : ∀ j, (procSetReady m.kernel pid).procSet j = if (m.kernel.procSet j).pid = pid then
        { m.kernel.procSet j with status := .ready } else m.kernel.procSet j := fun _ => rfl
    refine h.congr fun j hj => Or.inl ⟨?_, ?_, fun l _ hused => ⟨?_, ?_⟩⟩
    · rw [hset] at hj
      split at hj
      · cases hj
      · exact hj
    · rw [hset]
      split <;> rfl
    · rw [hset]
      split <;> rfl
    · rw [hset]
      split
      · simp
      · exact hused
  | @free pid _ _ =>
    refine h.free (fun j => ?_) (fun j => ?_) (fun j hj => ?_) (fun j hj hu => ?_) hok
    · rw [procFree_procSet]
      split <;> rfl
    · rw [procFree_procSet]
      split <;> rfl
    · rw [procFree_procSet] at hj
      split at hj
      · cases hj
      · rename_i hf
        exact ⟨hj, hf⟩
    · rw [procFree_procSet, if_neg hj]
      exact hu

/-- The waits are in order in every run whose steps keep receivers. -/
theorem waitsOnLive_of_reach {area : ℤ → Syscall M}
    (h : Reach step KeepsReceivers (bootMachine area) m) : WaitsOnLive m.kernel := by
  have hinv : MachineOk m ∧ WaitsOnLive m.kernel := by
    refine Reach.invariant (P := fun m => MachineOk m ∧ WaitsOnLive m.kernel) h
      ⟨machineOk_boot area, ?_⟩ fun s a s' hs hok hstep =>
        ⟨hs.1.step hstep, hs.2.step hs.1.scheduled hok hstep⟩
    intro i hi
    simp only [bootMachine, boot] at hi
    split at hi <;> cases hi
  exact hinv.2

/-- In every run whose steps keep receivers, every process that waits to send waits for one that
exists, and a call of `sys_send` that names no process returns `-1` to its caller. -/
theorem no_wait_on_dead {area : ℤ → Syscall M}
    (h : Reach step KeepsReceivers (bootMachine area) m) :
    WaitsOnLive m.kernel ∧
    ∀ r c m', (∀ j, (m.kernel.procSet j).pid = r → (m.kernel.procSet j).status = .unused) →
      KeepsReceivers m (.send r c) → step m (.send r c) = some m' →
      m'.kernel.currPid = m.kernel.currPid ∧ m'.kernel.sc.retval = -1 := by
  refine ⟨waitsOnLive_of_reach h, fun r c m' hdead hok hstep => ?_⟩
  have hm := (h.mono fun _ _ _ => trivial).invariant (machineOk_boot area)
    fun _ _ _ hm _ hstep => hm.step hstep
  have hnone : ∀ j, (m.kernel.procSet j).pid ≠ r := fun j hj => hok j hj (hdead j hj)
  cases step_outcome hm.scheduled hstep with
  | send ho =>
    cases ho with
    | missing _ =>
      refine ⟨rfl, ?_⟩
      have hsc : (sendMissing m.kernel r c).sc
          = ⟨.unused, ⟨m.kernel.currPid, r, c⟩, -1⟩ := by
        simp only [Kernel.sc, sendMissing, sendTrapped, hm.scheduled.mmu, Function.update_self]
      exact congrArg Syscall.retval hsc
    | blocked hi _ _ => exact absurd hi (hnone _)
    | delivered hi _ _ => exact absurd hi (hnone _)

/-- With the servers started and one request served, a call that names pid 9, which no slot has,
returns `-1`. -/
theorem no_wait_on_dead_served :
    ∃ m m' : Machine Unit, Reach step KeepsReceivers (bootMachine nullArea) m ∧
      step m (.send 9 ()) = some m' ∧ m'.kernel.sc.retval = -1 := by
  have hrun : (runActions step (bootMachine nullArea) (clientKilled.take 13)).any (fun m =>
      decide ((∀ j, (m.kernel.procSet j).pid ≠ 9) ∧ KeepsReceivers m (.send 9 ())) &&
        (step m (.send 9 ())).isSome) = true := by decide +kernel
  have hmeets : runMeets step (fun m a => decide (KeepsReceivers m a)) (bootMachine nullArea)
      (clientKilled.take 13) = true := by decide +kernel
  obtain ⟨m, hm, hcheck⟩ := (Option.any_eq_true _ _).1 hrun
  rw [Bool.and_eq_true, decide_eq_true_iff] at hcheck
  obtain ⟨⟨hnone, hok⟩, hsome⟩ := hcheck
  obtain ⟨m', hm'⟩ := Option.isSome_iff_exists.1 hsome
  have hreach : Reach step KeepsReceivers (bootMachine nullArea) m :=
    Reach.of_runActions (fun _ _ => of_decide_eq_true) _ .init hm hmeets
  exact ⟨m, m', hreach, hm', ((no_wait_on_dead hreach).2 9 () m'
    (fun j hj => absurd hj (hnone j)) hok hm').2⟩

/-- The client is gone, and `GPID_FILE` waits to send its answer to it. -/
theorem file_server_waits_on_dead :
    ∃ m : Machine Unit, Reach step (fun _ _ => True) (bootMachine nullArea) m ∧
      (m.kernel.procSet 1).pid = gpidFile ∧ (m.kernel.procSet 1).status = .waitToSend ∧
      (m.kernel.procSet 1).receiverPid = 5 ∧ ¬ WaitsOnLive m.kernel := by
  have hrun : (runActions step (bootMachine nullArea) clientKilled).any (fun m =>
      decide (((m.kernel.procSet 1).pid = gpidFile ∧ (m.kernel.procSet 1).status = .waitToSend ∧
        (m.kernel.procSet 1).receiverPid = 5) ∧
        ∀ j, (m.kernel.procSet j).pid = 5 → (m.kernel.procSet j).status = .unused)) = true := by
    decide +kernel
  obtain ⟨m, hm, hcheck⟩ := (Option.any_eq_true _ _).1 hrun
  rw [decide_eq_true_iff] at hcheck
  obtain ⟨⟨hpid, hwait, hrecv⟩, hgone⟩ := hcheck
  refine ⟨m, .of_runActions_true _ hm, hpid, hwait, hrecv, fun hlive => ?_⟩
  obtain ⟨j, hj, hused⟩ := hlive 1 hwait
  exact hused (hgone j (hj.trans hrecv))

end Egos.Grass
