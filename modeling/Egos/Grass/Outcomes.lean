import Egos.Grass.Table

/-!
# What a step of the kernel does

The handlers are long compositions of small updates. Here each is taken apart once: from a state in
which the kernel has returned to a process, a system call has one of a few outcomes
(`SendOutcome`, `RecvOutcome`), and so has every action of the machine (`StepOutcome`). Invariants
are proved over the outcomes.
-/

namespace Egos.Grass

variable {M : Type} {k k' : Kernel M}

/-! ## What a system call does -/

/-- `ctx_entry` returns to the current process. -/
def returnTo (k : Kernel M) : Kernel M := k.note (.run k.currPid k.sc.retval k.sc.msg)

/-- The kernel with a call of `sys_send` taken in. -/
def sendTrapped (k : Kernel M) (receiver : ℤ) (content : M) : Kernel M :=
  { k with
    area := Function.update k.area k.currPid ⟨.unused, ⟨k.currPid, receiver, content⟩, 0⟩
    log := .trap k.currPid (.send receiver content) :: k.log }

/-- No slot has the pid of the receiver. -/
def sendMissing (k : Kernel M) (receiver : ℤ) (content : M) : Kernel M :=
  { sendTrapped k receiver content with
    area := Function.update k.area k.currPid ⟨.unused, ⟨k.currPid, receiver, content⟩, -1⟩ }

/-- The receiver is not waiting for a message. -/
def sendBlocked (k : Kernel M) (receiver : ℤ) (content : M) : Kernel M :=
  (sendTrapped k receiver content).setCurr
    { k.procSet k.procCurrIdx with status := .waitToSend, receiverPid := receiver }

/-- The message is copied to the receiver in slot `i`. -/
def sendDelivered (k : Kernel M) (receiver : ℤ) (content : M) (i : Fin maxNprocess) : Kernel M :=
  (copyMsg (sendTrapped k receiver content) k.currPid receiver).setSlot i .runnable

/-- The kernel with a call of `sys_recv` taken in. -/
def recvTrapped (k : Kernel M) : Kernel M :=
  { k with
    area := Function.update k.area k.currPid ⟨.unused, (k.area k.currPid).msg, 0⟩
    log := .trap k.currPid .recv :: k.log }

/-- No process waits to send to the current one. -/
def recvBlocked (k : Kernel M) : Kernel M :=
  (recvTrapped k).setCurr { k.procSet k.procCurrIdx with status := .waitToRecv }

/-- The message of the sender in slot `i` is copied to the current process. -/
def recvTaken (k : Kernel M) (i : Fin maxNprocess) : Kernel M :=
  (copyMsg (recvTrapped k) (k.procSet i).pid k.currPid).setSlot i .runnable

section slots

variable (k : Kernel M) (r : ℤ) (c : M) (i j : Fin maxNprocess)

/-- The table after a write to the current slot. -/
theorem Kernel.setCurr_procSet (p : Process) :
    (k.setCurr p).procSet j = if j = k.procCurrIdx then p else k.procSet j := by
  rw [Kernel.setCurr]
  by_cases hj : j = k.procCurrIdx
  · subst hj
    rw [if_pos rfl]
    exact Function.update_self _ _ _
  · rw [if_neg hj]
    exact Function.update_of_ne hj _ _

/-- The area of the sender, when `proc_send` has filled it. -/
theorem sendTrapped_area_self :
    (sendTrapped k r c).area k.currPid = ⟨.unused, ⟨k.currPid, r, c⟩, 0⟩ :=
  Function.update_self _ _ _

/-- The table when the sender waits. -/
@[simp] theorem sendBlocked_procSet : (sendBlocked k r c).procSet j
    = if j = k.procCurrIdx then ⟨(k.procSet j).pid, .waitToSend, r⟩ else k.procSet j := by
  refine ((sendTrapped k r c).setCurr_procSet j _).trans (if_ctx_congr Iff.rfl ?_ fun _ => rfl)
  intro hj
  rw [show j = k.procCurrIdx from hj]

/-- The table when the receiver waits. -/
@[simp] theorem recvBlocked_procSet : (recvBlocked k).procSet j
    = if j = k.procCurrIdx then { k.procSet j with status := .waitToRecv } else k.procSet j := by
  refine ((recvTrapped k).setCurr_procSet j _).trans (if_ctx_congr Iff.rfl ?_ fun _ => rfl)
  intro hj
  rw [show j = k.procCurrIdx from hj]

/-- The table when the message has gone to a receiver that waited. -/
@[simp] theorem sendDelivered_procSet : (sendDelivered k r c i).procSet j
    = if j = i then { k.procSet j with status := .runnable } else k.procSet j :=
  Kernel.setSlot_procSet _ _ _ _

/-- The table when the message of a sender that waited has been taken. -/
@[simp] theorem recvTaken_procSet : (recvTaken k i).procSet j
    = if j = i then { k.procSet j with status := .runnable } else k.procSet j :=
  Kernel.setSlot_procSet _ _ _ _

end slots

/-- A change of one slot in use that keeps its pid and does not mark it as running keeps the table
in order. -/
theorem TableOk.update (h : TableOk k) (honly : OnlyCurrRuns k) {i : Fin maxNprocess}
    {status : ProcStatus} {receiverPid : Fin maxNprocess → ℤ}
    (hn : k'.procNprocs = k.procNprocs) (hcurr : k'.procCurrIdx = k.procCurrIdx)
    (hset : ∀ j, k'.procSet j
      = if j = i then ⟨(k.procSet j).pid, status, receiverPid j⟩ else k.procSet j)
    (hi : (k.procSet i).status ≠ .unused) (hrun : status ≠ .running) :
    TableOk k' ∧ OnlyCurrRuns k' := by
  refine ⟨h.congr hn (fun j => ?_) fun j hj => ?_, fun j hj => ?_⟩
  · rw [hset j]
    split <;> rfl
  · rw [hset j, if_neg]
    · exact h.pid_zero j hj
    · rintro rfl
      exact hi (h.pid_zero _ hj)
  · rw [hset j] at hj
    rw [hcurr]
    split at hj
    · exact absurd hj hrun
    · exact honly j hj

/-- A search that keeps the last match ends with a match or with what it started with. -/
theorem foldl_last {ι β : Type} (P : ι → Prop) [DecidablePred P] (f : ι → β) :
    ∀ (l : List ι) (b : β),
      (l.foldl (fun acc i => if P i then f i else acc) b = b ∧ ∀ i ∈ l, ¬ P i) ∨
        ∃ i ∈ l, P i ∧ l.foldl (fun acc i => if P i then f i else acc) b = f i
  | [], b => Or.inl ⟨rfl, by simp⟩
  | x :: l, b => by
    rw [List.foldl_cons]
    rcases foldl_last P f l (if P x then f x else b) with ⟨heq, hno⟩ | ⟨i, hi, hP, heq⟩
    · rw [heq]
      by_cases hx : P x
      · exact Or.inr ⟨x, by simp, hx, if_pos hx⟩
      · exact Or.inl ⟨if_neg hx, by simpa [hx] using hno⟩
    · exact Or.inr ⟨i, by simp [hi], hP, heq⟩

/-- The loop of `proc_recv` finds a slot that waits to send to the current process, if any. -/
theorem findSender_spec (k : Kernel M) :
    (findSender k = -1 ∧ ∀ i, ¬ ((k.procSet i).status = .waitToSend ∧
      (k.procSet i).receiverPid = k.currPid)) ∨
    ∃ i, ((k.procSet i).status = .waitToSend ∧ (k.procSet i).receiverPid = k.currPid) ∧
      findSender k = (k.procSet i).pid := by
  rcases foldl_last (fun i => (k.procSet i).status = .waitToSend ∧
    (k.procSet i).receiverPid = k.currPid) (fun i => (k.procSet i).pid)
    (List.finRange maxNprocess) (-1) with ⟨heq, hno⟩ | ⟨i, -, hi, heq⟩
  · exact Or.inl ⟨heq, fun i => hno i (List.mem_finRange i)⟩
  · exact Or.inr ⟨i, hi, heq⟩

/-- What a call of `sys_send` by the current process leads to. -/
inductive SendOutcome (k : Kernel M) (r : ℤ) (c : M) : Kernel M → Prop
  | missing : (∀ i, (k.procSet i).pid ≠ r) → SendOutcome k r c (returnTo (sendMissing k r c))
  | blocked {i next : Fin maxNprocess} : (k.procSet i).pid = r →
      (k.procSet i).status ≠ .waitToRecv → nextIdx (sendBlocked k r c) = some next →
      SendOutcome k r c (returnTo (yieldTo (sendBlocked k r c) next))
  | delivered {i next : Fin maxNprocess} : (k.procSet i).pid = r →
      (k.procSet i).status = .waitToRecv → nextIdx (sendDelivered k r c i) = some next →
      SendOutcome k r c (returnTo (yieldTo (sendDelivered k r c i) next))

/-- What a call of `sys_recv` by the current process leads to. -/
inductive RecvOutcome (k : Kernel M) : Kernel M → Prop
  | blocked {next : Fin maxNprocess} :
      (∀ i, ¬ ((k.procSet i).status = .waitToSend ∧ (k.procSet i).receiverPid = k.currPid)) →
      nextIdx (recvBlocked k) = some next →
      RecvOutcome k (returnTo (yieldTo (recvBlocked k) next))
  | taken {i next : Fin maxNprocess} : (k.procSet i).status = .waitToSend →
      (k.procSet i).receiverPid = k.currPid → nextIdx (recvTaken k i) = some next →
      RecvOutcome k (returnTo (yieldTo (recvTaken k i) next))

/-- The current slot is in use. -/
theorem Scheduled.curr_used (h : Scheduled k) :
    (k.procSet k.procCurrIdx).status ≠ .unused := by
  rw [show (k.procSet k.procCurrIdx).status = .running from h.running]
  decide

/-- A sender that waits keeps the table in order. -/
theorem Scheduled.sendBlocked (h : Scheduled k) {r : ℤ} {c : M} :
    TableOk (sendBlocked k r c) ∧ OnlyCurrRuns (sendBlocked k r c) :=
  h.table.update h.only rfl rfl (sendBlocked_procSet k r c) h.curr_used (by decide)

/-- So does a delivery to a receiver that waited. -/
theorem Scheduled.sendDelivered (h : Scheduled k) {r : ℤ} {c : M} {i : Fin maxNprocess}
    (hi : (k.procSet i).status = .waitToRecv) :
    TableOk (sendDelivered k r c i) ∧ OnlyCurrRuns (sendDelivered k r c i) :=
  h.table.update h.only rfl rfl (sendDelivered_procSet k r c i) (by rw [hi]; decide) (by decide)

/-- So does a receiver that waits. -/
theorem Scheduled.recvBlocked (h : Scheduled k) :
    TableOk (recvBlocked k) ∧ OnlyCurrRuns (recvBlocked k) :=
  h.table.update h.only rfl rfl (recvBlocked_procSet k) h.curr_used (by decide)

/-- So does taking the message of a sender that waited. -/
theorem Scheduled.recvTaken (h : Scheduled k) {i : Fin maxNprocess}
    (hi : (k.procSet i).status = .waitToSend) :
    TableOk (recvTaken k i) ∧ OnlyCurrRuns (recvTaken k i) :=
  h.table.update h.only rfl rfl (recvTaken_procSet k i) (by rw [hi]; decide) (by decide)

/-- `ctx_entry` with a handler that ends in `proc_yield`. -/
theorem ctxEntry_procYield (h : TableOk k) (hrun : ctxEntry procYield k = .ok k') :
    ∃ next, nextIdx k = some next ∧ k' = returnTo (yieldTo k next) := by
  rw [ctxEntry, procYield_eq h] at hrun
  cases hnext : nextIdx k with
  | none =>
    rw [hnext] at hrun
    cases hrun
  | some next =>
    rw [hnext] at hrun
    cases hrun
    exact ⟨next, rfl, rfl⟩

/-- `proc_send` after its first assignment. -/
theorem procSend_eq {k₁ k₂ : Kernel M}
    (hk₂ : k₁.setSc { k₁.sc with msg := { k₁.sc.msg with sender := k₁.currPid } } = k₂) :
    procSend k₁ =
      match (List.finRange maxNprocess).find? fun i => (k₂.procSet i).pid = k₂.sc.msg.receiver with
      | some i =>
        if (k₂.procSet i).status ≠ .waitToRecv then
          procYield (k₂.setCurr { k₂.procSet k₂.procCurrIdx with
            status := .waitToSend, receiverPid := k₂.sc.msg.receiver })
        else procYield (procSetRunnable (copyMsg k₂ k₂.currPid k₂.sc.msg.receiver)
          k₂.sc.msg.receiver)
      | none => .ok (k₂.setSc { k₂.sc with retval := -1 }) := by
  subst hk₂
  rfl

/-- The visible area, when `proc_send` has filled it. -/
theorem sendTrapped_sc (hmmu : k.mmuPid = k.currPid) (r : ℤ) (c : M) :
    (sendTrapped k r c).sc = ⟨.unused, ⟨k.currPid, r, c⟩, 0⟩ := by
  simp only [Kernel.sc, sendTrapped, hmmu, Function.update_self]

/-- `proc_send` from the kernel with the call taken in. -/
theorem procSyscall_send (hmmu : k.mmuPid = k.currPid) {r : ℤ} {c : M}
    (hsc : k.sc.type = .send ∧ k.sc.msg.receiver = r ∧ k.sc.msg.content = c) :
    procSyscall k =
      match (List.finRange maxNprocess).find? fun i => (k.procSet i).pid = r with
      | some i =>
        if (k.procSet i).status ≠ .waitToRecv then procYield (sendBlocked k r c)
        else procYield (procSetRunnable (copyMsg (sendTrapped k r c) k.currPid r) r)
      | none => .ok (sendMissing k r c) := by
  obtain ⟨htype, rfl, rfl⟩ := hsc
  have htrap : ∀ k₁ : Kernel M,
      k₁ = (k.setSc { k.sc with retval := 0, type := .unused }).note
        (.trap k.currPid (.send k.sc.msg.receiver k.sc.msg.content)) →
      k₁.setSc { k₁.sc with msg := { k₁.sc.msg with sender := k₁.currPid } }
        = sendTrapped k k.sc.msg.receiver k.sc.msg.content := by
    rintro k₁ rfl
    simp only [Kernel.setSc, Kernel.note, Kernel.sc, Kernel.currPid, sendTrapped,
      Function.update_self, Function.update_idem]
    rw [hmmu, Kernel.currPid]
  have hmissing : (sendTrapped k k.sc.msg.receiver k.sc.msg.content).setSc
      { (sendTrapped k k.sc.msg.receiver k.sc.msg.content).sc with retval := -1 }
      = sendMissing k k.sc.msg.receiver k.sc.msg.content := by
    rw [sendTrapped_sc hmmu, Kernel.setSc, sendMissing]
    simp only [sendTrapped, hmmu, Function.update_idem]
  unfold procSyscall
  rw [htype]
  refine (procSend_eq (htrap _ rfl)).trans ?_
  rw [hmissing, sendTrapped_sc hmmu]
  rfl

/-- A call of `sys_send` has one of its outcomes. -/
theorem syscall_send_spec (h : Scheduled k) {r : ℤ} {c : M}
    (hsc : k.sc.type = .send ∧ k.sc.msg.receiver = r ∧ k.sc.msg.content = c)
    (hrun : ctxEntry procSyscall k = .ok k') : SendOutcome k r c k' := by
  rw [ctxEntry, procSyscall_send h.mmu hsc] at hrun
  cases hfind : (List.finRange maxNprocess).find? fun i => (k.procSet i).pid = r with
  | none =>
    rw [hfind] at hrun
    cases hrun
    refine .missing fun i => ?_
    have := List.find?_eq_none.1 hfind i (List.mem_finRange i)
    simpa using this
  | some i =>
    have hi : (k.procSet i).pid = r := by simpa using List.find?_some hfind
    rw [hfind] at hrun
    simp only at hrun
    by_cases hw : (k.procSet i).status = .waitToRecv
    · have hpid : (k.procSet i).pid ≠ 0 := h.table.pid_ne_zero (by rw [hw]; decide)
      have hset : procSetRunnable (copyMsg (sendTrapped k r c) k.currPid r) r
          = sendDelivered k r c i := by
        rw [← hi]
        exact procSetStatus_eq (k := copyMsg (sendTrapped k _ c) k.currPid _)
          (h.table.congr rfl (fun _ => rfl) h.table.pid_zero) hpid .runnable
      rw [if_neg (not_not.2 hw), hset] at hrun
      obtain ⟨next, hnext, rfl⟩ := ctxEntry_procYield (h.sendDelivered hw).1 hrun
      exact .delivered hi hw hnext
    · rw [if_pos hw] at hrun
      obtain ⟨next, hnext, rfl⟩ := ctxEntry_procYield h.sendBlocked.1 hrun
      exact .blocked hi hw hnext

/-- A call of `sys_recv` has one of its outcomes. -/
theorem syscall_recv_spec (h : Scheduled k) (hsc : k.sc.type = .recv)
    (hrun : ctxEntry procSyscall k = .ok k') : RecvOutcome k k' := by
  have htrap : (k.setSc { k.sc with retval := 0, type := .unused }).note (.trap k.currPid .recv)
      = recvTrapped k := by
    simp only [Kernel.setSc, Kernel.note, Kernel.sc, recvTrapped, h.mmu]
  have hsyscall : procSyscall k = procRecv (recvTrapped k) := by
    unfold procSyscall
    rw [hsc]
    exact congrArg procRecv htrap
  rw [ctxEntry, hsyscall, procRecv] at hrun
  simp only at hrun
  rcases findSender_spec (recvTrapped k) with ⟨hfind, hno⟩ | ⟨i, ⟨hw, hr⟩, hfind⟩
  · rw [if_pos hfind] at hrun
    obtain ⟨next, hnext, rfl⟩ := ctxEntry_procYield h.recvBlocked.1 hrun
    exact .blocked hno hnext
  · have hpid : (k.procSet i).pid ≠ 0 := by
      refine h.table.pid_ne_zero ?_
      rw [show (k.procSet i).status = .waitToSend from hw]
      decide
    have hrange := h.table.pid_range i
    have hset : procSetRunnable (copyMsg (recvTrapped k) (k.procSet i).pid k.currPid)
        (k.procSet i).pid = recvTaken k i :=
      procSetStatus_eq (k := copyMsg (recvTrapped k) _ _)
        (h.table.congr rfl (fun _ => rfl) h.table.pid_zero) hpid .runnable
    have hfind' : findSender (recvTrapped k) = (k.procSet i).pid := hfind
    rw [hfind', if_neg (by omega)] at hrun
    change ctxEntry procYield (procSetRunnable (copyMsg (recvTrapped k) (k.procSet i).pid
      k.currPid) (k.procSet i).pid) = .ok k' at hrun
    rw [hset] at hrun
    obtain ⟨next, hnext, rfl⟩ := ctxEntry_procYield (h.recvTaken hw).1 hrun
    exact .taken hw hr hnext

/-! ## What a step of the machine does -/

/-- The kernel with the current process taken down and the shell runnable. -/
def killed (k : Kernel M) : Kernel M := procSetRunnable (k.setSlot k.procCurrIdx .unused) gpidShell

/-- The kernel with a new process in slot `i`. -/
def allocated (k : Kernel M) (i : Fin maxNprocess) : Kernel M :=
  { k with
    procNprocs := k.procNprocs + 1
    procSet := Function.update k.procSet i
      { k.procSet i with pid := k.procNprocs + 1, status := .loading } }

/-- Freeing the current user process frees the current slot. -/
theorem procFree_curr (h : Scheduled k) (huser : k.currPid ≥ gpidUserStart) :
    procFree k k.currPid = k.setSlot k.procCurrIdx .unused := by
  rw [procFree, if_pos fun he => absurd (he ▸ huser) (by decide)]
  exact procSetStatus_eq h.table (h.table.pid_ne_zero h.curr_used) _

/-- What an action leads to. -/
inductive StepOutcome (m : Machine M) : Action M → Machine M → Prop
  | send {r : ℤ} {c : M} {k' : Kernel M} : SendOutcome m.kernel r c k' →
      StepOutcome m (.send r c) ⟨k', m.allocated⟩
  | recv {k' : Kernel M} : RecvOutcome m.kernel k' → StepOutcome m .recv ⟨k', m.allocated⟩
  | ignored {b : Bool} : m.kernel.currPid < gpidShell → StepOutcome m (.intr intrIdTimer b) m
  | killed {id : ℕ} {next : Fin maxNprocess} : m.kernel.currPid ≥ gpidUserStart →
      nextIdx (killed m.kernel) = some next →
      StepOutcome m (.intr id true) ⟨returnTo (yieldTo (killed m.kernel) next), m.allocated⟩
  | softSend {b : Bool} {k' : Kernel M} :
      SendOutcome m.kernel m.kernel.sc.msg.receiver m.kernel.sc.msg.content k' →
      StepOutcome m (.intr intrIdSoft b) ⟨k', m.allocated⟩
  | softRecv {b : Bool} {k' : Kernel M} : RecvOutcome m.kernel k' →
      StepOutcome m (.intr intrIdSoft b) ⟨k', m.allocated⟩
  | preempted {b : Bool} {next : Fin maxNprocess} : m.kernel.currPid ≥ gpidShell →
      nextIdx m.kernel = some next →
      StepOutcome m (.intr intrIdTimer b) ⟨returnTo (yieldTo m.kernel next), m.allocated⟩
  | alloc {i : Fin maxNprocess} : m.kernel.currPid = gpidProcess →
      m.kernel.procNprocs + 1 < 2 ^ 31 → (m.kernel.procSet i).status = .unused →
      StepOutcome m .alloc ⟨allocated m.kernel i, some (m.kernel.procNprocs + 1)⟩
  | setReady {pid : ℤ} : m.kernel.currPid = gpidProcess → m.allocated = some pid →
      StepOutcome m (.setReady pid) ⟨procSetReady m.kernel pid, none⟩
  | free {pid : ℤ} : m.kernel.currPid = gpidProcess → (pid ≥ gpidUserStart ∨ pid = -1) →
      StepOutcome m (.free pid) ⟨procFree m.kernel pid, m.allocated⟩

/-- A kill leaves the pids. -/
@[simp] theorem killed_pid (k : Kernel M) (j : Fin maxNprocess) :
    ((killed k).procSet j).pid = (k.procSet j).pid := by
  rw [killed, procSetRunnable, procSetStatus]
  dsimp only
  split <;> simp

/-- A kill leaves the receivers. -/
@[simp] theorem killed_receiverPid (k : Kernel M) (j : Fin maxNprocess) :
    ((killed k).procSet j).receiverPid = (k.procSet j).receiverPid := by
  rw [killed, procSetRunnable, procSetStatus]
  dsimp only
  split <;> simp

/-- The current slot is free after a kill, and the shell is runnable. -/
@[simp] theorem killed_status (k : Kernel M) (j : Fin maxNprocess) :
    ((killed k).procSet j).status
      = if (k.procSet j).pid = gpidShell then .runnable
        else if j = k.procCurrIdx then .unused else (k.procSet j).status := by
  rw [killed, procSetRunnable, procSetStatus]
  dsimp only
  rw [Kernel.setSlot_pid]
  split <;> simp

/-- A kill keeps the table in order. -/
theorem Scheduled.killed (h : Scheduled k) :
    TableOk (killed k) ∧ OnlyCurrRuns (killed k) := by
  refine ⟨h.table.congr rfl (killed_pid k) fun j hj => ?_, fun j hj => ?_⟩
  · rw [killed_status, if_neg (by rw [hj]; decide)]
    split
    · rfl
    · exact h.table.pid_zero j hj
  · rw [killed_status] at hj
    split_ifs at hj with h1 h2
    exact absurd (h.only j hj) h2

/-- The areas do not matter to the schedule. -/
theorem Scheduled.setSc (h : Scheduled k) (sc : Syscall M) : Scheduled (k.setSc sc) :=
  ⟨h.table.congr rfl (fun _ => rfl) h.table.pid_zero, h.running, h.only, h.mmu⟩

/-- The area that a call leaves behind does not depend on what its process had put there. -/
theorem SendOutcome.of_setSc (hmmu : k.mmuPid = k.currPid) {sc : Syscall M} {r : ℤ} {c : M}
    (h : SendOutcome (k.setSc sc) r c k') : SendOutcome k r c k' := by
  have htrap : sendTrapped (k.setSc sc) r c = sendTrapped k r c := by
    simp only [sendTrapped, Kernel.setSc, Kernel.currPid, hmmu, Function.update_idem]
  have hmissing : sendMissing (k.setSc sc) r c = sendMissing k r c := by
    rw [sendMissing, htrap]
    simp only [sendMissing, Kernel.setSc, Kernel.currPid, hmmu, Function.update_idem]
  have hblocked : sendBlocked (k.setSc sc) r c = sendBlocked k r c := by
    rw [sendBlocked, htrap]
    rfl
  have hdelivered : ∀ i, sendDelivered (k.setSc sc) r c i = sendDelivered k r c i := by
    intro i
    rw [sendDelivered, htrap]
    rfl
  cases h with
  | missing hno => rw [hmissing]; exact .missing hno
  | blocked hi hw hnext => rw [hblocked] at hnext ⊢; exact .blocked hi hw hnext
  | delivered hi hw hnext => rw [hdelivered] at hnext ⊢; exact .delivered hi hw hnext

/-- For `sys_recv` only the message in the area counts. -/
theorem RecvOutcome.of_setSc (hmmu : k.mmuPid = k.currPid) {sc : Syscall M}
    (hsc : sc.msg = k.sc.msg) (h : RecvOutcome (k.setSc sc) k') : RecvOutcome k k' := by
  have htrap : recvTrapped (k.setSc sc) = recvTrapped k := by
    have hmsg : (k.area k.currPid).msg = sc.msg := by rw [hsc, Kernel.sc, hmmu]
    have hcurr : (k.setSc sc).currPid = k.currPid := rfl
    rw [recvTrapped, recvTrapped, hcurr]
    simp only [Kernel.setSc, hmmu, Function.update_self, Function.update_idem, hmsg]
  have hblocked : recvBlocked (k.setSc sc) = recvBlocked k := by
    rw [recvBlocked, htrap]
    rfl
  have htaken : ∀ i, recvTaken (k.setSc sc) i = recvTaken k i := by
    intro i
    rw [recvTaken, htrap]
    rfl
  cases h with
  | blocked hno hnext => rw [hblocked] at hnext ⊢; exact .blocked hno hnext
  | taken hw hr hnext => rw [htaken] at hnext ⊢; exact .taken hw hr hnext

/-- A system call that returns is one of the two. -/
theorem ctxEntry_procSyscall (h : Scheduled k) (hrun : ctxEntry procSyscall k = .ok k') :
    SendOutcome k k.sc.msg.receiver k.sc.msg.content k' ∨ RecvOutcome k k' := by
  cases htype : k.sc.type with
  | send => exact Or.inl (syscall_send_spec h ⟨htype, rfl, rfl⟩ hrun)
  | recv => exact Or.inr (syscall_recv_spec h htype hrun)
  | unused | ncalls | other =>
    rw [ctxEntry, procSyscall, htype] at hrun
    cases hrun

/-- Every step of the machine has one of the outcomes. -/
theorem step_outcome {m m' : Machine M} {a : Action M} (h : Scheduled m.kernel)
    (hstep : step m a = some m') : StepOutcome m a m' := by
  cases a with
  | send r c =>
    obtain ⟨k', hk', rfl⟩ := Option.map_eq_some_iff.1 hstep
    have hrun : ctxEntry procSyscall (m.kernel.setSc { m.kernel.sc with
        type := .send, msg := { m.kernel.sc.msg with receiver := r, content := c } }) = .ok k' :=
      eq_ok_of_toOption hk'
    refine .send (.of_setSc h.mmu (syscall_send_spec (h.setSc _) ?_ hrun))
    simp [Kernel.sc, Kernel.setSc]
  | recv =>
    obtain ⟨k', hk', rfl⟩ := Option.map_eq_some_iff.1 hstep
    have hrun : ctxEntry procSyscall (m.kernel.setSc { m.kernel.sc with type := .recv })
        = .ok k' := eq_ok_of_toOption hk'
    have hmsg : { m.kernel.sc with type := .recv }.msg = m.kernel.sc.msg := rfl
    refine .recv (.of_setSc h.mmu hmsg (syscall_recv_spec (h.setSc _) ?_ hrun))
    simp [Kernel.sc, Kernel.setSc]
  | intr id b =>
    obtain ⟨k', hk', rfl⟩ := Option.map_eq_some_iff.1 hstep
    have hrun := eq_ok_of_toOption hk'
    unfold intrEntry at hrun
    split_ifs at hrun with hkernel hkill hsoft htimer
    · cases hrun
      obtain ⟨rfl, hlt⟩ := hkernel
      exact .ignored hlt
    · obtain ⟨rfl, hge⟩ := hkill
      rw [killCurr, procFree_curr h hge] at hrun
      obtain ⟨next, hnext, rfl⟩ := ctxEntry_procYield h.killed.1 hrun
      exact .killed hge hnext
    · subst hsoft
      exact (ctxEntry_procSyscall h hrun).elim .softSend .softRecv
    · subst htimer
      obtain ⟨next, hnext, rfl⟩ := ctxEntry_procYield h.table hrun
      exact .preempted (by simpa using hkernel) hnext
  | alloc =>
    rw [step] at hstep
    split at hstep
    · rename_i hguard
      obtain ⟨r, hr, rfl⟩ := Option.map_eq_some_iff.1 hstep
      have halloc := eq_ok_of_toOption hr
      unfold procAlloc at halloc
      split at halloc
      · rename_i i hi
        cases halloc
        exact .alloc hguard.1 hguard.2 (by simpa using List.find?_some hi)
      · cases halloc
    · cases hstep
  | setReady pid =>
    rw [step] at hstep
    split at hstep
    · rename_i hguard
      cases hstep
      exact .setReady hguard.1 hguard.2
    · cases hstep
  | free pid =>
    rw [step] at hstep
    split at hstep
    · rename_i hguard
      cases hstep
      exact .free hguard.1 hguard.2
    · cases hstep

end Egos.Grass
