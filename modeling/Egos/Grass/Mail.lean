import Egos.Grass.Schedule

/-!
# The kernel as a mail room

Seen from the processes, the kernel keeps for each pid what holds the process up and the message in
its system-call area. The slots, the search for the next process and the copies by way of the kernel
stack are gone in this view: a step of the machine is one of the moves of `MailOutcome`.
-/

namespace Egos.Grass

open Function (update update_self update_of_ne)

variable {M : Type} {k k' : Kernel M} {m m' : Machine M}

/-! ## The view -/

/-- What holds a process up. -/
inductive Wait
  /-- no slot in use has the pid -/
  | gone
  | loading
  /-- nothing: it can be scheduled -/
  | free
  | toSend (receiver : ℤ)
  | toRecv
deriving DecidableEq

/-- What holds up the process in a slot. -/
def Process.wait (p : Process) : Wait :=
  match p.status with
  | .unused => .gone
  | .loading => .loading
  | .ready | .running | .runnable => .free
  | .waitToSend => .toSend p.receiverPid
  | .waitToRecv => .toRecv

namespace Kernel

/-- The first slot with a pid. -/
def slotOf (k : Kernel M) (p : ℤ) : Option (Fin maxNprocess) :=
  (List.finRange maxNprocess).find? fun i => (k.procSet i).pid = p

/-- What holds up process `p`. -/
def wait (k : Kernel M) (p : ℤ) : Wait :=
  match k.slotOf p with
  | some i => (k.procSet i).wait
  | none => .gone

/-- The message in the system-call area of process `p`. -/
def msg (k : Kernel M) (p : ℤ) : SysMsg M := (k.area p).msg

/-- The slot of a pid has that pid. -/
theorem slotOf_some {p : ℤ} {i : Fin maxNprocess} (h : k.slotOf p = some i) :
    (k.procSet i).pid = p := by
  simpa using List.find?_some h

/-- A pid without a slot is in no slot. -/
theorem slotOf_none {p : ℤ} (h : k.slotOf p = none) (i : Fin maxNprocess) :
    (k.procSet i).pid ≠ p := by
  simpa using List.find?_eq_none.1 h i (List.mem_finRange i)

/-- Slots are found by the pids alone. -/
theorem slotOf_congr (hpid : ∀ j, (k'.procSet j).pid = (k.procSet j).pid) (p : ℤ) :
    k'.slotOf p = k.slotOf p := by
  simp only [slotOf, hpid]

/-- What holds processes up depends on the pids and on the waits of the slots. -/
theorem wait_congr (hpid : ∀ j, (k'.procSet j).pid = (k.procSet j).pid)
    (hwait : ∀ j, (k'.procSet j).wait = (k.procSet j).wait) : k'.wait = k.wait := by
  funext p
  simp only [wait, slotOf_congr hpid, hwait]

/-- A process without a slot is gone. -/
theorem wait_of_slotOf_none {p : ℤ} (h : k.slotOf p = none) : k.wait p = .gone := by
  rw [wait, h]

end Kernel

/-- The slot of the pid of a slot is that slot. -/
theorem TableOk.slotOf (h : TableOk k) {i : Fin maxNprocess} (hi : (k.procSet i).pid ≠ 0) :
    k.slotOf (k.procSet i).pid = some i := by
  cases hs : k.slotOf (k.procSet i).pid with
  | none => exact absurd rfl (Kernel.slotOf_none hs i)
  | some j => exact congrArg some (h.pid_inj i j hi (Kernel.slotOf_some hs).symm).symm

/-- A process is held up by what its slot says. -/
theorem TableOk.wait_slot (h : TableOk k) {i : Fin maxNprocess} (hi : (k.procSet i).pid ≠ 0) :
    k.wait (k.procSet i).pid = (k.procSet i).wait := by
  rw [Kernel.wait, h.slotOf hi]

/-- A process that is not gone is in a slot. -/
theorem TableOk.exists_slot (h : TableOk k) {p : ℤ} (hp : k.wait p ≠ .gone) :
    ∃ i, (k.procSet i).pid = p ∧ (k.procSet i).pid ≠ 0 ∧ (k.procSet i).wait = k.wait p := by
  cases hs : k.slotOf p with
  | none => exact absurd (Kernel.wait_of_slotOf_none hs) hp
  | some i =>
    have hi := Kernel.slotOf_some hs
    have hw : k.wait p = (k.procSet i).wait := by rw [Kernel.wait, hs]
    refine ⟨i, hi, fun h0 => hp ?_, hw.symm⟩
    rw [hw, Process.wait, h.pid_zero i h0]

/-- A pid that has not been given out is that of no process. -/
theorem TableOk.wait_unborn (h : TableOk k) {p : ℤ} (hp : k.procNprocs < p) : k.wait p = .gone := by
  by_contra hw
  obtain ⟨i, rfl, -⟩ := h.exists_slot hw
  exact absurd (h.pid_range i).2 (not_le.2 hp)

/-- A change of one slot is a change of what holds up its process. -/
theorem TableOk.wait_update (h : TableOk k) (k' : Kernel M) {i : Fin maxNprocess}
    (hi : (k.procSet i).pid ≠ 0) (hpid : ∀ j, (k'.procSet j).pid = (k.procSet j).pid)
    (hset : ∀ j, j ≠ i → (k'.procSet j).wait = (k.procSet j).wait) :
    k'.wait = Function.update k.wait (k.procSet i).pid (k'.procSet i).wait := by
  funext p
  by_cases hp : p = (k.procSet i).pid
  · rw [hp, update_self, Kernel.wait, Kernel.slotOf_congr hpid, h.slotOf hi]
  · rw [update_of_ne hp, Kernel.wait, Kernel.wait, Kernel.slotOf_congr hpid]
    cases hs : k.slotOf p with
    | none => rfl
    | some j => exact hset j fun he => hp (by rw [← he]; exact (Kernel.slotOf_some hs).symm)

/-- A process that can run is not held up. -/
theorem Process.wait_of_canRun {p : Process} (h : p.status.canRun = true) : p.wait = .free := by
  cases hs : p.status <;> rw [hs] at h <;> first | (cases h; done) | (rw [Process.wait, hs])

/-- The current process is not held up. -/
theorem Scheduled.wait_curr (h : Scheduled k) : k.wait k.currPid = .free := by
  have hrun : (k.procSet k.procCurrIdx).status = .running := h.running
  rw [Kernel.currPid, h.table.wait_slot (h.table.pid_ne_zero h.curr_used), Process.wait, hrun]

/-- Yielding holds up no process and releases none. -/
theorem wait_yieldTo {next : Fin maxNprocess} (hnext : nextIdx k = some next) :
    (returnTo (yieldTo k next)).wait = k.wait := by
  refine Kernel.wait_congr (yieldTo_pid k next) fun j => ?_
  have hstatus : ((returnTo (yieldTo k next)).procSet j).status = _ := yieldTo_status k next j
  have hrecv : ((returnTo (yieldTo k next)).procSet j).receiverPid = _ :=
    yieldTo_receiverPid k next j
  split_ifs at hstatus with hj hc
  · rw [hj, Process.wait_of_canRun (p := k.procSet next) (nextIdx_canRun hnext)]
    rw [hj] at hstatus
    rw [Process.wait, hstatus]
  · have hrun : (k.procSet j).status = .running := by rw [hc.1]; exact hc.2
    rw [Process.wait, Process.wait, hstatus, hrun]
  · rw [Process.wait, Process.wait, hstatus, hrecv]

/-- `proc_yield` leaves the messages. -/
theorem msg_yieldTo (k : Kernel M) (next : Fin maxNprocess) :
    (returnTo (yieldTo k next)).msg = k.msg := by
  funext p
  exact congrArg (fun area => (area p).msg) (yieldTo_area k next)

/-! ## Moves -/

/-- The kernel after a step that gives out no pid. -/
structure Moved (k k' : Kernel M) (wait : ℤ → Wait) (msg : ℤ → SysMsg M) : Prop where
  wait : k'.wait = wait
  msg : k'.msg = msg
  nprocs : k'.procNprocs = k.procNprocs

/-- What a call of `sys_send` by the current process leads to. -/
inductive Posted (k : Kernel M) (r : ℤ) (c : M) (k' : Kernel M) : Prop
  | missing : k.wait r = .gone →
      Moved k k' k.wait (update k.msg k.currPid ⟨k.currPid, r, c⟩) → Posted k r c k'
  | blocked : k.wait r ≠ .toRecv →
      Moved k k' (update k.wait k.currPid (.toSend r))
        (update k.msg k.currPid ⟨k.currPid, r, c⟩) → Posted k r c k'
  | delivered : k.wait r = .toRecv →
      Moved k k' (update k.wait r .free)
        (update (update k.msg k.currPid ⟨k.currPid, r, c⟩) r ⟨k.currPid, r, c⟩) → Posted k r c k'

/-- What a call of `sys_recv` by the current process leads to. -/
inductive Collected (k k' : Kernel M) : Prop
  | blocked : (∀ q, k.wait q ≠ .toSend k.currPid) →
      Moved k k' (update k.wait k.currPid .toRecv) k.msg → Collected k k'
  | taken {q : ℤ} : k.wait q = .toSend k.currPid →
      Moved k k' (update k.wait q .free) (update k.msg k.currPid (k.msg q)) → Collected k k'

/-- What an action leads to, for actions other than the software interrupt. -/
inductive MailOutcome (m : Machine M) : Action M → Machine M → Prop
  | send {r : ℤ} {c : M} {k' : Kernel M} : Posted m.kernel r c k' →
      MailOutcome m (.send r c) ⟨k', m.allocated⟩
  | recv {k' : Kernel M} : Collected m.kernel k' → MailOutcome m .recv ⟨k', m.allocated⟩
  | timer {b : Bool} {k' : Kernel M} : Moved m.kernel k' m.kernel.wait m.kernel.msg →
      MailOutcome m (.intr intrIdTimer b) ⟨k', m.allocated⟩
  | killed {id : ℕ} {k' : Kernel M} : m.kernel.currPid ≥ gpidUserStart →
      (∀ q, q ≠ gpidShell →
        k'.wait q = if q = m.kernel.currPid then .gone else m.kernel.wait q) →
      (k'.wait gpidShell = .free ∨ k'.wait gpidShell = .gone ∧ m.kernel.wait gpidShell = .gone) →
      k'.msg = m.kernel.msg → k'.procNprocs = m.kernel.procNprocs →
      MailOutcome m (.intr id true) ⟨k', m.allocated⟩
  | alloc {k' : Kernel M} : m.kernel.currPid = gpidProcess →
      k'.wait = update m.kernel.wait (m.kernel.procNprocs + 1) .loading →
      k'.msg = m.kernel.msg → k'.procNprocs = m.kernel.procNprocs + 1 →
      k'.currPid = m.kernel.currPid →
      MailOutcome m .alloc ⟨k', some (m.kernel.procNprocs + 1)⟩
  | setReady {pid : ℤ} {k' : Kernel M} : m.kernel.currPid = gpidProcess → m.allocated = some pid →
      (Moved m.kernel k' (update m.kernel.wait pid .free) m.kernel.msg ∨
        Moved m.kernel k' m.kernel.wait m.kernel.msg) → k'.currPid = m.kernel.currPid →
      MailOutcome m (.setReady pid) ⟨k', none⟩
  | free {pid : ℤ} {k' : Kernel M} : m.kernel.currPid = gpidProcess →
      (pid ≥ gpidUserStart ∨ pid = -1) →
      Moved m.kernel k' (fun q => if (if pid = -1 then q ≥ gpidUserStart else q = pid) then .gone
        else m.kernel.wait q) m.kernel.msg → k'.currPid = m.kernel.currPid →
      MailOutcome m (.free pid) ⟨k', m.allocated⟩

/-! ## System calls -/

/-- Releasing the process in a slot. -/
theorem wait_release (h : TableOk k) {i : Fin maxNprocess} (hi : (k.procSet i).status ≠ .unused)
    (hset : ∀ j, k'.procSet j
      = if j = i then { k.procSet j with status := .runnable } else k.procSet j) :
    k'.wait = update k.wait (k.procSet i).pid .free := by
  have hself : (k'.procSet i).wait = .free := by
    rw [hset, if_pos rfl]
    rfl
  rw [h.wait_update k' (h.pid_ne_zero hi), hself]
  · intro j
    rw [hset]
    split <;> rfl
  · intro j hj
    rw [hset, if_neg hj]

/-- `sys_send` puts the message into the area of the sender. -/
theorem msg_sendTrapped (k : Kernel M) (r : ℤ) (c : M) :
    (sendTrapped k r c).msg = update k.msg k.currPid ⟨k.currPid, r, c⟩ := by
  funext p
  by_cases hp : p = k.currPid
  · rw [hp, update_self]
    exact congrArg Syscall.msg (sendTrapped_area_self k r c)
  · rw [update_of_ne hp]
    exact congrArg Syscall.msg (update_of_ne hp _ _)

/-- The receiver gets the message of the sender. -/
theorem msg_copyMsg (k : Kernel M) (src dst : ℤ) :
    (copyMsg k src dst).msg = update k.msg dst (k.msg src) := by
  funext p
  by_cases hp : p = dst
  · rw [hp, update_self]
    exact (congrArg Syscall.msg (update_self _ _ _) : (update k.area dst _ dst).msg = _)
  · rw [update_of_ne hp]
    exact congrArg Syscall.msg (update_of_ne hp _ _)

/-- `sys_recv` puts nothing into the area. -/
theorem msg_recvTrapped (k : Kernel M) : (recvTrapped k).msg = k.msg := by
  funext p
  by_cases hp : p = k.currPid
  · rw [hp]
    exact (congrArg Syscall.msg (update_self _ _ _) : (update k.area k.currPid _ k.currPid).msg = _)
  · exact congrArg Syscall.msg (update_of_ne hp _ _)

/-- What `sys_send` does, in terms of messages and waits. -/
theorem SendOutcome.posted {r : ℤ} {c : M} (hs : Scheduled k) (ho : SendOutcome k r c k') :
    Posted k r c k' := by
  have hcurr := hs.table.pid_ne_zero hs.curr_used
  cases ho with
  | missing hno =>
    refine .missing (Kernel.wait_of_slotOf_none ?_) ⟨?_, ?_, rfl⟩
    · exact List.find?_eq_none.2 fun i _ => by simpa using hno i
    · exact Kernel.wait_congr (fun _ => rfl) fun _ => rfl
    · rw [← msg_sendTrapped]
      funext p
      change (update k.area k.currPid _ p).msg = (update k.area k.currPid _ p).msg
      by_cases hp : p = k.currPid
      · rw [hp, update_self, update_self]
      · rw [update_of_ne hp, update_of_ne hp]
  | @blocked i next hi hw hnext =>
    have hset := sendBlocked_procSet k r c
    refine .blocked (fun hrecv => hw ?_) ⟨?_, ?_, ?_⟩
    · obtain ⟨j, hj, hj0, hjw⟩ := hs.table.exists_slot (p := r) (by rw [hrecv]; decide)
      rw [hrecv, Process.wait] at hjw
      rw [hs.table.pid_inj j i hj0 (hj.trans hi.symm)] at hjw
      revert hjw
      cases (k.procSet i).status <;> simp
    · rw [wait_yieldTo hnext,
        hs.table.wait_update (sendBlocked k r c) (i := k.procCurrIdx) hcurr]
      · rw [hset, if_pos rfl]
        rfl
      · intro j
        rw [hset]
        split <;> rfl
      · intro j hj
        rw [hset, if_neg hj]
    · rw [msg_yieldTo]
      exact msg_sendTrapped k r c
    · exact yieldTo_procNprocs _ next
  | @delivered i next hi hw hnext =>
    have hused : (k.procSet i).status ≠ .unused := by rw [hw]; decide
    refine .delivered ?_ ⟨?_, ?_, ?_⟩
    · rw [← hi, hs.table.wait_slot (hs.table.pid_ne_zero hused), Process.wait, hw]
    · rw [wait_yieldTo hnext, ← hi]
      exact wait_release hs.table hused (sendDelivered_procSet k _ c i)
    · rw [msg_yieldTo]
      refine (msg_copyMsg _ _ _).trans ?_
      rw [msg_sendTrapped, update_self]
    · exact yieldTo_procNprocs _ next

/-- What `sys_recv` does, in terms of messages and waits. -/
theorem RecvOutcome.collected (hs : Scheduled k) (ho : RecvOutcome k k') : Collected k k' := by
  have hcurr := hs.table.pid_ne_zero hs.curr_used
  cases ho with
  | @blocked next hno hnext =>
    have hset := recvBlocked_procSet k
    refine .blocked (fun q hq => ?_) ⟨?_, ?_, ?_⟩
    · obtain ⟨j, -, -, hj⟩ := hs.table.exists_slot (p := q) (by rw [hq]; simp)
      rw [hq, Process.wait] at hj
      refine hno j ?_
      revert hj
      cases (k.procSet j).status <;> simp
    · rw [wait_yieldTo hnext,
        hs.table.wait_update (recvBlocked k) (i := k.procCurrIdx) hcurr]
      · rw [hset, if_pos rfl]
        rfl
      · intro j
        rw [hset]
        split <;> rfl
      · intro j hj
        rw [hset, if_neg hj]
    · rw [msg_yieldTo]
      exact msg_recvTrapped k
    · exact yieldTo_procNprocs _ next
  | @taken i next hw hr hnext =>
    have hused : (k.procSet i).status ≠ .unused := by rw [hw]; decide
    refine .taken (q := (k.procSet i).pid) ?_ ⟨?_, ?_, ?_⟩
    · rw [hs.table.wait_slot (hs.table.pid_ne_zero hused), Process.wait, hw, ← hr]
    · rw [wait_yieldTo hnext]
      exact wait_release hs.table hused (recvTaken_procSet k i)
    · rw [msg_yieldTo]
      refine (msg_copyMsg _ _ _).trans ?_
      rw [msg_recvTrapped]
    · exact yieldTo_procNprocs _ next

/-! ## The machine -/

/-- The process that `proc_alloc` sets up is loading. -/
theorem wait_allocated (hs : Scheduled k) {i : Fin maxNprocess}
    (hi : (k.procSet i).status = .unused) :
    (allocated k i).wait = update k.wait (k.procNprocs + 1) .loading := by
  have hset := allocated_procSet k i
  have hs' := hs.allocated hi
  have hpid : ((allocated k i).procSet i).pid = k.procNprocs + 1 := by rw [hset, if_pos rfl]
  have hpos : 0 ≤ k.procNprocs := (hs.table.pid_range i).1.trans (hs.table.pid_range i).2
  funext p
  by_cases hp : p = k.procNprocs + 1
  · have hi0 : ((allocated k i).procSet i).pid ≠ 0 := by omega
    rw [hp, update_self, ← hpid, hs'.table.wait_slot hi0, hset, if_pos rfl]
    rfl
  · rw [update_of_ne hp]
    -- a slot in use keeps its process, and the slot that is taken was nobody's
    by_cases hw : (allocated k i).wait p = .gone
    · by_contra hne
      rw [hw] at hne
      obtain ⟨j, hj, hj0, hjw⟩ := hs.table.exists_slot fun h => hne h.symm
      have hji : j ≠ i := by
        rintro rfl
        rw [← hjw, Process.wait, hi] at hne
        exact hne rfl
      have hsame : (allocated k i).procSet j = k.procSet j := (hset j).trans (if_neg hji)
      have := hs'.table.wait_slot (i := j) (by rw [hsame]; exact hj0)
      rw [hsame, hj, hjw] at this
      exact hne (hw.symm.trans this)
    · obtain ⟨j, hj, hj0, hjw⟩ := hs'.table.exists_slot hw
      have hji : j ≠ i := by
        rintro rfl
        exact hp (hj.symm.trans hpid)
      have hsame : (allocated k i).procSet j = k.procSet j := (hset j).trans (if_neg hji)
      rw [hsame] at hj hj0 hjw
      rw [← hjw, ← hs.table.wait_slot hj0, hj]

/-- A process that is set ready is not held up. -/
theorem wait_procSetReady (h : TableOk k) {pid : ℤ} (hpid : pid ≠ 0) :
    (procSetReady k pid).wait = update k.wait pid .free ∨ (procSetReady k pid).wait = k.wait := by
  cases hs : k.slotOf pid with
  | some i =>
    have hi := Kernel.slotOf_some hs
    have hi0 : (k.procSet i).pid ≠ 0 := by rw [hi]; exact hpid
    left
    have heq : procSetReady k pid = k.setSlot i .ready := by
      rw [← hi]
      exact procSetStatus_eq h hi0 _
    rw [heq, h.wait_update (k.setSlot i .ready) hi0, hi]
    · rw [Kernel.setSlot_procSet, if_pos rfl]
      rfl
    · exact fun j => k.setSlot_pid i j .ready
    · intro j hj
      rw [Kernel.setSlot_procSet, if_neg hj]
  | none =>
    right
    refine Kernel.wait_congr (fun j => ?_) fun j => ?_ <;>
      rw [show (procSetReady k pid).procSet j = k.procSet j from
        if_neg (Kernel.slotOf_none hs j)]

/-- Processes that are freed are gone. -/
theorem wait_procFree (k : Kernel M) (pid : ℤ) :
    (procFree k pid).wait = fun q => if (if pid = -1 then q ≥ gpidUserStart else q = pid) then .gone
      else k.wait q := by
  funext q
  have hpid : ∀ j, ((procFree k pid).procSet j).pid = (k.procSet j).pid := fun j => by
    rw [procFree_procSet]
    split <;> rfl
  rw [Kernel.wait, Kernel.slotOf_congr hpid]
  cases hs : k.slotOf q with
  | none =>
    rw [Kernel.wait_of_slotOf_none hs]
    simp
  | some i =>
    have hi := Kernel.slotOf_some hs
    have hfreed : Freed k pid i ↔ if pid = -1 then q ≥ gpidUserStart else q = pid := by
      rw [Freed, hi]
    simp only [procFree_procSet]
    by_cases hf : Freed k pid i
    · rw [if_pos hf, if_pos (hfreed.1 hf)]
      rfl
    · rw [if_neg hf, if_neg fun h => hf (hfreed.2 h), Kernel.wait, hs]

/-- The current process is gone after a kill, and the shell is let go. -/
theorem wait_killed (hs : Scheduled k) :
    (∀ q, q ≠ gpidShell → (killed k).wait q = if q = k.currPid then .gone else k.wait q) ∧
      ((killed k).wait gpidShell = .free ∨
        (killed k).wait gpidShell = .gone ∧ k.wait gpidShell = .gone) := by
  have hcurr := hs.table.pid_ne_zero hs.curr_used
  have hstatus := killed_status k
  refine ⟨fun q hq => ?_, ?_⟩
  · rw [Kernel.wait, Kernel.wait, Kernel.slotOf_congr (killed_pid k)]
    cases hslot : k.slotOf q with
    | none => simp
    | some i =>
      have hi := Kernel.slotOf_some hslot
      have hi' := hstatus i
      rw [if_neg (by rw [hi]; exact hq)] at hi'
      by_cases hq' : q = k.currPid
      · have hidx : i = k.procCurrIdx :=
          (hs.table.pid_inj _ i hcurr (by rw [hi, hq']; rfl)).symm
        rw [if_pos hidx] at hi'
        simp only [Process.wait, hi', hq', if_true]
      · have hidx : i ≠ k.procCurrIdx := fun he => hq' (by rw [← hi, he]; rfl)
        rw [if_neg hidx] at hi'
        simp only [Process.wait, hi', killed_receiverPid, if_neg hq']
  · rw [Kernel.wait, Kernel.wait, Kernel.slotOf_congr (killed_pid k)]
    cases hslot : k.slotOf gpidShell with
    | none => exact Or.inr ⟨rfl, rfl⟩
    | some i =>
      have hi' := hstatus i
      rw [if_pos (Kernel.slotOf_some hslot)] at hi'
      left
      simp only [Process.wait, hi']

/-- Every step is one of the moves. -/
theorem mail_outcome {a : Action M} (h : MachineOk m) (hsoft : ∀ b, a ≠ .intr intrIdSoft b)
    (hstep : step m a = some m') : MailOutcome m a m' := by
  have hs := h.scheduled
  cases step_outcome hs hstep with
  | send ho => exact .send (ho.posted hs)
  | recv ho => exact .recv (ho.collected hs)
  | ignored _ => exact .timer ⟨rfl, rfl, rfl⟩
  | @killed _ next hge hnext =>
    obtain ⟨hq, hshell⟩ := wait_killed hs
    have hw := wait_yieldTo hnext
    refine .killed hge (fun q hne => ?_) ?_ (msg_yieldTo _ next) (yieldTo_procNprocs _ next)
    · rw [hw]
      exact hq q hne
    · rw [hw]
      exact hshell
  | softSend _ => exact absurd rfl (hsoft _)
  | softRecv _ => exact absurd rfl (hsoft _)
  | @preempted _ next _ hnext =>
    exact .timer ⟨wait_yieldTo hnext, msg_yieldTo _ next, yieldTo_procNprocs _ next⟩
  | @alloc i hcurr _ hi =>
    refine .alloc hcurr (wait_allocated hs hi) rfl rfl ?_
    have hidx : m.kernel.procCurrIdx ≠ i := fun he => hs.curr_used (he ▸ hi)
    exact congrArg Process.pid ((allocated_procSet m.kernel i _).trans (if_neg hidx))
  | @setReady pid hcurr halloc =>
    have hp := h.allocated pid halloc
    refine .setReady hcurr halloc ?_ ?_
    · exact (wait_procSetReady hs.table (by omega)).imp (⟨·, rfl, rfl⟩) (⟨·, rfl, rfl⟩)
    · simp only [procSetReady, procSetStatus, Kernel.currPid]
      split <;> rfl
  | @free pid hcurr hpid =>
    have heq := procFree_eq m.kernel pid
    refine .free hcurr hpid ⟨wait_procFree m.kernel pid, ?_, ?_⟩ ?_
    · rw [heq]
      rfl
    · rw [heq]
    · rw [heq]
      simp only [Kernel.currPid]
      split <;> rfl

end Egos.Grass
