import Egos.Grass.Schedule

/-!
# Messages are delivered exactly once

The history of the kernel is read call by call: `openCall p` is the system call that process `p` is
in, with the copies made for it so far. The invariant ties it to the process table: a process that
waits is in a call for which nothing has been copied, and a process that can run is in no call or in
one for which exactly one message has been copied, which is still in its area if it was received.

The invariant has a mode `woken` for runs with kills. There a process may also have been taken out
of `sys_recv` before a message was copied to it.
-/

namespace Egos.Grass

variable {M : Type} {k k' : Kernel M} {m m' : Machine M}

/-! ## Calls in the history -/

/-- A message that was copied from the area of one process to that of another. -/
structure Copy (M : Type) where
  src : ℤ
  dst : ℤ
  msg : SysMsg M

/-- The system call that process `p` is in, and the copies from or to its area since it made the
call; the latest event is first in the list. -/
def openCall (p : ℤ) : List (Event M) → Option (Call M × List (Copy M))
  | [] => none
  | .trap q call :: l => if q = p then some (call, []) else openCall p l
  | .run q _ _ :: l => if q = p then none else openCall p l
  | .copy src dst msg :: l =>
    if p = src ∨ p = dst then (openCall p l).map fun oc => (oc.1, ⟨src, dst, msg⟩ :: oc.2)
    else openCall p l
  | .select _ _ :: l => openCall p l

/-- What is right about an event, given the events before it. A call of `sys_send` that returns 0
has had its message copied once, to the process it named; a call of `sys_recv` that returns has had
one message copied to it, which is in the area of its process; and a message is copied from a
process that is in a call of `sys_send` of that message to the other, which is in a call of
`sys_recv`, with nothing copied before for either call. -/
def EventOk (woken : Prop) : Event M → List (Event M) → Prop
  | .run p retval msg, earlier =>
    (∀ r c copies, openCall p earlier = some (.send r c, copies) → retval = 0 →
      copies = [⟨p, r, ⟨p, r, c⟩⟩]) ∧
    ∀ copies, openCall p earlier = some (.recv, copies) →
      (∃ q c, copies = [⟨q, p, ⟨q, p, c⟩⟩] ∧ msg = ⟨q, p, c⟩) ∨ woken ∧ copies = []
  | .copy src dst msg, earlier =>
    openCall src earlier = some (.send dst msg.content, []) ∧
    openCall dst earlier = some (.recv, []) ∧ msg.sender = src ∧ msg.receiver = dst
  | _, _ => True

/-- Every event of a history is right. -/
def LogOk (woken : Prop) : List (Event M) → Prop
  | [] => True
  | e :: earlier => EventOk woken e earlier ∧ LogOk woken earlier

variable {woken : Prop}

/-- An event of a history that is right. -/
theorem LogOk.event {e : Event M} {earlier : List (Event M)} :
    ∀ {later : List (Event M)}, LogOk woken (later ++ e :: earlier) → EventOk woken e earlier
  | [], h => h.1
  | _ :: _, h => LogOk.event h.2

/-! ## The invariant -/

/-- A process that can run is in no call, or in one that is done. -/
def CallDone (woken : Prop) (p : ℤ) (oc : Option (Call M × List (Copy M))) (msg : SysMsg M) :
    Prop :=
  oc = none ∨ (∃ r c, oc = some (.send r c, [⟨p, r, ⟨p, r, c⟩⟩])) ∨
    (∃ q c, oc = some (.recv, [⟨q, p, ⟨q, p, c⟩⟩]) ∧ msg = ⟨q, p, c⟩) ∨
    woken ∧ oc = some (.recv, [])

/-- What the call of a process and its area have to do with its slot. -/
def SlotOk (woken : Prop) (p : Process) (oc : Option (Call M × List (Copy M))) (msg : SysMsg M) :
    Prop :=
  match p.status with
  | .unused => True
  | .loading | .ready => oc = none
  | .running | .runnable => CallDone woken p.pid oc msg
  | .waitToSend =>
    ∃ c, oc = some (.send p.receiverPid c, []) ∧ msg = ⟨p.pid, p.receiverPid, c⟩
  | .waitToRecv => oc = some (.recv, [])

/-- The invariant of the kernel, as far as the slots `J` go. The pids in `fresh` are those of
processes that have not started. -/
structure CallsOkOn (J : Fin maxNprocess → Prop) (woken : Prop) (fresh : ℤ → Prop) (k : Kernel M) :
    Prop where
  slot : ∀ j, J j → SlotOk woken (k.procSet j) (openCall (k.procSet j).pid k.log)
    (k.area (k.procSet j).pid).msg
  noCall : ∀ p, fresh p → openCall p k.log = none
  unborn : ∀ j, fresh (k.procSet j).pid →
    (k.procSet j).status = .loading ∨ (k.procSet j).status = .unused
  history : LogOk woken k.log

/-- The invariant of the kernel. -/
abbrev CallsOk (woken : Prop) (fresh : ℤ → Prop) (k : Kernel M) : Prop :=
  CallsOkOn (fun _ => True) woken fresh k

/-- The invariant of the kernel but for slot `i`, in the middle of a handler. -/
abbrev OthersOk (woken : Prop) (fresh : ℤ → Prop) (i : Fin maxNprocess) (k : Kernel M) : Prop :=
  CallsOkOn (· ≠ i) woken fresh k

/-- A running process may be marked as runnable. -/
theorem SlotOk.congr {p p' : Process} {oc : Option (Call M × List (Copy M))} {msg : SysMsg M}
    (h : SlotOk woken p oc msg) (hpid : p'.pid = p.pid) (hrecv : p'.receiverPid = p.receiverPid)
    (hstatus : p'.status = p.status ∨ (p.status = .running ∧ p'.status = .runnable)) :
    SlotOk woken p' oc msg := by
  rw [SlotOk] at h ⊢
  rcases hstatus with hs | ⟨hs, hs'⟩
  · rw [hs, hpid, hrecv]
    exact h
  · rw [hs] at h
    rw [hs', hpid]
    exact h

/-- A slot that is not in use says nothing about calls. -/
theorem SlotOk.unused {p : Process} (hs : p.status = .unused)
    (oc : Option (Call M × List (Copy M))) (msg : SysMsg M) : SlotOk woken p oc msg := by
  rw [SlotOk, hs]
  trivial

/-- A process that can be selected is in no call or in one that is done. -/
theorem SlotOk.done {p : Process} {oc : Option (Call M × List (Copy M))} {msg : SysMsg M}
    (h : SlotOk woken p oc msg) (hrun : p.status.canRun = true) : CallDone woken p.pid oc msg := by
  rw [SlotOk] at h
  cases hs : p.status <;> rw [hs] at h hrun <;> first | exact h | exact Or.inl h | cases hrun

/-- A process to which a message has been copied has that message in its area. -/
theorem SlotOk.received {p : Process} {copy : Copy M} {copies : List (Copy M)} {msg : SysMsg M}
    (h : SlotOk woken p (some (.recv, copy :: copies)) msg) (hp : p.status ≠ .unused) :
    copies = [] ∧ msg = copy.msg := by
  have hdone : CallDone woken p.pid (some (.recv, copy :: copies)) msg := by
    rw [SlotOk] at h
    split at h
    · exact absurd ‹_› hp
    · cases h
    · cases h
    · exact h
    · exact h
    · obtain ⟨_, hc, -⟩ := h
      cases hc
    · cases h
  rcases hdone with hc | ⟨_, _, hc⟩ | ⟨q, c, hc, rfl⟩ | ⟨-, hc⟩ <;> cases hc
  exact ⟨rfl, rfl⟩

/-- When a process returns from a call that is done, all is right with the call. -/
theorem CallDone.eventOk {p retval : ℤ} {msg : SysMsg M} {earlier : List (Event M)}
    (h : CallDone woken p (openCall p earlier) msg) :
    EventOk woken (.run p retval msg) earlier := by
  rcases h with h | ⟨r, c, h⟩ | ⟨q, c, h, rfl⟩ | ⟨hw, h⟩
  · exact ⟨fun _ _ _ ho => (by rw [h] at ho; cases ho), fun _ ho => (by rw [h] at ho; cases ho)⟩
  · refine ⟨fun _ _ _ ho _ => ?_, fun _ ho => ?_⟩ <;> rw [h] at ho <;> cases ho
    rfl
  · refine ⟨fun _ _ _ ho _ => ?_, fun _ ho => ?_⟩ <;> rw [h] at ho <;> cases ho
    exact Or.inl ⟨q, c, rfl, rfl⟩
  · refine ⟨fun _ _ _ ho _ => ?_, fun _ ho => ?_⟩ <;> rw [h] at ho <;> cases ho
    exact Or.inr ⟨hw, rfl⟩

/-! ## Yielding -/

variable {fresh : ℤ → Prop}

/-- Yielding keeps the invariant, and the process that the kernel returns to is in no call. -/
theorem CallsOk.yield (h : CallsOk woken fresh k) (ht : TableOk k) {next : Fin maxNprocess}
    (hnext : nextIdx k = some next) :
    CallsOk woken fresh (returnTo (yieldTo k next)) ∧
      openCall (returnTo (yieldTo k next)).currPid (returnTo (yieldTo k next)).log = none := by
  have hcan := nextIdx_canRun hnext
  have hpid : ∀ i, ((returnTo (yieldTo k next)).procSet i).pid = (k.procSet i).pid :=
    yieldTo_pid k next
  have harea : (returnTo (yieldTo k next)).area = k.area := yieldTo_area k next
  have hsc : (yieldTo k next).sc = k.area (k.procSet next).pid := by
    rw [Kernel.sc, yieldTo_area]
    rfl
  have hlog : (returnTo (yieldTo k next)).log
      = .run (k.procSet next).pid (k.area (k.procSet next).pid).retval
          (k.area (k.procSet next).pid).msg
        :: .select next (k.procSet next).status :: k.log := by
    rw [returnTo, show (yieldTo k next).currPid = _ from yieldTo_pid k next next, hsc]
    rfl
  have hopen : ∀ p, openCall p (returnTo (yieldTo k next)).log
      = if (k.procSet next).pid = p then none else openCall p k.log := fun p => by rw [hlog]; rfl
  have hstatus : ∀ i, i ≠ next →
      ((returnTo (yieldTo k next)).procSet i).status = (k.procSet i).status ∨
        ((k.procSet i).status = .running ∧
          ((returnTo (yieldTo k next)).procSet i).status = .runnable) := by
    intro i hi
    have hst : ((returnTo (yieldTo k next)).procSet i).status = _ := yieldTo_status k next i
    rw [if_neg hi] at hst
    by_cases hc : i = k.procCurrIdx ∧ k.currStatus = .running
    · exact Or.inr ⟨by rw [hc.1]; exact hc.2, by rw [hst, if_pos hc]⟩
    · exact Or.inl (by rw [hst, if_neg hc])
  refine ⟨⟨fun i _ => ?_, fun p hp => ?_, fun i hi => ?_, ?_⟩, ?_⟩
  · rw [hpid, hopen, harea]
    by_cases hi : i = next
    · have hst : ((returnTo (yieldTo k next)).procSet i).status = _ := yieldTo_status k next i
      rw [if_pos (by rw [hi]), SlotOk, hst, if_pos hi]
      exact Or.inl rfl
    · have hslot := (h.slot i trivial).congr (hpid i) (yieldTo_receiverPid k next i) (hstatus i hi)
      rw [if_neg (ht.pid_ne hi (ProcStatus.canRun_ne_unused hcan).1).symm]
      exact hslot
  · rw [hopen, h.noCall p hp, ite_self]
  · rw [hpid] at hi
    have hun := h.unborn i hi
    have hin : i ≠ next := fun he => by
      rw [he] at hun
      have := ProcStatus.canRun_ne_unused hcan
      exact hun.elim this.2 this.1
    rcases hstatus i hin with hs | ⟨hs, -⟩
    · rw [hs]
      exact hun
    · rw [hs] at hun
      simp at hun
  · rw [hlog]
    exact ⟨(SlotOk.done (h.slot next trivial) hcan).eventOk, trivial, h.history⟩
  · exact (hopen _).trans (if_pos (hpid next).symm)

/-! ## System calls -/

/-- A system call of the current process is taken in: what it changes is the area of that process
and its slot. -/
theorem CallsOk.trapped (h : CallsOk woken fresh k) (hs : Scheduled k) {call : Call M}
    (hset : ∀ j, j ≠ k.procCurrIdx → k'.procSet j = k.procSet j)
    (hpid : (k'.procSet k.procCurrIdx).pid = k.currPid)
    (harea : ∀ p, p ≠ k.currPid → k'.area p = k.area p)
    (hlog : k'.log = .trap k.currPid call :: k.log) : OthersOk woken fresh k.procCurrIdx k' := by
  have hcurr : ¬ fresh k.currPid := fun hf => by
    have hun := h.unborn _ hf
    rw [show (k.procSet k.procCurrIdx).status = .running from hs.running] at hun
    simp at hun
  have hopen : ∀ p, p ≠ k.currPid → openCall p k'.log = openCall p k.log := fun p hp => by
    rw [hlog]
    exact if_neg hp.symm
  refine ⟨fun j hj => ?_, fun p hp => ?_, fun j hj => ?_, ?_⟩
  · have hne : (k.procSet j).pid ≠ k.currPid := hs.table.pid_ne hj hs.curr_used
    rw [hset j hj, hopen _ hne, harea _ hne]
    exact h.slot j trivial
  · rw [hopen p fun he => hcurr (he ▸ hp)]
    exact h.noCall p hp
  · by_cases hjc : j = k.procCurrIdx
    · rw [hjc, hpid] at hj
      exact absurd hj hcurr
    · rw [hset j hjc] at hj ⊢
      exact h.unborn j hj
  · rw [hlog]
    exact ⟨trivial, h.history⟩

/-- If slot `i` is in order too, all are. -/
theorem OthersOk.all {i : Fin maxNprocess} (h : OthersOk woken fresh i k)
    (hi : SlotOk woken (k.procSet i) (openCall (k.procSet i).pid k.log)
      (k.area (k.procSet i).pid).msg) : CallsOk woken fresh k :=
  ⟨fun j _ => if hj : j = i then hj ▸ hi else h.slot j hj, h.noCall, h.unborn, h.history⟩

/-- A sender that waits is in a call for which nothing has been copied. -/
theorem CallsOk.sendBlocked (h : CallsOk woken fresh k) (hs : Scheduled k) (r : ℤ) (c : M) :
    CallsOk woken fresh (sendBlocked k r c) := by
  have hcurr : (Egos.Grass.sendBlocked k r c).procSet k.procCurrIdx
      = ⟨k.currPid, .waitToSend, r⟩ := (sendBlocked_procSet k r c _).trans (if_pos rfl)
  have hothers : OthersOk woken fresh k.procCurrIdx (Egos.Grass.sendBlocked k r c) :=
    h.trapped hs (fun j hj => (sendBlocked_procSet k r c j).trans (if_neg hj)) (by rw [hcurr])
      (fun p hp => Function.update_of_ne hp _ _) rfl
  refine hothers.all ?_
  rw [hcurr]
  exact ⟨c, if_pos rfl, congrArg Syscall.msg (sendTrapped_area_self k r c)⟩

/-- So is a receiver that waits. -/
theorem CallsOk.recvBlocked (h : CallsOk woken fresh k) (hs : Scheduled k) :
    CallsOk woken fresh (recvBlocked k) := by
  have hcurr : (Egos.Grass.recvBlocked k).procSet k.procCurrIdx
      = { k.procSet k.procCurrIdx with status := .waitToRecv } :=
    (recvBlocked_procSet k _).trans (if_pos rfl)
  have hothers : OthersOk woken fresh k.procCurrIdx (Egos.Grass.recvBlocked k) :=
    h.trapped hs (fun j hj => (recvBlocked_procSet k j).trans (if_neg hj)) (by rw [hcurr]; rfl)
      (fun p hp => Function.update_of_ne hp _ _) rfl
  refine hothers.all ?_
  rw [hcurr]
  exact if_pos rfl

/-- A message is copied from slot `a`, which is in a call of `sys_send`, to slot `b`, which is in a
call of `sys_recv`. -/
theorem OthersOk.copied {i a b : Fin maxNprocess} {c : M} (h : OthersOk woken fresh i k)
    (hi : i = a ∨ i = b) (ht : TableOk k) (hab : a ≠ b)
    (hua : (k.procSet a).status ≠ .unused) (hub : (k.procSet b).status ≠ .unused)
    (ha : openCall (k.procSet a).pid k.log = some (.send (k.procSet b).pid c, []))
    (hb : openCall (k.procSet b).pid k.log = some (.recv, []))
    (hmsg : (k.area (k.procSet a).pid).msg = ⟨(k.procSet a).pid, (k.procSet b).pid, c⟩)
    (hpid : ∀ j, (k'.procSet j).pid = (k.procSet j).pid)
    (hset : ∀ j, j ≠ a → j ≠ b → k'.procSet j = k.procSet j)
    (hrun : ∀ j, j = a ∨ j = b →
      (k'.procSet j).status = .running ∨ (k'.procSet j).status = .runnable)
    (harea : k'.area = Function.update k.area (k.procSet b).pid
      { k.area (k.procSet b).pid with msg := (k.area (k.procSet a).pid).msg })
    (hlog : k'.log = .copy (k.procSet a).pid (k.procSet b).pid (k.area (k.procSet a).pid).msg
      :: k.log) : CallsOk woken fresh k' := by
  rw [hmsg] at harea hlog
  have hneb : ∀ j, j ≠ b → (k.procSet j).pid ≠ (k.procSet b).pid := fun j hj => ht.pid_ne hj hub
  have hnea : ∀ j, j ≠ a → (k.procSet j).pid ≠ (k.procSet a).pid := fun j hj => ht.pid_ne hj hua
  have hopen : ∀ p, p ≠ (k.procSet a).pid → p ≠ (k.procSet b).pid →
      openCall p k'.log = openCall p k.log := fun p hpa hpb => by
    rw [hlog]
    exact if_neg (not_or.2 ⟨hpa, hpb⟩)
  -- slots whose process can run have a call that is done
  have hdone : ∀ j, j = a ∨ j = b →
      CallDone woken (k.procSet j).pid (openCall (k.procSet j).pid k'.log)
        (k'.area (k.procSet j).pid).msg →
      SlotOk woken (k'.procSet j) (openCall (k'.procSet j).pid k'.log)
        (k'.area (k'.procSet j).pid).msg := by
    intro j hj hd
    rw [hpid, SlotOk]
    rcases hrun j hj with hr | hr <;> rw [hr, hpid] <;> exact hd
  refine ⟨fun j _ => ?_, fun p hp => ?_, fun j hj => ?_, ?_⟩
  · by_cases hja : j = a
    · refine hdone j (Or.inl hja) (Or.inr (Or.inl ⟨(k.procSet b).pid, c, ?_⟩))
      rw [hja, hlog, openCall, if_pos (Or.inl rfl), ha]
      rfl
    by_cases hjb : j = b
    · refine hdone j (Or.inr hjb) (Or.inr (Or.inr (Or.inl ⟨(k.procSet a).pid, c, ?_, ?_⟩)))
      · rw [hjb, hlog, openCall, if_pos (Or.inr rfl), hb]
        rfl
      · rw [hjb, harea, Function.update_self]
    · rw [hset j hja hjb, hopen _ (hnea j hja) (hneb j hjb), harea,
        Function.update_of_ne (hneb j hjb)]
      exact h.slot j fun he => hi.elim (fun h1 => hja (he.trans h1)) fun h1 => hjb (he.trans h1)
  · have hnone := h.noCall p hp
    rw [hopen p]
    · exact hnone
    · rintro rfl
      rw [hnone] at ha
      cases ha
    · rintro rfl
      rw [hnone] at hb
      cases hb
  · rw [hpid] at hj
    have hnone := h.noCall _ hj
    rw [hset j]
    · exact h.unborn j hj
    · rintro rfl
      rw [hnone] at ha
      cases ha
    · rintro rfl
      rw [hnone] at hb
      cases hb
  · rw [hlog]
    exact ⟨⟨ha, hb, rfl, rfl⟩, h.history⟩

/-- A delivery copies one message, for the two calls. -/
theorem CallsOk.sendDelivered (h : CallsOk woken fresh k) (hs : Scheduled k) {i : Fin maxNprocess}
    {r : ℤ} (c : M) (hr : (k.procSet i).pid = r) (hi : (k.procSet i).status = .waitToRecv) :
    CallsOk woken fresh (sendDelivered k r c i) := by
  subst hr
  have hused : (k.procSet i).status ≠ .unused := by rw [hi]; decide
  have hne : k.procCurrIdx ≠ i := fun he => by
    have hrun : (k.procSet k.procCurrIdx).status = .running := hs.running
    rw [he, hi] at hrun
    cases hrun
  have hothers : OthersOk woken fresh k.procCurrIdx (sendTrapped k (k.procSet i).pid c) :=
    h.trapped hs (fun _ _ => rfl) rfl (fun p hp => Function.update_of_ne hp _ _) rfl
  have hslot := hothers.slot i hne.symm
  rw [SlotOk, show ((sendTrapped k (k.procSet i).pid c).procSet i).status = _ from hi] at hslot
  have hset := sendDelivered_procSet k (k.procSet i).pid c i
  refine hothers.copied (Or.inl rfl) (hs.table.congr rfl (fun _ => rfl) hs.table.pid_zero) hne
    hs.curr_used hused (if_pos rfl) hslot (congrArg Syscall.msg (sendTrapped_area_self k _ c))
    (fun j => ?_) (fun j _ hj => (hset j).trans (if_neg hj)) (fun j hj => ?_) rfl rfl
  · rw [hset j]
    split <;> rfl
  · rw [hset j]
    split
    · exact Or.inr rfl
    · rename_i hji
      rw [hj.resolve_right hji]
      exact Or.inl hs.running

/-- So does taking the message of a sender that waited. -/
theorem CallsOk.recvTaken (h : CallsOk woken fresh k) (hs : Scheduled k) {i : Fin maxNprocess}
    (hi : (k.procSet i).status = .waitToSend) (hr : (k.procSet i).receiverPid = k.currPid) :
    CallsOk woken fresh (recvTaken k i) := by
  have hused : (k.procSet i).status ≠ .unused := by rw [hi]; decide
  have hne : i ≠ k.procCurrIdx := fun he => by
    have hrun : (k.procSet k.procCurrIdx).status = .running := hs.running
    rw [← he, hi] at hrun
    cases hrun
  have hothers : OthersOk woken fresh k.procCurrIdx (recvTrapped k) :=
    h.trapped hs (fun _ _ => rfl) rfl (fun p hp => Function.update_of_ne hp _ _) rfl
  have hslot := hothers.slot i hne
  rw [SlotOk, show ((recvTrapped k).procSet i).status = _ from hi,
    show ((recvTrapped k).procSet i).receiverPid = _ from hr] at hslot
  obtain ⟨c, hopen, hmsg⟩ := hslot
  have hset := recvTaken_procSet k i
  refine hothers.copied (Or.inr rfl) (hs.table.congr rfl (fun _ => rfl) hs.table.pid_zero) hne
    hused hs.curr_used hopen (if_pos rfl) hmsg (fun j => ?_)
    (fun j hj _ => (hset j).trans (if_neg hj)) (fun j hj => ?_) rfl rfl
  · rw [hset j]
    split <;> rfl
  · rw [hset j]
    split
    · exact Or.inr rfl
    · rename_i hji
      rw [hj.resolve_left hji]
      exact Or.inl hs.running

/-- No process has the pid of the receiver: the call returns at once, and not with 0. -/
theorem CallsOk.sendMissing (h : CallsOk woken fresh k) (hs : Scheduled k) (r : ℤ) (c : M) :
    CallsOk woken fresh (returnTo (sendMissing k r c)) := by
  have hsc : (Egos.Grass.sendMissing k r c).sc = ⟨.unused, ⟨k.currPid, r, c⟩, -1⟩ := by
    rw [Kernel.sc, show (Egos.Grass.sendMissing k r c).mmuPid = k.currPid from hs.mmu]
    exact Function.update_self k.currPid _ _
  have hothers : OthersOk woken fresh k.procCurrIdx (Egos.Grass.sendMissing k r c) :=
    h.trapped hs (fun _ _ => rfl) rfl (fun p hp => Function.update_of_ne hp _ _) rfl
  have hlog : (returnTo (Egos.Grass.sendMissing k r c)).log
      = .run k.currPid (-1) ⟨k.currPid, r, c⟩ :: (Egos.Grass.sendMissing k r c).log := by
    rw [returnTo, hsc]
    rfl
  have hopen : ∀ p, openCall p (returnTo (Egos.Grass.sendMissing k r c)).log
      = if k.currPid = p then none else openCall p (Egos.Grass.sendMissing k r c).log :=
    fun p => by rw [hlog]; rfl
  refine ⟨fun j _ => ?_, fun p hp => ?_, hothers.unborn, ?_⟩
  · by_cases hj : j = k.procCurrIdx
    · rw [hj, SlotOk, show ((returnTo (Egos.Grass.sendMissing k r c)).procSet k.procCurrIdx).status
        = .running from hs.running]
      exact Or.inl ((hopen _).trans (if_pos rfl))
    · have hne : k.currPid ≠ (k.procSet j).pid := (hs.table.pid_ne hj hs.curr_used).symm
      have hopen' := (hopen (k.procSet j).pid).trans (if_neg hne)
      have hslot := hothers.slot j hj
      rw [← show _ = openCall ((Egos.Grass.sendMissing k r c).procSet j).pid _ from hopen'] at hslot
      exact hslot
  · rw [hopen, hothers.noCall p hp, ite_self]
  · rw [hlog]
    refine ⟨⟨fun _ _ _ _ h0 => absurd h0 (by decide), fun _ ho => ?_⟩, hothers.history⟩
    rw [show openCall k.currPid (Egos.Grass.sendMissing k r c).log = some (.send r c, [])
      from if_pos rfl] at ho
    cases ho

/-! ## The machine -/

/-- `sys_send` keeps the calls in order, and what runs then has come out of its call. -/
theorem SendOutcome.callsOk {r : ℤ} {c : M} (ho : SendOutcome k r c k') (hs : Scheduled k)
    (h : CallsOk woken fresh k) : CallsOk woken fresh k' ∧ openCall k'.currPid k'.log = none := by
  cases ho with
  | missing _ => exact ⟨h.sendMissing hs r c, if_pos rfl⟩
  | blocked _ _ hnext => exact (h.sendBlocked hs r c).yield hs.sendBlocked.1 hnext
  | delivered hr hw hnext =>
    exact (h.sendDelivered hs c hr hw).yield (hs.sendDelivered hw).1 hnext

/-- So does `sys_recv`. -/
theorem RecvOutcome.callsOk (ho : RecvOutcome k k') (hs : Scheduled k) (h : CallsOk woken fresh k) :
    CallsOk woken fresh k' ∧ openCall k'.currPid k'.log = none := by
  cases ho with
  | blocked _ hnext => exact (h.recvBlocked hs).yield hs.recvBlocked.1 hnext
  | taken hw hr hnext => exact (h.recvTaken hs hw hr).yield (hs.recvTaken hw).1 hnext

/-- `sys_send` gives out no pid. -/
theorem SendOutcome.procNprocs {r : ℤ} {c : M} (ho : SendOutcome k r c k') :
    k'.procNprocs = k.procNprocs := by
  cases ho with
  | missing _ => rfl
  | @blocked _ next _ _ _ => exact yieldTo_procNprocs (sendBlocked k r c) next
  | @delivered i next _ _ _ => exact yieldTo_procNprocs (sendDelivered k r c i) next

/-- `sys_recv` gives out no pid. -/
theorem RecvOutcome.procNprocs (ho : RecvOutcome k k') : k'.procNprocs = k.procNprocs := by
  cases ho with
  | @blocked next _ _ => exact yieldTo_procNprocs (recvBlocked k) next
  | @taken i next _ _ _ => exact yieldTo_procNprocs (recvTaken k i) next

/-- The pids of processes that have not started: those not given out yet, and the one that
`GPID_PROCESS` has allocated and not made ready. -/
def NotStarted (m : Machine M) (p : ℤ) : Prop := m.kernel.procNprocs < p ∨ m.allocated = some p

/-- The invariant of the machine. -/
structure MessagesOk (woken : Prop) (m : Machine M) : Prop where
  machine : MachineOk m
  calls : CallsOk woken (NotStarted m) m.kernel
  curr : openCall m.kernel.currPid m.kernel.log = none

/-- Interrupts are timer interrupts, and none of them kills a process. -/
def NoKill (m : Machine M) : Action M → Prop
  | .intr id ttyRecvIntr =>
    id = intrIdTimer ∧ (ttyRecvIntr = true → m.kernel.currPid < gpidUserStart)
  | _ => True

instance (m : Machine M) : DecidablePred (NoKill m) := fun a => by
  cases a <;> unfold NoKill <;> infer_instance

/-- A change of the table that keeps the history and the areas. -/
theorem CallsOk.congr {fresh' : ℤ → Prop} (h : CallsOk woken fresh k) (hlog : k'.log = k.log)
    (harea : k'.area = k.area) (hfresh : ∀ p, fresh' p → fresh p)
    (hslot : ∀ j, k'.procSet j = k.procSet j ∨ (k'.procSet j).status = .unused ∨
      ((k'.procSet j).status = .loading ∨ (k'.procSet j).status = .ready) ∧
        fresh (k'.procSet j).pid)
    (hunborn : ∀ j, fresh' (k'.procSet j).pid → k'.procSet j = k.procSet j ∨
      (k'.procSet j).status = .loading ∨ (k'.procSet j).status = .unused) :
    CallsOk woken fresh' k' := by
  refine ⟨fun j _ => ?_, fun p hp => ?_, fun j hj => ?_, hlog ▸ h.history⟩
  · rw [hlog, harea]
    rcases hslot j with he | hu | ⟨hs, hf⟩
    · rw [he]
      exact h.slot j trivial
    · exact .unused hu _ _
    · rw [h.noCall _ hf, SlotOk]
      rcases hs with hs | hs <;> rw [hs]
  · rw [hlog]
    exact h.noCall p (hfresh p hp)
  · rcases hunborn j hj with he | hs
    · rw [he] at hj ⊢
      exact h.unborn j (hfresh _ hj)
    · exact hs

/-- A step that allocates nothing and makes nothing ready starts no process. -/
theorem CallsOk.keep (h : CallsOk woken (NotStarted m) k')
    (hn : k'.procNprocs = m.kernel.procNprocs) :
    CallsOk woken (NotStarted ⟨k', m.allocated⟩) k' :=
  h.congr rfl rfl (fun _ hp => hp.imp (hn ▸ ·) id) (fun _ => Or.inl rfl) fun _ _ => Or.inl rfl

/-- The invariant holds when the kernel boots. -/
theorem messagesOk_boot (woken : Prop) (area : ℤ → Syscall M) :
    MessagesOk woken (bootMachine area) := by
  refine ⟨machineOk_boot area, ⟨fun j _ => ?_, fun _ _ => rfl, fun j hj => ?_, trivial⟩, rfl⟩
  · simp only [bootMachine, boot]
    split
    · exact Or.inl rfl
    · trivial
  · rcases hj with hj | hj
    · exact absurd ((machineOk_boot area).scheduled.table.pid_range j).2 (not_le.2 hj)
    · cases hj

/-- Every step keeps the invariant, if kills do. -/
theorem MessagesOk.step {a : Action M} (h : MessagesOk woken m)
    (hsoft : ∀ b, a ≠ .intr intrIdSoft b)
    (hkill : ∀ id, a = .intr id true → m.kernel.currPid ≥ gpidUserStart →
      CallsOk woken (NotStarted m) (killed m.kernel))
    (hstep : step m a = some m') : MessagesOk woken m' := by
  have hs := h.machine.scheduled
  have hm' := h.machine.step hstep
  cases step_outcome hs hstep with
  | send ho =>
    obtain ⟨hcalls, hcurr⟩ := ho.callsOk hs h.calls
    exact ⟨hm', hcalls.keep ho.procNprocs, hcurr⟩
  | recv ho =>
    obtain ⟨hcalls, hcurr⟩ := ho.callsOk hs h.calls
    exact ⟨hm', hcalls.keep ho.procNprocs, hcurr⟩
  | ignored _ => exact h
  | @killed _ next hge hnext =>
    obtain ⟨hcalls, hcurr⟩ := (hkill _ rfl hge).yield hs.killed.1 hnext
    exact ⟨hm', hcalls.keep (yieldTo_procNprocs (Egos.Grass.killed m.kernel) next), hcurr⟩
  | softSend _ => exact absurd rfl (hsoft _)
  | softRecv _ => exact absurd rfl (hsoft _)
  | @preempted _ next _ hnext =>
    obtain ⟨hcalls, hcurr⟩ := h.calls.yield hs.table hnext
    exact ⟨hm', hcalls.keep (yieldTo_procNprocs m.kernel next), hcurr⟩
  | @alloc i _ _ hi =>
    have hset := allocated_procSet m.kernel i
    refine ⟨hm', h.calls.congr rfl rfl (fun p hp => Or.inl ?_) (fun j => ?_) (fun j hj => ?_), ?_⟩
    · rcases hp with hp | hp
      · exact (Int.lt_succ _).trans hp
      · exact Option.some.inj hp ▸ Int.lt_succ _
    · by_cases hj : j = i
      · rw [hset, if_pos hj]
        exact Or.inr (Or.inr ⟨Or.inl rfl, Or.inl (Int.lt_succ _)⟩)
      · exact Or.inl ((hset j).trans (if_neg hj))
    · by_cases hj : j = i
      · rw [hset, if_pos hj]
        exact Or.inr (Or.inl rfl)
      · exact Or.inl ((hset j).trans (if_neg hj))
    · have hidx : m.kernel.procCurrIdx ≠ i := fun he => hs.curr_used (he ▸ hi)
      rw [← h.curr]
      refine congrArg (openCall · _) (congrArg Process.pid ?_)
      exact (hset _).trans (if_neg hidx)
  | @setReady pid hcurr halloc =>
    have hset : ∀ j, (procSetReady m.kernel pid).procSet j = if (m.kernel.procSet j).pid = pid then
        { m.kernel.procSet j with status := .ready } else m.kernel.procSet j := fun _ => rfl
    refine ⟨hm', h.calls.congr rfl rfl (fun p hp => Or.inl (hp.resolve_right (by simp)))
      (fun j => ?_) (fun j hj => ?_), ?_⟩
    · by_cases hj : (m.kernel.procSet j).pid = pid
      · rw [hset, if_pos hj]
        exact Or.inr (Or.inr ⟨Or.inr rfl, Or.inr (halloc.trans (congrArg some hj.symm))⟩)
      · exact Or.inl ((hset j).trans (if_neg hj))
    · exact absurd (hm'.scheduled.table.pid_range j).2 (not_le.2 (hj.resolve_right (by simp)))
    · rw [← h.curr]
      refine congrArg (openCall · _) ?_
      change ((procSetReady m.kernel pid).procSet m.kernel.procCurrIdx).pid = _
      rw [hset]
      split <;> rfl
  | @free pid _ _ =>
    rw [procFree_eq] at hm' ⊢
    have hset : ∀ j, (if Freed m.kernel pid j then { m.kernel.procSet j with status := .unused }
        else m.kernel.procSet j) = m.kernel.procSet j ∨
        (if Freed m.kernel pid j then { m.kernel.procSet j with status := .unused }
          else m.kernel.procSet j).status = .unused := by
      intro j
      split
      · exact Or.inr rfl
      · exact Or.inl rfl
    refine ⟨hm', h.calls.congr rfl rfl (fun _ hp => hp) (fun j => (hset j).imp id Or.inl)
      (fun j _ => (hset j).imp id Or.inr), ?_⟩
    rw [← h.curr]
    refine congrArg (openCall · _) ?_
    simp only [Kernel.currPid]
    split <;> rfl

/-- Every step that kills nothing keeps it. -/
theorem NoKill.messagesOk {a : Action M} (hok : NoKill m a) (h : MessagesOk False m)
    (hstep : Grass.step m a = some m') : MessagesOk False m' := by
  refine h.step (fun b ha => ?_) (fun id ha hge => ?_) hstep
  · subst ha
    exact absurd hok.1 (by decide)
  · subst ha
    exact absurd (hok.2 rfl) (not_lt.2 hge)

/-- Messages are delivered exactly once, in every run without kills. When a process resumes from a
call of `sys_send` with 0, its message, with its own pid as the sender, has been copied once since
it made the call, to the process it named; when it resumes from `sys_recv`, one message has been
copied to it and that message is in its area. Every copy is from a process in such a call of
`sys_send` to one inside `sys_recv`, with none before it for either call. And until the receiver
resumes, the message stays in its area. -/
theorem rendezvous_exactly_once {area : ℤ → Syscall M}
    (h : Reach step NoKill (bootMachine area) m) :
    (∀ later p retval msg earlier, m.kernel.log = later ++ .run p retval msg :: earlier →
      (∀ r c copies, openCall p earlier = some (.send r c, copies) → retval = 0 →
        copies = [⟨p, r, ⟨p, r, c⟩⟩]) ∧
      ∀ copies, openCall p earlier = some (.recv, copies) →
        ∃ q c, copies = [⟨q, p, ⟨q, p, c⟩⟩] ∧ msg = ⟨q, p, c⟩) ∧
    (∀ later src dst msg earlier, m.kernel.log = later ++ .copy src dst msg :: earlier →
      openCall src earlier = some (.send dst msg.content, []) ∧
      openCall dst earlier = some (.recv, []) ∧ msg.sender = src ∧ msg.receiver = dst) ∧
    ∀ i, (m.kernel.procSet i).status ≠ .unused →
      ∀ copy copies, openCall (m.kernel.procSet i).pid m.kernel.log = some (.recv, copy :: copies) →
        copies = [] ∧ (m.kernel.area (m.kernel.procSet i).pid).msg = copy.msg := by
  have hok : MessagesOk False m :=
    h.invariant (messagesOk_boot False area) fun _ _ _ hm hok hstep => hok.messagesOk hm hstep
  refine ⟨fun later p retval msg earlier hlog => ?_, fun later src dst msg earlier hlog => ?_,
    fun i hi copy copies hopen => ?_⟩
  · obtain ⟨hsend, hrecv⟩ := LogOk.event (hlog ▸ hok.calls.history)
    exact ⟨hsend, fun copies hopen => (hrecv copies hopen).resolve_right fun hw => hw.1⟩
  · exact LogOk.event (hlog ▸ hok.calls.history)
  · have hslot := hok.calls.slot i trivial
    rw [hopen] at hslot
    exact hslot.received hi

/-- The servers and the client are started, and the client sends a request to `GPID_FILE`, which
resumes with it. -/
theorem rendezvous_exactly_once_request :
    ∃ (m : Machine Unit) (retval : ℤ) (msg : SysMsg Unit) (earlier : List (Event Unit)),
      Reach step NoKill (bootMachine nullArea) m ∧
      m.kernel.log = .run gpidFile retval msg :: earlier ∧
      ∃ q c, openCall gpidFile earlier = some (.recv, [⟨q, gpidFile, ⟨q, gpidFile, c⟩⟩]) ∧
        msg = ⟨q, gpidFile, c⟩ := by
  have hrun : (runActions step (bootMachine nullArea) (clientKilled.take 13)).any (fun m =>
      match m.kernel.log with
      | .run p _ _ :: earlier => p = gpidFile &&
        match openCall gpidFile earlier with
        | some (.recv, _) => true
        | _ => false
      | _ => false) = true := by decide +kernel
  have hmeets : runMeets step (fun m a => decide (NoKill m a)) (bootMachine nullArea)
      (clientKilled.take 13) = true := by decide +kernel
  obtain ⟨m, hm, hcheck⟩ := (Option.any_eq_true _ _).1 hrun
  have hreach : Reach step NoKill (bootMachine nullArea) m :=
    Reach.of_runActions (fun _ _ => of_decide_eq_true) _ .init hm hmeets
  split at hcheck
  · rename_i p retval msg earlier hlog
    obtain ⟨hp, hopen⟩ := (Bool.and_eq_true _ _).mp hcheck
    obtain rfl : p = gpidFile := of_decide_eq_true hp
    split at hopen
    · rename_i copies hcopies
      obtain ⟨q, c, rfl, hmsg⟩ :=
        ((rendezvous_exactly_once hreach).1 [] _ _ _ _ hlog).2 copies hcopies
      exact ⟨m, retval, msg, earlier, hreach, hlog, q, c, hcopies, hmsg⟩
    · cases hopen
  · cases hcheck

end Egos.Grass
