import Egos.Grass.Kernel

/-!
# Round robin

`proc_yield` is the only function that moves `proc_curr_idx`, and it scans the slots in cyclic order
from there. So while a slot can run and is passed over, each selection comes strictly closer to it,
whatever happens to the other slots in between.

The handlers of the kernel end in at most one call of `proc_yield`. To speak of the state at that
call they are written once more with the call left open.
-/

namespace Egos.Grass

variable {M β : Type}

/-! ## The calls of `proc_yield` -/

/-- `proc_send`, with what it does at its end left open. -/
def sendThen (yield done : Kernel M → β) (k : Kernel M) : β :=
  let k := k.setSc { k.sc with msg := { k.sc.msg with sender := k.currPid } }
  let receiver := k.sc.msg.receiver
  match (List.finRange maxNprocess).find? fun i => (k.procSet i).pid = receiver with
  | some i =>
    if (k.procSet i).status ≠ .waitToRecv then
      yield (k.setCurr { k.procSet k.procCurrIdx with
        status := .waitToSend, receiverPid := receiver })
    else yield (procSetRunnable (copyMsg k k.currPid receiver) receiver)
  | none => done (k.setSc { k.sc with retval := -1 })

/-- `proc_recv`, with what it does at its end left open. -/
def recvThen (yield : Kernel M → β) (k : Kernel M) : β :=
  let sender := findSender k
  if sender = -1 then yield (k.setCurr { k.procSet k.procCurrIdx with status := .waitToRecv })
  else yield (procSetRunnable (copyMsg k sender k.currPid) sender)

/-- `proc_syscall`, with what it does at its end left open. -/
def syscallThen (yield done : Kernel M → β) (fatal : String → β) (k : Kernel M) : β :=
  let type := k.sc.type
  let msg := k.sc.msg
  let k := k.setSc { k.sc with retval := 0, type := .unused }
  match type with
  | .recv => recvThen yield (k.note (.trap k.currPid .recv))
  | .send => sendThen yield done (k.note (.trap k.currPid (.send msg.receiver msg.content)))
  | .unused => fatal "proc_syscall: got unknown syscall type=0"
  | .ncalls => fatal "proc_syscall: got unknown syscall type=3"
  | .other type => fatal ("proc_syscall: got unknown syscall type=" ++ toString type)

theorem procSyscall_eq_syscallThen (k : Kernel M) :
    procSyscall k = syscallThen procYield .ok .error k := rfl

/-- The state in which `proc_syscall` calls `proc_yield`, if it does. -/
def syscallYield (k : Kernel M) : Option (Kernel M) :=
  syscallThen some (fun _ => none) (fun _ => none) k

/-- The state in which a step of the machine calls `proc_yield`, if it does. -/
def yieldCall (m : Machine M) : Action M → Option (Kernel M)
  | .send receiver content =>
    let k := m.kernel
    syscallYield (k.setSc { k.sc with type := .send, msg := { k.sc.msg with receiver, content } })
  | .recv =>
    let k := m.kernel
    syscallYield (k.setSc { k.sc with type := .recv })
  | .intr id ttyRecvIntr =>
    let k := m.kernel
    if id = intrIdTimer ∧ k.currPid < gpidShell then none
    else if ttyRecvIntr ∧ k.currPid ≥ gpidUserStart then
      some (procSetRunnable (procFree k k.currPid) gpidShell)
    else if id = intrIdSoft then syscallYield k
    else if id = intrIdTimer then some k
    else none
  | _ => none

/-- What a handler does to `proc_curr_idx`: it leaves it alone up to a call of `proc_yield`, if
there is one, which moves it to the slot it selects. -/
def MovesBy (k : Kernel M) : Option (Kernel M) → Kernel M → Prop
  | some y, k' => y.procCurrIdx = k.procCurrIdx ∧ nextIdx y = some k'.procCurrIdx
  | none, k' => k'.procCurrIdx = k.procCurrIdx

/-- `proc_yield` goes to the slot that is selected. -/
theorem procYield_procCurrIdx {k k' : Kernel M} (h : procYield k = .ok k') :
    nextIdx k = some k'.procCurrIdx := by
  unfold procYield at h
  split at h
  · cases h
  · rename_i next hnext
    cases h
    exact hnext

/-- `proc_free` leaves the current slot. -/
theorem procFree_procCurrIdx (k : Kernel M) (pid : ℤ) :
    (procFree k pid).procCurrIdx = k.procCurrIdx := by
  unfold procFree
  split <;> rfl

/-- `proc_send` yields or returns, with `proc_curr_idx` as it was. -/
theorem sendThen_cases (k : Kernel M) :
    (∃ y, (∀ {β : Type} (yield done : Kernel M → β), sendThen yield done k = yield y) ∧
      y.procCurrIdx = k.procCurrIdx) ∨
    ∃ d, (∀ {β : Type} (yield done : Kernel M → β), sendThen yield done k = done d) ∧
      d.procCurrIdx = k.procCurrIdx := by
  simp only [sendThen]
  split
  · left
    split <;> refine ⟨_, fun _ _ => rfl, ?_⟩ <;> rfl
  · right
    refine ⟨_, fun _ _ => rfl, ?_⟩
    rfl

/-- `proc_recv` yields, with `proc_curr_idx` as it was. -/
theorem recvThen_cases (k : Kernel M) :
    ∃ y, (∀ {β : Type} (yield : Kernel M → β), recvThen yield k = yield y) ∧
      y.procCurrIdx = k.procCurrIdx := by
  simp only [recvThen]
  split <;> refine ⟨_, fun _ => rfl, ?_⟩ <;> rfl

/-- `proc_syscall` yields, returns or stops. -/
theorem syscallThen_cases (k : Kernel M) :
    (∃ y, (∀ {β : Type} (yield done : Kernel M → β) (fatal : String → β),
        syscallThen yield done fatal k = yield y) ∧ y.procCurrIdx = k.procCurrIdx) ∨
    (∃ d, (∀ {β : Type} (yield done : Kernel M → β) (fatal : String → β),
        syscallThen yield done fatal k = done d) ∧ d.procCurrIdx = k.procCurrIdx) ∨
    ∃ e, ∀ {β : Type} (yield done : Kernel M → β) (fatal : String → β),
      syscallThen yield done fatal k = fatal e := by
  unfold syscallThen
  cases k.sc.type with
  | recv =>
    obtain ⟨y, hrecv, hy⟩ := recvThen_cases
      ((k.setSc { k.sc with retval := 0, type := .unused }).note
      (.trap (k.setSc { k.sc with retval := 0, type := .unused }).currPid .recv))
    exact .inl ⟨y, fun yield _ _ => hrecv yield, hy⟩
  | send =>
    obtain ⟨y, hsend, hy⟩ | ⟨d, hsend, hd⟩ := sendThen_cases
      ((k.setSc { k.sc with retval := 0, type := .unused }).note
        (.trap (k.setSc { k.sc with retval := 0, type := .unused }).currPid
          (.send k.sc.msg.receiver k.sc.msg.content)))
    · exact .inl ⟨y, fun yield done _ => hsend yield done, hy⟩
    · exact .inr (.inl ⟨d, fun yield done _ => hsend yield done, hd⟩)
  | unused => exact .inr (.inr ⟨_, fun _ _ _ => rfl⟩)
  | ncalls => exact .inr (.inr ⟨_, fun _ _ _ => rfl⟩)
  | other type => exact .inr (.inr ⟨_, fun _ _ _ => rfl⟩)

/-- `proc_syscall` goes on to another slot exactly by its call of `proc_yield`. -/
theorem procSyscall_moves {k k' : Kernel M} (h : procSyscall k = .ok k') :
    MovesBy k (syscallYield k) k' := by
  rw [procSyscall_eq_syscallThen] at h
  rw [syscallYield]
  obtain ⟨y, hk, hy⟩ | ⟨d, hk, hd⟩ | ⟨e, hk⟩ := syscallThen_cases k
  · rw [hk] at h ⊢
    exact ⟨hy, procYield_procCurrIdx h⟩
  · rw [hk] at h ⊢
    cases h
    exact hd
  · rw [hk] at h
    cases h

/-- `ctx_entry` leaves `proc_curr_idx` as the handler does. -/
theorem ctxEntry_ok {entry : Kernel M → Except String (Kernel M)} {k k' : Kernel M}
    (h : ctxEntry entry k = .ok k') :
    ∃ k₁, entry k = .ok k₁ ∧ k'.procCurrIdx = k₁.procCurrIdx := by
  unfold ctxEntry at h
  cases hentry : entry k with
  | error e =>
    rw [hentry] at h
    cases h
  | ok k₁ =>
    rw [hentry] at h
    cases h
    exact ⟨k₁, rfl, rfl⟩

/-- So does a trap for a system call. -/
theorem ctxEntry_procSyscall_moves {k k' : Kernel M} (h : ctxEntry procSyscall k = .ok k') :
    MovesBy k (syscallYield k) k' := by
  obtain ⟨k₁, hsyscall, hidx⟩ := ctxEntry_ok h
  have hmoves := procSyscall_moves hsyscall
  cases hyield : syscallYield k with
  | none =>
    rw [hyield] at hmoves
    exact hidx.trans hmoves
  | some y =>
    rw [hyield] at hmoves
    exact ⟨hmoves.1, by rw [hidx, hmoves.2]⟩

/-- A trap for a yield goes to the slot that is selected. -/
theorem ctxEntry_procYield_moves {k k' : Kernel M} (h : ctxEntry procYield k = .ok k') :
    nextIdx k = some k'.procCurrIdx := by
  obtain ⟨k₁, hyield, hidx⟩ := ctxEntry_ok h
  rw [hidx]
  exact procYield_procCurrIdx hyield

/-- An interrupt goes on to another slot exactly by its call of `proc_yield`. -/
theorem intrEntry_moves {m : Machine M} {id : ℕ} {ttyRecvIntr : Bool} {k' : Kernel M}
    (h : intrEntry m.kernel id ttyRecvIntr = .ok k') :
    MovesBy m.kernel (yieldCall m (.intr id ttyRecvIntr)) k' := by
  simp only [intrEntry] at h
  simp only [yieldCall]
  split at h
  · rename_i hcond
    rw [if_pos hcond]
    cases h
    rfl
  · rename_i hcond
    rw [if_neg hcond]
    split at h
    · rename_i hkill
      rw [if_pos hkill]
      exact ⟨procFree_procCurrIdx _ _, ctxEntry_procYield_moves h⟩
    · rename_i hkill
      rw [if_neg hkill]
      split at h
      · rename_i hsoft
        rw [if_pos hsoft]
        exact ctxEntry_procSyscall_moves h
      · rename_i hsoft
        rw [if_neg hsoft]
        split at h
        · rename_i htimer
          rw [if_pos htimer]
          exact ⟨rfl, ctxEntry_procYield_moves h⟩
        · cases h

/-- A step moves `proc_curr_idx` by its call of `proc_yield` only. -/
theorem step_moves {m m' : Machine M} {a : Action M} (h : step m a = some m') :
    MovesBy m.kernel (yieldCall m a) m'.kernel := by
  cases a with
  | send receiver content =>
    obtain ⟨k', hk', rfl⟩ := Option.map_eq_some_iff.1 h
    exact ctxEntry_procSyscall_moves (k := m.kernel.setSc _) (eq_ok_of_toOption hk')
  | recv =>
    obtain ⟨k', hk', rfl⟩ := Option.map_eq_some_iff.1 h
    exact ctxEntry_procSyscall_moves (k := m.kernel.setSc _) (eq_ok_of_toOption hk')
  | intr id ttyRecvIntr =>
    obtain ⟨k', hk', rfl⟩ := Option.map_eq_some_iff.1 h
    exact intrEntry_moves (eq_ok_of_toOption hk')
  | alloc =>
    simp only [step] at h
    split at h
    · obtain ⟨r, hr, rfl⟩ := Option.map_eq_some_iff.1 h
      have halloc := eq_ok_of_toOption hr
      unfold procAlloc at halloc
      split at halloc
      · cases halloc
        rfl
      · cases halloc
    · cases h
  | setReady pid =>
    simp only [step] at h
    split at h
    · cases h
      rfl
    · cases h
  | free pid =>
    simp only [step] at h
    split at h
    · cases h
      exact procFree_procCurrIdx _ _
    · cases h

/-! ## The distance to a slot -/

/-- How many slots lie strictly between slot `i` and slot `j`, going round. -/
def slotsBefore (j i : Fin maxNprocess) : ℕ := (j.val + maxNprocess - 1 - i.val) % maxNprocess

/-- How many slots are looked at before a slot. -/
theorem slotsBefore_eq (j i : Fin maxNprocess) : slotsBefore j i = (j.val + 15 - i.val) % 16 := rfl

/-- They are fewer than there are slots. -/
theorem slotsBefore_lt (j i : Fin maxNprocess) : slotsBefore j i < maxNprocess :=
  Nat.mod_lt _ (by decide)

/-- A selection that passes over a slot that can run comes closer to it. -/
theorem slotsBefore_nextIdx {k : Kernel M} {j next : Fin maxNprocess}
    (hj : (k.procSet j).status.canRun = true) (hnext : nextIdx k = some next) (hne : next ≠ j) :
    slotsBefore j next < slotsBefore j k.procCurrIdx := by
  rw [nextIdx, List.find?_map, Option.map_eq_some_iff] at hnext
  obtain ⟨i, hfind, rfl⟩ := hnext
  rw [List.find?_range_eq_some] at hfind
  obtain ⟨-, hi, hskip⟩ := hfind
  -- the scan reaches slot `j` itself at step `d`
  set d := slotsBefore j k.procCurrIdx with hd
  have hval : ∀ n, (k.procCurrIdx + Fin.ofNat maxNprocess (n + 1)).val
      = (k.procCurrIdx.val + (n + 1) % 16) % 16 := fun n => Fin.val_add _ _
  have hjlt : j.val < 16 := j.isLt
  have hclt : k.procCurrIdx.val < 16 := k.procCurrIdx.isLt
  rw [slotsBefore_eq] at hd
  have hjd : k.procCurrIdx + Fin.ofNat maxNprocess (d + 1) = j := by
    apply Fin.ext
    rw [hval]
    omega
  have hid : i < d := by
    by_contra hge
    rcases Nat.lt_or_eq_of_le (Nat.le_of_not_lt hge) with hlt | heq
    · have hno := hskip d hlt
      rw [Function.comp_apply, hjd, hj] at hno
      cases hno
    · rw [← heq] at hne
      exact hne hjd
  rw [slotsBefore_eq, hval]
  omega

/-! ## Stretches of a run -/

/-- The states in which `proc_yield` is called over a stretch of a run, in order. -/
def yieldCalls (m : Machine M) : List (Action M) → List (Kernel M)
  | [] => []
  | a :: as => (yieldCall m a).toList ++
      match step m a with
      | some m' => yieldCalls m' as
      | none => []

/-- Over a stretch in which slot `j` is passed over, the selections come closer and closer to it. -/
theorem yieldCalls_closer {j : Fin maxNprocess} (as : List (Action M)) {m m' : Machine M}
    (hrun : runActions step m as = some m')
    (hj : ∀ k ∈ yieldCalls m as, (k.procSet j).status.canRun = true)
    (hpassed : ∀ k ∈ yieldCalls m as, nextIdx k ≠ some j) :
    ∃ slots : List (Fin maxNprocess), (yieldCalls m as).map nextIdx = slots.map some ∧
      slots.Pairwise (fun i i' => slotsBefore j i' < slotsBefore j i) ∧
      (∀ i ∈ slots, slotsBefore j i < slotsBefore j m.kernel.procCurrIdx) ∧
      slots.length ≤ slotsBefore j m.kernel.procCurrIdx := by
  induction as generalizing m with
  | nil => exact ⟨[], rfl, .nil, by simp, Nat.zero_le _⟩
  | cons a as ih =>
    obtain ⟨m₁, hstep, hrest⟩ := Option.bind_eq_some_iff.1 hrun
    have hmoves := step_moves hstep
    simp only [yieldCalls, hstep] at hj hpassed ⊢
    obtain ⟨slots, hmap, hpair, hlt, hlen⟩ := ih hrest
      (fun k hk => hj k (List.mem_append_right _ hk))
      (fun k hk => hpassed k (List.mem_append_right _ hk))
    cases hyield : yieldCall m a with
    | none =>
      rw [hyield] at hmoves
      rw [show m₁.kernel.procCurrIdx = _ from hmoves] at hlt hlen
      exact ⟨slots, hmap, hpair, hlt, hlen⟩
    | some y =>
      rw [hyield] at hmoves hj hpassed
      obtain ⟨hidx, hnext⟩ := hmoves
      have hne : m₁.kernel.procCurrIdx ≠ j := fun he =>
        hpassed y List.mem_cons_self (he ▸ hnext)
      have hcloser := slotsBefore_nextIdx (hj y List.mem_cons_self) hnext hne
      rw [hidx] at hcloser
      refine ⟨m₁.kernel.procCurrIdx :: slots, ?_, .cons hlt hpair, ?_, ?_⟩
      · rw [Option.toList_some, List.singleton_append, List.map_cons, hnext, hmap, List.map_cons]
      · intro i hi
        rcases List.mem_cons.1 hi with rfl | hi
        · exact hcloser
        · exact (hlt i hi).trans hcloser
      · rw [List.length_cons]
        omega

/-- Round robin without overtaking: over a stretch of any run in which slot `j` can run at every
call of `proc_yield` and is not selected, no slot is selected twice, so there are fewer than
`MAX_NPROCESS` selections. -/
theorem round_robin {m m' : Machine M} (as : List (Action M))
    (hrun : runActions step m as = some m') (j : Fin maxNprocess)
    (hj : ∀ k ∈ yieldCalls m as, (k.procSet j).status.canRun = true)
    (hpassed : ∀ k ∈ yieldCalls m as, nextIdx k ≠ some j) :
    ((yieldCalls m as).map nextIdx).Nodup ∧ (yieldCalls m as).length ≤ maxNprocess - 1 := by
  obtain ⟨slots, hmap, hpair, -, hlen⟩ := yieldCalls_closer as hrun hj hpassed
  constructor
  · rw [hmap]
    refine List.Nodup.map (Option.some_injective _) (hpair.imp ?_)
    rintro i i' hlt rfl
    exact lt_irrefl _ hlt
  · have heq : (yieldCalls m as).length = slots.length := by
      simpa using congrArg List.length hmap
    have hmax := slotsBefore_lt j m.kernel.procCurrIdx
    omega

/-- `GPID_PROCESS` sets four processes ready and waits for a message, and so do the first two of
them when they are selected. -/
def passedOver : List (Action Unit) :=
  [.alloc, .setReady 2, .alloc, .setReady 3, .alloc, .setReady 4, .alloc, .setReady 5, .recv, .recv,
    .recv]

/-- The last of the four, in slot 4, is passed over three times. -/
theorem round_robin_passedOver :
    ∃ m', runActions step (bootMachine fun _ => ⟨.unused, ⟨0, 0, ()⟩, 0⟩) passedOver = some m' ∧
      (yieldCalls (bootMachine fun _ => ⟨.unused, ⟨0, 0, ()⟩, 0⟩) passedOver).map nextIdx
        = [some 1, some 2, some 3] ∧
      ((yieldCalls (bootMachine fun _ => ⟨.unused, ⟨0, 0, ()⟩, 0⟩)
        passedOver).map nextIdx).Nodup := by
  obtain ⟨m', hrun⟩ := Option.isSome_iff_exists.1 (by decide +kernel :
    (runActions step (bootMachine fun _ => ⟨.unused, ⟨0, 0, ()⟩, 0⟩) passedOver).isSome)
  exact ⟨m', hrun, by decide +kernel,
    (round_robin passedOver hrun 4 (by decide +kernel) (by decide +kernel)).1⟩

end Egos.Grass
