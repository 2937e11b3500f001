import Egos.Grass.RoundRobin
import Egos.Grass.Started

/-!
# The shell runs before user processes

`proc_alloc` takes the first free slot. The servers and the shell are not freed, so each of them is
in the slot that its pid gives, and user processes are in the slots behind. `proc_yield` goes
through the slots in order. So from one of the first slots it selects the shell, once that is ready,
before it comes to a user process.
-/

namespace Egos.Grass

variable {M : Type} {k k' : Kernel M} {m m' : Machine M} {i j next : Fin maxNprocess}

/-- The slots of the servers, the shell and the user processes. No user process runs before the
shell has. -/
structure SlotOrder (m : Machine M) : Prop where
  server : ∀ i, 0 < (m.kernel.procSet i).pid → (m.kernel.procSet i).pid < gpidUserStart →
    (m.kernel.procSet i).pid = i.val + 1
  user : ∀ i, gpidUserStart ≤ (m.kernel.procSet i).pid → 4 ≤ i.val
  shell : ∀ i, (m.kernel.procSet i).pid = gpidShell →
    (m.kernel.procSet i).status = .loading ∨ (m.kernel.procSet i).status = .ready →
    m.kernel.currPid < gpidUserStart

/-- `GPID_PROCESS` has the first slot, and no other is in use. -/
theorem slotOrder_boot (area : ℤ → Syscall M) : SlotOrder (bootMachine area) := by
  refine ⟨fun i hpos _ => ?_, fun i hi => ?_, fun i _ _ => ?_⟩
  · simp only [bootMachine, boot] at hpos ⊢
    split at hpos
    next he => simp [he]
    next => exact absurd hpos (lt_irrefl 0)
  · simp only [bootMachine, boot] at hi
    split at hi <;> exact absurd hi (by decide)
  · show (1 : ℤ) < 5
    decide

/-! ## `proc_alloc` -/

/-- The slot of a server that has been allocated is not free. -/
theorem SlotOrder.used (h : SlotOrder m) (hstay : ServersStay m) (hi : i.val < 4)
    (hn : (i.val : ℤ) + 1 ≤ m.kernel.procNprocs) : (m.kernel.procSet i).status ≠ .unused := by
  have hlt : (i.val : ℤ) + 1 < gpidUserStart := by
    show (i.val : ℤ) + 1 < 5
    omega
  obtain ⟨j, hj⟩ := hstay.here (i.val + 1) (by omega) hlt hn
  have hslot := h.server j (by omega) (by rw [hj]; exact hlt)
  obtain rfl : j = i := Fin.ext (by omega)
  exact hstay.used j (by omega) (by rw [hj]; exact hlt)

/-- The first free slot. -/
theorem SlotOrder.first_free (h : SlotOrder m) (ht : TableOk m.kernel) (hstay : ServersStay m)
    (hi : (m.kernel.procSet i).status = .unused)
    (hfirst : ∀ j, j < i → (m.kernel.procSet j).status ≠ .unused) :
    (m.kernel.procNprocs + 1 < gpidUserStart → m.kernel.procNprocs + 1 = i.val + 1) ∧
      (gpidUserStart ≤ m.kernel.procNprocs + 1 → 4 ≤ i.val) := by
  have hused : i.val < 4 → ¬ (i.val : ℤ) + 1 ≤ m.kernel.procNprocs := fun hlt hle =>
    h.used hstay hlt hle hi
  refine ⟨fun hlt => ?_, fun hle => ?_⟩
  · have hlt : m.kernel.procNprocs + 1 < 5 := hlt
    have hnonneg : 0 ≤ m.kernel.procNprocs := (ht.pid_range i).1.trans (ht.pid_range i).2
    by_contra hne
    -- otherwise the slot behind those of the servers comes before it, and is not free
    have hbefore : m.kernel.procNprocs < i.val := by omega
    obtain ⟨n, hn⟩ := Int.eq_ofNat_of_zero_le hnonneg
    have hnlt : n < maxNprocess := by
      have := i.isLt
      omega
    have hslot : (m.kernel.procSet ⟨n, hnlt⟩).status ≠ .unused :=
      hfirst ⟨n, hnlt⟩ (Fin.lt_def.2 (by show n < i.val; omega))
    have hpid := ht.pid_ne_zero hslot
    have hrange := ht.pid_range ⟨n, hnlt⟩
    have hserver := h.server ⟨n, hnlt⟩ (by omega) (by show _ < (5 : ℤ); omega)
    simp only at hserver
    omega
  · have hle : 5 ≤ m.kernel.procNprocs + 1 := hle
    by_contra hlt
    exact hused (by omega) (by omega)

/-- The first slot with a property. -/
theorem find_finRange {P : Fin maxNprocess → Bool}
    (h : (List.finRange maxNprocess).find? P = some i) : P i = true ∧ ∀ j, j < i → P j = false := by
  obtain ⟨hi, as, bs, hsplit, has⟩ := List.find?_eq_some_iff_append.1 h
  refine ⟨hi, fun j hj => ?_⟩
  have hsorted := List.pairwise_lt_finRange maxNprocess
  rw [hsplit, List.pairwise_append, List.pairwise_cons] at hsorted
  have hmem : j ∈ as ++ i :: bs := hsplit ▸ List.mem_finRange j
  rcases List.mem_append.1 hmem with hjas | hjbs
  · simpa using has j hjas
  · rcases List.mem_cons.1 hjbs with rfl | hjbs
    · exact absurd hj (lt_irrefl _)
    · exact absurd (hsorted.2.1.1 j hjbs) hj.asymm

/-- `proc_alloc` takes the slot of the next server, or one behind theirs. -/
theorem SlotOrder.alloc (h : SlotOrder m) (hs : Scheduled m.kernel) (hstay : ServersStay m)
    (hstep : step m .alloc = some m') : SlotOrder m' := by
  rw [step] at hstep
  split at hstep
  case isFalse => cases hstep
  case isTrue hguard =>
    rw [procAlloc] at hstep
    split at hstep
    case h_2 => cases hstep
    case h_1 i hfind =>
      cases hstep
      obtain ⟨hi, hfirst⟩ := find_finRange hfind
      obtain ⟨hserver, huser⟩ := h.first_free hs.table hstay (of_decide_eq_true hi)
        fun j hj => of_decide_eq_false (hfirst j hj)
      have hne : m.kernel.procCurrIdx ≠ i := by
        rintro rfl
        exact hs.curr_used (of_decide_eq_true hi)
      have hcurr : (allocated m.kernel i).currPid = m.kernel.currPid :=
        congrArg Process.pid (Function.update_of_ne hne _ _)
      refine ⟨fun j hpos hlt => ?_, fun j hle => ?_, fun j _ _ => ?_⟩
      · by_cases hj : j = i
        · subst hj
          simp only [Function.update_self] at hlt ⊢
          exact hserver hlt
        · simp only [Function.update_of_ne hj] at hpos hlt ⊢
          exact h.server j hpos hlt
      · by_cases hj : j = i
        · subst hj
          simp only [Function.update_self] at hle
          exact huser hle
        · simp only [Function.update_of_ne hj] at hle
          exact h.user j hle
      · show (allocated m.kernel i).currPid < gpidUserStart
        rw [hcurr, hguard.1]
        decide

/-! ## `proc_yield` -/

/-- A process with this status has not run yet. -/
def ProcStatus.New (status : ProcStatus) : Prop := status = .loading ∨ status = .ready

/-- What `proc_yield` finds when the current process calls it: the slots have their pids, and those
whose processes have not run are as before. -/
structure YieldsIn (k k' : Kernel M) : Prop where
  idx : k'.procCurrIdx = k.procCurrIdx
  pid : ∀ j, (k'.procSet j).pid = (k.procSet j).pid
  status : ∀ j, (k'.procSet j).status.New → (k.procSet j).status = (k'.procSet j).status

/-- `proc_yield` may be called at once. -/
theorem YieldsIn.refl (k : Kernel M) : YieldsIn k k := ⟨rfl, fun _ => rfl, fun _ _ => rfl⟩

/-- Or after one slot has got another status. -/
theorem YieldsIn.of_slot {p : Fin maxNprocess → Process} (hidx : k'.procCurrIdx = k.procCurrIdx)
    (hset : ∀ j, k'.procSet j = if j = i then p j else k.procSet j)
    (hpid : ∀ j, (p j).pid = (k.procSet j).pid) (hstatus : ∀ j, ¬ (p j).status.New) :
    YieldsIn k k' := by
  refine ⟨hidx, fun j => ?_, fun j => ?_⟩
  · rw [hset]
    split
    · exact hpid j
    · rfl
  · rw [hset]
    split
    · exact fun hj => absurd hj (hstatus j)
    · exact fun _ => rfl

/-- Or after a kill. -/
theorem yieldsIn_killed (k : Kernel M) : YieldsIn k (killed k) := by
  refine ⟨rfl, killed_pid k, fun j hj => ?_⟩
  rw [killed_status] at hj ⊢
  split_ifs at hj ⊢
  · exact absurd hj (by simp [ProcStatus.New])
  · exact absurd hj (by simp [ProcStatus.New])
  · rfl

/-- A shell that is ready is selected before any user process. -/
theorem SlotOrder.next_lt (h : SlotOrder m) (hs : Scheduled m.kernel) (hk : YieldsIn m.kernel k)
    (hnext : nextIdx k = some next) (hj : (m.kernel.procSet j).pid = gpidShell)
    (hready : ((yieldTo k next).procSet j).status = .ready) :
    (m.kernel.procSet next).pid < gpidUserStart := by
  rw [yieldTo_status] at hready
  split_ifs at hready with hjn
  have hready' : (m.kernel.procSet j).status = .ready :=
    (hk.status j (Or.inr hready)).trans hready
  have hcurr : m.kernel.currPid < 5 := h.shell j hj (Or.inr hready')
  have hpos : 0 < m.kernel.currPid := lt_of_le_of_ne (hs.table.pid_range _).1
    (hs.table.pid_ne_zero hs.curr_used).symm
  -- the shell is in slot 3, and the current process in one before
  have hcslot : m.kernel.currPid = m.kernel.procCurrIdx.val + 1 := h.server _ hpos hcurr
  have hjslot := h.server j (by rw [hj]; decide) (by rw [hj]; decide)
  rw [hj] at hjslot
  have hjslot : (4 : ℤ) = j.val + 1 := hjslot
  have hne : m.kernel.procCurrIdx ≠ j := by
    rintro rfl
    have hrun : (m.kernel.procSet m.kernel.procCurrIdx).status = .running := hs.running
    rw [hready'] at hrun
    cases hrun
  have hval : m.kernel.procCurrIdx.val ≠ j.val := fun he => hne (Fin.ext he)
  have hcloser := slotsBefore_nextIdx (by rw [hready]; rfl) hnext (Ne.symm hjn)
  rw [hk.idx, slotsBefore_eq, slotsBefore_eq] at hcloser
  have hlt : next.val < 16 := next.isLt
  by_contra hge
  have huser := h.user next (not_lt.1 hge)
  omega

/-- `proc_yield` keeps the order. -/
theorem SlotOrder.yield (h : SlotOrder m) (hs : Scheduled m.kernel) (hloads : LoadsOne m)
    (hstay : ServersStay m) (hk : YieldsIn m.kernel k) (hnext : nextIdx k = some next) :
    SlotOrder ⟨returnTo (yieldTo k next), m.allocated⟩ := by
  have hpid : ∀ j, ((returnTo (yieldTo k next)).procSet j).pid = (m.kernel.procSet j).pid :=
    fun j => (yieldTo_pid k next j).trans (hk.pid j)
  refine ⟨fun j => ?_, fun j => ?_, fun j hj hstatus => ?_⟩
  · show 0 < ((returnTo (yieldTo k next)).procSet j).pid → _
    rw [hpid]
    exact h.server j
  · show gpidUserStart ≤ ((returnTo (yieldTo k next)).procSet j).pid → _
    rw [hpid]
    exact h.user j
  · have hj : (m.kernel.procSet j).pid = gpidShell := (hpid j).symm.trans hj
    show ((returnTo (yieldTo k next)).procSet next).pid < gpidUserStart
    rw [hpid]
    rcases hstatus with hloading | hready
    · -- while the shell is loaded there is no user process
      have hloading : ((yieldTo k next).procSet j).status = .loading := hloading
      rw [yieldTo_status] at hloading
      split_ifs at hloading
      have hsome := hloads.loading j ((hk.status j (Or.inl hloading)).trans hloading)
      rw [hj] at hsome
      have hlast : (4 : ℤ) = m.kernel.procNprocs := hstay.last _ hsome
      have hle := (hs.table.pid_range next).2
      show _ < (5 : ℤ)
      omega
    · exact h.next_lt hs hk hnext hj hready

/-! ## Runs -/

/-- So does `sys_send`. -/
theorem SendOutcome.slotOrder {r : ℤ} {c : M} (ho : SendOutcome m.kernel r c k') (h : SlotOrder m)
    (hs : Scheduled m.kernel) (hloads : LoadsOne m) (hstay : ServersStay m) :
    SlotOrder ⟨k', m.allocated⟩ := by
  cases ho with
  | missing _ => exact ⟨h.server, h.user, h.shell⟩
  | blocked _ _ hnext =>
    exact h.yield hs hloads hstay (.of_slot rfl (sendBlocked_procSet m.kernel r c) (fun _ => rfl)
      fun _ => by simp [ProcStatus.New]) hnext
  | delivered _ _ hnext =>
    exact h.yield hs hloads hstay (.of_slot rfl (sendDelivered_procSet m.kernel r c _)
      (fun _ => rfl) fun _ => by simp [ProcStatus.New]) hnext

/-- So does `sys_recv`. -/
theorem RecvOutcome.slotOrder (ho : RecvOutcome m.kernel k') (h : SlotOrder m)
    (hs : Scheduled m.kernel) (hloads : LoadsOne m) (hstay : ServersStay m) :
    SlotOrder ⟨k', m.allocated⟩ := by
  cases ho with
  | blocked _ hnext =>
    exact h.yield hs hloads hstay (.of_slot rfl (recvBlocked_procSet m.kernel) (fun _ => rfl)
      fun _ => by simp [ProcStatus.New]) hnext
  | taken _ _ hnext =>
    exact h.yield hs hloads hstay (.of_slot rfl (recvTaken_procSet m.kernel _) (fun _ => rfl)
      fun _ => by simp [ProcStatus.New]) hnext

/-- A change of statuses by `GPID_PROCESS`. -/
theorem SlotOrder.congr (h : SlotOrder m) (hcurr : m.kernel.currPid = gpidProcess)
    (hidx : m'.kernel.procCurrIdx = m.kernel.procCurrIdx)
    (hpid : ∀ j, (m'.kernel.procSet j).pid = (m.kernel.procSet j).pid) : SlotOrder m' := by
  refine ⟨fun j => ?_, fun j => ?_, fun _ _ _ => ?_⟩
  · rw [hpid]
    exact h.server j
  · rw [hpid]
    exact h.user j
  · rw [Kernel.currPid, hidx, hpid]
    exact hcurr.trans_lt (by decide)

/-- Every step keeps the order of the slots. -/
theorem SlotOrder.step {a : Action M} (h : SlotOrder m) (hs : Scheduled m.kernel)
    (hloads : LoadsOne m) (hstay : ServersStay m) (hstep : step m a = some m') : SlotOrder m' := by
  have houtcome := step_outcome hs hstep
  cases houtcome with
  | send ho | softSend ho => exact ho.slotOrder h hs hloads hstay
  | recv ho | softRecv ho => exact ho.slotOrder h hs hloads hstay
  | ignored _ => exact h
  | killed _ hnext => exact h.yield hs hloads hstay (yieldsIn_killed _) hnext
  | preempted _ hnext => exact h.yield hs hloads hstay (.refl _) hnext
  | alloc _ _ _ => exact h.alloc hs hstay hstep
  | setReady hcurr _ =>
    refine h.congr hcurr rfl fun j => ?_
    simp only [procSetReady, procSetStatus]
    split <;> rfl
  | free hcurr _ =>
    refine h.congr hcurr (procFree_procCurrIdx _ _) fun j => ?_
    rw [procFree_procSet]
    split <;> rfl

end Egos.Grass
