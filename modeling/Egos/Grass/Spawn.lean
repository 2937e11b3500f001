import Egos.Grass.Launch

/-!
# Spawning a process

`GPID_PROCESS` starts a program by `proc_alloc`, `elf_load` and `proc_set_ready`. When it loads a
program from the file system, `elf_load` gets every block by messages to `GPID_FILE`, and while it
waits for them other processes run: they trap, store, exit and are killed. None of this has a part
in the memory of the process that is being loaded, so that in the end it holds the program, as if
`elf_load` had been done at one go.
-/

namespace Egos.Grass

open Earth Library

variable {σ Op : Type} {A : AddressSpaces σ ℤ Op} {M : PrivateMemories A}
  {x x' : MemMachine σ} {m m' : Machine Content} {p : ℤ} {i : Fin maxNprocess}

/-! ## `proc_alloc` -/

/-- What `proc_alloc` does: a slot that was free has the new pid. -/
structure Allocates (x : MemMachine σ) (p : ℤ) (i : Fin maxNprocess) (x' : MemMachine σ) :
    Prop where
  pid : p = x.kernel.procNprocs + 1
  curr : x'.kernel.currPid = gpidProcess
  memory : x'.kernel.memory = x.kernel.memory
  slot : (x'.kernel.procSet i).pid = p

/-- `proc_alloc` sets up a slot for a process. -/
theorem Follows.allocates (h : Follows M x m) (hstep : memStep A x .alloc = some x')
    (hpid : x'.allocated = some p) : ∃ i, Allocates x p i x' := by
  rw [memStep] at hstep
  split at hstep
  · rename_i hguard
    obtain ⟨r, hr, rfl⟩ := Option.map_eq_some_iff.1 hstep
    have hr := eq_ok_of_toOption hr
    cases hpid
    unfold MemKernel.procAlloc at hr
    split at hr
    · rename_i i hi
      cases hr
      have hunused : (x.kernel.procSet i).status = .unused := by
        simpa using List.find?_some hi
      have hne : x.kernel.procCurrIdx ≠ i := by
        intro he
        have hrunning := h.currStatus
        rw [MemKernel.currStatus, he, hunused] at hrunning
        cases hrunning
      refine ⟨i, rfl, ?_, rfl, ?_⟩
      · rw [← hguard.1]
        exact congrArg Process.pid (Function.update_of_ne hne _ _)
      · dsimp only
        rw [Function.update_self]
    · cases hr
  · cases hstep

/-- The process that is being loaded is not visible. -/
theorem Follows.loading_hidden (h : Follows M x m) (hpid : x.allocated = some p) :
    A.curr x.kernel.memory ≠ p := by
  have hlive := h.live_curr
  rw [← h.sim.procSet] at hlive
  rw [h.curr]
  exact (h.loads.ne_of_live h.machine.scheduled.table hlive
    (Or.inr (h.allocated.trans hpid))).symm

/-- A program is outside the system-call area. -/
theorem not_inArea_of_lt {a : ℕ} (ha : a < appsArg + 1024) : ¬ InArea a := fun harea =>
  absurd (harea.1.trans_lt ha) (lt_irrefl _)

/-! ## Steps while a process is loaded -/

variable {t : Translation} {L : PageLoader t M} {s : σ} {hart : Context} {d d' : Draft}
  {base base' : ℕ}

/-- Process `p` is being loaded: it has slot `i`, and its memory is as in the draft. -/
structure Drafting (L : PageLoader t M) (s : σ) (hart : Context) (p : ℤ) (i : Fin maxNprocess)
    (d : Draft) (base : ℕ) (x : MemMachine σ) : Prop where
  reach : Reach (memStep A) (MemOk M) (bootMem s hart) x
  allocated : x.allocated = some p
  slot : (x.kernel.procSet i).pid = p
  memory : L.Realises p d base x.kernel.memory

/-- A process that has just been set up has no memory. -/
theorem drafting_of_alloc {x₁ : MemMachine σ} (hb : BootsOn M s)
    (hnew : ∀ q, gpidProcess < q → L.Untouched s q)
    (hreach : Reach (memStep A) (MemOk M) (bootMem s hart) x)
    (halloc : memStep A x .alloc = some x₁) (hpid : x₁.allocated = some p) :
    x₁.kernel.currPid = gpidProcess ∧ L.Untouched x₁.kernel.memory p ∧
      ∃ i, Drafting L s hart p i .empty 0 x₁ := by
  have hok : MemOk M x .alloc := trivial
  obtain ⟨m, hfollows, hmatch⟩ := exists_matched hb hreach hok halloc
  obtain ⟨m₁, hfollows₁⟩ := hmatch.follows
  obtain ⟨i, hi⟩ := hfollows.allocates halloc hpid
  have hnone : L.Untouched x₁.kernel.memory p := by
    rw [hi.memory]
    apply untouched_of_reach L hb hnew hreach
    have := hi.pid
    omega
  exact ⟨hi.curr, hnone, i, hreach.step hok halloc, hpid, hi.slot,
    PageLoader.realises_empty hfollows₁.sim.inv (hfollows₁.loading_hidden hpid) hnone⟩

/-- A process is loading until it is set ready. -/
theorem memStep_allocated {a : MemAction Op} (hpid : x.allocated = some p)
    (hready : ∀ q, a ≠ .setReady q) (hstep : memStep A x a = some x') :
    x'.allocated = some p ∧ a ≠ .alloc ∧ ∀ q, a ≠ .free q := by
  cases a with
  | send | recv | intr =>
    obtain ⟨k', -, rfl⟩ := Option.map_eq_some_iff.1 hstep
    exact ⟨hpid, by simp, by simp⟩
  | alloc | free =>
    rw [memStep] at hstep
    split at hstep
    · rename_i hguard
      rw [hpid] at hguard
      cases hguard.2.1
    · cases hstep
  | setReady q => exact absurd rfl (hready q)
  | store | compute =>
    cases hstep
    exact ⟨hpid, by simp, by simp⟩
  | perform op =>
    rw [memStep] at hstep
    split at hstep
    · obtain ⟨s', -, rfl⟩ := Option.map_eq_some_iff.1 hstep
      exact ⟨hpid, by simp, by simp⟩
    · cases hstep

/-- While a process is loaded, no other gets a slot. -/
theorem Follows.slot_of_loading {a : MemAction Op} (h : Follows M x m)
    (hmatch : Matched M x a x' m) (hpid : x.allocated = some p) (hpid' : x'.allocated = some p)
    (j : Fin maxNprocess) : (x'.kernel.procSet j).pid = (x.kernel.procSet j).pid := by
  have hm := h.allocated.trans hpid
  have hs := h.machine.scheduled
  cases hmatch with
  | stutter h' _ => rw [← h'.sim.procSet, ← h.sim.procSet]
  | @step a₀ m' hstep h' _ _ =>
    have hm' := h'.allocated.trans hpid'
    rw [← h'.sim.procSet, ← h.sim.procSet]
    refine (h.loads.startsNone_step hs h.stay ?_ ?_ hstep).1.pid j
    · rintro rfl
      have hlast := h.stay.last p hm
      cases step_outcome hs hstep with
      | alloc _ _ _ =>
        have := Option.some.inj hm'
        omega
    · rintro q rfl
      cases step_outcome hs hstep with
      | setReady _ _ => cases hm'

/-- A process that is not touched keeps its memory. -/
theorem memoriesAfter_seen {a : MemAction Op} (hne : p ≠ x.kernel.currPid)
    (hfree : ∀ q, a ≠ .free q) (hop : ∀ op, a ≠ .perform op) : (memoriesAfter M x a).seen p := by
  cases a with
  | send | recv =>
    rw [memoriesAfter]
    split <;> trivial
  | intr =>
    rw [memoriesAfter]
    split
    · trivial
    · exact ⟨trivial, fun hc => hne hc.2⟩
  | free q => exact absurd rfl (hfree q)
  | perform op => exact absurd rfl (hop op)
  | alloc | setReady | store | compute => trivial

/-- A step of another process, or of `GPID_PROCESS` while it waits for a block. -/
theorem Drafting.other {a : MemAction Op} (h : Drafting L s hart p i d base x) (hb : BootsOn M s)
    (hok : MemOk M x a) (hop : ∀ op, a ≠ .perform op) (hready : ∀ q, a ≠ .setReady q)
    (hstep : memStep A x a = some x') : Drafting L s hart p i d base x' := by
  obtain ⟨m, hfollows, hmatch⟩ := exists_matched hb h.reach hok hstep
  obtain ⟨m', hfollows'⟩ := hmatch.follows
  obtain ⟨hpid', -, hfree⟩ := memStep_allocated h.allocated hready hstep
  have hhidden := h.memory.hidden
  have hne : p ≠ x.kernel.currPid := fun he => hhidden (hfollows.curr.trans he.symm)
  have hmem := h.memory
  -- the pages stay, since only the current process can be freed
  have hkept : KeptByKernel A (· ≠ p) fun s' => L.Alive s' p ∧
      ∀ v b, L.Has s' p v b ↔ L.Has x.kernel.memory p v b :=
    ⟨fun hP => ⟨L.alive_switch hP.1, fun v b => L.has_switch.trans (hP.2 v b)⟩,
      fun hP => ⟨L.alive_store hP.1, fun v b => L.has_store.trans (hP.2 v b)⟩,
      fun hq hP => ⟨L.alive_free hq hP.1, fun v b => (L.has_free hq).trans (hP.2 v b)⟩⟩
  obtain ⟨halive, hhas⟩ := hkept.memStep ⟨hmem.alive, fun _ _ => Iff.rfl⟩ hne.symm
    (fun q hq => absurd hq (hfree q)) hop hstep
  refine ⟨h.reach.step hok hstep, hpid',
    (hfollows.slot_of_loading hmatch h.allocated hpid' i).trans h.slot,
    hfollows'.sim.inv, hfollows'.loading_hidden hpid', halive, fun w => ?_, fun w hw => ?_,
    fun b byte hb hbyte => ?_⟩
  · rw [← hmem.pages w]
    exact exists_congr fun b => hhas w b
  · exact (hhas w base).2 (hmem.last w hw)
  · rw [hmatch.keeps.view p (memoriesAfter_seen hne hfree hop) b (not_inArea_of_lt hb),
      memoriesAfter_view_of_ne a hhidden.symm]
    exact hmem.agrees b byte hb hbyte

/-- `GPID_PROCESS` builds up the memory of the process it is loading. -/
theorem reach_perform {s' : σ} (hcurr : x.kernel.currPid = gpidProcess)
    (halloc : x.allocated = some p) (h : Reach A.perform (M.Builds p) x.kernel.memory s') :
    Reach (memStep A) (MemOk M) x { x with kernel := { x.kernel with memory := s' } } := by
  induction h with
  | init => exact .init
  | @step s₁ s₂ op _ hbuilds hop ih =>
    obtain ⟨hok, rfl⟩ := hbuilds
    refine ih.step (a := .perform op) hok ?_
    rw [memStep, if_pos ⟨hcurr, halloc⟩, hop]
    rfl

/-- An operation of the loader. -/
theorem Drafting.run {op : LoadOp} {mmu : Mmu} (h : Drafting L s hart p i d base x)
    (hcurr : x.kernel.currPid = gpidProcess) (hd : d.step op = some d')
    (hrun : op.run t p base (L.mmu x.kernel.memory) = .ok base' mmu) :
    Drafting L s hart p i d' base' { x with kernel := { x.kernel with
      memory := L.after x.kernel.memory p base' mmu op } } := by
  have hdone := h.memory.run hd hrun
  exact ⟨h.reach.trans (reach_perform hcurr h.allocated hdone.reach), h.allocated, h.slot,
    hdone.realises⟩

/-! ## `proc_set_ready` -/

/-- The start of a program in process `p`, which `GPID_PROCESS` is loading in state `x` and sets
ready in state `ready`. When the process runs, it is at its entry and has the program. -/
structure Started (M : PrivateMemories A) (x : MemMachine σ) (p : ℤ) (program : Memory → Prop)
    (ready : MemMachine σ) : Prop where
  reach : Reach (memStep A) (MemOk M) x ready
  status : ∃ i, (ready.kernel.procSet i).pid = p ∧ (ready.kernel.procSet i).status = .ready
  entry : ∀ x', Reach (memStep A) (fun y b => MemOk M y b ∧ y.kernel.currPid ≠ p) ready x' →
    x'.kernel.currPid = p → AtEntry x'.kernel.hart ∧ program (M.view x'.kernel.memory p)

/-- What is known of the program may be weakened. -/
theorem Started.mono {program program' : Memory → Prop} {ready : MemMachine σ}
    (h : Started M x p program ready) (himp : ∀ mem, program mem → program' mem) :
    Started M x p program' ready := by
  refine ⟨h.reach, h.status, fun x' hrun hback => ?_⟩
  obtain ⟨hentry, hprogram⟩ := h.entry x' hrun hback
  exact ⟨hentry, himp _ hprogram⟩

/-- A process with a program has a system-call area. -/
theorem hasArea_of_hasProgram {image : ℕ → UInt8} {ph : ProgramHeader} {argc : ℕ}
    {argv : Option (ℕ → UInt8)} (h : PageLoader.HasProgram M p image ph argc argv s) :
    HasArea M s p := by
  intro j hj
  apply h.mapped
  rw [area_page hj]
  exact Or.inr (Or.inl (by decide))

/-- A process that has its program is set ready. -/
theorem started_of_setReady {x₁ : MemMachine σ} {image : ℕ → UInt8} {ph : ProgramHeader} {argc : ℕ}
    {argv : Option (ℕ → UInt8)} (hb : BootsOn M s)
    (hreach : Reach (memStep A) (MemOk M) (bootMem s hart) x)
    (hfrom : Reach (memStep A) (MemOk M) x₁ x) (hcurr : x.kernel.currPid = gpidProcess)
    (hpid : x.allocated = some p) (hslot : (x.kernel.procSet i).pid = p)
    (hhas : PageLoader.HasProgram M p image ph argc argv x.kernel.memory)
    (hsize : ph.pFilesz ≤ appsArg - appsEntry) (hargc : argc ≤ cmdNargs) :
    ∃ ready, memStep A x (.setReady p) = some ready ∧ ready.kernel.memory = x.kernel.memory ∧
      Started M x₁ p (HoldsProgram image ph argc argv) ready := by
  have hok : MemOk M x (.setReady p) := hasArea_of_hasProgram hhas
  have hready : memStep A x (.setReady p) = some ⟨x.kernel.procSetReady p, none⟩ :=
    if_pos ⟨hcurr, hpid⟩
  refine ⟨_, hready, rfl, hfrom.step hok hready, ⟨i, ?_, ?_⟩, fun x' hrun hback => ?_⟩
  · exact (congrArg Process.pid (if_pos hslot)).trans hslot
  · exact congrArg Process.status (if_pos hslot)
  · have hentered := enteredWith_of_run hb hreach hok hready hrun hback
    refine ⟨hentered.entry, hhas.program.congr hsize hargc fun a _ ha => ?_⟩
    exact hentered.memory a (not_inArea_of_lt ha)

/-! ## `elf_load` at one go -/

/-- The readers of system processes give a block at once, so that `elf_load` is not interrupted. -/
theorem started_of_elfLoad {x₁ : MemMachine σ} {reader : Reader} {ph : ProgramHeader} {argc : ℕ}
    (argv : Option (ℕ → UInt8)) (hb : BootsOn M s)
    (hnew : ∀ q, gpidProcess < q → L.Untouched s q)
    (hreach : Reach (memStep A) (MemOk M) (bootMem s hart) x)
    (halloc : memStep A x .alloc = some x₁) (hpid : x₁.allocated = some p)
    (himage : AppImage reader ph) (hsize : ph.pFilesz ≤ appsArg - appsEntry)
    (hargc : argc ≤ cmdNargs) :
    wp (elfLoad t p reader argc argv)
      (fun _ m' => ∃ x₂, L.mmu x₂.kernel.memory = m' ∧
        (∀ q, q ≠ p → M.view x₂.kernel.memory q = M.view x₁.kernel.memory q) ∧
        Started M x₁ p (HoldsProgram (segmentByte reader ph) ph argc argv) x₂)
      (fun _ _ => Stops t p (L.mmu x₁.kernel.memory) (codePages ph + 2))
      (L.mmu x₁.kernel.memory) := by
  obtain ⟨hcurr, hnone, i, h⟩ := drafting_of_alloc hb hnew hreach halloc hpid
  refine wp_mono (PageLoader.elfLoad_loaded (L := L) argv himage hsize hargc h.memory.inv
    h.memory.hidden hnone) ?_ fun _ _ h => h
  rintro _ _ ⟨s', rfl, hloaded⟩
  have hbuild := reach_perform hcurr hpid hloaded.reach
  obtain ⟨ready, -, hmem, hstarted⟩ := started_of_setReady (i := i) hb (h.reach.trans hbuild) hbuild
    hcurr hpid h.slot hloaded.has hsize hargc
  exact ⟨ready, congrArg L.mmu hmem, fun q hq => hmem ▸ hloaded.built.view hq, hstarted⟩

/-! ## `elf_load` while others run -/

/-- The machine while `GPID_PROCESS` is in `elf_load`: the operations to do, and where the last page
is. -/
structure LoadState (σ : Type) where
  todo : List LoadOp
  base : ℕ
  machine : MemMachine σ

/-- A step is one of the machine, or the next operation of the loader. -/
def loadStep (L : PageLoader t M) (p : ℤ) (y : LoadState σ) :
    Option (MemAction Op) → Option (LoadState σ)
  | some a => (memStep A y.machine a).map fun x => { y with machine := x }
  | none =>
    match y.todo with
    | [] => none
    | op :: ops =>
      if y.machine.kernel.currPid = gpidProcess then
        match op.run t p y.base (L.mmu y.machine.kernel.memory) with
        | .ok base mmu => some ⟨ops, base, { y.machine with kernel := { y.machine.kernel with
            memory := L.after y.machine.kernel.memory p base mmu op } }⟩
        | .error _ _ => none
      else none

/-- In `elf_load`, `GPID_PROCESS` does nothing else to the process, and does not set it ready. -/
def LoadOk (M : PrivateMemories A) (y : LoadState σ) : Option (MemAction Op) → Prop
  | some a => MemOk M y.machine a ∧ (∀ op, a ≠ .perform op) ∧ ∀ q, a ≠ .setReady q
  | none => True

/-- The operations that have been done are in the draft, and the draft takes those that have not. -/
theorem drafting_of_loadStep {ops : List LoadOp} {x₁ : MemMachine σ} {y : LoadState σ}
    (h₁ : Drafting L s hart p i .empty 0 x₁) (hb : BootsOn M s)
    (hops : runActions Draft.step .empty ops = some d)
    (h : Reach (loadStep L p) (LoadOk M) ⟨ops, 0, x₁⟩ y) :
    Reach (memStep A) (MemOk M) x₁ y.machine ∧ ∃ d', runActions Draft.step d' y.todo = some d ∧
      Drafting L s hart p i d' y.base y.machine := by
  apply h.invariant (P := fun y => Reach (memStep A) (MemOk M) x₁ y.machine ∧
    ∃ d', runActions Draft.step d' y.todo = some d ∧ Drafting L s hart p i d' y.base y.machine)
  · exact ⟨.init, .empty, hops, h₁⟩
  · rintro y (_ | a) y' ⟨hfrom, d', htodo, hd'⟩ hok hstep
    · rw [loadStep] at hstep
      split at hstep
      · cases hstep
      · rename_i op ops' htodo'
        split at hstep
        · rename_i hcurr
          split at hstep
          · rename_i base' mmu hrun
            cases hstep
            rw [htodo'] at htodo
            obtain ⟨d₂, hd₂, hrest⟩ := Option.bind_eq_some_iff.1 htodo
            have hdone := hd'.memory.run hd₂ hrun
            exact ⟨hfrom.trans (reach_perform hcurr hd'.allocated hdone.reach), d₂, hrest,
              hd'.run hcurr hd₂ hrun⟩
          · cases hstep
        · cases hstep
    · obtain ⟨x', hx', rfl⟩ := Option.map_eq_some_iff.1 hstep
      obtain ⟨hok, hop, hready⟩ := hok
      exact ⟨hfrom.step hok hx', d', htodo, hd'.other hb hok hop hready hx'⟩

/-- `proc_alloc`, the operations of `elf_load` with anything in between, and `proc_set_ready` start
a program. -/
theorem started_of_loadStep {x₁ x₂ : MemMachine σ} {reader : Reader} {ph : ProgramHeader} {argc : ℕ}
    {argv : Option (ℕ → UInt8)} (hb : BootsOn M s)
    (hnew : ∀ q, gpidProcess < q → L.Untouched s q)
    (hreach : Reach (memStep A) (MemOk M) (bootMem s hart) x)
    (halloc : memStep A x .alloc = some x₁) (hpid : x₁.allocated = some p)
    (hsize : ph.pFilesz ≤ appsArg - appsEntry) (hargc : argc ≤ cmdNargs)
    (hload : Reach (loadStep L p) (LoadOk M) ⟨appOps reader argc argv ph, 0, x₁⟩ ⟨[], base, x₂⟩)
    (hcurr : x₂.kernel.currPid = gpidProcess) :
    ∃ ready, memStep A x₂ (.setReady p) = some ready ∧
      Started M x₁ p (HoldsProgram (segmentByte reader ph) ph argc argv) ready := by
  obtain ⟨-, -, i, h⟩ := drafting_of_alloc hb hnew hreach halloc hpid
  obtain ⟨d, hops, hpages, hprogram⟩ := yields_appOps reader argv hsize hargc
  obtain ⟨hfrom, d', hnil, h₂⟩ := drafting_of_loadStep h hb hops hload
  cases hnil
  obtain ⟨ready, hready, -, hstarted⟩ := started_of_setReady hb h₂.reach hfrom hcurr h₂.allocated
    h₂.slot (h₂.memory.hasProgram hpages hprogram) hsize hargc
  exact ⟨ready, hready, hstarted⟩

/-- A loader that is not interrupted does its operations. -/
theorem reach_loadStep_of_runOps {ops : List LoadOp} {mmu : Mmu}
    (hcurr : x.kernel.currPid = gpidProcess)
    (hrun : runOps t p base ops (L.mmu x.kernel.memory) = .ok base' mmu) :
    ∃ x₂, Reach (loadStep L p) (LoadOk M) ⟨ops, base, x⟩ ⟨[], base', x₂⟩ ∧
      x₂.kernel.currPid = gpidProcess := by
  induction ops generalizing x base with
  | nil =>
    cases hrun
    exact ⟨x, .init, hcurr⟩
  | cons op ops ih =>
    rw [runOps_cons] at hrun
    simp only [bind, EStateM.bind] at hrun
    cases hop : op.run t p base (L.mmu x.kernel.memory) with
    | error e m =>
      rw [hop] at hrun
      cases hrun
    | ok base₁ m₁ =>
      rw [hop] at hrun
      have hmmu : L.mmu (L.after x.kernel.memory p base₁ m₁ op) = m₁ := PageLoader.mmu_after op
      have hstep : loadStep L p ⟨op :: ops, base, x⟩ none = some ⟨ops, base₁, { x with
          kernel := { x.kernel with memory := L.after x.kernel.memory p base₁ m₁ op } }⟩ := by
        rw [loadStep]
        dsimp only
        rw [if_pos hcurr, hop]
      have hrest : runOps t p base₁ ops (L.mmu (L.after x.kernel.memory p base₁ m₁ op))
          = .ok base' mmu := by
        rw [hmmu]
        exact hrun
      obtain ⟨x₂, hreach, hcurr₂⟩ := @ih { x with
        kernel := { x.kernel with memory := L.after x.kernel.memory p base₁ m₁ op } } base₁ hcurr
        hrest
      exact ⟨x₂, (Reach.init.step (a := none) trivial hstep).trans hreach, hcurr₂⟩

/-- With enough frames, the operations of `elf_load` can all be done. -/
theorem loadStep_completes {x₁ : MemMachine σ} {reader : Reader} {ph : ProgramHeader} {argc : ℕ}
    (argv : Option (ℕ → UInt8)) (hb : BootsOn M s)
    (hnew : ∀ q, gpidProcess < q → L.Untouched s q)
    (hreach : Reach (memStep A) (MemOk M) (bootMem s hart) x)
    (halloc : memStep A x .alloc = some x₁) (hpid : x₁.allocated = some p)
    (himage : AppImage reader ph) (hsize : ph.pFilesz ≤ appsArg - appsEntry)
    (hargc : argc ≤ cmdNargs) (henough : ¬ Stops t p (L.mmu x₁.kernel.memory) (codePages ph + 2)) :
    ∃ base x₂, Reach (loadStep L p) (LoadOk M) ⟨appOps reader argc argv ph, 0, x₁⟩ ⟨[], base, x₂⟩ ∧
      x₂.kernel.currPid = gpidProcess := by
  obtain ⟨hcurr, -⟩ := drafting_of_alloc hb hnew hreach halloc hpid
  have hload := started_of_elfLoad (L := L) argv hb hnew hreach halloc hpid himage hsize hargc
  obtain ⟨⟨⟩, mmu, hrun, -⟩ :=
    wp_returns (wp_mono hload (fun _ _ h => h) fun _ _ h => henough h)
  rw [elfLoad_eq_runOps argv himage] at hrun
  simp only [bind, EStateM.bind] at hrun
  cases hops : runOps t p 0 (appOps reader argc argv ph) (L.mmu x₁.kernel.memory) with
  | error e m =>
    rw [hops] at hrun
    cases hrun
  | ok base m => exact ⟨base, reach_loadStep_of_runOps hcurr hops⟩

end Egos.Grass
