import Egos.Common.AddressSpaces
import Egos.Earth.Isolation
import Egos.Library.Loading

/-!
# Page tables as a memory system

Loads and stores go where the tables that `satp` points to say. This is so for user code, and for
the kernel too when it reaches into the memory of a process: `trap_entry_vm` sets `mstatus.MPRV`,
and `main` of `earth.c` has set `mstatus.SUM`. The memory of a process is what is in the frames
given to its pages, which the walk of the hardware finds as long as `satp` is that of the process.
-/

namespace Egos.Earth

open Function (update update_self update_of_ne)

/-! ## The register `satp` -/

/-- Code that leaves `satp` alone, and the process that was switched in last. -/
def KeepsSatp (s s' : Mmu) : Prop := s'.satp = s.satp ∧ s'.pageTablePid = s.pageTablePid

instance : IsPreorder Mmu KeepsSatp where
  refl _ := ⟨rfl, rfl⟩
  trans _ _ _ h h' := ⟨h'.1.trans h.1, h'.2.trans h.2⟩

/-- `mmu_alloc` leaves `satp`. -/
theorem keepsSatp_mmuAlloc : Moves KeepsSatp mmuAlloc :=
  ⟨fun _ => mmuAlloc_spec (fun _ _ => ⟨rfl, rfl⟩) fun _ => trivial⟩

/-- A new page table leaves `satp`. -/
theorem keepsSatp_allocPageTable (pid : ℤ) : Moves KeepsSatp (allocPageTable pid) :=
  Moves.bind keepsSatp_mmuAlloc fun _ => Moves.bind (Moves.modify fun _ => ⟨rfl, rfl⟩) fun _ =>
    Moves.bind (Moves.modify fun _ => ⟨rfl, rfl⟩) fun _ => Moves.pure _

/-- So does a new root. -/
theorem keepsSatp_rootPageTable (pid : ℤ) : Moves KeepsSatp (rootPageTable pid) := by
  refine Moves.get_bind fun s => ?_
  split
  · refine Moves.wp ?_ s
    exact Moves.bind (keepsSatp_allocPageTable pid) fun _ =>
      Moves.bind (Moves.modify fun _ => ⟨rfl, rfl⟩) fun _ => Moves.pure _
  · exact refl_of KeepsSatp s

/-- So does the step to the next page table. -/
theorem keepsSatp_nextPageTable (pid : ℤ) (addr : ℕ) :
    Moves KeepsSatp (nextPageTable pid addr) := by
  refine Moves.get_bind fun s => ?_
  split
  · exact refl_of KeepsSatp s
  · refine Moves.wp ?_ s
    exact Moves.bind (keepsSatp_allocPageTable pid) fun _ =>
      Moves.bind (Moves.modify fun _ => ⟨rfl, rfl⟩) fun _ => Moves.pure _

/-- So does a walk. -/
theorem keepsSatp_walkPageTables (pid : ℤ) (addr : ℕ) :
    Moves KeepsSatp (walkPageTables pid addr) := by
  unfold walkPageTables
  split
  · exact Moves.throw _
  · exact Moves.bind (keepsSatp_rootPageTable pid) fun _ =>
      Moves.bind (keepsSatp_nextPageTable pid _) fun _ => keepsSatp_nextPageTable pid _

/-- So do the entries of an identity mapping. -/
theorem keepsSatp_identityEntries (leafPt vpn0 addr flag : ℕ) : ∀ n i : ℕ,
    Moves KeepsSatp (identityEntries leafPt vpn0 addr flag n i)
  | 0, _ => Moves.pure _
  | n + 1, i => by
    unfold identityEntries
    split
    · exact Moves.throw _
    · exact Moves.bind (Moves.modify fun _ => ⟨rfl, rfl⟩) fun _ =>
        keepsSatp_identityEntries leafPt vpn0 addr flag n (i + 1)

/-- So do the identity mappings of some regions. -/
theorem keepsSatp_setupRegions (pid : ℤ) (regions : List (ℕ × ℕ)) :
    Moves KeepsSatp (setupRegions pid regions) := by
  induction regions with
  | nil => exact Moves.pure _
  | cons r regions ih =>
    refine Moves.bind (Moves.bind (keepsSatp_walkPageTables pid r.1) fun _ => ?_) fun _ => ih
    exact keepsSatp_identityEntries ..

/-- So does the identity mapping of a process. -/
theorem keepsSatp_pagetableIdentityMapping (pid : ℤ) :
    Moves KeepsSatp (pagetableIdentityMapping pid) := by
  rw [pagetableIdentityMapping_eq]
  exact keepsSatp_setupRegions pid _

/-- `page_table_map` leaves `satp`, and the process that was switched in last. -/
theorem keepsSatp_pageTableMap (pid : ℤ) (pageNo : ℕ) (i : Fin nframes) :
    Moves KeepsSatp (pageTableMap pid pageNo i) := by
  have hensure : Moves KeepsSatp (ensureIdentityMapping pid) := by
    refine Moves.get_bind fun s => ?_
    split
    · exact (keepsSatp_pagetableIdentityMapping pid).wp s
    · exact refl_of KeepsSatp s
  unfold pageTableMap
  split
  · exact Moves.throw _
  · exact Moves.bind hensure fun _ => Moves.bind (keepsSatp_walkPageTables pid _) fun _ =>
      Moves.modify fun _ => ⟨rfl, rfl⟩

/-- So does the loading of a page. -/
theorem keepsSatp_loadPage (pid : ℤ) (pageNo : ℕ) : Moves KeepsSatp (loadPage pid pageNo) :=
  Moves.bind keepsSatp_mmuAlloc fun r =>
    Moves.bind (keepsSatp_pageTableMap pid pageNo r.1) fun _ => Moves.pure _

/-! ## The memory system -/

/-- What the loader does to the memory of a process: map a page, and write to its frame. -/
inductive TableOp
  | load (pid : ℤ) (pageNo : ℕ)
  | fill (pid : ℤ) (pageNo off : ℕ) (byte : UInt8)

/-- The process whose memory is built up. -/
def TableOp.pid : TableOp → ℤ
  | load pid _ => pid
  | fill pid _ _ _ => pid

/-- The operation on the address spaces. -/
def TableOp.spaceOp : TableOp → SpaceOp
  | load pid pageNo => .load pid pageNo
  | fill pid pageNo off byte => .fill pid pageNo off byte

/-- Where an access to a user page goes; without paging, to the address itself. -/
def Mmu.target (s : Mmu) (va : ℕ) : Option ℕ :=
  if s.satp / 2 ^ 60 = 8 then
    match Sv39.translate s.mem (s.satp % 2 ^ 44 * 2 ^ 12) va with
    | some ⟨pa, true⟩ => some (pa + va % 2 ^ 12)
    | _ => none
  else some va

/-- Memory with page tables. An access that faults does nothing here. -/
def pageTableSpaces : AddressSpaces Spaces ℤ TableOp where
  curr m := m.mmu.pageTablePid
  switch pid m := { m with mmu := pageTableSwitch pid m.mmu }
  load m va :=
    match m.mmu.target va with
    | some pa => m.mmu.mem pa
    | none => 0
  store m va byte :=
    match m.mmu.target va with
    | some pa => { m with mmu := m.mmu.store pa byte }
    | none => m
  free pid m := { m with
    mmu := mmuFree pid m.mmu
    freed := fun q => m.freed q || (q == pid && m.mmu.pidToPagetableBase q != 0) }
  owner := TableOp.pid
  perform m op := spaceStep m op.spaceOp

/-- The memory of a process: what is in the frames of its pages. -/
def Spaces.view (m : Spaces) (p : ℤ) : Memory := fun a =>
  match m.given p (a / pageSize) with
  | some f => m.mmu.mem (pagingRead f + a % pageSize)
  | none => 0

/-- `satp` is that of the process that was switched in last. -/
structure TablesInUse (m : Spaces) : Prop where
  spaces : ∃ g, SpacesOk m g
  satp : m.mmu.pidToPagetableBase m.mmu.pageTablePid ≠ 0 →
    m.mmu.satp = makeSatp (m.mmu.pidToPagetableBase m.mmu.pageTablePid)

/-- A process maps a page, and has not been freed. -/
def Spaces.Maps (m : Spaces) (p : ℤ) (a : ℕ) : Prop :=
  m.freed p = false ∧ ∃ f, m.given p (a / 4096) = some f

variable {m m' : Spaces} {g : Ghost} {p q : ℤ} {a : ℕ} {f : Fin nframes}

/-- A byte of the memory of a process, in the frame of its page. -/
theorem Spaces.view_apply (hf : m.given p (a / 4096) = some f) :
    m.view p a = m.mmu.mem (pagingRead f + a % 4096) := by
  have hf' : m.given p (a / pageSize) = some f := hf
  rw [Spaces.view, hf']

/-- A process keeps a byte if it keeps the frame and what is in it. -/
theorem Spaces.view_congr_at (hgiven : m'.given p (a / 4096) = m.given p (a / 4096))
    (hmem : ∀ f off, m.given p (a / 4096) = some f → off < 4096 →
      m'.mmu.mem (pagingRead f + off) = m.mmu.mem (pagingRead f + off)) :
    m'.view p a = m.view p a := by
  have hgiven : m'.given p (a / pageSize) = m.given p (a / pageSize) := hgiven
  rw [Spaces.view, Spaces.view, hgiven]
  cases hf : m.given p (a / pageSize) with
  | none => rfl
  | some f => exact hmem f _ hf (Nat.mod_lt _ (by decide))

/-- A process keeps its memory if it keeps its frames and what is in them. -/
theorem Spaces.view_congr (hgiven : ∀ v, m'.given p v = m.given p v)
    (hmem : ∀ v f off, m.given p v = some f → off < 4096 →
      m'.mmu.mem (pagingRead f + off) = m.mmu.mem (pagingRead f + off)) :
    m'.view p = m.view p :=
  funext fun _ => Spaces.view_congr_at (hgiven _) (hmem _)

/-! ## Accesses -/

/-- The walk of the hardware for an address within a page. -/
theorem SpacesOk.translate_byte (h : SpacesOk m g) (hp : m.freed p = false)
    (hf : m.given p (a / 4096) = some f) :
    Sv39.translate m.mmu.mem (m.mmu.pidToPagetableBase p) a = some ⟨pagingRead f, true⟩ := by
  have hpage := (h.page p _ f hf).1
  have hbase := h.base p _ f hf
  obtain ⟨i, hi⟩ := h.tables.root p (fun hd => by simp [(h.dead p).1 hd] at hp) hbase
  have hcanon : Sv39.Canonical a := by
    have hc : a / 4096 * 4096 / 2 ^ 38 = 0 ∨ a / 4096 * 4096 / 2 ^ 38 = 2 ^ 26 - 1 := hpage.2
    have hdiv : a / 4096 * 4096 / 2 ^ 38 = a / 2 ^ 38 := by omega
    rw [hdiv] at hc
    exact hc
  have hva : a / 2 ^ 12 % 2 ^ 27 = a / 4096 % 2 ^ 27 := by norm_num
  rw [Sv39.translate, if_pos hcanon, h.tables.base i p hi, h.tables.walk hi, hva,
    h.maps p _ hp hbase (Nat.mod_lt _ (by decide)), Spaces.page, hpage.canonicalPage_mod, hf,
    pagingRead_ppn]
  rfl

/-- The process that is switched in reaches the frames of its pages. -/
theorem TablesInUse.target_eq (h : TablesInUse m) (hmaps : m.freed m.mmu.pageTablePid = false)
    (hf : m.given m.mmu.pageTablePid (a / 4096) = some f) :
    m.mmu.target a = some (pagingRead f + a % 4096) := by
  obtain ⟨g, hg⟩ := h.spaces
  have hbase := hg.base _ _ f hf
  obtain ⟨i, hi⟩ := hg.tables.root _ (fun hd => by simp [(hg.dead _).1 hd] at hmaps) hbase
  have hroot := hg.tables.base i _ hi
  have hppn := framePpn_lt i
  have hsatp : m.mmu.satp = 8 * 2 ^ 60 + framePpn i := by
    rw [h.satp hbase, hroot, pagingRead_ppn, makeSatp_eq hppn]
  have hmode : (8 * 2 ^ 60 + framePpn i) / 2 ^ 60 = 8 := by omega
  have htable : (8 * 2 ^ 60 + framePpn i) % 2 ^ 44 * 2 ^ 12
      = m.mmu.pidToPagetableBase m.mmu.pageTablePid := by
    rw [hroot, pagingRead_ppn]
    omega
  have hoff : a % 2 ^ 12 = a % 4096 := by norm_num
  simp only [Mmu.target, hsatp, hmode, htable, hg.translate_byte hmaps hf, hoff, if_true]

/-- A store to a page of the process that is switched in. -/
theorem TablesInUse.store_eq (h : TablesInUse m) (hmaps : m.freed m.mmu.pageTablePid = false)
    (hf : m.given m.mmu.pageTablePid (a / 4096) = some f) (byte : UInt8) :
    pageTableSpaces.store m a byte
      = { m with mmu := m.mmu.store (pagingRead f + a % 4096) byte } := by
  simp only [pageTableSpaces, h.target_eq hmaps hf]

/-- A store to a page of a process keeps the invariant. -/
theorem TablesInUse.store (h : TablesInUse m)
    (hf : m.given p (a / 4096) = some f) (byte : UInt8) :
    TablesInUse { m with mmu := m.mmu.store (pagingRead f + a % 4096) byte } := by
  obtain ⟨g, hg⟩ := h.spaces
  exact ⟨⟨g, hg.fill hf (Nat.mod_lt _ (by decide)) byte⟩, h.satp⟩

/-- A store changes one byte of one process. -/
theorem Spaces.view_store (hg : SpacesOk m g) (hf : m.given p (a / 4096) = some f)
    (byte : UInt8) :
    Spaces.view { m with mmu := m.mmu.store (pagingRead f + a % 4096) byte }
      = update m.view p (update (m.view p) a byte) := by
  have hlt : a % 4096 < 4096 := Nat.mod_lt _ (by decide)
  have hview : ∀ q x f', m.given q (x / 4096) = some f' →
      Spaces.view { m with mmu := m.mmu.store (pagingRead f + a % 4096) byte } q x
        = update m.mmu.mem (pagingRead f + a % 4096) byte (pagingRead f' + x % 4096) := by
    intro q x f' hx
    rw [← Mmu.store_apply]
    exact Spaces.view_apply hx
  funext q
  by_cases hq : q = p
  · subst hq
    rw [update_self]
    funext x
    by_cases hxa : x = a
    · rw [hxa, update_self, hview q a f hf, update_self]
    · rw [update_of_ne hxa]
      cases hx : m.given q (x / 4096) with
      | none =>
        have hx' : m.given q (x / pageSize) = none := hx
        simp only [Spaces.view, hx']
      | some f' =>
        -- other bytes are in another frame, or elsewhere in the same page
        have hne : pagingRead f' + x % 4096 ≠ pagingRead f + a % 4096 := by
          intro he
          have hlt' : x % 4096 < 4096 := Nat.mod_lt _ (by decide)
          by_cases hff : f' = f
          · subst hff
            have hpage := (hg.inj q _ q _ f' hx hf).2
            exact hxa (by omega)
          · have hd := pagingRead_disjoint hff
            omega
        rw [hview q x f' hx, update_of_ne hne, Spaces.view_apply hx]
  · rw [update_of_ne hq]
    refine Spaces.view_congr (fun _ => rfl) fun v f' off hf' hoff => ?_
    have hff : f' ≠ f := fun he => hq (hg.inj q v p _ f (he ▸ hf') hf).1
    have hd := pagingRead_disjoint hff
    have hne : pagingRead f' + off ≠ pagingRead f + a % 4096 := by omega
    rw [Mmu.store_apply, update_of_ne hne]

/-! ## Switching, freeing and loading -/

/-- The invariant does not depend on which process is switched in. -/
theorem SpacesOk.switch (h : SpacesOk m g) (pid : ℤ) :
    SpacesOk { m with mmu := pageTableSwitch pid m.mmu } g := by
  unfold pageTableSwitch
  split
  · exact h
  · have ht := h.tables
    exact ⟨⟨ht.frame, ht.unique, ht.base, ht.root, ht.parent, ht.entry, ht.mapped, ht.bound⟩,
      h.dead, h.kernel, h.data, h.inj, h.page, h.base, h.maps⟩

/-- Writes outside the frames do not concern the page tables. -/
theorem SpacesOk.withMem_outside (h : SpacesOk m g) {mem : Memory}
    (hmem : ∀ i a, InFrame i a → mem a = m.mmu.mem a) :
    SpacesOk { m with mmu := { m.mmu with mem := mem } } g :=
  ⟨h.tables.withMem_outside fun i _ _ a _ ha => hmem i a ha, h.dead, h.kernel, h.data, h.inj,
    h.page, h.base, h.maps⟩

/-- `page_table_switch` keeps the invariant. -/
theorem TablesInUse.switch (h : TablesInUse m) (pid : ℤ) :
    TablesInUse { m with mmu := pageTableSwitch pid m.mmu } := by
  obtain ⟨g, hg⟩ := h.spaces
  refine ⟨⟨g, hg.switch pid⟩, ?_⟩
  unfold pageTableSwitch
  split
  · exact h.satp
  · exact fun _ => rfl

/-- `page_table_switch` notes the process. -/
theorem pageTableSwitch_pageTablePid (pid : ℤ) (s : Mmu) :
    (pageTableSwitch pid s).pageTablePid = pid := by
  unfold pageTableSwitch
  split
  · exact Eq.symm ‹_›
  · rfl

/-- `page_table_switch` does not write to memory. -/
theorem pageTableSwitch_mem (pid : ℤ) (s : Mmu) : (pageTableSwitch pid s).mem = s.mem := by
  unfold pageTableSwitch
  split <;> rfl

/-- Loading a page writes to page tables of its process and to nothing else. -/
theorem loadPage_grows {s : Mmu} (h : PageTables g s) (hp : ¬ g.dead p) {v : ℕ}
    (hv : v < 2 ^ 52) :
    wp (loadPage p v) (fun f s' => g.kind f = .free ∧ ∃ kind',
      Grows p (mapNodes (s.setFrame f fun e => { e with use := true }) p v)
        (update g.kind f .data) (s.setFrame f fun e => { e with use := true }) kind' s')
      (fun _ _ => True) s := by
  unfold loadPage
  rw [wp_bind]
  refine mmuAlloc_spec (fun f hf => ?_) fun _ => trivial
  refine wp_call (pageTableMap_spec (h.allocData hf) hp hv f)
    (fun _ _ _ => trivial) fun _ s' hs' => ?_
  obtain ⟨-, kind', hgrow, -, -⟩ := hs'
  exact ⟨h.kind_free hf, kind', hgrow⟩

/-- Data pages keep their contents when a page is loaded. -/
theorem loadPage_mem {s s' : Mmu} (h : PageTables g s) (hp : ¬ g.dead p) {v : ℕ}
    (hv : v < 2 ^ 52) {f j : Fin nframes} (hrun : loadPage p v s = .ok f s')
    (hj : g.kind j = .data) {off : ℕ} (hoff : off < 4096) :
    s'.mem (pagingRead j + off) = s.mem (pagingRead j + off) := by
  obtain ⟨hfree, kind', hgrow⟩ := wp_ok (loadPage_grows h hp hv) hrun
  have hjf : j ≠ f := fun he => by
    rw [he, hfree] at hj
    cases hj
  have hkind : kind' j = .data := by
    have hold : update g.kind f .data j = .data := (update_of_ne hjf _ _).trans hj
    rw [hgrow.kind j (by rw [hold]; simp), hold]
  refine hgrow.mem _ fun i n hi hin => ?_
  have hij := hin.unique (inFrame_add j hoff)
  rw [hij, hkind] at hi
  cases hi

/-- Loading a page leaves the roots of other processes. -/
theorem loadPage_bases {s s' : Mmu} (h : PageTables g s) (hp : ¬ g.dead p) {v : ℕ}
    (hv : v < 2 ^ 52) {f : Fin nframes} (hrun : loadPage p v s = .ok f s') :
    ∀ q, q ≠ p → s'.pidToPagetableBase q = s.pidToPagetableBase q := by
  obtain ⟨-, kind', hgrow⟩ := wp_ok (loadPage_grows h hp hv) hrun
  exact fun q hq => hgrow.bases q hq

/-- A load or a write of the loader, taken apart. -/
theorem spaceStep_cases {op : TableOp} (hstep : spaceStep m op.spaceOp = some m') :
    (∃ pid v f s', op = .load pid v ∧ loadPage pid v m.mmu = .ok f s' ∧ m' = { m with
      mmu := s'
      given := fun q w => if q = pid ∧ w = v then some f else m.given q w }) ∨
    ∃ pid v off byte f, op = .fill pid v off byte ∧ m.given pid v = some f ∧
      m' = { m with mmu := m.mmu.store (pagingRead f + off) byte } := by
  cases op with
  | load pid v =>
    simp only [TableOp.spaceOp, spaceStep] at hstep
    split at hstep
    · rename_i f s' hrun
      cases hstep
      exact Or.inl ⟨pid, v, f, s', rfl, hrun, rfl⟩
    · cases hstep
  | fill pid v off byte =>
    obtain ⟨f, hf, rfl⟩ := Option.map_eq_some_iff.1 hstep
    exact Or.inr ⟨pid, v, off, byte, f, rfl, hf, rfl⟩

/-- A process that has not been freed is not dead. -/
theorem SpacesOk.not_dead (h : SpacesOk m g) (hp : m.freed p = false) : ¬ g.dead p := fun hd => by
  rw [h.dead, hp] at hd
  cases hd

/-- Building up the memory of another process keeps the invariant. -/
theorem TablesInUse.perform {op : TableOp} (h : TablesInUse m) (hok : SpaceOk m op.spaceOp)
    (hcurr : op.pid ≠ m.mmu.pageTablePid) (hstep : spaceStep m op.spaceOp = some m') :
    TablesInUse m' ∧ m'.mmu.pageTablePid = m.mmu.pageTablePid := by
  obtain ⟨g, hg⟩ := h.spaces
  have hspaces := hg.step hok hstep
  rcases spaceStep_cases hstep with ⟨pid, v, f, s', rfl, hrun, rfl⟩ |
    ⟨pid, v, off, byte, f, rfl, hf, rfl⟩
  · obtain ⟨hsatp, hpid⟩ := (keepsSatp_loadPage pid v).ok hrun
    have hbase := loadPage_bases hg.tables (hg.not_dead hok.2.1) hok.2.2.1.1 hrun _
      (Ne.symm hcurr)
    refine ⟨⟨hspaces, fun hne => ?_⟩, hpid⟩
    change s'.pidToPagetableBase s'.pageTablePid ≠ 0 at hne
    change s'.satp = makeSatp (s'.pidToPagetableBase s'.pageTablePid)
    rw [hpid, hbase] at hne ⊢
    rw [hsatp]
    exact h.satp hne
  · exact ⟨⟨hspaces, h.satp⟩, rfl⟩

/-- Loading a page does not concern other pages. -/
theorem Spaces.view_load {v : ℕ} {s' : Mmu} (hg : SpacesOk m g) (hp : m.freed p = false)
    (hv : v < 2 ^ 52) (hrun : loadPage p v m.mmu = .ok f s') (hq : q ≠ p ∨ a / 4096 ≠ v) :
    Spaces.view { m with
      mmu := s'
      given := fun q w => if q = p ∧ w = v then some f else m.given q w } q a = m.view q a := by
  refine Spaces.view_congr_at (if_neg fun hc => ?_) fun f' o hf' ho => ?_
  · rcases hq with hq | hq
    · exact hq hc.1
    · exact hq hc.2
  · exact loadPage_mem hg.tables (hg.not_dead hp) hv hrun (hg.data q _ f' hf') ho

/-- Building up the memory of one process leaves the memories of others. -/
theorem Spaces.view_perform {op : TableOp} (hg : SpacesOk m g) (hok : SpaceOk m op.spaceOp)
    (hstep : spaceStep m op.spaceOp = some m') (hq : q ≠ op.pid) : m'.view q = m.view q := by
  rcases spaceStep_cases hstep with ⟨pid, v, f, s', rfl, hrun, rfl⟩ |
    ⟨pid, v, off, byte, f, rfl, hf, rfl⟩
  · exact funext fun _ => Spaces.view_load hg hok.2.1 hok.2.2.1.1 hrun (Or.inl hq)
  · refine Spaces.view_congr (fun _ => rfl) fun w f' o hf' ho => ?_
    have hff : f' ≠ f := fun he => hq (hg.inj q w pid v f (he ▸ hf') hf).1
    have hd := pagingRead_disjoint hff
    have hoff : off < 4096 := hok
    have hne : pagingRead f' + o ≠ pagingRead f + off := by omega
    rw [Mmu.store_apply, update_of_ne hne]

/-- It leaves the pages of others. -/
theorem Spaces.maps_perform {op : TableOp} (hstep : spaceStep m op.spaceOp = some m')
    (hq : q ≠ op.pid) (hmaps : m.Maps q a) : m'.Maps q a := by
  obtain ⟨hfreed, f, hf⟩ := hmaps
  rcases spaceStep_cases hstep with ⟨pid, v, f', s', rfl, -, rfl⟩ |
    ⟨pid, v, off, byte, f', rfl, -, rfl⟩
  · exact ⟨hfreed, f, (if_neg fun hc => hq hc.1).trans hf⟩
  · exact ⟨hfreed, f, hf⟩

/-- While processes are loaded and freed, none is switched in. -/
theorem spaceStep_pageTablePid {op : SpaceOp} (hstep : spaceStep m op = some m') :
    m'.mmu.pageTablePid = m.mmu.pageTablePid := by
  cases op with
  | load pid v =>
    rw [spaceStep] at hstep
    split at hstep
    · rename_i f s' hrun
      cases hstep
      exact ((keepsSatp_loadPage pid v).ok hrun).2
    · cases hstep
  | fill pid v off byte =>
    obtain ⟨f, -, rfl⟩ := Option.map_eq_some_iff.1 hstep
    rfl
  | free pid =>
    cases hstep
    rfl

/-- After `mmu_init` no process has been switched in. -/
theorem mmuInit_pageTablePid {mem : Memory} {s : Mmu}
    (hinit : mmuInit .pageTable (Mmu.boot mem) = .ok () s) : s.pageTablePid = -1 := by
  have hwp : wp (mmuInit .pageTable) (fun _ s => s.pageTablePid = -1) (fun _ _ => True)
      (Mmu.boot mem) := by
    refine wp_call ((keepsSatp_pagetableIdentityMapping 0).wp _) (fun _ _ _ => trivial)
      fun _ s hs => ?_
    exact hs.2
  have hpid := wp_ok hwp hinit
  exact hpid

/-- A process that is switched in after it was loaded has its tables in use. -/
theorem tablesInUse_switch {mem : Memory} {s : Mmu} {pid : ℤ}
    (hinit : mmuInit .pageTable (Mmu.boot mem) = .ok () s)
    (hload : Reach spaceStep SpaceOk (Spaces.init s) m) (hpid : pid ≠ -1) :
    TablesInUse { m with mmu := pageTableSwitch pid m.mmu } := by
  have hspaces : (∃ g, SpacesOk m g) ∧ m.mmu.pageTablePid = -1 := by
    apply hload.invariant
    · exact ⟨spacesOk_init hinit, mmuInit_pageTablePid hinit⟩
    · rintro m op m' ⟨⟨g, hg⟩, hpid⟩ hok hstep
      exact ⟨hg.step hok hstep, (spaceStep_pageTablePid hstep).trans hpid⟩
  obtain ⟨⟨g, hg⟩, hnone⟩ := hspaces
  refine ⟨⟨g, hg.switch pid⟩, ?_⟩
  rw [pageTableSwitch, if_neg (hnone ▸ hpid)]
  exact fun _ => rfl

/-- With page tables every process has a memory of its own. -/
def pageTableMemories : PrivateMemories pageTableSpaces where
  Inv := TablesInUse
  Ok m op := SpaceOk m op.spaceOp
  Freeable p := 0 < p
  Maps := Spaces.Maps
  view := Spaces.view
  inv_switch h := h.switch _
  curr_switch _ := pageTableSwitch_pageTablePid _ _
  maps_switch _ := rfl
  view_switch _ := by
    funext p
    refine Spaces.view_congr (fun _ => rfl) fun _ _ _ _ _ => ?_
    simp only [pageTableSpaces, pageTableSwitch_mem]
  load_eq h hmaps := by
    obtain ⟨hfreed, f, hf⟩ := hmaps
    rw [Spaces.view_apply hf]
    simp only [pageTableSpaces, h.target_eq hfreed hf]
  inv_store h hmaps := by
    obtain ⟨hfreed, f, hf⟩ := hmaps
    rw [h.store_eq hfreed hf]
    exact h.store hf _
  curr_store h hmaps := by
    obtain ⟨hfreed, f, hf⟩ := hmaps
    rw [h.store_eq hfreed hf]
    rfl
  maps_store h hmaps := by
    obtain ⟨hfreed, f, hf⟩ := hmaps
    rw [h.store_eq hfreed hf]
    rfl
  view_store h hmaps := by
    obtain ⟨hfreed, f, hf⟩ := hmaps
    obtain ⟨g, hg⟩ := h.spaces
    rw [h.store_eq hfreed hf]
    exact Spaces.view_store hg hf _
  inv_free h hp := by
    obtain ⟨g, hg⟩ := h.spaces
    exact ⟨hg.free hp, h.satp⟩
  curr_free _ _ := rfl
  maps_free {m p q a} _ _ hq hmaps := by
    obtain ⟨hfreed, f, hf⟩ := hmaps
    refine ⟨?_, f, hf⟩
    simp [pageTableSpaces, hfreed, hq]
  view_free _ _ _ := Spaces.view_congr (fun _ => rfl) fun _ _ _ _ _ => rfl
  store_free {m p a b} := by
    -- the walk reads the tables and `satp`, which freeing leaves as they are
    have htarget : (mmuFree p m.mmu).target a = m.mmu.target a := rfl
    simp only [pageTableSpaces, htarget]
    cases m.mmu.target a with
    | none => rfl
    | some pa => rfl
  inv_perform h hok hcurr hstep := (h.perform hok hcurr hstep).1
  curr_perform h hok hcurr hstep := (h.perform hok hcurr hstep).2
  maps_perform _ _ _ hstep hq hmaps := Spaces.maps_perform hstep hq hmaps
  view_perform h hok _ hstep hq := by
    obtain ⟨g, hg⟩ := h.spaces
    exact Spaces.view_perform hg hok hstep hq

end Egos.Earth
