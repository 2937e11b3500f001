import Egos.Common.Reach
import Egos.Earth.PageTableOps

/-!
# Address spaces in page-table mode

Runs of process loads and frees after `mmu_init`, with the frame that was last given to
`page_table_map` for each page of each process. The walk of the hardware from the root of a process
finds exactly these frames, for user code, and the identity regions, for the kernel; and user pages
are never a page table, a page of the kernel or a page of another process.
-/

namespace Egos.Earth

open Function (update update_self update_of_ne)

/-! ## Runs -/

/-- The state of the MMU, the frame last given to `page_table_map` for a page, and the processes
that have been freed. -/
structure Spaces where
  mmu : Mmu
  given : ℤ → ℕ → Option (Fin nframes)
  freed : ℤ → Bool

/-- The loader maps a page or writes to its frame, or a process is freed. -/
inductive SpaceOp
  | load (pid : ℤ) (pageNo : ℕ)
  | fill (pid : ℤ) (pageNo off : ℕ) (byte : UInt8)
  | free (pid : ℤ)

/-- `mmu_alloc` and then `page_table_map`. -/
def loadPage (pid : ℤ) (pageNo : ℕ) : MmuM (Fin nframes) := do
  let (frameId, _) ← mmuAlloc
  pageTableMap pid pageNo frameId
  pure frameId

/-- The operations on the code. Freeing a process that has no page tables does nothing. -/
def spaceStep (m : Spaces) : SpaceOp → Option Spaces
  | .load pid pageNo =>
    match loadPage pid pageNo m.mmu with
    | .ok frameId s' => some { m with
        mmu := s'
        given := fun q v => if q = pid ∧ v = pageNo then some frameId else m.given q v }
    | .error _ _ => none
  | .fill pid pageNo off byte =>
    (m.given pid pageNo).map fun frameId =>
      { m with mmu := m.mmu.store (pagingRead frameId + off) byte }
  | .free pid => some { m with
      mmu := mmuFree pid m.mmu
      freed := fun q => m.freed q || (q == pid && m.mmu.pidToPagetableBase q != 0) }

/-- The page of a virtual address of Sv39. -/
def IsPage (pageNo : ℕ) : Prop := pageNo < 2 ^ 52 ∧ Sv39.Canonical (pageNo * pageSize)

/-- The pages of a process are loaded outside its identity regions and before it is freed, and only
processes are freed, not the kernel. -/
def SpaceOk (m : Spaces) : SpaceOp → Prop
  | .load pid pageNo => 0 < pid ∧ m.freed pid = false ∧ IsPage pageNo ∧
      ¬ Covers (identityRegions pid) pageNo
  | .fill _ _ off _ => off < pageSize
  | .free pid => 0 < pid

instance (pageNo : ℕ) : Decidable (IsPage pageNo) :=
  inferInstanceAs (Decidable (_ ∧ Sv39.Canonical _))

instance (m : Spaces) : DecidablePred (SpaceOk m)
  | .load _ _ => inferInstanceAs (Decidable (_ ∧ _ ∧ IsPage _ ∧ ¬ Covers _ _))
  | .fill _ _ _ _ => inferInstanceAs (Decidable (_ < _))
  | .free _ => inferInstanceAs (Decidable (0 < _))

/-- A process that has been loaded and not freed. -/
def Spaces.Live (m : Spaces) (p : ℤ) : Prop :=
  m.freed p = false ∧ ∃ v f, m.given p v = some f

/-- The state after `mmu_init`. -/
def Spaces.init (s : Mmu) : Spaces := ⟨s, fun _ _ => none, fun _ => false⟩

/-! ## The invariant -/

/-- The page number of the page with 27-bit number `w`. -/
def canonicalPage (w : ℕ) : ℕ := if w < 2 ^ 26 then w else w + (2 ^ 52 - 2 ^ 27)

/-- The page number and the user bit that the page with 27-bit number `w` should have. -/
def Spaces.page (m : Spaces) (p : ℤ) (w : ℕ) : Option (ℕ × Bool) :=
  match m.given p (canonicalPage w) with
  | some f => some (framePpn f, true)
  | none => if Covers (identityRegions p) w then some (w, false) else none

/-- What the runs keep. -/
structure SpacesOk (m : Spaces) (g : Ghost) : Prop where
  tables : PageTables g m.mmu
  dead : ∀ p, g.dead p ↔ m.freed p = true
  kernel : m.freed 0 = false ∧ m.mmu.pidToPagetableBase 0 ≠ 0
  data : ∀ p v f, m.given p v = some f → g.kind f = .data
  inj : ∀ p v q w f, m.given p v = some f → m.given q w = some f → p = q ∧ v = w
  page : ∀ p v f, m.given p v = some f → IsPage v ∧ ¬ Covers (identityRegions p) v
  base : ∀ p v f, m.given p v = some f → m.mmu.pidToPagetableBase p ≠ 0
  maps : ∀ p w, m.freed p = false → m.mmu.pidToPagetableBase p ≠ 0 → w < 2 ^ 27 →
    g.maps p w = m.page p w

variable {m m' : Spaces} {g : Ghost} {s : Mmu} {p : ℤ}

/-- A page number is given back by its 27 bits. -/
theorem IsPage.canonicalPage_mod {v : ℕ} (h : IsPage v) : canonicalPage (v % 2 ^ 27) = v := by
  obtain ⟨hlt, hc⟩ := h
  have hc : v * 4096 / 2 ^ 38 = 0 ∨ v * 4096 / 2 ^ 38 = 2 ^ 26 - 1 := hc
  unfold canonicalPage
  split <;> omega

/-- Other 27 bits are another page. -/
theorem canonicalPage_ne {v w : ℕ} (hv : IsPage v) (hw : w < 2 ^ 27) (hne : w ≠ v % 2 ^ 27) :
    canonicalPage w ≠ v := by
  intro he
  have hv' := hv.canonicalPage_mod
  have hlt : v % 2 ^ 27 < 2 ^ 27 := Nat.mod_lt _ (by decide)
  unfold canonicalPage at he hv'
  split at he <;> split at hv' <;> omega

/-- Identity regions are in the low part of the address space. -/
theorem Covers.lt {v : ℕ} (h : Covers (identityRegions p) v) : v < 2 ^ 20 := by
  have hall : ∀ r ∈ identityRegions p, r.1 / pageSize + r.2 ≤ 2 ^ 20 := by
    intro r hr
    unfold identityRegions at hr
    split_ifs at hr <;> simp only [List.mem_cons, List.not_mem_nil, or_false] at hr <;>
      rcases hr with rfl | rfl | rfl | rfl | rfl | rfl | rfl <;> decide
  obtain ⟨r, hr, -, hlt⟩ := h
  exact hlt.trans_le (hall r hr)

/-! ## One operation -/

/-- A process without page tables has no pages. -/
theorem PageTables.maps_none (h : PageTables g s) (hp : s.pidToPagetableBase p = 0) (w : ℕ) :
    g.maps p w = none := by
  by_contra hm
  obtain ⟨i, hi⟩ := h.mapped p w hm
  exact h.no_tables hp _ hi

/-- The state after `mmu_init`: the kernel has its identity regions. -/
theorem spacesOk_init {mem : Memory} (hinit : mmuInit .pageTable (Mmu.boot mem) = .ok () s) :
    ∃ g, SpacesOk (Spaces.init s) g := by
  let g₀ : Ghost := ⟨fun _ => .free, fun _ _ => none, fun _ => False⟩
  have h₀ : PageTables g₀ (Mmu.boot mem) :=
    ⟨fun _ => rfl, fun _ _ _ _ h => (by cases h), fun _ _ h => (by cases h),
      fun _ _ h => absurd rfl h, fun _ _ _ _ _ h => (by cases h), fun _ _ _ _ h => (by cases h),
      fun _ _ h => absurd rfl h, fun _ _ _ _ h => (by cases h)⟩
  have hwp : wp (mmuInit .pageTable) (fun _ s => ∃ kind', Extends 0 g₀.kind (Mmu.boot mem) kind' s ∧
      PageTables { g₀.identity 0 (identityRegions 0) with kind := kind' } s)
      (fun _ _ => True) (Mmu.boot mem) := by
    refine wp_call (pagetableIdentityMapping_spec h₀ id) (fun _ _ _ => trivial) fun _ s' hs' => ?_
    obtain ⟨kind', hx, h'⟩ := hs'
    exact ⟨kind', ⟨hx.kind, hx.bases⟩, ⟨h'.frame, h'.unique, h'.base, h'.root, h'.parent, h'.entry,
      h'.mapped, h'.bound⟩⟩
  obtain ⟨kind', hx, h'⟩ := wp_ok hwp hinit
  -- the UART is mapped
  have huart : Covers (identityRegions 0) 0x2500 := by decide
  have hroot : s.pidToPagetableBase 0 ≠ 0 := fun hb => by
    have hnone := h'.maps_none hb 0x2500
    simp [Ghost.identity, huart] at hnone
  refine ⟨_, h', fun p => ⟨False.elim, fun h => (by cases h)⟩, ⟨rfl, hroot⟩,
    fun _ _ _ h => (by cases h), fun _ _ _ _ _ h => (by cases h), fun _ _ _ h => (by cases h),
    fun _ _ _ h => (by cases h), ?_⟩
  intro p w _ hbase _
  have hp : p = 0 := by
    by_contra hne
    exact hbase (hx.bases p hne)
  simp [Ghost.identity, Spaces.page, Spaces.init, hp, g₀]

theorem Ghost.ensureIdentity_kind {t : Mmu} {kind : Fin nframes → Kind}
    (ht : t.pidToPagetableBase = s.pidToPagetableBase) :
    ({ g with kind := kind } : Ghost).ensureIdentity t p
      = { g.ensureIdentity s p with kind := kind } := by
  unfold Ghost.ensureIdentity
  rw [ht]
  split <;> rfl

/-- The ghost state after a page has been loaded. -/
theorem loadPage_spec (h : PageTables g s) (hp : ¬ g.dead p) {v : ℕ} (hv : v < 2 ^ 52) :
    wp (loadPage p v) (fun f s' => g.kind f = .free ∧ s'.pidToPagetableBase p ≠ 0 ∧ ∃ kind',
      Extends p (update g.kind f .data) s kind' s' ∧
      PageTables { (g.ensureIdentity s p).setPage p (v % 2 ^ 27) (framePpn f, true) with
        kind := kind' } s') (fun _ _ => True) s := by
  unfold loadPage
  rw [wp_bind]
  refine mmuAlloc_spec (fun f hf => ?_) fun _ => trivial
  refine wp_call (pageTableMap_spec (h.allocData hf) hp hv f)
    (fun _ _ _ => trivial) fun _ s' hs' => ?_
  obtain ⟨-, kind', hx, hbase, htables⟩ := hs'
  refine ⟨h.kind_free hf, hbase, kind', ⟨hx.kind, hx.bases⟩, ?_⟩
  rw [Ghost.ensureIdentity_kind rfl] at htables
  exact htables

/-- What the pages of a process should be once it has page tables. -/
theorem SpacesOk.ensureIdentity (h : SpacesOk m g) (hp : m.freed p = false) {w : ℕ}
    (hw : w < 2 ^ 27) : (g.ensureIdentity m.mmu p).maps p w = m.page p w := by
  unfold Ghost.ensureIdentity
  split
  · rename_i hb
    have hnone : m.given p (canonicalPage w) = none := by
      cases hg : m.given p (canonicalPage w) with
      | none => rfl
      | some f => exact absurd hb (h.base p _ f hg)
    simp only [Ghost.identity, Spaces.page, hnone, true_and, h.tables.maps_none hb]
  · exact h.maps p w hp ‹_› hw

/-- Loading a page. -/
theorem SpacesOk.load (h : SpacesOk m g) {pid : ℤ} {v : ℕ} (hok : SpaceOk m (.load pid v))
    {f : Fin nframes} {s' : Mmu} (hrun : loadPage pid v m.mmu = .ok f s') :
    ∃ g', SpacesOk { m with
      mmu := s', given := fun q w => if q = pid ∧ w = v then some f else m.given q w } g' := by
  obtain ⟨hpid, hlive, hpage, hid⟩ := hok
  have hdead : ¬ g.dead pid := fun hd => by
    rw [h.dead, hlive] at hd
    cases hd
  obtain ⟨hfree, hbase, kind', hx, htables⟩ := wp_ok (loadPage_spec h.tables hdead hpage.1) hrun
  -- the frame is new
  have hnew : ∀ q w, m.given q w ≠ some f := fun q w hq => by
    have := h.data q w f hq
    rw [hfree] at this
    cases this
  have hf : kind' f = .data := by
    rw [hx.kind f (by rw [update_self]; simp), update_self]
  have hkeep : ∀ q w f', m.given q w = some f' → kind' f' = .data := fun q w f' hq => by
    have hd := h.data q w f' hq
    have hne : f' ≠ f := fun he => hnew q w (he ▸ hq)
    have hu : update g.kind f .data f' = .data := (update_of_ne hne _ _).trans hd
    rw [hx.kind f' (by rw [hu]; simp), hu]
  have hkernel : s'.pidToPagetableBase 0 ≠ 0 := by
    rw [hx.bases 0 (by omega)]
    exact h.kernel.2
  refine ⟨_, htables, fun q => ?_, ⟨h.kernel.1, hkernel⟩, fun q w f' hq => ?_,
    fun q w q' w' f' hq hq' => ?_,
    fun q w f' hq => ?_, fun q w f' hq => ?_, fun q w hfreed hb hw => ?_⟩
  · rw [← h.dead]
    simp only [Ghost.setPage, Ghost.ensureIdentity]
    split <;> rfl
  · dsimp only at hq
    split at hq
    · cases hq
      exact hf
    · exact hkeep q w f' hq
  · dsimp only at hq hq'
    split at hq <;> split at hq'
    · rename_i h1 h2
      exact ⟨h1.1.trans h2.1.symm, h1.2.trans h2.2.symm⟩
    · cases hq
      exact absurd hq' (hnew q' w')
    · cases hq'
      exact absurd hq (hnew q w)
    · exact h.inj q w q' w' f' hq hq'
  · dsimp only at hq
    split at hq
    · rename_i hc
      rw [hc.1, hc.2]
      exact ⟨hpage, hid⟩
    · exact h.page q w f' hq
  · dsimp only at hq ⊢
    split at hq
    · rename_i hc
      rw [hc.1]
      exact hbase
    · by_cases hqp : q = pid
      · rw [hqp]
        exact hbase
      · rw [hx.bases q hqp]
        exact h.base q w f' hq
  · by_cases hqp : q = pid
    · subst hqp
      by_cases hwv : w = v % 2 ^ 27
      · rw [hwv]
        simp only [Ghost.setPage, Spaces.page, hpage.canonicalPage_mod, and_self, if_true]
      · have hne := canonicalPage_ne hpage hw hwv
        have hsame : Spaces.page { m with
            mmu := s', given := fun q' w' => if q' = q ∧ w' = v then some f else m.given q' w' } q w
            = m.page q w := by
          simp only [Spaces.page, hne, and_false, if_false]
        rw [hsame, ← h.ensureIdentity hlive hw]
        exact if_neg fun hc => hwv hc.2
    · have hsame : Spaces.page { m with
          mmu := s', given := fun q' w' => if q' = pid ∧ w' = v then some f else m.given q' w' } q w
          = m.page q w := by
        simp only [Spaces.page, hqp, false_and, if_false]
      have hold : (g.ensureIdentity m.mmu pid).maps q w = g.maps q w := by
        unfold Ghost.ensureIdentity
        split
        · exact if_neg fun hc => hqp hc.1
        · rfl
      rw [hsame, ← h.maps q w hfreed (by rwa [← hx.bases q hqp]) hw, ← hold]
      exact if_neg fun hc => hqp hc.1

/-- Writing to the frame of a page. -/
theorem SpacesOk.fill (h : SpacesOk m g) {v off : ℕ} {f : Fin nframes}
    (hf : m.given p v = some f) (hoff : off < 4096) (byte : UInt8) :
    SpacesOk { m with mmu := m.mmu.store (pagingRead f + off) byte } g :=
  ⟨h.tables.store (h.data p v f hf) hoff byte, h.dead, h.kernel, h.data, h.inj, h.page, h.base,
    h.maps⟩

/-- Freeing a process. -/
theorem SpacesOk.free (h : SpacesOk m g) {pid : ℤ} (hpid : 0 < pid) :
    ∃ g', SpacesOk { m with
      mmu := mmuFree pid m.mmu
      freed := fun q => m.freed q || (q == pid && m.mmu.pidToPagetableBase q != 0) } g' := by
  have htables := h.tables.mmuFree (p := pid) (by omega)
  refine ⟨{ g.free pid with dead := fun q => m.freed q || (q == pid &&
      m.mmu.pidToPagetableBase q != 0) }, ⟨htables.frame, htables.unique, htables.base,
      fun q hq hb => htables.root q (fun hd => hq ?_) hb, htables.parent, htables.entry,
      htables.mapped, htables.bound⟩, fun _ => Iff.rfl, ?_, fun q w f hq => ?_, h.inj, h.page,
    h.base, fun q w hq hb hw => ?_⟩
  · have hbq : m.mmu.pidToPagetableBase q ≠ 0 := hb
    rcases hd with hd | rfl
    · rw [h.dead] at hd
      simp [hd]
    · simp [hbq]
  · have hne : ((0 : ℤ) == pid) = false := by
      rw [beq_eq_false_iff_ne]
      omega
    exact ⟨by simp only [h.kernel.1, hne, Bool.false_and, Bool.or_false], h.kernel.2⟩
  · simp only [Ghost.free, h.data q w f hq]
  · have hbq : m.mmu.pidToPagetableBase q ≠ 0 := hb
    simp only [Bool.or_eq_false_iff] at hq
    have hqp : q ≠ pid := by
      rintro rfl
      exact absurd hq.2 (by simp [hbq])
    exact (if_neg hqp).trans (h.maps q w hq.1 hbq hw)

/-- Every operation keeps the invariant. -/
theorem SpacesOk.step {op : SpaceOp} (h : SpacesOk m g) (hok : SpaceOk m op)
    (hstep : spaceStep m op = some m') : ∃ g', SpacesOk m' g' := by
  cases op with
  | load pid v =>
    cases hrun : loadPage pid v m.mmu with
    | ok f s' =>
      rw [spaceStep, hrun] at hstep
      cases hstep
      exact h.load hok hrun
    | error e s' =>
      rw [spaceStep, hrun] at hstep
      cases hstep
  | fill pid v off byte =>
    obtain ⟨f, hf, rfl⟩ := Option.map_eq_some_iff.1 hstep
    exact ⟨g, h.fill hf hok byte⟩
  | free pid =>
    cases hstep
    exact h.free hok

/-! ## What the hardware finds -/

/-- The walk of the hardware finds the frames given to the pages of a process and its identity
regions. -/
theorem SpacesOk.translate (h : SpacesOk m g) (hp : m.freed p = false)
    (hb : m.mmu.pidToPagetableBase p ≠ 0) {v : ℕ} (hv : IsPage v) :
    Sv39.translate m.mmu.mem (m.mmu.pidToPagetableBase p) (pageAddr v)
      = (m.page p (v % 2 ^ 27)).map fun x => ⟨x.1 * 2 ^ 12, x.2⟩ := by
  have hdead : ¬ g.dead p := fun hd => by
    rw [h.dead, hp] at hd
    cases hd
  obtain ⟨i, hi⟩ := h.tables.root p hdead hb
  have hpage : pageAddr v / 2 ^ 12 % 2 ^ 27 = v % 2 ^ 27 := by
    rw [pageAddr_eq hv.1]
    omega
  have hc : Sv39.Canonical (pageAddr v) := by
    rw [pageAddr_eq hv.1]
    exact hv.2
  rw [Sv39.translate, if_pos hc, h.tables.base i p hi, h.tables.walk hi, hpage,
    h.maps p _ hp hb (Nat.mod_lt _ (by decide))]

/-- The hardware finds the frame of a page. -/
theorem SpacesOk.translate_given (h : SpacesOk m g) (hp : m.freed p = false) {v : ℕ}
    {f : Fin nframes} (hf : m.given p v = some f) :
    Sv39.translate m.mmu.mem (m.mmu.pidToPagetableBase p) (pageAddr v)
      = some ⟨pagingRead f, true⟩ := by
  have hv := (h.page p v f hf).1
  rw [h.translate hp (h.base p v f hf) hv, Spaces.page, hv.canonicalPage_mod, hf, pagingRead_ppn]
  rfl

/-- A page of an identity region is a page of the low part of the address space. -/
theorem isPage_of_covers {v : ℕ} (hv : Covers (identityRegions p) v) :
    IsPage v ∧ canonicalPage (v % 2 ^ 27) = v ∧ v % 2 ^ 27 = v := by
  have hlt := hv.lt
  have hpage : IsPage v := ⟨by omega, Or.inl (by simp only [pageSize]; omega)⟩
  exact ⟨hpage, hpage.canonicalPage_mod, by omega⟩

/-- Pages of the identity mapping have no frame. -/
theorem SpacesOk.given_covers (h : SpacesOk m g) {v : ℕ} (hv : Covers (identityRegions p) v) :
    m.given p v = none := by
  cases hf : m.given p v with
  | none => rfl
  | some f => exact absurd hv (h.page p v f hf).2

/-- The hardware finds the identity mapping, for the kernel only. -/
theorem SpacesOk.translate_identity (h : SpacesOk m g) (hp : m.freed p = false)
    (hb : m.mmu.pidToPagetableBase p ≠ 0) {v : ℕ} (hv : Covers (identityRegions p) v) :
    Sv39.translate m.mmu.mem (m.mmu.pidToPagetableBase p) (pageAddr v)
      = some ⟨pageAddr v, false⟩ := by
  obtain ⟨hpage, hcan, hmod⟩ := isPage_of_covers hv
  rw [h.translate hp hb hpage, Spaces.page, hcan, h.given_covers hv, hmod]
  simp only [hv, if_true, Option.map_some, pageAddr_eq hpage.1]
  norm_num

/-- It finds nothing else. -/
theorem SpacesOk.translate_none (h : SpacesOk m g) (hp : m.freed p = false)
    (hb : m.mmu.pidToPagetableBase p ≠ 0) {v : ℕ} (hlt : v < 2 ^ 52) (hf : m.given p v = none)
    (hv : ¬ Covers (identityRegions p) v) :
    Sv39.translate m.mmu.mem (m.mmu.pidToPagetableBase p) (pageAddr v) = none := by
  by_cases hpage : IsPage v
  · rw [h.translate hp hb hpage, Spaces.page, hpage.canonicalPage_mod, hf]
    have hcov : ¬ Covers (identityRegions p) (v % 2 ^ 27) := by
      intro hc
      have hlt := hc.lt
      have hcan := hpage.canonicalPage_mod
      rw [canonicalPage, if_pos (by omega)] at hcan
      rw [hcan] at hc
      exact hv hc
    simp only [hcov, if_false, Option.map_none]
  · rw [Sv39.translate, if_neg]
    intro hc
    rw [pageAddr_eq hlt] at hc
    exact hpage ⟨hlt, hc⟩

/-- What user code of a process can reach is the frame of one of its pages. -/
theorem SpacesOk.translate_user (h : SpacesOk m g) (hp : m.freed p = false)
    (hb : m.mmu.pidToPagetableBase p ≠ 0) {v pa : ℕ} (hlt : v < 2 ^ 52)
    (hu : Sv39.translate m.mmu.mem (m.mmu.pidToPagetableBase p) (pageAddr v) = some ⟨pa, true⟩) :
    ∃ f, m.given p v = some f ∧ pa = pagingRead f := by
  cases hf : m.given p v with
  | some f =>
    rw [h.translate_given hp hf] at hu
    cases hu
    exact ⟨f, rfl, rfl⟩
  | none =>
    by_cases hv : Covers (identityRegions p) v
    · rw [h.translate_identity hp hb hv] at hu
      cases hu
    · rw [h.translate_none hp hb hlt hf hv] at hu
      cases hu

/-- In every run after `mmu_init`, the walk from the root of a live process finds, for each page
given to `page_table_map`, the frame last given, for user code; for each page of an identity region
that page itself, for the kernel only; and it faults on every other page. What user code can reach
is in the frame cache, is not a page table of the kernel or of a live process, and is not a frame
of another live process. -/
theorem page_table_isolation {mem : Memory} (hinit : mmuInit .pageTable (Mmu.boot mem) = .ok () s)
    (h : Reach spaceStep SpaceOk (Spaces.init s) m) (hp : m.Live p) :
    (∀ v f, m.given p v = some f →
      Sv39.translate m.mmu.mem (m.mmu.pidToPagetableBase p) (pageAddr v)
        = some ⟨pagingRead f, true⟩) ∧
    (∀ v, Covers (identityRegions p) v →
      Sv39.translate m.mmu.mem (m.mmu.pidToPagetableBase p) (pageAddr v)
        = some ⟨pageAddr v, false⟩) ∧
    (∀ v, v < 2 ^ 52 → m.given p v = none → ¬ Covers (identityRegions p) v →
      Sv39.translate m.mmu.mem (m.mmu.pidToPagetableBase p) (pageAddr v) = none) ∧
    ∀ v pa, v < 2 ^ 52 →
      Sv39.translate m.mmu.mem (m.mmu.pidToPagetableBase p) (pageAddr v) = some ⟨pa, true⟩ →
      (frameCacheStart ≤ pa ∧ pa < frameCacheEnd) ∧
      (∀ q va, q = 0 ∨ m.Live q →
        pa ∉ Sv39.tables m.mmu.mem va 2 (m.mmu.pidToPagetableBase q)) ∧
      ∀ q w f, m.Live q → q ≠ p → m.given q w = some f → pa ≠ pagingRead f := by
  obtain ⟨g, hok⟩ : ∃ g, SpacesOk m g :=
    h.invariant (P := fun m => ∃ g, SpacesOk m g) (spacesOk_init hinit)
      fun _ _ _ ⟨_, hs⟩ hop hstep => hs.step hop hstep
  obtain ⟨hlive, v₀, f₀, hv₀⟩ := hp
  have hb := hok.base p v₀ f₀ hv₀
  refine ⟨fun v f hf => hok.translate_given hlive hf,
    fun v hv => hok.translate_identity hlive hb hv,
    fun v hlt hf hv => hok.translate_none hlive hb hlt hf hv, fun v pa hlt hu => ?_⟩
  obtain ⟨f, hf, rfl⟩ := hok.translate_user hlive hb hlt hu
  refine ⟨?_, fun q va hq hmem => ?_, fun q w f' _ hqp hf' he => ?_⟩
  · have hi : f.val < 256 := f.isLt
    have hstart : frameCacheStart = 1074790400 := rfl
    have hend : frameCacheEnd = 1075838976 := rfl
    rw [pagingRead_eq, hstart, hend]
    omega
  · -- the tables of `q` are tables, and `f` is a data page
    obtain ⟨hq, hbq⟩ : m.freed q = false ∧ m.mmu.pidToPagetableBase q ≠ 0 := by
      rcases hq with rfl | ⟨hq, w, f', hf'⟩
      · exact hok.kernel
      · exact ⟨hq, hok.base q w f' hf'⟩
    obtain ⟨i, hi⟩ := hok.tables.root q (fun hd => by simp [(hok.dead q).1 hd] at hq) hbq
    rw [hok.tables.base i q hi] at hmem
    obtain ⟨j, n, hj, he⟩ := hok.tables.tables hi va _ hmem
    have hfj : f = j := by
      by_contra hne
      have := pagingRead_disjoint hne
      omega
    have hd := hok.data p v f hf
    rw [hfj, hj] at hd
    cases hd
  · have hff : f = f' := by
      by_contra hne
      have := pagingRead_disjoint hne
      omega
    exact hqp (hok.inj q w p v f' hf' (hff ▸ hf)).1

/-- Two processes are loaded and one is freed. -/
def twoSpaces : List SpaceOp :=
  [.load 5 0x40027, .load 6 0x40027, .fill 6 0x40027 0 7, .free 5, .load 6 0x40028]

/-- The page of the other process is then in the frame that was given to it. -/
theorem page_table_isolation_two :
    ∃ s m, mmuInit .pageTable (Mmu.boot fun _ => 0) = .ok () s ∧
      Reach spaceStep SpaceOk (Spaces.init s) m ∧ ∃ f, m.given 6 0x40027 = some f ∧
        Sv39.translate m.mmu.mem (m.mmu.pidToPagetableBase 6) (pageAddr 0x40027)
          = some ⟨pagingRead f, true⟩ := by
  have hrun : (match mmuInit .pageTable (Mmu.boot fun _ => 0) with
      | .ok _ s => (runActions spaceStep (Spaces.init s) twoSpaces).any (fun m =>
          (m.given 6 0x40027).isSome && !m.freed 6) &&
        runMeets spaceStep (fun m op => decide (SpaceOk m op)) (Spaces.init s) twoSpaces
      | .error _ _ => false) = true := by decide +kernel
  split at hrun
  · rename_i s hinit
    obtain ⟨hany, hmeets⟩ := (Bool.and_eq_true _ _).mp hrun
    obtain ⟨m, hm, hcheck⟩ := (Option.any_eq_true _ _).1 hany
    obtain ⟨hsome, hlive⟩ := (Bool.and_eq_true _ _).mp hcheck
    obtain ⟨f, hf⟩ := Option.isSome_iff_exists.1 hsome
    have hreach : Reach spaceStep SpaceOk (Spaces.init s) m :=
      .of_runActions (fun _ _ => of_decide_eq_true) _ .init hm hmeets
    exact ⟨s, m, hinit, hreach, f, hf,
      (page_table_isolation hinit hreach ⟨by simpa using hlive, _, f, hf⟩).1 _ f hf⟩
  · cases hrun

end Egos.Earth
