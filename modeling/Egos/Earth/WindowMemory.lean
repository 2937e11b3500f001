import Egos.Common.AddressSpaces
import Egos.Earth.SoftTlb

/-!
# The software TLB as a memory system

The window is ordinary memory, so loads and stores of the process that is switched in go there. Its
pages are at their homes in the window and those of the others in their frames, so the memory of a
process is what is at the homes of its pages.
-/

namespace Egos.Earth

open Function (update update_self update_of_ne)

/-- What the loader does to the memory of a process: map a page, and write to its frame. -/
inductive WindowOp
  | mapPage (pid : ℤ) (pageNo : ℕ)
  | fill (pid : ℤ) (pageNo : ℕ) (frameId : Fin nframes) (off : ℕ) (byte : UInt8)

/-- The process whose memory is built up. -/
def WindowOp.pid : WindowOp → ℤ
  | mapPage pid _ => pid
  | fill pid _ _ _ _ => pid

/-- The operation on the software TLB. -/
def WindowOp.tlbOp : WindowOp → TlbOp
  | mapPage pid pageNo => .mapPage pid pageNo
  | fill pid pageNo frameId off byte => .fill pid pageNo frameId off byte

/-- Memory with the software TLB. -/
def softTlbSpaces : AddressSpaces Mmu ℤ WindowOp where
  curr s := s.softTlbPid
  switch := softTlbSwitch
  load s := s.mem
  store := Mmu.store
  free := mmuFree
  owner := WindowOp.pid
  perform s op := tlbStep s op.tlbOp

/-- The memory of a process: what is at the homes of its pages. -/
def Mmu.window (s : Mmu) (pid : ℤ) : Memory := fun a =>
  match (List.finRange nframes).find? fun i => s.MapsPage pid (a / pageSize) i with
  | some i => s.mem (s.home i + a % pageSize)
  | none => 0

variable {s s' : Mmu} {p : ℤ} {a : ℕ} {i : Fin nframes}

/-! ## Memories of processes -/

/-- A byte of the memory of a process, at the home of its page. -/
theorem Mmu.window_apply (h : s.PagesOk) (hi : s.MapsPage p (a / 4096) i) :
    s.window p a = s.mem (s.home i + a % 4096) := by
  unfold Mmu.window
  cases hfind : (List.finRange nframes).find? fun i => s.MapsPage p (a / pageSize) i with
  | none =>
    have hnone := List.find?_eq_none.1 hfind i (List.mem_finRange i)
    exact absurd hi (by simpa using hnone)
  | some j =>
    have hj : s.MapsPage p (a / 4096) j := by simpa using List.find?_some hfind
    have hji : j = i := h.unique j i hj.1.1 hi.1.1 (hj.1.2.trans hi.1.2.symm) (hj.2.trans hi.2.symm)
    rw [hji]

/-- A page that is not mapped reads as 0. -/
theorem Mmu.window_of_not_maps (h : ∀ i, ¬ s.MapsPage p (a / 4096) i) : s.window p a = 0 := by
  unfold Mmu.window
  have hfind : ((List.finRange nframes).find? fun i => s.MapsPage p (a / pageSize) i) = none := by
    apply List.find?_eq_none.2
    intro i _
    simpa using h i
  rw [hfind]

/-- A process keeps its memory if it keeps its pages and what is at their homes. -/
theorem Mmu.window_congr_at (h : s.PagesOk) (h' : s'.PagesOk)
    (hmaps : ∀ i, s'.MapsPage p (a / 4096) i ↔ s.MapsPage p (a / 4096) i)
    (hmem : ∀ i off, s.MapsPage p (a / 4096) i → off < 4096 →
      s'.mem (s'.home i + off) = s.mem (s.home i + off)) : s'.window p a = s.window p a := by
  by_cases hex : ∃ i, s.MapsPage p (a / 4096) i
  · obtain ⟨i, hi⟩ := hex
    rw [Mmu.window_apply h hi, Mmu.window_apply h' ((hmaps _).2 hi)]
    exact hmem i _ hi (Nat.mod_lt _ (by decide))
  · have hnot : ∀ i, ¬ s.MapsPage p (a / 4096) i := fun i hi => hex ⟨i, hi⟩
    rw [Mmu.window_of_not_maps hnot, Mmu.window_of_not_maps fun i hi => hnot i ((hmaps _).1 hi)]

/-- The memory is the same if the pages and their bytes are. -/
theorem Mmu.window_congr (h : s.PagesOk) (h' : s'.PagesOk)
    (hmaps : ∀ v i, s'.MapsPage p v i ↔ s.MapsPage p v i)
    (hmem : ∀ v i off, s.MapsPage p v i → off < 4096 →
      s'.mem (s'.home i + off) = s.mem (s.home i + off)) : s'.window p = s.window p :=
  funext fun _ => Mmu.window_congr_at h h' (hmaps _) (hmem _)

/-- The pages of the process that is switched in are where it sees them. -/
theorem Mmu.MapsPage.home_eq (h : s.PagesOk) (hi : s.MapsPage s.softTlbPid (a / 4096) i) :
    s.home i + a % 4096 = a := by
  have hwin := h.window i hi.1.1
  rw [hi.2] at hwin
  rw [Mmu.home, if_pos hi.1.2, hi.2, pageAddr_eq hwin.1]
  omega

/-- The invariant of the pages is that of the simulation with nothing written. -/
theorem Mmu.PagesOk.simulates (h : s.PagesOk) : Simulates s ⟨s.softTlbPid, fun _ _ _ => none⟩ :=
  ⟨rfl, h, fun _ _ _ _ _ hb => by cases hb⟩

/-- What the loader does keeps the pages in order. -/
theorem Mmu.PagesOk.tlbStep {op : TlbOp} (h : s.PagesOk) (hok : TlbOk s op)
    (hstep : tlbStep s op = some s') : s'.PagesOk :=
  (h.simulates.tlbStep hok hstep).pages

/-- So does `soft_tlb_switch`. -/
theorem Mmu.PagesOk.switch (h : s.PagesOk) (pid : ℤ) : (softTlbSwitch pid s).PagesOk :=
  (h.simulates.switch pid).pages

/-- So does `mmu_free`. -/
theorem Mmu.PagesOk.free (h : s.PagesOk) (pid : ℤ) : (mmuFree pid s).PagesOk :=
  (h.simulates.free pid).pages

/-! ## One operation -/

/-- `soft_tlb_switch` moves pages, and leaves all memories. -/
theorem Mmu.window_switch (h : s.PagesOk) (pid : ℤ) :
    (softTlbSwitch pid s).window = s.window := by
  funext p
  have hmaps : ∀ v i, (softTlbSwitch pid s).MapsPage p v i ↔ s.MapsPage p v i := by
    intro v i
    rw [Mmu.MapsPage, Mmu.Owns, softTlbSwitch_table]
    rfl
  exact Mmu.window_congr h (h.switch pid) hmaps
    fun _ _ _ hi hoff => softTlbSwitch_home h pid hi.1.1 hoff

/-- A store changes one byte, of the process that is switched in. -/
theorem Mmu.window_store (h : s.PagesOk) (hi : s.MapsPage s.softTlbPid (a / 4096) i)
    (byte : UInt8) : (s.store a byte).window
      = update s.window s.softTlbPid (update (s.window s.softTlbPid) a byte) := by
  have h' : (s.store a byte).PagesOk := ⟨h.window, h.unique⟩
  have ha := hi.home_eq h
  funext q
  by_cases hq : q = s.softTlbPid
  · subst hq
    rw [update_self]
    funext x
    by_cases hex : ∃ j, s.MapsPage s.softTlbPid (x / 4096) j
    · obtain ⟨j, hj⟩ := hex
      have hx := hj.home_eq h
      have hx' : (s.store a byte).home j + x % 4096 = x := hx
      rw [Mmu.window_apply h' hj, hx', Mmu.store_apply]
      by_cases hxa : x = a
      · rw [hxa, update_self, update_self]
      · rw [update_of_ne hxa, update_of_ne hxa, Mmu.window_apply h hj, hx]
    · have hnot : ∀ j, ¬ s.MapsPage s.softTlbPid (x / 4096) j := fun j hj => hex ⟨j, hj⟩
      have hxa : x ≠ a := fun he => hnot i (he ▸ hi)
      rw [update_of_ne hxa, Mmu.window_of_not_maps hnot]
      exact Mmu.window_of_not_maps hnot
  · rw [update_of_ne hq]
    refine Mmu.window_congr h h' (fun _ _ => Iff.rfl) fun v j off hj hoff => ?_
    have hji : j ≠ i := fun he => hq (hj.1.2.symm.trans (he ▸ hi.1.2))
    have hd := h.home_disjoint hj.1.1 hi.1.1 hji
    have hlt : a % 4096 < 4096 := Nat.mod_lt _ (by decide)
    have hne : s.home j + off ≠ a := by omega
    exact update_of_ne hne _ _

/-- Freeing one process leaves the pages of others. -/
theorem mapsPage_mmuFree {pid : ℤ} (hp : p ≠ pid) (v : ℕ) (i : Fin nframes) :
    (mmuFree pid s).MapsPage p v i ↔ s.MapsPage p v i := by
  simp only [Mmu.MapsPage, Mmu.Owns, mmuFree]
  split
  · rename_i hfree
    simp only [Bool.false_eq_true, false_and, false_iff]
    exact fun hc => hp (hc.1.2.symm.trans hfree.2)
  · exact Iff.rfl

/-- It leaves their memories. -/
theorem Mmu.window_free {pid : ℤ} (h : s.PagesOk) (hp : p ≠ pid) :
    (mmuFree pid s).window p = s.window p := by
  refine Mmu.window_congr h (h.free pid) (mapsPage_mmuFree hp)
    fun v i off hi _ => ?_
  have hkeep : (mmuFree pid s).table i = s.table i := by
    simp only [mmuFree]
    rw [if_neg fun hc => hp (hi.1.2.symm.trans hc.2)]
  have hhome : (mmuFree pid s).home i = s.home i := by
    rw [Mmu.home, hkeep]
    rfl
  rw [hhome]
  rfl

/-- Mapping a page does not concern other pages. -/
theorem mapsPage_mapPage {pid : ℤ} {pageNo v : ℕ} {j : Fin nframes}
    (hrun : softTlbMapPage pid pageNo s = .ok j s') (hp : p ≠ pid ∨ v ≠ pageNo)
    (i : Fin nframes) : s'.MapsPage p v i ↔ s.MapsPage p v i := by
  obtain ⟨hfree, rfl⟩ := softTlbMapPage_spec hrun
  simp only [Mmu.MapsPage, Mmu.Owns]
  by_cases hij : i = j
  · subst hij
    simp only [update_self]
    refine ⟨fun hc => ?_, fun hc => absurd hc.1.1 (by simp [hfree])⟩
    rcases hp with hp | hp
    · exact absurd hc.1.2.symm hp
    · exact absurd hc.2.symm hp
  · simp only [update_of_ne hij]

/-- Mapping a page leaves the other pages, and the other processes. -/
theorem Mmu.window_mapPage {pid : ℤ} {pageNo : ℕ} {j : Fin nframes} (h : s.PagesOk)
    (h' : s'.PagesOk) (hrun : softTlbMapPage pid pageNo s = .ok j s')
    (hp : p ≠ pid ∨ a / 4096 ≠ pageNo) : s'.window p a = s.window p a := by
  refine Mmu.window_congr_at h h' (mapsPage_mapPage hrun hp) fun i off hi _ => ?_
  obtain ⟨hfree, rfl⟩ := softTlbMapPage_spec hrun
  have hij : i ≠ j := by
    rintro rfl
    exact absurd hi.1.1 (by simp [hfree])
  simp only [Mmu.home, update_of_ne hij]

/-- Writing to the frame of a page of a process does not concern another. -/
theorem Mmu.window_fill {pid : ℤ} {pageNo off : ℕ} {j : Fin nframes} {byte : UInt8}
    (h : s.PagesOk) (hok : TlbOk s (.fill pid pageNo j off byte)) (hp : p ≠ pid) :
    (s.store (pagingRead j + off) byte).window p = s.window p := by
  obtain ⟨hcurr, hj, hoff⟩ := hok
  have hhome : s.home j = pagingRead j := by
    rw [Mmu.home, hj.1.2, if_neg hcurr]
  refine Mmu.window_congr h ⟨h.window, h.unique⟩ (fun _ _ => Iff.rfl) fun v i o hi ho => ?_
  have hij : i ≠ j := fun he => hp (hi.1.2.symm.trans (he ▸ hj.1.2))
  have hd := h.home_disjoint hi.1.1 hj.1.1 hij
  have hoff : off < 4096 := hoff
  have hne : s.home i + o ≠ pagingRead j + off := by omega
  exact update_of_ne hne _ _

/-- Writing to the frame of a page of a process that is not switched in. -/
theorem Mmu.window_fill_self {pid : ℤ} {pageNo off : ℕ} {j : Fin nframes} {byte : UInt8}
    (h : s.PagesOk) (hok : TlbOk s (.fill pid pageNo j off byte)) :
    (s.store (pagingRead j + off) byte).window pid
      = update (s.window pid) (pageNo * 4096 + off) byte := by
  obtain ⟨hcurr, hj, hoff⟩ := hok
  have hoff : off < 4096 := hoff
  have hhome : s.home j = pagingRead j := by
    rw [Mmu.home, hj.1.2, if_neg hcurr]
  have h' : (s.store (pagingRead j + off) byte).PagesOk := ⟨h.window, h.unique⟩
  funext x
  by_cases hx : x = pageNo * 4096 + off
  · have hpage : x / 4096 = pageNo := by omega
    have hmod : x % 4096 = off := by omega
    have hhome' : (s.store (pagingRead j + off) byte).home j = pagingRead j := hhome
    rw [Mmu.window_apply h' (hpage.symm ▸ hj), hhome', hmod, Mmu.store_apply, hx, update_self,
      update_self]
  · rw [update_of_ne hx]
    by_cases hex : ∃ i, s.MapsPage pid (x / 4096) i
    · obtain ⟨i, hi⟩ := hex
      have hlt : x % 4096 < 4096 := Nat.mod_lt _ (by decide)
      -- the byte is in another frame, or elsewhere in this one
      have hne : s.home i + x % 4096 ≠ pagingRead j + off := by
        by_cases hij : i = j
        · have hpage : x / 4096 = pageNo := hi.2.symm.trans ((congrArg (fun i =>
            (s.table i).pageNo) hij).trans hj.2)
          rw [hij, hhome]
          omega
        · have hd := h.home_disjoint hi.1.1 hj.1.1 hij
          omega
      rw [Mmu.window_apply h hi, Mmu.window_apply h' hi, Mmu.store_apply]
      exact update_of_ne hne _ _
    · have hnot : ∀ i, ¬ s.MapsPage pid (x / 4096) i := fun i hi => hex ⟨i, hi⟩
      rw [Mmu.window_of_not_maps hnot]
      exact Mmu.window_of_not_maps hnot

/-! ## The memory system -/

/-- The loader maps a page by `soft_tlb_map` of a frame it has got. -/
theorem tlbStep_mapPage {pid : ℤ} {pageNo : ℕ}
    (hstep : tlbStep s (.mapPage pid pageNo) = some s') :
    ∃ j, softTlbMapPage pid pageNo s = .ok j s' := by
  rw [tlbStep] at hstep
  split at hstep
  · rename_i j t hrun
    cases hstep
    exact ⟨j, hrun⟩
  · cases hstep

/-- With the software TLB every process has a memory of its own. -/
def softTlbMemories : PrivateMemories softTlbSpaces where
  Inv s := s.PagesOk
  Ok s op := TlbOk s op.tlbOp
  Freeable _ := True
  Maps s p a := ∃ i, s.MapsPage p (a / 4096) i
  view := Mmu.window
  inv_switch h := h.switch _
  curr_switch _ := softTlbSwitch_softTlbPid _ _
  maps_switch _ := by
    funext p a
    simp only [softTlbSpaces, Mmu.MapsPage, Mmu.Owns, softTlbSwitch_table]
  view_switch h := Mmu.window_switch h _
  load_eq h hmaps := by
    obtain ⟨i, hi⟩ := hmaps
    have hhome := hi.home_eq h
    exact ((Mmu.window_apply h hi).trans (congrArg _ hhome)).symm
  inv_store h _ := ⟨h.window, h.unique⟩
  curr_store _ _ := rfl
  maps_store _ _ := rfl
  view_store h hmaps := by
    obtain ⟨i, hi⟩ := hmaps
    exact Mmu.window_store h hi _
  inv_free h _ := h.free _
  curr_free _ _ := rfl
  maps_free _ _ hp hmaps := by
    obtain ⟨i, hi⟩ := hmaps
    exact ⟨i, (mapsPage_mmuFree hp _ i).2 hi⟩
  view_free h _ hp := Mmu.window_free h hp
  store_free := rfl
  inv_perform h hok _ hstep := h.tlbStep hok hstep
  curr_perform {s s' op} _ _ _ hstep := by
    cases op with
    | mapPage pid pageNo =>
      obtain ⟨j, hrun⟩ := tlbStep_mapPage hstep
      obtain ⟨-, rfl⟩ := softTlbMapPage_spec hrun
      rfl
    | fill pid pageNo j off byte =>
      cases hstep
      rfl
  maps_perform {s s' op q a} _ _ _ hstep hp hmaps := by
    obtain ⟨i, hi⟩ := hmaps
    cases op with
    | mapPage pid pageNo =>
      obtain ⟨j, hrun⟩ := tlbStep_mapPage hstep
      exact ⟨i, (mapsPage_mapPage hrun (Or.inl hp) i).2 hi⟩
    | fill pid pageNo j off byte =>
      cases hstep
      exact ⟨i, hi⟩
  view_perform {s s' op q} h hok _ hstep hp := by
    have h' : s'.PagesOk := h.tlbStep hok hstep
    cases op with
    | mapPage pid pageNo =>
      obtain ⟨j, hrun⟩ := tlbStep_mapPage hstep
      exact funext fun _ => Mmu.window_mapPage h h' hrun (Or.inl hp)
    | fill pid pageNo j off byte =>
      cases hstep
      exact Mmu.window_fill h hok hp

end Egos.Earth
