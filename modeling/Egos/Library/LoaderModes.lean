import Egos.Earth.TableMemory
import Egos.Earth.WindowMemory
import Egos.Library.PageLoader

/-!
# The loader in both translation modes

With the software TLB the pages of a process are its frames in the frame table. With page tables
they are the frames that its tables point to, which `Spaces.given` keeps track of.
-/

namespace Egos.Library

open Egos.Earth
open Function (update update_self update_of_ne)

/-- `mmu_alloc` and `mmu_map`: the address is that of the frame. -/
theorem mapNext_ok {t : Translation} {pid : ℤ} {v base : ℕ} {s s' : Mmu}
    (h : mapNext t pid v s = .ok base s') :
    ∃ i s₁ base', mmuAlloc s = .ok (i, base') s₁ ∧ mmuMap t pid v i s₁ = .ok () s' ∧
      base = pagingRead i := by
  cases halloc : mmuAlloc s with
  | error e s₁ =>
    simp only [mapNext, bind, EStateM.bind, halloc] at h
    cases h
  | ok r s₁ =>
    have hspec : wp mmuAlloc (fun r _ => r.2 = pagingRead r.1) (fun _ _ => True) s :=
      mmuAlloc_spec (fun _ _ => rfl) fun _ => trivial
    have hr := wp_ok hspec halloc
    simp only [mapNext, bind, EStateM.bind, halloc] at h
    cases hmap : mmuMap t pid v r.1 s₁ with
    | error e s₂ =>
      rw [hmap] at h
      cases h
    | ok _ s₂ =>
      rw [hmap] at h
      cases h
      exact ⟨r.1, s₁, r.2, rfl, hmap, hr⟩

/-! ## The software TLB -/

/-- The loader maps a page, with the software TLB. -/
theorem mapNext_softTlb {pid : ℤ} {v base : ℕ} {s s' : Mmu}
    (h : mapNext .softTlb pid v s = .ok base s') :
    ∃ i, softTlbMapPage pid v s = .ok i s' ∧ base = pagingRead i := by
  obtain ⟨i, s₁, base', halloc, hmap, hbase⟩ := mapNext_ok h
  refine ⟨i, ?_, hbase⟩
  cases hmap
  simp only [softTlbMapPage, bind, EStateM.bind, halloc]
  rfl

/-- The pages of programs lie in the window. -/
theorem windowPage_of_appRange {v : ℕ} (h : AppRange v) : WindowPage v := by
  obtain ⟨hlow, hhigh⟩ := h
  refine ⟨by omega, Or.inl ?_⟩
  change v * 4096 + 4096 ≤ 1074790400
  omega

/-- The loader with the software TLB. -/
def softTlbLoader : PageLoader .softTlb softTlbMemories where
  mmu s := s
  Alive _ _ := True
  Has s pid v base := ∃ i, s.MapsPage pid v i ∧ base = pagingRead i
  Untouched s pid := ∀ i, ¬ s.Owns pid i
  mapped _ _ _ _ m := m
  written _ m := m
  mmu_mapped := rfl
  mmu_written := rfl
  written_self := rfl
  written_written := rfl
  switch := rfl
  maps _ hhas := by
    obtain ⟨i, hi, -⟩ := hhas
    exact ⟨i, hi⟩
  map {s pid v base m'} hs _ _ hv hnone hrun := by
    obtain ⟨i, hpage, hbase⟩ := mapNext_softTlb hrun
    have hstep : tlbStep s (.mapPage pid v) = some m' := by
      rw [tlbStep, hpage]
    have hok : TlbOk s (.mapPage pid v) :=
      ⟨windowPage_of_appRange hv, fun j hj => hnone _ ⟨j, hj, rfl⟩⟩
    refine ⟨.mapPage pid v, m', rfl, ⟨hok, rfl⟩, hstep, trivial, ⟨i, ?_, hbase⟩,
      fun w b hw => exists_congr fun j => and_congr_left fun _ =>
        mapsPage_mapPage hpage (Or.inr hw) j,
      fun a ha => Mmu.window_mapPage hs (hs.tlbStep hok hstep) hpage (Or.inr ha)⟩
    obtain ⟨-, rfl⟩ := softTlbMapPage_spec hpage
    simp only [Mmu.MapsPage, Mmu.Owns, update_self, and_self]
  fill {s pid v base off} byte hs hcurr _ hhas hoff := by
    obtain ⟨i, hi, rfl⟩ := hhas
    have hok : TlbOk s (.fill pid v i off byte) := ⟨Ne.symm hcurr, hi, hoff⟩
    exact ⟨.fill pid v i off byte, _, rfl, ⟨hok, rfl⟩, rfl, trivial, fun _ _ => Iff.rfl,
      Mmu.window_fill_self hs hok⟩
  alive _ := trivial
  has_none _ hnew hhas := by
    obtain ⟨i, hi, -⟩ := hhas
    exact hnew i hi.1
  fresh hnew hcurr := ⟨hnew, hcurr⟩
  alive_switch _ := trivial
  alive_store _ := trivial
  alive_free _ _ := trivial
  has_switch {s p q v b} := by
    simp only [softTlbSpaces, Mmu.MapsPage, Mmu.Owns, softTlbSwitch_table]
  has_store := Iff.rfl
  has_free hq := exists_congr fun i => and_congr_left fun _ => mapsPage_mmuFree (Ne.symm hq) _ i
  untouched_switch {s p q} hnew i hi := by
    apply hnew i
    rwa [Mmu.Owns, softTlbSpaces, softTlbSwitch_table] at hi
  untouched_store hnew := hnew
  untouched_free {s p q} hnew i hi := by
    obtain ⟨huse, hpid⟩ := hi
    simp only [softTlbSpaces, mmuFree] at huse hpid
    split at huse
    · cases huse
    · rename_i hkeep
      rw [if_neg hkeep] at hpid
      exact hnew i ⟨huse, hpid⟩
  untouched_perform {s s' p op} _ _ hstep howner hnew i hi := by
    cases op with
    | mapPage pid v =>
      obtain ⟨j, hrun⟩ := tlbStep_mapPage hstep
      obtain ⟨-, rfl⟩ := softTlbMapPage_spec hrun
      by_cases hij : i = j
      · subst hij
        simp only [Mmu.Owns, update_self] at hi
        exact howner hi.2
      · simp only [Mmu.Owns, update_of_ne hij] at hi
        exact hnew i hi
    | fill =>
      cases hstep
      exact hnew i hi

/-! ## Page tables -/

/-- The loader maps a page, with page tables. -/
theorem mapNext_pageTable {pid : ℤ} {v base : ℕ} {s s' : Mmu}
    (h : mapNext .pageTable pid v s = .ok base s') :
    ∃ i, loadPage pid v s = .ok i s' ∧ base = pagingRead i := by
  obtain ⟨i, s₁, base', halloc, hmap, hbase⟩ := mapNext_ok h
  have hmap : pageTableMap pid v i s₁ = .ok () s' := hmap
  refine ⟨i, ?_, hbase⟩
  simp only [loadPage, bind, EStateM.bind, halloc, hmap]
  rfl

/-- The pages of programs are outside the identity regions of their processes. -/
theorem not_covers_of_appRange {v : ℕ} {pid : ℤ} (hpid : 0 < pid) (h : AppRange v) :
    ¬ Covers (identityRegions pid) v := by
  obtain ⟨hlow, hhigh⟩ := h
  rintro ⟨r, hr, hle, hlt⟩
  have houtside : ∀ r ∈ identityRegions pid,
      r.1 / pageSize + r.2 ≤ 0x40027 ∨ 0x400FC < r.1 / pageSize := by
    rw [identityRegions, if_neg hpid.ne']
    split <;> decide
  have := houtside r hr
  omega

/-- The pages of programs have page numbers. -/
theorem isPage_of_appRange {v : ℕ} (h : AppRange v) : IsPage v := by
  obtain ⟨hlow, hhigh⟩ := h
  refine ⟨by omega, Or.inl ?_⟩
  change v * 4096 / 2 ^ 38 = 0
  omega

/-- The frame at an address. -/
def frameAt (base : ℕ) : Option (Fin nframes) :=
  (List.finRange nframes).find? fun f => pagingRead f = base

/-- The frame at the address of a frame. -/
theorem frameAt_pagingRead (f : Fin nframes) : frameAt (pagingRead f) = some f := by
  unfold frameAt
  cases hfind : (List.finRange nframes).find? fun j => pagingRead j = pagingRead f with
  | none =>
    have hnone := List.find?_eq_none.1 hfind f (List.mem_finRange f)
    exact absurd (decide_eq_true rfl) hnone
  | some j =>
    have hj : pagingRead j = pagingRead f := by simpa using List.find?_some hfind
    rw [pagingRead_eq, pagingRead_eq] at hj
    exact congrArg some (Fin.ext (by omega))

/-- A byte is written to a page that a process has been given. -/
theorem view_fill {m : Spaces} {pid : ℤ} {v off : ℕ} {f : Fin nframes}
    (hf : m.given pid v = some f) (hoff : off < 4096) (byte : UInt8) (h : ∃ g, SpacesOk m g) :
    Spaces.view { m with mmu := m.mmu.store (pagingRead f + off) byte } pid
      = update (m.view pid) (v * 4096 + off) byte := by
  obtain ⟨g, hg⟩ := h
  have hpage : (v * 4096 + off) / 4096 = v := by omega
  have hmod : (v * 4096 + off) % 4096 = off := by omega
  have hview := Spaces.view_store hg (hpage.symm ▸ hf) byte
  rw [hmod] at hview
  exact (congrFun hview pid).trans (update_self _ _ _)

/-- The loader with page tables. -/
def pageTableLoader : PageLoader .pageTable pageTableMemories where
  mmu m := m.mmu
  Alive m pid := 0 < pid ∧ m.freed pid = false
  Has m pid v base := ∃ f, m.given pid v = some f ∧ base = pagingRead f
  Untouched m pid := 0 < pid ∧ m.freed pid = false ∧ m.mmu.pidToPagetableBase pid = 0
  mapped m pid v base s := { m with
    mmu := s
    given := fun q w => if q = pid ∧ w = v then frameAt base else m.given q w }
  written m s := { m with mmu := s }
  mmu_mapped := rfl
  mmu_written := rfl
  written_self := rfl
  written_written := rfl
  switch := rfl
  maps halive hhas := by
    obtain ⟨f, hf, -⟩ := hhas
    exact ⟨halive.2, f, hf⟩
  map {m pid v base m'} h _ halive hv hnone hrun := by
    obtain ⟨f, hpage, rfl⟩ := mapNext_pageTable hrun
    obtain ⟨g, hg⟩ := h.spaces
    have hv' := isPage_of_appRange hv
    refine ⟨.load pid v, { m with
        mmu := m'
        given := fun q w => if q = pid ∧ w = v then some f else m.given q w },
      ?_, ⟨⟨halive.1, halive.2, hv', not_covers_of_appRange halive.1 hv⟩, rfl⟩,
      ?_, halive, ⟨f, ?_, rfl⟩, fun w b hw => ?_, fun a ha => ?_⟩
    · rw [frameAt_pagingRead]
    · change spaceStep m (.load pid v) = _
      rw [spaceStep, hpage]
    · simp only [and_self, if_true]
    · simp only [hw, and_false, if_false]
    · exact Spaces.view_load hg halive.2 hv'.1 hpage (Or.inr ha)
  fill {m pid v base off} byte h _ halive hhas hoff := by
    obtain ⟨f, hf, rfl⟩ := hhas
    refine ⟨.fill pid v off byte, { m with mmu := m.mmu.store (pagingRead f + off) byte },
      rfl, ⟨hoff, rfl⟩, ?_, halive, fun _ _ => Iff.rfl, view_fill hf hoff byte h.spaces⟩
    change spaceStep m (.fill pid v off byte) = _
    rw [spaceStep, hf]
    rfl
  alive hnew := ⟨hnew.1, hnew.2.1⟩
  has_none h hnew hhas := by
    obtain ⟨f, hf, -⟩ := hhas
    obtain ⟨g, hg⟩ := h.spaces
    exact hg.base _ _ f hf hnew.2.2
  fresh hnew hcurr := ⟨hnew.2.2, hcurr⟩
  alive_switch halive := halive
  alive_store {m p a b} halive := by
    simp only [pageTableSpaces]
    split
    · exact halive
    · exact halive
  alive_free {m p q} hq halive := by
    refine ⟨halive.1, ?_⟩
    simp [pageTableSpaces, halive.2, hq.symm]
  has_switch := Iff.rfl
  has_store {m p a byte v b} := by
    simp only [pageTableSpaces]
    split
    · exact Iff.rfl
    · exact Iff.rfl
  has_free _ := Iff.rfl
  untouched_switch {m p q} hnew := by
    refine ⟨hnew.1, hnew.2.1, ?_⟩
    simp only [pageTableSpaces, pageTableSwitch]
    split
    · exact hnew.2.2
    · exact hnew.2.2
  untouched_store {m p a b} hnew := by
    simp only [pageTableSpaces]
    split
    · exact hnew
    · exact hnew
  untouched_free {m p q} hnew := by
    refine ⟨hnew.1, ?_, hnew.2.2⟩
    simp [pageTableSpaces, hnew.2.1, hnew.2.2]
  untouched_perform {m m' p op} h hok hstep howner hnew := by
    obtain ⟨g, hg⟩ := h.spaces
    rcases spaceStep_cases hstep with ⟨pid, v, f, s', rfl, hrun, rfl⟩ |
      ⟨pid, v, off, byte, f, rfl, hf, rfl⟩
    · refine ⟨hnew.1, hnew.2.1, ?_⟩
      rw [← hnew.2.2]
      exact loadPage_bases hg.tables (hg.not_dead hok.2.1) hok.2.2.1.1 hrun p (Ne.symm howner)
    · exact hnew

end Egos.Library
