import Egos.Library.ProgramLoading

/-!
# What a new process can learn

Two loads of one program from states that differ in free frames only. The code pages are written in
full, but of the argument page only `argc`, the pointers and the arguments, and of the stack page
nothing: there the new process sees what the frames held before. So its pages are the same in both
loads exactly when the two frames that they get agree on the bytes that are not written.
-/

namespace Egos.Library

open Egos.Earth
open Function (update update_self update_of_ne)

/-- Two states that differ in the contents of frames not in use only. -/
structure SameButFree (s₁ s₂ : Mmu) : Prop where
  mmu : s₂ = { s₁ with mem := s₂.mem }
  mem : ∀ a, (∀ i, (s₁.table i).use = false → ¬ InFrame i a) → s₂.mem a = s₁.mem a

/-- Two loads of a program with `m` code pages end alike: in the same contents of every page that
the process sees, or both in `FATAL`. -/
def SamePages (t : Translation) (pid : ℤ) (m : ℕ) :
    EStateM.Result String Mmu Unit → EStateM.Result String Mmu Unit → Prop
  | .ok _ s₁, .ok _ s₂ => ∀ k, k < m + 2 → ∀ o, o < 4096 →
      (mmuSwitch t pid s₁).sees t (appPage m k * 4096 + o)
        = (mmuSwitch t pid s₂).sees t (appPage m k * 4096 + o)
  | .error _ _, .error _ _ => True
  | _, _ => False

/-- The loader writes byte `o` of the argument page. -/
def WritesArg (argc : ℕ) (argv : Option (ℕ → UInt8)) (o : ℕ) : Prop :=
  o < 4 + 8 * argc ∨ (argv.isSome ∧ 132 ≤ o ∧ o < 132 + 32 * argc)

/-- The frames that the argument page and the stack page get agree on the bytes that the loader does
not write. -/
structure ResidueAgrees (t : Translation) (argc : ℕ) (argv : Option (ℕ → UInt8)) (m : ℕ)
    (s₁ s₂ : Mmu) : Prop where
  arg : ∀ o, o < 4096 → ¬ WritesArg argc argv o → residue t s₁ m o = residue t s₂ m o
  stack : ∀ o, o < 4096 → residue t s₁ (m + 1) o = residue t s₂ (m + 1) o

section

variable {t : Translation} {pid : ℤ} {argc : ℕ} {argv : Option (ℕ → UInt8)} {s₁ s₂ : Mmu}

/-- The same frames are free. -/
theorem SameButFree.freeFrames (h : SameButFree s₁ s₂) : s₂.freeFrames = s₁.freeFrames := by
  rw [h.mmu]
  rfl

/-- A pid that is fresh in one is fresh in the other. -/
theorem SameButFree.fresh (h : SameButFree s₁ s₂) (hfresh : Fresh t pid s₁) : Fresh t pid s₂ := by
  rw [h.mmu]
  cases t <;> exact hfresh

/-- The loader stops in both or in neither. -/
theorem SameButFree.stops_iff (h : SameButFree s₁ s₂) {n : ℕ} :
    Stops t pid s₂ n ↔ Stops t pid s₁ n := by
  rw [Stops, Stops, h.freeFrames]

/-- A byte of the argument page does not depend on what was there before when it is written, and is
what was there otherwise. -/
theorem argPage_written {old old' : Memory} {o : ℕ} (h : WritesArg argc argv o) :
    argPage argc argv old argc o = argPage argc argv old' argc o := by
  unfold argPage
  split
  · rfl
  split
  · rfl
  rename_i hptr
  obtain ⟨hsome, hin⟩ := h.resolve_left hptr
  obtain ⟨args, rfl⟩ := Option.isSome_iff_exists.1 hsome
  rw [if_pos hin, if_pos hin]
  rfl

/-- Bytes that are not written are what they were. -/
theorem argPage_left {old : Memory} {o : ℕ} (h : ¬ WritesArg argc argv o) :
    argPage argc argv old argc o = old o := by
  obtain ⟨hptr, harg⟩ := not_or.1 h
  unfold argPage
  rw [if_neg (by omega), if_neg hptr]
  split
  · rename_i hin
    cases argv with
    | none => rfl
    | some args => exact absurd ⟨rfl, hin⟩ harg
  · rfl

/-- The pages of a program agree exactly when what is left of the old contents does. -/
theorem appContents_agree_iff (image : ℕ → UInt8) (filesz : ℕ) {m : ℕ} :
    (∀ k, k < m + 2 → ∀ o, o < 4096 → appContents t s₁ image filesz argc argv m k o
      = appContents t s₂ image filesz argc argv m k o) ↔ ResidueAgrees t argc argv m s₁ s₂ := by
  unfold appContents
  constructor
  · intro h
    refine ⟨fun o ho hleft => ?_, fun o ho => ?_⟩
    · have harg := h m (by omega) o ho
      rwa [if_neg (by omega), if_pos rfl, if_neg (by omega), if_pos rfl, argPage_left hleft,
        argPage_left hleft] at harg
    · have hstack := h (m + 1) (by omega) o ho
      rwa [if_neg (by omega), if_neg (by omega), if_neg (by omega), if_neg (by omega)] at hstack
  · intro h k hk o ho
    split
    · rfl
    split
    · rename_i hkm
      subst hkm
      by_cases hw : WritesArg argc argv o
      · exact argPage_written hw
      · rw [argPage_left hw, argPage_left hw, h.arg o ho hw]
    · obtain rfl : k = m + 1 := by omega
      exact h.stack o ho

end

/-- The pages of a new process do not depend on what the free frames held if and only if `elf_load`
stops, or the frames of its argument page and its stack page agree on the bytes that are not
written. -/
theorem new_process_pages_iff {t : Translation} {pid : ℤ} {reader : Reader} {ph : ProgramHeader}
    {argc : ℕ} {argv : Option (ℕ → UInt8)} {s₁ s₂ : Mmu} (himage : AppImage reader ph)
    (hsize : ph.pFilesz ≤ appsArg - appsEntry) (hargc : 132 + 32 * argc ≤ 4096)
    (hfresh : Fresh t pid s₁) (hsame : SameButFree s₁ s₂) :
    SamePages t pid (codePages ph) (elfLoad t pid reader argc argv s₁)
        (elfLoad t pid reader argc argv s₂) ↔
      Stops t pid s₁ (codePages ph + 2) ∨ ResidueAgrees t argc argv (codePages ph) s₁ s₂ := by
  have hfresh' := hsame.fresh hfresh
  have hspec₁ := elfLoad_spec argv himage hfresh hsize hargc
  have hspec₂ := elfLoad_spec argv himage hfresh' hsize hargc
  have hlayout := layout_appPage (codePages_le hsize)
  generalize codePages ph = m at *
  cases hrun₁ : elfLoad t pid reader argc argv s₁ with
  | error e₁ s₁' =>
    have hstops := wp_error hspec₁ hrun₁
    cases hrun₂ : elfLoad t pid reader argc argv s₂ with
    | error e₂ s₂' => exact ⟨fun _ => Or.inl hstops, fun _ => trivial⟩
    | ok a₂ s₂' =>
      have hload := wp_ok hspec₂ hrun₂
      exact absurd (hsame.stops_iff.2 hstops) (hload.not_stops (by omega))
  | ok a₁ s₁' =>
    have hload₁ := wp_ok hspec₁ hrun₁
    have hgo := hload₁.not_stops (by omega)
    cases hrun₂ : elfLoad t pid reader argc argv s₂ with
    | error e₂ s₂' =>
      have hstops := wp_error hspec₂ hrun₂
      exact absurd (hsame.stops_iff.1 hstops) hgo
    | ok a₂ s₂' =>
      have hload₂ := wp_ok hspec₂ hrun₂
      rw [or_iff_right hgo, ← appContents_agree_iff (segmentByte reader ph) ph.pFilesz]
      refine forall_congr' fun k => forall_congr' fun hk => forall_congr' fun o =>
        forall_congr' fun ho => ?_
      rw [hload₁.sees hlayout hfresh hk ho, hload₂.sees hlayout hfresh' hk ho, Option.some_inj]

/-- A memory that is zero but for the first byte of frame `i`. -/
def oneByteAt (i : Fin nframes) (x : UInt8) : Memory := update (fun _ => 0) (pagingRead i) x

/-- All other bytes are null. -/
theorem oneByteAt_of_ne {i : Fin nframes} {x : UInt8} {a : ℕ} (h : a ≠ pagingRead i) :
    oneByteAt i x a = 0 := update_of_ne h _ _

/-- What is in a free frame does not matter to the rest. -/
theorem sameButFree_boot (i : Fin nframes) (x y : UInt8) :
    SameButFree (Mmu.boot (oneByteAt i x)) (Mmu.boot (oneByteAt i y)) where
  mmu := rfl
  mem a ha := by
    have hne : a ≠ pagingRead i := fun he => ha i rfl (he ▸ inFrame_add i (Nat.zero_lt_succ 4095))
    exact (oneByteAt_of_ne hne).trans (oneByteAt_of_ne hne).symm

/-- What is in frame 200 does not matter to the first process. -/
theorem new_process_pages_boot :
    SamePages .softTlb 5 4 (elfLoad .softTlb 5 oneByteElf 0 none (Mmu.boot (oneByteAt 200 0)))
      (elfLoad .softTlb 5 oneByteElf 0 none (Mmu.boot (oneByteAt 200 7))) := by
  have hfresh : Fresh .softTlb 5 (Mmu.boot (oneByteAt 200 0)) := by decide +kernel
  have hzero : ∀ k, k = 4 ∨ k = 5 → ∀ x o, o < 4096 →
      residue .softTlb (Mmu.boot (oneByteAt 200 x)) k o = 0 := by
    intro k hk x o ho
    have hframe : frameOf .softTlb (Mmu.boot (oneByteAt 200 x)) k ≠ 200 := by
      rcases hk with rfl | rfl <;> exact of_decide_eq_false rfl
    have hd := pagingRead_disjoint hframe
    have hne : pagingRead (frameOf .softTlb (Mmu.boot (oneByteAt 200 x)) k) + o
        ≠ pagingRead 200 := by omega
    have hbyte : oneByteAt 200 x _ = 0 := oneByteAt_of_ne hne
    exact hbyte
  have hcode : codePages ⟨512, appsEntry, 1, 1⟩ = 4 := rfl
  have hiff : SamePages .softTlb 5 _ (elfLoad .softTlb 5 oneByteElf 0 none _)
      (elfLoad .softTlb 5 oneByteElf 0 none _) ↔ _ :=
    new_process_pages_iff appImage_oneByteElf (by decide) (by decide) hfresh
      (sameButFree_boot 200 0 7)
  rw [hcode] at hiff
  refine hiff.2 (Or.inr ⟨fun o ho _ => ?_, fun o ho => ?_⟩)
  · exact (hzero 4 (Or.inl rfl) 0 o ho).trans (hzero 4 (Or.inl rfl) 7 o ho).symm
  · exact (hzero 5 (Or.inr rfl) 0 o ho).trans (hzero 5 (Or.inr rfl) 7 o ho).symm

/-- The first process sees on its stack page what frame 5 held. -/
theorem stack_page_leaks :
    ∃ s₁ s₂ : Mmu, SameButFree s₁ s₂ ∧ Fresh .softTlb 5 s₁ ∧ ∃ s₁' s₂',
      elfLoad .softTlb 5 oneByteElf 0 none s₁ = .ok () s₁' ∧
      elfLoad .softTlb 5 oneByteElf 0 none s₂ = .ok () s₂' ∧
      (mmuSwitch .softTlb 5 s₁').sees .softTlb 0x400FC000
        ≠ (mmuSwitch .softTlb 5 s₂').sees .softTlb 0x400FC000 := by
  have hrun : ∀ x : Bool, wp (elfLoad .softTlb 5 oneByteElf 0 none) (fun _ s' =>
      (mmuSwitch .softTlb 5 s').sees .softTlb 0x400FC000 = some (if x then 7 else 0))
      (fun _ _ => False) (Mmu.boot (oneByteAt 5 (if x then 7 else 0))) := by decide +kernel
  obtain ⟨⟨⟩, s₁', hs₁, hsees₁⟩ := wp_returns (hrun false)
  obtain ⟨⟨⟩, s₂', hs₂, hsees₂⟩ := wp_returns (hrun true)
  refine ⟨_, _, sameButFree_boot 5 _ _, by decide +kernel, s₁', s₂', hs₁, hs₂, ?_⟩
  rw [hsees₁, hsees₂]
  decide

end Egos.Library
