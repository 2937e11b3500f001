import Egos.Library.Accounting
import Egos.Library.LoadApp

/-!
# Loading a program

What a new process sees after `elf_load` and `mmu_switch`, with both mechanisms: its segment, zeros
up to `APPS_SIZE`, `argc`, and pointers to its arguments. Loading changes no frame that is in use.
Switching to the process then changes frames of the process switched out only, and only with the
software TLB, which saves the pages of that process to its frames.
-/

namespace Egos.Library

open Egos.Earth

/-! ## Frames in use -/

/-- The frame holds a page that the software TLB has to save. -/
def SwitchedOut (t : Translation) (s : Mmu) (i : Fin nframes) : Prop :=
  t = .softTlb ∧ (s.table i).pid = s.softTlbPid

/-- What loading process `pid` and then switching to it does to the frames that were in use. -/
structure FramesKept (t : Translation) (pid : ℤ) (s s' : Mmu) : Prop where
  loaded : ∀ i, (s.table i).use = true → ∀ o, o < 4096 →
    s'.mem (pagingRead i + o) = s.mem (pagingRead i + o)
  switched : ∀ i, (s.table i).use = true → ¬ SwitchedOut t s i → ∀ o, o < 4096 →
    (mmuSwitch t pid s').mem (pagingRead i + o) = s.mem (pagingRead i + o)
  saved : ∀ i, (s.table i).use = true → SwitchedOut t s i → WindowPage (s.table i).pageNo →
    ∀ o, o < 4096 →
      (mmuSwitch t pid s').mem (pagingRead i + o) = s.mem (pageAddr (s.table i).pageNo + o)

section

variable {t : Translation} {pid : ℤ} {s s' : Mmu} {no : ℕ → ℕ} {n : ℕ} {c : ℕ → Memory}

/-- The second loop of `soft_tlb_switch` does not write to frames. -/
theorem Loading.switch_frame (h : Loading .softTlb pid s no n c s') (hlayout : Loading.Layout no n)
    (hne : pid ≠ s'.softTlbPid) (i : Fin nframes) {o : ℕ} (ho : o < 4096) :
    (softTlbSwitch pid s').mem (pagingRead i + o) = s'.flushed (pagingRead i + o) := by
  rw [softTlbSwitch_mem hne]
  refine Memory.copyAll_of_not_mem fun j _ hj => ?_
  obtain ⟨k, hk, rfl⟩ := h.pages.only j hj
  rw [h.pages.page k hk]
  have hd := (hlayout.window hk).disjoint i
  dsimp only
  omega

/-- The frames of others are kept while a program is loaded. -/
theorem Loading.framesKept (h : Loading t pid s no n c s') (hlayout : Loading.Layout no n)
    (hfresh : Fresh t pid s) (halloc : Allocates t pid s s') : FramesKept t pid s s' := by
  have hloaded : ∀ i, (s.table i).use = true → ∀ o, o < 4096 →
      s'.mem (pagingRead i + o) = s.mem (pagingRead i + o) := fun i hi o ho => h.frame_kept hi ho
  have htable : ∀ i, (s.table i).use = true → s'.table i = s.table i := fun i hi =>
    (halloc i).resolve_right fun hnew => by
      rw [hi] at hnew
      cases hnew.1
  cases t with
  | pageTable =>
    have hmem : (pageTableSwitch pid s').mem = s'.mem := by
      unfold pageTableSwitch
      split <;> rfl
    refine ⟨hloaded, fun i hi _ o ho => ?_, fun i hi hout => nomatch hout.1⟩
    exact (congrFun hmem _).trans (hloaded i hi o ho)
  | softTlb =>
    have hpid : s'.softTlbPid = s.softTlbPid := h.vmPid
    have hne : pid ≠ s'.softTlbPid := fun he => hfresh.2 (hpid.symm.trans he.symm)
    refine ⟨hloaded, fun i hi hout o ho => ?_, fun i hi hout hwin o ho => ?_⟩
    · refine (h.switch_frame hlayout hne i ho).trans (Eq.trans ?_ (hloaded i hi o ho))
      refine Memory.copyAll_of_not_mem fun j _ hj hin => ?_
      have he := InFrame.unique (i := j) hin (inFrame_add i ho)
      rw [he, hpid] at hj
      exact hout ⟨rfl, by rw [← htable i hi]; exact hj.2⟩
    · have howns : s'.Owns s'.softTlbPid i := by
        rw [Mmu.Owns, htable i hi, hpid]
        exact ⟨hi, hout.2⟩
      refine (h.switch_frame hlayout hne i ho).trans ?_
      rw [Mmu.flushed, Memory.copyAll_apply (P := s'.Owns s'.softTlbPid) howns ho
        (fun j _ hj => pagingRead_disjoint (Ne.symm hj)) (fun j _ => ?_) (List.mem_finRange i),
        htable i hi]
      · -- the page is outside the frames, so loading has not changed it
        refine h.mem _ fun j _ hin => ?_
        have hd := hwin.disjoint j
        have hin : pagingRead j ≤ _ ∧ _ < pagingRead j + 4096 := hin
        omega
      · rw [htable i hi]
        exact hwin.disjoint j

end

/-! ## The program -/

/-- What a process is to see: its segment from offset `p_offset` of the file on, zeros, `argc`, and
pointers to its arguments. -/
structure SeesProgram (t : Translation) (file : ℕ → UInt8) (ph : ProgramHeader) (argc : ℕ)
    (argv : Option (ℕ → UInt8)) (s : Mmu) : Prop where
  segment : ∀ k, k < ph.pFilesz → s.sees t (appsEntry + k) = some (file (ph.pOffset + k))
  zeros : ∀ k, ph.pFilesz ≤ k → k < appsSize → s.sees t (appsEntry + k) = some 0
  count : s.seesWord t appsArg 4 = some argc
  arguments : ∀ args, argv = some args → ∀ i, i < argc → ∃ ptr,
    s.seesWord t (appsArg + 4 + 8 * i) 8 = some ptr ∧
      ∀ j, j < cmdArgLen → s.sees t (ptr + j) = some (args (cmdArgLen * i + j))

section

variable {t : Translation} {pid : ℤ} {reader : Reader} {ph : ProgramHeader} {argc : ℕ}
  {argv : Option (ℕ → UInt8)} {s s' : Mmu} {m filesz : ℕ} {image : ℕ → UInt8}

/-- The pages of a program after it has been switched in. -/
def SeesPages (t : Translation) (m : ℕ) (c : ℕ → Memory) (s : Mmu) : Prop :=
  ∀ k, k < m + 2 → ∀ o, o < 4096 → s.sees t (appPage m k * 4096 + o) = some (c k o)

/-- The process sees its segment, with zeros behind it. -/
theorem SeesPages.code (h : SeesPages t m (appContents t s image filesz argc argv m) s')
    {k : ℕ} (hk : k < 4096 * m) :
    s'.sees t (appsEntry + k) = some (if k < filesz then image k else 0) := by
  have hpage := h (k / 4096) (by omega) (k % 4096) (by omega)
  have haddr : appPage m (k / 4096) * 4096 + k % 4096 = appsEntry + k := by
    rw [appPage, if_pos (by omega)]
    change _ = 1073901568 + k
    omega
  rw [haddr, appContents, if_pos (by omega), codePage, Nat.div_add_mod] at hpage
  exact hpage

/-- The process sees its argument page. -/
theorem SeesPages.arg (h : SeesPages t m (appContents t s image filesz argc argv m) s')
    {o : ℕ} (ho : o < 4096) :
    s'.sees t (appsArg + o) = some (argPage argc argv (residue t s m) argc o) := by
  have hpage := h m (by omega) o ho
  have haddr : appPage m m * 4096 + o = appsArg + o := by
    rw [appPage, if_neg (by omega), Nat.sub_self]
    rfl
  rwa [haddr, appContents, if_neg (by omega), if_pos rfl] at hpage

/-- The integer in the first four bytes of the argument page. -/
theorem SeesPages.count (h : SeesPages t m (appContents t s image filesz argc argv m) s')
    (hargc : argc < 256 ^ 4) : s'.seesWord t appsArg 4 = some argc := by
  have hread : (argPage argc argv (residue t s m) argc).readLE 0 4 = argc % 256 ^ 4 := by
    refine Memory.readLE_digits fun j hj => ?_
    rw [Nat.zero_add, argPage, if_pos hj]
  rw [Mmu.seesWord_eq (argPage argc argv (residue t s m) argc) 0 fun j hj => ?_,
    hread, Nat.mod_eq_of_lt hargc]
  rw [h.arg (by omega), Nat.zero_add]

/-- Pointer `i`. -/
theorem SeesPages.pointer (h : SeesPages t m (appContents t s image filesz argc argv m) s')
    (hargc : 4 + 8 * argc ≤ 4096) {i : ℕ} (hi : i < argc) :
    s'.seesWord t (appsArg + 4 + 8 * i) 8 = some (appsArg + 132 + 32 * i) := by
  have hread : (argPage argc argv (residue t s m) argc).readLE (4 + 8 * i) 8
      = (appsArg + 132 + 32 * i) % 256 ^ 8 := by
    refine Memory.readLE_digits fun j hj => ?_
    have hidx : (4 + 8 * i + j - 4) / 8 = i ∧ (4 + 8 * i + j - 4) % 8 = j := by omega
    rw [argPage, if_neg (by omega), if_pos (by omega), hidx.1, hidx.2]
  have hsmall : appsArg + 132 + 32 * i < 256 ^ 8 := by
    change 1074769920 + 132 + 32 * i < _
    omega
  rw [Mmu.seesWord_eq (argPage argc argv (residue t s m) argc) (4 + 8 * i)
    fun j hj => ?_, hread, Nat.mod_eq_of_lt hsmall]
  have haddr : appsArg + 4 + 8 * i + j = appsArg + (4 + 8 * i + j) := by omega
  rw [haddr, h.arg (by omega)]

/-- Byte `j` of argument `i`. -/
theorem SeesPages.argument {args : ℕ → UInt8}
    (h : SeesPages t m (appContents t s image filesz argc (some args) m) s')
    (hargc : argc ≤ 16) {i j : ℕ} (hi : i < argc) (hj : j < 32) :
    s'.sees t (appsArg + 132 + 32 * i + j) = some (args (32 * i + j)) := by
  have haddr : appsArg + 132 + 32 * i + j = appsArg + (132 + 32 * i + j) := by omega
  have hoff : 132 + 32 * i + j - 132 = 32 * i + j := by omega
  rw [haddr, h.arg (by omega), argPage, if_neg (by omega), if_neg (by omega), if_pos (by omega),
    Option.map_some, Option.getD_some, hoff]

end

instance (t : Translation) (pid : ℤ) (s : Mmu) : Decidable (Fresh t pid s) :=
  match t with
  | .softTlb => inferInstanceAs (Decidable ((∀ i, ¬ s.Owns pid i) ∧ _ ≠ _))
  | .pageTable => inferInstanceAs (Decidable (_ = 0 ∧ _ ≠ _))

instance (t : Translation) (pid : ℤ) (s : Mmu) (n : ℕ) : Decidable (Stops t pid s n) :=
  inferInstanceAs (Decidable (_ < _ ∨ (_ ∧ _)))

/-- `elf_load` stops only for want of frames (6 with the software TLB, 12 with page tables) or, with
page tables, because of a pid from 32 on. When it returns, no frame in use has changed, and the
process sees its program once it is switched in. -/
theorem elf_load_program {t : Translation} {pid : ℤ} {reader : Reader} {file : ℕ → UInt8}
    {ph : ProgramHeader} {argc : ℕ} {argv : Option (ℕ → UInt8)} {s : Mmu}
    (himage : AppImage reader ph) (hoffset : ph.pOffset % blockSize = 0)
    (hsize : ph.pFilesz ≤ appsSize)
    (hread : ∀ b, b < blocksFor ph.pFilesz → ∀ j, j < blockSize →
      reader (((ph.pOffset / blockSize + b : ℕ) : ℤ).bmod (2 ^ 32)) j
        = file (blockSize * (ph.pOffset / blockSize + b) + j))
    (hfresh : Fresh t pid s) (hargc : argc ≤ cmdNargs) :
    wp (elfLoad t pid reader argc argv)
      (fun _ s' => SeesProgram t file ph argc argv (mmuSwitch t pid s') ∧ FramesKept t pid s s')
      (fun _ _ => Stops t pid s 6) s := by
  have hargc : argc ≤ 16 := hargc
  have hsize : ph.pFilesz ≤ 16384 := hsize
  have hcode : codePages ph = 4 := by
    unfold codePages pagesFor blocksFor
    omega
  have hspec := elfLoad_spec argv himage hfresh
    (hsize.trans (show 16384 ≤ appsArg - appsEntry by decide))
    (show 132 + 32 * argc ≤ 4096 by omega)
  rw [hcode] at hspec
  refine wp_mono (wp_and hspec ((moves_elfLoad reader argc argv).wp s)) (fun _ s' hs => ?_)
    fun _ _ hs => hs
  obtain ⟨hload, htakes⟩ := hs
  have halloc := htakes.allocates
  have hlayout := layout_appPage (show 4 ≤ 212 by decide)
  have hsees : SeesPages t 4 (appContents t s (segmentByte reader ph) ph.pFilesz argc argv 4)
      (mmuSwitch t pid s') := fun k hk o ho => hload.sees hlayout hfresh hk ho
  refine ⟨⟨fun k hk => ?_, fun k hk hk' => ?_, hsees.count (by omega), fun args hargs i hi => ?_⟩,
    hload.framesKept hlayout hfresh halloc⟩
  · have hbyte := hread (k / 512) (by unfold blocksFor; omega) (k % 512) (Nat.mod_lt _ (by decide))
    have hoff : 512 * (ph.pOffset / 512 + k / 512) + k % 512 = ph.pOffset + k := by
      have hoffset : ph.pOffset % 512 = 0 := hoffset
      omega
    have hbyte : segmentByte reader ph k = file (ph.pOffset + k) := hoff ▸ hbyte
    rw [hsees.code (by omega), if_pos hk, hbyte]
  · have hk' : k < 16384 := hk'
    rw [hsees.code (by omega), if_neg (by omega)]
  · subst hargs
    exact ⟨_, hsees.pointer (by omega) hi, fun j hj => hsees.argument hargc hi hj⟩

/-- The executable of one byte has one program header. -/
theorem appImage_oneByteElf : AppImage oneByteElf ⟨512, appsEntry, 1, 1⟩ where
  only := ⟨0, by decide +kernel, rfl, fun j hj hne => by
    have hone : ePhnum (oneByteElf 0) = 1 := by decide +kernel
    omega⟩
  nonempty := by decide
  vaddr := rfl

/-- At boot, process 5 gets the executable of one byte and one argument. -/
theorem elf_load_program_one_byte :
    ∃ s', elfLoad .pageTable 5 oneByteElf 1 (some fun _ => 65) (Mmu.boot fun _ => 0) = .ok () s' ∧
      (mmuSwitch .pageTable 5 s').seesWord .pageTable appsArg 4 = some 1 := by
  obtain ⟨s, hs⟩ : ∃ s, s = Mmu.boot fun _ => 0 := ⟨_, rfl⟩
  have hfresh : Fresh .pageTable 5 s := by
    rw [hs]
    decide
  have henough : ¬ Stops .pageTable 5 s 6 := by
    rw [hs]
    decide +kernel
  have hread : ∀ b, b < blocksFor 1 → ∀ j, j < blockSize →
      oneByteElf (((512 / blockSize + b : ℕ) : ℤ).bmod (2 ^ 32)) j = 0 := by
    intro b hb j hj
    obtain rfl : b = 0 := by
      have hb : b < 1 := hb
      omega
    rfl
  have hload : wp (elfLoad .pageTable 5 oneByteElf 1 (some fun _ => 65)) (fun _ s' =>
      SeesProgram .pageTable (fun _ => 0) ⟨512, appsEntry, 1, 1⟩ 1 (some fun _ => 65)
        (mmuSwitch .pageTable 5 s') ∧ FramesKept .pageTable 5 s s')
      (fun _ _ => Stops .pageTable 5 s 6) s :=
    elf_load_program appImage_oneByteElf (by decide) (by decide) hread hfresh (by decide)
  rw [← hs]
  obtain ⟨⟨⟩, s', hrun, hprogram, -⟩ :=
    wp_returns (wp_mono hload (fun _ _ h => h) fun _ _ h => henough h)
  exact ⟨s', hrun, hprogram.count⟩

/-- With the software TLB, switching to the new process changes frame 0, which belongs to the
process switched out: its store to its page is saved there. -/
theorem switch_changes_frame :
    ∃ s s', Fresh .softTlb 2 s ∧ s.Owns 1 0 ∧
      elfLoad .softTlb 2 oneByteElf 0 none s = .ok () s' ∧
      (mmuSwitch .softTlb 2 s').mem (pagingRead 0) ≠ s.mem (pagingRead 0) := by
  have hrun : wp (elfLoad .softTlb 1 oneByteElf 0 none) (fun _ s₁ =>
      Fresh .softTlb 2 ((softTlbSwitch 1 s₁).store appsEntry 7) ∧
      ((softTlbSwitch 1 s₁).store appsEntry 7).Owns 1 0 ∧
      wp (elfLoad .softTlb 2 oneByteElf 0 none) (fun _ s' =>
        (mmuSwitch .softTlb 2 s').mem (pagingRead 0)
          ≠ ((softTlbSwitch 1 s₁).store appsEntry 7).mem (pagingRead 0))
        (fun _ _ => False) ((softTlbSwitch 1 s₁).store appsEntry 7))
      (fun _ _ => False) (Mmu.boot fun _ => 0) := by decide +kernel
  obtain ⟨⟨⟩, s₁, -, hfresh, howns, hload⟩ := wp_returns hrun
  obtain ⟨⟨⟩, s', hs', hne⟩ := wp_returns hload
  exact ⟨_, s', hfresh, howns, hs', hne⟩

end Egos.Library
