import Egos.Grass.Privilege
import Egos.Library.ProgramLoading

/-!
# Entering a program

How `argc` and `argv` get from the argument page to `main`: `proc_yield` passes the addresses of
both fields in `a0` and `a1`, and `app_enter` loads `argc` from the first. It loads a doubleword,
though `argc` has four bytes: the upper half of `a0` is what follows `argc` on the page, which is
the lower half of the first pointer or, without arguments, what the frame of the page held before.
-/

namespace Egos.Apps

open Egos.Earth Egos.Library Egos.Riscv

/-! ## From the kernel to `main` -/

/-- The memory that code of the process reads; addresses that it cannot read do not matter. -/
def processMem (t : Translation) (s : Mmu) : BitVec 64 → BitVec 8 :=
  fun a => ((s.sees t a.toNat).getD 0).toBitVec

/-- `proc_yield` prepares `argc` and `argv`. -/
def prepareArgs : List Instr :=
  [.li .a0 (BitVec.ofNat 64 appsArg), .li .a1 (BitVec.ofNat 64 (appsArg + 4))]

/-- `app_enter` up to `call main`. -/
def appEnter : List Instr := [.ld .a0 0 .a0, .li .sp 0x400FCFF0]

/-- The hart when `main` is called: `proc_yield` switches to the process, sets the registers and
enters the program, whose first code is `app_enter`. The other statements of `proc_yield` are taken
to leave `a0` and `a1` alone. -/
def callMain (t : Translation) (pid : ℤ) (hart : Hart) (s : Mmu) : Hart :=
  run appEnter (Grass.enterApp (run prepareArgs
    { hart with mem := processMem t (mmuSwitch t pid s) }) pid)

/-- `a1` has the address of an array of pointers to the arguments. -/
structure PassesArgv (argc : ℕ) (argv : Option (ℕ → UInt8)) (h : Hart) : Prop where
  a1 : h.reg .a1 = BitVec.ofNat 64 (appsArg + 4)
  pointers : ∀ i, i < argc → load h.mem (h.reg .a1 + BitVec.ofNat 64 (8 * i))
    = BitVec.ofNat 64 (appsArg + 132 + 32 * i)
  arguments : ∀ args, argv = some args → ∀ i, i < argc → ∀ j, j < cmdArgLen →
    h.mem (BitVec.ofNat 64 (appsArg + 132 + 32 * i + j)) = (args (cmdArgLen * i + j)).toBitVec

/-! ## What is on the page -/

section

variable {t : Translation} {pid : ℤ} {argc : ℕ} {argv : Option (ℕ → UInt8)} {s s' : Mmu} {m : ℕ}
  {image : ℕ → UInt8} {filesz : ℕ} {hart : Hart}

theorem callMain_mem : (callMain t pid hart s').mem = processMem t (mmuSwitch t pid s') := rfl

/-- `main` gets the address of the pointers. -/
theorem callMain_a1 : (callMain t pid hart s').reg .a1 = BitVec.ofNat 64 (appsArg + 4) := rfl

/-- `main` gets eight bytes of the argument page, where there are four of `argc`. -/
theorem callMain_a0 : (callMain t pid hart s').reg .a0
    = load (processMem t (mmuSwitch t pid s')) (BitVec.ofNat 64 appsArg) := by
  have hzero : BitVec.ofNat 64 appsArg + 0 = BitVec.ofNat 64 appsArg := by decide
  rw [← hzero]
  rfl

/-- The bytes of the argument page. -/
theorem processMem_arg
    (h : SeesPages t m (appContents t s image filesz argc argv m) (mmuSwitch t pid s')) {o : ℕ}
    (ho : o < 4096) : processMem t (mmuSwitch t pid s') (BitVec.ofNat 64 (appsArg + o))
      = (argPage argc argv (residue t s m) argc o).toBitVec := by
  have haddr : (BitVec.ofNat 64 (appsArg + o)).toNat = appsArg + o := by
    rw [BitVec.toNat_ofNat]
    refine Nat.mod_eq_of_lt ?_
    change 1074769920 + o < _
    omega
  rw [processMem, haddr, h.arg ho]
  rfl

/-- The pointers that `main` gets are those to the arguments. -/
theorem passesArgv
    (h : SeesPages t m (appContents t s image filesz argc argv m) (mmuSwitch t pid s'))
    (hargc : argc ≤ 16) : PassesArgv argc argv (callMain t pid hart s') where
  a1 := callMain_a1
  pointers i hi := by
    rw [callMain_a1, callMain_mem]
    refine load_eq fun j hj => ?_
    have haddr : BitVec.ofNat 64 (appsArg + 4) + BitVec.ofNat 64 (8 * i) + BitVec.ofNat 64 j
        = BitVec.ofNat 64 (appsArg + (4 + 8 * i + j)) := by
      rw [← BitVec.ofNat_add, ← BitVec.ofNat_add]
      congr 1
      omega
    have hidx : (4 + 8 * i + j - 4) / 8 = i ∧ (4 + 8 * i + j - 4) % 8 = j := by omega
    have hsmall : appsArg + 132 + 32 * i < 2 ^ 64 := by
      change 1074769920 + 132 + 32 * i < _
      omega
    rw [haddr, processMem_arg h (by omega), byte_ofNat hsmall, argPage, if_neg (by omega),
      if_pos (by omega), hidx.1, hidx.2]
    rfl
  arguments args hargs i hi j hj := by
    subst hargs
    have hj : j < 32 := hj
    have haddr : appsArg + 132 + 32 * i + j = appsArg + (132 + 32 * i + j) := by omega
    have hoff : 132 + 32 * i + j - 132 = 32 * i + j := by omega
    rw [callMain_mem, haddr, processMem_arg h (by omega), argPage, if_neg (by omega),
      if_neg (by omega), if_pos (by omega), Option.map_some, Option.getD_some, hoff]

/-- The doubleword at the start of the page is `argc` exactly when the four bytes after it are
null. -/
theorem callMain_a0_iff
    (h : SeesPages t m (appContents t s image filesz argc argv m) (mmuSwitch t pid s'))
    (hargc : argc ≤ 16) :
    (callMain t pid hart s').reg .a0 = (BitVec.ofNat 32 argc).signExtend 64 ↔
      ∀ j, 4 ≤ j → j < 8 → argPage argc argv (residue t s m) argc j = 0 := by
  have hsign : ∀ n, n < 17 → (BitVec.ofNat 32 n).signExtend 64 = BitVec.ofNat 64 n := by decide
  have hbyte : ∀ j, j < 8 →
      processMem t (mmuSwitch t pid s') (BitVec.ofNat 64 appsArg + BitVec.ofNat 64 j)
        = (argPage argc argv (residue t s m) argc j).toBitVec := fun j hj => by
    rw [← BitVec.ofNat_add, processMem_arg h (by omega)]
  -- the bytes of `argc` as a doubleword
  have hargcByte : ∀ j, 4 ≤ j → j < 8 → byte (BitVec.ofNat 64 argc) j = 0 := fun j hj hj' => by
    have hdiv : argc / 256 ^ j = 0 :=
      Nat.div_eq_of_lt (hargc.trans_lt (lt_of_lt_of_le (by decide) (Nat.pow_le_pow_right
        (by decide) hj)))
    rw [byte_ofNat (by omega), hdiv]
    rfl
  rw [callMain_a0, hsign argc (by omega)]
  constructor
  · intro ha0 j hj hj'
    have hb := byte_load (processMem t (mmuSwitch t pid s')) (BitVec.ofNat 64 appsArg) hj'
    rw [ha0, hargcByte j hj hj', hbyte j hj'] at hb
    exact UInt8.toBitVec_inj.1 hb.symm
  · intro hnull
    refine load_eq fun j hj => ?_
    rw [hbyte j hj]
    by_cases hj4 : j < 4
    · rw [byte_ofNat (by omega), argPage, if_pos hj4]
      rfl
    · rw [hnull j (by omega) hj, hargcByte j (by omega) hj]
      rfl

end

/-- The four bytes after `argc` are null only without arguments, and when they were before. -/
theorem argPage_null_iff {argc : ℕ} {argv : Option (ℕ → UInt8)} {old : Memory} :
    (∀ j, 4 ≤ j → j < 8 → argPage argc argv old argc j = 0) ↔
      argc = 0 ∧ ∀ j, 4 ≤ j → j < 8 → old j = 0 := by
  constructor
  · intro h
    have hzero : argc = 0 := by
      by_contra hne
      -- byte 3 of the first pointer is `0x40`
      have hbyte := h 7 (by decide) (by decide)
      rw [argPage, if_neg (by decide), if_pos (by omega)] at hbyte
      revert hbyte
      decide
    refine ⟨hzero, fun j hj hj' => ?_⟩
    have hj0 := h j hj hj'
    rwa [hzero, argPage, if_neg (by omega), if_neg (by omega), if_neg (by omega)] at hj0
  · rintro ⟨rfl, hold⟩ j hj hj'
    rw [argPage, if_neg (by omega), if_neg (by omega), if_neg (by omega), hold j hj hj']

/-- `main` always gets the pointers, but it gets `argc` in `a0` only if there are no arguments and
the bytes 4 to 7 of the frame of its argument page were null before the program was loaded. -/
theorem main_registers_iff {t : Translation} {pid : ℤ} {reader : Reader} {ph : ProgramHeader}
    {argc : ℕ} {argv : Option (ℕ → UInt8)} {s : Mmu} (hart : Hart) (hfresh : Fresh t pid s)
    (hsize : ph.pFilesz ≤ appsArg - appsEntry) (hargc : argc ≤ cmdNargs) :
    wp (loadApp t pid reader argc argv ph)
      (fun _ s' => PassesArgv argc argv (callMain t pid hart s') ∧
        ((callMain t pid hart s').reg .a0 = (BitVec.ofNat 32 argc).signExtend 64 ↔
          argc = 0 ∧ ∀ j, 4 ≤ j → j < 8 → residue t s (codePages ph) j = 0))
      (fun _ _ => Stops t pid s (codePages ph + 2)) s := by
  have hargc : argc ≤ 16 := hargc
  refine wp_mono (loadApp_segment argv hfresh hsize (by omega)) (fun _ s' hload => ?_)
    fun _ _ hs => hs
  have hsees : SeesPages t (codePages ph) _ (mmuSwitch t pid s') := fun k hk o ho =>
    hload.sees (layout_appPage (codePages_le hsize)) hfresh hk ho
  exact ⟨passesArgv hsees hargc, (callMain_a0_iff hsees hargc).trans argPage_null_iff⟩

/-- Over a memory of zeros, `main` of the first process gets `argc` if it is 0. -/
theorem main_registers_boot :
    wp (loadApp .softTlb 5 oneByteElf 0 none ⟨512, appsEntry, 1, 1⟩)
      (fun _ s' => (callMain .softTlb 5 ⟨fun _ => 0, fun _ => 0, fun _ => 0⟩ s').reg .a0 = 0)
      (fun _ _ => False) (Mmu.boot fun _ => 0) := by
  obtain ⟨s, hs⟩ : ∃ s, s = Mmu.boot fun _ => 0 := ⟨_, rfl⟩
  have hfresh : Fresh .softTlb 5 s := by
    rw [hs]
    decide +kernel
  have hstops : ¬Stops .softTlb 5 s (codePages ⟨512, appsEntry, 1, 1⟩ + 2) := by
    rw [hs]
    decide +kernel
  have hnull : ∀ j, residue .softTlb s (codePages ⟨512, appsEntry, 1, 1⟩) j = 0 := by
    rw [hs]
    exact fun _ => rfl
  rw [← hs]
  have hmain := @main_registers_iff .softTlb 5 oneByteElf ⟨512, appsEntry, 1, 1⟩ 0 none s
    ⟨fun _ => 0, fun _ => 0, fun _ => 0⟩ hfresh (by decide) (by decide)
  exact wp_mono hmain (fun _ _ h => h.2.2 ⟨rfl, fun j _ _ => hnull j⟩) fun _ _ h => hstops h

/-- With one argument, the upper half of `a0` is the lower half of its address. -/
theorem main_argc_wrong :
    ∃ s s' : Mmu, Fresh .softTlb 5 s ∧
      loadApp .softTlb 5 oneByteElf 1 (some fun _ => 65) ⟨512, appsEntry, 1, 1⟩ s = .ok () s' ∧
      ∀ hart, (callMain .softTlb 5 hart s').reg .a0 = 0x400FB08400000001 := by
  have hrun : wp (loadApp .softTlb 5 oneByteElf 1 (some fun _ => 65) ⟨512, appsEntry, 1, 1⟩)
      (fun _ s' => load (processMem .softTlb (mmuSwitch .softTlb 5 s')) (BitVec.ofNat 64 appsArg)
        = 0x400FB08400000001) (fun _ _ => False) (Mmu.boot fun _ => 0) := by decide +kernel
  obtain ⟨⟨⟩, s', hs', hload⟩ := wp_returns hrun
  exact ⟨_, s', by decide +kernel, hs', fun _ => callMain_a0.trans hload⟩

end Egos.Apps
