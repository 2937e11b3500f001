import Egos.Common.Memory
import Egos.Common.Riscv

/-!
# Saving and restoring contexts

The macros of `grass.s`. `CTX_SAVE` makes a frame of 112 bytes on the stack and stores the registers
that a function has to preserve, and the return address, from offset 8 on. `CTX_RESTORE` loads them
back and drops the frame.
-/

namespace Egos.Grass

open Riscv

/-- The registers, and `mepc`. -/
structure Context where
  reg : Reg → BitVec 64
  mepc : BitVec 64

/-- The registers of `CTX_SAVE` and `CTX_RESTORE`, in the order of their slots. -/
def ctxRegs : List Reg := [.s0, .s1, .s2, .s3, .s4, .s5, .s6, .s7, .s8, .s9, .s10, .s11, .ra]

/-- `CTX_SAVE` -/
def ctxSave : List Instr := .addi .sp .sp (-112) :: storeRegs .sp 1 ctxRegs

/-- `CTX_RESTORE` -/
def ctxRestore : List Instr := loadRegs .sp 1 ctxRegs ++ [.addi .sp .sp 112]

/-- The bytes that `CTX_SAVE` stores, from offset 8 of the frame on. -/
def frame (reg : Reg → BitVec 64) (j : ℕ) : UInt8 :=
  .ofBitVec ((run ctxSave ⟨reg, fun _ => 0, fun _ => 0⟩).mem
    (reg .sp - 112 + BitVec.ofNat 64 (8 + j)))

/-- The registers after `CTX_RESTORE` from a frame at `sp`. -/
def ctxRestored (mem : Memory) (sp : BitVec 64) (reg : Reg → BitVec 64) : Reg → BitVec 64 :=
  (run ctxRestore ⟨Function.update reg .sp sp, fun _ => 0, fun a => (mem a.toNat).toBitVec⟩).reg

variable {reg reg' : Reg → BitVec 64} {mem : Memory} {sp : BitVec 64} {r : Reg} {n j : ℕ}

/-- `sp` has no place in the frame. -/
theorem sp_notMem_ctxRegs : Reg.sp ∉ ctxRegs := by decide

/-- Every register has one place in the frame. -/
theorem ctxRegs_nodup : ctxRegs.Nodup := by decide

/-- The bytes of slot `n`. -/
theorem frame_slot (hn : ctxRegs[n]? = some r) (hj : j < 8) :
    frame reg (8 * n + j) = .ofBitVec (byte (reg r) j) := by
  have hlt : n < 13 := (List.getElem?_eq_some_iff.1 hn).1
  have hr : r ≠ .sp := fun he => sp_notMem_ctxRegs (he ▸ List.mem_of_getElem? hn)
  have hsp : reg .sp + -112 = reg .sp - 112 := (BitVec.sub_eq_add_neg _ _).symm
  have hdist : (reg .sp - 112 + BitVec.ofNat 64 (8 + (8 * n + j)) - (reg .sp - 112)).toNat
      = 8 * (n + 1) + j := by
    bv_omega
  have hslot : (8 * (n + 1) + j) / 8 = n + 1 ∧ (8 * (n + 1) + j) % 8 = j := by omega
  rw [frame, ctxSave, run_cons, run_storeRegs_mem ctxRegs 1 _ _ (by decide)]
  simp only [Instr.exec, Hart.setReg_reg, if_true, hsp, hdist, hslot.1, hslot.2,
    Nat.add_sub_cancel, hn]
  rw [if_pos (by omega), if_neg hr]

/-- The frame is taken off the stack. -/
theorem ctxRestored_sp : ctxRestored mem sp reg .sp = sp + 112 := by
  rw [ctxRestored, ctxRestore, run_append, run_cons, run_nil, Instr.exec, Hart.setReg_reg,
    if_pos rfl, run_loadRegs_of_not_mem _ _ sp_notMem_ctxRegs]
  change Function.update reg .sp sp .sp + 112 = sp + 112
  rw [Function.update_self]

/-- Registers are restored from a memory that holds their frame. -/
theorem ctxRestored_frame (hfit : sp.toNat + 112 ≤ 2 ^ 64)
    (hmem : ∀ j, j < 104 → mem (sp.toNat + 8 + j) = frame reg j) (hr : r ∈ ctxRegs) :
    ctxRestored mem sp reg' r = reg r := by
  obtain ⟨n, hn⟩ := List.getElem?_of_mem hr
  have hlt : n < 13 := (List.getElem?_eq_some_iff.1 hn).1
  have hsp : r ≠ .sp := fun he => sp_notMem_ctxRegs (he ▸ hr)
  rw [ctxRestored, ctxRestore, run_append, run_cons, run_nil, Instr.exec, Hart.setReg_reg,
    if_neg hsp, run_loadRegs_of_mem 1 _ sp_notMem_ctxRegs ctxRegs_nodup hn]
  apply load_eq
  intro j hj
  have haddr : (sp + BitVec.ofNat 64 (8 * (1 + n)) + BitVec.ofNat 64 j).toNat
      = sp.toNat + 8 + (8 * n + j) := by
    bv_omega
  simp only [Function.update_self]
  rw [haddr, hmem (8 * n + j) (by omega), frame_slot hn hj]

end Egos.Grass
