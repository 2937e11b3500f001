import Mathlib.Data.BitVec
import Mathlib.Data.List.Nodup
import Mathlib.Tactic.Common
import Mathlib.Tactic.IntervalCases

/-!
# A fragment of RV64

The instructions that save and restore registers on a stack and that edit control and status
registers. A hart has its integer registers, two control and status registers and a memory of bytes;
addresses wrap around at 64 bits. Code without jumps is a list of instructions.
-/

namespace Egos.Riscv

/-- The integer registers but `zero`, by their names in the calling convention. -/
inductive Reg
  | ra | sp | gp | tp
  | t0 | t1 | t2 | t3 | t4 | t5 | t6
  | s0 | s1 | s2 | s3 | s4 | s5 | s6 | s7 | s8 | s9 | s10 | s11
  | a0 | a1 | a2 | a3 | a4 | a5 | a6 | a7
deriving DecidableEq

/-- Control and status registers. -/
inductive Csr
  | mstatus
  | mscratch
deriving DecidableEq

/-- Registers and memory. -/
structure Hart where
  reg : Reg → BitVec 64
  csr : Csr → BitVec 64
  mem : BitVec 64 → BitVec 8

/-! ## Doublewords -/

/-- Byte `j` of a doubleword. -/
def byte (v : BitVec 64) (j : ℕ) : BitVec 8 := v.extractLsb' (8 * j) 8

/-- The little-endian doubleword at an address. -/
def load (mem : BitVec 64 → BitVec 8) (a : BitVec 64) : BitVec 64 :=
  mem (a + 7) ++ mem (a + 6) ++ mem (a + 5) ++ mem (a + 4) ++ mem (a + 3) ++ mem (a + 2)
    ++ mem (a + 1) ++ mem a

/-- Store a doubleword at an address. -/
def store (mem : BitVec 64 → BitVec 8) (a v : BitVec 64) : BitVec 64 → BitVec 8 := fun x =>
  if (x - a).toNat < 8 then byte v (x - a).toNat else mem x

/-- The bytes of a double word that is loaded are those in memory. -/
theorem byte_load (mem : BitVec 64 → BitVec 8) (a : BitVec 64) {j : ℕ} (hj : j < 8) :
    byte (load mem a) j = mem (a + BitVec.ofNat 64 j) := by
  apply BitVec.eq_of_getLsbD_eq
  intro i hi
  rw [byte, BitVec.getLsbD_extractLsb', decide_eq_true hi, Bool.true_and]
  simp only [load, BitVec.getLsbD_append]
  interval_cases j <;> simp <;> grind

/-- Doublewords with the same bytes are equal. -/
theorem eq_of_byte {v w : BitVec 64} (h : ∀ j, j < 8 → byte v j = byte w j) : v = w := by
  ext i hi
  have hbyte := congrArg (fun b => b.getLsbD (i % 8)) (h (i / 8) (by omega))
  have hsplit : 8 * (i / 8) + i % 8 = i := by omega
  have hmod : i % 8 < 8 := by omega
  simpa [byte, hsplit, hmod, hi] using hbyte

/-- The bytes of a number. -/
theorem byte_ofNat {w j : ℕ} (hw : w < 2 ^ 64) :
    byte (BitVec.ofNat 64 w) j = BitVec.ofNat 8 (w / 256 ^ j) := by
  refine BitVec.eq_of_toNat_eq ?_
  have hpow : (256 : ℕ) ^ j = 2 ^ (8 * j) := by
    rw [Nat.pow_mul]
  rw [byte, BitVec.extractLsb'_toNat, BitVec.toNat_ofNat, Nat.mod_eq_of_lt hw,
    Nat.shiftRight_eq_div_pow, ← hpow, BitVec.toNat_ofNat]

/-- A memory that holds the bytes of a doubleword holds the doubleword. -/
theorem load_eq {mem : BitVec 64 → BitVec 8} {a v : BitVec 64}
    (h : ∀ j, j < 8 → mem (a + BitVec.ofNat 64 j) = byte v j) : load mem a = v :=
  eq_of_byte fun j hj => (byte_load mem a hj).trans (h j hj)

/-! ## Instructions -/

namespace Hart

/-- Write a register. -/
def setReg (h : Hart) (r : Reg) (v : BitVec 64) : Hart :=
  { h with reg := Function.update h.reg r v }

/-- Write a control and status register. -/
def setCsr (h : Hart) (c : Csr) (v : BitVec 64) : Hart :=
  { h with csr := Function.update h.csr c v }

variable (h : Hart) (r r' : Reg) (c c' : Csr) (v : BitVec 64)

/-- Writing a register leaves the control and status registers. -/
@[simp] theorem setReg_csr : (h.setReg r v).csr = h.csr := rfl
/-- It leaves memory. -/
@[simp] theorem setReg_mem : (h.setReg r v).mem = h.mem := rfl
/-- Writing a control and status register leaves the registers. -/
@[simp] theorem setCsr_reg : (h.setCsr c v).reg = h.reg := rfl
/-- It leaves memory. -/
@[simp] theorem setCsr_mem : (h.setCsr c v).mem = h.mem := rfl

/-- The registers after one is written. -/
@[simp] theorem setReg_reg : (h.setReg r v).reg r' = if r' = r then v else h.reg r' :=
  Function.update_apply ..

/-- The control and status registers after one is written. -/
@[simp] theorem setCsr_csr : (h.setCsr c v).csr c' = if c' = c then v else h.csr c' :=
  Function.update_apply ..

end Hart

/-- Instructions, and the pseudo-instruction `li`. -/
inductive Instr
  | li (rd : Reg) (imm : BitVec 64)
  | addi (rd rs : Reg) (imm : BitVec 64)
  | and (rd rs rs' : Reg)
  | ld (rd : Reg) (off : BitVec 64) (base : Reg)
  | sd (rs : Reg) (off : BitVec 64) (base : Reg)
  | csrr (rd : Reg) (c : Csr)
  | csrw (c : Csr) (rs : Reg)
  | csrs (c : Csr) (rs : Reg)
  | csrc (c : Csr) (rs : Reg)
  | csrrs (rd : Reg) (c : Csr) (rs : Reg)

/-- What an instruction does. -/
def Instr.exec (i : Instr) (h : Hart) : Hart :=
  match i with
  | .li rd imm => h.setReg rd imm
  | .addi rd rs imm => h.setReg rd (h.reg rs + imm)
  | .and rd rs rs' => h.setReg rd (h.reg rs &&& h.reg rs')
  | .ld rd off base => h.setReg rd (load h.mem (h.reg base + off))
  | .sd rs off base => { h with mem := store h.mem (h.reg base + off) (h.reg rs) }
  | .csrr rd c => h.setReg rd (h.csr c)
  | .csrw c rs => h.setCsr c (h.reg rs)
  | .csrs c rs => h.setCsr c (h.csr c ||| h.reg rs)
  | .csrc c rs => h.setCsr c (h.csr c &&& ~~~ h.reg rs)
  | .csrrs rd c rs => (h.setCsr c (h.csr c ||| h.reg rs)).setReg rd (h.csr c)

/-- Run code without jumps. -/
def run (code : List Instr) (h : Hart) : Hart := code.foldl (fun h i => i.exec h) h

/-- No code does nothing. -/
theorem run_nil (h : Hart) : run [] h = h := rfl

/-- The first instruction, and then the others. -/
theorem run_cons (i : Instr) (code : List Instr) (h : Hart) :
    run (i :: code) h = run code (i.exec h) := rfl

/-- Code, and then more code. -/
theorem run_append (code code' : List Instr) (h : Hart) :
    run (code ++ code') h = run code' (run code h) := List.foldl_append

/-! ## Register tables -/

/-- Store registers to consecutive slots, from slot `i` on. -/
def storeRegs (base : Reg) : ℕ → List Reg → List Instr
  | _, [] => []
  | i, r :: rs => .sd r (BitVec.ofNat 64 (8 * i)) base :: storeRegs base (i + 1) rs

/-- Load registers from consecutive slots, from slot `i` on. -/
def loadRegs (base : Reg) : ℕ → List Reg → List Instr
  | _, [] => []
  | i, r :: rs => .ld r (BitVec.ofNat 64 (8 * i)) base :: loadRegs base (i + 1) rs

/-- A store to slot `i`, for an address given by its distance from the base. -/
theorem store_slot (mem : BitVec 64 → BitVec 8) (b v x : BitVec 64) {i : ℕ}
    (hfit : 8 * (i + 1) ≤ 2 ^ 64) :
    store mem (b + BitVec.ofNat 64 (8 * i)) v x =
      if (x - b).toNat / 8 = i then byte v ((x - b).toNat % 8) else mem x := by
  have hx := x.isLt
  have hb := b.isLt
  have hdist : (x - (b + BitVec.ofNat 64 (8 * i))).toNat
      = ((x - b).toNat + (2 ^ 64 - 8 * i)) % 2 ^ 64 := by
    rw [BitVec.toNat_sub, BitVec.toNat_add, BitVec.toNat_ofNat, BitVec.toNat_sub]
    omega
  have hd := (x - b).isLt
  rw [store, hdist]
  generalize (x - b).toNat = d at *
  by_cases hi : d / 8 = i
  · rw [if_pos hi, if_pos (by omega), show (d + (2 ^ 64 - 8 * i)) % 2 ^ 64 = d % 8 by omega]
  · rw [if_neg hi, if_neg (by omega)]

/-- Stores leave the registers. -/
theorem run_storeRegs_reg (base : Reg) : ∀ (rs : List Reg) (i : ℕ) (h : Hart),
    (run (storeRegs base i rs) h).reg = h.reg
  | [], _, _ => rfl
  | r :: rs, i, h => run_storeRegs_reg base rs (i + 1) (Instr.exec (.sd r _ base) h)

/-- Where the slots are, the memory holds the registers, and elsewhere it is as before. -/
theorem run_storeRegs_mem {base : Reg} (rs : List Reg) (i : ℕ) (h : Hart) (x : BitVec 64)
    (hfit : 8 * (i + rs.length) ≤ 2 ^ 64) :
    (run (storeRegs base i rs) h).mem x =
      let d := (x - h.reg base).toNat
      if i ≤ d / 8 then
        match rs[d / 8 - i]? with
        | some r => byte (h.reg r) (d % 8)
        | none => h.mem x
      else h.mem x := by
  induction rs generalizing i h with
  | nil => simp [storeRegs, run]
  | cons r rs ih =>
    rw [List.length_cons] at hfit
    rw [storeRegs, run_cons, ih (i + 1) _ (by omega)]
    have hstore := store_slot h.mem (h.reg base) (h.reg r) x (i := i) (by omega)
    simp only [Instr.exec, hstore]
    generalize (x - h.reg base).toNat = d at *
    by_cases hi : d / 8 = i
    · rw [if_neg (by omega), if_pos hi, if_pos (by omega), hi, Nat.sub_self,
        List.getElem?_cons_zero]
    · rw [if_neg hi]
      by_cases hd : i ≤ d / 8
      · rw [if_pos hd, if_pos (by omega), show d / 8 - i = d / 8 - (i + 1) + 1 by omega,
          List.getElem?_cons_succ]
      · rw [if_neg hd, if_neg (by omega)]

/-- Loads leave memory. -/
theorem run_loadRegs_mem (base : Reg) : ∀ (rs : List Reg) (i : ℕ) (h : Hart),
    (run (loadRegs base i rs) h).mem = h.mem
  | [], _, _ => rfl
  | r :: rs, i, h => run_loadRegs_mem base rs (i + 1) (Instr.exec (.ld r _ base) h)

/-- A register that is not loaded is left. -/
theorem run_loadRegs_of_not_mem {base r : Reg} : ∀ {rs : List Reg} (i : ℕ) (h : Hart), r ∉ rs →
    (run (loadRegs base i rs) h).reg r = h.reg r
  | [], _, _, _ => rfl
  | r' :: rs, i, h, hr => by
    rw [List.mem_cons, not_or] at hr
    refine (run_loadRegs_of_not_mem (i + 1) (Instr.exec (.ld r' _ base) h) hr.2).trans ?_
    rw [Instr.exec, Hart.setReg_reg, if_neg hr.1]

/-- Each register holds what was in its slot. -/
theorem run_loadRegs_of_mem {base r : Reg} {rs : List Reg} (i : ℕ) (h : Hart) {n : ℕ}
    (hbase : base ∉ rs) (hnodup : rs.Nodup) (hn : rs[n]? = some r) :
    (run (loadRegs base i rs) h).reg r
      = load h.mem (h.reg base + BitVec.ofNat 64 (8 * (i + n))) := by
  induction rs generalizing i h n with
  | nil => cases hn
  | cons r' rs ih =>
    rw [List.mem_cons, not_or] at hbase
    rw [List.nodup_cons] at hnodup
    rw [loadRegs, run_cons]
    cases n with
    | zero =>
      obtain rfl : r' = r := Option.some.inj hn
      rw [run_loadRegs_of_not_mem _ _ hnodup.1, Instr.exec, Hart.setReg_reg,
        if_pos rfl, Nat.add_zero]
    | succ n =>
      rw [ih (i + 1) _ hbase.2 hnodup.2 hn, Instr.exec, Hart.setReg_reg, if_neg hbase.1,
        Hart.setReg_mem, Nat.add_right_comm, Nat.add_assoc]

end Egos.Riscv
