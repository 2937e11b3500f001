import Egos.Common.Riscv

/-!
# Trap entry

`trap_entry_vm` of `earth.s`, the trap entry of page-table mode, around any `handle_trap`. The macro
`CTX_SAVE` moves `sp` by 27 doublewords and stores 28 of them, so that the last one, `t6`, comes to
lie on the doubleword at the interrupted `sp`.
-/

namespace Egos.Earth

open Riscv

/-- The registers of `CTX_SAVE` and `CTX_RESTORE`, in the order of their slots. -/
def ctxRegs : List Reg :=
  [.ra, .t0, .t1, .t2, .s0, .s1, .a0, .a1, .a2, .a3, .a4, .a5, .a6, .a7, .s2, .s3, .s4, .s5, .s6,
    .s7, .s8, .s9, .s10, .s11, .t3, .t4, .t5, .t6]

/-- `CTX_SAVE` -/
def ctxSave : List Instr := .addi .sp .sp (BitVec.ofInt 64 (-27 * 8)) :: storeRegs .sp 0 ctxRegs

/-- `CTX_RESTORE` -/
def ctxRestore : List Instr := loadRegs .sp 0 ctxRegs ++ [.addi .sp .sp (BitVec.ofInt 64 (27 * 8))]

/-- `trap_entry_vm` up to `CTX_SAVE`: `mstatus.MPRV` and the lower bit of `mstatus.MPP` are set, and
`tp` keeps what `mstatus.MPP` was. -/
def trapEnter : List Instr :=
  [.csrw .mscratch .t0, .li .t0 0x20800, .csrrs .tp .mstatus .t0, .li .t0 0x1800,
    .and .tp .tp .t0, .csrr .t0 .mscratch]

/-- `trap_entry_vm` from `CTX_RESTORE` to `mret`. -/
def trapLeave : List Instr :=
  [.csrw .mscratch .t0, .li .t0 0x21800, .csrc .mstatus .t0, .csrs .mstatus .tp,
    .csrr .t0 .mscratch]

/-- The hart when `trap_entry_vm` calls `handle_trap`. -/
def trapSaved (h : Hart) : Hart := run ctxSave (run trapEnter h)

/-- `trap_entry_vm` up to `mret`. The return address that `call` leaves in `ra` is one of the
changes of registers that `handleTrap` may make. -/
def trapEntryVm (handleTrap : Hart → Hart) (h : Hart) : Hart :=
  run trapLeave (run ctxRestore (handleTrap (trapSaved h)))

/-! ## What the code does -/

/-- The first instructions of `trap_entry_vm` change `tp` only. -/
theorem trapEnter_reg (h : Hart) {r : Reg} (hr : r ≠ .tp) : (run trapEnter h).reg r = h.reg r := by
  by_cases ht : r = .t0
  · subst ht
    rfl
  · simp [run, trapEnter, Instr.exec, hr, ht]

/-- The privilege mode of the code that trapped is kept in `tp`. -/
theorem trapEnter_tp (h : Hart) : (run trapEnter h).reg .tp = h.csr .mstatus &&& 0x1800 := rfl

/-- `mstatus.MPRV` and the lower bit of `mstatus.MPP` are set. -/
theorem trapEnter_mstatus (h : Hart) :
    (run trapEnter h).csr .mstatus = h.csr .mstatus ||| 0x20800 := rfl

/-- The last instructions of `trap_entry_vm` leave the registers. -/
theorem trapLeave_reg (h : Hart) (r : Reg) : (run trapLeave h).reg r = h.reg r := by
  by_cases ht : r = .t0
  · subst ht
    rfl
  · simp [run, trapLeave, Instr.exec, ht]

/-- `mstatus.MPRV` is cleared, and `mstatus.MPP` is taken from `tp`. -/
theorem trapLeave_mstatus (h : Hart) :
    (run trapLeave h).csr .mstatus = (h.csr .mstatus &&& ~~~ 0x21800) ||| h.reg .tp := rfl

/-- They do not write to memory. -/
theorem trapLeave_mem (h : Hart) : (run trapLeave h).mem = h.mem := rfl

/-- Every register has one place in the frame. -/
theorem ctxRegs_nodup : ctxRegs.Nodup := by decide

/-- `sp` has no place in the frame. -/
theorem sp_not_mem_ctxRegs : Reg.sp ∉ ctxRegs := by decide

/-- Neither has `tp`. -/
theorem tp_not_mem_ctxRegs : Reg.tp ∉ ctxRegs := by decide

/-- The frame is taken off the stack. -/
theorem ctxRestore_sp (h : Hart) : (run ctxRestore h).reg .sp = h.reg .sp + 216 := by
  have hsize : BitVec.ofInt 64 (27 * 8) = 216 := by decide
  rw [ctxRestore, run_append, run_cons, run_nil, Instr.exec, Hart.setReg_reg, if_pos rfl,
    run_loadRegs_of_not_mem 0 h sp_not_mem_ctxRegs, hsize]

/-- A register gets what is in its place. -/
theorem ctxRestore_reg (h : Hart) {r : Reg} {n : ℕ} (hn : ctxRegs[n]? = some r) :
    (run ctxRestore h).reg r = load h.mem (h.reg .sp + BitVec.ofNat 64 (8 * n)) := by
  have hr : r ≠ .sp := fun he => sp_not_mem_ctxRegs (he ▸ List.mem_of_getElem? hn)
  rw [ctxRestore, run_append, run_cons, run_nil, Instr.exec, Hart.setReg_reg, if_neg hr,
    run_loadRegs_of_mem 0 h sp_not_mem_ctxRegs ctxRegs_nodup hn, Nat.zero_add]

/-- Restoring the registers does not write to memory. -/
theorem ctxRestore_mem (h : Hart) : (run ctxRestore h).mem = h.mem := by
  rw [ctxRestore, run_append, run_cons, run_nil, Instr.exec, Hart.setReg_mem, run_loadRegs_mem]

/-- Saving the registers: room on the stack, and then the stores. -/
theorem trapSaved_eq (h : Hart) : trapSaved h =
    run (storeRegs .sp 0 ctxRegs)
      ((Instr.addi .sp .sp (BitVec.ofInt 64 (-27 * 8))).exec (run trapEnter h)) := by
  rw [trapSaved, ctxSave, run_cons]

/-- The frame has 27 places. -/
theorem trapSaved_sp (h : Hart) : (trapSaved h).reg .sp = h.reg .sp - 216 := by
  have hsize : BitVec.ofInt 64 (-27 * 8) = -216 := by decide
  rw [trapSaved_eq, run_storeRegs_reg, Instr.exec, Hart.setReg_reg, if_pos rfl,
    trapEnter_reg h (by decide), hsize, BitVec.sub_eq_add_neg]

/-- The memory when `handle_trap` is called: the slots hold the registers at the trap. -/
theorem trapSaved_mem (h : Hart) (x : BitVec 64) :
    (trapSaved h).mem x =
      match ctxRegs[(x - (h.reg .sp - 216)).toNat / 8]? with
      | some r => byte (h.reg r) ((x - (h.reg .sp - 216)).toNat % 8)
      | none => h.mem x := by
  have hsp := trapSaved_sp h
  rw [trapSaved_eq, run_storeRegs_reg] at hsp
  rw [trapSaved_eq, run_storeRegs_mem ctxRegs 0 _ x (by decide), hsp]
  simp only [Nat.zero_le, if_true, Nat.sub_zero]
  cases hr : ctxRegs[(x - (h.reg .sp - 216)).toNat / 8]? with
  | some r =>
    have hmem := List.mem_of_getElem? hr
    have hsp : r ≠ .sp := fun he => sp_not_mem_ctxRegs (he ▸ hmem)
    have htp : r ≠ .tp := fun he => tp_not_mem_ctxRegs (he ▸ hmem)
    dsimp only
    rw [Instr.exec, Hart.setReg_reg, if_neg hsp, trapEnter_reg h htp]
  | none => rfl

/-! ## Transparency -/

/-- `handle_trap`, called from `h`, keeps `sp` and the memory at and above it. -/
structure KeepsStack (handleTrap : Hart → Hart) (h : Hart) : Prop where
  sp : (handleTrap h).reg .sp = h.reg .sp
  mem : ∀ a, h.reg .sp ≤ a → (handleTrap h).mem a = h.mem a

/-- The interrupted code, in `h`, finds in `h'` the registers and the memory at and above its `sp`
as they were. -/
structure Transparent (h h' : Hart) : Prop where
  sp : h'.reg .sp = h.reg .sp
  reg : ∀ r ∈ ctxRegs, h'.reg r = h.reg r
  mem : ∀ a, h.reg .sp ≤ a → h'.mem a = h.mem a

/-- After the handler, `trap_entry_vm` does not write to memory. -/
theorem trapEntryVm_mem (handleTrap : Hart → Hart) (h : Hart) :
    (trapEntryVm handleTrap h).mem = (handleTrap (trapSaved h)).mem := by
  rw [trapEntryVm, trapLeave_mem, ctxRestore_mem]

/-- A register is what the handler has left in its place. -/
theorem trapEntryVm_reg {handleTrap : Hart → Hart} {h : Hart}
    (hkeeps : (handleTrap (trapSaved h)).reg .sp = (trapSaved h).reg .sp) {r : Reg} {n : ℕ}
    (hn : ctxRegs[n]? = some r) :
    (trapEntryVm handleTrap h).reg r
      = load (handleTrap (trapSaved h)).mem (h.reg .sp - 216 + BitVec.ofNat 64 (8 * n)) := by
  rw [trapEntryVm, trapLeave_reg, ctxRestore_reg _ hn, hkeeps, trapSaved_sp]

/-- The bytes of slot `n`. -/
theorem trapSaved_slot (h : Hart) {r : Reg} {n j : ℕ} (hn : ctxRegs[n]? = some r) (hj : j < 8) :
    (trapSaved h).mem (h.reg .sp - 216 + BitVec.ofNat 64 (8 * n) + BitVec.ofNat 64 j)
      = byte (h.reg r) j := by
  have hlt : n < 28 := (List.getElem?_eq_some_iff.1 hn).1
  have hdist : (h.reg .sp - 216 + BitVec.ofNat 64 (8 * n) + BitVec.ofNat 64 j
      - (h.reg .sp - 216)).toNat = 8 * n + j := by
    bv_omega
  rw [trapSaved_mem, hdist, show (8 * n + j) / 8 = n by omega,
    show (8 * n + j) % 8 = j by omega, hn]

/-- When the save area does not wrap around and the doubleword at `sp` equals `t6`, the trap is
transparent. -/
theorem transparent_of_slot {handleTrap : Hart → Hart} {h : Hart}
    (hkeeps : KeepsStack handleTrap (trapSaved h)) (hlow : 216 ≤ (h.reg .sp).toNat)
    (hhigh : (h.reg .sp).toNat + 8 ≤ 2 ^ 64)
    (hslot : ∀ j, j < 8 → h.mem (h.reg .sp + BitVec.ofNat 64 j) = byte (h.reg .t6) j) :
    Transparent h (trapEntryVm handleTrap h) := by
  have hmem : ∀ a, h.reg .sp - 216 ≤ a →
      (handleTrap (trapSaved h)).mem a = (trapSaved h).mem a := by
    intro a ha
    rw [← trapSaved_sp] at ha
    exact hkeeps.mem a ha
  refine ⟨?_, fun r hr => ?_, fun a ha => ?_⟩
  · rw [trapEntryVm, trapLeave_reg, ctxRestore_sp, hkeeps.sp, trapSaved_sp, BitVec.sub_add_cancel]
  · obtain ⟨n, hn⟩ := List.getElem?_of_mem hr
    have hlt : n < 28 := (List.getElem?_eq_some_iff.1 hn).1
    rw [trapEntryVm_reg hkeeps.sp hn]
    refine load_eq fun j hj => ?_
    rw [hmem, trapSaved_slot h hn hj]
    bv_omega
  · rw [trapEntryVm_mem, hmem a (by bv_omega)]
    have hdist : (a - (h.reg .sp - 216)).toNat = a.toNat - (h.reg .sp).toNat + 216 := by
      bv_omega
    have hle : (h.reg .sp).toNat ≤ a.toNat := ha
    by_cases hlast : a.toNat - (h.reg .sp).toNat < 8
    · have hsum : a = h.reg .sp + BitVec.ofNat 64 (a.toNat - (h.reg .sp).toNat) := by
        bv_omega
      rw [trapSaved_mem, hdist, show (a.toNat - (h.reg .sp).toNat + 216) / 8 = 27 by omega,
        show (a.toNat - (h.reg .sp).toNat + 216) % 8 = a.toNat - (h.reg .sp).toNat by omega]
      change byte (h.reg .t6) _ = _
      rw [← hslot _ hlast, ← hsum]
    · rw [trapSaved_mem, hdist, List.getElem?_eq_none]
      change 28 ≤ _
      omega

/-- A `handle_trap` that changes one byte of memory. -/
def changeByte (a : BitVec 64) (v : BitVec 8) (h : Hart) : Hart :=
  { h with mem := Function.update h.mem a v }

/-- The memory after such a handler. -/
theorem changeByte_mem (a : BitVec 64) (v : BitVec 8) (h : Hart) :
    (changeByte a v h).mem = Function.update h.mem a v := rfl

/-- It leaves the stack if the byte is below it. -/
theorem keepsStack_changeByte {h : Hart} {a : BitVec 64} (v : BitVec 8)
    (ha : ¬ h.reg .sp ≤ a) : KeepsStack (changeByte a v) h := by
  refine ⟨rfl, fun x hx => Function.update_of_ne ?_ _ _⟩
  rintro rfl
  exact ha hx

/-- Traps are transparent to the interrupted code exactly if the save area does not wrap around and
the doubleword at the interrupted `sp` equals `t6`, which is stored there. -/
theorem trap_transparent_iff (h : Hart) :
    (∀ handleTrap, KeepsStack handleTrap (trapSaved h) →
      Transparent h (trapEntryVm handleTrap h)) ↔
    216 ≤ (h.reg .sp).toNat ∧ (h.reg .sp).toNat + 8 ≤ 2 ^ 64 ∧
      ∀ j, j < 8 → h.mem (h.reg .sp + BitVec.ofNat 64 j) = byte (h.reg .t6) j := by
  constructor
  · intro htransparent
    have hne : ∀ b : BitVec 8, b + 1 ≠ b := fun b hb => by bv_omega
    have hlow : 216 ≤ (h.reg .sp).toNat := by
      -- otherwise the interrupted `sp` is below the one that `handle_trap` is called with
      by_contra hlt
      have hbelow : ¬ (trapSaved h).reg .sp ≤ h.reg .sp := by
        rw [trapSaved_sp]
        bv_omega
      have hmem := (htransparent _ (keepsStack_changeByte (h.mem (h.reg .sp) + 1) hbelow)).mem _
        (BitVec.le_refl _)
      rw [trapEntryVm_mem, changeByte_mem, Function.update_self] at hmem
      exact hne _ hmem
    have hhigh : (h.reg .sp).toNat + 8 ≤ 2 ^ 64 := by
      -- otherwise address 0 is part of the slot of `t6`
      by_contra hlt
      have hbelow : ¬ (trapSaved h).reg .sp ≤ 0 := by
        rw [trapSaved_sp]
        bv_omega
      have hlast : ctxRegs[27]? = some .t6 := rfl
      obtain ⟨j, hj, hzero⟩ : ∃ j < 8, h.reg .sp - 216 + BitVec.ofNat 64 (8 * 27)
          + BitVec.ofNat 64 j = 0 := by
        have := (h.reg .sp).isLt
        exact ⟨2 ^ 64 - (h.reg .sp).toNat, by omega, by bv_omega⟩
      have hkeeps := keepsStack_changeByte (byte (h.reg .t6) j + 1) hbelow
      have hreg := (htransparent _ hkeeps).reg .t6 (List.mem_of_getElem? hlast)
      rw [trapEntryVm_reg hkeeps.sp hlast] at hreg
      have hbyte := byte_load (changeByte 0 (byte (h.reg .t6) j + 1) (trapSaved h)).mem
        (h.reg .sp - 216 + BitVec.ofNat 64 (8 * 27)) hj
      rw [hreg, hzero, changeByte_mem, Function.update_self] at hbyte
      exact hne _ hbyte.symm
    refine ⟨hlow, hhigh, fun j hj => ?_⟩
    have hmem := (htransparent id ⟨rfl, fun _ _ => rfl⟩).mem (h.reg .sp + BitVec.ofNat 64 j)
      (by bv_omega)
    have hsum : h.reg .sp + BitVec.ofNat 64 j
        = h.reg .sp - 216 + BitVec.ofNat 64 (8 * 27) + BitVec.ofNat 64 j := by
      bv_omega
    rw [← hmem, trapEntryVm_mem, id_eq, hsum]
    exact trapSaved_slot h rfl hj
  · rintro ⟨hlow, hhigh, hslot⟩ handleTrap hkeeps
    exact transparent_of_slot hkeeps hlow hhigh hslot

/-- Code at the top of an application's stack, with 1 in `t6` and 0 everywhere else. -/
def interrupted : Hart where
  reg r := if r = .sp then 0x400FCFF0 else if r = .t6 then 1 else 0
  csr _ := 0
  mem _ := 0

/-- A trap whose handler does nothing overwrites the doubleword at the interrupted `sp`. -/
theorem trap_overwrites_stack :
    KeepsStack id (trapSaved interrupted) ∧
      interrupted.mem (interrupted.reg .sp) = 0 ∧
      (trapEntryVm id interrupted).mem (interrupted.reg .sp) = 1 := by
  refine ⟨⟨rfl, fun _ _ => rfl⟩, rfl, ?_⟩
  have hslot := trapSaved_slot interrupted (r := .t6) (n := 27) (j := 0) rfl (by omega)
  have hsp : interrupted.reg .sp - 216 + BitVec.ofNat 64 (8 * 27) + BitVec.ofNat 64 0
      = interrupted.reg .sp := by decide
  rw [hsp] at hslot
  rw [trapEntryVm_mem, id_eq, hslot]
  decide

end Egos.Earth
