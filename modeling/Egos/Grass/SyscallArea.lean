import Egos.Common.Memory
import Egos.Earth.Mmu
import Egos.Grass.Process

/-!
# The system-call area in memory

`struct syscall` at `SYSCALL_ARG`, as it is laid out in the memory of a process: the type, the
message (its sender, its receiver and 1024 bytes of content) and the result, 1040 bytes in all.
`egos.h` reserves 1024 bytes for it below the stack, so that its last 16 bytes are the lowest 16
bytes of the stack.
-/

namespace Egos.Grass

/-! ## Integers -/

/-- The `int` in the four bytes from `a` on. -/
def readInt (mem : Memory) (a : ℕ) : ℤ := ((mem.readLE a 4 : ℕ) : ℤ).bmod (2 ^ 32)

/-- The bytes of an `int`. -/
def intBytes (v : ℤ) (j : ℕ) : UInt8 := UInt8.ofNat ((v % (2 ^ 32 : ℕ)).toNat / 256 ^ j)

/-- Only the four bytes count. -/
theorem readInt_congr {mem mem' : Memory} {a : ℕ} (h : ∀ x, a ≤ x → x < a + 4 → mem x = mem' x) :
    readInt mem a = readInt mem' a := by
  unfold readInt
  rw [Memory.readLE_congr h]

/-- Bytes elsewhere do not matter. -/
theorem readInt_blit_of_disjoint (mem : Memory) {a b n : ℕ} (f : ℕ → UInt8)
    (h : b + n ≤ a ∨ a + 4 ≤ b) : readInt (mem.blit b n f) a = readInt mem a :=
  readInt_congr fun _ _ _ => if_neg (by omega)

/-- An `int` that was written is read back, up to its 32 bits. -/
theorem readInt_blit_self (mem : Memory) (a : ℕ) (v : ℤ) :
    readInt (mem.blit a 4 (intBytes v)) a = v.bmod (2 ^ 32) := by
  have hpos : 0 ≤ v % (2 ^ 32 : ℕ) := Int.emod_nonneg v (by decide)
  have hlt : v % (2 ^ 32 : ℕ) < (2 ^ 32 : ℕ) := Int.emod_lt_of_pos v (by decide)
  have hsmall : (v % (2 ^ 32 : ℕ)).toNat < 256 ^ 4 := by omega
  have hread : (mem.blit a 4 (intBytes v)).readLE a 4 = (v % (2 ^ 32 : ℕ)).toNat := by
    rw [Memory.readLE_digits (w := (v % (2 ^ 32 : ℕ)).toNat) fun j hj => ?_,
      Nat.mod_eq_of_lt hsmall]
    rw [Memory.blit, if_pos (by omega), Nat.add_sub_cancel_left, intBytes]
  have hcast : (((v % (2 ^ 32 : ℕ)).toNat : ℕ) : ℤ) = v % (2 ^ 32 : ℕ) := Int.toNat_of_nonneg hpos
  unfold readInt
  rw [hread, hcast, Int.emod_bmod]

/-! ## The area -/

/-- `SYSCALL_MSG_LEN` -/
abbrev syscallMsgLen : ℕ := 1024

/-- The content of a message. -/
abbrev Content : Type := Fin syscallMsgLen → UInt8

/-- `APPS_STACK_BOTTOM` -/
abbrev appsStackBottom : ℕ := Earth.grassStackBottom - 6 * 1024

/-- `SYSCALL_ARG` -/
abbrev syscallArg : ℕ := appsStackBottom - 1024

/-- `sizeof(struct sys_msg)` -/
abbrev sysMsgSize : ℕ := 4 + 4 + syscallMsgLen

/-- `sizeof(struct syscall)` -/
abbrev syscallSize : ℕ := 4 + sysMsgSize + 4

/-- The field `type` holds a number. -/
def SyscallType.ofInt (n : ℤ) : SyscallType :=
  if n = 0 then .unused else if n = 1 then .recv else if n = 2 then .send
  else if n = 3 then .ncalls else .other n

/-- `SYS_UNUSED`, `SYS_RECV` and `SYS_SEND` as numbers. -/
def SyscallType.toInt : SyscallType → ℤ
  | .unused => 0
  | .recv => 1
  | .send => 2
  | .ncalls => 3
  | .other n => n

/-- `sc->msg` -/
def sysMsgAt (mem : Memory) : SysMsg Content where
  sender := readInt mem (syscallArg + 4)
  receiver := readInt mem (syscallArg + 8)
  content j := mem (syscallArg + 12 + j)

/-- `*sc` -/
def syscallAt (mem : Memory) : Syscall Content where
  type := .ofInt (readInt mem syscallArg)
  msg := sysMsgAt mem
  retval := readInt mem (syscallArg + 1036)

variable {mem mem' : Memory}

/-- Only the bytes of the message count. -/
theorem sysMsgAt_congr
    (h : ∀ x, syscallArg + 4 ≤ x → x < syscallArg + 4 + sysMsgSize → mem x = mem' x) :
    sysMsgAt mem = sysMsgAt mem' := by
  have hlen : sysMsgSize = 1032 := rfl
  rw [sysMsgAt, sysMsgAt, readInt_congr fun x hx hx' => h x hx (by omega),
    readInt_congr (a := syscallArg + 8) fun x hx hx' => h x (by omega) (by omega)]
  congr 1
  funext j
  have hj : j.val < 1024 := j.isLt
  exact h _ (by omega) (by omega)

/-- Memory outside the area does not matter. -/
theorem syscallAt_congr
    (h : ∀ x, syscallArg ≤ x → x < syscallArg + syscallSize → mem x = mem' x) :
    syscallAt mem = syscallAt mem' := by
  have hlen : syscallSize = 1040 := rfl
  have hmsg : sysMsgSize = 1032 := rfl
  rw [syscallAt, syscallAt, readInt_congr fun x hx hx' => h x hx (by omega),
    sysMsgAt_congr fun x hx hx' => h x (by omega) (by omega),
    readInt_congr (a := syscallArg + 1036) fun x hx hx' => h x (by omega) (by omega)]

/-! ## Writing the fields -/

section fields

variable (mem) (v : ℤ)

/-- A write to `sc->type`. -/
theorem syscallAt_type :
    syscallAt (mem.blit syscallArg 4 (intBytes v))
      = { syscallAt mem with type := .ofInt (v.bmod (2 ^ 32)) } := by
  have hkeep : sysMsgAt (mem.blit syscallArg 4 (intBytes v)) = sysMsgAt mem :=
    sysMsgAt_congr fun _ _ _ => if_neg (by omega)
  have hrest := readInt_blit_of_disjoint mem (a := syscallArg + 1036) (b := syscallArg)
    (n := 4) (intBytes v) (by omega)
  simp only [syscallAt, readInt_blit_self, hrest, hkeep]

/-- A write to `sc->retval`. -/
theorem syscallAt_retval :
    syscallAt (mem.blit (syscallArg + 1036) 4 (intBytes v))
      = { syscallAt mem with retval := v.bmod (2 ^ 32) } := by
  have hmsg : sysMsgSize = 1032 := rfl
  have hkeep : sysMsgAt (mem.blit (syscallArg + 1036) 4 (intBytes v)) = sysMsgAt mem :=
    sysMsgAt_congr fun _ _ _ => if_neg (by omega)
  have hrest := readInt_blit_of_disjoint mem (a := syscallArg) (b := syscallArg + 1036)
    (n := 4) (intBytes v) (by omega)
  simp only [syscallAt, readInt_blit_self, hrest, hkeep]

/-- Writing to the message leaves the type and the result alone. -/
theorem syscallAt_msg {a n : ℕ} (f : ℕ → UInt8) (ha : syscallArg + 4 ≤ a)
    (hn : a + n ≤ syscallArg + 1036) :
    syscallAt (mem.blit a n f) = { syscallAt mem with msg := sysMsgAt (mem.blit a n f) } := by
  have htype := readInt_blit_of_disjoint mem (a := syscallArg) (b := a) (n := n) f (by omega)
  have hretval := readInt_blit_of_disjoint mem (a := syscallArg + 1036) (b := a) (n := n) f
    (by omega)
  simp only [syscallAt, htype, hretval]

/-- A write to `sc->msg.sender`. -/
theorem sysMsgAt_sender :
    sysMsgAt (mem.blit (syscallArg + 4) 4 (intBytes v))
      = { sysMsgAt mem with sender := v.bmod (2 ^ 32) } := by
  rw [sysMsgAt, readInt_blit_self, readInt_blit_of_disjoint _ _ (by omega), sysMsgAt]
  congr 1
  funext j
  exact if_neg (by omega)

/-- A write to `sc->msg.receiver`. -/
theorem sysMsgAt_receiver :
    sysMsgAt (mem.blit (syscallArg + 8) 4 (intBytes v))
      = { sysMsgAt mem with receiver := v.bmod (2 ^ 32) } := by
  rw [sysMsgAt, readInt_blit_self, readInt_blit_of_disjoint _ _ (by omega), sysMsgAt]
  congr 1
  funext j
  exact if_neg (by omega)

/-- The first `n` bytes of the content are replaced. -/
theorem sysMsgAt_content (n : ℕ) (f : ℕ → UInt8) :
    sysMsgAt (mem.blit (syscallArg + 12) n f) = { sysMsgAt mem with
      content := fun j => if j.val < n then f j else (sysMsgAt mem).content j } := by
  rw [sysMsgAt, readInt_blit_of_disjoint _ _ (by omega), readInt_blit_of_disjoint _ _ (by omega),
    sysMsgAt]
  congr 1
  funext j
  rw [Memory.blit, Nat.add_sub_cancel_left]
  exact if_congr (by omega) rfl rfl

end fields

/-- A message that is copied from another memory is the message there. -/
theorem sysMsgAt_copy {f : ℕ → UInt8}
    (hf : ∀ j, j < sysMsgSize → f j = mem' (syscallArg + 4 + j)) :
    sysMsgAt (mem.blit (syscallArg + 4) sysMsgSize f) = sysMsgAt mem' := by
  refine sysMsgAt_congr fun x hx hx' => ?_
  rw [Memory.blit, if_pos ⟨hx, hx'⟩, hf _ (by omega), Nat.add_sub_cancel' hx]

end Egos.Grass
