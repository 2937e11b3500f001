import Egos.File.TreediskRuns

/-!
# Failures of the store below

A store that is an array of blocks and whose calls may fail. A call that fails returns a negative
number and changes nothing, and a failed read leaves anything in the caller's buffer. Which calls
fail may depend on everything that has happened so far.

The calls are recorded, and a run is judged by its record: whether a write was made after a call
that failed, and whether a read of the free list was among those that failed.
-/

namespace Egos.File

/-- A call of the store below. -/
inductive BelowCall
  | read (off : ℕ)
  | write (off : ℕ)
deriving DecidableEq

/-- A call that was made, whether it failed, and the head of the free list at the time. -/
structure BelowEvent where
  call : BelowCall
  failed : Bool
  freeList : ℕ
deriving DecidableEq

/-- The array, and the calls made so far, with the last one first. -/
structure Flaky where
  disk : Disk
  trace : List BelowEvent

/-- How a call fails: with the result `-1 - code`, and with `buffer` in the buffer of a read. -/
structure Failure where
  code : ℕ
  buffer : Block

/-- A pattern of failures. -/
abbrev Pattern : Type := Flaky → BelowCall → Option Failure

namespace Flaky

/-- Add a call to the trace. -/
def record (s : Flaky) (call : BelowCall) (failed : Bool) : Flaky :=
  { s with trace := ⟨call, failed, (s.disk 0).freeList⟩ :: s.trace }

/-- Recording a call does not change the disk. -/
@[simp] theorem record_disk (s : Flaky) (call : BelowCall) (failed : Bool) :
    (s.record call failed).disk = s.disk := rfl

/-- Replace a block. -/
def store (s : Flaky) (off : ℕ) (b : Block) : Flaky :=
  { s with disk := Function.update s.disk off b }

/-- A write changes one block. -/
@[simp] theorem store_disk (s : Flaky) (off : ℕ) (b : Block) :
    (s.store off b).disk = Function.update s.disk off b := rfl

end Flaky

/-- An array of `nblocks` blocks with failures. -/
def flakyStore (nblocks : ℕ) (pattern : Pattern) : InodeStore Flaky where
  getsize _ := pure nblocks
  setsize _ _ := throw "setsize"
  read _ off := fun s =>
    match pattern s (.read off) with
    | none => .ok (0, s.disk off) (s.record (.read off) false)
    | some f => .ok (-1 - f.code, f.buffer) (s.record (.read off) true)
  write _ off b := fun s =>
    match pattern s (.write off) with
    | none => .ok 0 ((s.record (.write off) false).store off b)
    | some f => .ok (-1 - f.code) (s.record (.write off) true)

variable {nblocks bino : ℕ} {pattern : Pattern} {s : Flaky}

/-! ## What a trace shows -/

/-- No write is made after a call that failed. -/
def FailStop (trace : List BelowEvent) : Prop :=
  ∀ later e earlier, trace = later ++ e :: earlier → e.failed = true →
    ∀ e' ∈ later, ∀ off, e'.call ≠ .write off

/-- The call is a read of the block at the head of the free list, and it failed. -/
def BelowEvent.MissesFreeList (e : BelowEvent) : Prop :=
  e.failed = true ∧ e.freeList ≠ 0 ∧ e.call = .read e.freeList

instance : DecidablePred BelowEvent.MissesFreeList := fun _ => inferInstanceAs (Decidable (_ ∧ _))

/-- A read of the block at the head of the free list has failed. -/
def Missed (s : Flaky) : Prop := ∃ e ∈ s.trace, e.MissesFreeList

/-- No call has failed so far. -/
def Clean (s : Flaky) : Prop := ∀ e ∈ s.trace, e.failed = false

/-- No call before the last one has failed. -/
def Halting (s : Flaky) : Prop := ∀ e ∈ s.trace.tail, e.failed = false

/-- No call before the last one has failed, and if `clear` holds, the last one did not miss the free
list. -/
def Halted (clear : Prop) (s : Flaky) : Prop := Halting s ∧ (clear → ¬ Missed s)

/-- A read of the free list has failed, and a write was made after it. -/
def Broken (s : Flaky) : Prop := Missed s ∧ ¬ FailStop s.trace

variable {clear : Prop}

/-- No read of the free list has failed if no call has. -/
theorem Clean.not_missed (h : Clean s) : ¬ Missed s := by
  rintro ⟨e, he, hfailed, -⟩
  rw [h e he] at hfailed
  cases hfailed

/-- In particular no call before the last has failed. -/
theorem Clean.halting (h : Clean s) : Halting s := fun e he => h e (List.mem_of_mem_tail he)

/-- A run without failures halts in order. -/
theorem Clean.halted (h : Clean s) : Halted clear s := ⟨h.halting, fun _ => h.not_missed⟩

/-- A call that does not fail. -/
theorem Clean.record (h : Clean s) (call : BelowCall) : Clean (s.record call false) := by
  intro e he
  rcases List.mem_cons.1 he with rfl | he
  · rfl
  · exact h e he

/-- The first call that fails is the last one, if it stops the run. -/
theorem Clean.fail (h : Clean s) {call : BelowCall}
    (hcall : clear → (s.disk 0).freeList ≠ 0 → call ≠ .read (s.disk 0).freeList) :
    Halted clear (s.record call true) := by
  refine ⟨h, ?_⟩
  rintro hclear ⟨e, he, hmiss⟩
  rcases List.mem_cons.1 he with rfl | he
  · exact hcall hclear hmiss.2.1 hmiss.2.2
  · exact h.not_missed ⟨e, he, hmiss⟩

/-- A run that halts at its first failure is fail-stop. -/
theorem Halting.failStop (h : Halting s) : FailStop s.trace := by
  intro later e earlier htrace hfailed e' he'
  cases later with
  | nil => cases he'
  | cons x later =>
    have hclean := h e (by rw [htrace]; simp)
    rw [hfailed] at hclean
    cases hclean

/-- So is one without failures. -/
theorem Clean.failStop (h : Clean s) : FailStop s.trace := h.halting.failStop

/-- A run was fail-stop before its last call. -/
theorem FailStop.tail {e : BelowEvent} {trace : List BelowEvent} (h : FailStop (e :: trace)) :
    FailStop trace := by
  intro later e₁ earlier htrace hfailed e' he'
  exact h (e :: later) e₁ earlier (by rw [htrace]; rfl) hfailed e' (List.mem_cons_of_mem _ he')

/-- A write behind a failed call. -/
theorem not_failStop_write {e e' : BelowEvent} {off : ℕ} (hfailed : e.failed = true)
    (hwrite : e'.call = .write off) (trace : List BelowEvent) : ¬ FailStop (e' :: e :: trace) :=
  fun h => h [e'] e trace rfl hfailed e' (List.mem_singleton.2 rfl) off hwrite

/-- Nothing mends a run that went on after the free list was missed. -/
theorem Broken.record (h : Broken s) (call : BelowCall) (failed : Bool) :
    Broken (s.record call failed) := by
  obtain ⟨⟨e, he, hmiss⟩, hstop⟩ := h
  exact ⟨⟨e, List.mem_cons_of_mem _ he, hmiss⟩, fun h => hstop h.tail⟩

/-- What is broken stays so. -/
theorem Broken.store (h : Broken s) (off : ℕ) (b : Block) : Broken (s.store off b) := h

/-! ## One call -/

variable {α : Type} {Q : α → Flaky → Prop} {E : String → Flaky → Prop}

/-- Run a read: it returns the block, or fails. -/
theorem wp_flakyRead {f : ℤ × Block → StoreM Flaky α} (off : ℕ)
    (hok : pattern s (.read off) = none →
      wp (f (0, s.disk off)) Q E (s.record (.read off) false))
    (hfail : ∀ r b, r < 0 → (pattern s (.read off)).isSome →
      wp (f (r, b)) Q E (s.record (.read off) true)) :
    wp ((flakyStore nblocks pattern).read bino off >>= f) Q E s := by
  rw [wp_bind]
  unfold flakyStore
  cases hp : pattern s (.read off) with
  | none => simpa only [wp, hp] using hok hp
  | some e =>
    have hrun := hfail (-1 - e.code) e.buffer (by omega) (by rw [hp]; rfl)
    simpa only [wp, hp] using hrun

/-- Run a write: it changes the block, or fails. -/
theorem wp_flakyWrite {f : ℤ → StoreM Flaky α} (off : ℕ) (b : Block)
    (hok : wp (f 0) Q E ((s.record (.write off) false).store off b))
    (hfail : ∀ r, r < 0 → (pattern s (.write off)).isSome →
      wp (f r) Q E (s.record (.write off) true)) :
    wp ((flakyStore nblocks pattern).write bino off b >>= f) Q E s := by
  rw [wp_bind]
  unfold flakyStore
  cases hp : pattern s (.write off) with
  | none => simpa only [wp, hp] using hok
  | some e =>
    have hrun := hfail (-1 - e.code) (by omega) (by rw [hp]; rfl)
    simpa only [wp, hp] using hrun

/-- Whatever is read, a run that is broken stays so. -/
theorem keeps_broken_read {f : ℤ × Block → StoreM Flaky α} (off : ℕ)
    (hf : ∀ r, Keeps Broken (f r)) :
    Keeps Broken ((flakyStore nblocks pattern).read bino off >>= f) := fun _ hs =>
  wp_flakyRead off (fun _ => hf _ _ (hs.record _ _)) fun _ _ _ _ => hf _ _ (hs.record _ _)

/-- Also by a write that panics if it fails. -/
theorem keeps_broken_writeOrPanic (off : ℕ) (b : Block) (msg : String) :
    Keeps Broken (writeOrPanic (flakyStore nblocks pattern) bino off b msg) := by
  intro s hs
  unfold writeOrPanic
  refine wp_flakyWrite off b ?_ fun r hr _ => ?_
  · rw [if_neg (lt_irrefl 0)]
    exact (hs.record _ _).store _ _
  · rw [if_pos hr]
    exact hs.record _ _

/-- A write whose result is checked goes through, or is the last call. -/
theorem writeOrPanic_flaky (h : Clean s) (off : ℕ) (b : Block) (msg : String) :
    wp (writeOrPanic (flakyStore nblocks pattern) bino off b msg)
      (fun _ s' => Clean s' ∧ s'.disk = Function.update s.disk off b)
      (fun _ s' => Broken s' ∨ Halted clear s') s := by
  unfold writeOrPanic
  refine wp_flakyWrite off b ?_ fun r hr _ => ?_
  · rw [if_neg (lt_irrefl 0)]
    exact ⟨h.record _, rfl⟩
  · rw [if_pos hr]
    exact .inr (h.fail fun _ _ => by simp)

/-- A write that follows a missed read of the free list. -/
theorem writeOrPanic_missed {s : Flaky} (hne : (s.disk 0).freeList ≠ 0) (off : ℕ) (b : Block)
    (msg : String) :
    wp (writeOrPanic (flakyStore nblocks pattern) bino off b msg) (fun _ s' => Broken s')
      (fun _ s' => Broken s') (s.record (.read (s.disk 0).freeList) true) := by
  have hmissed (e : BelowEvent) :
      ∃ e' ∈ e :: (s.record (.read (s.disk 0).freeList) true).trace, e'.MissesFreeList :=
    ⟨_, List.mem_cons_of_mem _ List.mem_cons_self, rfl, hne, rfl⟩
  unfold writeOrPanic
  refine wp_flakyWrite off b ?_ fun r hr _ => ?_
  · rw [if_neg (lt_irrefl 0)]
    exact ⟨hmissed _, not_failStop_write rfl rfl _⟩
  · rw [if_pos hr]
    exact ⟨hmissed _, not_failStop_write rfl rfl _⟩

end Egos.File
