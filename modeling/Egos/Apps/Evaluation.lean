import Egos.Apps.System

/-!
# Evaluating the system

`System.tidy` is the identity. It takes a state apart, down to the numbers and statuses in it, and
writes out what the kernel and the programs look up, at all slots and at the pids of a short run.
With it after every move, a run of some hundred moves can be evaluated.
-/

namespace Egos.Apps

open Egos.Grass

/-- Take an integer apart. -/
def tidyInt : ℤ → ℤ
  | .ofNat n => .ofNat n
  | .negSucc n => .negSucc n

/-- Take a status apart. -/
def tidyStatus : ProcStatus → ProcStatus
  | .unused => .unused
  | .loading => .loading
  | .ready => .ready
  | .running => .running
  | .runnable => .runnable
  | .waitToSend => .waitToSend
  | .waitToRecv => .waitToRecv

/-- Take a slot of the process table apart. -/
def tidyProcess : Process → Process
  | ⟨pid, status, receiverPid⟩ => ⟨tidyInt pid, tidyStatus status, tidyInt receiverPid⟩

/-- Take a system-call area apart, except for the content of its message. -/
def tidySyscall {M : Type} : Syscall M → Syscall M
  | ⟨type, ⟨sender, receiver, content⟩, retval⟩ =>
    ⟨type, ⟨tidyInt sender, tidyInt receiver, content⟩, tidyInt retval⟩

/-- The slots of the process table. -/
def slots : List (Fin maxNprocess) := [0, 1, 2, 3, 4, 5, 6, 7, 8, 9, 10, 11, 12, 13, 14, 15]

/-- The pids of the system processes and of the first user processes. -/
def firstPids : List ℤ := [1, 2, 3, 4, 5, 6]

/-- Write out the process table and the areas of the first pids. -/
def tidyKernel {M : Type} : Kernel M → Kernel M
  | ⟨procSet, ⟨idx, hidx⟩, procNprocs, mmuPid, area, log⟩ =>
    ⟨tabulate slots fun i => tidyProcess (procSet i), ⟨idx, hidx⟩, tidyInt procNprocs,
      tidyInt mmuPid, tabulate firstPids fun p => tidySyscall (area p), log⟩

/-- Take the head of a program apart. -/
def tidyProg : App Point → App Point
  | .ret point => .ret point
  | .stop e => .stop e
  | .op o k => .op o k

/-- Take a task apart. -/
def tidyTask : Task → Task
  | ⟨prog, true⟩ => ⟨tidyProg prog, true⟩
  | ⟨prog, false⟩ => ⟨tidyProg prog, false⟩

/-- Write out the kernel, and the tasks and counters of the first pids. -/
def System.tidy : System → System
  | ⟨⟨kernel, allocated⟩, task, asks, serves⟩ =>
    ⟨⟨tidyKernel kernel, allocated⟩, tabulate firstPids fun p => tidyTask (task p),
      tabulate firstPids asks, tabulate firstPids serves⟩

/-- A move, with the state taken apart. -/
def System.tidyMove (env : Env) (s : System) (a : Move) : Option System :=
  (s.move env a).map System.tidy

/-- Taking an integer apart changes nothing. -/
theorem tidyInt_eq (a : ℤ) : tidyInt a = a := by cases a <;> rfl

/-- Taking a slot apart changes nothing. -/
theorem tidyProcess_eq (p : Process) : tidyProcess p = p := by
  rcases p with ⟨pid, status, receiverPid⟩
  cases status <;> simp only [tidyProcess, tidyInt_eq, tidyStatus]

/-- Taking an area apart changes nothing. -/
theorem tidySyscall_eq {M : Type} (a : Syscall M) : tidySyscall a = a := by
  rcases a with ⟨type, ⟨sender, receiver, content⟩, retval⟩
  simp only [tidySyscall, tidyInt_eq]

/-- Writing out the kernel changes nothing. -/
theorem tidyKernel_eq {M : Type} (k : Kernel M) : tidyKernel k = k := by
  rcases k with ⟨procSet, ⟨idx, hidx⟩, procNprocs, mmuPid, area, log⟩
  simp only [tidyKernel, tabulate_eq, tidyProcess_eq, tidyInt_eq, tidySyscall_eq]

/-- Taking a task apart changes nothing. -/
theorem tidyTask_eq (t : Task) : tidyTask t = t := by
  rcases t with ⟨prog, _ | _⟩ <;> cases prog <;> rfl

/-- Writing out a state changes nothing. -/
theorem tidy_eq (s : System) : s.tidy = s := by
  rcases s with ⟨⟨kernel, allocated⟩, task, asks, serves⟩
  simp only [System.tidy, tabulate_eq, tidyKernel_eq, tidyTask_eq]

/-- A move is the same with its state written out. -/
theorem tidyMove_eq (env : Env) : System.tidyMove env = System.move env := by
  funext s a
  have htidy : System.tidy = id := funext tidy_eq
  rw [System.tidyMove, htidy, Option.map_id, id]

end Egos.Apps
