import Egos.Apps.Servers
import Egos.Grass.Mail

/-!
# The running system

The kernel with the program of each process. The current process runs up to its next call of the
kernel, or a timer interrupt arrives. A process that has called `sys_recv` is `receiving`: when it
is scheduled again, it reads the message from its system-call area.

Two history variables number the requests to the servers: `asks p` is the number of requests that
`p` has made, and `serves p` is the request that `p` took in last. Every message carries the request
that it is or, otherwise, that its sender serves; no program looks at it.
-/

namespace Egos.Apps

open Egos.Grass
open Function (update)

/-- A message with what it is for and the request it belongs to: the client, and the number of the
request among those of the client. -/
structure Letter where
  tag : ℤ × ℕ
  topic : Topic
  body : Msg

/-- What a process executes. -/
structure Task where
  prog : App Point
  receiving : Bool

/-- The state of the system. -/
structure System where
  machine : Machine Letter
  task : ℤ → Task
  asks : ℤ → ℕ
  serves : ℤ → ℤ × ℕ

/-- The messages that ask a server. -/
def Topic.isRequest : Topic → Bool
  | request => true
  | _ => false

namespace System

variable (s : System) (p : ℤ)

/-- The kernel. -/
abbrev kernel : Kernel Letter := s.machine.kernel

/-- Process `p` goes on with a program. -/
def resume (prog : App Point) : System := { s with task := update s.task p ⟨prog, false⟩ }

/-- The request that a message of `p` belongs to. -/
def tag (topic : Topic) : ℤ × ℕ := if topic.isRequest then (p, s.asks p + 1) else s.serves p

/-- After `sys_send`. -/
def sent (topic : Topic) (prog : App Point) (m : Machine Letter) : System :=
  { s.resume p prog with
    machine := m
    asks := if topic.isRequest then update s.asks p (s.asks p + 1) else s.asks }

/-- Inside `sys_recv`. -/
def receive (m : Machine Letter) : System :=
  { s with
    machine := m
    task := update s.task p { s.task p with receiving := true } }

/-- The end of `sys_recv`, with a message. -/
def received (topic : Topic) (k : ℤ × Msg → App Point) : System :=
  { s.resume p (k ((s.kernel.msg p).sender, (s.kernel.msg p).content.body)) with
    serves := if topic.isRequest then update s.serves p (s.kernel.msg p).content.tag
      else s.serves }

/-- After a function of the process table. -/
def controlled (prog : App Point) (m : Machine Letter) : System :=
  { s.resume p prog with machine := m }

/-- The current process `p` asks for an operation and goes on with its result. The pid that
`proc_alloc` returns is the number of processes so far. -/
def perform : (o : SysOp) → (o.Res → App Point) → Option System
  | .send topic receiver msg, k =>
    (step s.machine (.send receiver ⟨s.tag p topic, topic, msg⟩)).map (s.sent p topic (k ()))
  | .recv topic, k =>
    if (s.task p).receiving then some (s.received p topic k)
    else (step s.machine .recv).map (s.receive p)
  | .procAlloc, k => (step s.machine .alloc).map fun m => s.controlled p (k m.kernel.procNprocs) m
  | .procSetReady pid, k => (step s.machine (.setReady pid)).map (s.controlled p (k ()))
  | .procFree pid, k => (step s.machine (.free pid)).map (s.controlled p (k ()))
  | .elfLoad pid image, k => some ((s.resume p (k ())).resume pid (start image))
  | .spin, _ => some s

end System

/-- What happens next. -/
inductive Move
  /-- the current process runs up to its next call -/
  | run (choice : Choice)
  /-- a timer interrupt; `ctrlC` is what `tty_recv_intr` returns -/
  | timer (ctrlC : Bool)

/-- One move of the system. A process that has stopped in `FATAL` does not go on. -/
def System.move (env : Env) (s : System) : Move → Option System
  | .run choice =>
    match (s.task s.kernel.currPid).prog with
    | .ret point => some (s.resume s.kernel.currPid (main env choice point))
    | .stop _ => none
    | .op o k => s.perform s.kernel.currPid o k
  | .timer ctrlC =>
    (step s.machine (.intr intrIdTimer ctrlC)).map fun m => { s with machine := m }

/-- The system when `GPID_PROCESS` starts. -/
def System.boot (env : Env) (area : ℤ → Syscall Letter) : System where
  machine := bootMachine area
  task p := if p = gpidProcess then ⟨procMain env.shellWaiting, false⟩ else ⟨spin, false⟩
  asks _ := 0
  serves _ := (0, 0)

/-! ## What a move does -/

/-- What a move leads to. -/
inductive MoveOutcome (env : Env) (s : System) : Move → System → Prop
  | loop {choice : Choice} {point : Point} : (s.task s.kernel.currPid).prog = .ret point →
      MoveOutcome env s (.run choice) (s.resume s.kernel.currPid (main env choice point))
  | send {choice : Choice} {topic : Topic} {r : ℤ} {msg : Msg} {k : Unit → App Point}
      {m : Machine Letter} : (s.task s.kernel.currPid).prog = .op (.send topic r msg) k →
      MailOutcome s.machine (.send r ⟨s.tag s.kernel.currPid topic, topic, msg⟩) m →
      MoveOutcome env s (.run choice) (s.sent s.kernel.currPid topic (k ()) m)
  | recv {choice : Choice} {topic : Topic} {k : ℤ × Msg → App Point} {m : Machine Letter} :
      (s.task s.kernel.currPid).prog = .op (.recv topic) k →
      (s.task s.kernel.currPid).receiving = false → MailOutcome s.machine .recv m →
      MoveOutcome env s (.run choice) (s.receive s.kernel.currPid m)
  | received {choice : Choice} {topic : Topic} {k : ℤ × Msg → App Point} :
      (s.task s.kernel.currPid).prog = .op (.recv topic) k →
      (s.task s.kernel.currPid).receiving = true →
      MoveOutcome env s (.run choice) (s.received s.kernel.currPid topic k)
  | alloc {choice : Choice} {k : ℤ → App Point} {m : Machine Letter} :
      (s.task s.kernel.currPid).prog = .op .procAlloc k → MailOutcome s.machine .alloc m →
      MoveOutcome env s (.run choice) (s.controlled s.kernel.currPid (k m.kernel.procNprocs) m)
  | setReady {choice : Choice} {pid : ℤ} {k : Unit → App Point} {m : Machine Letter} :
      (s.task s.kernel.currPid).prog = .op (.procSetReady pid) k →
      MailOutcome s.machine (.setReady pid) m →
      MoveOutcome env s (.run choice) (s.controlled s.kernel.currPid (k ()) m)
  | free {choice : Choice} {pid : ℤ} {k : Unit → App Point} {m : Machine Letter} :
      (s.task s.kernel.currPid).prog = .op (.procFree pid) k →
      MailOutcome s.machine (.free pid) m →
      MoveOutcome env s (.run choice) (s.controlled s.kernel.currPid (k ()) m)
  | load {choice : Choice} {pid : ℤ} {image : Image} {k : Unit → App Point} :
      (s.task s.kernel.currPid).prog = .op (.elfLoad pid image) k →
      MoveOutcome env s (.run choice)
        ((s.resume s.kernel.currPid (k ())).resume pid (start image))
  | spin {choice : Choice} : MoveOutcome env s (.run choice) s
  | timer {ctrlC : Bool} {m : Machine Letter} :
      MailOutcome s.machine (.intr intrIdTimer ctrlC) m →
      MoveOutcome env s (.timer ctrlC) { s with machine := m }

/-- Every move has one of the outcomes, and keeps the invariant of the kernel. -/
theorem move_outcome {env : Env} {s s' : System} {a : Move} (h : MachineOk s.machine)
    (hmove : s.move env a = some s') : MachineOk s'.machine ∧ MoveOutcome env s a s' := by
  cases a with
  | timer ctrlC =>
    obtain ⟨m, hm, rfl⟩ := Option.map_eq_some_iff.1 hmove
    exact ⟨h.step hm, .timer (mail_outcome h (fun _ => by simp) hm)⟩
  | run choice =>
    rw [System.move] at hmove
    split at hmove
    · rename_i point hprog
      cases hmove
      exact ⟨h, .loop hprog⟩
    · cases hmove
    · rename_i o k hprog
      cases o with
      | send topic r msg =>
        obtain ⟨m, hm, rfl⟩ := Option.map_eq_some_iff.1 hmove
        exact ⟨h.step hm, .send hprog (mail_outcome h nofun hm)⟩
      | recv topic =>
        rw [System.perform] at hmove
        split at hmove
        · rename_i hrecv
          cases hmove
          exact ⟨h, .received hprog hrecv⟩
        · rename_i hrecv
          obtain ⟨m, hm, rfl⟩ := Option.map_eq_some_iff.1 hmove
          exact ⟨h.step hm, .recv hprog (by simpa using hrecv) (mail_outcome h nofun hm)⟩
      | procAlloc =>
        obtain ⟨m, hm, rfl⟩ := Option.map_eq_some_iff.1 hmove
        exact ⟨h.step hm, .alloc hprog (mail_outcome h nofun hm)⟩
      | procSetReady pid =>
        obtain ⟨m, hm, rfl⟩ := Option.map_eq_some_iff.1 hmove
        exact ⟨h.step hm, .setReady hprog (mail_outcome h nofun hm)⟩
      | procFree pid =>
        obtain ⟨m, hm, rfl⟩ := Option.map_eq_some_iff.1 hmove
        exact ⟨h.step hm, .free hprog (mail_outcome h nofun hm)⟩
      | elfLoad pid image =>
        cases hmove
        exact ⟨h, .load hprog⟩
      | spin =>
        cases hmove
        exact ⟨h, .spin⟩

end Egos.Apps
