import Egos.Apps.Pairing

/-!
# How `GPID_PROCESS`, the shell and the user processes behave towards each other

One protocol for each of the three programs. That of `GPID_PROCESS` follows `app_pid` and
`shell_waiting` through the loop of `sys_proc`; that of the shell says which message it waits for
next; that of a user process only says whether it has exited. Every program keeps to its own, for
whatever it is given by the servers.
-/

namespace Egos.Apps

open Egos.Grass Egos.Library

/-! ## The protocols -/

/-- The shell waits for the command to end, unless its last argument is `&`. -/
def Msg.foreground (m : Msg) : Bool := m.lastArg 0 ≠ ampersand

/-- A request to start a command, with at least one argument. -/
def IsSpawn (m : Msg) : Prop := ∃ argc argv, m = .proc procSpawn argc argv ∧ 1 ≤ argc

/-- Where `GPID_PROCESS` is. -/
inductive Stage
  /-- it starts the servers; `left` is the number of processes that are to be set up -/
  | booting (left : ℕ)
  /-- it waits for a request -/
  | idle (appPid : ℤ) (waiting : Bool)
  /-- in `app_spawn`, before the process is allocated -/
  | spawning (m : Msg) (appPid : ℤ)
  /-- in `app_spawn`, before the process is ready; `mapped` when `elf_load` has mapped its
  program -/
  | loaded (m : Msg) (appPid : ℤ) (mapped : Bool)
  /-- the process has started -/
  | ready (m : Msg) (appPid : ℤ)
  /-- it has received `PROC_EXIT` of `q` -/
  | exiting (q appPid : ℤ) (waiting : Bool)
  /-- it has freed `q` -/
  | freed (q appPid : ℤ) (waiting : Bool)
  /-- it has received `PROC_KILLALL` -/
  | killing (appPid : ℤ) (waiting : Bool)

/-- What `GPID_PROCESS` does. -/
def conductProcess : Protocol SysOp.Res Fatal Stage where
  allows t o :=
    match t, o with
    | .booting left, .procAlloc => 0 < left
    | .booting _, .elfLoad _ _ | .booting _, .procSetReady _ | .booting _, .recv .boot => True
    | .idle _ _, .recv .command => True
    | .spawning _ _, .send .request _ _ | .spawning _ _, .recv (.reply _ _) => True
    | .spawning _ _, .procAlloc => True
    | .spawning m _, .send .status _ reply => reply = m.setType cmdError
    | .loaded _ _ _, .send .request _ _ | .loaded _ _ _, .recv (.reply _ _) => True
    | .loaded _ _ _, .elfLoad _ _ | .loaded _ _ true, .procSetReady _ => True
    | .ready m _, .send .status _ reply => reply = m.setType cmdOk
    | .exiting q _ _, .procFree pid => pid = q
    | .freed q appPid waiting, .send .termination _ _ => waiting = true ∧ appPid = q
    | .killing _ _, .procFree pid => pid = -1
    | _, _ => False
  next t o result t' :=
    match t, o, result with
    | .booting left, .procAlloc, _ => t' = .booting (left - 1)
    | .idle appPid waiting, .recv .command, (sender, m) =>
      IsSpawn m ∧ t' = .spawning m appPid ∨
        m.word = procExit ∧ t' = .exiting sender appPid waiting ∨
        m.word = procKillall ∧ t' = .killing appPid waiting
    | .spawning m _, .procAlloc, pid => t' = .loaded m pid false
    | .loaded m appPid _, .elfLoad _ _, _ => t' = .loaded m appPid true
    | .spawning m appPid, .send .status _ _, _ => t' = .idle appPid m.foreground
    | .loaded m appPid _, .procSetReady _, _ => t' = .ready m appPid
    | .ready m appPid, .send .status _ _, _ => t' = .idle appPid m.foreground
    | .exiting q appPid waiting, .procFree _, _ => t' = .freed q appPid waiting
    | .freed _ appPid waiting, .send .termination _ _, _ => t' = .idle appPid waiting
    | .killing appPid waiting, .procFree _, _ => t' = .idle appPid waiting
    | t, _, _ => t' = t
  stops t _ :=
    match t with
    | .spawning _ _ | .loaded _ _ _ => True
    | _ => False

/-- `GPID_PROCESS` is at the head of its loop. -/
def Rests (t : Stage) (point : Point) : Prop :=
  ∃ appPid waiting, point = .process appPid waiting ∧
    (t = .idle appPid waiting ∨ t = .booting 0 ∧ appPid = 0 ∨
      ∃ q, t = .freed q appPid waiting ∧ ¬ (waiting = true ∧ appPid = q))

/-- Where the shell is. -/
inductive Phase
  | prompt
  /-- it has asked for a command, and waits for its status -/
  | asked (m : Msg)
  /-- it waits for the command to end -/
  | running

/-- The phase after a message of `GPID_PROCESS`. -/
def Phase.after (m : Msg) : Phase → Phase
  | prompt => .prompt
  | asked req => if m.word = cmdOk ∧ req.foreground = true then .running else .prompt
  | running => .prompt

/-- The message that the shell waits for. -/
def Phase.Expects : Phase → Topic → Prop
  | asked _, .status => True
  | running, .termination => True
  | _, _ => False

/-- What the shell does. -/
def conductShell : Protocol SysOp.Res Fatal Phase where
  allows t o :=
    match t, o with
    | .prompt, .send .command _ m => IsSpawn m ∨ m.word = procKillall
    | .prompt, .spin => True
    | t, .recv topic => t.Expects topic
    | _, _ => False
  next t o result t' :=
    match o, result with
    | .send _ _ m, _ => t' = if m.word = procSpawn then .asked m else .prompt
    | .recv _, (_, m) => t' = t.after m
    | _, _ => t' = t
  stops _ _ := False

/-- The shell is at its prompt. -/
def AtPrompt (t : Phase) (_ : Point) : Prop := t = .prompt

/-- What a user process does, with whether it has exited. -/
def conductUser : Protocol SysOp.Res Fatal Bool where
  allows t o :=
    match t, o with
    | false, .send .request _ _ | false, .recv (.reply _ _) => True
    | false, .send .command _ m => m.word = procExit
    | true, .spin => True
    | _, _ => False
  next t o _ t' :=
    match o with
    | .send .command _ _ => t' = true
    | _ => t' = t
  stops t _ := t = false

/-- A user process goes on. -/
def GoesOn (t : Bool) (_ : Point) : Prop := t = false

/-! ## The programs keep to them -/

section ask

variable {σ : Type} {P : Protocol SysOp.Res Fatal σ} {t : σ}

/-- The talk with a server is of no importance to a protocol. -/
structure Asks (P : Protocol SysOp.Res Fatal σ) (t : σ) : Prop where
  send : ∀ server m, P.allows t (.send .request server m)
  sent : ∀ server m t', P.next t (.send .request server m) () t' → t' = t
  recv : ∀ server m, P.allows t (.recv (.reply server m))
  received : ∀ server m x t', P.next t (.recv (.reply server m)) x t' → t' = t
  stop : ∀ e, P.stops t e

/-- `dir_lookup` keeps to a protocol in which the servers may be asked. -/
theorem Asks.dirLookup (h : Asks P t) (dirIno : ℤ) (name : List UInt8) :
    (dirLookup dirIno name).Follows P (fun t' _ => t' = t) t := by
  refine Follows.sysSend (h.send _ _) fun t₁ ht₁ => ?_
  rw [h.sent _ _ _ ht₁]
  refine Follows.sysRecv (h.recv _ _) fun sender m t₂ ht₂ => ?_
  rw [h.received _ _ _ _ ht₂]
  dsimp only
  split
  · exact h.stop _
  · exact rfl

/-- So does `file_read`. -/
theorem Asks.fileRead (h : Asks P t) (fileIno offset : ℤ) :
    (fileRead fileIno offset).Follows P (fun t' _ => t' = t) t := by
  refine Follows.sysSend (h.send _ _) fun t₁ ht₁ => ?_
  rw [h.sent _ _ _ ht₁]
  refine Follows.sysRecv (h.recv _ _) fun sender m t₂ ht₂ => ?_
  rw [h.received _ _ _ _ ht₂]
  dsimp only
  split
  · exact h.stop _
  · exact rfl

end ask

/-- `GPID_PROCESS` may ask the servers before it has a process to load. -/
theorem asks_spawning (m : Msg) (a : ℤ) : Asks conductProcess (.spawning m a) :=
  ⟨fun _ _ => trivial, fun _ _ _ => id, fun _ _ => trivial, fun _ _ _ _ => id, fun _ => trivial⟩

/-- And when it reads the executable. -/
theorem asks_loaded (m : Msg) (a : ℤ) : Asks conductProcess (.loaded m a false) :=
  ⟨fun _ _ => trivial, fun _ _ _ => id, fun _ _ => trivial, fun _ _ _ _ => id, fun _ => trivial⟩

/-- A user process may ask the servers until it exits. -/
theorem asks_user : Asks conductUser false :=
  ⟨fun _ _ => trivial, fun _ _ _ => id, fun _ _ => trivial, fun _ _ _ _ => id, fun _ => rfl⟩

/-- `app_spawn` either starts a process or leaves `app_pid` alone. -/
theorem conduct_appSpawn (m : Msg) (a : ℤ) :
    (appSpawn m).Follows conductProcess (fun t spawned =>
      match spawned with
      | none => t = .spawning m a
      | some pid => t = .ready m pid) (.spawning m a) := by
  refine ((asks_spawning m a).dirLookup _ _).bind fun t₁ _ ht₁ => ?_
  rw [ht₁]
  refine ((asks_spawning m a).dirLookup _ _).bind fun t₂ _ ht₂ => ?_
  rw [ht₂]
  split
  · exact rfl
  · refine Prog.Follows.call trivial fun pid t₃ ht₃ => ?_
    rw [show t₃ = .loaded m pid false from ht₃]
    refine (follows_elfRead (fun off => ?_) fun _ => trivial).bind fun t₄ _ ht₄ => ?_
    · exact ((asks_loaded m pid).fileRead _ _).bind fun t' _ ht' => ht'
    rw [ht₄]
    refine Prog.Follows.call trivial fun _ t₅ ht₅ => ?_
    rw [show t₅ = .loaded m pid true from ht₅]
    refine Prog.Follows.call trivial fun _ t₆ ht₆ => ?_
    exact ht₆

/-- Setting the type of a request leaves its arguments. -/
theorem setType_lastArg (m : Msg) (type : ℤ) (stray : UInt8) :
    (m.setType type).lastArg stray = m.lastArg stray := by
  cases m <;> rfl

/-- A request with an argument is read within its array. -/
theorem IsSpawn.lastArg {m : Msg} (h : IsSpawn m) (stray : UInt8) :
    m.lastArg stray = m.lastArg 0 := by
  obtain ⟨argc, argv, rfl, hargc⟩ := h
  simp only [Msg.lastArg, if_neg (show ¬ argc = 0 by omega)]

/-- A request to start a program has the type `PROC_SPAWN`. -/
theorem IsSpawn.word {m : Msg} (h : IsSpawn m) : m.word = procSpawn := by
  obtain ⟨argc, argv, rfl, -⟩ := h
  rfl

/-- A round of `GPID_PROCESS` keeps to its protocol. -/
theorem conduct_procServe (a : ℤ) (w : Bool) (stray : UInt8) :
    (procServe a w stray).Follows conductProcess Rests (.idle a w) := by
  refine Follows.sysRecv trivial fun sender m t₁ ht₁ => ?_
  dsimp only
  rcases ht₁ with ⟨hm, rfl⟩ | ⟨hm, rfl⟩ | ⟨hm, rfl⟩
  · rw [if_pos hm.word]
    refine (conduct_appSpawn m a).bind fun t₂ spawned ht₂ => ?_
    have hfore : decide ((m.setType (if spawned = none then cmdError else cmdOk)).lastArg stray
        ≠ ampersand) = m.foreground := by
      rw [setType_lastArg, hm.lastArg]
      rfl
    cases spawned with
    | none =>
      rw [show t₂ = .spawning m a from ht₂]
      refine Follows.sysSend rfl fun t₃ ht₃ => ?_
      exact ⟨a, _, rfl, Or.inl (by rw [show t₃ = _ from ht₃, hfore])⟩
    | some pid =>
      rw [show t₂ = .ready m pid from ht₂]
      refine Follows.sysSend rfl fun t₃ ht₃ => ?_
      exact ⟨pid, _, rfl, Or.inl (by rw [show t₃ = _ from ht₃, hfore])⟩
  · rw [if_neg (by rw [hm]; decide), if_pos hm]
    refine Prog.Follows.call rfl fun _ t₂ ht₂ => ?_
    rw [show t₂ = .freed sender a w from ht₂]
    split
    · rename_i hc
      refine Follows.sysSend hc fun t₃ ht₃ => ?_
      exact ⟨a, w, rfl, Or.inl ht₃⟩
    · rename_i hc
      exact ⟨a, w, rfl, Or.inr (Or.inr ⟨sender, rfl, hc⟩)⟩
  · rw [if_neg (by rw [hm]; decide), if_neg (by rw [hm]; decide), if_pos hm]
    refine Prog.Follows.call rfl fun _ t₂ ht₂ => ?_
    exact ⟨a, w, rfl, Or.inl ht₂⟩

/-- A line that the shell sends on only with an argument. -/
def LineOk (line : List UInt8) : Prop :=
  line = killall ∨ ∀ x ∈ parseRequest line, 1 ≤ x.1

instance (line : List UInt8) : Decidable (LineOk line) :=
  inferInstanceAs (Decidable (_ ∨ ∀ x ∈ parseRequest line, _))

/-- A command keeps to the protocol of the shell. -/
theorem conduct_shellCommand {line : List UInt8} (h : LineOk line) (stray : UInt8) :
    (shellCommand line stray).Follows conductShell (fun t _ => t = .prompt) .prompt := by
  unfold shellCommand
  split
  · refine ⟨Or.inr rfl, fun _ t₁ ht₁ => ?_⟩
    exact ht₁
  · rename_i hkill
    have hargs := h.resolve_left hkill
    cases hparse : parseRequest line with
    | none => exact rfl
    | some x =>
      obtain ⟨argc, argv⟩ := x
      have hspawn : IsSpawn (.proc procSpawn argc argv) := ⟨argc, argv, rfl, hargs _ hparse⟩
      refine Follows.sysSend (Or.inl hspawn) fun t₁ ht₁ => ?_
      rw [show t₁ = .asked (.proc procSpawn argc argv) from ht₁]
      refine Follows.sysRecv trivial fun sender reply t₂ ht₂ => ?_
      rw [show t₂ = _ from ht₂, Phase.after]
      dsimp only
      rw [hspawn.lastArg]
      by_cases hok : reply.word = cmdOk
      · rw [if_neg fun hc => hc hok]
        by_cases hfore : (Msg.proc procSpawn argc argv).lastArg 0 ≠ ampersand
        · rw [if_pos hfore, if_pos ⟨hok, decide_eq_true hfore⟩]
          exact Follows.sysRecv trivial fun _ _ t₃ ht₃ => ht₃
        · rw [if_neg hfore, if_neg fun hc => hfore (of_decide_eq_true hc.2)]
          exact rfl
      · rw [if_pos hok, if_neg fun hc => hok hc.1]
        exact rfl

/-- A user process keeps to its protocol. -/
theorem conduct_user (env : Env) (choice : Choice) :
    (main env choice .user).Follows conductUser GoesOn false := by
  rw [main]
  split
  · exact (asks_user.dirLookup _ _).bind fun t _ ht => ht
  · exact (asks_user.fileRead _ _).bind fun t _ ht => ht
  · refine Follows.sysSend rfl fun t ht => ?_
    rw [show t = true from ht]
    exact ⟨trivial, by intros; contradiction⟩

end Egos.Apps
