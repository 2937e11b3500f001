import Egos.Apps.Evaluation
import Egos.Apps.Launching

/-!
# The shell and `GPID_PROCESS` agree

What the invariant of the conversation says about the two programs. `GPID_PROCESS` does not stop, it
sends to the shell only what the shell waits for, and whatever the shell waits for is on its way:
`GPID_PROCESS` is going to send it, or the process that was started last goes on and its exit will
be reported. This holds in every run whose moves meet the condition `Orderly`. The last section has
a run in which one does not, and `GPID_PROCESS` and the shell wait for each other.
-/

namespace Egos.Apps

open Egos.Grass
open Function (update update_self update_of_ne)

/-! ## What a program is going to do -/

/-- The program waits for a message on a topic. -/
def Awaits (topic : Topic) (prog : App Point) : Prop := ∃ k, prog = .op (.recv topic) k

/-- The call sends a message on a topic. -/
def SysOp.Sends (topic : Topic) : SysOp → Prop
  | .send topic' _ _ => topic' = topic
  | _ => False

/-- Whatever it is told, of what it may be told, the program sends a message on a topic before it is
back in its loop. -/
def WillSend (env : Env) (topic : Topic) : App Point → Prop
  | .ret _ => False
  | .stop _ => False
  | .op o k => o.Sends topic ∨
      (∃ result, Granted env o result) ∧ ∀ result, Granted env o result →
        WillSend env topic (k result)

/-- The call takes in a request. -/
def SysOp.isCommand : SysOp → Bool
  | .recv .command => true
  | _ => false

/-- The call takes in the exit of process `pid`. -/
def SysOp.TakesExit (pid : ℤ) : (o : SysOp) → o.Res → Prop
  | .recv .command, (sender, m) => sender = pid ∧ m.word = procExit
  | _, _ => False

/-- The program reports the exit of process `pid` to the shell when it is the next request. -/
def Armed (env : Env) (pid : ℤ) : App Point → Prop
  | .ret point => point = .process pid true
  | .stop _ => False
  | .op o k => (∀ result, o.TakesExit pid result → WillSend env .termination (k result)) ∧
      (o.isCommand = false → (∃ result, Granted env o result) ∧
        ∀ result, Granted env o result → Armed env pid (k result))

/-- `GPID_PROCESS` is serving a request to start a command. -/
def Stage.Serving : Stage → Prop
  | spawning _ _ | loaded _ _ _ | ready _ _ => True
  | _ => False

/-- `GPID_PROCESS` is serving the exit of the process that the shell waits for. -/
def Stage.Notifying : Stage → Prop
  | exiting q a w | freed q a w => w = true ∧ a = q
  | _ => False

/-- `GPID_PROCESS` is serving nothing, or the exit of another process. -/
def Stage.Watching (pid : ℤ) : Stage → Prop
  | idle a w => w = true ∧ a = pid
  | exiting q a w | freed q a w => w = true ∧ a = pid ∧ q ≠ pid
  | _ => False

variable {env : Env} {prog : App Point} {t : Stage} {pid : ℤ}

/-- A command that is being served has a status. -/
theorem willSend_status (h : prog.Follows conductProcess Rests t) (ht : t.Serving)
    (hreturns : prog.Returns (Granted env) fun _ => True) : WillSend env .status prog := by
  induction prog generalizing t with
  | ret point =>
    obtain ⟨a, w, -, rfl | ⟨rfl, -⟩ | ⟨q, rfl, -⟩⟩ := h <;> exact ht.elim
  | stop e => exact hreturns.elim
  | op o k ih =>
    obtain ⟨hallow, hnext⟩ := h
    -- one step of `app_spawn`
    have hstep : o.Sends .status ∨ ∀ result,
        ∃ t' : Stage, conductProcess.next t o result t' ∧ t'.Serving := by
      cases t with
      | spawning m a =>
        cases o with
        | send topic r m =>
          cases topic with
          | status => exact Or.inl rfl
          | request => exact Or.inr fun _ => ⟨_, rfl, ht⟩
          | _ => exact hallow.elim
        | recv topic =>
          cases topic with
          | reply server req => exact Or.inr fun _ => ⟨_, rfl, ht⟩
          | _ => exact hallow.elim
        | procAlloc => exact Or.inr fun _ => ⟨_, rfl, trivial⟩
        | _ => exact hallow.elim
      | loaded m a mapped =>
        cases o with
        | send topic r m =>
          cases topic with
          | request => exact Or.inr fun _ => ⟨_, rfl, ht⟩
          | _ => exact hallow.elim
        | recv topic =>
          cases topic with
          | reply server req => exact Or.inr fun _ => ⟨_, rfl, ht⟩
          | _ => exact hallow.elim
        | elfLoad pid image => exact Or.inr fun _ => ⟨_, rfl, trivial⟩
        | procSetReady pid => exact Or.inr fun _ => ⟨_, rfl, trivial⟩
        | _ => exact hallow.elim
      | ready m a =>
        cases o with
        | send topic r m =>
          cases topic with
          | status => exact Or.inl rfl
          | _ => exact hallow.elim
        | _ => exact hallow.elim
      | _ => exact ht.elim
    refine hstep.imp_right fun hstep => ⟨hreturns.1, fun result hresult => ?_⟩
    obtain ⟨t', ht', hserving⟩ := hstep result
    exact ih result (hnext result t' ht') hserving (hreturns.2 result hresult)

/-- The exit of the process that the shell waits for is reported. -/
theorem willSend_termination (h : prog.Follows conductProcess Rests t) (ht : t.Notifying) :
    WillSend env .termination prog := by
  induction prog generalizing t with
  | ret point =>
    obtain ⟨a, w, -, rfl | ⟨rfl, -⟩ | ⟨q, rfl, hne⟩⟩ := h
    · exact ht.elim
    · exact ht.elim
    · exact hne ht
  | stop e => cases t <;> first | exact ht.elim | exact h.elim
  | op o k ih =>
    obtain ⟨hallow, hnext⟩ := h
    cases t with
    | exiting q a w =>
      cases o with
      | procFree pid => exact Or.inr ⟨⟨(), trivial⟩, fun _ _ => ih _ (hnext () _ rfl) ht⟩
      | _ => exact hallow.elim
    | freed q a w =>
      cases o with
      | send topic r m =>
        cases topic with
        | termination => exact Or.inl rfl
        | _ => exact hallow.elim
      | _ => exact hallow.elim
    | _ => exact ht.elim

/-- The exit of the process that the shell waits for will be reported. -/
theorem armed_of_watching (h : prog.Follows conductProcess Rests t) (ht : t.Watching pid) :
    Armed env pid prog := by
  induction prog generalizing t with
  | ret point =>
    obtain ⟨a, w, rfl, rfl | ⟨rfl, -⟩ | ⟨q, rfl, hne⟩⟩ := h
    · obtain ⟨rfl, rfl⟩ := ht
      exact rfl
    · exact ht.elim
    · obtain ⟨rfl, rfl, -⟩ := ht
      exact rfl
  | stop e =>
    cases t <;> first | exact ht.elim | exact h.elim
  | op o k ih =>
    obtain ⟨hallow, hnext⟩ := h
    cases t with
    | idle a w =>
      obtain ⟨rfl, rfl⟩ := ht
      cases o with
      | recv topic =>
        cases topic with
        | command =>
          refine ⟨?_, nofun⟩
          rintro ⟨sender, m⟩ ⟨rfl, hm⟩
          exact willSend_termination (hnext _ _ (Or.inr (Or.inl ⟨hm, rfl⟩))) ⟨rfl, rfl⟩
        | _ => exact hallow.elim
      | _ => exact hallow.elim
    | exiting q a w =>
      cases o with
      | procFree pid =>
        exact ⟨nofun, fun _ => ⟨⟨(), trivial⟩, fun _ _ => ih _ (hnext () _ rfl) ht⟩⟩
      | _ => exact hallow.elim
    | freed q a w =>
      cases o with
      | send topic r m =>
        cases topic with
        | termination => exact absurd (hallow.2.symm.trans ht.2.1) ht.2.2
        | _ => exact hallow.elim
      | _ => exact hallow.elim
    | _ => exact ht.elim

/-! ## What the two say to each other -/

/-- What process `p` executes once it has taken in the message that has arrived for it. -/
def System.pending (s : System) (p : ℤ) : App Point := (s.parties Talk.initial p).pending

section conversation

variable {x : ℤ → Party} {n : ℤ} {alloc : Option ℤ} {g : Ghost} {topic : Topic}

/-- The shell waits for what its phase says. -/
theorem Conversation.awaits (h : Conversation n alloc (view x) g) (hp : g.phase.Expects topic) :
    Awaits topic (x gpidShell).pending := by
  have hf : (x gpidShell).pending.Follows conductShell AtPrompt g.phase := h.shell
  have hphase : g.phase ≠ .prompt := by
    intro hc
    rw [hc] at hp
    exact hp
  cases hprog : (x gpidShell).pending with
  | ret point =>
    rw [hprog] at hf
    exact absurd hf hphase
  | stop e =>
    rw [hprog] at hf
    exact hf.elim
  | op o k =>
    rw [hprog] at hf
    have hallow := hf.1
    cases hph : g.phase with
    | prompt => exact absurd hph hphase
    | asked m =>
      rw [hph] at hallow hp
      cases o with
      | recv topic' =>
        cases topic' <;> cases topic <;> first | exact ⟨k, rfl⟩ | exact hallow.elim | exact hp.elim
      | _ => exact hallow.elim
    | running =>
      rw [hph] at hallow hp
      cases o with
      | recv topic' =>
        cases topic' <;> cases topic <;> first | exact ⟨k, rfl⟩ | exact hallow.elim | exact hp.elim
      | _ => exact hallow.elim

/-- What the shell waits for is what its phase says. -/
theorem Conversation.expects (h : Conversation n alloc (view x) g)
    (hw : Awaits topic (x gpidShell).pending) : g.phase.Expects topic := by
  obtain ⟨k, hprog⟩ := hw
  have hf : (x gpidShell).pending.Follows conductShell AtPrompt g.phase := h.shell
  rw [hprog] at hf
  have hallow := hf.1
  cases hp : g.phase with
  | prompt =>
    rw [hp] at hallow
    exact hallow
  | asked m =>
    rw [hp] at hallow
    exact hallow
  | running =>
    rw [hp] at hallow
    exact hallow

/-- While it waits for a process to end, the shell sends nothing. -/
theorem Conversation.command_running {v : View} (h : Conversation n alloc v g)
    (hp : g.phase = .running) : v.command = none := by
  cases hc : v.command with
  | none => rfl
  | some y => rcases h.command y.1 y.2 hc with ⟨-, hph⟩ | ⟨-, hph⟩ <;> rw [hp] at hph <;> cases hph

/-- `GPID_PROCESS` sends to the shell only what it waits for. -/
theorem Conversation.sends (h : Conversation n alloc (view x) g) (hx : PartiesOk env True n alloc x)
    {m : Msg} {k : Unit → App Point}
    (hprog : (x gpidProcess).task.prog = .op (.send topic gpidShell m) k) :
    Awaits topic (x gpidShell).pending ∧ (x gpidShell).wait ≠ .toSend gpidProcess := by
  have hrecv : (x gpidProcess).task.receiving = false :=
    (hx.party gpidProcess).not_receiving fun _ _ hc => by
      rw [hprog] at hc
      cases hc
  have hpending : (view x).process = .op (.send topic gpidShell m) k :=
    (Party.pending_of_not_receiving hrecv).trans hprog
  obtain ⟨⟨-, -, hsend⟩, -⟩ := (hx.party gpidProcess).allows hprog
  have hallow := h.process
  rw [hpending] at hallow
  have hallow := hallow.1
  -- the stage says what the shell waits for
  obtain ⟨hexpects, hcommand⟩ : g.phase.Expects topic ∧ (view x).command = none := by
    cases topic with
    | status =>
      cases hs : g.stage with
      | spawning req a =>
        have hagrees := h.agrees (h.letter_stage (by simp [hs]))
        rw [Agrees, hs] at hagrees
        exact ⟨by rw [hagrees.1]; trivial, hagrees.2⟩
      | ready req a =>
        have hagrees := h.agrees (h.letter_stage (by simp [hs]))
        rw [Agrees, hs] at hagrees
        exact ⟨by rw [hagrees.1]; trivial, hagrees.2.1⟩
      | _ =>
        rw [hs] at hallow
        exact hallow.elim
    | termination =>
      cases hs : g.stage with
      | freed q a w =>
        rw [hs] at hallow
        have hagrees := h.agrees (h.letter_stage (by simp [hs]))
        rw [Agrees, hs] at hagrees
        have hphase := (hagrees.2.2.1 hallow).1
        exact ⟨by rw [hphase]; trivial, h.command_running hphase⟩
      | _ =>
        rw [hs] at hallow
        exact hallow.elim
    | request => exact absurd hsend.2.1.isServer.le (by decide)
    | reply server req => exact absurd hsend.2.1.le (by decide)
    | boot => exact absurd hsend.2.1 (by decide)
    | command => exact absurd hsend.2.1 (by decide)
  exact ⟨h.awaits hexpects, Party.wait_of_letterTo_none hcommand⟩

/-- A party with a letter for `r` waits to send to it. -/
theorem Party.wait_of_letterTo {a : Party} {r : ℤ} (h : a.letterTo r ≠ none) :
    a.wait = .toSend r := by
  by_contra hw
  exact h (Party.letterTo_none r hw)

/-- When the shell waits for a status, it is on its way. -/
theorem Conversation.status (h : Conversation n alloc (view x) g) (hup : StaysUp env x)
    (hw : Awaits .status (x gpidShell).pending) : (x gpidShell).wait = .toSend gpidProcess ∨
      (x gpidProcess).wait = .toSend gpidShell ∨ WillSend env .status (x gpidProcess).pending := by
  obtain ⟨m, hphase⟩ : ∃ m, g.phase = .asked m := by
    have hexpects := h.expects hw
    cases hp : g.phase with
    | asked m => exact ⟨m, rfl⟩
    | _ =>
      rw [hp] at hexpects
      exact hexpects.elim
  have hsends : ∀ t : Stage, g.stage = t → t.Serving →
      WillSend env .status (x gpidProcess).pending :=
    fun t ht hserving => willSend_status (ht ▸ h.process) hserving hup.returns
  have hmatched : ∀ a w, Matched (view x) g a w → (x gpidShell).wait = .toSend gpidProcess := by
    intro a w hm
    rw [Matched, hphase] at hm
    exact Party.wait_of_letterTo hm.1
  by_cases hl : (view x).letter = none
  · have hagrees := h.agrees hl
    unfold Agrees at hagrees
    cases hs : g.stage with
    | spawning req a => exact Or.inr (Or.inr (hsends _ hs trivial))
    | loaded req a mapped => exact Or.inr (Or.inr (hsends _ hs trivial))
    | ready req a => exact Or.inr (Or.inr (hsends _ hs trivial))
    | booting left =>
      rw [hs] at hagrees
      exact Or.inl (hmatched _ _ hagrees)
    | idle a w =>
      rw [hs] at hagrees
      exact Or.inl (hmatched _ _ hagrees)
    | exiting q a w =>
      rw [hs] at hagrees
      exact Or.inl (hmatched _ _ (hagrees.2.2.2 fun hc =>
        absurd (hphase.symm.trans (hagrees.2.2.1 hc)) (by simp)))
    | freed q a w =>
      rw [hs] at hagrees
      exact Or.inl (hmatched _ _ (hagrees.2.2.2 fun hc =>
        absurd (hphase.symm.trans (hagrees.2.2.1 hc).1) (by simp)))
    | killing a w =>
      rw [hs] at hagrees
      exact Or.inl (hmatched _ _ hagrees.2)
  · exact Or.inr (Or.inl (Party.wait_of_letterTo hl))

/-- A user process that the shell waits for goes on, or its exit is on its way. -/
theorem Conversation.live (h : Conversation n alloc (view x) g) (hlive : Live (view x) g n)
    (halloc : alloc = none) : gpidUserStart ≤ n ∧ (x n).wait ≠ .gone ∧
      ((x n).pending.atSpin = true → (x n).wait = .toSend gpidProcess) := by
  obtain ⟨hn, hgone, hexit⟩ := hlive
  refine ⟨hn, by simpa [view, hn] using hgone, fun hspin => ?_⟩
  have hf := h.user n hn hgone (by simp [halloc])
  rw [view_user_pending hn] at hf
  have hexited : g.exited n = true := by
    cases hprog : (x n).pending with
    | op o k =>
      cases o with
      | spin =>
        rw [hprog] at hf
        cases he : g.exited n with
        | true => rfl
        | false =>
          rw [he] at hf
          exact hf.1.elim
      | _ =>
        rw [hprog] at hspin
        cases hspin
    | _ =>
      rw [hprog] at hspin
      cases hspin
  have hletter := hexit hexited
  simp only [view, hn, if_true] at hletter
  exact Party.wait_of_letterTo hletter

/-- When the shell waits for a process to end, its end will be reported. -/
theorem Conversation.termination (h : Conversation n alloc (view x) g)
    (hw : Awaits .termination (x gpidShell).pending) :
    (x gpidProcess).wait = .toSend gpidShell ∨ WillSend env .termination (x gpidProcess).pending ∨
      Armed env n (x gpidProcess).pending ∧ gpidUserStart ≤ n ∧ (x n).wait ≠ .gone ∧
        ((x n).pending.atSpin = true → (x n).wait = .toSend gpidProcess) := by
  have hphase : g.phase = .running := by
    have hexpects := h.expects hw
    cases hp : g.phase with
    | running => rfl
    | _ =>
      rw [hp] at hexpects
      exact hexpects.elim
  have happ := h.app
  -- `GPID_PROCESS` watches the process that was started last
  have hwatch : ∀ t : Stage, ∀ a w, g.stage = t → Matched (view x) g a w →
      (Live (view x) g a → a = n) → alloc = none → (w = true → a = n → t.Watching n) →
      Armed env n (x gpidProcess).pending ∧ gpidUserStart ≤ n ∧ (x n).wait ≠ .gone ∧
        ((x n).pending.atSpin = true → (x n).wait = .toSend gpidProcess) := by
    intro t a w ht hm ha hnone hwatching
    rw [Matched, hphase] at hm
    obtain ⟨hw, hl⟩ := hm
    obtain rfl := ha hl
    exact ⟨armed_of_watching (ht ▸ h.process) (hwatching hw rfl), h.live hl hnone⟩
  by_cases hl : (view x).letter = none
  · refine Or.inr ?_
    have hagrees := h.agrees hl
    unfold Agrees at hagrees
    cases hs : g.stage with
    | booting left =>
      rw [hs] at hagrees
      have hagrees : Matched (view x) g 0 false := hagrees
      rw [Matched, hphase] at hagrees
      exact absurd hagrees.1 (by simp)
    | idle a w =>
      rw [hs] at hagrees happ
      exact Or.inr (hwatch _ a w hs hagrees (fun hl => happ.live hl rfl) happ.1
        fun hw ha => ⟨hw, ha⟩)
    | exiting q a w =>
      rw [hs] at hagrees happ
      by_cases hc : w = true ∧ a = q
      · exact Or.inl (willSend_termination (t := .exiting q a w) (hs ▸ h.process) hc)
      · exact Or.inr (hwatch _ a w hs (hagrees.2.2.2 hc) (fun hl => happ.live hl rfl) happ.1
          fun hw ha => ⟨hw, ha, fun hq => hc ⟨hw, ha.trans hq.symm⟩⟩)
    | freed q a w =>
      rw [hs] at hagrees happ
      by_cases hc : w = true ∧ a = q
      · exact Or.inl (willSend_termination (t := .freed q a w) (hs ▸ h.process) hc)
      · exact Or.inr (hwatch _ a w hs (hagrees.2.2.2 hc) (fun hl => happ.live hl rfl) happ.1
          fun hw ha => ⟨hw, ha, fun hq => hc ⟨hw, ha.trans hq.symm⟩⟩)
    | killing a w =>
      rw [hs] at hagrees
      exact absurd hphase hagrees.1
    | spawning m a =>
      rw [hs] at hagrees
      exact absurd (hphase.symm.trans hagrees.1) (by simp)
    | loaded m a mapped =>
      rw [hs] at hagrees
      exact absurd (hphase.symm.trans hagrees.1) (by simp)
    | ready m a =>
      rw [hs] at hagrees
      exact absurd (hphase.symm.trans hagrees.1) (by simp)
  · exact Or.inl (Party.wait_of_letterTo hl)

end conversation

/-! ## Runs -/

/-- The program is at the head of its loop. -/
def App.atRet : App Point → Bool
  | .ret _ => true
  | _ => false

/-- The status that the program is about to send. -/
def App.statusMsg : App Point → Option Msg
  | .op (.send .status _ m) _ => some m
  | _ => none

/-- The message that the program is about to send. -/
def App.sentMsg : App Point → Option Msg
  | .op (.send _ _ m) _ => some m
  | _ => none

/-- A move that leaves the shell and `GPID_PROCESS` in agreement: a message disturbs no one, a line
that is typed has an argument, no user process goes on when the shell is told that a foreground
command was not found, a command that the shell asks for can be launched if it is found, and Ctrl+C
ends either the process that the shell is told to wait for, or another one while the shell runs. -/
def Orderly (env : Env) (s : System) : Move → Prop
  | .run choice =>
    Undisturbed s (.run choice) ∧
    ((s.task s.kernel.currPid).prog.atRet = true → s.kernel.currPid = gpidShell →
      LineOk choice.line) ∧
    (∀ m ∈ (s.task s.kernel.currPid).prog.statusMsg, m.word ≠ cmdOk → m.foreground = true →
      s.kernel.procNprocs < gpidUserStart ∨ s.kernel.wait s.kernel.procNprocs = .gone) ∧
    ∀ m ∈ (s.task s.kernel.currPid).prog.sentMsg, s.kernel.currPid = gpidShell →
      m.word = procSpawn → Launches env m
  | .timer ctrlC => ctrlC = true → gpidUserStart ≤ s.kernel.currPid →
      KillOk (s.parties Talk.initial) s.kernel.procNprocs s.kernel.currPid

instance (x : ℤ → Party) (n p : ℤ) : Decidable (KillOk x n p) :=
  inferInstanceAs (Decidable (_ ∧ (_ ∨ _) ∨ _ ∧ _ ∧ _ ∧ _))

instance (env : Env) (s : System) : (a : Move) → Decidable (Orderly env s a)
  | .run _ => inferInstanceAs
      (Decidable (_ ∧ (_ → _ → _) ∧ (∀ m ∈ _, _ → _ → _) ∧ ∀ m ∈ _, _ → _ → _))
  | .timer _ => inferInstanceAs (Decidable (_ → _ → _))

variable {s : System}

/-- Orderly moves do not disturb `GPID_PROCESS`. -/
theorem Orderly.undisturbed {a : Move} (h : Orderly env s a) : Undisturbed s a := by
  cases a with
  | run choice => exact h.1
  | timer ctrlC => exact fun m hm => by cases hm

/-- The invariant of the system, with what is said, and with the replies that are given. -/
structure InConversation (env : Env) (s : System) : Prop where
  machine : MachineOk s.machine
  replies : SystemOk env False s
  parties : ∃ σ g, PartiesOk env True s.kernel.procNprocs s.machine.allocated (s.parties σ) ∧
    Kept (s.parties σ) ∧ StaysUp env (s.parties σ) ∧
    Conversation s.kernel.procNprocs s.machine.allocated (view (s.parties σ)) g

/-- The reply that has arrived for a process is that of the server it has asked. -/
theorem SystemOk.answered (h : SystemOk env False s) {p server : ℤ} {req : Msg}
    {k : ℤ × Msg → App Point} {σ : ℤ → Talk}
    (hprog : (s.parties σ p).task.prog = .op (.recv (.reply server req)) k)
    (hgot : (s.parties σ p).Got) : (s.parties σ p).msg.sender = server ∧
      Answers env server req (s.parties σ p).msg.content.body := by
  obtain ⟨-, τ, hp⟩ := h
  rcases (hp.party p).inbox _ k hprog hgot with ⟨hs, -, -, ha⟩ | ⟨hc, -⟩
  · exact ⟨hs, ha⟩
  · exact hc.elim

/-- The step: an orderly move keeps the invariant. -/
theorem InConversation.move (h : InConversation env s) (hfs : FsOk env) {a : Move} {s' : System}
    (hok : Orderly env s a) (hmove : s.move env a = some s') : InConversation env s' := by
  obtain ⟨hm, hr, σ, g, hx, hk, hup, hconv⟩ := h
  obtain ⟨hm', σ', hmove'⟩ := party_move (σ := σ) hm (fun r hr => (hx.party r).waiting hr) hmove
  have hfree : (s.parties σ s.kernel.currPid).wait = .free := hm.scheduled.wait_curr
  have hx' := hx.move hfree (currPid_le hm) hm.allocated
    (fun _ _ _ _ _ _ _ hf => absurd trivial hf) hmove'
  have hline : ∀ choice point, a = .run choice →
      (s.parties σ s.kernel.currPid).task.prog = .ret point → s.kernel.currPid = gpidShell →
      LineOk choice.line := by
    rintro choice point rfl hprog hp
    have hprog : (s.task s.kernel.currPid).prog = .ret point := hprog
    exact hok.2.1 (by rw [hprog]; rfl) hp
  have hstatus : ∀ choice r m k, a = .run choice →
      (s.parties σ s.kernel.currPid).task.prog = .op (.send .status r m) k →
      m.word ≠ cmdOk → m.foreground = true → Dead (view (s.parties σ)) s.kernel.procNprocs := by
    rintro choice r m k rfl hprog hword hfore
    have hprog : (s.task s.kernel.currPid).prog = .op (.send .status r m) k := hprog
    rcases hok.2.2.1 m (by rw [hprog]; rfl) hword hfore with hlt | hgone
    · exact Or.inl hlt
    · by_cases h5 : gpidUserStart ≤ s.kernel.procNprocs
      · exact Or.inr (by simpa [view, h5, System.parties] using hgone)
      · exact Or.inl (not_le.1 h5)
  have hkill : a = .timer true → gpidUserStart ≤ s.kernel.currPid →
      KillOk (s.parties σ) s.kernel.procNprocs s.kernel.currPid := by
    rintro rfl hp
    exact hok rfl hp
  obtain ⟨g', hconv'⟩ := hconv.move hx hk hfree (currPid_le hm) hm.allocated
    hline hstatus hkill hmove'
  have hr' := hr.move (fun _ => hok.undisturbed) hmove
  have hcommand : ∀ choice topic r m k, a = .run choice → s.kernel.currPid = gpidShell →
      (s.parties σ s.kernel.currPid).task.prog = .op (.send topic r m) k →
      m.word = procSpawn → Launches env m := by
    rintro choice topic r m k rfl hp hprog
    have hprog : (s.task s.kernel.currPid).prog = .op (.send topic r m) k := hprog
    exact hok.2.2.2 m (by rw [hprog]; rfl) hp
  have hup' := hup.move hfs hconv hx hfree (currPid_le hm) hm.allocated hcommand
    (fun _ _ _ hprog hgot => hr'.answered hprog hgot) hmove'
  exact ⟨hm', hr', σ', g', hx', hk.move hmove', hup', hconv'⟩

end Egos.Apps
