import Egos.Apps.Pairing

/-!
# The processes as parties

For what the processes say to each other, all that matters of a process is its `Party`: what it
executes, where it stands in its talk, what holds it up and the message in its system-call area. The
system is a family of parties, and each of its moves is one of the changes of `PartyMove`: a party
goes on, posts a message, blocks in `sys_recv`, is given a message or takes it in, and processes
start and end. The slots, the stack of the kernel and its scheduler are gone.
-/

namespace Egos.Apps

open Egos.Grass
open Function (update update_self update_of_ne update_idem update_eq_self)

/-- A process, as far as its conversation with others goes. -/
structure Party where
  task : Task
  talk : Talk
  asks : ℕ
  serves : ℤ × ℕ
  wait : Wait
  msg : SysMsg Letter

/-! ## Changes -/

/-- The party that has posted a message. -/
def Party.posted (a : Party) (p : ℤ) (topic : Topic) (r : ℤ) (m : Msg) (prog : App Point) :
    Party where
  task := ⟨prog, false⟩
  talk := a.talk.sent topic r m
  asks := if topic.isRequest then a.asks + 1 else a.asks
  serves := a.serves
  wait := .toSend r
  msg := ⟨p, r, ⟨if topic.isRequest then (p, a.asks + 1) else a.serves, topic, m⟩⟩

/-- The talk after a message was taken in. -/
def Talk.taken (t : Talk) (topic : Topic) (sender : ℤ) (m : Msg) : Talk :=
  match topic with
  | .reply server _ =>
    if sender = server then t.received topic sender m else { t with lost := true }
  | _ => t.received topic sender m

/-- The party that has taken in the message in its system-call area. -/
def Party.taken (a : Party) (topic : Topic) (k : ℤ × Msg → App Point) : Party where
  task := ⟨k (a.msg.sender, a.msg.content.body), false⟩
  talk := a.talk.taken topic a.msg.sender a.msg.content.body
  asks := a.asks
  serves := if topic.isRequest then a.msg.content.tag else a.serves
  wait := a.wait
  msg := a.msg

/-- The parties after the message that `p` waits to send to `r` was delivered. -/
def delivered (x : ℤ → Party) (p r : ℤ) : ℤ → Party :=
  update (update x p { x p with wait := .free }) r
    { x r with
      task := ⟨(x r).task.prog, true⟩
      wait := .free
      msg := (x p).msg }

/-- Some user processes end. -/
def ended (D : ℤ → Prop) [DecidablePred D] (x : ℤ → Party) : ℤ → Party :=
  fun q => if D q then { x q with wait := .gone } else x q

/-- The processes that `proc_free` ends. -/
def FreedBy (pid q : ℤ) : Prop := if pid = -1 then q ≥ gpidUserStart else q = pid

instance (pid : ℤ) : DecidablePred (FreedBy pid) := fun q =>
  inferInstanceAs (Decidable (if pid = -1 then q ≥ gpidUserStart else q = pid))

/-- Only user processes are freed. -/
theorem FreedBy.user {pid q : ℤ} (h : FreedBy pid q) (hpid : gpidUserStart ≤ pid ∨ pid = -1) :
    gpidUserStart ≤ q := by
  unfold FreedBy at h
  split at h
  next => exact h
  next hne => exact h ▸ hpid.resolve_right hne

section

variable {x : ℤ → Party} {p q r : ℤ} {D : ℤ → Prop} [DecidablePred D]

/-- The receiver has the message, and is let go. -/
theorem delivered_receiver : delivered x p r r
    = { x r with
        task := ⟨(x r).task.prog, true⟩
        wait := .free
        msg := (x p).msg } := update_self _ _ _

/-- Other parties are left. -/
theorem delivered_other (hqp : q ≠ p) (hqr : q ≠ r) : delivered x p r q = x q :=
  (update_of_ne hqr _ _).trans (update_of_ne hqp _ _)

/-- A process that ends is gone. -/
theorem ended_of (hp : D p) : ended D x p = { x p with wait := .gone } := if_pos hp

/-- Other processes are left. -/
theorem ended_of_not (hp : ¬ D p) : ended D x p = x p := if_neg hp

end

/-- What a move of the system is for its parties, of which `p` is the current one; `n` is the last
pid that was given out, and `alloc` the one that is being set up. -/
inductive PartyMove (env : Env) (n : ℤ) (alloc : Option ℤ) (x : ℤ → Party) (p : ℤ) :
    Move → ℤ → Option ℤ → (ℤ → Party) → Prop
  | loop {choice : Choice} {point : Point} : (x p).task.prog = .ret point →
      PartyMove env n alloc x p (.run choice) n alloc
        (update x p { x p with task := ⟨main env choice point, false⟩ })
  | lost {choice : Choice} {topic : Topic} {r : ℤ} {m : Msg} {k : Unit → App Point} :
      (x p).task.prog = .op (.send topic r m) k → (x r).wait = .gone →
      PartyMove env n alloc x p (.run choice) n alloc
        (update x p { (x p).posted p topic r m (k ()) with wait := .free })
  | posted {choice : Choice} {topic : Topic} {r : ℤ} {m : Msg} {k : Unit → App Point} :
      (x p).task.prog = .op (.send topic r m) k → (x r).wait ≠ .toRecv →
      PartyMove env n alloc x p (.run choice) n alloc
        (update x p ((x p).posted p topic r m (k ())))
  | sent {choice : Choice} {topic : Topic} {r : ℤ} {m : Msg} {k : Unit → App Point} :
      (x p).task.prog = .op (.send topic r m) k → (x r).wait = .toRecv →
      PartyMove env n alloc x p (.run choice) n alloc
        (delivered (update x p ((x p).posted p topic r m (k ()))) p r)
  | blocked {choice : Choice} {topic : Topic} {k : ℤ × Msg → App Point} :
      (x p).task.prog = .op (.recv topic) k → (x p).task.receiving = false →
      (∀ q, (x q).wait ≠ .toSend p) →
      PartyMove env n alloc x p (.run choice) n alloc
        (update x p { x p with task := ⟨(x p).task.prog, true⟩, wait := .toRecv })
  | given {choice : Choice} {topic : Topic} {k : ℤ × Msg → App Point} {q : ℤ} :
      (x p).task.prog = .op (.recv topic) k → (x p).task.receiving = false →
      (x q).wait = .toSend p →
      PartyMove env n alloc x p (.run choice) n alloc (delivered x q p)
  | taken {choice : Choice} {topic : Topic} {k : ℤ × Msg → App Point} :
      (x p).task.prog = .op (.recv topic) k → (x p).task.receiving = true →
      PartyMove env n alloc x p (.run choice) n alloc (update x p ((x p).taken topic k))
  | alloc {choice : Choice} {k : ℤ → App Point} : p = gpidProcess →
      (x p).task.prog = .op .procAlloc k →
      PartyMove env n alloc x p (.run choice) (n + 1) (some (n + 1))
        (update (update x p { x p with
            task := ⟨k (n + 1), false⟩
            talk := { (x p).talk with spawned := n + 1, loading := some (n + 1) } })
          (n + 1) { x (n + 1) with wait := .loading })
  | ready {choice : Choice} {pid : ℤ} {k : Unit → App Point} {w : Wait} : p = gpidProcess →
      (x p).task.prog = .op (.procSetReady pid) k → alloc = some pid →
      w = .free ∨ w = (x pid).wait →
      PartyMove env n alloc x p (.run choice) n none
        (update (update x p { x p with
            task := ⟨k (), false⟩
            talk := { (x p).talk with loading := none } })
          pid { x pid with wait := w })
  | load {choice : Choice} {pid : ℤ} {image : Image} {k : Unit → App Point} :
      (x p).task.prog = .op (.elfLoad pid image) k →
      PartyMove env n alloc x p (.run choice) n alloc
        (update (update x p { x p with task := ⟨k (), false⟩ })
          pid { update x p { x p with task := ⟨k (), false⟩ } pid with
            task := ⟨start image, false⟩ })
  | free {choice : Choice} {pid : ℤ} {k : Unit → App Point} : p = gpidProcess →
      (x p).task.prog = .op (.procFree pid) k → pid ≥ gpidUserStart ∨ pid = -1 →
      PartyMove env n alloc x p (.run choice) n alloc
        (update (ended (FreedBy pid) x) p { x p with task := ⟨k (), false⟩ })
  | stay {a : Move} : PartyMove env n alloc x p a n alloc x
  | killed : p ≥ gpidUserStart →
      PartyMove env n alloc x p (.timer true) n alloc
        (update (ended (· = p) x) gpidShell { x gpidShell with wait := .free })
  | killedAlone : p ≥ gpidUserStart → (x gpidShell).wait = .gone →
      PartyMove env n alloc x p (.timer true) n alloc (ended (· = p) x)

/-! ## The system as parties -/

/-- The parties of the system, with their talks. -/
def System.parties (s : System) (σ : ℤ → Talk) : ℤ → Party := fun p =>
  { task := s.task p
    talk := σ p
    asks := s.asks p
    serves := s.serves p
    wait := s.kernel.wait p
    msg := s.kernel.msg p }

variable {env : Env} {s : System} {σ : ℤ → Talk}

/-- A program that goes on changes its party only. -/
theorem parties_resume (p : ℤ) (prog : App Point) : (s.resume p prog).parties σ
    = update (s.parties σ) p { s.parties σ p with task := ⟨prog, false⟩ } := by
  funext q
  by_cases hq : q = p
  · rw [hq, update_self, System.parties]
    simp only [System.resume, update_self]
    rfl
  · rw [update_of_ne hq, System.parties]
    simp only [System.resume, update_of_ne hq]
    rfl

/-- The parties after `sys_send`. -/
theorem parties_sent {m : Machine Letter} {p r : ℤ} {topic : Topic} {msg : Msg} {prog : App Point}
    {w : Wait} (hwait : m.kernel.wait = update s.kernel.wait p w)
    (hmsg : m.kernel.msg = update s.kernel.msg p ⟨p, r, ⟨s.tag p topic, topic, msg⟩⟩) :
    (s.sent p topic prog m).parties (update σ p ((σ p).sent topic r msg))
      = update (s.parties σ) p { (s.parties σ p).posted p topic r msg prog with wait := w } := by
  funext q
  by_cases hq : q = p
  · subst hq
    rw [update_self, System.parties]
    simp only [System.sent, System.resume, System.kernel, hwait, hmsg, update_self]
    simp only [Party.posted, System.parties, System.tag, Party.mk.injEq, and_true, true_and]
    split <;> simp
  · rw [update_of_ne hq, System.parties]
    simp only [System.sent, System.resume, System.kernel, hwait, hmsg, update_of_ne hq]
    simp only [System.parties, Party.mk.injEq, and_true, true_and]
    split
    · rw [update_of_ne hq]
    · rfl

/-- The parties after a call of `sys_send` whose receiver was waiting. -/
theorem parties_sent_delivered {m : Machine Letter} {p r : ℤ} {topic : Topic} {msg : Msg}
    {prog : App Point} (hpr : p ≠ r) (hfree : s.kernel.wait p = .free)
    (hrecv : (s.task r).receiving = true) (hwait : m.kernel.wait = update s.kernel.wait r .free)
    (hmsg : m.kernel.msg = update (update s.kernel.msg p ⟨p, r, ⟨s.tag p topic, topic, msg⟩⟩) r
      ⟨p, r, ⟨s.tag p topic, topic, msg⟩⟩) :
    (s.sent p topic prog m).parties (update σ p ((σ p).sent topic r msg))
      = delivered (update (s.parties σ) p ((s.parties σ p).posted p topic r msg prog)) p r := by
  funext q
  by_cases hqr : q = r
  · subst hqr
    rw [delivered_receiver, update_self, update_of_ne hpr.symm, System.parties]
    simp only [System.sent, System.resume, System.kernel, hwait, hmsg, update_self,
      update_of_ne hpr.symm]
    simp only [Party.posted, System.parties, System.tag, Party.mk.injEq, and_true, true_and]
    refine ⟨?_, ?_⟩
    · rw [← hrecv]
    · split
      · rw [update_of_ne hpr.symm]
      · rfl
  by_cases hqp : q = p
  · subst hqp
    rw [delivered, update_of_ne hpr, update_self, update_self, System.parties]
    simp only [System.sent, System.resume, System.kernel, hwait, hmsg, update_self,
      update_of_ne hpr]
    simp only [Party.posted, System.parties, System.tag, Party.mk.injEq, and_true, true_and]
    refine ⟨?_, hfree⟩
    split <;> simp
  · rw [delivered_other hqp hqr, update_of_ne hqp, System.parties]
    simp only [System.sent, System.resume, System.kernel, hwait, hmsg, update_of_ne hqp,
      update_of_ne hqr]
    simp only [System.parties, Party.mk.injEq, and_true, true_and]
    split
    · rw [update_of_ne hqp]
    · rfl

/-- The parties after an operation of `GPID_PROCESS` on a process that has not started. -/
theorem parties_controlled {m : Machine Letter} {prog : App Point} {pid : ℤ} {w : Wait} {t : Talk}
    (hpid : pid ≠ gpidProcess) (hwait : m.kernel.wait = update s.kernel.wait pid w)
    (hmsg : m.kernel.msg = s.kernel.msg) :
    (s.controlled gpidProcess prog m).parties (update σ gpidProcess t)
      = update (update (s.parties σ) gpidProcess
          { s.parties σ gpidProcess with task := ⟨prog, false⟩, talk := t }) pid
          { s.parties σ pid with wait := w } := by
  funext q
  by_cases hq : q = pid
  · rw [hq, update_self, System.parties]
    simp only [System.controlled, System.resume, System.kernel, hwait, hmsg, update_self,
      update_of_ne hpid]
    rfl
  by_cases hqp : q = gpidProcess
  · rw [hqp, update_of_ne hpid.symm, update_self, System.parties]
    simp only [System.controlled, System.resume, System.kernel, hwait, hmsg, update_self,
      update_of_ne hpid.symm]
    rfl
  · rw [update_of_ne hq, update_of_ne hqp, System.parties]
    simp only [System.controlled, System.resume, System.kernel, hwait, hmsg, update_of_ne hq,
      update_of_ne hqp]
    rfl


/-- The parties after a call of `sys_recv` that finds no message. -/
theorem parties_blocked {m : Machine Letter} {p : ℤ}
    (hwait : m.kernel.wait = update s.kernel.wait p .toRecv)
    (hmsg : m.kernel.msg = s.kernel.msg) :
    (s.receive p m).parties σ = update (s.parties σ) p
      { s.parties σ p with task := ⟨(s.parties σ p).task.prog, true⟩, wait := .toRecv } := by
  funext q
  by_cases hq : q = p
  · rw [hq, update_self, System.parties]
    simp only [System.receive, System.kernel, hwait, hmsg, update_self]
    rfl
  · rw [update_of_ne hq, System.parties]
    simp only [System.receive, System.kernel, hwait, hmsg, update_of_ne hq]
    rfl

/-- The parties after a call of `sys_recv` that is given the message of `z`. -/
theorem parties_given {m : Machine Letter} {p z : ℤ} (hne : z ≠ p) (hfree : s.kernel.wait p = .free)
    (hwait : m.kernel.wait = update s.kernel.wait z .free)
    (hmsg : m.kernel.msg = update s.kernel.msg p (s.kernel.msg z)) :
    (s.receive p m).parties σ = delivered (s.parties σ) z p := by
  funext q
  by_cases hq : q = p
  · rw [hq, delivered_receiver, System.parties]
    simp only [System.receive, System.kernel, hwait, hmsg, update_self, update_of_ne hne.symm]
    simp only [System.parties, Party.mk.injEq, and_true, true_and]
    exact hfree
  by_cases hqz : q = z
  · rw [hqz, delivered, update_of_ne hne, update_self, System.parties]
    simp only [System.receive, System.kernel, hwait, hmsg, update_self, update_of_ne hne]
    rfl
  · rw [delivered_other hqz hq, System.parties]
    simp only [System.receive, System.kernel, hwait, hmsg, update_of_ne hq, update_of_ne hqz]
    rfl

/-- The parties after `sys_recv` has returned. -/
theorem parties_received (p : ℤ) (topic : Topic) (k : ℤ × Msg → App Point) :
    (s.received p topic k).parties (update σ p ((σ p).taken topic (s.kernel.msg p).sender
        (s.kernel.msg p).content.body))
      = update (s.parties σ) p ((s.parties σ p).taken topic k) := by
  funext q
  by_cases hq : q = p
  · rw [hq, update_self, System.parties]
    simp only [System.received, System.resume, update_self]
    simp only [Party.taken, System.parties, Party.mk.injEq, and_true, true_and]
    split <;> simp
  · rw [update_of_ne hq, System.parties]
    simp only [System.received, System.resume, update_of_ne hq]
    simp only [System.parties, Party.mk.injEq, and_true, true_and]
    split
    · rw [update_of_ne hq]
    · rfl

/-- The parties after some processes have ended, and the shell may have been woken. -/
theorem parties_ended {m : Machine Letter} {D : ℤ → Prop} [DecidablePred D] {p : ℤ}
    (hwait : ∀ q, q ≠ p → m.kernel.wait q = if D q then .gone else s.kernel.wait q)
    (hmsg : m.kernel.msg = s.kernel.msg) {q : ℤ} (hq : q ≠ p) :
    (({ s with machine := m } : System).parties σ) q = ended D (s.parties σ) q := by
  rw [System.parties]
  simp only [System.kernel, hmsg, hwait q hq]
  by_cases hd : D q
  · rw [ended_of hd, if_pos hd]
    rfl
  · rw [ended_of_not hd, if_neg hd]
    rfl

/-- The pid of the current process has been given out. -/
theorem currPid_le (hm : MachineOk s.machine) : s.kernel.currPid ≤ s.kernel.procNprocs := by
  by_contra hlt
  have := hm.scheduled.table.wait_unborn (not_le.1 hlt)
  rw [hm.scheduled.wait_curr] at this
  cases this

/-- The call of `proc_free` as a move of the parties. -/
theorem party_free {pid : ℤ} {k : Unit → App Point} {m : Machine Letter} {choice : Choice}
    (hprog : (s.task s.kernel.currPid).prog = .op (.procFree pid) k)
    (ho : MailOutcome s.machine (.free pid) m) :
    PartyMove env s.kernel.procNprocs s.machine.allocated (s.parties σ) s.kernel.currPid
      (.run choice) m.kernel.procNprocs m.allocated
      ((s.controlled s.kernel.currPid (k ()) m).parties σ) := by
  cases ho with
  | @free _ k' hcurr hpid hmoved _ =>
    rw [show s.kernel.currPid = gpidProcess from hcurr] at hprog ⊢
    have hproc : ¬ FreedBy pid gpidProcess := fun hd => absurd (hd.user hpid) (by decide)
    have hwait : ∀ q, k'.wait q = if FreedBy pid q then .gone else s.kernel.wait q := by
      intro q
      rw [hmoved.wait]
      rfl
    have hparties : (s.controlled gpidProcess (k ()) ⟨k', s.machine.allocated⟩).parties σ
        = update (ended (FreedBy pid) (s.parties σ)) gpidProcess
          { s.parties σ gpidProcess with task := ⟨k (), false⟩ } := by
      refine (parties_resume (s := { s with machine := ⟨k', s.machine.allocated⟩ }) gpidProcess
        (k ())).trans ?_
      funext q
      by_cases hq : q = gpidProcess
      · rw [hq, update_self, update_self, System.parties]
        simp only [System.kernel, hwait, hmoved.msg, if_neg hproc]
        rfl
      · rw [update_of_ne hq, update_of_ne hq]
        exact parties_ended (p := gpidProcess) (fun q _ => hwait q) hmoved.msg hq
    rw [hmoved.nprocs, hparties]
    exact .free rfl hprog hpid

/-- A timer interrupt as a move of the parties. -/
theorem party_timer {ctrlC : Bool} {m : Machine Letter}
    (ho : MailOutcome s.machine (.intr intrIdTimer ctrlC) m) :
    PartyMove env s.kernel.procNprocs s.machine.allocated (s.parties σ) s.kernel.currPid
      (.timer ctrlC) m.kernel.procNprocs m.allocated
      (({ s with machine := m } : System).parties σ) := by
  cases ho with
  | @timer _ k' hmoved =>
    have hparties : ({ s with machine := ⟨k', s.machine.allocated⟩ } : System).parties σ
        = s.parties σ := by
      funext q
      rw [System.parties, System.parties]
      simp only [System.kernel, hmoved.wait, hmoved.msg]
    rw [hmoved.nprocs, hparties]
    exact .stay
  | @killed _ k' hge hq hshell hmsg hn =>
    have hother : ∀ q, q ≠ gpidShell →
        (({ s with machine := ⟨k', s.machine.allocated⟩ } : System).parties σ) q
          = ended (· = s.kernel.currPid) (s.parties σ) q :=
      fun q hne => parties_ended (p := gpidShell) hq hmsg hne
    rcases hshell with hshell | ⟨hgone, hgone'⟩
    · have hparties : ({ s with machine := ⟨k', s.machine.allocated⟩ } : System).parties σ
          = update (ended (· = s.kernel.currPid) (s.parties σ)) gpidShell
            { s.parties σ gpidShell with wait := .free } := by
        funext q
        by_cases hqs : q = gpidShell
        · rw [hqs, update_self, System.parties]
          simp only [System.kernel, hshell, hmsg]
          rfl
        · rw [update_of_ne hqs]
          exact hother q hqs
      rw [hn, hparties]
      exact .killed hge
    · have hne : ¬ gpidShell = s.kernel.currPid := by
        have : (5 : ℤ) ≤ s.kernel.currPid := hge
        show ¬ (4 : ℤ) = s.kernel.currPid
        omega
      have hparties : ({ s with machine := ⟨k', s.machine.allocated⟩ } : System).parties σ
          = ended (· = s.kernel.currPid) (s.parties σ) := by
        funext q
        by_cases hqs : q = gpidShell
        · rw [hqs, ended_of_not (D := (· = s.kernel.currPid)) hne, System.parties, System.parties]
          simp only [System.kernel, hgone, hgone', hmsg]
        · exact hother q hqs
      rw [hn, hparties]
      exact .killedAlone hge hgone'

section moves

variable (hm : MachineOk s.machine)
include hm

/-- The call of `sys_send` as a move of the parties. -/
theorem party_send {topic : Topic} {r : ℤ} {msg : Msg} {k : Unit → App Point}
    {m : Machine Letter} {choice : Choice}
    (hwaiting : ∀ r, s.kernel.wait r = .toRecv → (s.task r).receiving = true)
    (hprog : (s.task s.kernel.currPid).prog = .op (.send topic r msg) k)
    (ho : MailOutcome s.machine (.send r ⟨s.tag s.kernel.currPid topic, topic, msg⟩) m) :
    PartyMove env s.kernel.procNprocs s.machine.allocated (s.parties σ) s.kernel.currPid
      (.run choice) m.kernel.procNprocs m.allocated
      ((s.sent s.kernel.currPid topic (k ()) m).parties
        (update σ s.kernel.currPid ((σ s.kernel.currPid).sent topic r msg))) := by
  have hfree : s.kernel.wait s.kernel.currPid = .free := hm.scheduled.wait_curr
  obtain ⟨ho⟩ := ho
  cases ho with
  | missing hgone hmoved =>
    rw [hmoved.nprocs, parties_sent (w := .free) (by rw [hmoved.wait, ← hfree, update_eq_self])
      hmoved.msg]
    exact .lost hprog hgone
  | blocked hne hmoved =>
    rw [hmoved.nprocs, parties_sent (w := .toSend r) hmoved.wait hmoved.msg]
    exact .posted hprog hne
  | delivered hr hmoved =>
    have hpr : s.kernel.currPid ≠ r := by
      intro he
      rw [← he, hfree] at hr
      cases hr
    rw [hmoved.nprocs, parties_sent_delivered hpr hfree (hwaiting r hr) hmoved.wait hmoved.msg]
    exact .sent hprog hr

/-- The call of `sys_recv` as a move of the parties. -/
theorem party_recv {topic : Topic} {k : ℤ × Msg → App Point} {m : Machine Letter}
    {choice : Choice} (hprog : (s.task s.kernel.currPid).prog = .op (.recv topic) k)
    (hrecv : (s.task s.kernel.currPid).receiving = false) (ho : MailOutcome s.machine .recv m) :
    PartyMove env s.kernel.procNprocs s.machine.allocated (s.parties σ) s.kernel.currPid
      (.run choice) m.kernel.procNprocs m.allocated
      ((s.receive s.kernel.currPid m).parties σ) := by
  have hfree : s.kernel.wait s.kernel.currPid = .free := hm.scheduled.wait_curr
  rcases ho with _ | ho
  cases ho with
  | blocked hno hmoved =>
    rw [hmoved.nprocs, parties_blocked hmoved.wait hmoved.msg]
    exact .blocked hprog hrecv hno
  | @taken z hz hmoved =>
    have hne : z ≠ s.kernel.currPid := by
      rintro rfl
      rw [show s.machine.kernel.wait s.machine.kernel.currPid = _ from hfree] at hz
      cases hz
    rw [hmoved.nprocs, parties_given hne hfree hmoved.wait hmoved.msg]
    exact .given hprog hrecv hz

/-- The call of `proc_alloc` as a move of the parties. -/
theorem party_alloc {k : ℤ → App Point} {m : Machine Letter} {choice : Choice}
    (hprog : (s.task s.kernel.currPid).prog = .op .procAlloc k)
    (ho : MailOutcome s.machine .alloc m) : ∃ σ',
    PartyMove env s.kernel.procNprocs s.machine.allocated (s.parties σ) s.kernel.currPid
      (.run choice) m.kernel.procNprocs m.allocated
      ((s.controlled s.kernel.currPid (k m.kernel.procNprocs) m).parties σ') := by
  have hle := currPid_le hm
  cases ho with
  | @alloc k' hcurr hwait hmsg hn _ =>
    rw [show s.kernel.currPid = gpidProcess from hcurr] at hprog hle ⊢
    have hle : (1 : ℤ) ≤ s.kernel.procNprocs := hle
    have hp : s.kernel.procNprocs + 1 ≠ gpidProcess := show s.kernel.procNprocs + 1 ≠ 1 by omega
    rw [show k'.procNprocs = _ from hn]
    refine ⟨update σ gpidProcess { σ gpidProcess with
      spawned := s.kernel.procNprocs + 1, loading := some (s.kernel.procNprocs + 1) }, ?_⟩
    rw [parties_controlled hp hwait hmsg]
    exact .alloc rfl hprog

/-- The call of `proc_set_ready` as a move of the parties. -/
theorem party_ready {pid : ℤ} {k : Unit → App Point} {m : Machine Letter} {choice : Choice}
    (hprog : (s.task s.kernel.currPid).prog = .op (.procSetReady pid) k)
    (ho : MailOutcome s.machine (.setReady pid) m) : ∃ σ',
    PartyMove env s.kernel.procNprocs s.machine.allocated (s.parties σ) s.kernel.currPid
      (.run choice) m.kernel.procNprocs m.allocated
      ((s.controlled s.kernel.currPid (k ()) m).parties σ') := by
  cases ho with
  | @setReady _ k' hcurr halloc hmoved _ =>
    rw [show s.kernel.currPid = gpidProcess from hcurr] at hprog ⊢
    have hp : pid ≠ gpidProcess := ne_of_gt (hm.allocated pid halloc)
    refine ⟨update σ gpidProcess { σ gpidProcess with loading := none }, ?_⟩
    rcases hmoved with hmoved | hmoved
    · rw [hmoved.nprocs, parties_controlled hp hmoved.wait hmoved.msg]
      exact .ready rfl hprog halloc (Or.inl rfl)
    · rw [hmoved.nprocs, parties_controlled (w := s.kernel.wait pid) hp
        (by rw [update_eq_self]; exact hmoved.wait) hmoved.msg]
      exact .ready rfl hprog halloc (Or.inr rfl)

/-- Every move of the system is a move of its parties. -/
theorem party_move {a : Move} {s' : System}
    (hwaiting : ∀ r, s.kernel.wait r = .toRecv → (s.task r).receiving = true)
    (hmove : s.move env a = some s') : MachineOk s'.machine ∧ ∃ σ',
    PartyMove env s.kernel.procNprocs s.machine.allocated (s.parties σ) s.kernel.currPid a
      s'.kernel.procNprocs s'.machine.allocated (s'.parties σ') := by
  obtain ⟨hm', ho⟩ := move_outcome hm hmove
  refine ⟨hm', ?_⟩
  cases ho with
  | loop hprog =>
    refine ⟨σ, ?_⟩
    rw [parties_resume]
    exact .loop hprog
  | send hprog ho => exact ⟨_, party_send hm hwaiting hprog ho⟩
  | recv hprog hrecv ho => exact ⟨σ, party_recv hm hprog hrecv ho⟩
  | @received _ topic _ hprog hrecv =>
    refine ⟨update σ s.kernel.currPid ((σ s.kernel.currPid).taken topic
      (s.kernel.msg s.kernel.currPid).sender (s.kernel.msg s.kernel.currPid).content.body), ?_⟩
    rw [parties_received]
    exact .taken hprog hrecv
  | alloc hprog ho => exact party_alloc hm hprog ho
  | setReady hprog ho => exact party_ready hm hprog ho
  | free hprog ho => exact ⟨σ, party_free hprog ho⟩
  | load hprog =>
    refine ⟨σ, ?_⟩
    rw [parties_resume, parties_resume]
    exact .load hprog
  | spin => exact ⟨σ, .stay⟩
  | timer ho => exact ⟨σ, party_timer ho⟩

end moves

end Egos.Apps
