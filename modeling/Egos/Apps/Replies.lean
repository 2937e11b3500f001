import Egos.Apps.Directory
import Egos.Apps.Evaluation
import Egos.Apps.Lifecycle

/-!
# Replies reach those who asked

Every move of the system is one of the changes of `Parties` and `Lifecycle`. So the pairing of
requests and replies holds in every run in which no process is disturbed while it waits for a reply.
The last section has a run in which one is: a background job ends while `GPID_PROCESS` looks up the
next command.
-/

namespace Egos.Apps

open Egos.Grass
open Function (update update_self update_of_ne update_idem)

/-- The invariant of the system. -/
structure SystemOk (env : Env) (foreign : Prop) (s : System) : Prop where
  machine : MachineOk s.machine
  parties : ∃ σ, PartiesOk env foreign s.kernel.procNprocs s.machine.allocated (s.parties σ)

/-- The server whose reply process `r` still has to be given. -/
def System.awaited (s : System) (r : ℤ) : Option ℤ :=
  match (s.task r).prog with
  | .op (.recv (.reply server _)) _ =>
    if (s.task r).receiving ∧ s.kernel.wait r = .free ∨ s.kernel.wait r = .gone then none
    else some server
  | _ => none

/-- The message that a move sends: its topic and its receiver. -/
def System.sends (s : System) : Move → Option (Topic × ℤ)
  | .run _ =>
    match (s.task s.kernel.currPid).prog with
    | .op (.send topic r _) _ => some (topic, r)
    | _ => none
  | .timer _ => none

/-- A move that disturbs no one: who is sent a message does not wait for the reply of another
process, and nobody is waiting to send to a process that makes a request. -/
def Undisturbed (s : System) (a : Move) : Prop :=
  ∀ m ∈ s.sends a, (s.awaited m.2 = none ∨ s.awaited m.2 = some s.kernel.currPid) ∧
    (m.1.isRequest = true → ∀ i, (s.kernel.procSet i).wait ≠ .toSend s.kernel.currPid)

instance (s : System) (a : Move) : Decidable (Undisturbed s a) :=
  inferInstanceAs (Decidable (∀ m ∈ s.sends a, _ ∧ _))

variable {env : Env} {foreign : Prop} {s : System} {σ : ℤ → Talk}

/-- The condition of `post`, from that on the move. -/
theorem undisturbed_cond (hm : MachineOk s.machine)
    (h : PartiesOk env foreign s.kernel.procNprocs s.machine.allocated (s.parties σ))
    {topic : Topic}
    {r : ℤ} {msg : Msg} {k : Unit → App Point} {choice : Choice}
    (hprog : (s.task s.kernel.currPid).prog = .op (.send topic r msg) k)
    (hok : Undisturbed s (.run choice)) (hforeign : ¬ foreign) :
    (∀ server req, (s.parties σ r).talk.asked = some (server, req) → ¬ (s.parties σ r).Got →
      (s.parties σ r).wait ≠ .gone → s.kernel.currPid = server) ∧
      (topic.isRequest = true → ∀ q, (s.parties σ q).wait ≠ .toSend s.kernel.currPid) := by
  obtain ⟨hawait, hrequest⟩ := hok (topic, r) (by rw [System.sends, hprog]; rfl)
  refine ⟨fun server req ha hgot hgone => ?_, fun hreq q hq => ?_⟩
  · obtain ⟨⟨k', hr⟩, -⟩ := (h.party r).head ((h.party r).not_lost hforeign ha) ha
    have hawaited : s.awaited r = some server := by
      have hr' : (s.task r).prog = .op (.recv (.reply server req)) k' := hr
      rw [System.awaited, hr']
      exact if_neg fun hc => hc.elim hgot hgone
    rw [hawaited] at hawait
    exact (Option.some.inj (hawait.resolve_left (by simp))).symm
  · have hq' : s.kernel.wait q = .toSend s.kernel.currPid := hq
    obtain ⟨i, -, -, hi⟩ := hm.scheduled.table.exists_slot (p := q) (by simp [hq'])
    exact hrequest hreq i (hi.trans hq')

section moves

variable {n n' p : ℤ} {alloc alloc' : Option ℤ} {x x' : ℤ → Party} {a : Move}

/-- A process that has not started neither sends nor runs. -/
theorem PartiesOk.unborn_wait (h : PartiesOk env foreign n alloc x) (hp : n < p ∨ alloc = some p) :
    (∀ r, (x p).wait ≠ .toSend r) ∧ (x p).wait ≠ .free := by
  rcases (h.unborn p hp).2.2 with hw | hw <;> simp [hw]

/-- Every move keeps the invariant of the parties, when a message disturbs no one or messages of
others may come in place of a reply. -/
theorem PartiesOk.move (h : PartiesOk env foreign n alloc x) (hfree : (x p).wait = .free)
    (hle : p ≤ n) (halloc : ∀ q, alloc = some q → gpidProcess < q)
    (hcond : ∀ choice, a = .run choice → ∀ topic r m k,
      (x p).task.prog = .op (.send topic r m) k → ¬ foreign →
      (∀ server req, (x r).talk.asked = some (server, req) → ¬ (x r).Got →
        (x r).wait ≠ .gone → p = server) ∧
      (topic.isRequest = true → ∀ q, (x q).wait ≠ .toSend p))
    (hmove : PartyMove env n alloc x p a n' alloc' x') : PartiesOk env foreign n' alloc' x' := by
  cases hmove with
  | @loop choice point hprog =>
    have hhome : Home p (x p).talk point := by
      have := (h.party p).follows
      rw [hprog] at this
      exact this
    exact h.advance hfree hhome.asked hhome.lost (follows_main hhome)
  | @lost choice topic r m k hprog _ =>
    have hdrop := (h.post hfree hprog (hcond choice rfl topic r m k hprog)).drop (p := p) (r := r)
      (by rw [update_self]; rfl)
    rwa [update_idem, update_self] at hdrop
  | @posted choice topic r m k hprog _ =>
    exact h.post hfree hprog (hcond choice rfl topic r m k hprog)
  | @sent choice topic r m k hprog hr =>
    have hpr : r ≠ p := by
      rintro rfl
      rw [hfree] at hr
      cases hr
    obtain ⟨topic', k', hprog'⟩ := (h.party r).receiving ((h.party r).waiting hr)
    refine (h.post hfree hprog (hcond choice rfl topic r m k hprog)).deliver
      (?_ : Delivers _ _ _ topic' k')
    refine ⟨?_, ?_, Or.inr ?_⟩
    · rw [update_self]
      rfl
    · rwa [update_of_ne hpr]
    · rwa [update_of_ne hpr]
  | blocked hprog hrecv _ => exact h.block hfree hrecv hprog
  | @given _ topic k q hprog hrecv hq =>
    have hd : Delivers x q p topic k := ⟨hq, hprog, Or.inl ⟨hfree, hrecv⟩⟩
    exact h.deliver hd
  | taken hprog hrecv => exact h.take ⟨hrecv, hfree⟩ hprog
  | @alloc _ k hp hprog =>
    subst hp
    have hle : (1 : ℤ) ≤ n := hle
    obtain ⟨⟨-, hasked, -, hfew⟩, -⟩ := (h.party gpidProcess).allows hprog
    have hspawned := h.spawned
    have hborn : n < n + 1 ∨ alloc = some (n + 1) := Or.inl (lt_add_one n)
    obtain ⟨htalk, hrecv, -⟩ := h.unborn (n + 1) hborn
    have hfollows := (h.party (n + 1)).follows
    rw [htalk] at hfollows
    refine h.control hfree hprog ⟨by rw [hspawned], rfl⟩ hasked rfl
      (show n + 1 ≠ 1 by omega) htalk (h.unborn_wait hborn).1 htalk hrecv hfollows
      (Or.inr (Or.inl rfl)) (fun q hq => (Option.some.inj hq).symm) ?_ ?_
    · rintro q (hq | hq)
      · exact ⟨Or.inl ((lt_add_one n).trans hq), by simp⟩
      · cases hq
        exact ⟨hborn, by simp⟩
    · rw [hspawned] at hfew
      exact hfew.imp_right fun hf => by omega
  | @ready _ pid k w hp hprog hpid hw =>
    subst hp
    obtain ⟨⟨-, hasked, -⟩, -⟩ := (h.party gpidProcess).allows hprog
    obtain ⟨htalk, hrecv, hgone⟩ := h.unborn pid (Or.inr hpid)
    have hfollows := (h.party pid).follows
    rw [htalk] at hfollows
    refine h.control hfree hprog rfl hasked (by rw [← h.spawned]) (ne_of_gt (halloc pid hpid))
      htalk (h.unborn_wait (Or.inr hpid)).1 htalk hrecv hfollows ?_ nofun ?_ h.few
    · -- the process may have been freed before it was ready
      rcases hw with rfl | rfl
      · exact Or.inr (Or.inr rfl)
      · exact hgone.imp_right Or.inl
    · rintro q (hq | hq)
      · refine ⟨Or.inl hq, fun he => ?_⟩
        have := h.last pid hpid
        omega
      · cases hq
  | @load _ pid image k hprog =>
    obtain ⟨⟨-, hasked, rfl, hloading, rfl⟩, -⟩ := (h.party p).allows hprog
    have hpid : alloc = some pid := h.loading.symm.trans hloading
    have hp : pid ≠ gpidProcess := ne_of_gt (halloc pid hpid)
    obtain ⟨htalk, -, hgone⟩ := h.unborn pid (Or.inr hpid)
    rw [update_of_ne hp]
    exact h.control hfree hprog rfl hasked (by rw [← h.spawned, ← h.loading]) hp htalk
      (h.unborn_wait (Or.inr hpid)).1 htalk rfl (follows_start (halloc pid hpid))
      (hgone.imp_right Or.inl) h.last
      (fun q hq => ⟨hq, fun _ => (h.unborn_wait (Or.inr hpid)).2⟩) h.few
  | @free _ pid k hp hprog hpid =>
    subst hp
    obtain ⟨⟨hlost, hasked, -⟩, hnext⟩ := (h.party gpidProcess).allows hprog
    have hD : ∀ q, FreedBy pid q → gpidUserStart ≤ q := fun _ hq => hq.user hpid
    have hself : ended (FreedBy pid) x gpidProcess = x gpidProcess :=
      ended_of_not fun hd => absurd (hD _ hd) (by decide)
    have hadvance := (h.vanish hD).advance (p := gpidProcess)
    rw [hself] at hadvance
    exact hadvance hfree hasked hlost (hnext () _ rfl)
  | stay => exact h
  | killed hp =>
    have hp : (5 : ℤ) ≤ p := hp
    have hD : ∀ q, q = p → gpidUserStart ≤ q := fun q hq => hq ▸ hp
    have hself : ended (· = p) x gpidShell = x gpidShell :=
      ended_of_not fun hd => absurd (hD _ hd) (by decide)
    have hwake := (h.vanish hD).wake
    rw [hself] at hwake
    refine hwake ?_
    rintro (hlt | ha)
    · have : n < 4 := hlt
      omega
    · have : (4 : ℤ) = n := h.last _ ha
      omega
  | killedAlone hp _ => exact h.vanish fun q hq => hq ▸ hp

end moves

/-! ## Runs -/

/-- Every move of the system keeps the invariant. -/
theorem SystemOk.move (h : SystemOk env foreign s) {a : Move} {s' : System}
    (hok : ¬ foreign → Undisturbed s a) (hmove : s.move env a = some s') :
    SystemOk env foreign s' := by
  obtain ⟨hm, σ, hp⟩ := h
  obtain ⟨hm', σ', hmove'⟩ := party_move (σ := σ) hm (fun r hr => (hp.party r).waiting hr) hmove
  refine ⟨hm', σ', hp.move hm.scheduled.wait_curr (currPid_le hm) hm.allocated ?_ hmove'⟩
  rintro choice rfl topic r m k hprog hforeign
  exact undisturbed_cond hm hp hprog (hok hforeign) hforeign

/-- When the kernel boots there is only `GPID_PROCESS`. -/
theorem wait_boot (area : ℤ → Syscall Letter) {p : ℤ} (hp : p ≠ gpidProcess) :
    (bootMachine area).kernel.wait p = .gone := by
  by_contra hw
  obtain ⟨i, hi, hi0, -⟩ := (machineOk_boot area).scheduled.table.exists_slot hw
  have hpid : ((bootMachine area).kernel.procSet i).pid = if i = 0 then 1 else 0 := by
    simp only [bootMachine, boot]
    split <;> rfl
  rw [hpid] at hi hi0
  split at hi
  · exact hp hi.symm
  · simp_all

/-- The invariant holds when the system boots. -/
theorem systemOk_boot (env : Env) (foreign : Prop) (area : ℤ → Syscall Letter) :
    SystemOk env foreign (System.boot env area) := by
  have hm := machineOk_boot area
  have hgone : ∀ p, p ≠ gpidProcess →
      ((System.boot env area).parties Talk.initial p).wait = .gone :=
    fun p hp => wait_boot area hp
  have hproc : ((System.boot env area).parties Talk.initial gpidProcess).wait = .free :=
    hm.scheduled.wait_curr
  have hrecv : ∀ p, ((System.boot env area).parties Talk.initial p).task.receiving = false := by
    intro p
    simp only [System.parties, System.boot]
    split <;> rfl
  have hwait : ∀ p, ((System.boot env area).parties Talk.initial p).wait = .gone ∨
      ((System.boot env area).parties Talk.initial p).wait = .free := by
    intro p
    by_cases hp : p = gpidProcess
    · rw [hp]
      exact Or.inr hproc
    · exact Or.inl (hgone p hp)
  refine ⟨hm, Talk.initial, fun p => ?_, rfl, rfl, by intros; contradiction,
    fun p hp => ?_, ?_, Or.inr (show (1 : ℤ) + (2 : ℕ) ≤ 4 by decide)⟩
  · refine ⟨?_, ?_, ?_, ?_, ?_, by intros; contradiction, by intros; contradiction,
      fun ha => absurd rfl ha⟩
    · simp only [System.parties, System.boot]
      split
      · rename_i hp
        rw [hp]
        exact follows_procMain
      · exact ⟨⟨rfl, rfl⟩, by intros; contradiction⟩
    · exact fun hr => absurd ((hrecv p).symm.trans hr) (by simp)
    · intro hw
      have := hwait p
      simp [hw] at this
    · intro r hw
      have := hwait p
      simp [hw] at this
    · exact fun _ _ _ hgot => absurd ((hrecv p).symm.trans hgot.1) (by simp)
  · have hp : p ≠ gpidProcess := by
      rcases hp with hp | hp
      · exact ne_of_gt hp
      · cases hp
    exact ⟨rfl, hrecv p, Or.inl (hgone p hp)⟩
  · rw [Party.unsaid_of_wait, Party.unsaid_of_wait, Party.heard_of_not_receiving (hrecv _)]
    · exact le_refl _
    · rw [hgone _ (by decide)]
      simp
    · rw [hgone _ (by decide)]
      simp

/-- The invariant holds in every run that disturbs no one. -/
theorem systemOk_of_reach {area : ℤ → Syscall Letter}
    (h : Reach (System.move env) Undisturbed (System.boot env area) s) : SystemOk env False s :=
  h.invariant (systemOk_boot env False area) fun _ _ _ hs hok hmove => hs.move (fun _ => hok) hmove

/-- The message that process `p` is about to be given by `sys_recv` is the reply to the request that
it has made last. -/
structure Replied (env : Env) (s : System) (p server : ℤ) (req : Msg) : Prop where
  sender : (s.kernel.msg p).sender = server
  topic : (s.kernel.msg p).content.topic = .reply server req
  request : (s.kernel.msg p).content.tag = (p, s.asks p)
  answer : Answers env server req (s.kernel.msg p).content.body

/-- In every run that disturbs no one, whoever has asked a server and is given a message is given
the reply of the server to that request, and `dir_lookup` and `file_read` do not fail. -/
theorem request_reply_pairing {area : ℤ → Syscall Letter}
    (h : Reach (System.move env) Undisturbed (System.boot env area) s) :
    (∀ p server req k, (s.task p).prog = .op (.recv (.reply server req)) k →
      (s.task p).receiving = true → s.kernel.wait p = .free → Replied env s p server req) ∧
    ∀ p, (s.task p).prog ≠ .stop .dirLookup ∧ (s.task p).prog ≠ .stop .fileRead := by
  obtain ⟨-, σ, hp⟩ := systemOk_of_reach h
  refine ⟨fun p server req k hprog hrecv hfree => ?_, fun p => ?_⟩
  · rcases (hp.party p).inbox _ k hprog ⟨hrecv, hfree⟩ with ⟨hs, ht, htag, ha⟩ | ⟨hc, -⟩
    · exact ⟨hs, ht, htag, ha⟩
    · exact hc.elim
  · have hf := (hp.party p).follows
    have hstop : ∀ e, (s.task p).prog = .stop e → e ≠ .dirLookup ∧ e ≠ .fileRead := by
      intro e he
      rw [show (s.parties σ p).task.prog = _ from he] at hf
      rcases hf with ⟨-, hc⟩ | ⟨-, hne⟩
      · exact hc.elim
      · exact hne
    exact ⟨fun he => (hstop _ he).1 rfl, fun he => (hstop _ he).2 rfl⟩

/-! ## A small disk -/

/-- A disk whose root directory has `bin/` as inode 1, which has `a` as inode 2. -/
def smallEnv : Env where
  fs ino _ := .ok (0, if ino = 0 then textBlock [98, 105, 110, 47, 32, 49, 32]
    else if ino = 1 then textBlock [97, 32, 50, 32] else File.nullBlock)
  shellWaiting := false

/-- Empty system-call areas. -/
def nullLetters : ℤ → Syscall Letter := fun _ =>
  ⟨.unused, ⟨0, 0, ⟨(0, 0), .boot, .text ""⟩⟩, 0⟩

/-- The shell reads `line`, if it is at its prompt; a user process exits. -/
def typing (line : List UInt8) : Move := .run ⟨line, .exit, 0⟩

/-- The current process runs `n` times. -/
def runs (n : ℕ) : List Move := List.replicate n (typing [])

/-- The server that has replied to process `p`, when the reply has not been taken in. -/
def System.replied (s : System) (p : ℤ) : Option (ℤ × Msg) :=
  match (s.task p).prog with
  | .op (.recv (.reply server req)) _ =>
    if (s.task p).receiving ∧ s.kernel.wait p = .free then some (server, req) else none
  | _ => none

/-- When a reply has come. -/
theorem replied_some {p server : ℤ} {req : Msg} (h : s.replied p = some (server, req)) :
    (∃ k, (s.task p).prog = .op (.recv (.reply server req)) k) ∧ (s.task p).receiving = true ∧
      s.kernel.wait p = .free := by
  unfold System.replied at h
  split at h
  · rename_i server' req' k hprog
    split at h
    · rename_i hgot
      cases h
      exact ⟨⟨k, hprog⟩, hgot⟩
    · cases h
  · cases h

/-- When `GPID_PROCESS` looks up the first command, it is given the reply of `GPID_DIR`. -/
theorem request_reply_pairing_boot : ∃ s req,
    Reach (System.move smallEnv) Undisturbed (System.boot smallEnv nullLetters) s ∧
      Replied smallEnv s gpidProcess gpidDir req := by
  have hrun : (runActions (System.tidyMove smallEnv) (System.boot smallEnv nullLetters)
      (runs 35)).any
      (fun s => (s.replied gpidProcess).any fun r => decide (r.1 = gpidDir)) = true := by
    decide +kernel
  have hmeets : runMeets (System.tidyMove smallEnv) (fun s a => decide (Undisturbed s a))
      (System.boot smallEnv nullLetters) (runs 35) = true := by decide +kernel
  rw [tidyMove_eq] at hrun hmeets
  obtain ⟨s, hs, hcheck⟩ := (Option.any_eq_true _ _).1 hrun
  obtain ⟨⟨server, req⟩, hreplied, hserver⟩ := (Option.any_eq_true _ _).1 hcheck
  obtain rfl : server = gpidDir := of_decide_eq_true hserver
  obtain ⟨⟨k, hprog⟩, hrecv, hfree⟩ := replied_some hreplied
  have hreach := Reach.of_runActions (fun _ _ => of_decide_eq_true) _ .init hs hmeets
  exact ⟨s, req, hreach,
    (request_reply_pairing hreach).1 gpidProcess gpidDir req k hprog hrecv hfree⟩

/-- The job `a &` is started. While `GPID_PROCESS` looks up the next command, `b`, the job exits. -/
def jobEnds : List Move :=
  runs 54 ++ typing [97, 32, 38] :: runs 45 ++ typing [98] :: runs 1 ++ .timer false ::
    runs 3 ++ .timer false :: runs 10 ++ .timer false :: runs 1

/-- `dir_lookup` has failed. -/
def App.lookupFailed : App Point → Bool
  | .stop .dirLookup => true
  | _ => false

/-- The programs that have stopped because a lookup failed. -/
theorem App.lookupFailed_iff {prog : App Point} :
    lookupFailed prog = true ↔ prog = .stop .dirLookup := by
  unfold lookupFailed
  split
  · simp
  · rename_i hne
    simpa using hne

/-- `GPID_PROCESS` is given the exit of the job in place of the reply of `GPID_DIR`, and stops. -/
theorem lookup_fails_when_job_ends : ∃ s,
    Reach (System.move smallEnv) (fun _ _ => True) (System.boot smallEnv nullLetters) s ∧
      (s.task gpidProcess).prog = .stop .dirLookup := by
  have hrun : (runActions (System.tidyMove smallEnv) (System.boot smallEnv nullLetters) jobEnds).any
      (fun s => App.lookupFailed (s.task gpidProcess).prog) = true := by decide +kernel
  rw [tidyMove_eq] at hrun
  obtain ⟨s, hs, hcheck⟩ := (Option.any_eq_true _ _).1 hrun
  exact ⟨s, Reach.of_runActions_true _ hs, App.lookupFailed_iff.1 hcheck⟩

end Egos.Apps
