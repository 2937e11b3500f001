import Egos.Apps.Conduct
import Egos.Apps.Replies

/-!
# The conversation of the shell with `GPID_PROCESS`

What matters here of the parties is their `View`: what `GPID_PROCESS`, the shell and the user
processes execute once they have taken in the message that has arrived for them, and the letters on
their way from one to the other. The invariant says that both ends agree. When the shell waits for a
status, `GPID_PROCESS` is serving its request or has the status in its outbox; when it waits for the
command to end, `GPID_PROCESS` is going to tell it so; and otherwise `GPID_PROCESS` has nothing to
tell.
-/

namespace Egos.Apps

open Egos.Grass
open Function (update update_self update_of_ne)

/-! ## The view -/

namespace Party

variable (a : Party)

/-- What a party executes once it has taken in the message that has arrived for it. -/
def pending : App Point :=
  match a.task.prog with
  | .op (.recv _) k =>
    if a.task.receiving = true ∧ a.wait = .free then k (a.msg.sender, a.msg.content.body)
    else a.task.prog
  | prog => prog

/-- The letter that a party waits to send to `r`. -/
def letterTo (r : ℤ) : Option (Topic × Msg) :=
  if a.wait = .toSend r then some (a.msg.content.topic, a.msg.content.body) else none

variable {a}

/-- A party for which a message has arrived goes on with it. -/
theorem pending_of_got {topic : Topic} {k : ℤ × Msg → App Point}
    (hprog : a.task.prog = .op (.recv topic) k) (hgot : a.Got) :
    a.pending = k (a.msg.sender, a.msg.content.body) := by
  rw [pending, hprog]
  exact if_pos hgot

/-- Otherwise it executes its program. -/
theorem pending_of_not_got (hgot : ¬ a.Got) : a.pending = a.task.prog := by
  unfold pending
  split
  · exact if_neg hgot
  · rfl

/-- In particular when it is not in `sys_recv`. -/
theorem pending_of_not_receiving (hrecv : a.task.receiving = false) : a.pending = a.task.prog :=
  pending_of_not_got fun hgot => absurd (hrecv.symm.trans hgot.1) (by simp)

/-- A party that waits to send to `r` has a letter for it. -/
theorem letterTo_of (r : ℤ) (hw : a.wait = .toSend r) :
    a.letterTo r = some (a.msg.content.topic, a.msg.content.body) := if_pos hw

/-- Otherwise it has none. -/
theorem letterTo_none (r : ℤ) (hw : a.wait ≠ .toSend r) : a.letterTo r = none := if_neg hw

/-- A party without a letter for `r` does not wait to send to it. -/
theorem wait_of_letterTo_none {r : ℤ} (h : a.letterTo r = none) : a.wait ≠ .toSend r := by
  intro hw
  rw [letterTo_of r hw] at h
  cases h

end Party

/-- The conversation as it stands. A user process is only seen by `GPID_PROCESS`. -/
structure View where
  process : App Point
  /-- the letter of `GPID_PROCESS` to the shell -/
  letter : Option (Topic × Msg)
  shell : App Point
  /-- the letter of the shell to `GPID_PROCESS` -/
  command : Option (Topic × Msg)
  /-- the shell has not started -/
  noShell : Bool
  user : ℤ → App Point
  /-- the letters of the user processes to `GPID_PROCESS` -/
  exit : ℤ → Option (Topic × Msg)
  gone : ℤ → Bool

/-- The view of the parties. -/
def view (x : ℤ → Party) : View where
  process := (x gpidProcess).pending
  letter := (x gpidProcess).letterTo gpidShell
  shell := (x gpidShell).pending
  command := (x gpidShell).letterTo gpidProcess
  noShell := decide ((x gpidShell).wait = .gone ∨ (x gpidShell).wait = .loading)
  user q := if gpidUserStart ≤ q then (x q).pending else spin
  exit q := if gpidUserStart ≤ q then (x q).letterTo gpidProcess else none
  gone q := decide (gpidUserStart ≤ q ∧ (x q).wait = .gone)

variable {env : Env} {x : ℤ → Party} {b : Party} {p q r n : ℤ} {alloc : Option ℤ}

/-- What the view becomes when `GPID_PROCESS` changes. -/
theorem view_process (x : ℤ → Party) (b : Party) : view (update x gpidProcess b)
    = { view x with
        process := b.pending
        letter := b.letterTo gpidShell } := by
  have huser : ∀ q, gpidUserStart ≤ q → update x gpidProcess b q = x q := fun q hq =>
    update_of_ne (fun he => absurd (he ▸ hq) (by decide)) _ _
  have hshell : update x gpidProcess b gpidShell = x gpidShell := update_of_ne (by decide) _ _
  simp only [view, update_self, hshell, View.mk.injEq, true_and]
  refine ⟨?_, ?_, ?_⟩ <;> funext q <;> by_cases hq : gpidUserStart ≤ q <;> simp [hq, huser]

/-- What the view becomes when the shell changes. -/
theorem view_shell (x : ℤ → Party) (b : Party) : view (update x gpidShell b)
    = { view x with
        shell := b.pending
        command := b.letterTo gpidProcess
        noShell := decide (b.wait = .gone ∨ b.wait = .loading) } := by
  have huser : ∀ q, gpidUserStart ≤ q → update x gpidShell b q = x q := fun q hq =>
    update_of_ne (fun he => absurd (he ▸ hq) (by decide)) _ _
  have hproc : update x gpidShell b gpidProcess = x gpidProcess := update_of_ne (by decide) _ _
  simp only [view, update_self, hproc, View.mk.injEq, true_and]
  refine ⟨?_, ?_, ?_⟩ <;> funext q <;> by_cases hq : gpidUserStart ≤ q <;> simp [hq, huser]

/-- What the view becomes when a user process changes. -/
theorem view_user (x : ℤ → Party) (b : Party) (hp : gpidUserStart ≤ p) : view (update x p b)
    = { view x with
        user := update (view x).user p b.pending
        exit := update (view x).exit p (b.letterTo gpidProcess)
        gone := update (view x).gone p (decide (b.wait = .gone)) } := by
  have hproc : update x p b gpidProcess = x gpidProcess :=
    update_of_ne (fun he => absurd (he ▸ hp) (by decide)) _ _
  have hshell : update x p b gpidShell = x gpidShell :=
    update_of_ne (fun he => absurd (he ▸ hp) (by decide)) _ _
  simp only [view, hproc, hshell, View.mk.injEq, true_and]
  refine ⟨?_, ?_, ?_⟩ <;> funext q <;> by_cases hq : q = p
  all_goals first
    | (subst hq; simp [hp])
    | simp [update_of_ne hq]

/-- The file servers are not in the view. -/
theorem view_server (x : ℤ → Party) (b : Party) (hproc : p ≠ gpidProcess) (hshell : p ≠ gpidShell)
    (huser : ¬ gpidUserStart ≤ p) : view (update x p b) = view x := by
  simp only [view, update_of_ne hproc.symm, update_of_ne hshell.symm, View.mk.injEq, true_and]
  refine ⟨?_, ?_, ?_⟩ <;> funext q <;> by_cases hq : gpidUserStart ≤ q
  all_goals first
    | (have hqp : q ≠ p := fun he => huser (he ▸ hq)
       simp [hq, update_of_ne hqp])
    | simp [hq]

/-! ## The invariant -/

/-- Where the parties of the conversation are. -/
structure Ghost where
  stage : Stage
  phase : Phase
  exited : ℤ → Bool

/-- There is no user process `a` any more. -/
def Dead (v : View) (a : ℤ) : Prop := a < gpidUserStart ∨ v.gone a = true

/-- User process `a` goes on, or its exit is on the way to `GPID_PROCESS`. -/
def Live (v : View) (g : Ghost) (a : ℤ) : Prop :=
  gpidUserStart ≤ a ∧ v.gone a = false ∧ (g.exited a = true → v.exit a ≠ none)

/-- `GPID_PROCESS`, when it waits for a request, is going to tell the shell of the end of a process
exactly when the shell waits for it. -/
def Matched (v : View) (g : Ghost) (appPid : ℤ) (waiting : Bool) : Prop :=
  match g.phase with
  | .prompt => waiting = true → Dead v appPid
  | .asked _ => v.command ≠ none ∧ (waiting = true → Dead v appPid)
  | .running => waiting = true ∧ Live v g appPid

/-- What `GPID_PROCESS` does is what the shell waits for. -/
def Agrees (v : View) (g : Ghost) : Prop :=
  match g.stage with
  | .booting _ => Matched v g 0 false
  | .idle a w => Matched v g a w
  | .spawning m _ => g.phase = .asked m ∧ v.command = none
  | .loaded m a _ => g.phase = .asked m ∧ v.command = none ∧ v.gone a = false
  | .ready m a => g.phase = .asked m ∧ v.command = none ∧ Live v g a
  | .exiting q a w => gpidUserStart ≤ q ∧ g.exited q = true ∧
      (w = true ∧ a = q → g.phase = .running) ∧ (¬ (w = true ∧ a = q) → Matched v g a w)
  | .freed q a w => gpidUserStart ≤ q ∧ g.exited q = true ∧
      (w = true ∧ a = q → g.phase = .running ∧ Dead v a) ∧
      (¬ (w = true ∧ a = q) → Matched v g a w)
  | .killing a w => g.phase ≠ .running ∧ Matched v g a w

/-- `app_pid` is the last process that was started, or 0. -/
def Stage.AppOk (n : ℤ) (alloc : Option ℤ) : Stage → Prop
  | booting left => n + left = 4
  | idle a _ | spawning _ a | exiting _ a _ | freed _ a _ | killing a _ =>
    alloc = none ∧ (a = n ∧ 5 ≤ n ∨ a = 0 ∧ n = 4)
  | loaded _ a _ => a = n ∧ 5 ≤ n ∧ alloc = some n
  | ready _ a => alloc = none ∧ a = n ∧ 5 ≤ n

/-- The letter of `GPID_PROCESS` is the one that the shell waits for, and after it they agree. -/
def LetterOk (v : View) (g : Ghost) (topic : Topic) (m : Msg) : Prop :=
  ∃ a w, g.stage = .idle a w ∧ v.command = none ∧ g.phase.Expects topic ∧
    Matched v { g with phase := g.phase.after m } a w

/-- The invariant of the conversation. -/
structure Conversation (n : ℤ) (alloc : Option ℤ) (v : View) (g : Ghost) : Prop where
  process : v.process.Follows conductProcess Rests g.stage
  shell : v.shell.Follows conductShell AtPrompt g.phase
  user : ∀ q, gpidUserStart ≤ q → v.gone q = false → ¬ (n < q ∨ alloc = some q) →
    (v.user q).Follows conductUser GoesOn (g.exited q)
  app : g.stage.AppOk n alloc
  started : g.phase ≠ .prompt → v.noShell = false
  asked : ∀ m, g.phase = .asked m → IsSpawn m
  fresh : ∀ q, gpidUserStart ≤ q → n < q ∨ alloc = some q → g.exited q = false
  command : ∀ topic m, v.command = some (topic, m) →
    IsSpawn m ∧ g.phase = .asked m ∨ m.word = procKillall ∧ g.phase = .prompt
  exit : ∀ q, gpidUserStart ≤ q → ∀ topic m, v.exit q = some (topic, m) →
    m.word = procExit ∧ g.exited q = true ∧ v.gone q = false
  letter : ∀ topic m, v.letter = some (topic, m) → LetterOk v g topic m
  agrees : v.letter = none → Agrees v g
  mapped : ∀ m a, g.stage = .loaded m a true → v.user a = .ret .user

variable {v v' : View} {g : Ghost} {prog : App Point} {topic : Topic} {m : Msg} {a : ℤ} {w : Bool}

/-- After a message of `GPID_PROCESS` the shell no longer waits for a status. -/
theorem Phase.after_ne_asked (t : Phase) (m req : Msg) : t.after m ≠ .asked req := by
  cases t with
  | asked req' =>
    rw [Phase.after]
    split <;> simp
  | _ => simp [Phase.after]

/-- What `Matched` looks at. -/
theorem Matched.congr (h : Matched v g a w) {g' : Ghost} (hphase : g'.phase = g.phase)
    (hcommand : ∀ m, g.phase = .asked m → v.command ≠ none → v'.command ≠ none)
    (hdead : w = true → Dead v a → Dead v' a)
    (hlive : g.phase = .running → Live v g a → Live v' g' a) : Matched v' g' a w := by
  unfold Matched at h ⊢
  rw [hphase]
  cases hp : g.phase with
  | prompt =>
    rw [hp] at h
    exact fun hw => hdead hw (h hw)
  | asked m =>
    rw [hp] at h
    exact ⟨hcommand m hp h.1, fun hw => hdead hw (h.2 hw)⟩
  | running =>
    rw [hp] at h
    exact ⟨h.1, hlive hp h.2⟩

/-- The process that `GPID_PROCESS` is to report on is the one that was started last. -/
theorem Stage.AppOk.live {t : Stage} (h : t.AppOk n alloc) (hlive : Live v g a) :
    match t with
    | .idle b _ | .exiting _ b _ | .freed _ b _ | .killing b _ => b = a → a = n
    | _ => True := by
  have ha : (5 : ℤ) ≤ a := hlive.1
  cases t with
  | booting left => trivial
  | spawning m b => trivial
  | loaded m b mapped => trivial
  | ready m b => trivial
  | _ =>
    rintro rfl
    rcases h.2 with ⟨hn, -⟩ | ⟨h0, -⟩
    · exact hn
    · omega

/-- What `Agrees` looks at. -/
theorem Agrees.congr (h : Agrees v g) (happ : g.stage.AppOk n alloc) {g' : Ghost}
    (hstage : g'.stage = g.stage) (hphase : g'.phase = g.phase) (hcommand : v'.command = v.command)
    (hexited : ∀ q, g.exited q = true → g'.exited q = true) (hdead : ∀ a, Dead v a → Dead v' a)
    (hgone : g.phase ≠ .prompt → v.gone n = false → v'.gone n = false)
    (hlive : g.phase ≠ .prompt → Live v g n → Live v' g' n) : Agrees v' g' := by
  have hmatched : ∀ a w, (Live v g a → a = n) → Matched v g a w → Matched v' g' a w := by
    intro a w ha hm
    refine hm.congr hphase (fun _ _ => by rw [hcommand]; exact id) (fun _ => hdead a)
      fun hp hl => ?_
    have hn := ha hl
    subst hn
    exact hlive (by simp [hp]) hl
  unfold Agrees at h ⊢
  rw [hstage, hphase, hcommand]
  cases hs : g.stage with
  | booting left =>
    rw [hs] at h
    exact hmatched _ _ (fun hl => absurd hl.1 (by decide)) h
  | idle a w =>
    rw [hs] at h happ
    exact hmatched _ _ (fun hl => happ.live hl rfl) h
  | spawning m a =>
    rw [hs] at h
    exact h
  | loaded m a mapped =>
    rw [hs] at h happ
    obtain ⟨rfl, -⟩ := happ
    exact ⟨h.1, h.2.1, hgone (by simp [h.1]) h.2.2⟩
  | ready m a =>
    rw [hs] at h happ
    obtain ⟨-, rfl, -⟩ := happ
    exact ⟨h.1, h.2.1, hlive (by simp [h.1]) h.2.2⟩
  | exiting q a w =>
    rw [hs] at h happ
    exact ⟨h.1, hexited q h.2.1, h.2.2.1,
      fun hc => hmatched _ _ (fun hl => happ.live hl rfl) (h.2.2.2 hc)⟩
  | freed q a w =>
    rw [hs] at h happ
    exact ⟨h.1, hexited q h.2.1, fun hc => ⟨(h.2.2.1 hc).1, hdead a (h.2.2.1 hc).2⟩,
      fun hc => hmatched _ _ (fun hl => happ.live hl rfl) (h.2.2.2 hc)⟩
  | killing a w =>
    rw [hs] at h happ
    exact ⟨h.1, hmatched _ _ (fun hl => happ.live hl rfl) h.2⟩

/-- What `LetterOk` looks at. -/
theorem LetterOk.congr (h : LetterOk v g topic m) (happ : g.stage.AppOk n alloc) {g' : Ghost}
    (hstage : g'.stage = g.stage) (hphase : g'.phase = g.phase) (hcommand : v'.command = v.command)
    (hdead : ∀ a, Dead v a → Dead v' a)
    (hlive : g.phase ≠ .prompt → Live v g n → Live v' g' n) : LetterOk v' g' topic m := by
  obtain ⟨a, w, hs, hnone, hexpects, hmatched⟩ := h
  have hprompt : g.phase ≠ .prompt := by
    intro hp
    rw [hp] at hexpects
    exact hexpects
  rw [← hphase] at hexpects
  rw [hs] at happ
  refine ⟨a, w, hstage.trans hs, hcommand.trans hnone, hexpects, ?_⟩
  refine hmatched.congr (by simp only [hphase]) (fun _ _ => by rw [hcommand]; exact id)
    (fun _ => hdead a) fun _ hl => ?_
  have hn := happ.live hl rfl
  subst hn
  exact hlive hprompt hl

/-! ## Programs -/

namespace Conversation

/-- `GPID_PROCESS` goes on in the same stage. -/
theorem process_goes (h : Conversation n alloc v g)
    (hf : prog.Follows conductProcess Rests g.stage) :
    Conversation n alloc { v with process := prog } g :=
  ⟨hf, h.shell, h.user, h.app, h.started, h.asked, h.fresh, h.command, h.exit, h.letter,
    h.agrees, h.mapped⟩

/-- The shell goes on in the same phase. -/
theorem shell_goes (h : Conversation n alloc v g)
    (hf : prog.Follows conductShell AtPrompt g.phase) :
    Conversation n alloc { v with shell := prog } g :=
  ⟨h.process, hf, h.user, h.app, h.started, h.asked, h.fresh, h.command, h.exit, h.letter,
    h.agrees, h.mapped⟩

/-- The process that is being set up. -/
theorem loaded_alloc (h : Conversation n alloc v g) {mapped : Bool}
    (hs : g.stage = .loaded m a mapped) : alloc = some a ∧ gpidUserStart ≤ a := by
  have happ := h.app
  rw [hs] at happ
  obtain ⟨rfl, hn, halloc⟩ := happ
  exact ⟨halloc, hn⟩

/-- Only the program of the process that is being set up matters here. -/
theorem mapped_update (h : Conversation n alloc v g) (hborn : ¬ (n < p ∨ alloc = some p)) :
    ∀ m a, g.stage = .loaded m a true → update v.user p prog a = .ret .user := by
  intro m a hs
  have hap : a ≠ p := fun he => hborn (Or.inr (he ▸ (h.loaded_alloc hs).1))
  rw [update_of_ne hap]
  exact h.mapped m a hs

/-- A user process goes on. -/
theorem user_goes (h : Conversation n alloc v g) (hborn : ¬ (n < p ∨ alloc = some p))
    (hf : prog.Follows conductUser GoesOn (g.exited p)) :
    Conversation n alloc { v with user := update v.user p prog } g := by
  refine ⟨h.process, h.shell, fun q hq hgone hu => ?_, h.app, h.started, h.asked, h.fresh,
    h.command, h.exit, h.letter, h.agrees, h.mapped_update hborn⟩
  by_cases hqp : q = p
  · rw [hqp]
    simp only [update_self]
    exact hf
  · simp only [update_of_ne hqp]
    exact h.user q hq hgone hu

/-- `GPID_PROCESS` starts a round of its loop. -/
theorem rests (h : Conversation n alloc v g) {point : Point} (hrests : Rests g.stage point)
    (hletter : v.letter = none) (halloc : alloc = none) : ∃ a w, point = .process a w ∧
      ∀ prog, prog.Follows conductProcess Rests (.idle a w) →
        Conversation n alloc { v with process := prog } { g with stage := .idle a w } := by
  obtain ⟨a, w, rfl, hstage⟩ := hrests
  refine ⟨a, w, rfl, fun prog hf => ⟨hf, h.shell, h.user, ?_, h.started, h.asked, h.fresh,
    h.command,
    h.exit, fun topic m hl => absurd (hletter.symm.trans hl) (by simp), fun _ => ?_, nofun⟩⟩
  · have happ := h.app
    rcases hstage with hs | ⟨hs, ha⟩ | ⟨q, hs, -⟩ <;> rw [hs] at happ
    · exact happ
    · refine ⟨halloc, Or.inr ⟨ha, ?_⟩⟩
      have : n + ((0 : ℕ) : ℤ) = 4 := happ
      omega
    · exact happ
  · have hagrees := h.agrees hletter
    unfold Agrees at hagrees
    change Matched _ _ a w
    rcases hstage with hs | ⟨hs, ha⟩ | ⟨q, hs, hne⟩ <;> rw [hs] at hagrees
    · exact Matched.congr hagrees rfl (fun _ _ => id) (fun _ => id) fun _ => id
    · -- `app_pid` is still 0
      subst ha
      unfold Matched at hagrees ⊢
      dsimp only at hagrees ⊢
      cases hp : g.phase with
      | prompt => exact fun _ => Or.inl (by decide)
      | asked m =>
        rw [hp] at hagrees
        exact ⟨hagrees.1, fun _ => Or.inl (by decide)⟩
      | running =>
        rw [hp] at hagrees
        exact absurd hagrees.1 (by simp)
    · exact Matched.congr (hagrees.2.2.2 hne) rfl (fun _ _ => id) (fun _ => id) fun _ => id

/-! ## Letters -/

/-- `GPID_PROCESS` goes on after an operation that does not change its stage. -/
theorem process_step (h : Conversation n alloc v g) {o : SysOp} {k : o.Res → App Point}
    {result : o.Res} (hprog : v.process = .op o k)
    (hnext : conductProcess.next g.stage o result g.stage) :
    Conversation n alloc { v with process := k result } g := by
  have hf := h.process
  rw [hprog] at hf
  exact h.process_goes (hf.2 result _ hnext)

/-- The type of a request that has been set is its first word. -/
theorem setType_word {m : Msg} (h : IsSpawn m) (type : ℤ) : (m.setType type).word = type := by
  obtain ⟨argc, argv, rfl, -⟩ := h
  rfl

/-- The type is not the flag for the foreground. -/
theorem setType_foreground (m : Msg) (type : ℤ) : (m.setType type).foreground = m.foreground := by
  rw [Msg.foreground, Msg.foreground, setType_lastArg]

/-- `GPID_PROCESS` posts a message to the shell. -/
theorem process_posts (h : Conversation n alloc v g) (hletter : v.letter = none)
    {k : Unit → App Point} (hprog : v.process = .op (.send topic gpidShell m) k)
    (htopic : topic = .status ∨ topic = .termination)
    (hcond : topic = .status → m.word ≠ cmdOk → m.foreground = true → Dead v n) :
    ∃ t, Conversation n alloc { v with process := k (), letter := some (topic, m) }
      { g with stage := t } := by
  have hf := h.process
  rw [hprog] at hf
  obtain ⟨hallow, hnext⟩ := hf
  have hagrees := h.agrees hletter
  have happ := h.app
  unfold Agrees at hagrees
  -- the stage after the message, and that they agree after the shell has taken it in
  obtain ⟨a, w, hstage, happ', hcommand, hexpects, hmatched⟩ : ∃ a w,
      conductProcess.next g.stage (.send topic gpidShell m) () (.idle a w) ∧
      (Stage.idle a w).AppOk n alloc ∧ v.command = none ∧ g.phase.Expects topic ∧
      Matched v { g with phase := g.phase.after m } a w := by
    cases hs : g.stage with
    | spawning req a =>
      rw [hs] at hallow hagrees happ
      rcases htopic with rfl | rfl
      · obtain ⟨hphase, hcommand⟩ := hagrees
        obtain rfl : m = req.setType cmdError := hallow
        have hword := setType_word (h.asked _ hphase) cmdError
        refine ⟨a, _, rfl, happ, hcommand, by rw [hphase]; trivial, ?_⟩
        have hafter : g.phase.after (req.setType cmdError) = .prompt := by
          rw [hphase, Phase.after, hword]
          exact if_neg fun hc => absurd hc.1 (by decide)
        rw [hafter]
        intro hw
        rcases happ.2 with ⟨rfl, -⟩ | ⟨rfl, -⟩
        · exact hcond rfl (by rw [hword]; decide) (by rw [setType_foreground]; exact hw)
        · exact Or.inl (by decide)
      · exact hallow.elim
    | ready req a =>
      rw [hs] at hallow hagrees happ
      rcases htopic with rfl | rfl
      · obtain ⟨hphase, hcommand, hlive⟩ := hagrees
        obtain rfl : m = req.setType cmdOk := hallow
        have hword := setType_word (h.asked _ hphase) cmdOk
        refine ⟨a, _, rfl, ⟨happ.1, Or.inl happ.2⟩, hcommand, by rw [hphase]; trivial, ?_⟩
        cases hfore : req.foreground with
        | true =>
          have hafter : g.phase.after (req.setType cmdOk) = .running := by
            rw [hphase, Phase.after, hword]
            exact if_pos ⟨rfl, hfore⟩
          rw [hafter]
          exact ⟨rfl, hlive⟩
        | false =>
          have hafter : g.phase.after (req.setType cmdOk) = .prompt := by
            rw [hphase, Phase.after, hword]
            exact if_neg fun hc => absurd (hfore.symm.trans hc.2) (by simp)
          rw [hafter]
          intro hw
          cases hw
      · exact hallow.elim
    | freed q a w =>
      rw [hs] at hallow hagrees happ
      rcases htopic with rfl | rfl
      · exact hallow.elim
      · obtain ⟨hphase, hdead⟩ := hagrees.2.2.1 hallow
        refine ⟨a, w, rfl, happ, ?_, by rw [hphase]; trivial, ?_⟩
        · cases hc : v.command with
          | none => rfl
          | some x =>
            rcases h.command x.1 x.2 hc with ⟨-, hp⟩ | ⟨-, hp⟩ <;> rw [hphase] at hp <;> cases hp
        · rw [hphase]
          exact fun _ => hdead
    | booting left =>
      rw [hs] at hallow
      rcases htopic with rfl | rfl <;> exact hallow.elim
    | idle a w =>
      rw [hs] at hallow
      rcases htopic with rfl | rfl <;> exact hallow.elim
    | loaded req a mapped =>
      rw [hs] at hallow
      rcases htopic with rfl | rfl <;> exact hallow.elim
    | exiting q a w =>
      rw [hs] at hallow
      rcases htopic with rfl | rfl <;> exact hallow.elim
    | killing a w =>
      rw [hs] at hallow
      rcases htopic with rfl | rfl <;> exact hallow.elim
  refine ⟨.idle a w, hnext () _ hstage, h.shell, h.user, happ', h.started, h.asked, h.fresh,
    h.command, h.exit, ?_, by intros; contradiction, by intros; contradiction⟩
  rintro topic' m' hl
  cases hl
  exact ⟨a, w, rfl, hcommand, hexpects, hmatched⟩

/-- The letter of `GPID_PROCESS` is delivered. -/
theorem letter_delivered (h : Conversation n alloc v g) (hl : v.letter = some (topic, m))
    {topic' : Topic} {k : ℤ × Msg → App Point} (hprog : v.shell = .op (.recv topic') k) :
    Conversation n alloc { v with letter := none, shell := k (gpidProcess, m) }
      { g with phase := g.phase.after m } := by
  obtain ⟨a, w, hstage, hcommand, hexpects, hmatched⟩ := h.letter topic m hl
  have hf := h.shell
  rw [hprog] at hf
  refine ⟨h.process, hf.2 _ _ rfl, h.user, h.app, fun _ => h.started fun hp => ?_,
    fun req hp => absurd hp (Phase.after_ne_asked _ _ _), h.fresh,
    fun topic m hc => absurd (hcommand.symm.trans hc) (by simp), h.exit, nofun, fun _ => ?_,
    h.mapped⟩
  · rw [hp] at hexpects
    exact hexpects
  · unfold Agrees
    dsimp only
    rw [hstage]
    exact hmatched

/-- At its prompt, the shell is told nothing. -/
theorem letter_prompt (h : Conversation n alloc v g) (hp : g.phase = .prompt) :
    v.letter = none := by
  cases hl : v.letter with
  | none => rfl
  | some x =>
    obtain ⟨_, _, -, -, hexpects, -⟩ := h.letter x.1 x.2 hl
    rw [hp] at hexpects
    exact hexpects.elim

/-- `GPID_PROCESS` has nothing in its outbox while it serves a request. -/
theorem letter_stage (h : Conversation n alloc v g) (hs : ∀ a w, g.stage ≠ .idle a w) :
    v.letter = none := by
  cases hl : v.letter with
  | none => rfl
  | some x =>
    obtain ⟨a, w, hidle, -⟩ := h.letter x.1 x.2 hl
    exact absurd hidle (hs a w)

/-- The shell posts a command. -/
theorem shell_posts (h : Conversation n alloc v g) {k : Unit → App Point}
    (hprog : v.shell = .op (.send topic r m) k) (hstarted : v.noShell = false) :
    Conversation n alloc { v with shell := k (), command := some (topic, m) }
      { g with phase := if m.word = procSpawn then .asked m else .prompt } := by
  have hf := h.shell
  rw [hprog] at hf
  obtain ⟨hallow, hnext⟩ := hf
  obtain ⟨hphase, hm⟩ : g.phase = .prompt ∧ (IsSpawn m ∨ m.word = procKillall) := by
    cases hp : g.phase with
    | prompt =>
      rw [hp] at hallow
      cases topic with
      | command => exact ⟨rfl, hallow⟩
      | _ => exact hallow.elim
    | asked req =>
      rw [hp] at hallow
      exact hallow.elim
    | running =>
      rw [hp] at hallow
      exact hallow.elim
  have hletter := h.letter_prompt hphase
  have hagrees := h.agrees hletter
  have hrunning : ∀ req, (if m.word = procSpawn then Phase.asked m else .prompt) ≠ .running ∧
      ((if m.word = procSpawn then Phase.asked m else .prompt) = .asked req → req = m) := by
    intro req
    split <;> simp [eq_comm]
  -- what is matched at the prompt stays so
  have hmatched : ∀ a w, Matched v g a w → Matched
      { v with shell := k (), command := some (topic, m) }
      { g with phase := if m.word = procSpawn then .asked m else .prompt } a w := by
    intro a w hmatched
    rw [Matched, hphase] at hmatched
    split
    · exact ⟨by simp, hmatched⟩
    · exact hmatched
  refine ⟨h.process, hnext () _ rfl, h.user, h.app, fun _ => hstarted, fun req hp => ?_, h.fresh,
    fun topic' m' hc => ?_, h.exit, fun topic' m' hl => absurd (hletter.symm.trans hl) (by simp),
    fun _ => ?_, h.mapped⟩
  · obtain rfl := (hrunning req).2 hp
    refine hm.resolve_right fun hk => ?_
    rw [if_neg (by rw [hk]; decide)] at hp
    cases hp
  · cases hc
    rcases hm with hm | hm
    · exact Or.inl ⟨hm, if_pos hm.word⟩
    · exact Or.inr ⟨hm, if_neg (by rw [hm]; decide)⟩
  · unfold Agrees at hagrees ⊢
    dsimp only
    cases hs : g.stage with
    | booting left =>
      rw [hs] at hagrees
      exact hmatched _ _ hagrees
    | idle a w =>
      rw [hs] at hagrees
      exact hmatched _ _ hagrees
    | spawning req a =>
      rw [hs] at hagrees
      exact absurd (hphase.symm.trans hagrees.1) (by simp)
    | loaded req a mapped =>
      rw [hs] at hagrees
      exact absurd (hphase.symm.trans hagrees.1) (by simp)
    | ready req a =>
      rw [hs] at hagrees
      exact absurd (hphase.symm.trans hagrees.1) (by simp)
    | exiting q a w =>
      rw [hs] at hagrees
      exact ⟨hagrees.1, hagrees.2.1,
        fun hc => absurd (hphase.symm.trans (hagrees.2.2.1 hc)) (by simp),
        fun hc => hmatched _ _ (hagrees.2.2.2 hc)⟩
    | freed q a w =>
      rw [hs] at hagrees
      exact ⟨hagrees.1, hagrees.2.1,
        fun hc => absurd (hphase.symm.trans (hagrees.2.2.1 hc).1) (by simp),
        fun hc => hmatched _ _ (hagrees.2.2.2 hc)⟩
    | killing a w =>
      rw [hs] at hagrees
      exact ⟨(hrunning m).1, hmatched _ _ hagrees.2⟩

/-- `GPID_PROCESS` waits for a request. -/
theorem idle_of_recv (h : Conversation n alloc v g) {k : ℤ × Msg → App Point}
    (hprog : v.process = .op (.recv .command) k) : ∃ a w, g.stage = .idle a w := by
  have hf := h.process
  rw [hprog] at hf
  cases hs : g.stage with
  | idle a w => exact ⟨a, w, rfl⟩
  | _ =>
    rw [hs] at hf
    exact hf.1.elim

/-- The command of the shell is delivered. -/
theorem command_delivered (h : Conversation n alloc v g) (hc : v.command = some (topic, m))
    {k : ℤ × Msg → App Point} (hprog : v.process = .op (.recv .command) k) :
    ∃ t, Conversation n alloc { v with command := none, process := k (gpidShell, m) }
      { g with stage := t } := by
  obtain ⟨a, w, hs⟩ := h.idle_of_recv hprog
  have hf := h.process
  rw [hprog, hs] at hf
  have hletter : v.letter = none := by
    cases hl : v.letter with
    | none => rfl
    | some x =>
      obtain ⟨_, _, -, hnone, -⟩ := h.letter x.1 x.2 hl
      rw [hc] at hnone
      cases hnone
  have hagrees := h.agrees hletter
  have happ := h.app
  rw [Agrees, hs] at hagrees
  rw [hs] at happ
  rcases h.command topic m hc with ⟨hspawn, hphase⟩ | ⟨hkill, hphase⟩
  · exact ⟨.spawning m a, hf.2 _ _ (Or.inl ⟨hspawn, rfl⟩), h.shell, h.user, happ, h.started,
      h.asked, h.fresh, nofun, h.exit, fun _ _ hl => absurd (hletter.symm.trans hl) (by simp),
      fun _ => ⟨hphase, rfl⟩, nofun⟩
  · refine ⟨.killing a w, hf.2 _ _ (Or.inr (Or.inr ⟨hkill, rfl⟩)), h.shell, h.user, happ, h.started,
      h.asked, h.fresh, nofun, h.exit, fun _ _ hl => absurd (hletter.symm.trans hl) (by simp),
      fun _ => ⟨?_, ?_⟩, nofun⟩
    · simp [hphase]
    · dsimp only at hagrees
      rw [Matched, hphase] at hagrees
      rw [Matched]
      dsimp only
      rw [hphase]
      exact hagrees

/-- A user process posts its exit. -/
theorem user_posts (h : Conversation n alloc v g) (hq : gpidUserStart ≤ q)
    (hborn : ¬ (n < q ∨ alloc = some q)) (hgone : v.gone q = false) {k : Unit → App Point}
    (hprog : v.user q = .op (.send .command r m) k) :
    Conversation n alloc
      { v with
        user := update v.user q (k ())
        exit := update v.exit q (some (.command, m)) }
      { g with exited := update g.exited q true } := by
  have hf := h.user q hq hgone hborn
  rw [hprog] at hf
  obtain ⟨hallow, hnext⟩ := hf
  have hword : m.word = procExit := by
    cases he : g.exited q with
    | false =>
      rw [he] at hallow
      exact hallow
    | true =>
      rw [he] at hallow
      exact hallow.elim
  have hexited : ∀ z, g.exited z = true → update g.exited q true z = true := by
    intro z hz
    by_cases hzq : z = q
    · rw [hzq, update_self]
    · rwa [update_of_ne hzq]
  have hlive : ∀ a, Live v g a → Live
      { v with
        user := update v.user q (k ())
        exit := update v.exit q (some (.command, m)) }
      { g with exited := update g.exited q true } a := by
    rintro a ⟨ha, hg, he⟩
    refine ⟨ha, hg, fun hx => ?_⟩
    by_cases haq : a = q
    · simp [haq]
    · simp only [update_of_ne haq] at hx ⊢
      exact he hx
  refine ⟨h.process, h.shell, fun z hz hzg hzu => ?_, h.app, h.started, h.asked, fun z hz hu => ?_,
    h.command, fun z hz topic' m' hx => ?_,
    fun topic' m' hl => (h.letter topic' m' hl).congr h.app rfl rfl rfl (fun _ => id)
      fun _ => hlive n,
    fun hl => (h.agrees hl).congr h.app rfl rfl rfl hexited (fun _ => id) (fun _ => id)
      fun _ => hlive n,
    h.mapped_update hborn⟩
  · by_cases hzq : z = q
    · simp only [hzq, update_self]
      exact hnext () _ rfl
    · simp only [update_of_ne hzq]
      exact h.user z hz hzg hzu
  · have hzq : z ≠ q := by
      rintro rfl
      exact hborn hu
    simp only [update_of_ne hzq]
    exact h.fresh z hz hu
  · by_cases hzq : z = q
    · subst hzq
      simp only [update_self] at hx ⊢
      cases hx
      exact ⟨hword, trivial, hgone⟩
    · simp only [update_of_ne hzq] at hx ⊢
      exact h.exit z hz topic' m' hx

/-- A user process has no letter on its way any more. -/
theorem live_exit (hne : a ≠ q) (h : Live v g a) :
    Live { v with exit := update v.exit q none, process := prog } g a := by
  refine ⟨h.1, h.2.1, fun he => ?_⟩
  simp only [update_of_ne hne]
  exact h.2.2 he

/-- Taking away a letter leaves the exits that are on their way. -/
theorem exit_update (h : Conversation n alloc v g) : ∀ z, gpidUserStart ≤ z → ∀ topic m,
    update v.exit q none z = some (topic, m) →
      m.word = procExit ∧ g.exited z = true ∧ v.gone z = false := by
  intro z hz topic m hx
  by_cases hzq : z = q
  · rw [hzq, update_self] at hx
    cases hx
  · rw [update_of_ne hzq] at hx
    exact h.exit z hz topic m hx

/-- The exit of a user process is delivered. -/
theorem exit_delivered (h : Conversation n alloc v g) (hletter : v.letter = none)
    (hq : gpidUserStart ≤ q) (hx : v.exit q = some (topic, m)) {k : ℤ × Msg → App Point}
    (hprog : v.process = .op (.recv .command) k) :
    ∃ t, Conversation n alloc { v with exit := update v.exit q none, process := k (q, m) }
      { g with stage := t } := by
  obtain ⟨a, w, hs⟩ := h.idle_of_recv hprog
  obtain ⟨hword, hexited, hgone⟩ := h.exit q hq topic m hx
  have hf := h.process
  rw [hprog, hs] at hf
  have hagrees := h.agrees hletter
  have happ := h.app
  rw [hs] at happ
  unfold Agrees at hagrees
  rw [hs] at hagrees
  refine ⟨.exiting q a w, hf.2 _ _ (Or.inr (Or.inl ⟨hword, rfl⟩)), h.shell, h.user, happ, h.started,
    h.asked, h.fresh, h.command, h.exit_update,
    fun _ _ hl => absurd (hletter.symm.trans hl) (by simp), fun _ => ⟨hq, hexited, ?_, ?_⟩, nofun⟩
  · -- the process that exits is not dead
    rintro ⟨hw, rfl⟩
    have hdead : ¬ Dead v a := by
      rintro (hlt | hg)
      · exact absurd hq (not_le.2 hlt)
      · rw [hgone] at hg
        cases hg
    unfold Matched at hagrees
    dsimp only at hagrees
    cases hp : g.phase with
    | prompt =>
      rw [hp] at hagrees
      exact absurd (hagrees hw) hdead
    | asked req =>
      rw [hp] at hagrees
      exact absurd (hagrees.2 hw) hdead
    | running => rfl
  · intro hne
    have hagrees : Matched v g a w := hagrees
    refine hagrees.congr rfl (fun _ _ => id) (fun _ => id) fun hp hl => ?_
    unfold Matched at hagrees
    rw [hp] at hagrees
    exact live_exit (fun ha => hne ⟨hagrees.1, ha⟩) hl

/-- The exit of a user process is delivered in place of another message, and lost. -/
theorem exit_lost (h : Conversation n alloc v g) (hletter : v.letter = none)
    {topic' : Topic} {k : ℤ × Msg → App Point} (hprog : v.process = .op (.recv topic') k)
    (htopic : topic' ≠ .command) (result : ℤ × Msg) :
    Conversation n alloc { v with exit := update v.exit q none, process := k result } g := by
  have hf := h.process
  rw [hprog] at hf
  have hagrees := h.agrees hletter
  -- in this stage no process is waited for
  obtain ⟨hnext, hagrees'⟩ : conductProcess.next g.stage (.recv topic') result g.stage ∧
      Agrees { v with exit := update v.exit q none, process := k result } g := by
    unfold Agrees at hagrees ⊢
    cases hs : g.stage with
    | booting left =>
      rw [hs] at hf hagrees
      refine ⟨?_, ?_⟩
      · cases topic' <;> rfl
      · have hagrees : Matched v g 0 false := hagrees
        exact hagrees.congr rfl (fun _ _ => id) (fun _ => id)
          fun _ hl => absurd hl.1 (by decide)
    | spawning m a =>
      rw [hs] at hf hagrees
      refine ⟨?_, hagrees⟩
      cases topic' <;> exact rfl
    | loaded m a mapped =>
      rw [hs] at hf hagrees
      refine ⟨?_, hagrees⟩
      cases topic' <;> exact rfl
    | idle a w =>
      rw [hs] at hf
      cases topic' with
      | command => exact absurd rfl htopic
      | _ => exact hf.1.elim
    | ready m a =>
      rw [hs] at hf
      exact hf.1.elim
    | exiting q a w =>
      rw [hs] at hf
      exact hf.1.elim
    | freed q a w =>
      rw [hs] at hf
      exact hf.1.elim
    | killing a w =>
      rw [hs] at hf
      exact hf.1.elim
  exact ⟨hf.2 _ _ hnext, h.shell, h.user, h.app, h.started, h.asked, h.fresh, h.command,
    h.exit_update,
    fun _ _ hl => absurd (hletter.symm.trans hl) (by simp), fun _ => hagrees', h.mapped⟩

/-! ## Processes that start and end -/

/-- `proc_alloc` while the servers are started. -/
theorem boot_alloc (h : Conversation n alloc v g) {left : ℕ} (hs : g.stage = .booting left)
    {k : ℤ → App Point} (hprog : v.process = .op .procAlloc k) :
    n + 1 ≤ gpidShell ∧ Conversation (n + 1) (some (n + 1)) { v with process := k (n + 1) }
      { g with stage := .booting (left - 1) } := by
  have hf := h.process
  have happ := h.app
  rw [hprog, hs] at hf
  rw [hs] at happ
  have hleft : 0 < left := hf.1
  have happ : n + (left : ℤ) = 4 := happ
  have hle : n + 1 ≤ 4 := by omega
  have hunborn : ∀ q, n + 1 < q ∨ some (n + 1) = some q → n < q ∨ alloc = some q := by
    rintro q (hq | hq)
    · exact Or.inl ((lt_add_one n).trans hq)
    · cases hq
      exact Or.inl (lt_add_one n)
  refine ⟨hle, hf.2 _ _ rfl, h.shell, fun q hq _ hu => ?_, ?_, h.started, h.asked,
    fun q hq hu => h.fresh q hq (hunborn q hu), h.command, h.exit, ?_, ?_, nofun⟩
  · have hq : (5 : ℤ) ≤ q := hq
    exact absurd (Or.inl (by omega)) hu
  · show n + 1 + ((left - 1 : ℕ) : ℤ) = 4
    omega
  · intro topic m hl
    obtain ⟨_, _, hidle, -⟩ := h.letter topic m hl
    exact absurd (hs.symm.trans hidle) (by simp)
  · intro hl
    have hagrees := h.agrees hl
    unfold Agrees at hagrees
    rw [hs] at hagrees
    exact Matched.congr hagrees rfl (fun _ _ => id) (fun _ => id) fun _ => id

/-- `proc_alloc` for a command. -/
theorem spawn_alloc (h : Conversation n alloc v g) {a : ℤ} (hs : g.stage = .spawning m a)
    {k : ℤ → App Point} (hprog : v.process = .op .procAlloc k) :
    gpidUserStart ≤ n + 1 ∧ Conversation (n + 1) (some (n + 1))
      { v with
        process := k (n + 1)
        gone := update v.gone (n + 1) false }
      { g with stage := .loaded m (n + 1) false } := by
  have hf := h.process
  have happ := h.app
  rw [hprog, hs] at hf
  rw [hs] at happ
  have hge : 5 ≤ n + 1 := by
    rcases happ.2 with ⟨-, hn⟩ | ⟨-, hn⟩ <;> omega
  have hunborn : ∀ q, n + 1 < q ∨ some (n + 1) = some q → n < q ∨ alloc = some q := by
    rintro q (hq | hq)
    · exact Or.inl ((lt_add_one n).trans hq)
    · cases hq
      exact Or.inl (lt_add_one n)
  have hletter := h.letter_stage (by simp [hs])
  have hagrees := h.agrees hletter
  unfold Agrees at hagrees
  rw [hs] at hagrees
  refine ⟨hge, hf.2 _ _ rfl, h.shell, fun q hq hg hu => ?_, ⟨rfl, hge, rfl⟩, h.started, h.asked,
    fun q hq hu => h.fresh q hq (hunborn q hu), h.command, fun q hq topic m hx => ?_,
    fun _ _ hl => absurd (hletter.symm.trans hl) (by simp), fun _ => ?_,
    fun m' a' hs' => absurd hs' (by simp)⟩
  · have hqn : q ≠ n + 1 := fun he => hu (Or.inr (by rw [he]))
    simp only [update_of_ne hqn] at hg
    refine h.user q hq hg ?_
    rintro (hlt | ha)
    · exact hu (Or.inl (lt_of_le_of_ne (Int.add_one_le_iff.2 hlt) hqn.symm))
    · rw [happ.1] at ha
      cases ha
  · obtain ⟨hw, he, hg⟩ := h.exit q hq topic m hx
    refine ⟨hw, he, ?_⟩
    by_cases hqn : q = n + 1
    · simp [hqn]
    · simp only [update_of_ne hqn]
      exact hg
  · exact ⟨hagrees.1, hagrees.2, by simp⟩

/-- Every pid is given out once. -/
theorem fresh_none (h : Conversation n alloc v g) : ∀ q, gpidUserStart ≤ q →
    n < q ∨ (none : Option ℤ) = some q → g.exited q = false :=
  fun q hq hu => h.fresh q hq (Or.inl (hu.resolve_right (by simp)))

/-- `proc_set_ready` while the servers are started. -/
theorem boot_ready (h : Conversation n alloc v g) {left : ℕ} (hs : g.stage = .booting left)
    {pid : ℤ} {k : Unit → App Point} (hprog : v.process = .op (.procSetReady pid) k) {b : Bool}
    (hb : v.noShell = false → b = false) :
    Conversation n none { v with process := k (), noShell := b } g := by
  have hf := h.process
  have happ := h.app
  rw [hprog, hs] at hf
  refine ⟨?_, h.shell, fun q hq _ hu => ?_, ?_, fun hp => hb (h.started hp), h.asked, h.fresh_none,
    h.command, h.exit, fun topic m hl => ?_, fun hl => ?_, h.mapped⟩
  · rw [hs]
    exact hf.2 () _ rfl
  · -- there is no user process yet
    have hq : (5 : ℤ) ≤ q := hq
    rw [hs] at happ
    have happ : n + (left : ℤ) = 4 := happ
    exact absurd (Or.inl (by omega)) hu
  · rw [hs] at happ ⊢
    exact happ
  · exact (h.letter topic m hl).congr happ rfl rfl rfl (fun _ => id) fun _ => id
  · exact (h.agrees hl).congr happ rfl rfl rfl (fun _ => id) (fun _ => id) (fun _ => id) fun _ => id

/-- `elf_load` for a command. -/
theorem spawn_load (h : Conversation n alloc v g) {a pid : ℤ} {mapped : Bool} {image : Image}
    (hs : g.stage = .loaded m a mapped) {k : Unit → App Point}
    (hprog : v.process = .op (.elfLoad pid image) k) :
    Conversation n alloc
      { v with
        process := k ()
        user := update v.user a (.ret .user) }
      { g with stage := .loaded m a true } := by
  have hf := h.process
  have happ := h.app
  rw [hprog, hs] at hf
  rw [hs] at happ
  have halloc := (h.loaded_alloc hs).1
  have hletter := h.letter_stage (by simp [hs])
  have hagrees := h.agrees hletter
  unfold Agrees at hagrees
  rw [hs] at hagrees
  refine ⟨hf.2 () _ rfl, h.shell, fun q hq hg hu => ?_, happ, h.started, h.asked, h.fresh,
    h.command, h.exit, fun _ _ hl => absurd (hletter.symm.trans hl) (by simp), fun _ => hagrees, ?_⟩
  · have hqa : q ≠ a := fun he => hu (Or.inr (by rw [he, halloc]))
    simp only [update_of_ne hqa]
    exact h.user q hq hg hu
  · rintro m' a' ⟨⟩
    exact update_self _ _ _

/-- `proc_set_ready` for a command. -/
theorem spawn_ready (h : Conversation n alloc v g) {a : ℤ} (hs : g.stage = .loaded m a true)
    {pid : ℤ} {k : Unit → App Point} (hprog : v.process = .op (.procSetReady pid) k) {b : Bool}
    (hb : v.gone n = false → b = false) :
    Conversation n none
      { v with
        process := k ()
        gone := update v.gone n b }
      { g with stage := .ready m a } := by
  have hf := h.process
  have happ := h.app
  rw [hprog, hs] at hf
  rw [hs] at happ
  obtain ⟨rfl, hn, halloc⟩ := happ
  have hexited := h.fresh a hn (Or.inr halloc)
  have hletter := h.letter_stage (by simp [hs])
  have hagrees := h.agrees hletter
  unfold Agrees at hagrees
  rw [hs] at hagrees
  obtain ⟨hphase, hcommand, hgone⟩ := hagrees
  have hgone' : b = false := hb hgone
  refine ⟨hf.2 () _ rfl, h.shell, fun q hq hg hu => ?_, ⟨rfl, rfl, hn⟩, h.started, h.asked,
    h.fresh_none, h.command, fun q hq topic m hx => ?_,
    fun _ _ hl => absurd (hletter.symm.trans hl) (by simp),
    fun _ => ⟨hphase, hcommand, hn, by simp [hgone'], fun he => ?_⟩, nofun⟩
  · by_cases hqn : q = a
    · -- the process that starts
      rw [hqn, h.mapped m a hs, hexited]
      exact rfl
    · simp only [update_of_ne hqn] at hg
      refine h.user q hq hg ?_
      rintro (hlt | ha)
      · exact hu (Or.inl hlt)
      · rw [halloc] at ha
        exact hqn (Option.some.inj ha).symm
  · obtain ⟨hw, he, hg⟩ := h.exit q hq topic m hx
    refine ⟨hw, he, ?_⟩
    by_cases hqn : q = a
    · simp [hqn, hgone']
    · simp only [update_of_ne hqn]
      exact hg
  · exact absurd (hexited.symm.trans he) (by simp)

section ends

variable {D : ℤ → Prop} [DecidablePred D] {u : ℤ → App Point}

/-- The view after some user processes have ended. Of a process that has started, it does not matter
any more what it executes. -/
def Ended (D : ℤ → Prop) [DecidablePred D] (v : View) (u : ℤ → App Point) : View :=
  { v with
    user := u
    exit := fun q => if D q then none else v.exit q
    gone := fun q => if D q then true else v.gone q }

/-- A process that has ended stays so when others end. -/
theorem dead_ended (h : Dead v a) : Dead (Ended D v u) a := by
  refine h.imp_right fun hg => ?_
  simp only [Ended]
  split
  · rfl
  · exact hg

/-- A process that is not among those that end goes on. -/
theorem live_ended (h : Live v g a) (ha : ¬ D a) : Live (Ended D v u) g a := by
  refine ⟨h.1, ?_, fun he => ?_⟩
  · simp only [Ended, if_neg ha]
    exact h.2.1
  · simp only [Ended, if_neg ha]
    exact h.2.2 he

/-- The user processes that have not ended follow their conduct still. -/
theorem user_ended (h : Conversation n alloc v g)
    (hu : ∀ q, gpidUserStart ≤ q → ¬ D q ∨ n < q ∨ alloc = some q → u q = v.user q) :
    ∀ q, gpidUserStart ≤ q → (Ended D v u).gone q = false → ¬ (n < q ∨ alloc = some q) →
      ((Ended D v u).user q).Follows conductUser GoesOn (g.exited q) := by
  intro q hq hg hborn
  by_cases hd : D q
  · simp [Ended, hd] at hg
  · simp only [Ended, if_neg hd] at hg ⊢
    rw [hu q hq (Or.inl hd)]
    exact h.user q hq hg hborn

omit [DecidablePred D] in
/-- A process that has just been loaded is still at its start. -/
theorem mapped_ended (h : Conversation n alloc v g)
    (hu : ∀ q, gpidUserStart ≤ q → ¬ D q ∨ n < q ∨ alloc = some q → u q = v.user q) :
    ∀ m a, g.stage = .loaded m a true → u a = .ret .user := by
  intro m a hs
  obtain ⟨halloc, ha⟩ := h.loaded_alloc hs
  rw [hu a ha (Or.inr (Or.inr halloc))]
  exact h.mapped m a hs

/-- The exits on their way are from processes that have not ended. -/
theorem exit_ended (h : Conversation n alloc v g) : ∀ q, gpidUserStart ≤ q → ∀ topic m,
    (Ended D v u).exit q = some (topic, m) →
      m.word = procExit ∧ g.exited q = true ∧ (Ended D v u).gone q = false := by
  intro q hq topic m hx
  by_cases hd : D q
  · simp [Ended, hd] at hx
  · simp only [Ended, if_neg hd] at hx ⊢
    exact h.exit q hq topic m hx

/-- `GPID_PROCESS` frees a process that has exited. -/
theorem frees (h : Conversation n alloc v g)
    (hu : ∀ q, gpidUserStart ≤ q → ¬ D q ∨ n < q ∨ alloc = some q → u q = v.user q)
    {w : Bool} (hs : g.stage = .exiting q a w) (hD : ∀ z, D z ↔ z = q) {pid : ℤ}
    {k : Unit → App Point} (hprog : v.process = .op (.procFree pid) k) :
    Conversation n alloc { Ended D v u with process := k () } { g with stage := .freed q a w } := by
  have hf := h.process
  have happ := h.app
  rw [hprog, hs] at hf
  rw [hs] at happ
  have hletter := h.letter_stage (by simp [hs])
  have hagrees := h.agrees hletter
  unfold Agrees at hagrees
  rw [hs] at hagrees
  obtain ⟨hq, hexited, hwaits, hmatched⟩ := hagrees
  refine ⟨hf.2 () _ rfl, h.shell, h.user_ended hu, happ, h.started, h.asked, h.fresh, h.command,
    h.exit_ended (u := u), fun _ _ hl => absurd (hletter.symm.trans hl) (by simp),
    fun _ => ⟨hq, hexited, fun hc => ⟨hwaits hc, Or.inr ?_⟩, fun hc => ?_⟩, nofun⟩
  · have hd : D a := (hD a).2 hc.2
    simp [Ended, hd]
  · have hm := hmatched hc
    refine hm.congr rfl (fun _ _ => id) (fun _ => dead_ended (u := u)) fun hp hl => ?_
    unfold Matched at hm
    rw [hp] at hm
    exact live_ended (u := u) hl fun hd => hc ⟨hm.1, (hD a).1 hd⟩

/-- `GPID_PROCESS` frees all user processes. -/
theorem kills (h : Conversation n alloc v g)
    (hu : ∀ q, gpidUserStart ≤ q → ¬ D q ∨ n < q ∨ alloc = some q → u q = v.user q)
    {w : Bool} (hs : g.stage = .killing a w) {pid : ℤ}
    {k : Unit → App Point} (hprog : v.process = .op (.procFree pid) k) :
    Conversation n alloc { Ended D v u with process := k () } { g with stage := .idle a w } := by
  have hf := h.process
  have happ := h.app
  rw [hprog, hs] at hf
  rw [hs] at happ
  have hletter := h.letter_stage (by simp [hs])
  have hagrees := h.agrees hletter
  unfold Agrees at hagrees
  rw [hs] at hagrees
  refine ⟨hf.2 () _ rfl, h.shell, h.user_ended hu, happ, h.started, h.asked, h.fresh, h.command,
    h.exit_ended (u := u), fun _ _ hl => absurd (hletter.symm.trans hl) (by simp), fun _ => ?_,
    nofun⟩
  exact Matched.congr hagrees.2 rfl (fun _ _ => id) (fun _ => dead_ended (u := u))
    fun hp => absurd hp hagrees.1

/-- A process is killed that the shell does not wait for. -/
theorem kill_other (h : Conversation n alloc v g)
    (hu : ∀ q, gpidUserStart ≤ q → ¬ D q ∨ n < q ∨ alloc = some q → u q = v.user q)
    (hD : g.phase ≠ .prompt → ¬ D n) : Conversation n alloc (Ended D v u) g := by
  have hlive : g.phase ≠ .prompt → Live v g n → Live (Ended D v u) g n :=
    fun hp hl => live_ended hl (hD hp)
  refine ⟨h.process, h.shell, h.user_ended hu, h.app, h.started, h.asked, h.fresh, h.command,
    h.exit_ended (u := u), fun topic m hl => ?_, fun hl => ?_, h.mapped_ended hu⟩
  · exact (h.letter topic m hl).congr h.app rfl rfl rfl (fun _ => dead_ended (u := u)) hlive
  · refine (h.agrees hl).congr h.app rfl rfl rfl (fun _ => id) (fun _ => dead_ended (u := u))
      (fun hp hg => ?_) hlive
    simp only [Ended, if_neg (hD hp)]
    exact hg

/-- The process that the shell waits for is killed, before it has exited, and the shell is woken. -/
theorem kill_foreground (h : Conversation n alloc v g)
    (hu : ∀ q, gpidUserStart ≤ q → ¬ D q ∨ n < q ∨ alloc = some q → u q = v.user q)
    (hp : g.phase = .running) (hD : D n) (hexited : g.exited n = false)
    (hletter : v.letter = none) {topic : Topic} {k : ℤ × Msg → App Point}
    (hprog : v.shell = .op (.recv topic) k) (result : ℤ × Msg) :
    Conversation n alloc { Ended D v u with shell := k result } { g with phase := .prompt } := by
  have hf := h.shell
  rw [hprog, hp] at hf
  have hcommand : v.command = none := by
    cases hc : v.command with
    | none => rfl
    | some x =>
      rcases h.command x.1 x.2 hc with ⟨-, hph⟩ | ⟨-, hph⟩ <;> rw [hp] at hph <;> cases hph
  have happ := h.app
  have hagrees := h.agrees hletter
  -- who was matched with the shell waits for nobody now
  have hmatched : ∀ a w, (Live v g a → a = n) → Matched v g a w →
      Matched { Ended D v u with shell := k result } { g with phase := .prompt } a w := by
    intro a w ha hm _
    rw [Matched, hp] at hm
    rw [ha hm.2]
    exact Or.inr (by simp [Ended, hD])
  refine ⟨h.process, hf.2 result _ rfl, h.user_ended hu, h.app, fun hc => absurd rfl hc, nofun,
    h.fresh, fun _ _ hc => absurd (hcommand.symm.trans hc) (by simp), h.exit_ended (u := u),
    fun _ _ hl => absurd (hletter.symm.trans hl) (by simp), fun _ => ?_, h.mapped_ended hu⟩
  unfold Agrees at hagrees ⊢
  dsimp only
  cases hs : g.stage with
  | booting left =>
    rw [hs] at hagrees
    exact hmatched _ _ (fun hl => absurd hl.1 (by decide)) hagrees
  | idle a w =>
    rw [hs] at hagrees happ
    exact hmatched _ _ (fun hl => happ.live hl rfl) hagrees
  | spawning m a =>
    rw [hs] at hagrees
    exact absurd (hp.symm.trans hagrees.1) (by simp)
  | loaded m a mapped =>
    rw [hs] at hagrees
    exact absurd (hp.symm.trans hagrees.1) (by simp)
  | ready m a =>
    rw [hs] at hagrees
    exact absurd (hp.symm.trans hagrees.1) (by simp)
  | exiting q a w =>
    rw [hs] at hagrees happ
    obtain ⟨hq, hex, -, hm⟩ := hagrees
    refine ⟨hq, hex, ?_, fun hc => hmatched _ _ (fun hl => happ.live hl rfl) (hm hc)⟩
    -- the process has not exited
    rintro ⟨-, rfl⟩
    rcases happ.2 with ⟨rfl, -⟩ | ⟨rfl, -⟩
    · exact absurd (hexited.symm.trans hex) (by simp)
    · exact absurd hq (by decide)
  | freed q a w =>
    rw [hs] at hagrees happ
    obtain ⟨hq, hex, -, hm⟩ := hagrees
    refine ⟨hq, hex, fun hc => ?_, fun hc => hmatched _ _ (fun hl => happ.live hl rfl) (hm hc)⟩
    obtain ⟨-, rfl⟩ := hc
    rcases happ.2 with ⟨rfl, -⟩ | ⟨rfl, -⟩
    · exact absurd (hexited.symm.trans hex) (by simp)
    · exact absurd hq (by decide)
  | killing a w =>
    rw [hs] at hagrees
    exact absurd hp hagrees.1

end ends

end Conversation

end Egos.Apps
