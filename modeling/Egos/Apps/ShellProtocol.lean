import Egos.Apps.Conversation

/-!
# The moves of the system as moves of the conversation

Every move of the parties is one of the changes of the conversation, when it meets a condition on
the lines that are typed, on Ctrl+C and on commands that are not found.
-/

namespace Egos.Apps

open Egos.Grass
open Function (update update_self update_of_ne update_eq_self update_idem)

variable {env : Env} {x x' : ℤ → Party} {p q r n n' : ℤ} {alloc alloc' : Option ℤ} {g : Ghost}
  {topic : Topic} {a : Move}

/-! ## What the kernel keeps -/

/-- Nobody waits to send to a process that waits for a message, and `GPID_PROCESS` does not end. -/
structure Kept (x : ℤ → Party) : Prop where
  queue : ∀ p r, (x p).wait = .toSend r → (x r).wait ≠ .toRecv
  process : (x gpidProcess).wait ≠ .gone

/-- A process starts to wait. -/
theorem Kept.change {b : Party} (h : Kept x)
    (hwait : b.wait = .toRecv → ∀ q, (x q).wait ≠ .toSend p)
    (hsend : ∀ r, b.wait = .toSend r → (x r).wait ≠ .toRecv) (hgone : b.wait ≠ .gone) :
    Kept (update x p b) := by
  refine ⟨fun q r hq hr => ?_, ?_⟩
  · by_cases hqp : q = p
    · rw [hqp, update_self] at hq
      by_cases hrp : r = p
      · rw [hrp, update_self, hq] at hr
        cases hr
      · rw [update_of_ne hrp] at hr
        exact hsend r hq hr
    · rw [update_of_ne hqp] at hq
      by_cases hrp : r = p
      · rw [hrp, update_self] at hr
        rw [hrp] at hq
        exact hwait hr q hq
      · rw [update_of_ne hrp] at hr
        exact h.queue q r hq hr
  · by_cases hp : gpidProcess = p
    · rw [hp, update_self]
      exact hgone
    · rw [update_of_ne hp]
      exact h.process

/-- A process changes, and does not start to wait. -/
theorem Kept.set {b : Party} (h : Kept x)
    (hwait : b.wait = .free ∨ b.wait = .loading ∨ b.wait = (x p).wait) : Kept (update x p b) := by
  have hother : ∀ z w, w ≠ .free → w ≠ .loading → (update x p b z).wait = w → (x z).wait = w := by
    intro z w hfree hloading hz
    by_cases hzp : z = p
    · rw [hzp, update_self] at hz
      rw [hz] at hwait
      rw [hzp]
      exact ((hwait.resolve_left hfree).resolve_left hloading).symm
    · rwa [update_of_ne hzp] at hz
  refine ⟨fun q r hq hr => ?_, fun hg => ?_⟩
  · exact h.queue q r (hother q _ (by simp) (by simp) hq) (hother r _ (by simp) (by simp) hr)
  · exact h.process (hother _ _ (by simp) (by simp) hg)

/-- A delivery leaves nobody waiting for a message that waits for them. -/
theorem Kept.deliver (h : Kept x) : Kept (delivered x p r) :=
  Kept.set (h.set (b := { x p with wait := .free }) (Or.inl rfl)) (Or.inl rfl)

/-- Nor does the end of processes other than `GPID_PROCESS`. -/
theorem Kept.vanish {D : ℤ → Prop} [DecidablePred D] (h : Kept x) (hD : ¬ D gpidProcess) :
    Kept (ended D x) := by
  have hwait : ∀ z, (ended D x z).wait = .gone ∨ (ended D x z).wait = (x z).wait := by
    intro z
    by_cases hz : D z
    · rw [ended_of hz]
      exact Or.inl rfl
    · rw [ended_of_not hz]
      exact Or.inr rfl
  refine ⟨fun z y hz hy => ?_, by rw [ended_of_not hD]; exact h.process⟩
  rcases hwait z with hw | hw
  · rw [hw] at hz
    cases hz
  · rcases hwait y with hw' | hw'
    · rw [hw'] at hy
      cases hy
    · exact h.queue z y (hw.symm.trans hz) (hw'.symm.trans hy)

/-- `proc_free` of a user process, or of all of them, leaves `GPID_PROCESS`. -/
theorem freedBy_process {pid : ℤ} (hpid : pid ≥ gpidUserStart ∨ pid = -1) :
    ¬ FreedBy pid gpidProcess := fun hd => absurd (hd.user hpid) (by decide)

/-- Every move of the parties keeps this. -/
theorem Kept.move (h : Kept x) (hmove : PartyMove env n alloc x p a n' alloc' x') : Kept x' := by
  cases hmove with
  | loop _ => exact h.set (Or.inr (Or.inr rfl))
  | lost _ _ => exact h.set (Or.inl rfl)
  | posted _ hr =>
    refine h.change (by intros; contradiction) ?_ (by simp [Party.posted])
    rintro _ ⟨⟩
    exact hr
  | @sent _ topic r m k _ _ =>
    rw [delivered, update_idem, update_self]
    exact Kept.set (h.set (b := { (x p).posted p topic r m (k ()) with wait := .free })
      (Or.inl rfl)) (Or.inl rfl)
  | blocked _ _ hno => exact h.change (fun _ => hno) (by intros; contradiction) (by simp)
  | given _ _ _ => exact h.deliver
  | taken _ _ => exact h.set (Or.inr (Or.inr rfl))
  | alloc _ _ =>
    refine Kept.set ?_ (Or.inr (Or.inl rfl))
    exact h.set (Or.inr (Or.inr rfl))
  | @ready _ pid k w hp _ _ hw =>
    refine Kept.set ?_ ?_
    · exact h.set (Or.inr (Or.inr rfl))
    · refine hw.imp_right fun hw => Or.inr ?_
      by_cases hpid : pid = p
      · rw [hpid, update_self]
        rw [hpid] at hw
        exact hw
      · rw [update_of_ne hpid]
        exact hw
  | load _ =>
    refine Kept.set ?_ (Or.inr (Or.inr rfl))
    exact h.set (Or.inr (Or.inr rfl))
  | free hp _ hpid =>
    subst hp
    have hproc := freedBy_process hpid
    refine (h.vanish hproc).set (Or.inr (Or.inr ?_))
    rw [ended_of_not hproc]
  | stay => exact h
  | killed hp => exact (h.vanish fun he => absurd (he ▸ hp) (by decide)).set (Or.inl rfl)
  | killedAlone hp _ => exact h.vanish fun he => absurd (he ▸ hp) (by decide)

/-! ## Moves of the conversation -/

/-- The program is in `sys_recv`. -/
def App.atRecv : App Point → Bool
  | .op (.recv _) _ => true
  | _ => false

/-- The program waits to be told of the end of a process. -/
def App.atTermination : App Point → Bool
  | .op (.recv .termination) _ => true
  | _ => false

/-- The program does nothing any more. -/
def App.atSpin : App Point → Bool
  | .op .spin _ => true
  | _ => false

/-- A process is `GPID_PROCESS`, the shell, a user process or a file server. -/
theorem who (p : ℤ) : p = gpidProcess ∨ p = gpidShell ∨ gpidUserStart ≤ p ∨
    p ≠ gpidProcess ∧ p ≠ gpidShell ∧ ¬ gpidUserStart ≤ p := by
  by_cases h1 : p = gpidProcess
  · exact Or.inl h1
  by_cases h4 : p = gpidShell
  · exact Or.inr (Or.inl h4)
  by_cases h5 : gpidUserStart ≤ p
  · exact Or.inr (Or.inr (Or.inl h5))
  · exact Or.inr (Or.inr (Or.inr ⟨h1, h4, h5⟩))

/-- A party changes, and nothing of its letters. -/
theorem Conversation.goes {b : Party} (h : Conversation n alloc (view x) g)
    (hproc : p = gpidProcess → b.pending.Follows conductProcess Rests g.stage ∧
      b.letterTo gpidShell = (x p).letterTo gpidShell)
    (hshell : p = gpidShell → b.pending.Follows conductShell AtPrompt g.phase ∧
      b.letterTo gpidProcess = (x p).letterTo gpidProcess ∧
      (b.wait = .gone ∨ b.wait = .loading ↔ (x p).wait = .gone ∨ (x p).wait = .loading))
    (huser : gpidUserStart ≤ p → ¬ (n < p ∨ alloc = some p) ∧
      b.pending.Follows conductUser GoesOn (g.exited p) ∧
      b.letterTo gpidProcess = (x p).letterTo gpidProcess ∧
      (b.wait = .gone ↔ (x p).wait = .gone)) :
    Conversation n alloc (view (update x p b)) g := by
  rcases who p with rfl | rfl | hp | ⟨h1, h4, h5⟩
  · obtain ⟨hf, hl⟩ := hproc rfl
    rw [view_process, hl]
    exact h.process_goes hf
  · obtain ⟨hf, hl, hw⟩ := hshell rfl
    rw [view_shell, hl]
    simp only [hw]
    exact h.shell_goes hf
  · obtain ⟨hborn, hf, hl, hw⟩ := huser hp
    rw [view_user _ _ hp, hl]
    have hexit : (x p).letterTo gpidProcess = (view x).exit p := by simp [view, hp]
    have hgone : decide (b.wait = .gone) = (view x).gone p := by simp [view, hp, hw]
    rw [hexit, hgone, update_eq_self, update_eq_self]
    exact h.user_goes hborn hf
  · rw [view_server _ _ h1 h4 h5]
    exact h

section moves

variable {k : ℤ × Msg → App Point} {choice : Choice}

/-- What the view has of a user process. -/
theorem view_user_pending (hp : gpidUserStart ≤ p) : (view x).user p = (x p).pending := by
  simp [view, hp]

/-- The programs of the parties keep to their protocols. -/
theorem Conversation.follows (h : Conversation n alloc (view x) g)
    (hx : PartiesOk env True n alloc x) (hw : (x p).wait ≠ .gone ∧ (x p).wait ≠ .loading) :
    (p = gpidProcess → (x p).pending.Follows conductProcess Rests g.stage) ∧
    (p = gpidShell → (x p).pending.Follows conductShell AtPrompt g.phase) ∧
    (gpidUserStart ≤ p → (x p).pending.Follows conductUser GoesOn (g.exited p)) := by
  refine ⟨?_, ?_, fun hp => ?_⟩
  · rintro rfl
    exact h.process
  · rintro rfl
    exact h.shell
  · rw [← view_user_pending hp]
    exact h.user p hp (by simp [view, hw.1]) (hx.born hw.1 hw.2)

/-- A party changes, but not what it executes nor its letters. -/
theorem Conversation.stays {b : Party} (h : Conversation n alloc (view x) g)
    (hx : PartiesOk env True n alloc x) (hw : (x p).wait ≠ .gone ∧ (x p).wait ≠ .loading)
    (hpending : b.pending = (x p).pending)
    (hletter : ∀ r, r = gpidShell ∨ r = gpidProcess → b.letterTo r = (x p).letterTo r)
    (hgone : b.wait = .gone ↔ (x p).wait = .gone)
    (hloading : b.wait = .loading ↔ (x p).wait = .loading) :
    Conversation n alloc (view (update x p b)) g := by
  obtain ⟨h1, h4, h5⟩ := h.follows hx hw
  refine h.goes (fun hp => ?_) (fun hp => ?_) fun hp => ?_
  · rw [hpending]
    exact ⟨h1 hp, hletter _ (Or.inl rfl)⟩
  · rw [hpending]
    exact ⟨h4 hp, hletter _ (Or.inr rfl), or_congr hgone hloading⟩
  · rw [hpending]
    exact ⟨hx.born hw.1 hw.2, h5 hp, hletter _ (Or.inr rfl), hgone⟩

/-- A party that does not wait to send has no letter for anybody. -/
theorem letterTo_eq_none {b : Party} (hb : ∀ r, b.wait ≠ .toSend r) (r : ℤ) : b.letterTo r = none :=
  Party.letterTo_none r (hb r)

/-- `sys_recv` blocks. -/
theorem Conversation.blocks (h : Conversation n alloc (view x) g)
    (hx : PartiesOk env True n alloc x) (hfree : (x p).wait = .free)
    (hrecv : (x p).task.receiving = false) : Conversation n alloc (view (update x p
      { x p with task := ⟨(x p).task.prog, true⟩, wait := .toRecv })) g := by
  refine h.stays hx (by simp [hfree]) ?_ (fun r _ => ?_) (by simp [hfree]) (by simp [hfree])
  · rw [Party.pending_of_not_receiving hrecv, Party.pending_of_not_got fun hc => ?_]
    exact absurd hc.2 (by simp)
  · rw [letterTo_eq_none (by simp), letterTo_eq_none (by simp [hfree])]

/-- `sys_recv` returns. -/
theorem Conversation.takes (h : Conversation n alloc (view x) g)
    (hx : PartiesOk env True n alloc x) (hfree : (x p).wait = .free)
    (hprog : (x p).task.prog = .op (.recv topic) k) (hrecv : (x p).task.receiving = true) :
    Conversation n alloc (view (update x p ((x p).taken topic k))) g := by
  refine h.stays hx (by simp [hfree]) ?_ (fun r _ => rfl) Iff.rfl Iff.rfl
  rw [Party.pending_of_not_receiving rfl, Party.pending_of_got hprog ⟨hrecv, hfree⟩]
  rfl

/-- The shell is at its prompt when it is in its loop. -/
theorem Home.point_shell {t : Talk} {point : Point} (h : Home gpidShell t point) :
    point = .shell := by
  have hown := h.own
  cases point with
  | shell => rfl
  | process a w => exact absurd (show gpidShell = gpidProcess from hown.1) (by decide)
  | file => exact absurd (show gpidShell = gpidFile from hown) (by decide)
  | dir => exact absurd (show gpidShell = gpidDir from hown) (by decide)
  | user => exact absurd (show gpidUserStart ≤ gpidShell from hown) (by decide)

/-- A user process that goes on is at its one point. -/
theorem Home.point_user {t : Talk} {point : Point} (h : Home p t point) (hp : gpidUserStart ≤ p) :
    point = .user := by
  have hown := h.own
  cases point with
  | user => rfl
  | process a w => exact absurd (hown.1 ▸ hp) (by decide)
  | file => exact absurd ((show p = gpidFile from hown) ▸ hp) (by decide)
  | dir => exact absurd ((show p = gpidDir from hown) ▸ hp) (by decide)
  | shell => exact absurd ((show p = gpidShell from hown) ▸ hp) (by decide)

/-- A process starts a round of its loop. -/
theorem Conversation.loops (h : Conversation n alloc (view x) g) (hx : PartiesOk env True n alloc x)
    (hfree : (x p).wait = .free) {point : Point} (hprog : (x p).task.prog = .ret point)
    (hline : p = gpidShell → LineOk choice.line) : ∃ g', Conversation n alloc
      (view (update x p { x p with task := ⟨main env choice point, false⟩ })) g' := by
  have hhome : Home p (x p).talk point := by
    have := (hx.party p).follows
    rw [hprog] at this
    exact this
  have hrecv : (x p).task.receiving = false := (hx.party p).not_receiving fun _ _ hc => by
    rw [hprog] at hc
    cases hc
  have hpending : (x p).pending = .ret point := (Party.pending_of_not_receiving hrecv).trans hprog
  obtain ⟨h1, h4, h5⟩ := h.follows (p := p) hx (by simp [hfree])
  rw [hpending] at h1 h4 h5
  have hb : ({ x p with task := ⟨main env choice point, false⟩ } : Party).pending
      = main env choice point := Party.pending_of_not_receiving rfl
  rcases who p with rfl | rfl | hp | ⟨hp1, hp4, hp5⟩
  · have hletter : (view x).letter = none := letterTo_eq_none (by simp [hfree]) _
    obtain ⟨a, w, rfl, hgoes⟩ := h.rests (h1 rfl) hletter (hx.loading.symm.trans hhome.loading)
    refine ⟨{ g with stage := .idle a w }, ?_⟩
    rw [view_process, hb]
    exact hgoes _ (conduct_procServe a w choice.stray)
  · obtain rfl := hhome.point_shell
    have hphase : g.phase = .prompt := h4 rfl
    refine ⟨g, h.goes nofun (fun _ => ⟨?_, rfl, Iff.rfl⟩) fun hc => absurd hc (by decide)⟩
    rw [hb, hphase]
    exact (conduct_shellCommand (hline rfl) choice.stray).bind fun t _ ht => ht
  · obtain rfl := hhome.point_user hp
    have hexited : g.exited p = false := h5 hp
    refine ⟨g, h.goes (fun hc => absurd (hc ▸ hp) (by decide))
      (fun hc => absurd (hc ▸ hp) (by decide))
      fun _ => ⟨hx.born (by simp [hfree]) (by simp [hfree]), ?_, rfl, Iff.rfl⟩⟩
    rw [hb, hexited]
    exact conduct_user env choice
  · refine ⟨g, ?_⟩
    rw [view_server _ _ hp1 hp4 hp5]
    exact h

/-! ### Messages that are sent -/

/-- Requests to the servers are no part of the conversation. -/
theorem next_request (t : Stage) {m : Msg} :
    conductProcess.next t (.send .request r m) () t := by
  cases t <;> exact rfl

/-- A request to the file servers is not an exit. -/
theorem exited_request {t : Bool} {m : Msg} : conductUser.next t (.send .request r m) () t := rfl

/-- A process makes a request. -/
theorem Conversation.requests {b : Party} (h : Conversation n alloc (view x) g)
    (hx : PartiesOk env True n alloc x) (hfree : (x p).wait = .free) {m : Msg}
    {k : Unit → App Point} (hprog : (x p).task.prog = .op (.send .request r m) k)
    (hb : b.task = ⟨k (), false⟩) (hwait : b.wait = .free ∨ b.wait = .toSend r) :
    Conversation n alloc (view (update x p b)) g := by
  have hrecv : (x p).task.receiving = false := (hx.party p).not_receiving fun _ _ hc => by
    rw [hprog] at hc
    cases hc
  obtain ⟨⟨-, -, -, hask, hshell⟩, -⟩ := (hx.party p).allows hprog
  have hserver := hask.isServer.le
  have hpending : (x p).pending = .op (.send .request r m) k :=
    (Party.pending_of_not_receiving hrecv).trans hprog
  have hb' : b.pending = k () := by
    rw [Party.pending_of_not_receiving (by rw [hb]), hb]
  have hold : ∀ z, (x p).letterTo z = none := letterTo_eq_none (by simp [hfree])
  have hnew : ∀ z, z = gpidShell ∨ z = gpidProcess → b.letterTo z = (x p).letterTo z := by
    intro z hz
    rw [hold, Party.letterTo_none]
    rcases hwait with hw | hw <;> rw [hw]
    · simp
    · have : r ≠ z := by
        rcases hz with rfl | rfl
        · show r ≠ 4
          omega
        · show r ≠ 1
          omega
      simpa using this
  obtain ⟨h1, -, h5⟩ := h.follows (p := p) hx (by simp [hfree])
  rw [hpending] at h1 h5
  refine h.goes (fun hp => ⟨?_, hnew _ (Or.inl rfl)⟩) (fun hp => absurd hp hshell)
    fun hp => ⟨hx.born (by simp [hfree]) (by simp [hfree]), ?_, hnew _ (Or.inr rfl), ?_⟩
  · rw [hb']
    exact (h1 hp).2 () _ (next_request _)
  · rw [hb']
    exact (h5 hp).2 () _ exited_request
  · rcases hwait with hw | hw <;> simp [hw, hfree]

/-- What a process says to `GPID_PROCESS` or the shell. -/
theorem Conversation.speaks (h : Conversation n alloc (view x) g)
    (hx : PartiesOk env True n alloc x) (hfree : (x p).wait = .free) {m : Msg}
    {k : Unit → App Point} (hprog : (x p).task.prog = .op (.send topic r m) k)
    (htopic : topic.isRequest = false)
    (hcond : p = gpidProcess → topic = .status → m.word ≠ cmdOk → m.foreground = true →
      Dead (view x) n) :
    (∃ g', Conversation n alloc (view (update x p ((x p).posted p topic r m (k ())))) g') ∧
      ((x r).wait = .gone → (x gpidProcess).wait ≠ .gone →
        p ≠ gpidProcess ∧ p ≠ gpidShell ∧ ¬ gpidUserStart ≤ p) := by
  have hrecv : (x p).task.receiving = false := (hx.party p).not_receiving fun _ _ hc => by
    rw [hprog] at hc
    cases hc
  have hpending : (x p).pending = .op (.send topic r m) k :=
    (Party.pending_of_not_receiving hrecv).trans hprog
  have hb : ((x p).posted p topic r m (k ())).pending = k () := Party.pending_of_not_receiving rfl
  have hletter : ((x p).posted p topic r m (k ())).letterTo r = some (topic, m) :=
    Party.letterTo_of r rfl
  obtain ⟨⟨-, -, hsend⟩, -⟩ := (hx.party p).allows hprog
  have hborn := hx.born (p := p) (by simp [hfree]) (by simp [hfree])
  rcases who p with rfl | rfl | hp | hp
  · -- `GPID_PROCESS` to the shell
    obtain ⟨htopic', rfl⟩ : (topic = .status ∨ topic = .termination) ∧ r = gpidShell := by
      cases topic with
      | status => exact ⟨Or.inl rfl, hsend.2.1⟩
      | termination => exact ⟨Or.inr rfl, hsend.2.1⟩
      | request => cases htopic
      | reply server req => exact absurd hsend.2.1.le (by decide)
      | boot => exact absurd hsend.2.2.1.le (by decide)
      | command => exact absurd hsend.2.2 (by decide)
    have hnone : (view x).letter = none := letterTo_eq_none (by simp [hfree]) _
    obtain ⟨t, ht⟩ := h.process_posts hnone hpending htopic' (hcond rfl)
    refine ⟨⟨{ g with stage := t }, ?_⟩, fun hgone _ => ?_⟩
    · rw [view_process, hb, hletter]
      exact ht
    · -- the shell has started
      obtain ⟨_, _, -, -, hexpects, -⟩ := ht.letter topic m rfl
      have hstarted := h.started fun hp => by
        rw [show g.phase = _ from hp] at hexpects
        exact hexpects
      simp [view, hgone] at hstarted
  · -- the shell to `GPID_PROCESS`
    obtain rfl : r = gpidProcess := by
      cases topic with
      | command => exact hsend.2.1
      | request => cases htopic
      | reply server req => exact absurd hsend.2.1.le (by decide)
      | boot => exact absurd hsend.2.2.1.le (by decide)
      | status => exact absurd hsend.2.2 (by decide)
      | termination => exact absurd hsend.2.2 (by decide)
    have hstarted : (view x).noShell = false := by simp [view, hfree]
    refine ⟨⟨{ g with phase := if m.word = procSpawn then .asked m else .prompt }, ?_⟩,
      fun hgone hproc => absurd hgone hproc⟩
    rw [view_shell, hb, hletter]
    have hpost := h.shell_posts hpending hstarted
    rw [hstarted] at hpost
    exact hpost
  · -- a user process to `GPID_PROCESS`
    obtain ⟨rfl, rfl⟩ : topic = .command ∧ r = gpidProcess := by
      have hp' : (5 : ℤ) ≤ p := hp
      cases topic with
      | command => exact ⟨rfl, hsend.2.1⟩
      | request => cases htopic
      | reply server req =>
        have := hsend.2.1.le
        omega
      | boot =>
        have := hsend.2.2.1.le
        omega
      | status => exact absurd (hsend.2.2 ▸ hp) (by decide)
      | termination => exact absurd (hsend.2.2 ▸ hp) (by decide)
    have hgone : (view x).gone p = false := by simp [view, hfree]
    refine ⟨⟨{ g with exited := update g.exited p true }, ?_⟩,
      fun hgone hproc => absurd hgone hproc⟩
    have hpost := h.user_posts hp hborn hgone ((view_user_pending hp).trans hpending)
    have hsame : decide (((x p).posted p .command gpidProcess m (k ())).wait = .gone)
        = (view x).gone p := by
      rw [hgone]
      simp [Party.posted]
    rw [view_user _ _ hp, hb, hletter, hsame, update_eq_self]
    exact hpost
  · refine ⟨⟨g, ?_⟩, fun _ _ => hp⟩
    rw [view_server _ _ hp.1 hp.2.1 hp.2.2]
    exact h

/-! ### Messages that are delivered -/

/-- `GPID_PROCESS` stays in its stage when it takes in anything but a command. -/
theorem next_recv (t : Stage) (htopic : topic ≠ .command) (result : ℤ × Msg) :
    conductProcess.next t (.recv topic) result t := by
  cases t with
  | idle a w =>
    cases topic with
    | command => exact absurd rfl htopic
    | _ => exact rfl
  | _ => exact rfl

/-- Who sends a message to a process that is no server. -/
theorem PartiesOk.delivery (hx : PartiesOk env True n alloc x) (hd : Delivers x q r topic k)
    (hr : ¬ IsServer r) : IsServer q ∧ r ≠ gpidShell ∧ topic ≠ .command ∨
      r = gpidProcess ∧ gpidShell ≤ q ∧ topic ≠ .boot ∨ r = gpidShell ∧ q = gpidProcess := by
  have hmay := ((hx.party r).allows hd.prog).1.2
  have hl := ((hx.party q).sending r hd.sends).2.letter
  have hboot := hx.boot_iff hd
  split at hl
  · exact absurd hl.2.2.isServer hr
  · obtain ⟨-, rfl, -, -, ho, hserver⟩ := hl
    obtain ⟨rfl, -⟩ := (hx.party r).owed_receiving hd.prog hd.ready_iff ho
    exact Or.inl ⟨hserver, hmay.2.2.2, by simp⟩
  · obtain ⟨-, rfl, hserver⟩ := hl
    refine Or.inl ⟨hserver, by decide, ?_⟩
    rw [(hboot.1 ‹_›).2]
    simp
  · obtain ⟨-, rfl, hle⟩ := hl
    rename_i htopic
    refine Or.inr (Or.inl ⟨rfl, hle, fun hc => ?_⟩)
    exact absurd (htopic.symm.trans (hboot.2 ⟨rfl, hc⟩)) (by simp)
  · exact Or.inr (Or.inr hl.2)
  · exact Or.inr (Or.inr hl.2)

/-- What holds a party up does not matter when it is not in `sys_recv`. -/
theorem Party.pending_released {a : Party} {w : Wait} (hrecv : a.task.receiving = false) :
    ({ a with wait := w } : Party).pending = a.pending :=
  (Party.pending_of_not_receiving (a := { a with wait := w }) hrecv).trans
    (Party.pending_of_not_receiving hrecv).symm

/-- The shell has no command under way while `GPID_PROCESS` waits for a server. -/
theorem Conversation.command_none (h : Conversation n alloc (view x) g)
    (hprog : (view x).process = .op (.recv topic) k) (hcommand : topic ≠ .command)
    (hboot : topic ≠ .boot) : (view x).command = none := by
  have hallow := h.process
  rw [hprog] at hallow
  have hallow := hallow.1
  cases hs : g.stage with
  | spawning m a =>
    have hagrees := h.agrees (h.letter_stage (by simp [hs]))
    rw [Agrees, hs] at hagrees
    exact hagrees.2
  | loaded m a mapped =>
    have hagrees := h.agrees (h.letter_stage (by simp [hs]))
    rw [Agrees, hs] at hagrees
    exact hagrees.2.1
  | _ =>
    rw [hs] at hallow
    cases topic <;> contradiction

/-- A message to a process that is neither `GPID_PROCESS` nor the shell leaves its sender. -/
theorem Conversation.leaves (h : Conversation n alloc (view x) g)
    (hx : PartiesOk env True n alloc x) (hw : (x q).wait = .toSend r)
    (hrecv : (x q).task.receiving = false) (h1 : r ≠ gpidProcess) (h4 : r ≠ gpidShell) :
    Conversation n alloc (view (update x q { x q with wait := .free })) g := by
  refine h.stays hx (by simp [hw]) ?_ (fun z hz => ?_) (by simp [hw]) (by simp [hw])
  · exact Party.pending_released hrecv
  · rw [letterTo_eq_none (by simp), Party.letterTo_none]
    rw [hw]
    rintro ⟨⟩
    exact hz.elim h4 h1

/-- A message is delivered. -/
theorem Conversation.delivers (h : Conversation n alloc (view x) g)
    (hx : PartiesOk env True n alloc x) (hd : Delivers x q r topic k) :
    ∃ g', Conversation n alloc (view (delivered x q r)) g' := by
  obtain ⟨hrecv, hout⟩ := (hx.party q).sending r hd.sends
  have hne := hd.ne
  have hpending : (x r).pending = .op (.recv topic) k :=
    (Party.pending_of_not_got hd.not_got).trans hd.prog
  set b : Party :=
    { x r with task := ⟨(x r).task.prog, true⟩, wait := .free, msg := (x q).msg } with hb
  have hb' : b.pending = k (q, (x q).msg.content.body) := by
    have := Party.pending_of_got (a := b) hd.prog ⟨rfl, rfl⟩
    rwa [show b.msg.sender = q from hout.sender] at this
  have hletter : ∀ z, b.letterTo z = none := letterTo_eq_none (by simp [hb])
  have hfree : ∀ z, ({ x q with wait := .free } : Party).letterTo z = none :=
    letterTo_eq_none (by simp)
  have hq : ({ x q with wait := .free } : Party).pending = (x q).pending :=
    Party.pending_released hrecv
  have hpost : (x q).letterTo r = some ((x q).msg.content.topic, (x q).msg.content.body) :=
    Party.letterTo_of r hd.sends
  have hsame : update x q { x q with wait := .free } r = x r := update_of_ne hne.symm _ _
  rw [delivered, ← hb]
  rcases who r with rfl | rfl | hr | hr
  · -- to `GPID_PROCESS`
    have hnone : (view x).letter = none := letterTo_eq_none hd.wait_ne.2.2 _
    rw [view_process, hb', hletter]
    rcases hx.delivery hd (fun hs => absurd hs.le (by decide))
      with ⟨hs, -, htopic⟩ | ⟨-, hle, htopic⟩ | ⟨hc, -⟩
    · refine ⟨g, ?_⟩
      have hs := hs.le
      rw [view_server _ _ (show q ≠ 1 by omega) (show q ≠ 4 by omega) (show ¬ (5 : ℤ) ≤ q by omega),
        ← hnone]
      exact h.process_step hpending (next_recv _ htopic _)
    · have hle : (4 : ℤ) ≤ q := hle
      rcases eq_or_ne q gpidShell with rfl | hq4
      · -- from the shell
        have hcommand : topic = .command := by
          by_contra hne
          exact absurd (hpost.symm.trans (h.command_none hpending hne htopic)) (by simp)
        subst hcommand
        have hstarted : (view x).noShell = false := by simp [view, hd.sends]
        obtain ⟨t, ht⟩ := h.command_delivered hpost hpending
        refine ⟨{ g with stage := t }, ?_⟩
        rw [hstarted, hnone] at ht
        rw [view_shell, hfree, hq]
        exact ht
      · -- from a user process
        have hq5 : gpidUserStart ≤ q := by
          have : q ≠ 4 := hq4
          show (5 : ℤ) ≤ q
          omega
        have hexit : (view x).exit q = some ((x q).msg.content.topic, (x q).msg.content.body) := by
          rw [← hpost]
          exact if_pos hq5
        have hgone : false = (view x).gone q := by simp [view, hd.sends]
        have huser : (x q).pending = (view x).user q := (view_user_pending hq5).symm
        rw [view_user _ _ hq5, hfree, hq, huser, update_eq_self]
        simp only [reduceCtorEq, decide_false]
        rw [hgone, update_eq_self]
        by_cases hcommand : topic = .command
        · subst hcommand
          obtain ⟨t, ht⟩ := h.exit_delivered hnone hq5 hexit hpending
          rw [hnone] at ht
          exact ⟨{ g with stage := t }, ht⟩
        · have hlost := h.exit_lost (q := q) hnone hpending hcommand (q, (x q).msg.content.body)
          rw [hnone] at hlost
          exact ⟨g, hlost⟩
    · exact absurd hc (by decide)
  · -- to the shell
    rcases hx.delivery hd (fun hs => absurd hs.le (by decide)) with ⟨-, hc, -⟩ | ⟨hc, -⟩ | ⟨-, rfl⟩
    · exact absurd rfl hc
    · exact absurd hc (by decide)
    · refine ⟨{ g with phase := g.phase.after (x gpidProcess).msg.content.body }, ?_⟩
      have hnone : (x gpidShell).letterTo gpidProcess = none := letterTo_eq_none hd.wait_ne.2.2 _
      have hstarted : decide (b.wait = .gone ∨ b.wait = .loading) = (view x).noShell := by
        simp [hb, view, hd.wait_ne.1, hd.wait_ne.2.1]
      have hdel := h.letter_delivered hpost hpending
      rw [show (view x).command = none from hnone] at hdel
      rw [view_shell, hb', hletter, hstarted, view_process, hfree, hq]
      exact hdel
  · -- to a user process
    have hr' : (5 : ℤ) ≤ r := hr
    refine ⟨g, Conversation.goes (h.leaves hx hd.sends hrecv (show r ≠ 1 by omega)
      (show r ≠ 4 by omega)) (fun hc => ?_) (fun hc => ?_) fun _ => ?_⟩
    · exact absurd (hc ▸ hr) (by decide)
    · exact absurd (hc ▸ hr) (by decide)
    · rw [hsame, hletter, letterTo_eq_none hd.wait_ne.2.2, hb']
      refine ⟨hx.born hd.wait_ne.1 hd.wait_ne.2.1, ?_, rfl, by simp [hb, hd.wait_ne.1]⟩
      have hf := (h.follows hx ⟨hd.wait_ne.1, hd.wait_ne.2.1⟩).2.2 hr
      rw [hpending] at hf
      exact hf.2 _ _ rfl
  · -- to a server
    refine ⟨g, ?_⟩
    rw [view_server _ _ hr.1 hr.2.1 hr.2.2]
    exact h.leaves hx hd.sends hrecv hr.1 hr.2.1

/-- `sys_send` returns with the message in the outbox. -/
theorem Conversation.posts (h : Conversation n alloc (view x) g) (hx : PartiesOk env True n alloc x)
    (hfree : (x p).wait = .free) {m : Msg} {k : Unit → App Point}
    (hprog : (x p).task.prog = .op (.send topic r m) k)
    (hcond : p = gpidProcess → topic = .status → m.word ≠ cmdOk → m.foreground = true →
      Dead (view x) n) :
    ∃ g', Conversation n alloc (view (update x p ((x p).posted p topic r m (k ())))) g' := by
  by_cases hrequest : topic = .request
  · subst hrequest
    exact ⟨g, h.requests hx hfree hprog rfl (Or.inr rfl)⟩
  · exact (h.speaks hx hfree hprog (by cases topic <;> first | rfl | contradiction) hcond).1

/-- `sys_send` to a process that has ended. -/
theorem Conversation.loses (h : Conversation n alloc (view x) g) (hx : PartiesOk env True n alloc x)
    (hk : Kept x) (hfree : (x p).wait = .free) {m : Msg} {k : Unit → App Point}
    (hprog : (x p).task.prog = .op (.send topic r m) k) (hgone : (x r).wait = .gone)
    (hcond : p = gpidProcess → topic = .status → m.word ≠ cmdOk → m.foreground = true →
      Dead (view x) n) :
    Conversation n alloc
      (view (update x p { (x p).posted p topic r m (k ()) with wait := .free })) g := by
  by_cases hrequest : topic = .request
  · subst hrequest
    exact h.requests hx hfree hprog rfl (Or.inl rfl)
  · obtain ⟨h1, h4, h5⟩ := (h.speaks hx hfree hprog
      (by cases topic <;> first | rfl | contradiction) hcond).2 hgone hk.process
    rw [view_server _ _ h1 h4 h5]
    exact h

/-! ### Processes that start -/

/-- A process that has not started yet is given a wait. -/
theorem view_unborn {w : Wait} (hrecv : (x q).task.receiving = false)
    (hwait : (x q).wait = .gone ∨ (x q).wait = .loading)
    (hw : w = .free ∨ w = .gone ∨ w = .loading) (hq : q ≠ gpidProcess) :
    view (update x q { x q with wait := w })
      = { view x with
          noShell := if q = gpidShell then decide (w = .gone ∨ w = .loading) else (view x).noShell
          gone := if gpidUserStart ≤ q then update (view x).gone q (decide (w = .gone))
            else (view x).gone } := by
  have hpending : ({ x q with wait := w } : Party).pending = (x q).pending :=
    Party.pending_released hrecv
  have hletter : ∀ z, ({ x q with wait := w } : Party).letterTo z = (x q).letterTo z := by
    intro z
    rw [letterTo_eq_none, letterTo_eq_none]
    · rcases hwait with h | h <;> simp [h]
    · rcases hw with h | h | h <;> simp [h]
  rcases who q with hc | rfl | h5 | h
  · exact absurd hc hq
  · rw [view_shell, hpending, hletter, if_pos rfl, if_neg (by decide)]
    rfl
  · have h4 : q ≠ gpidShell := fun hc => absurd (hc ▸ h5) (by decide)
    have hexit : (x q).letterTo gpidProcess = (view x).exit q := by simp [view, h5]
    rw [view_user _ _ h5, hpending, hletter, if_neg h4, if_pos h5, ← view_user_pending h5, hexit,
      update_eq_self, update_eq_self]
  · rw [view_server _ _ h.1 h.2.1 h.2.2, if_neg h.2.1, if_neg h.2.2]

/-- `GPID_PROCESS` goes on, with what it has to send. -/
theorem view_process_goes {b : Party} {prog : App Point} (hb : b.task = ⟨prog, false⟩)
    (hwait : b.wait = (x gpidProcess).wait) (hmsg : b.msg = (x gpidProcess).msg) :
    view (update x gpidProcess b) = { view x with process := prog } := by
  rw [view_process, Party.letterTo, hwait, hmsg, Party.pending_of_not_receiving (by rw [hb]), hb]
  rfl

/-- `proc_alloc` -/
theorem Conversation.allocs (h : Conversation n alloc (view x) g)
    (hx : PartiesOk env True n alloc x) (hle : gpidProcess ≤ n) {b : Party} {k : ℤ → App Point}
    (hprog : (x gpidProcess).task.prog = .op .procAlloc k) (hb : b.task = ⟨k (n + 1), false⟩)
    (hwait : b.wait = (x gpidProcess).wait) (hmsg : b.msg = (x gpidProcess).msg) :
    ∃ g', Conversation (n + 1) (some (n + 1)) (view (update (update x gpidProcess b)
      (n + 1) { x (n + 1) with wait := .loading })) g' := by
  have hle : (1 : ℤ) ≤ n := hle
  have hne : n + 1 ≠ gpidProcess := show n + 1 ≠ 1 by omega
  have hrecv : (x gpidProcess).task.receiving = false :=
    (hx.party gpidProcess).not_receiving fun _ _ hc => by
      rw [hprog] at hc
      cases hc
  have hpending : (view x).process = .op .procAlloc k :=
    (Party.pending_of_not_receiving hrecv).trans hprog
  obtain ⟨-, hrecv', hgone⟩ := hx.unborn (n + 1) (Or.inl (lt_add_one n))
  have hview := view_unborn (x := update x gpidProcess b) (q := n + 1) (w := .loading)
  rw [update_of_ne hne] at hview
  rw [hview hrecv' hgone (Or.inr (Or.inr rfl)) hne, view_process_goes hb hwait hmsg]
  have hallow := h.process
  rw [hpending] at hallow
  have hallow := hallow.1
  cases hs : g.stage with
  | booting left =>
    obtain ⟨hshell, hconv⟩ := h.boot_alloc hs hpending
    have hshell : n + 1 ≤ 4 := hshell
    refine ⟨{ g with stage := .booting (left - 1) }, ?_⟩
    rw [if_neg (show ¬ (5 : ℤ) ≤ n + 1 by omega)]
    split
    · rename_i h4
      have hno : (view x).noShell = true := by
        rw [h4] at hgone
        simpa [view] using hgone
      rw [hno] at hconv
      exact hconv
    · exact hconv
  | spawning m a =>
    obtain ⟨huser, hconv⟩ := h.spawn_alloc hs hpending
    refine ⟨{ g with stage := .loaded m (n + 1) false }, ?_⟩
    rw [if_pos huser, if_neg fun hc => absurd (hc ▸ huser) (by decide)]
    exact hconv
  | _ =>
    rw [hs] at hallow
    exact hallow.elim

/-- `proc_set_ready` -/
theorem Conversation.readies (h : Conversation n alloc (view x) g)
    (hx : PartiesOk env True n alloc x) (halloc : ∀ q, alloc = some q → gpidProcess < q) {b : Party}
    {pid : ℤ} {w : Wait} {k : Unit → App Point}
    (hprog : (x gpidProcess).task.prog = .op (.procSetReady pid) k) (hpid : alloc = some pid)
    (hw : w = .free ∨ w = (x pid).wait) (hb : b.task = ⟨k (), false⟩)
    (hwait : b.wait = (x gpidProcess).wait) (hmsg : b.msg = (x gpidProcess).msg) :
    ∃ g', Conversation n none
      (view (update (update x gpidProcess b) pid { x pid with wait := w })) g' := by
  obtain rfl : pid = n := hx.last pid hpid
  have hlt : (1 : ℤ) < pid := halloc pid hpid
  have hne : pid ≠ gpidProcess := show pid ≠ 1 by omega
  have hrecv : (x gpidProcess).task.receiving = false :=
    (hx.party gpidProcess).not_receiving fun _ _ hc => by
      rw [hprog] at hc
      cases hc
  have hpending : (view x).process = .op (.procSetReady pid) k :=
    (Party.pending_of_not_receiving hrecv).trans hprog
  obtain ⟨-, hrecv', hgone⟩ := hx.unborn pid (Or.inr hpid)
  have hw' : w = .free ∨ w = .gone ∨ w = .loading := by
    rcases hw with rfl | rfl
    · exact Or.inl rfl
    · exact Or.inr hgone
  have hview := view_unborn (x := update x gpidProcess b) (q := pid) (w := w)
  rw [update_of_ne hne] at hview
  rw [hview hrecv' hgone hw' hne, view_process_goes hb hwait hmsg]
  have hallow := h.process
  rw [hpending] at hallow
  have hallow := hallow.1
  cases hs : g.stage with
  | booting left =>
    have happ := h.app
    rw [hs] at happ
    have happ : pid + (left : ℤ) = 4 := happ
    refine ⟨g, ?_⟩
    rw [if_neg (show ¬ (5 : ℤ) ≤ pid by omega)]
    refine h.boot_ready hs hpending fun hno => ?_
    split
    · rename_i h4
      rw [h4] at hgone
      simp [view] at hno
      exact absurd hgone (by simp [hno])
    · exact hno
  | loaded m a mapped =>
    have happ := h.app
    rw [hs] at happ hallow
    have hs : g.stage = .loaded m a true := by
      cases mapped with
      | true => exact hs
      | false => exact hallow.elim
    have huser : gpidUserStart ≤ pid := happ.2.1
    refine ⟨{ g with stage := .ready m a }, ?_⟩
    rw [if_pos huser, if_neg fun hc => absurd (hc ▸ huser) (by decide)]
    refine h.spawn_ready hs hpending fun hg => ?_
    simp only [view, huser, true_and, decide_eq_false_iff_not] at hg
    rcases hw with rfl | rfl
    · rfl
    · exact decide_eq_false hg
  | _ =>
    rw [hs] at hallow
    exact hallow.elim

/-- `elf_load` -/
theorem Conversation.loads (h : Conversation n alloc (view x) g) (hx : PartiesOk env True n alloc x)
    (halloc : ∀ q, alloc = some q → gpidProcess < q) {pid : ℤ} {image : Image}
    {k : Unit → App Point} (hprog : (x p).task.prog = .op (.elfLoad pid image) k) :
    ∃ g', Conversation n alloc (view (update (update x p { x p with task := ⟨k (), false⟩ })
      pid { update x p { x p with task := ⟨k (), false⟩ } pid with
        task := ⟨start image, false⟩ })) g' := by
  obtain ⟨⟨-, -, rfl, hloading, rfl⟩, -⟩ := (hx.party p).allows hprog
  have hpid : alloc = some pid := hx.loading.symm.trans hloading
  have hne : pid ≠ gpidProcess := ne_of_gt (halloc pid hpid)
  obtain ⟨-, -, hgone⟩ := hx.unborn pid (Or.inr hpid)
  have hrecv : (x gpidProcess).task.receiving = false :=
    (hx.party gpidProcess).not_receiving fun _ _ hc => by
      rw [hprog] at hc
      cases hc
  have hpending : (view x).process = .op (.elfLoad pid (imageOf pid)) k :=
    (Party.pending_of_not_receiving hrecv).trans hprog
  have hview := view_process_goes (x := x)
    (b := { x gpidProcess with task := ⟨k (), false⟩ }) rfl rfl rfl
  have hb : ({ x pid with task := ⟨start (imageOf pid), false⟩ } : Party).pending
      = start (imageOf pid) := Party.pending_of_not_receiving rfl
  have hallow := h.process
  rw [hpending] at hallow
  have hallow := hallow.1
  have happ := h.app
  rw [update_of_ne hne]
  cases hs : g.stage with
  | booting left =>
    -- a server or the shell
    rw [hs] at happ
    have happ : n + (left : ℤ) = 4 := happ
    have hlast := hx.last pid hpid
    refine ⟨g, Conversation.goes (x := update x gpidProcess _) ?_ (fun hc => absurd hc hne)
      (fun hc => ?_) fun h5 => ?_⟩
    · rw [hview]
      refine h.process_step hpending ?_
      rw [hs]
      exact rfl
    · subst hc
      rw [update_of_ne hne, hb]
      refine ⟨?_, rfl, Iff.rfl⟩
      have hphase : g.phase = .prompt := by
        by_contra hp
        have := h.started hp
        simp [view] at this
        simp [this] at hgone
      rw [hphase]
      exact (conduct_shellCommand (show LineOk cd by decide) 0).bind fun t _ ht => ht
    · have h5 : (5 : ℤ) ≤ pid := h5
      omega
  | loaded m a mapped =>
    -- a user process
    obtain ⟨ha, h5⟩ := h.loaded_alloc hs
    obtain rfl : pid = a := Option.some.inj (hpid.symm.trans ha)
    have h5' : (5 : ℤ) ≤ pid := h5
    have hstart : start (imageOf pid) = .ret .user := by
      rw [imageOf, if_neg (show pid ≠ 2 by omega), if_neg (show pid ≠ 3 by omega),
        if_neg (show pid ≠ 4 by omega)]
      rfl
    have hexit : ({ x pid with task := ⟨start (imageOf pid), false⟩ } : Party).letterTo gpidProcess
        = (view x).exit pid := by simp [view, h5, Party.letterTo]
    have hgone' : decide (({ x pid with task := ⟨start (imageOf pid), false⟩ } : Party).wait
        = .gone) = (view x).gone pid := by simp [view, h5]
    refine ⟨{ g with stage := .loaded m pid true }, ?_⟩
    rw [view_user _ _ h5, hview, hb, hstart]
    rw [hstart] at hexit hgone'
    rw [hexit, hgone', update_eq_self, update_eq_self]
    exact h.spawn_load hs hpending
  | _ =>
    rw [hs] at hallow
    exact hallow.elim

/-! ### Processes that end -/

section ends

variable {D : ℤ → Prop} [DecidablePred D]

/-- What the view becomes when user processes end. -/
theorem view_ended (hD : ∀ q, D q → gpidUserStart ≤ q) :
    view (ended D x) = Conversation.Ended D (view x) (view (ended D x)).user := by
  have hproc : ended D x gpidProcess = x gpidProcess :=
    ended_of_not fun hd => absurd (hD _ hd) (by decide)
  have hshell : ended D x gpidShell = x gpidShell :=
    ended_of_not fun hd => absurd (hD _ hd) (by decide)
  simp only [view, Conversation.Ended, hproc, hshell, View.mk.injEq, true_and]
  refine ⟨?_, ?_⟩ <;> funext q <;> by_cases hd : D q
  · have h5 := hD q hd
    simp only [h5, if_true, ended_of hd, if_pos hd]
    exact letterTo_eq_none (by simp) _
  · simp only [ended_of_not hd, if_neg hd]
  · have h5 := hD q hd
    simp [h5, ended_of hd, hd]
  · simp only [ended_of_not hd, if_neg hd]

/-- What those execute that have not ended or not started. -/
theorem PartiesOk.user_ended (hx : PartiesOk env True n alloc x) : ∀ q, gpidUserStart ≤ q →
    ¬ D q ∨ n < q ∨ alloc = some q → (view (ended D x)).user q = (view x).user q := by
  intro q hq hor
  rw [view_user_pending hq, view_user_pending hq]
  by_cases hd : D q
  · rw [ended_of hd]
    exact Party.pending_released (hx.unborn q (hor.resolve_left fun hn => hn hd)).2.1
  · rw [ended_of_not hd]

end ends

/-- `proc_free` -/
theorem Conversation.frees_party (h : Conversation n alloc (view x) g)
    (hx : PartiesOk env True n alloc x) {pid : ℤ} {k : Unit → App Point}
    (hprog : (x gpidProcess).task.prog = .op (.procFree pid) k)
    (hpid : pid ≥ gpidUserStart ∨ pid = -1) : ∃ g', Conversation n alloc
      (view (update (ended (FreedBy pid) x) gpidProcess
        { x gpidProcess with task := ⟨k (), false⟩ })) g' := by
  have hD : ∀ q, FreedBy pid q → gpidUserStart ≤ q := fun _ hq => hq.user hpid
  have hself : ended (FreedBy pid) x gpidProcess = x gpidProcess :=
    ended_of_not fun hd => absurd (hD _ hd) (by decide)
  have hrecv : (x gpidProcess).task.receiving = false :=
    (hx.party gpidProcess).not_receiving fun _ _ hc => by
      rw [hprog] at hc
      cases hc
  have hpending : (view x).process = .op (.procFree pid) k :=
    (Party.pending_of_not_receiving hrecv).trans hprog
  have hview : view (update (ended (FreedBy pid) x) gpidProcess
      { x gpidProcess with task := ⟨k (), false⟩ })
      = { Ended (FreedBy pid) (view x) (view (ended (FreedBy pid) x)).user
        with process := k () } := by
    have hgoes := view_process_goes (x := ended (FreedBy pid) x)
      (b := { x gpidProcess with task := ⟨k (), false⟩ }) rfl (by rw [hself]) (by rw [hself])
    rw [hgoes, ← view_ended hD]
  rw [hview]
  have hallow := h.process
  rw [hpending] at hallow
  have hallow := hallow.1
  cases hs : g.stage with
  | exiting q a w =>
    rw [hs] at hallow
    obtain rfl : pid = q := hallow
    have hagrees := h.agrees (h.letter_stage (by simp [hs]))
    rw [Agrees, hs] at hagrees
    have h5 : (5 : ℤ) ≤ pid := hagrees.1
    refine ⟨{ g with stage := .freed pid a w }, h.frees hx.user_ended hs (fun z => ?_) hpending⟩
    rw [FreedBy, if_neg (show pid ≠ -1 by omega)]
  | killing a w => exact ⟨{ g with stage := .idle a w }, h.kills hx.user_ended hs hpending⟩
  | _ =>
    rw [hs] at hallow
    exact hallow.elim

/-- Not at its prompt, the shell is in `sys_recv`. -/
theorem Conversation.shell_awaits (h : Conversation n alloc (view x) g)
    (hx : PartiesOk env True n alloc x) (hphase : g.phase ≠ .prompt) :
    (x gpidShell).task.prog.atRecv = true := by
  by_cases hgot : (x gpidShell).Got
  · obtain ⟨topic, k, hprog⟩ := (hx.party gpidShell).receiving hgot.1
    rw [hprog]
    rfl
  · have hf := h.shell
    rw [show (view x).shell = _ from Party.pending_of_not_got hgot] at hf
    cases hprog : (x gpidShell).task.prog with
    | ret point =>
      rw [hprog] at hf
      exact absurd hf hphase
    | stop e =>
      rw [hprog] at hf
      exact hf.elim
    | op o k =>
      rw [hprog] at hf
      have hallow := hf.1
      cases o with
      | recv topic => rfl
      | _ =>
        cases hp : g.phase with
        | prompt => exact absurd hp hphase
        | _ =>
          rw [hp] at hallow
          exact hallow.elim

/-- A user process that has exited does nothing any more. -/
theorem Conversation.user_spins (h : Conversation n alloc (view x) g)
    (hx : PartiesOk env True n alloc x) (hp : gpidUserStart ≤ p)
    (hw : (x p).wait ≠ .gone ∧ (x p).wait ≠ .loading) (hexited : g.exited p = true) :
    (x p).pending.atSpin = true := by
  have hf := (h.follows hx hw).2.2 hp
  rw [hexited] at hf
  cases hprog : (x p).pending with
  | ret point =>
    rw [hprog] at hf
    exact absurd hf (by simp [Prog.Follows, GoesOn])
  | stop e =>
    rw [hprog] at hf
    exact absurd hf (by simp [Prog.Follows, conductUser])
  | op o k =>
    rw [hprog] at hf
    have hallow := hf.1
    cases o with
    | spin => rfl
    | _ => exact hallow.elim

/-- Ctrl+C may end the current process `p`: either the shell is running, and does not wait for it,
or it waits for its end. -/
def KillOk (x : ℤ → Party) (n p : ℤ) : Prop :=
  (x gpidShell).wait = .free ∧ (p < n ∨ (x gpidShell).task.prog.atRecv = false) ∨
    (x gpidShell).wait = .toRecv ∧ (x gpidShell).task.prog.atTermination = true ∧ p = n ∧
      (x p).pending.atSpin = false

/-- `intr_entry` kills the current process and wakes the shell. -/
theorem Conversation.kills_party (h : Conversation n alloc (view x) g)
    (hx : PartiesOk env True n alloc x) (hk : Kept x) (hfree : (x p).wait = .free)
    (hp : gpidUserStart ≤ p) (hok : KillOk x n p) : ∃ g', Conversation n alloc
      (view (update (ended (· = p) x) gpidShell { x gpidShell with wait := .free })) g' := by
  have hD : ∀ q, q = p → gpidUserStart ≤ q := fun q hq => hq ▸ hp
  have hself : ended (· = p) x gpidShell = x gpidShell :=
    ended_of_not fun hd => absurd (hD _ hd) (by decide)
  rcases hok with ⟨hw, hother⟩ | ⟨hw, hterm, rfl, hspin⟩
  · -- the shell was running
    have hsame : ({ x gpidShell with wait := .free } : Party) = ended (· = p) x gpidShell := by
      rw [hself, ← hw]
    rw [hsame, update_eq_self, view_ended hD]
    refine ⟨g, h.kill_other hx.user_ended fun hphase => ?_⟩
    rcases hother with hlt | hrecv
    · exact ne_of_gt hlt
    · rw [h.shell_awaits hx hphase] at hrecv
      cases hrecv
  · -- the shell was waiting for the end of the process
    obtain ⟨k, hprog⟩ : ∃ k, (x gpidShell).task.prog = .op (.recv .termination) k := by
      unfold App.atTermination at hterm
      split at hterm
      · exact ⟨_, ‹_›⟩
      · cases hterm
    have hpending : (view x).shell = .op (.recv .termination) k :=
      (Party.pending_of_not_got fun hc => absurd (hw.symm.trans hc.2) (by simp)).trans hprog
    have hphase : g.phase = .running := by
      have hf := h.shell
      rw [hpending] at hf
      have hallow := hf.1
      cases hp : g.phase with
      | running => rfl
      | _ =>
        rw [hp] at hallow
        exact hallow.elim
    have hexited : g.exited p = false := by
      by_contra hne
      rw [h.user_spins hx hp (by simp [hfree]) (by simpa using hne)] at hspin
      cases hspin
    have hletter : (view x).letter = none :=
      Party.letterTo_none _ fun hc => hk.queue _ _ hc hw
    have hcommand : (view x).command = none := letterTo_eq_none (by simp [hw]) _
    have hstarted : (view x).noShell = false := by simp [view, hw]
    have hrecv := (hx.party gpidShell).waiting hw
    have hgot : ({ x gpidShell with wait := .free } : Party).pending
        = k ((x gpidShell).msg.sender, (x gpidShell).msg.content.body) :=
      Party.pending_of_got (a := { x gpidShell with wait := .free }) hprog ⟨hrecv, rfl⟩
    have hkill := h.kill_foreground (D := (· = p)) hx.user_ended hphase rfl hexited hletter hpending
      ((x gpidShell).msg.sender, (x gpidShell).msg.content.body)
    refine ⟨{ g with phase := .prompt }, ?_⟩
    rw [← view_ended hD] at hkill
    rw [view_shell, hgot, letterTo_eq_none (by simp)]
    have hcommand' : (view (ended (· = p) x)).command = none := by
      rw [view_ended hD]
      exact hcommand
    have hstarted' : (view (ended (· = p) x)).noShell = false := by
      rw [view_ended hD]
      exact hstarted
    dsimp only at hkill
    rw [hcommand', hstarted'] at hkill
    exact hkill

/-- Every move of the parties is one of the conversation. -/
theorem Conversation.move (h : Conversation n alloc (view x) g) (hx : PartiesOk env True n alloc x)
    (hk : Kept x) (hfree : (x p).wait = .free) (hle : p ≤ n)
    (halloc : ∀ q, alloc = some q → gpidProcess < q)
    (hline : ∀ choice point, a = .run choice → (x p).task.prog = .ret point → p = gpidShell →
      LineOk choice.line)
    (hstatus : ∀ choice r m k, a = .run choice → (x p).task.prog = .op (.send .status r m) k →
      m.word ≠ cmdOk → m.foreground = true → Dead (view x) n)
    (hkill : a = .timer true → gpidUserStart ≤ p → KillOk x n p)
    (hmove : PartyMove env n alloc x p a n' alloc' x') :
    ∃ g', Conversation n' alloc' (view x') g' := by
  cases hmove with
  | @loop choice point hprog => exact h.loops hx hfree hprog (hline choice point rfl hprog)
  | @lost choice topic r m k hprog hgone =>
    refine ⟨g, h.loses hx hk hfree hprog hgone ?_⟩
    rintro - rfl
    exact hstatus choice r m k rfl hprog
  | @posted choice topic r m k hprog _ =>
    refine h.posts hx hfree hprog ?_
    rintro - rfl
    exact hstatus choice r m k rfl hprog
  | @sent choice topic r m k hprog hr =>
    have hpr : r ≠ p := by
      rintro rfl
      rw [hfree] at hr
      cases hr
    obtain ⟨g', h'⟩ := h.posts hx hfree hprog (by
      rintro - rfl
      exact hstatus choice r m k rfl hprog)
    obtain ⟨topic', k', hprog'⟩ := (hx.party r).receiving ((hx.party r).waiting hr)
    have hx' := hx.post hfree hprog fun hf => absurd trivial hf
    refine h'.delivers hx' (?_ : Delivers _ _ _ topic' k')
    refine ⟨?_, ?_, Or.inr ?_⟩
    · rw [update_self]
      rfl
    · rwa [update_of_ne hpr]
    · rwa [update_of_ne hpr]
  | blocked _ hrecv _ => exact ⟨g, h.blocks hx hfree hrecv⟩
  | @given _ topic k q hprog hrecv hq => exact h.delivers hx ⟨hq, hprog, Or.inl ⟨hfree, hrecv⟩⟩
  | taken hprog hrecv => exact ⟨g, h.takes hx hfree hprog hrecv⟩
  | alloc hp hprog =>
    subst hp
    exact h.allocs hx hle hprog rfl rfl rfl
  | ready hp hprog hpid hw =>
    subst hp
    exact h.readies hx halloc hprog hpid hw rfl rfl rfl
  | load hprog => exact h.loads hx halloc hprog
  | free hp hprog hpid =>
    subst hp
    exact h.frees_party hx hprog hpid
  | stay => exact ⟨g, h⟩
  | killed hp => exact h.kills_party hx hk hfree hp (hkill rfl hp)
  | killedAlone hp hgone =>
    -- the shell was there
    rcases hkill rfl hp with ⟨hw, -⟩ | ⟨hw, -⟩
    · rw [hgone] at hw
      cases hw
    · rw [hgone] at hw
      cases hw

end moves

end Egos.Apps
