import Egos.Apps.Party

/-!
# The processes as parties of a conversation

For requests and replies, all that matters of a process is its `Party`: what it executes, where it
stands in its talk, what holds it up and the message in its system-call area. A move of the system
changes the parties in one of a few ways: a party goes on, posts a message, blocks in `sys_recv`,
has a message delivered or takes it in. The invariant is proved here for each of these.

The invariant follows a request from the client to the server and back. At each point on the way,
the server owes the client a reply (`Owed`): while it has the request in its system-call area, while
it serves it, and while it waits to send the reply.
-/

namespace Egos.Apps

open Egos.Grass
open Function (update update_self update_of_ne)

namespace Party

variable (foreign : Prop) (a : Party)

/-- A message has arrived for a call of `sys_recv`. -/
def Got : Prop := a.task.receiving = true ∧ a.wait = .free

/-- A message of another process has come in place of the reply. -/
def Lost : Prop :=
  foreign ∧ (a.talk.lost = true ∨ ∃ r req, a.talk.asked = some (r, req) ∧
    a.task.receiving = true ∧ a.wait ≠ .toRecv ∧ a.msg.sender ≠ r)

/-- Server `r` owes the party the reply to its request `req`, which is its `n`-th. -/
def Owed (r : ℤ) (req : Msg) (n : ℕ) : Prop :=
  a.Lost foreign ∨ (a.talk.asked = some (r, req) ∧ n = a.asks ∧ a.wait ≠ .toSend r ∧ ¬ a.Got)

/-- The party is neither asking nor serving. -/
def Idle : Prop := a.talk.asked = none ∧ a.talk.serving = none

/-- The boot messages of the party that have not been delivered. -/
def unsaid : ℕ :=
  a.talk.boots +
    match a.wait, a.msg.content.topic with
    | .toSend _, .boot => 1
    | _, _ => 0

/-- The boot messages that have been delivered and not been taken in. -/
def heard : ℕ :=
  match a.task.receiving, a.wait, a.task.prog with
  | true, .free, .op (.recv .boot) _ => 1
  | _, _, _ => 0

end Party

variable {env : Env} {foreign : Prop} {x y : ℤ → Party} {a b : Party} {p q r n : ℤ} {i : ℕ}
  {req : Msg} {alloc : Option ℤ}

/-! ## The invariant -/

/-- The message that `p` waits to send to `r`. -/
structure Outgoing (env : Env) (foreign : Prop) (x : ℤ → Party) (p r : ℤ) : Prop where
  sender : (x p).msg.sender = p
  lost : (x p).talk.lost = false
  letter : match (x p).msg.content.topic with
    | .request => (x p).talk.asked = some (r, (x p).msg.content.body) ∧
        (x p).msg.content.tag = (p, (x p).asks) ∧ MayAsk p r
    | .reply server req => (x p).Idle ∧ server = p ∧ Answers env p req (x p).msg.content.body ∧
        (x p).msg.content.tag.1 = r ∧ (x r).Owed foreign p req (x p).msg.content.tag.2 ∧
        IsServer p
    | .boot => (x p).Idle ∧ r = gpidProcess ∧ IsServer p
    | .command => (x p).Idle ∧ r = gpidProcess ∧ gpidShell ≤ p
    | .status | .termination => (x p).Idle ∧ r = gpidShell ∧ p = gpidProcess

/-- The message that has arrived for `p`, which waits for one on a topic. -/
def Incoming (env : Env) (foreign : Prop) (x : ℤ → Party) (p : ℤ) : Topic → Prop
  | .reply r req => ((x p).msg.sender = r ∧ (x p).msg.content.topic = .reply r req ∧
      (x p).msg.content.tag = (p, (x p).asks) ∧ Answers env r req (x p).msg.content.body) ∨
      foreign ∧ (x p).msg.sender ≠ r
  | .request => (x p).msg.content.tag.1 = (x p).msg.sender ∧
      (x (x p).msg.sender).Owed foreign p (x p).msg.content.body (x p).msg.content.tag.2
  | _ => True

/-- What holds of party `p` among the parties `x`. -/
structure PartyOk (env : Env) (foreign : Prop) (x : ℤ → Party) (p : ℤ) : Prop where
  follows : (x p).task.prog.Follows (pairing env foreign p) (Home p) (x p).talk
  receiving : (x p).task.receiving = true → ∃ topic k, (x p).task.prog = .op (.recv topic) k
  waiting : (x p).wait = .toRecv → (x p).task.receiving = true
  sending : ∀ r, (x p).wait = .toSend r →
    (x p).task.receiving = false ∧ Outgoing env foreign x p r
  inbox : ∀ topic k, (x p).task.prog = .op (.recv topic) k → (x p).Got →
    Incoming env foreign x p topic
  served : ∀ q req, (x p).talk.serving = some (q, req) →
    (x p).serves.1 = q ∧ (x q).Owed foreign p req (x p).serves.2
  quiet : ¬ foreign → ∀ r req, (x p).talk.asked = some (r, req) → ¬ (x p).Got →
    (x p).wait ≠ .gone → ∀ q, (x q).wait = .toSend p → q = r
  asker : (x p).talk.asked ≠ none → p ≠ gpidShell

/-- The invariant of the parties, with the last pid that was given out and the one that is being
set up. -/
structure PartiesOk (env : Env) (foreign : Prop) (n : ℤ) (alloc : Option ℤ) (x : ℤ → Party) :
    Prop where
  party : ∀ p, PartyOk env foreign x p
  spawned : (x gpidProcess).talk.spawned = n
  loading : (x gpidProcess).talk.loading = alloc
  last : ∀ p, alloc = some p → p = n
  unborn : ∀ p, n < p ∨ alloc = some p → (x p).talk = .initial p ∧
    (x p).task.receiving = false ∧ ((x p).wait = .gone ∨ (x p).wait = .loading)
  booting : (x gpidFile).unsaid + (x gpidDir).unsaid + (x gpidProcess).heard
    ≤ (x gpidProcess).talk.boots
  few : (x gpidProcess).talk.boots = 0 ∨ n + (x gpidProcess).talk.boots ≤ 4

/-! ## Facts about one party -/

/-- No two processes ask each other. -/
theorem MayAsk.asymm (h : MayAsk p q) : ¬ MayAsk q p := by
  rintro (⟨rfl, hq⟩ | ⟨rfl, hq⟩)
  · rcases h with ⟨rfl, hp⟩ | ⟨rfl, hp⟩
    · exact hp rfl
    · exact hp (Or.inl rfl)
  · rcases h with ⟨rfl, hp⟩ | ⟨rfl, hp⟩
    · exact hq (Or.inl rfl)
    · exact hp (Or.inr rfl)

/-- Only servers are asked. -/
theorem MayAsk.isServer (h : MayAsk p q) : IsServer q := h.imp And.left And.left

/-- The servers are `GPID_FILE` and `GPID_DIR`. -/
theorem IsServer.le (h : IsServer p) : (2 : ℤ) ≤ p ∧ p ≤ 3 := by
  rcases h with rfl | rfl <;> decide

/-- Nothing is owed to a party that asks nothing. -/
theorem Party.not_owed (hasked : a.talk.asked = none) (hlost : a.talk.lost = false) :
    ¬ a.Owed foreign r req i := by
  rintro (⟨-, h | ⟨_, _, h, -⟩⟩ | ⟨h, -⟩)
  · rw [hlost] at h
    cases h
  · rw [hasked] at h
    cases h
  · rw [hasked] at h
    cases h

/-- What is owed to a party that waits for a message is owed by the server it has asked. -/
theorem Party.Owed.asked (h : a.Owed foreign r req i) (hlost : a.talk.lost = false)
    (hrecv : a.task.receiving = false ∨ a.wait = .toRecv) :
    a.talk.asked = some (r, req) ∧ i = a.asks ∧ a.wait ≠ .toSend r := by
  rcases h with ⟨-, h | ⟨_, _, -, h, hw, -⟩⟩ | h
  · rw [hlost] at h
    cases h
  · rcases hrecv with hr | hr
    · rw [hr] at h
      cases h
    · exact absurd hr hw
  · exact ⟨h.1, h.2.1, h.2.2.1⟩

/-- A party that has asked does nothing but receive the reply. -/
theorem PartyOk.head (h : PartyOk env foreign x p) (hlost : (x p).talk.lost = false)
    (hasked : (x p).talk.asked = some (r, req)) :
    (∃ k, (x p).task.prog = .op (.recv (.reply r req)) k) ∧ (x p).talk.boots = 0 ∧ MayAsk p r := by
  have hf := h.follows
  cases hprog : (x p).task.prog with
  | ret point =>
    rw [hprog] at hf
    have : (x p).talk.asked = none := hf.asked
    rw [hasked] at this
    cases this
  | stop e =>
    rw [hprog] at hf
    rcases hf with ⟨hl, -⟩ | ⟨hn, -⟩
    · rw [hlost] at hl
      cases hl
    · rw [hasked] at hn
      cases hn
  | op o k =>
    rw [hprog] at hf
    have hallow := hf.1.2
    cases o with
    | recv topic =>
      cases topic with
      | reply r' req' =>
        obtain ⟨ha, hb, hm, -⟩ := hallow
        rw [hasked] at ha
        cases ha
        exact ⟨⟨k, rfl⟩, hb, hm⟩
      | _ =>
        have : (x p).talk.asked = none := hallow.1
        rw [hasked] at this
        cases this
    | spin =>
      have : (x p).talk.asked = none := hallow
      rw [hasked] at this
      cases this
    | _ =>
      have : (x p).talk.asked = none := hallow.1
      rw [hasked] at this
      cases this

/-- A party that waits for a reply has not lost it, unless messages of others may come. -/
theorem PartyOk.not_lost (h : PartyOk env foreign x p) (hforeign : ¬ foreign)
    (hasked : (x p).talk.asked = some (r, req)) : (x p).talk.lost = false := by
  have hf := h.follows
  cases hprog : (x p).task.prog with
  | ret point =>
    rw [hprog] at hf
    exact hf.lost
  | stop e =>
    rw [hprog] at hf
    rcases hf with ⟨-, hc⟩ | ⟨hnone, -⟩
    · exact absurd hc hforeign
    · rw [hasked] at hnone
      cases hnone
  | op o k =>
    rw [hprog] at hf
    exact hf.1.1

/-- What the protocol says about a party at an operation. -/
theorem PartyOk.allows (h : PartyOk env foreign x p) {o : SysOp} {k : o.Res → App Point}
    (hprog : (x p).task.prog = .op o k) : (pairing env foreign p).allows (x p).talk o ∧
      ∀ result t, (pairing env foreign p).next (x p).talk o result t →
        (k result).Follows (pairing env foreign p) (Home p) t := by
  have hf := h.follows
  rw [hprog] at hf
  exact hf

/-- A party that is not receiving when it is at something other than `sys_recv`. -/
theorem PartyOk.not_receiving (h : PartyOk env foreign x p)
    (hprog : ∀ topic k, (x p).task.prog ≠ .op (.recv topic) k) :
    (x p).task.receiving = false := by
  cases hr : (x p).task.receiving with
  | false => rfl
  | true =>
    obtain ⟨topic, k, hp⟩ := h.receiving hr
    exact absurd hp (hprog topic k)

/-! ## What is kept -/

/-- A letter is as it was if its sender is and the debt of its receiver stands. -/
theorem Outgoing.congr (h : Outgoing env foreign x p r) (hp : y p = x p)
    (howed : ∀ req i, (x r).Owed foreign p req i → (y r).Owed foreign p req i) :
    Outgoing env foreign y p r := by
  refine ⟨by rw [hp]; exact h.sender, by rw [hp]; exact h.lost, ?_⟩
  have hl := h.letter
  rw [hp]
  split at hl
  · exact hl
  · exact ⟨hl.1, hl.2.1, hl.2.2.1, hl.2.2.2.1, howed _ _ hl.2.2.2.2.1, hl.2.2.2.2.2⟩
  · exact hl
  · exact hl
  · exact hl
  · exact hl

/-- A message that has arrived is as it was if its receiver is and all debts stand. -/
theorem Incoming.congr {topic : Topic} (h : Incoming env foreign x p topic) (hp : y p = x p)
    (howed : ∀ z req i, (x z).Owed foreign p req i → (y z).Owed foreign p req i) :
    Incoming env foreign y p topic := by
  cases topic with
  | reply r req =>
    rw [Incoming, hp]
    exact h
  | request =>
    rw [Incoming, hp]
    exact ⟨h.1, howed _ _ _ h.2⟩
  | _ => trivial

/-- A party that does not change, among parties to which it owes no less than before. -/
theorem PartyOk.congr (h : PartyOk env foreign x p) (hp : y p = x p)
    (howed : ∀ z req i, (x z).Owed foreign p req i → (y z).Owed foreign p req i)
    (hsend : ¬ foreign → ∀ r req, (x p).talk.asked = some (r, req) → ¬ (x p).Got →
      (x p).wait ≠ .gone → ∀ q, (y q).wait = .toSend p → (x q).wait = .toSend p ∨ q = r) :
    PartyOk env foreign y p where
  follows := by rw [hp]; exact h.follows
  receiving := by rw [hp]; exact h.receiving
  waiting := by rw [hp]; exact h.waiting
  sending r := by
    rw [hp]
    exact fun hw => ⟨(h.sending r hw).1, (h.sending r hw).2.congr hp (howed r)⟩
  inbox topic k := by
    rw [hp]
    exact fun hprog hgot => (h.inbox topic k hprog hgot).congr hp howed
  served q req := by
    rw [hp]
    exact fun hs => ⟨(h.served q req hs).1, howed _ _ _ (h.served q req hs).2⟩
  quiet hforeign r req := by
    rw [hp]
    intro ha hgot hgone q hq
    exact (hsend hforeign r req ha hgot hgone q hq).elim (h.quiet hforeign r req ha hgot hgone q) id
  asker := by rw [hp]; exact h.asker

/-- A debt stands if the party that changes keeps its own. -/
theorem owed_update (howed : (x p).Owed foreign q req i → b.Owed foreign q req i) {z : ℤ}
    (ho : (x z).Owed foreign q req i) : (update x p b z).Owed foreign q req i := by
  by_cases hz : z = p
  · rw [hz, update_self]
    rw [hz] at ho
    exact howed ho
  · rwa [update_of_ne hz]

/-- A party that changes is not a new sender to `q`. -/
theorem wait_of_update (hb : b.wait ≠ .toSend q) {z : ℤ}
    (hz : (update x p b z).wait = .toSend q) : (x z).wait = .toSend q := by
  by_cases hzp : z = p
  · rw [hzp, update_self] at hz
    exact absurd hz hb
  · rwa [update_of_ne hzp] at hz

/-- One party changes: the others are fine when what was owed to it still is, and when it does not
start to wait for a party that has asked another. -/
theorem party_update (h : ∀ q, PartyOk env foreign x q)
    (hb : PartyOk env foreign (update x p b) p)
    (howed : ∀ q req i, q ≠ p → (x p).Owed foreign q req i → b.Owed foreign q req i)
    (hsend : ¬ foreign → ∀ q, q ≠ p → b.wait = .toSend q → ∀ r req,
      (x q).talk.asked = some (r, req) → ¬ (x q).Got → (x q).wait ≠ .gone →
      (x p).wait = .toSend q ∨ p = r) :
    ∀ q, PartyOk env foreign (update x p b) q := by
  intro q
  by_cases hq : q = p
  · rw [hq]
    exact hb
  · refine (h q).congr (update_of_ne hq _ _) (fun z req i hz => ?_) fun hf r req ha hg hw z hz => ?_
    · by_cases hzp : z = p
      · rw [hzp, update_self]
        rw [hzp] at hz
        exact howed q req i hq hz
      · rwa [update_of_ne hzp]
    · by_cases hzp : z = p
      · rw [hzp, update_self] at hz
        rw [hzp]
        exact hsend hf q hq hz r req ha hg hw
      · rw [update_of_ne hzp] at hz
        exact Or.inl hz

/-- A process that has started. -/
theorem PartiesOk.born (h : PartiesOk env foreign n alloc x) (hgone : (x p).wait ≠ .gone)
    (hloading : (x p).wait ≠ .loading) : ¬ (n < p ∨ alloc = some p) :=
  fun hp => (h.unborn p hp).2.2.elim hgone hloading

/-- One process that has started changes. -/
theorem PartiesOk.change (h : PartiesOk env foreign n alloc x)
    (hparty : ∀ q, PartyOk env foreign (update x p b) q) (hborn : ¬ (n < p ∨ alloc = some p))
    (hproc : p = gpidProcess → b.talk.spawned = (x p).talk.spawned ∧
      b.talk.loading = (x p).talk.loading ∧ b.talk.boots ≤ (x p).talk.boots ∧
      b.heard + (x p).talk.boots ≤ (x p).heard + b.talk.boots)
    (hserver : IsServer p → b.unsaid ≤ (x p).unsaid) :
    PartiesOk env foreign n alloc (update x p b) := by
  have hunsaid : ∀ q, IsServer q → (update x p b q).unsaid ≤ (x q).unsaid := by
    intro q hq
    by_cases hqp : q = p
    · rw [hqp, update_self]
      exact hserver (hqp ▸ hq)
    · rw [update_of_ne hqp]
  have hfile := hunsaid gpidFile (Or.inl rfl)
  have hdir := hunsaid gpidDir (Or.inr rfl)
  have hboot := h.booting
  have hunborn : ∀ q, n < q ∨ alloc = some q →
      (update x p b q).talk = .initial q ∧
      (update x p b q).task.receiving = false ∧
      ((update x p b q).wait = .gone ∨ (update x p b q).wait = .loading) := by
    intro q hq
    rw [update_of_ne]
    · exact h.unborn q hq
    · rintro rfl
      exact hborn hq
  by_cases hp : gpidProcess = p
  · obtain ⟨hspawned, hloading, hboots, hheard⟩ := hproc hp.symm
    have hx : update x p b gpidProcess = b := by rw [hp, update_self]
    rw [← hp] at hspawned hloading hboots hheard
    refine ⟨hparty, ?_, ?_, h.last, hunborn, ?_, ?_⟩
    · rw [hx, hspawned]
      exact h.spawned
    · rw [hx, hloading]
      exact h.loading
    · rw [hx]
      omega
    · rw [hx]
      rcases h.few with h0 | hn
      · exact Or.inl (by omega)
      · exact Or.inr (by omega)
  · have hx : update x p b gpidProcess = x gpidProcess := update_of_ne hp _ _
    refine ⟨hparty, ?_, ?_, h.last, hunborn, ?_, ?_⟩ <;> rw [hx]
    · exact h.spawned
    · exact h.loading
    · omega
    · exact h.few

/-! ## Moves -/

/-- A party that is not in `sys_recv` has heard nothing. -/
theorem Party.heard_of_not_receiving (h : a.task.receiving = false) : a.heard = 0 := by
  unfold heard
  rw [h]

/-- Nor has one that is held up. -/
theorem Party.heard_of_not_free (h : a.wait ≠ .free) : a.heard = 0 := by
  unfold heard
  split
  · exact absurd ‹_› h
  · rfl

/-- A party goes on with its program. -/
theorem party_advance (h : ∀ q, PartyOk env foreign x q) (hfree : (x p).wait = .free)
    (hasked : (x p).talk.asked = none) (hlost : (x p).talk.lost = false) {prog : App Point}
    {t : Talk} (hf : prog.Follows (pairing env foreign p) (Home p) t)
    (hserving : t.serving = (x p).talk.serving) (hasked' : t.asked = none) :
    ∀ q, PartyOk env foreign
      (update x p { x p with task := ⟨prog, false⟩, talk := t }) q := by
  refine party_update h ?_ (fun q req i _ ho => absurd ho (Party.not_owed hasked hlost))
    fun _ q _ hw => absurd (hfree.symm.trans hw) (by simp)
  constructor <;> rw [update_self]
  · exact hf
  · exact nofun
  · exact fun hw => absurd (hfree.symm.trans hw) (by simp)
  · exact fun r hw => absurd (hfree.symm.trans hw) (by simp)
  · exact fun topic k _ hgot => absurd hgot.1 (by simp)
  · intro q req hs
    obtain ⟨htag, ho⟩ := (h p).served q req (hserving ▸ hs)
    exact ⟨htag, owed_update (fun ho => absurd ho (Party.not_owed hasked hlost)) ho⟩
  · exact fun _ r req ha => absurd (hasked'.symm.trans ha) (by simp)
  · exact fun ha => absurd hasked' ha

/-- The current party posts a message. -/
theorem PartiesOk.post (h : PartiesOk env foreign n alloc x) (hfree : (x p).wait = .free)
    {topic : Topic} {m : Msg} {k : Unit → App Point}
    (hprog : (x p).task.prog = .op (.send topic r m) k)
    (hcond : ¬ foreign → (∀ server req, (x r).talk.asked = some (server, req) → ¬ (x r).Got →
      (x r).wait ≠ .gone → p = server) ∧ (topic.isRequest = true → ∀ q, (x q).wait ≠ .toSend p)) :
    PartiesOk env foreign n alloc (update x p ((x p).posted p topic r m (k ()))) := by
  have hp := h.party p
  obtain ⟨⟨hlost, hasked, hsend⟩, hnext⟩ := hp.allows hprog
  have hrecv : (x p).task.receiving = false := hp.not_receiving fun _ _ hc => by
    rw [hprog] at hc
    cases hc
  have hnot : ∀ q req i, ¬ (x p).Owed foreign q req i := fun _ _ _ => Party.not_owed hasked hlost
  -- what was owed by the party is owed to others
  have howed : ∀ q req i, (x q).Owed foreign p req i →
      (update x p ((x p).posted p topic r m (k ())) q).Owed foreign p req i := by
    exact fun q req i ho => owed_update (fun ho => absurd ho (hnot _ _ _)) ho
  refine h.change (party_update h.party ?_ (fun q req i _ ho => absurd ho (hnot q req i)) ?_)
    (h.born (by simp [hfree]) (by simp [hfree])) (fun hproc => ?_) fun hserver => ?_
  · constructor <;> rw [update_self]
    · exact hnext () _ rfl
    · exact nofun
    · exact nofun
    · rintro _ ⟨⟩
      refine ⟨rfl, by rw [update_self]; rfl, ?_, ?_⟩ <;> rw [update_self]
      · cases topic <;> exact hlost
      · cases topic with
        | request => exact ⟨rfl, rfl, hsend.2.1⟩
        | reply server req =>
          obtain ⟨rfl, hserver, hserving, hanswer⟩ := hsend
          obtain ⟨htag, ho⟩ := hp.served r req hserving
          exact ⟨⟨hasked, rfl⟩, rfl, hanswer, htag, howed r req _ ho, hserver⟩
        | boot => exact ⟨⟨hasked, hsend.1⟩, hsend.2.1, hsend.2.2.1⟩
        | command => exact ⟨⟨hasked, hsend.1⟩, hsend.2.1, hsend.2.2⟩
        | status => exact ⟨⟨hasked, hsend.1⟩, hsend.2⟩
        | termination => exact ⟨⟨hasked, hsend.1⟩, hsend.2⟩
    · exact fun _ _ _ hgot => absurd hgot.1 (by simp [Party.posted])
    · intro q req hs
      have hserving : (x p).talk.serving = some (q, req) := by
        cases topic <;> first | exact hs | cases hs
      exact ⟨(hp.served q req hserving).1, howed q req _ (hp.served q req hserving).2⟩
    · intro hforeign server req ha _ _ q hq
      cases topic with
      | request =>
        by_cases hqp : q = p
        · rw [hqp, update_self] at hq
          cases hq
          exact absurd hsend.2.1 hsend.2.1.asymm
        · rw [update_of_ne hqp] at hq
          exact absurd hq ((hcond hforeign).2 rfl q)
      | _ => exact absurd (hasked.symm.trans ha) (by simp)
    · intro ha
      cases topic with
      | request => exact hsend.2.2
      | _ => exact absurd hasked ha
  · rintro hforeign q hq ⟨⟩ server req ha hgot hgone
    exact Or.inr ((hcond hforeign).1 server req ha hgot hgone)
  · have h0 : ((x p).posted p topic r m (k ())).heard = 0 := Party.heard_of_not_receiving rfl
    cases topic with
    | boot =>
      have := hsend.2.2.1.le
      rw [hproc] at this
      exact absurd this (by decide)
    | _ => exact ⟨rfl, rfl, le_refl _, by rw [h0, Nat.zero_add]; exact Nat.le_add_left _ _⟩
  · have h0 : (x p).unsaid = (x p).talk.boots := by simp [Party.unsaid, hfree]
    rw [h0]
    cases topic with
    | boot =>
      have := hsend.2.2.2
      simp [Party.unsaid, Party.posted, Talk.sent, this]
    | _ => simp [Party.unsaid, Party.posted, Talk.sent]

/-- Nothing is owed to a party that waits to send. -/
theorem PartyOk.not_owed_sending (h : PartyOk env foreign x p) (hw : (x p).wait = .toSend r) :
    ¬ (x p).Owed foreign q req i := by
  intro ho
  obtain ⟨hrecv, hout⟩ := h.sending r hw
  obtain ⟨hasked, -, hne⟩ := ho.asked hout.lost (Or.inl hrecv)
  have hl := hout.letter
  split at hl
  · rw [hl.1] at hasked
    cases hasked
    exact hne hw
  all_goals
    rw [hl.1.1] at hasked
    cases hasked

/-- What is owed to a party in `sys_recv` is the reply that it waits for. -/
theorem PartyOk.owed_receiving (h : PartyOk env foreign x r) {topic : Topic}
    {k : ℤ × Msg → App Point} (hprog : (x r).task.prog = .op (.recv topic) k)
    (hready : (x r).task.receiving = false ∨ (x r).wait = .toRecv)
    (ho : (x r).Owed foreign q req i) :
    topic = .reply q req ∧ (x r).talk.asked = some (q, req) ∧ i = (x r).asks ∧ MayAsk r q := by
  have hlost : (x r).talk.lost = false := (h.allows hprog).1.1
  obtain ⟨hasked, hi, -⟩ := ho.asked hlost hready
  obtain ⟨⟨k', hprog'⟩, -, hask⟩ := h.head hlost hasked
  rw [hprog] at hprog'
  cases hprog'
  exact ⟨rfl, hasked, hi, hask⟩

section deliver

variable {topic : Topic} {k : ℤ × Msg → App Point}

/-- The message that `p` waits to send to `r` can be delivered. -/
structure Delivers (x : ℤ → Party) (p r : ℤ) (topic : Topic) (k : ℤ × Msg → App Point) : Prop where
  sends : (x p).wait = .toSend r
  prog : (x r).task.prog = .op (.recv topic) k
  ready : (x r).wait = .free ∧ (x r).task.receiving = false ∨ (x r).wait = .toRecv

namespace Delivers

variable (hd : Delivers x p r topic k)
include hd

/-- The receiver is about to call `sys_recv`, or waits in it. -/
theorem ready_iff : (x r).task.receiving = false ∨ (x r).wait = .toRecv :=
  hd.ready.imp And.right id

/-- The receiver exists and is not sending. -/
theorem wait_ne : (x r).wait ≠ .gone ∧ (x r).wait ≠ .loading ∧ ∀ z, (x r).wait ≠ .toSend z := by
  rcases hd.ready with ⟨hr, -⟩ | hr <;> rw [hr] <;> simp

/-- A party does not send to itself. -/
theorem ne : p ≠ r := by
  rintro rfl
  exact hd.wait_ne.2.2 p hd.sends

/-- Nothing has arrived for the receiver yet. -/
theorem not_got : ¬ (x r).Got := by
  rintro ⟨hr, hf⟩
  have := hd.ready
  rw [hr, hf] at this
  simp at this

/-- The sender is let go. -/
theorem sender : delivered x p r p = { x p with wait := .free } :=
  (update_of_ne hd.ne _ _).trans (update_self _ _ _)

/-- A delivery does not change where the parties stand in their talks. -/
theorem talk (q : ℤ) : (delivered x p r q).talk = (x q).talk := by
  by_cases hqr : q = r
  · rw [hqr, delivered_receiver]
  by_cases hqp : q = p
  · rw [hqp, hd.sender]
  · rw [delivered_other hqp hqr]

/-- Whoever waits to send did so before. -/
theorem wait_toSend {z : ℤ} (hz : (delivered x p r z).wait = .toSend q) :
    (x z).wait = .toSend q := by
  by_cases hzr : z = r
  · rw [hzr, delivered_receiver] at hz
    cases hz
  by_cases hzp : z = p
  · rw [hzp, hd.sender] at hz
    cases hz
  · rwa [delivered_other hzp hzr] at hz

end Delivers

/-- The boot messages go to `GPID_PROCESS` when it waits for them, and nothing else does. -/
theorem PartiesOk.boot_iff (h : PartiesOk env foreign n alloc x) (hd : Delivers x p r topic k) :
    (x p).msg.content.topic = .boot ↔ r = gpidProcess ∧ topic = .boot := by
  have hw := hd.sends
  have hmay := ((h.party r).allows hd.prog).1.2
  have hl := ((h.party p).sending r hw).2.letter
  have hbooting := h.booting
  constructor
  · intro hboot
    rw [hboot] at hl
    obtain ⟨-, rfl, hserver⟩ := hl
    have hunsaid : 1 ≤ (x p).unsaid := by
      simp [Party.unsaid, hw, hboot]
    have hboots : 0 < (x gpidProcess).talk.boots := by
      rcases hserver with rfl | rfl <;> omega
    refine ⟨rfl, ?_⟩
    cases topic with
    | boot => rfl
    | reply server req =>
      have : (x gpidProcess).talk.boots = 0 := hmay.2.1
      omega
    | command =>
      have : (x gpidProcess).talk.boots = 0 := hmay.2.2
      omega
    | request => exact absurd hmay.2.1.le (by decide)
    | status => exact absurd hmay.2 (by decide)
    | termination => exact absurd hmay.2 (by decide)
  · rintro ⟨rfl, rfl⟩
    obtain ⟨hasked, -, hboots⟩ := hmay
    split at hl
    · exact absurd hl.2.2.isServer.le (by decide)
    · obtain ⟨-, -, -, -, ho, -⟩ := hl
      exact absurd ((h.party _).owed_receiving hd.prog hd.ready_iff ho).1 (by simp)
    · assumption
    · -- a command comes from the shell or a user, and there is none yet
      have hp : (4 : ℤ) ≤ p := hl.2.2
      have hfew := h.few.resolve_left (by omega)
      have hunborn := (h.unborn p (Or.inl (by omega))).2.2
      rw [hw] at hunborn
      simp at hunborn
    · exact absurd hl.2.1 (by decide)
    · exact absurd hl.2.1 (by decide)

/-- The message that arrives is one that its receiver waits for. -/
theorem PartiesOk.incoming (h : PartiesOk env foreign n alloc x) (hd : Delivers x p r topic k) :
    Incoming env foreign (delivered x p r) r topic := by
  have hmay := ((h.party r).allows hd.prog).1.2
  obtain ⟨hrecv, hout⟩ := (h.party p).sending r hd.sends
  have hl := hout.letter
  have hboot := h.boot_iff hd
  cases topic with
  | reply server req =>
    obtain ⟨hasked, -, hask, hshell⟩ := hmay
    -- a message of another process than the one that was asked
    have hforeign : p ≠ server → foreign ∧ (x p).msg.sender ≠ server := fun hne =>
      ⟨by_contra fun hf => hne ((h.party r).quiet hf server req hasked hd.not_got hd.wait_ne.1
        p hd.sends),
        by rw [hout.sender]; exact hne⟩
    rw [Incoming, delivered_receiver]
    split at hl
    · exact Or.inr (hforeign fun he => hl.2.2.asymm (he ▸ hask))
    · rename_i server' req' htopic
      obtain ⟨-, rfl, hanswer, htag, ho, -⟩ := hl
      obtain ⟨heq, -, hi, -⟩ := (h.party r).owed_receiving hd.prog hd.ready_iff ho
      cases heq
      exact Or.inl ⟨hout.sender, htopic, Prod.ext htag hi, hanswer⟩
    · exact absurd (hboot.1 ‹_›).2 (by simp)
    · have hserver := hask.isServer.le
      have hp : (4 : ℤ) ≤ p := hl.2.2
      exact Or.inr (hforeign (by omega))
    · exact absurd hl.2.1 hshell
    · exact absurd hl.2.1 hshell
  | request =>
    obtain ⟨hasked, hserver, -⟩ := hmay
    have hr := hserver.le
    rw [Incoming, delivered_receiver]
    split at hl
    · obtain ⟨hask, htag, -⟩ := hl
      refine ⟨by rw [htag, hout.sender], ?_⟩
      rw [hout.sender, hd.sender, htag]
      refine Or.inr ⟨hask, rfl, by simp, fun hc => ?_⟩
      exact absurd (hrecv.symm.trans hc.1) (by simp)
    · exact absurd ((h.party r).owed_receiving hd.prog hd.ready_iff hl.2.2.2.2.1).1 (by simp)
    · exact absurd (hboot.1 ‹_›).2 (by simp)
    · rw [hl.2.1] at hr
      exact absurd hr (by decide)
    · rw [hl.2.1] at hr
      exact absurd hr (by decide)
    · rw [hl.2.1] at hr
      exact absurd hr (by decide)
  | _ => trivial

/-- What was owed by others than the sender still is. -/
theorem PartiesOk.owed_delivered (h : PartiesOk env foreign n alloc x)
    (hd : Delivers x p r topic k) (hq : q ≠ p) {z : ℤ} (ho : (x z).Owed foreign q req i) :
    (delivered x p r z).Owed foreign q req i := by
  by_cases hzp : z = p
  · rw [hzp] at ho
    exact absurd ho ((h.party p).not_owed_sending hd.sends)
  by_cases hzr : z = r
  · -- the receiver is given a message in place of the reply of `q`
    rw [hzr] at ho ⊢
    obtain ⟨-, hasked, -, -⟩ := (h.party r).owed_receiving hd.prog hd.ready_iff ho
    have hforeign : foreign :=
      by_contra fun hf => hq ((h.party r).quiet hf q req hasked hd.not_got hd.wait_ne.1
        p hd.sends).symm
    have hsender := ((h.party p).sending r hd.sends).2.sender
    rw [delivered_receiver]
    refine Or.inl ⟨hforeign, Or.inr ⟨q, req, hasked, rfl, by simp, ?_⟩⟩
    simp only [hsender]
    exact hq.symm
  · rwa [delivered_other hzp hzr]

/-- The invariant of the receiver after the delivery. -/
theorem PartiesOk.receiver_delivered (h : PartiesOk env foreign n alloc x)
    (hd : Delivers x p r topic k) : PartyOk env foreign (delivered x p r) r := by
  have hr := h.party r
  constructor <;> rw [delivered_receiver]
  · exact hr.follows
  · exact fun _ => ⟨topic, k, hd.prog⟩
  · exact nofun
  · exact nofun
  · intro topic' k' hprog' _
    cases hprog'.symm.trans hd.prog
    exact h.incoming hd
  · exact fun z req hs =>
      ⟨(hr.served z req hs).1, h.owed_delivered hd hd.ne.symm (hr.served z req hs).2⟩
  · exact fun _ _ _ _ hng => absurd ⟨rfl, rfl⟩ hng
  · exact hr.asker

/-- The invariant of the sender after the delivery. -/
theorem PartiesOk.sender_delivered (h : PartiesOk env foreign n alloc x)
    (hd : Delivers x p r topic k) : PartyOk env foreign (delivered x p r) p := by
  have hp := h.party p
  obtain ⟨hrecv, hout⟩ := hp.sending r hd.sends
  have hl := hout.letter
  have hgot : ¬ (x p).task.receiving = true := by simp [hrecv]
  constructor <;> rw [hd.sender]
  · exact hp.follows
  · exact hp.receiving
  · exact nofun
  · exact nofun
  · exact fun _ _ _ hc => absurd hc.1 hgot
  · -- a server that serves while it sends is asking, and not the process that it serves
    intro z req hs
    obtain ⟨htag, ho⟩ := hp.served z req hs
    refine ⟨htag, ?_⟩
    split at hl
    · by_cases hzr : z = r
      · rw [hzr] at ho
        exact absurd ((h.party r).owed_receiving hd.prog hd.ready_iff ho).2.2.2 hl.2.2.asymm
      · have hzp : z ≠ p := by
          rintro rfl
          exact hp.not_owed_sending hd.sends ho
        rwa [delivered_other hzp hzr]
    all_goals
      rw [hl.1.2] at hs
      cases hs
  · exact fun hf server req ha _ _ z hz =>
      hp.quiet hf server req ha (fun hc => hgot hc.1) (by rw [hd.sends]; simp) z (hd.wait_toSend hz)
  · exact hp.asker

/-- A boot message that is delivered is heard in place of being unsaid. -/
theorem PartiesOk.booting_delivered (h : PartiesOk env foreign n alloc x)
    (hd : Delivers x p r topic k) :
    (delivered x p r gpidFile).unsaid + (delivered x p r gpidDir).unsaid
        + (delivered x p r gpidProcess).heard
      ≤ (x gpidFile).unsaid + (x gpidDir).unsaid + (x gpidProcess).heard := by
  have hl := ((h.party p).sending r hd.sends).2.letter
  have hboot := h.boot_iff hd
  have hreceiver : (delivered x p r r).unsaid = (x r).unsaid := by
    have := hd.wait_ne.2.2
    rw [delivered_receiver, Party.unsaid, Party.unsaid]
    cases hw : (x r).wait with
    | toSend z => exact absurd hw (this z)
    | _ => rfl
  have hsender : (delivered x p r p).unsaid = (x p).talk.boots := by
    rw [hd.sender]
    rfl
  by_cases htopic : (x p).msg.content.topic = .boot
  · -- the message was unsaid, and now it is heard
    obtain ⟨rfl, rfl⟩ := hboot.1 htopic
    rw [htopic] at hl
    have hunsaid : (x p).unsaid = (x p).talk.boots + 1 := by
      simp [Party.unsaid, hd.sends, htopic]
    have hheard : (delivered x p gpidProcess gpidProcess).heard = 1 := by
      rw [delivered_receiver, Party.heard, hd.prog]
    rcases hl.2.2 with rfl | rfl
    · rw [delivered_other (q := gpidDir) (by decide) (by decide)]
      omega
    · rw [delivered_other (q := gpidFile) (by decide) (by decide)]
      omega
  · have hunsaid : ∀ q, (delivered x p r q).unsaid = (x q).unsaid := by
      intro q
      by_cases hqr : q = r
      · rw [hqr, hreceiver]
      by_cases hqp : q = p
      · rw [hqp, hsender, Party.unsaid, hd.sends]
        split
        · exact absurd ‹_› htopic
        · rfl
      · rw [delivered_other hqp hqr]
    have hheard : (delivered x p r gpidProcess).heard ≤ (x gpidProcess).heard := by
      by_cases hr : gpidProcess = r
      · rw [hr, delivered_receiver, Party.heard, hd.prog]
        split
        · rename_i heq
          cases heq
          exact absurd (hboot.2 ⟨hr.symm, rfl⟩) htopic
        · exact Nat.zero_le _
      by_cases hp : gpidProcess = p
      · rw [hp, Party.heard_of_not_receiving]
        · exact Nat.zero_le _
        · rw [hd.sender]
          exact ((h.party p).sending r hd.sends).1
      · rw [delivered_other hp hr]
    rw [hunsaid, hunsaid]
    omega

/-- A message is delivered. -/
theorem PartiesOk.deliver (h : PartiesOk env foreign n alloc x) (hd : Delivers x p r topic k) :
    PartiesOk env foreign n alloc (delivered x p r) := by
  refine ⟨fun q => ?_, ?_, ?_, h.last, fun q hq => ?_, ?_, ?_⟩
  · by_cases hqr : q = r
    · rw [hqr]
      exact h.receiver_delivered hd
    by_cases hqp : q = p
    · rw [hqp]
      exact h.sender_delivered hd
    · exact (h.party q).congr (delivered_other hqp hqr) (fun z req i => h.owed_delivered hd hqp)
        fun _ _ _ _ _ _ z hz => Or.inl (hd.wait_toSend hz)
  · rw [hd.talk]
    exact h.spawned
  · rw [hd.talk]
    exact h.loading
  · have hunborn := h.unborn q hq
    rw [delivered_other]
    · exact hunborn
    · rintro rfl
      rw [hd.sends] at hunborn
      simp at hunborn
    · rintro rfl
      exact hunborn.2.2.elim hd.wait_ne.1 hd.wait_ne.2.1
  · rw [hd.talk]
    exact (h.booting_delivered hd).trans h.booting
  · rw [hd.talk]
    exact h.few

end deliver

/-! ### Waits -/

/-- A party is let go on. -/
theorem party_release (h : ∀ q, PartyOk env foreign x q)
    (howed : ∀ q req i, (x p).Owed foreign q req i →
      ({ x p with wait := .free } : Party).Owed foreign q req i)
    (hinbox : ∀ topic k, (x p).task.prog = .op (.recv topic) k → (x p).task.receiving = true →
      topic = .status ∨ topic = .termination)
    (hquiet : (x p).talk.asked = none ∨ (x p).task.receiving = false ∧ (x p).wait ≠ .gone) :
    ∀ q, PartyOk env foreign (update x p { x p with wait := .free }) q := by
  have hp := h p
  refine party_update h ?_ (fun q req i _ ho => howed q req i ho)
    fun _ q _ hw => absurd hw (by simp)
  constructor <;> rw [update_self]
  · exact hp.follows
  · exact hp.receiving
  · exact nofun
  · exact nofun
  · intro topic k hprog hgot
    rcases hinbox topic k hprog hgot.1 with rfl | rfl <;> trivial
  · exact fun q req hs => ⟨(hp.served q req hs).1, owed_update (howed _ _ _) (hp.served q req hs).2⟩
  · intro hforeign r req ha _ _ q hq
    rcases hquiet with hnone | ⟨hrecv, hgone⟩
    · exact absurd (hnone.symm.trans ha) (by simp)
    · refine hp.quiet hforeign r req ha (fun hc => ?_) hgone q (wait_of_update (by simp) hq)
      exact absurd (hrecv.symm.trans hc.1) (by simp)
  · exact hp.asker

/-- A message was posted to a process that does not exist. -/
theorem PartiesOk.drop (h : PartiesOk env foreign n alloc x) (hw : (x p).wait = .toSend r) :
    PartiesOk env foreign n alloc (update x p { x p with wait := .free }) := by
  have hrecv := ((h.party p).sending r hw).1
  refine h.change (party_release h.party
    (fun q req i ho => absurd ho ((h.party p).not_owed_sending hw))
    (fun topic k _ hr => absurd (hrecv.symm.trans hr) (by simp)) (Or.inr ⟨hrecv, by simp [hw]⟩))
    (h.born (by simp [hw]) (by simp [hw])) (fun _ => ⟨rfl, rfl, le_refl _, ?_⟩) fun _ => ?_
  · rw [Party.heard_of_not_receiving (a := { x p with wait := .free }) hrecv,
      Party.heard_of_not_receiving hrecv]
  · simp [Party.unsaid]

/-- `sys_recv` blocks. -/
theorem PartiesOk.block (h : PartiesOk env foreign n alloc x) (hfree : (x p).wait = .free)
    (hrecv : (x p).task.receiving = false) {topic : Topic} {k : ℤ × Msg → App Point}
    (hprog : (x p).task.prog = .op (.recv topic) k) :
    PartiesOk env foreign n alloc (update x p
      { x p with
        task := ⟨(x p).task.prog, true⟩
        wait := .toRecv }) := by
  have hp := h.party p
  have hlost : (x p).talk.lost = false := (hp.allows hprog).1.1
  have hgot : ¬ (x p).Got := fun hc => absurd (hrecv.symm.trans hc.1) (by simp)
  have howed : ∀ q req i, (x p).Owed foreign q req i →
      ({ x p with task := ⟨(x p).task.prog, true⟩, wait := .toRecv } : Party).Owed
        foreign q req i := by
    intro q req i ho
    obtain ⟨ha, hi, -⟩ := ho.asked hlost (Or.inl hrecv)
    exact Or.inr ⟨ha, hi, by simp, fun hc => absurd hc.2 (by simp)⟩
  refine h.change (party_update h.party ?_ (fun q req i _ ho => howed q req i ho)
    fun _ q _ hw => absurd hw (by simp)) (h.born (by simp [hfree]) (by simp [hfree]))
    (fun _ => ⟨rfl, rfl, le_refl _, ?_⟩) fun _ => ?_
  · constructor <;> rw [update_self]
    · exact hp.follows
    · exact fun _ => ⟨topic, k, hprog⟩
    · exact fun _ => rfl
    · exact nofun
    · exact fun _ _ _ hc => absurd hc.2 (by simp)
    · exact fun q req hs =>
        ⟨(hp.served q req hs).1, owed_update (howed _ _ _) (hp.served q req hs).2⟩
    · exact fun hforeign r req ha _ _ q hq =>
        hp.quiet hforeign r req ha hgot (by rw [hfree]; simp) q (wait_of_update (by simp) hq)
    · exact hp.asker
  · rw [Party.heard_of_not_free (by simp), Party.heard_of_not_receiving hrecv]
  · simp [Party.unsaid]

section take

variable {topic : Topic} {k : ℤ × Msg → App Point}

/-- Taking in a message does not start or set up a process. -/
theorem Talk.taken_spawned (t : Talk) (topic : Topic) (sender : ℤ) (m : Msg) :
    (t.taken topic sender m).spawned = t.spawned ∧
      (t.taken topic sender m).loading = t.loading := by
  unfold Talk.taken
  cases topic with
  | reply server req =>
    simp only
    split <;> exact ⟨rfl, rfl⟩
  | _ => exact ⟨rfl, rfl⟩

/-- Taking in a message leaves the boot messages that are due, or is one of them. -/
theorem Talk.taken_boots (t : Talk) (topic : Topic) (sender : ℤ) (m : Msg) :
    (t.taken topic sender m).boots = t.boots ∨
      topic = .boot ∧ (t.taken topic sender m).boots = t.boots - 1 := by
  unfold Talk.taken
  cases topic with
  | reply server req =>
    simp only
    split <;> exact Or.inl rfl
  | boot => exact Or.inr ⟨rfl, rfl⟩
  | _ => exact Or.inl rfl

/-- What comes next is what the protocol says, for a message that the party may be given. -/
theorem PartyOk.next_taken (h : PartyOk env foreign x p)
    (hprog : (x p).task.prog = .op (.recv topic) k) (hgot : (x p).Got) :
    (pairing env foreign p).next (x p).talk (.recv topic)
      ((x p).msg.sender, (x p).msg.content.body)
      ((x p).talk.taken topic (x p).msg.sender (x p).msg.content.body) := by
  have hin := h.inbox topic k hprog hgot
  cases topic with
  | reply server req =>
    rcases hin with ⟨hsender, -, -, hanswer⟩ | ⟨hforeign, hne⟩
    · exact Or.inl ⟨hsender, hanswer, if_pos hsender⟩
    · exact Or.inr ⟨hforeign, hne, if_neg hne⟩
  | _ => rfl

/-- Only a party that has lost its reply is still owed it. -/
theorem PartyOk.owed_taken (h : PartyOk env foreign x p)
    (hprog : (x p).task.prog = .op (.recv topic) k) (hgot : (x p).Got)
    (ho : (x p).Owed foreign q req i) : ((x p).taken topic k).Owed foreign q req i := by
  have hlost : (x p).talk.lost = false := (h.allows hprog).1.1
  rcases ho with ⟨hforeign, hl | ⟨r, req', hasked, -, -, hne⟩⟩ | ⟨-, -, -, hng⟩
  · rw [hlost] at hl
    cases hl
  · obtain ⟨⟨k', hprog'⟩, -⟩ := h.head hlost hasked
    cases hprog.symm.trans hprog'
    refine Or.inl ⟨hforeign, Or.inl ?_⟩
    change (Talk.taken _ _ _ _).lost = true
    rw [Talk.taken, if_neg hne]
  · exact absurd hgot hng

/-- The client of a request that has been taken in is owed its reply. -/
theorem PartyOk.served_taken (h : PartyOk env foreign x p)
    (hprog : (x p).task.prog = .op (.recv topic) k) (hgot : (x p).Got)
    (hs : ((x p).taken topic k).talk.serving = some (q, req)) :
    ((x p).taken topic k).serves.1 = q ∧
      (x q).Owed foreign p req ((x p).taken topic k).serves.2 := by
  have hin := h.inbox topic k hprog hgot
  cases topic with
  | reply server req' =>
    refine h.served q req ?_
    change (Talk.taken _ _ _ _).serving = _ at hs
    rw [Talk.taken] at hs
    split at hs <;> exact hs
  | request =>
    cases hs
    exact hin
  | _ => exact h.served q req hs

/-- A party that still asks after it has taken in a message got another's. -/
theorem PartyOk.asked_taken (h : PartyOk env foreign x p)
    (hprog : (x p).task.prog = .op (.recv topic) k) (hgot : (x p).Got)
    (ha : ((x p).taken topic k).talk.asked ≠ none) :
    (x p).talk.asked ≠ none ∧ foreign := by
  have hin := h.inbox topic k hprog hgot
  have hmay := (h.allows hprog).1.2
  cases topic with
  | reply server req =>
    refine ⟨by rw [hmay.1]; simp, ?_⟩
    rcases hin with ⟨hsender, -⟩ | ⟨hforeign, -⟩
    · refine absurd ?_ ha
      change (Talk.taken _ _ _ _).asked = none
      rw [Talk.taken, if_pos hsender]
      rfl
    · exact hforeign
  | _ => exact absurd hmay.1 ha

/-- `sys_recv` returns. -/
theorem PartiesOk.take (h : PartiesOk env foreign n alloc x) (hgot : (x p).Got)
    (hprog : (x p).task.prog = .op (.recv topic) k) :
    PartiesOk env foreign n alloc (update x p ((x p).taken topic k)) := by
  have hp := h.party p
  have hwait : ((x p).taken topic k).wait = .free := hgot.2
  have hheard : ((x p).taken topic k).heard = 0 := Party.heard_of_not_receiving rfl
  have hboots := Talk.taken_boots (x p).talk topic (x p).msg.sender (x p).msg.content.body
  refine h.change (party_update h.party ?_ (fun q req i _ ho => hp.owed_taken hprog hgot ho)
    fun _ q _ hw => absurd (hwait.symm.trans hw) (by simp))
    (h.born (by simp [hgot.2]) (by simp [hgot.2])) (fun _ => ?_) fun _ => ?_
  · constructor <;> rw [update_self]
    · exact (hp.allows hprog).2 _ _ (hp.next_taken hprog hgot)
    · exact nofun
    · exact fun hw => absurd (hwait.symm.trans hw) (by simp)
    · exact fun _ hw => absurd (hwait.symm.trans hw) (by simp)
    · exact fun _ _ _ hc => absurd hc.1 (by simp [Party.taken])
    · intro q req hs
      obtain ⟨htag, ho⟩ := hp.served_taken hprog hgot hs
      exact ⟨htag, owed_update (hp.owed_taken hprog hgot) ho⟩
    · exact fun hforeign r req ha =>
        absurd (hp.asked_taken hprog hgot (by rw [ha]; simp)).2 hforeign
    · exact fun ha => hp.asker (hp.asked_taken hprog hgot ha).1
  · obtain ⟨hspawned, hloading⟩ :=
      Talk.taken_spawned (x p).talk topic (x p).msg.sender (x p).msg.content.body
    refine ⟨hspawned, hloading, ?_, ?_⟩
    · change (Talk.taken _ _ _ _).boots ≤ _
      omega
    · rw [hheard, Nat.zero_add]
      change _ ≤ _ + (Talk.taken _ _ _ _).boots
      rcases hboots with hb | ⟨rfl, hb⟩
      · omega
      · have : (x p).heard = 1 := by
          rw [Party.heard, hgot.1, hgot.2, hprog]
        omega
  · have h0 : (x p).unsaid = (x p).talk.boots := by simp [Party.unsaid, hgot.2]
    have h1 : ((x p).taken topic k).unsaid
        = ((x p).talk.taken topic (x p).msg.sender (x p).msg.content.body).boots := by
      simp [Party.unsaid, Party.taken, hgot.2]
    omega

end take

end Egos.Apps
