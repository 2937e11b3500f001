import Egos.Apps.Parties

/-!
# Processes that start and end

The moves that do not send or receive: a process runs up to its next call, `GPID_PROCESS` sets up a
process or frees one, and Ctrl+C kills the current process and wakes the shell. A process that has
not started has said nothing, and nothing is owed to it; of a process that has ended, the requests
stay where they are.
-/

namespace Egos.Apps

open Egos.Grass
open Function (update update_self update_of_ne)

variable {env : Env} {foreign : Prop} {x : ℤ → Party} {b : Party} {p n : ℤ} {alloc : Option ℤ}

/-- The current process goes on. -/
theorem PartiesOk.advance (h : PartiesOk env foreign n alloc x) (hfree : (x p).wait = .free)
    (hasked : (x p).talk.asked = none) (hlost : (x p).talk.lost = false) {prog : App Point}
    (hf : prog.Follows (pairing env foreign p) (Home p) (x p).talk) :
    PartiesOk env foreign n alloc (update x p { x p with task := ⟨prog, false⟩ }) := by
  refine h.change (party_advance h.party hfree hasked hlost hf rfl hasked)
    (h.born (by simp [hfree]) (by simp [hfree])) (fun _ => ⟨rfl, rfl, le_refl _, ?_⟩)
    fun _ => le_refl _
  rw [Party.heard_of_not_receiving (a := { x p with task := ⟨prog, false⟩ }) rfl, Nat.zero_add]
  exact Nat.le_add_left _ _

/-! ## Starting -/

theorem Party.unsaid_of_wait {a : Party} (h : ∀ r, a.wait ≠ .toSend r) :
    a.unsaid = a.talk.boots := by
  unfold unsaid
  split
  · exact absurd ‹_› (h _)
  · rfl

/-- A process that has not started is changed. -/
theorem party_start (h : ∀ q, PartyOk env foreign x q) (htalk : (x p).talk = .initial p)
    (hb : b.talk = .initial p) (hrecv : b.task.receiving = false)
    (hf : b.task.prog.Follows (pairing env foreign p) (Home p) (.initial p))
    (hwait : b.wait = .gone ∨ b.wait = .loading ∨ b.wait = .free) :
    ∀ q, PartyOk env foreign (update x p b) q := by
  have hsend : ∀ r, b.wait ≠ .toSend r := by
    rcases hwait with hw | hw | hw <;> simp [hw]
  refine party_update h ?_ (fun q req i _ ho => ?_) fun _ q _ hw => absurd hw (hsend q)
  · constructor <;> rw [update_self]
    · rw [hb]
      exact hf
    · exact fun hr => absurd (hrecv.symm.trans hr) (by simp)
    · exact fun hw => absurd hw (by rcases hwait with hw | hw | hw <;> simp [hw])
    · exact fun r hw => absurd hw (hsend r)
    · exact fun _ _ _ hgot => absurd (hrecv.symm.trans hgot.1) (by simp)
    · exact fun q req hs => absurd hs (by simp [hb, Talk.initial])
    · exact fun _ r req ha => absurd ha (by simp [hb, Talk.initial])
    · exact fun ha => absurd ha (by simp [hb, Talk.initial])
  · exact absurd ho (Party.not_owed (by rw [htalk]; rfl) (by rw [htalk]; rfl))

/-- `GPID_PROCESS` goes on after an operation on process `p`, which has not started. -/
theorem PartiesOk.control (h : PartiesOk env foreign n alloc x)
    (hfree : (x gpidProcess).wait = .free) {o : SysOp} {k : o.Res → App Point} {result : o.Res}
    {t : Talk} (hprog : (x gpidProcess).task.prog = .op o k)
    (hnext : (pairing env foreign gpidProcess).next (x gpidProcess).talk o result t)
    (hasked : (x gpidProcess).talk.asked = none) {n' : ℤ} {alloc' : Option ℤ}
    (ht : t = { (x gpidProcess).talk with spawned := n', loading := alloc' })
    (hp : p ≠ gpidProcess) (htalk : (x p).talk = .initial p)
    (hwait : ∀ r, (x p).wait ≠ .toSend r) (hb : b.talk = .initial p)
    (hrecv : b.task.receiving = false)
    (hf : b.task.prog.Follows (pairing env foreign p) (Home p) (.initial p))
    (hbwait : b.wait = .gone ∨ b.wait = .loading ∨ b.wait = .free)
    (hlast : ∀ q, alloc' = some q → q = n')
    (hunborn : ∀ q, n' < q ∨ alloc' = some q →
      (n < q ∨ alloc = some q) ∧ (q = p → b.wait ≠ .free))
    (hfew : (x gpidProcess).talk.boots = 0 ∨ n' + (x gpidProcess).talk.boots ≤ 4) :
    PartiesOk env foreign n' alloc' (update (update x gpidProcess
      { x gpidProcess with task := ⟨k result, false⟩, talk := t }) p b) := by
  obtain ⟨⟨hlost, -⟩, hk⟩ := (h.party gpidProcess).allows hprog
  have hadvance := party_advance h.party hfree hasked hlost (hk _ _ hnext) (by rw [ht])
    (by rw [ht]; exact hasked)
  generalize ha : ({ x gpidProcess with task := ⟨k result, false⟩, talk := t } : Party) = a
    at hadvance ⊢
  have hatalk : a.talk = { (x gpidProcess).talk with spawned := n', loading := alloc' } := by
    rw [← ha]
    exact ht
  have haheard : a.heard = 0 := Party.heard_of_not_receiving (by rw [← ha])
  have hparty := party_start hadvance (by rw [update_of_ne hp]; exact htalk) hb hrecv hf hbwait
  have hproc : update (update x gpidProcess a) p b gpidProcess = a :=
    (update_of_ne hp.symm _ _).trans (update_self _ _ _)
  have hunsaid : ∀ q, q ≠ gpidProcess →
      (update (update x gpidProcess a) p b q).unsaid = (x q).unsaid := by
    intro q hq
    by_cases hqp : q = p
    · rw [hqp, update_self, Party.unsaid_of_wait hwait, Party.unsaid_of_wait, hb, htalk]
      rcases hbwait with hw | hw | hw <;> simp [hw]
    · rw [update_of_ne hqp, update_of_ne hq]
  refine ⟨hparty, ?_, ?_, hlast, fun q hq => ?_, ?_, ?_⟩
  · rw [hproc, hatalk]
  · rw [hproc, hatalk]
  · obtain ⟨hold, hnot⟩ := hunborn q hq
    by_cases hqp : q = p
    · rw [hqp, update_self]
      exact ⟨hb, hrecv, hbwait.imp_right fun hw => hw.resolve_right (hnot hqp)⟩
    · rw [update_of_ne hqp, update_of_ne]
      · exact h.unborn q hold
      · rintro rfl
        exact h.born (by simp [hfree]) (by simp [hfree]) hold
  · rw [hunsaid _ (by decide), hunsaid _ (by decide), hproc, haheard, hatalk]
    exact (Nat.add_le_add_left (Nat.zero_le _) _).trans h.booting
  · rw [hproc, hatalk]
    exact hfew

/-! ## Ending -/

section ended

variable {D : ℤ → Prop} [DecidablePred D]

/-- What is owed to a process is owed to it after its end, too. -/
theorem owed_ended {r : ℤ} {req : Msg} {i : ℕ} (ho : (x p).Owed foreign r req i) :
    (ended D x p).Owed foreign r req i := by
  by_cases hp : D p
  · rw [ended_of hp]
    rcases ho with ⟨hforeign, hl | ⟨r', req', ha, hr, -, hs⟩⟩ | ⟨ha, hi, -, -⟩
    · exact Or.inl ⟨hforeign, Or.inl hl⟩
    · exact Or.inl ⟨hforeign, Or.inr ⟨r', req', ha, hr, by simp, hs⟩⟩
    · exact Or.inr ⟨ha, hi, by simp, fun hc => absurd hc.2 (by simp)⟩
  · rwa [ended_of_not hp]

/-- The end of user processes keeps the invariant. -/
theorem PartiesOk.vanish (h : PartiesOk env foreign n alloc x) (hD : ∀ q, D q → gpidUserStart ≤ q) :
    PartiesOk env foreign n alloc (ended D x) := by
  have hsys : ∀ q, q < gpidUserStart → ended D x q = x q :=
    fun q hq => ended_of_not fun hd => absurd (hD q hd) (not_le.2 hq)
  have hwait : ∀ q r, (ended D x q).wait = .toSend r → (x q).wait = .toSend r := by
    intro q r hw
    by_cases hq : D q
    · rw [ended_of hq] at hw
      cases hw
    · rwa [ended_of_not hq] at hw
  refine ⟨fun q => ?_, ?_, ?_, h.last, fun q hq => ?_, ?_, ?_⟩
  · by_cases hq : D q
    · have hq' := h.party q
      constructor <;> rw [ended_of hq]
      · exact hq'.follows
      · exact hq'.receiving
      · exact nofun
      · exact nofun
      · exact fun _ _ _ hc => absurd hc.2 (by simp)
      · exact fun z req hs => ⟨(hq'.served z req hs).1, owed_ended (hq'.served z req hs).2⟩
      · exact fun _ _ _ _ _ hgone => absurd rfl hgone
      · exact hq'.asker
    · exact (h.party q).congr (ended_of_not hq) (fun z req i => owed_ended)
        fun _ _ _ _ _ _ z hz => Or.inl (hwait z q hz)
  · rw [hsys gpidProcess (by decide)]
    exact h.spawned
  · rw [hsys gpidProcess (by decide)]
    exact h.loading
  · by_cases hd : D q
    · rw [ended_of hd]
      exact ⟨(h.unborn q hq).1, (h.unborn q hq).2.1, Or.inl rfl⟩
    · rw [ended_of_not hd]
      exact h.unborn q hq
  · rw [hsys gpidFile (by decide), hsys gpidDir (by decide), hsys gpidProcess (by decide)]
    exact h.booting
  · rw [hsys gpidProcess (by decide)]
    exact h.few

end ended

/-- The shell is woken, whatever it waits for. -/
theorem PartiesOk.wake (h : PartiesOk env foreign n alloc x)
    (hborn : ¬ (n < gpidShell ∨ alloc = some gpidShell)) :
    PartiesOk env foreign n alloc
      (update x gpidShell { x gpidShell with wait := .free }) := by
  have hs := h.party gpidShell
  have hasked : (x gpidShell).talk.asked = none := by
    by_contra ha
    exact hs.asker ha rfl
  refine h.change (party_release h.party (fun q req i ho => ?_) (fun topic k hprog _ => ?_)
    (Or.inl hasked)) hborn (fun hc => absurd hc (by decide)) fun hserver => ?_
  · rcases ho with ⟨hforeign, hl | ⟨_, _, ha, -⟩⟩ | ⟨ha, -⟩
    · exact Or.inl ⟨hforeign, Or.inl hl⟩
    · exact absurd (hasked.symm.trans ha) (by simp)
    · exact absurd (hasked.symm.trans ha) (by simp)
  · have hmay := (hs.allows hprog).1.2
    cases topic with
    | status => exact Or.inl rfl
    | termination => exact Or.inr rfl
    | reply server req => exact absurd rfl hmay.2.2.2
    | request => exact absurd hmay.2.1.le (by decide)
    | boot => exact absurd hmay.2.1 (by decide)
    | command => exact absurd hmay.2.1 (by decide)
  · exact absurd hserver.le (by decide)

end Egos.Apps
