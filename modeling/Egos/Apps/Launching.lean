import Egos.Apps.ShellProtocol

/-!
# `GPID_PROCESS` does not stop

`GPID_PROCESS` stops in `FATAL` when it is given another message in place of the reply of a server,
when a request is none of the three, and when `elf_load` meets a segment for neither the kernel nor
an application. Here it is told only what it may be told (`Granted`), and the commands that it is
asked to start can be loaded (`Launches`). Then it comes back to its loop from wherever it is. The
invariant `StaysUp` says so of the programs and the letters as they stand.
-/

namespace Egos.Apps

open Egos.Grass Egos.Library
open Egos.File (Block nullBlock)
open Function (update update_self update_of_ne)

/-! ## What `GPID_PROCESS` may be told -/

/-- The file system does not panic on a read. -/
def FsOk (env : Env) : Prop := ∀ ino offset, ∃ r, env.fs ino offset = .ok r

/-- The block that `file_read` gives. -/
def Env.block (env : Env) (fileIno offset : ℤ) : Block :=
  match fileReply env.fs (fileReadRequest fileIno offset) with
  | .ok reply => reply.fileResult.2
  | .error _ => nullBlock

/-- What `dir_lookup` gives. -/
def Env.lookup (env : Env) (dirIno : ℤ) (name : List UInt8) : ℤ := dirScan (env.block dirIno 0) name

/-- The segments of an executable, of which `buf` is the first block, are for the kernel or for an
application. -/
def SegmentsOk (buf : Memory) : Prop :=
  ∀ i < ePhnum buf, (programHeader buf i).pMemsz = 0 ∨
    (programHeader buf i).pVaddr = Earth.grassEntry ∨ (programHeader buf i).pVaddr = appsEntry

/-- The command of a request is not found in `bin/`, or can be loaded. -/
def Launches (env : Env) (m : Msg) : Prop :=
  let appIno := env.lookup (env.lookup 0 binDir) m.command
  appIno < 0 ∨ SegmentsOk (blockBuf (env.block appIno 0))

instance (buf : Memory) : Decidable (SegmentsOk buf) :=
  inferInstanceAs (Decidable (∀ i < _, _ ∨ _ ∨ _))

instance (env : Env) (m : Msg) : Decidable (Launches env m) :=
  inferInstanceAs (Decidable (_ ∨ _))

/-- What `GPID_PROCESS` may be given by a call: the reply of the server that it has asked, and a
request that it can serve. -/
def Granted (env : Env) : (o : SysOp) → o.Res → Prop
  | .recv (.reply server req), (sender, m) => sender = server ∧ Answers env server req m
  | .recv .command, (_, m) =>
    m.word = procSpawn ∧ Launches env m ∨ m.word = procExit ∨ m.word = procKillall
  | _, _ => True

/-! ## The programs come to their end -/

section programs

variable {env : Env}

/-- `GPID_FILE` replies to every request. -/
theorem fileReply_ok (h : FsOk env) (req : Msg) : ∃ reply, fileReply env.fs req = .ok reply := by
  obtain ⟨⟨r, block⟩, hr⟩ := h req.fileArgs.1 req.fileArgs.2
  exact ⟨_, by rw [fileReply, hr]⟩

/-- A call of a server, as `dir_lookup` and `file_read` make it. -/
theorem returns_ask {β : Type} {server : ℤ} {req : Msg} {e : Fatal} {f : Msg → App β} {Q : β → Prop}
    (hanswer : ∃ reply, Answers env server req reply)
    (hf : ∀ reply, Answers env server req reply → (f reply).Returns (Granted env) Q) :
    (do
      sysSend .request server req
      let x ← sysRecv (.reply server req)
      if x.1 ≠ server then .stop e else f x.2 : App β).Returns (Granted env) Q := by
  obtain ⟨reply, hreply⟩ := hanswer
  refine Prog.Returns.call ⟨(), trivial⟩ fun _ _ =>
    Prog.Returns.call ⟨(server, reply), rfl, hreply⟩ ?_
  rintro ⟨sender, m⟩ ⟨rfl, hm⟩
  rw [if_neg fun hc => hc rfl]
  exact hf m hm

/-- `file_read` returns with the block. -/
theorem returns_fileRead (h : FsOk env) (fileIno offset : ℤ) :
    (fileRead fileIno offset).Returns (Granted env) (fun x => x.2 = env.block fileIno offset) := by
  obtain ⟨reply, hreply⟩ := fileReply_ok h (fileReadRequest fileIno offset)
  refine returns_ask (e := .fileRead) (f := fun m => pure m.fileResult) ⟨reply, ?_⟩ fun m hm => ?_
  · rwa [Answers, if_pos rfl]
  · rw [Answers, if_pos rfl] at hm
    simp only [Env.block, hm]
    exact rfl

/-- `dir_lookup` returns with the inode. -/
theorem returns_dirLookup (h : FsOk env) (dirIno : ℤ) (name : List UInt8) :
    (dirLookup dirIno name).Returns (Granted env) (fun ino => ino = env.lookup dirIno name) := by
  obtain ⟨reply, hreply⟩ := fileReply_ok h (fileReadRequest dirIno 0)
  refine returns_ask (e := .dirLookup) (f := fun m => pure m.dirResult)
    ⟨dirReply (dirScan reply.fileResult.2 name), ?_⟩ fun m hm => ?_
  · rw [Answers, if_neg (by decide)]
    exact ⟨reply, hreply, rfl⟩
  · rw [Answers, if_neg (by decide)] at hm
    obtain ⟨r, hr, rfl⟩ := hm
    change (dirReply _).dirResult = _
    have hr : fileReply env.fs (fileReadRequest dirIno 0) = .ok r := hr
    rw [dirResult_dirReply, Env.lookup, Env.block, hr]
    rfl

section elf

variable {reader : ℤ → App Block}

/-- Reading some blocks returns if the reader does. -/
theorem returns_elfReadBlocks (hr : ∀ off, (reader off).Returns (Granted env) fun _ => True) :
    ∀ n off : ℕ, (elfReadBlocks reader n off).Returns (Granted env) fun _ => True
  | 0, _ => trivial
  | n + 1, off => (hr _).bind fun _ _ => returns_elfReadBlocks hr n (off + 1)

/-- So does reading a segment for the kernel or for an application. -/
theorem returns_elfReadSegment (hr : ∀ off, (reader off).Returns (Granted env) fun _ => True)
    {buf : Memory} (hok : SegmentsOk buf) {i : ℕ} (hi : i < ePhnum buf) :
    (elfReadSegment reader buf i).Returns (Granted env) fun _ => True := by
  have hsegment := hok i hi
  rw [elfReadSegment]
  generalize programHeader buf i = ph at hsegment ⊢
  split_ifs with hsize haddr
  · trivial
  · exact returns_elfReadBlocks hr _ _
  · exact absurd (hsegment.resolve_left hsize) haddr

/-- So does reading all segments. -/
theorem returns_elfReadSegments (hr : ∀ off, (reader off).Returns (Granted env) fun _ => True)
    {buf : Memory} (hok : SegmentsOk buf) :
    ∀ n i : ℕ, i + n ≤ ePhnum buf →
      (elfReadSegments reader buf n i).Returns (Granted env) fun _ => True
  | 0, _, _ => trivial
  | n + 1, i, hi => by
    rw [elfReadSegments]
    exact (returns_elfReadSegment hr hok (by omega)).bind fun _ _ =>
      returns_elfReadSegments hr hok n (i + 1) (by omega)

end elf

/-- `app_spawn` of a command that is not found or can be loaded. -/
theorem returns_appSpawn (h : FsOk env) {m : Msg} (hm : Launches env m) :
    (appSpawn m).Returns (Granted env) fun _ => True := by
  refine (returns_dirLookup h _ _).bind fun binIno hbin => ?_
  refine (returns_dirLookup h _ _).bind fun appIno happ => ?_
  rw [hbin] at happ
  split
  next => trivial
  next hfound =>
    have hok := hm.resolve_left (happ ▸ hfound)
    rw [← happ] at hok
    refine Prog.Returns.call ⟨0, trivial⟩ fun pid _ => ?_
    have hreader (off : ℤ) : (Prod.snd <$> fileRead appIno off : App Block).Returns (Granted env)
        fun block => block = env.block appIno off :=
      (returns_fileRead h appIno off).bind fun _ hx => hx
    refine Prog.Returns.bind (S := fun _ => True) ?_ fun _ _ =>
      ⟨⟨(), trivial⟩, fun _ _ => ⟨⟨(), trivial⟩, fun _ _ => trivial⟩⟩
    refine (hreader 0).bind fun block hblock => ?_
    rw [hblock]
    refine returns_elfReadSegments (fun off => ?_) hok _ 0 (by omega)
    exact (returns_fileRead h appIno off).bind fun _ _ => trivial

/-- A round of `GPID_PROCESS` comes back to the loop. -/
theorem returns_procServe (h : FsOk env) (appPid : ℤ) (shellWaiting : Bool) (stray : UInt8) :
    (procServe appPid shellWaiting stray).Returns (Granted env) fun _ => True := by
  refine Prog.Returns.call ⟨(0, .proc procKillall 0 fun _ _ => 0), .inr (.inr rfl)⟩ ?_
  rintro ⟨sender, m⟩ hm
  dsimp only
  rcases hm with ⟨hword, hm⟩ | hword | hword
  · rw [if_pos hword]
    exact (returns_appSpawn h hm).bind fun _ _ => ⟨⟨(), trivial⟩, fun _ _ => trivial⟩
  · rw [if_neg (by rw [hword]; decide), if_pos hword]
    refine Prog.Returns.call ⟨(), trivial⟩ fun _ _ => ?_
    split
    · exact ⟨⟨(), trivial⟩, fun _ _ => trivial⟩
    · trivial
  · rw [if_neg (by rw [hword]; decide), if_neg (by rw [hword]; decide), if_pos hword]
    exact ⟨⟨(), trivial⟩, fun _ _ => trivial⟩

end programs

/-! ## The invariant -/

/-- `GPID_PROCESS` comes back to its loop, and a command that the shell waits to send can be
launched. -/
structure StaysUp (env : Env) (x : ℤ → Party) : Prop where
  returns : (x gpidProcess).pending.Returns (Granted env) fun _ => True
  command : ∀ topic m, (x gpidShell).letterTo gpidProcess = some (topic, m) →
    m.word = procSpawn → Launches env m

variable {env : Env} {x x' : ℤ → Party} {p q r n n' : ℤ} {alloc alloc' : Option ℤ} {a : Move}
  {g : Ghost} {topic : Topic} {k : ℤ × Msg → App Point}

/-- `GPID_PROCESS` is not in `FATAL`. -/
theorem StaysUp.alive (h : StaysUp env x) (e : Fatal) : (x gpidProcess).pending ≠ .stop e := by
  intro hstop
  have hreturns := h.returns
  rw [hstop] at hreturns
  exact hreturns

/-- One party changes. -/
theorem StaysUp.change (h : StaysUp env x) {b : Party}
    (hproc : p = gpidProcess → b.pending.Returns (Granted env) fun _ => True)
    (hshell : p = gpidShell → ∀ topic m, b.letterTo gpidProcess = some (topic, m) →
      m.word = procSpawn → Launches env m) : StaysUp env (update x p b) := by
  constructor
  · by_cases hp : p = gpidProcess
    · rw [hp, update_self]
      exact hproc hp
    · rw [update_of_ne (Ne.symm hp)]
      exact h.returns
  · by_cases hp : p = gpidShell
    · rw [hp, update_self]
      exact hshell hp
    · rw [update_of_ne (Ne.symm hp)]
      exact h.command

/-- A party that sends nothing changes. -/
theorem StaysUp.silent (h : StaysUp env x) {b : Party} (hb : ∀ r, b.wait ≠ .toSend r)
    (hproc : p = gpidProcess → b.pending.Returns (Granted env) fun _ => True) :
    StaysUp env (update x p b) :=
  h.change hproc fun _ topic m hm => by
    rw [letterTo_eq_none hb] at hm
    cases hm

/-- Some user processes end. -/
theorem StaysUp.ended (h : StaysUp env x) {D : ℤ → Prop} [DecidablePred D]
    (hD : ∀ q, D q → gpidUserStart ≤ q) : StaysUp env (ended D x) := by
  have hproc : Apps.ended D x gpidProcess = x gpidProcess :=
    ended_of_not fun hd => absurd (hD _ hd) (by decide)
  have hshell : Apps.ended D x gpidShell = x gpidShell :=
    ended_of_not fun hd => absurd (hD _ hd) (by decide)
  exact ⟨by rw [hproc]; exact h.returns, by rw [hshell]; exact h.command⟩

/-- `GPID_PROCESS` goes on with a result that it may be given. -/
theorem StaysUp.next (h : StaysUp env x) (hx : PartyOk env True x gpidProcess) {o : SysOp}
    {k : o.Res → App Point} (hprog : (x gpidProcess).task.prog = .op o k)
    (ho : ∀ topic, o ≠ .recv topic) {result : o.Res} (hresult : Granted env o result) :
    (k result).Returns (Granted env) fun _ => True := by
  have hrecv : (x gpidProcess).task.receiving = false := hx.not_receiving fun topic _ hc => by
    rw [hprog] at hc
    cases hc
    exact ho topic rfl
  have hreturns := h.returns
  rw [Party.pending_of_not_receiving hrecv, hprog] at hreturns
  exact hreturns.2 result hresult

/-- `GPID_PROCESS` makes a call that is not one of `sys_recv`. -/
theorem StaysUp.proceed (h : StaysUp env x) (hx : PartyOk env True x gpidProcess) {o : SysOp}
    {k : o.Res → App Point} (hprog : (x gpidProcess).task.prog = .op o k)
    (hfree : (x gpidProcess).wait = .free) (ho : ∀ topic, o ≠ .recv topic) {result : o.Res}
    (hresult : Granted env o result) (t : Talk) : StaysUp env
      (update x gpidProcess { x gpidProcess with task := ⟨k result, false⟩, talk := t }) := by
  refine h.silent (by simp [hfree]) fun _ => ?_
  rw [Party.pending_of_not_receiving rfl]
  exact h.next hx hprog ho hresult

/-- `GPID_PROCESS` in its loop has some `app_pid` and `shell_waiting`. -/
theorem Home.point_process {t : Talk} {point : Point} (h : Home gpidProcess t point) :
    ∃ appPid waiting, point = .process appPid waiting := by
  have hown := h.own
  cases point with
  | process appPid waiting => exact ⟨appPid, waiting, rfl⟩
  | shell => exact absurd (show gpidProcess = gpidShell from hown) (by decide)
  | file => exact absurd (show gpidProcess = gpidFile from hown) (by decide)
  | dir => exact absurd (show gpidProcess = gpidDir from hown) (by decide)
  | user => exact absurd (show gpidUserStart ≤ gpidProcess from hown) (by decide)

/-- The message that is given to `GPID_PROCESS` is one that it may be given, if replies are. -/
theorem StaysUp.granted (h : StaysUp env x) (hconv : Conversation n alloc (view x) g)
    (hx : PartiesOk env True n alloc x) (hd : Delivers x q gpidProcess topic k)
    (hreply : ∀ server req, topic = .reply server req →
      (x q).msg.sender = server ∧ Answers env server req (x q).msg.content.body) :
    Granted env (.recv topic) ((x q).msg.sender, (x q).msg.content.body) := by
  cases topic with
  | reply server req => exact hreply server req rfl
  | command =>
    have hserver : ¬ IsServer gpidProcess := fun hs => absurd hs.le (by decide)
    rcases hx.delivery hd hserver with ⟨-, -, hc⟩ | ⟨-, hq, -⟩ | ⟨hc, -⟩
    · exact absurd rfl hc
    · -- the sender is the shell or a user process
      have hletter := Party.letterTo_of gpidProcess hd.sends
      by_cases h4 : q = gpidShell
      · subst h4
        rcases hconv.command _ _ hletter with ⟨hspawn, -⟩ | ⟨hkill, -⟩
        · exact .inl ⟨hspawn.word, h.command _ _ hletter hspawn.word⟩
        · exact .inr (.inr hkill)
      · have h5 : gpidUserStart ≤ q := by
          have hq : (4 : ℤ) ≤ q := hq
          have h4 : q ≠ 4 := h4
          show (5 : ℤ) ≤ q
          omega
        have hexit : (view x).exit q = some _ := (if_pos h5).trans hletter
        exact .inr (.inl (hconv.exit q h5 _ _ hexit).1)
    · exact absurd hc (by decide)
  | _ => trivial

/-- A message is delivered. -/
theorem StaysUp.deliver (h : StaysUp env x) (hx : PartiesOk env True n alloc x)
    (hd : Delivers x q r topic k)
    (hgrant : r = gpidProcess →
      Granted env (.recv topic) ((x q).msg.sender, (x q).msg.content.body)) :
    StaysUp env (delivered x q r) := by
  have hsender : StaysUp env (update x q { x q with wait := .free }) := by
    refine h.silent (by simp) ?_
    rintro rfl
    rw [Party.pending_released ((hx.party _).sending r hd.sends).1]
    exact h.returns
  refine hsender.silent (by simp) ?_
  rintro rfl
  have hreturns := h.returns
  rw [Party.pending_of_not_got hd.not_got, hd.prog] at hreturns
  have hgot := Party.pending_of_got (a := { x gpidProcess with
    task := ⟨(x gpidProcess).task.prog, true⟩, wait := .free, msg := (x q).msg }) hd.prog ⟨rfl, rfl⟩
  rw [hgot]
  exact hreturns.2 _ (hgrant rfl)

/-- A message is delivered, and `GPID_PROCESS` gets no other one in place of a reply. -/
theorem StaysUp.delivers (h : StaysUp env x) (hx : PartiesOk env True n alloc x)
    (hconv : r = gpidProcess → ∃ g, Conversation n alloc (view x) g) (hd : Delivers x q r topic k)
    (hreply : ∀ server req k,
      (delivered x q r gpidProcess).task.prog = .op (.recv (.reply server req)) k →
      (delivered x q r gpidProcess).Got → (delivered x q r gpidProcess).msg.sender = server ∧
        Answers env server req (delivered x q r gpidProcess).msg.content.body) :
    StaysUp env (delivered x q r) := by
  refine h.deliver hx hd ?_
  rintro rfl
  obtain ⟨g, hconv⟩ := hconv rfl
  refine h.granted hconv hx hd ?_
  rintro server req rfl
  rw [delivered_receiver] at hreply
  exact hreply server req k hd.prog ⟨rfl, rfl⟩

/-- A message is posted, which can be launched if it is a command of the shell. -/
theorem StaysUp.post (h : StaysUp env x) (hx : PartyOk env True x gpidProcess) {m : Msg}
    {k : Unit → App Point} (hprog : (x p).task.prog = .op (.send topic r m) k)
    (hcommand : p = gpidShell → m.word = procSpawn → Launches env m) :
    StaysUp env (update x p ((x p).posted p topic r m (k ()))) := by
  refine h.change ?_ fun hp topic' m' hm' => ?_
  · rintro rfl
    rw [Party.pending_of_not_receiving rfl]
    exact h.next hx hprog (by simp) trivial
  · rw [Party.letterTo] at hm'
    split at hm'
    · cases hm'
      exact hcommand hp
    · cases hm'

/-- Every move of the parties keeps the invariant, if a command that the shell sends can be launched
and `GPID_PROCESS` is given no other message in place of a reply. -/
theorem StaysUp.move (h : StaysUp env x) (hfs : FsOk env)
    (hconv : Conversation n alloc (view x) g) (hx : PartiesOk env True n alloc x)
    (hfree : (x p).wait = .free) (hle : p ≤ n)
    (halloc : ∀ q, alloc = some q → gpidProcess < q)
    (hcommand : ∀ choice topic r m k, a = .run choice → p = gpidShell →
      (x p).task.prog = .op (.send topic r m) k → m.word = procSpawn → Launches env m)
    (hreply : ∀ server req k, (x' gpidProcess).task.prog = .op (.recv (.reply server req)) k →
      (x' gpidProcess).Got → (x' gpidProcess).msg.sender = server ∧
        Answers env server req (x' gpidProcess).msg.content.body)
    (hmove : PartyMove env n alloc x p a n' alloc' x') : StaysUp env x' := by
  have hproc := hx.party gpidProcess
  have hnone : ∀ r, (x p).wait ≠ .toSend r := by simp [hfree]
  cases hmove with
  | @loop choice point hprog =>
    refine h.silent hnone ?_
    rintro rfl
    have hhome := hproc.follows
    rw [hprog] at hhome
    obtain ⟨appPid, waiting, rfl⟩ := Home.point_process hhome
    rw [Party.pending_of_not_receiving rfl]
    exact returns_procServe hfs appPid waiting choice.stray
  | lost hprog _ =>
    refine h.silent (by simp) ?_
    rintro rfl
    rw [Party.pending_of_not_receiving rfl]
    exact h.next hproc hprog (by simp) trivial
  | @posted choice topic r m k hprog _ =>
    exact h.post hproc hprog fun hp => hcommand choice topic r m k rfl hp hprog
  | @sent choice topic r m k hprog hr =>
    have hpr : r ≠ p := by
      rintro rfl
      rw [hfree] at hr
      cases hr
    obtain ⟨topic', k', hprog'⟩ := (hx.party r).receiving ((hx.party r).waiting hr)
    have hd : Delivers (update x p ((x p).posted p topic r m (k ()))) p r topic' k' := by
      refine ⟨?_, ?_, Or.inr ?_⟩
      · rw [update_self]
        rfl
      · rwa [update_of_ne hpr]
      · rwa [update_of_ne hpr]
    have hpost := h.post hproc hprog fun hp => hcommand choice topic r m k rfl hp hprog
    refine hpost.delivers (hx.post hfree hprog fun hf => absurd trivial hf) ?_ hd hreply
    rintro rfl
    exact hconv.posts hx hfree hprog fun hp => absurd hp.symm hpr
  | blocked hprog hrecv _ =>
    refine h.silent (by simp) ?_
    rintro rfl
    have hreturns := h.returns
    rw [Party.pending_of_not_receiving hrecv] at hreturns
    rwa [Party.pending_of_not_got fun hc => absurd hc.2 (by simp)]
  | @given choice topic k q hprog hrecv hq =>
    have hd : Delivers x q p topic k := ⟨hq, hprog, Or.inl ⟨hfree, hrecv⟩⟩
    exact h.delivers hx (fun _ => ⟨g, hconv⟩) hd hreply
  | @taken choice topic k hprog hrecv =>
    refine h.silent hnone ?_
    rintro rfl
    have hreturns := h.returns
    rw [Party.pending_of_got hprog ⟨hrecv, hfree⟩] at hreturns
    rw [Party.pending_of_not_receiving rfl]
    exact hreturns
  | alloc hp hprog =>
    subst hp
    have hne : n + 1 ≠ gpidProcess := by
      have : (1 : ℤ) ≤ n := hle
      show n + 1 ≠ 1
      omega
    exact (h.proceed hproc hprog hfree (by simp) trivial _).silent (by simp) fun he => absurd he hne
  | @ready choice pid k w hp hprog hpid hw =>
    subst hp
    have hne : pid ≠ gpidProcess := ne_of_gt (halloc pid hpid)
    refine (h.proceed hproc hprog hfree (by simp) trivial _).change (fun he => absurd he hne)
      fun he topic m hm => ?_
    subst he
    rcases hw with rfl | rfl
    · rw [letterTo_eq_none (by simp)] at hm
      cases hm
    · exact h.command topic m hm
  | @load choice pid image k hprog =>
    obtain ⟨⟨-, -, hp, hloading, -⟩, -⟩ := (hx.party p).allows hprog
    subst hp
    have hne : pid ≠ gpidProcess := ne_of_gt (halloc pid (hx.loading.symm.trans hloading))
    refine (h.proceed hproc hprog hfree (by simp) trivial (x gpidProcess).talk).change
      (fun he => absurd he hne) fun he topic m hm => ?_
    subst he
    rw [update_of_ne hne] at hm
    exact h.command topic m hm
  | @free choice pid k hp hprog hpid =>
    subst hp
    refine (h.ended fun _ hq => hq.user hpid).silent hnone fun _ => ?_
    rw [Party.pending_of_not_receiving rfl]
    exact h.next hproc hprog (by simp) trivial
  | stay => exact h
  | killed hp =>
    exact (h.ended (D := (· = p)) fun q hq => hq ▸ hp).silent (by simp)
      fun he => absurd he (by decide)
  | killedAlone hp _ => exact h.ended fun q hq => hq ▸ hp

end Egos.Apps
