import Egos.Apps.System

/-!
# Requests and replies

What every program keeps to when it talks to the servers, as a protocol: a client that has asked a
server does nothing but receive until it has the reply, and a server answers the client it serves.
The protocol has a mode `foreign` in which a client may be given a message of another process in
place of the reply; it then does nothing but stop.
-/

namespace Egos.Apps

open Egos.Grass Egos.Library

/-! ## The protocol -/

/-- `reply` is the answer of a server to a request, as the file system has it. -/
def Answers (env : Env) (server : ℤ) (req reply : Msg) : Prop :=
  if server = gpidFile then fileReply env.fs req = .ok reply
  else ∃ r, fileReply env.fs (fileReadRequest req.dirArgs.1 0) = .ok r ∧
    reply = dirReply (dirScan r.fileResult.2 req.dirArgs.2)

/-- `GPID_FILE` and `GPID_DIR`. -/
def IsServer (p : ℤ) : Prop := p = gpidFile ∨ p = gpidDir

/-- The servers that process `p` may ask. -/
def MayAsk (p server : ℤ) : Prop :=
  server = gpidFile ∧ p ≠ gpidFile ∨ server = gpidDir ∧ ¬ IsServer p

/-- The program of a process. -/
def imageOf (p : ℤ) : Image :=
  if p = gpidFile then .file else if p = gpidDir then .dir
  else if p = gpidShell then .shell else .user

/-- Where a process stands in its talk with others. -/
structure Talk where
  /-- the client and the request that it is serving -/
  serving : Option (ℤ × Msg)
  /-- the server that it has asked, and the request -/
  asked : Option (ℤ × Msg)
  /-- it has been given a message of another process in place of a reply -/
  lost : Bool
  /-- the boot messages that it has to send or, for `GPID_PROCESS`, to receive -/
  boots : ℕ
  /-- for `GPID_PROCESS`: the last pid that was given out, and the one that is being set up -/
  spawned : ℤ
  loading : Option ℤ

/-- The talk of a process that has not started. -/
def Talk.initial (p : ℤ) : Talk where
  serving := none
  asked := none
  lost := false
  boots := if p = gpidProcess then 2 else if p = gpidFile ∨ p = gpidDir then 1 else 0
  spawned := 1
  loading := none

/-- The messages that process `p` may send. -/
def MaySend (env : Env) (p : ℤ) (t : Talk) (topic : Topic) (r : ℤ) (m : Msg) : Prop :=
  match topic with
  | .request => t.boots = 0 ∧ MayAsk p r ∧ p ≠ gpidShell
  | .reply server req => server = p ∧ IsServer p ∧ t.serving = some (r, req) ∧ Answers env p req m
  | .boot => t.serving = none ∧ r = gpidProcess ∧ IsServer p ∧ t.boots = 1
  | .command => t.serving = none ∧ r = gpidProcess ∧ gpidShell ≤ p
  | .status | .termination => t.serving = none ∧ r = gpidShell ∧ p = gpidProcess

/-- The messages that process `p` may wait for. -/
def MayRecv (p : ℤ) (t : Talk) : Topic → Prop
  | .reply server req =>
    t.asked = some (server, req) ∧ t.boots = 0 ∧ MayAsk p server ∧ p ≠ gpidShell
  | .request => t.asked = none ∧ IsServer p ∧ t.serving = none
  | .boot => t.asked = none ∧ p = gpidProcess ∧ 0 < t.boots
  | .command => t.asked = none ∧ p = gpidProcess ∧ t.boots = 0
  | .status | .termination => t.asked = none ∧ p = gpidShell

/-- The talk after a message was sent. -/
def Talk.sent (t : Talk) (topic : Topic) (r : ℤ) (m : Msg) : Talk :=
  match topic with
  | .request => { t with asked := some (r, m) }
  | .reply _ _ => { t with serving := none }
  | .boot => { t with boots := 0 }
  | _ => t

/-- The talk after a message was received as what it was waited for. -/
def Talk.received (t : Talk) (topic : Topic) (sender : ℤ) (m : Msg) : Talk :=
  match topic with
  | .reply _ _ => { t with asked := none }
  | .request => { t with serving := some (sender, m) }
  | .boot => { t with boots := t.boots - 1 }
  | _ => t

/-- The protocol of process `p`. -/
def pairing (env : Env) (foreign : Prop) (p : ℤ) : Protocol SysOp.Res Fatal Talk where
  allows t o := t.lost = false ∧
    match o with
    | .send topic r m => t.asked = none ∧ MaySend env p t topic r m
    | .recv topic => MayRecv p t topic
    | .procAlloc => t.asked = none ∧ p = gpidProcess ∧ (t.boots = 0 ∨ t.spawned + t.boots ≤ 3)
    | .procSetReady pid => t.asked = none ∧ p = gpidProcess ∧ t.loading = some pid
    | .procFree _ => t.asked = none ∧ p = gpidProcess
    | .elfLoad pid image =>
      t.asked = none ∧ p = gpidProcess ∧ t.loading = some pid ∧ image = imageOf pid
    | .spin => t.asked = none
  next t o result t' :=
    match o, result with
    | .send topic r m, _ => t' = t.sent topic r m
    | .recv topic, (sender, m) =>
      match topic with
      | .reply server req => sender = server ∧ Answers env server req m ∧
          t' = t.received topic sender m ∨ foreign ∧ sender ≠ server ∧ t' = { t with lost := true }
      | topic => t' = t.received topic sender m
    | .procAlloc, pid =>
      pid = t.spawned + 1 ∧ t' = { t with spawned := pid, loading := some pid }
    | .procSetReady _, _ => t' = { t with loading := none }
    | _, _ => t' = t
  stops t e := t.lost = true ∧ foreign ∨ t.asked = none ∧ e ≠ .dirLookup ∧ e ≠ .fileRead

/-- Process `p` is at the head of its loop. -/
structure Home (p : ℤ) (t : Talk) (point : Point) : Prop where
  serving : t.serving = none
  asked : t.asked = none
  lost : t.lost = false
  boots : t.boots = 0
  loading : t.loading = none
  own : match point with
    | .process _ _ => p = gpidProcess ∧ gpidShell ≤ t.spawned
    | .file => p = gpidFile
    | .dir => p = gpidDir
    | .shell => p = gpidShell
    | .user => gpidUserStart ≤ p

/-! ## The programs keep to it -/

section programs

variable {α β σ : Type} {P : Protocol SysOp.Res Fatal σ} {R : σ → β → Prop} {t : σ}

/-- A program that sends, and goes on. -/
theorem Follows.sysSend {topic : Topic} {r : ℤ} {m : Msg} {f : Unit → App β}
    (ho : P.allows t (.send topic r m))
    (hf : ∀ t', P.next t (.send topic r m) () t' → (f ()).Follows P R t') :
    (sysSend topic r m >>= f).Follows P R t :=
  ⟨ho, fun _ => hf⟩

/-- A program that receives, and goes on with what it is told. -/
theorem Follows.sysRecv {topic : Topic} {f : ℤ × Msg → App β} (ho : P.allows t (.recv topic))
    (hf : ∀ sender m t', P.next t (.recv topic) (sender, m) t' → (f (sender, m)).Follows P R t') :
    (sysRecv topic >>= f).Follows P R t :=
  ⟨ho, fun x => hf x.1 x.2⟩

section elf

variable {reader : ℤ → App File.Block}

/-- Reading some blocks follows the pairing if the reader does. -/
theorem follows_elfReadBlocks (hr : ∀ off, (reader off).Follows P (fun t' _ => t' = t) t) (n : ℕ) :
    ∀ off, (elfReadBlocks reader n off).Follows P (fun t' _ => t' = t) t := by
  induction n with
  | zero => exact fun _ => rfl
  | succ n ih =>
    intro off
    rw [elfReadBlocks]
    refine (hr _).bind fun t' _ ht' => ?_
    rw [ht']
    exact ih _

/-- So does reading a segment, or stopping at one for neither kernel nor application. -/
theorem follows_elfReadSegment (hr : ∀ off, (reader off).Follows P (fun t' _ => t' = t) t)
    (hstop : ∀ addr, P.stops t (.elfVaddr addr)) (buf : Memory) (i : ℕ) :
    (elfReadSegment reader buf i).Follows P (fun t' _ => t' = t) t := by
  rw [elfReadSegment]
  generalize programHeader buf i = ph
  split_ifs
  · exact rfl
  · exact follows_elfReadBlocks hr _ _
  · exact hstop _

/-- So does reading all segments, by induction on how many are left. -/
theorem follows_elfReadSegments (hr : ∀ off, (reader off).Follows P (fun t' _ => t' = t) t)
    (hstop : ∀ addr, P.stops t (.elfVaddr addr)) (buf : Memory) (n : ℕ) :
    ∀ i, (elfReadSegments reader buf n i).Follows P (fun t' _ => t' = t) t := by
  induction n with
  | zero => exact fun _ => rfl
  | succ n ih =>
    intro i
    rw [elfReadSegments]
    refine (follows_elfReadSegment hr hstop buf i).bind fun t' _ ht' => ?_
    rw [ht']
    exact ih _

/-- `elf_load` changes what its reader changes. -/
theorem follows_elfRead (hr : ∀ off, (reader off).Follows P (fun t' _ => t' = t) t)
    (hstop : ∀ addr, P.stops t (.elfVaddr addr)) :
    (elfRead reader).Follows P (fun t' _ => t' = t) t := by
  refine (hr 0).bind fun t' block ht' => ?_
  rw [ht']
  exact follows_elfReadSegments hr hstop _ _ _

end elf

end programs

section pairing

variable {env : Env} {foreign : Prop} {p : ℤ} {t : Talk} {choice : Choice}

/-- A process that can ask a server. -/
structure CanAsk (p : ℤ) (t : Talk) : Prop where
  asked : t.asked = none
  lost : t.lost = false
  boots : t.boots = 0
  notShell : p ≠ gpidShell

/-- A call of a server, as `dir_lookup` and `file_read` make it: what comes next is given the answer
to the request, and nothing else has changed. -/
theorem follows_ask {β : Type} {Q : Talk → β → Prop} {server : ℤ} {req : Msg} {e : Fatal}
    {f : Msg → App β} (h : CanAsk p t) (hask : MayAsk p server)
    (hf : ∀ reply, Answers env server req reply →
      (f reply).Follows (pairing env foreign p) Q t) :
    (do
      sysSend .request server req
      let x ← sysRecv (.reply server req)
      if x.1 ≠ server then .stop e else f x.2 : App β).Follows (pairing env foreign p) Q t := by
  refine Follows.sysSend ⟨h.lost, h.asked, h.boots, hask, h.notShell⟩ fun t₁ ht₁ => ?_
  obtain rfl : t₁ = { t with asked := some (server, req) } := ht₁
  refine Follows.sysRecv ⟨h.lost, rfl, h.boots, hask, h.notShell⟩ fun sender m t₂ ht₂ => ?_
  rcases ht₂ with ⟨rfl, hm, rfl⟩ | ⟨hforeign, hne, rfl⟩
  · rw [if_neg fun hc => hc rfl]
    have ht : Talk.received { t with asked := some (sender, req) } (.reply sender req) sender m
        = t := by
      obtain ⟨serving, asked, lost, boots, spawned, loading⟩ := t
      obtain rfl : asked = none := h.asked
      rfl
    rw [ht]
    exact hf m hm
  · rw [if_pos hne]
    exact Or.inl ⟨rfl, hforeign⟩

/-- `file_read` asks `GPID_FILE`, and gives what its reply says. -/
theorem follows_fileRead {fileIno offset : ℤ} (h : CanAsk p t) (hp : p ≠ gpidFile) :
    (fileRead fileIno offset).Follows (pairing env foreign p)
      (fun t' x => t' = t ∧ ∃ m, fileReply env.fs (fileReadRequest fileIno offset) = .ok m ∧
        x = m.fileResult) t := by
  refine follows_ask (e := .fileRead) (f := fun m => pure m.fileResult) h (Or.inl ⟨rfl, hp⟩)
    fun m hm => ?_
  rw [Answers, if_pos rfl] at hm
  exact ⟨rfl, m, hm, rfl⟩

/-- `dir_lookup` asks `GPID_DIR`, and gives what its reply says. -/
theorem follows_dirLookup {dirIno : ℤ} {name : List UInt8} (h : CanAsk p t) (hp : ¬ IsServer p) :
    (dirLookup dirIno name).Follows (pairing env foreign p)
      (fun t' x => t' = t ∧ ∃ m, Answers env gpidDir (dirLookupRequest dirIno name) m ∧
        x = m.dirResult) t :=
  follows_ask (e := .dirLookup) (f := fun m => pure m.dirResult) h (Or.inr ⟨rfl, hp⟩)
    fun m hm => show _ ∧ _ from ⟨rfl, m, hm, rfl⟩

/-! ### The loops -/

/-- A process in its loop may ask. -/
theorem Home.canAsk {point : Point} (h : Home p t point) (hp : p ≠ gpidShell) : CanAsk p t :=
  ⟨h.asked, h.lost, h.boots, hp⟩

/-- `GPID_FILE` stops only where the file system does. -/
theorem fileReply_error {fs : FsRead} {req : Msg} {e : Fatal} (h : fileReply fs req = .error e) :
    ∃ text, e = .store text := by
  unfold fileReply at h
  split at h
  · cases h
  · rename_i text _
    cases h
    exact ⟨text, rfl⟩

/-- A round of `GPID_FILE`: it takes a request and replies to it. -/
theorem follows_fileServe (h : Home gpidFile t .file) :
    (fileServe env.fs).Follows (pairing env foreign gpidFile)
      (fun t' _ => Home gpidFile t' .file) t := by
  refine Follows.sysRecv ⟨h.lost, h.asked, Or.inl rfl, h.serving⟩ fun sender req t₁ ht₁ => ?_
  obtain rfl : t₁ = { t with serving := some (sender, req) } := ht₁
  dsimp only
  split
  · cases hreply : fileReply env.fs req with
    | ok reply =>
      refine ⟨⟨h.lost, h.asked, rfl, Or.inl rfl, rfl, ?_⟩, fun _ t₂ ht₂ => ?_⟩
      · rw [Answers, if_pos rfl]
        exact hreply
      · obtain rfl : t₂ = { t with serving := none } := ht₂
        exact ⟨rfl, h.asked, h.lost, h.boots, h.loading, rfl⟩
    | error e =>
      obtain ⟨text, rfl⟩ := fileReply_error hreply
      exact Or.inr ⟨h.asked, nofun, nofun⟩
  · exact Or.inr ⟨h.asked, nofun, nofun⟩

/-- A round of `GPID_DIR`: it takes a request, asks `GPID_FILE` and replies. -/
theorem follows_dirServe (h : Home gpidDir t .dir) :
    dirServe.Follows (pairing env foreign gpidDir) (fun t' _ => Home gpidDir t' .dir) t := by
  refine Follows.sysRecv ⟨h.lost, h.asked, Or.inr rfl, h.serving⟩ fun sender req t₁ ht₁ => ?_
  obtain rfl : t₁ = { t with serving := some (sender, req) } := ht₁
  dsimp only
  split
  · have hread : (fileRead req.dirArgs.1 0).Follows (pairing env foreign gpidDir) _
        { t with serving := some (sender, req) } :=
      follows_fileRead ⟨h.asked, h.lost, h.boots, by decide⟩ (by decide)
    refine Prog.Follows.bind (Q := fun t' ino => t' = { t with serving := some (sender, req) } ∧
      Answers env gpidDir req (dirReply ino)) ?_ ?_
    · refine hread.bind ?_
      rintro _ _ ⟨rfl, m, hm, rfl⟩
      refine ⟨rfl, ?_⟩
      rw [Answers, if_neg (by decide)]
      exact ⟨m, hm, rfl⟩
    · rintro _ ino ⟨rfl, hanswer⟩
      refine ⟨⟨h.lost, h.asked, rfl, Or.inr rfl, rfl, hanswer⟩, fun _ t₂ ht₂ => ?_⟩
      obtain rfl : t₂ = { t with serving := none } := ht₂
      exact ⟨rfl, h.asked, h.lost, h.boots, h.loading, rfl⟩
  · exact Or.inr ⟨h.asked, nofun, nofun⟩

/-- `sys_spawn`, and the end of `app_spawn`. -/
theorem follows_sysSpawn {image : Image} (hasked : t.asked = none) (hlost : t.lost = false)
    (hboots : t.boots = 0 ∨ t.spawned + t.boots ≤ 3) (himage : image = imageOf (t.spawned + 1)) :
    (sysSpawn image).Follows (pairing env foreign gpidProcess)
      (fun t' _ => t' = { t with spawned := t.spawned + 1, loading := none }) t := by
  refine ⟨⟨hlost, hasked, rfl, hboots⟩, ?_⟩
  rintro _ _ ⟨rfl, rfl⟩
  refine ⟨⟨hlost, hasked, rfl, rfl, himage⟩, ?_⟩
  rintro _ _ rfl
  refine ⟨⟨hlost, hasked, rfl, rfl⟩, ?_⟩
  rintro _ _ rfl
  rfl

/-- `app_spawn` asks the servers, and is back where it was. -/
theorem follows_appSpawn {req : Msg} {a : ℤ} {w : Bool} (h : Home gpidProcess t (.process a w)) :
    (appSpawn req).Follows (pairing env foreign gpidProcess)
      (fun t' _ => Home gpidProcess t' (.process a w)) t := by
  have hask := h.canAsk (by decide)
  have hserver : ¬ IsServer gpidProcess := by unfold IsServer; decide
  refine (follows_dirLookup hask hserver).bind fun t' binIno ht' => ?_
  rw [ht'.1]
  refine (follows_dirLookup hask hserver).bind fun t' appIno ht' => ?_
  rw [ht'.1]
  split
  · exact h
  · refine ⟨⟨h.lost, h.asked, rfl, Or.inl h.boots⟩, ?_⟩
    rintro _ t₁ ⟨rfl, rfl⟩
    set t₁ : Talk := { t with spawned := t.spawned + 1, loading := some (t.spawned + 1) } with ht₁
    have hread : ∀ off, (Prod.snd <$> fileRead appIno off).Follows (pairing env foreign gpidProcess)
        (fun t' _ => t' = t₁) t₁ := by
      intro off
      have hask₁ : CanAsk gpidProcess t₁ := ⟨h.asked, h.lost, h.boots, by decide⟩
      exact (follows_fileRead hask₁ (by decide)).bind fun _ _ ht => ht.1
    refine (follows_elfRead hread fun _ => Or.inr ⟨h.asked, nofun, nofun⟩).bind
      fun t' _ ht' => ?_
    rw [ht']
    have himage : Image.user = imageOf (t.spawned + 1) := by
      have hspawned : (4 : ℤ) ≤ t.spawned := h.own.2
      unfold imageOf
      rw [if_neg (show t.spawned + 1 ≠ 2 by omega), if_neg (show t.spawned + 1 ≠ 3 by omega),
        if_neg (show t.spawned + 1 ≠ 4 by omega)]
    refine ⟨⟨h.lost, h.asked, rfl, rfl, himage⟩, ?_⟩
    rintro _ _ rfl
    refine ⟨⟨h.lost, h.asked, rfl, rfl⟩, ?_⟩
    rintro _ _ rfl
    exact ⟨h.serving, h.asked, h.lost, h.boots, rfl, rfl, by have := h.own.2; simp [ht₁]; omega⟩

/-- The variables of `GPID_PROCESS` do not matter to the pairing. -/
theorem Home.vars {a a' : ℤ} {w w' : Bool} (h : Home p t (.process a w)) :
    Home p t (.process a' w') :=
  ⟨h.serving, h.asked, h.lost, h.boots, h.loading, h.own⟩

/-- A round of `GPID_PROCESS` brings it back to its loop. -/
theorem follows_procServe {a : ℤ} {w : Bool} {stray : UInt8}
    (h : Home gpidProcess t (.process a w)) :
    (procServe a w stray).Follows (pairing env foreign gpidProcess) (Home gpidProcess) t := by
  refine Follows.sysRecv ⟨h.lost, h.asked, rfl, h.boots⟩ fun sender req t₁ ht₁ => ?_
  obtain rfl : t₁ = t := ht₁
  dsimp only
  split_ifs
  · refine (follows_appSpawn h).bind fun t₂ spawned h₂ => ?_
    refine Follows.sysSend ⟨h₂.lost, h₂.asked, h₂.serving, rfl, rfl⟩ fun t₃ ht₃ => ?_
    obtain rfl : t₃ = t₂ := ht₃
    exact h₂.vars
  · refine ⟨⟨h.lost, h.asked, rfl⟩, ?_⟩
    rintro _ _ rfl
    refine Follows.sysSend ⟨h.lost, h.asked, h.serving, rfl, rfl⟩ fun t₃ ht₃ => ?_
    rw [show t₃ = _ from ht₃]
    exact h
  · refine ⟨⟨h.lost, h.asked, rfl⟩, ?_⟩
    rintro _ _ rfl
    exact h
  · refine ⟨⟨h.lost, h.asked, rfl⟩, ?_⟩
    rintro _ _ rfl
    exact h
  · exact Or.inr ⟨h.asked, nofun, nofun⟩

/-- `GPID_PROCESS` starts the servers and the shell and comes to its loop. -/
theorem follows_procMain {w : Bool} :
    (procMain w).Follows (pairing env foreign gpidProcess) (Home gpidProcess)
      (Talk.initial gpidProcess) := by
  refine (follows_sysSpawn rfl rfl (Or.inr (by decide)) rfl).bind fun t₁ _ ht₁ => ?_
  rw [show t₁ = ⟨none, none, false, 2, 2, none⟩ from ht₁]
  refine Follows.sysRecv ⟨rfl, rfl, rfl, by decide⟩ fun _ _ t₂ ht₂ => ?_
  rw [show t₂ = ⟨none, none, false, 1, 2, none⟩ from ht₂]
  refine (follows_sysSpawn rfl rfl (Or.inr (by decide)) rfl).bind fun t₃ _ ht₃ => ?_
  rw [show t₃ = ⟨none, none, false, 1, 3, none⟩ from ht₃]
  refine Follows.sysRecv ⟨rfl, rfl, rfl, by decide⟩ fun _ _ t₄ ht₄ => ?_
  rw [show t₄ = ⟨none, none, false, 0, 3, none⟩ from ht₄]
  refine (follows_sysSpawn rfl rfl (Or.inl rfl) rfl).bind fun t₅ _ ht₅ => ?_
  rw [show t₅ = ⟨none, none, false, 0, 4, none⟩ from ht₅]
  exact ⟨rfl, rfl, rfl, rfl, rfl, rfl, by decide⟩

/-- A command brings the shell back to its prompt. -/
theorem follows_shellCommand {line : List UInt8} {stray : UInt8} (h : Home gpidShell t .shell) :
    (shellCommand line stray).Follows (pairing env foreign gpidShell)
      (fun t' _ => Home gpidShell t' .shell) t := by
  unfold shellCommand
  split
  · refine ⟨⟨h.lost, h.asked, h.serving, rfl, le_refl _⟩, ?_⟩
    rintro _ _ rfl
    exact h
  · split
    · exact h
    · refine Follows.sysSend ⟨h.lost, h.asked, h.serving, rfl, le_refl _⟩ fun t₁ ht₁ => ?_
      obtain rfl : t₁ = t := ht₁
      refine Follows.sysRecv ⟨h.lost, h.asked, rfl⟩ fun _ reply t₂ ht₂ => ?_
      obtain rfl : t₂ = t₁ := ht₂
      dsimp only
      split_ifs
      · exact h
      · refine Follows.sysRecv ⟨h.lost, h.asked, rfl⟩ fun _ _ t₃ ht₃ => ?_
        obtain rfl : t₃ = t₂ := ht₃
        exact h
      · exact h

/-- Every program keeps to the protocol in every round of its loop. -/
theorem follows_main {point : Point} (h : Home p t point) :
    (main env choice point).Follows (pairing env foreign p) (Home p) t := by
  cases point with
  | process a w =>
    obtain rfl := h.own.1
    exact follows_procServe h
  | file =>
    obtain rfl : p = gpidFile := h.own
    exact (follows_fileServe h).bind fun _ _ h' => h'
  | dir =>
    obtain rfl : p = gpidDir := h.own
    exact (follows_dirServe h).bind fun _ _ h' => h'
  | shell =>
    obtain rfl : p = gpidShell := h.own
    exact (follows_shellCommand h).bind fun _ _ h' => h'
  | user =>
    have hp : (5 : ℤ) ≤ p := h.own
    have hask := h.canAsk (show p ≠ 4 by omega)
    rw [main]
    cases choice.call with
    | dirLookup dirIno name =>
      have hserver : ¬ IsServer p := by
        rintro (hp' | hp') <;> rw [hp'] at hp <;> exact absurd hp (by decide)
      refine (follows_dirLookup hask hserver).bind fun t' _ ht' => ?_
      rw [ht'.1]
      exact h
    | fileRead fileIno offset =>
      refine (follows_fileRead hask (show p ≠ 2 by omega)).bind fun t' _ ht' => ?_
      rw [ht'.1]
      exact h
    | exit =>
      have hp' : gpidShell ≤ p := show (4 : ℤ) ≤ p by omega
      refine Follows.sysSend ⟨h.lost, h.asked, h.serving, rfl, hp'⟩ fun t₁ ht₁ => ?_
      obtain rfl : t₁ = t := ht₁
      exact ⟨⟨h.lost, h.asked⟩, nofun⟩

/-- Every program keeps to the protocol from its start. -/
theorem follows_start (hp : gpidProcess < p) :
    (start (imageOf p)).Follows (pairing env foreign p) (Home p) (Talk.initial p) := by
  have hp : (1 : ℤ) < p := hp
  unfold imageOf
  split_ifs with hfile hdir hshell
  · subst hfile
    refine Follows.sysSend ⟨rfl, rfl, rfl, rfl, Or.inl rfl, rfl⟩ fun t₁ ht₁ => ?_
    rw [show t₁ = _ from ht₁]
    exact ⟨rfl, rfl, rfl, rfl, rfl, rfl⟩
  · subst hdir
    refine Follows.sysSend ⟨rfl, rfl, rfl, rfl, Or.inr rfl, rfl⟩ fun t₁ ht₁ => ?_
    rw [show t₁ = _ from ht₁]
    exact ⟨rfl, rfl, rfl, rfl, rfl, rfl⟩
  · subst hshell
    exact (follows_shellCommand ⟨rfl, rfl, rfl, rfl, rfl, rfl⟩).bind fun _ _ h' => h'
  · have h1 : p ≠ gpidProcess := show p ≠ 1 by omega
    have h5 : (5 : ℤ) ≤ p := by
      have h2 : p ≠ 2 := hfile
      have h3 : p ≠ 3 := hdir
      have h4 : p ≠ 4 := hshell
      omega
    refine ⟨rfl, rfl, rfl, ?_, rfl, h5⟩
    rw [Talk.initial, if_neg h1, if_neg (not_or.2 ⟨hfile, hdir⟩)]

end pairing

end Egos.Apps
