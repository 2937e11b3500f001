import Egos.Common.AddressSpaces
import Egos.Library.LoadDraft
import Egos.Library.ProgramLoading

/-!
# The loader on a memory system

`elf_load` builds up the memory of a process: it maps pages, and writes to their frames. A memory
system has operations for this, with conditions on them: a page is mapped once, and it is filled
while its process is not visible. `PageLoader` says that what the loader does to one page are such
operations, and it follows that a whole `elf_load` is a run of them. What is known about these runs,
such as that the memory of other processes is left alone, is then known about `elf_load`.
-/

namespace Egos.Library

open Egos.Earth
open Function (update update_self update_of_ne)

variable {σ Op : Type} {A : AddressSpaces σ ℤ Op}

/-- What the loader does to the pages of a process are operations of the memory system, on the state
`mmu` of the code. The kernel does not take pages from a process but by freeing it. -/
structure PageLoader (t : Translation) (M : PrivateMemories A) where
  mmu : σ → Mmu
  /-- the process can be given pages while it is not visible -/
  Alive : σ → ℤ → Prop
  /-- page `v` of the process is in the frame at `base` -/
  Has : σ → ℤ → ℕ → ℕ → Prop
  /-- nothing has been done for the process yet -/
  Untouched : σ → ℤ → Prop
  /-- the code has mapped page `v` of the process at `base`, and its state is `m` -/
  mapped : σ → ℤ → ℕ → ℕ → Mmu → σ
  /-- the code has written to memory, and its state is `m` -/
  written : σ → Mmu → σ
  mmu_mapped : ∀ {s pid v base m}, mmu (mapped s pid v base m) = m
  mmu_written : ∀ {s m}, mmu (written s m) = m
  written_self : ∀ {s}, written s (mmu s) = s
  written_written : ∀ {s m m'}, written (written s m) m' = written s m'
  switch : ∀ {s pid}, mmu (A.switch pid s) = mmuSwitch t pid (mmu s)
  maps : ∀ {s pid base a}, Alive s pid → Has s pid (a / 4096) base → M.Maps s pid a
  map : ∀ {s pid v base m'}, M.Inv s → A.curr s ≠ pid → Alive s pid → AppRange v →
    (∀ b, ¬ Has s pid v b) → mapNext t pid v (mmu s) = .ok base m' →
    ∃ op s', s' = mapped s pid v base m' ∧ M.Builds pid s op ∧ A.perform s op = some s' ∧
      Alive s' pid ∧ Has s' pid v base ∧ (∀ w b, w ≠ v → (Has s' pid w b ↔ Has s pid w b)) ∧
      ∀ a, a / 4096 ≠ v → M.view s' pid a = M.view s pid a
  fill : ∀ {s pid v base off} (byte : UInt8), M.Inv s → A.curr s ≠ pid → Alive s pid →
    Has s pid v base → off < 4096 →
    ∃ op s', s' = written s ((mmu s).store (base + off) byte) ∧ M.Builds pid s op ∧
      A.perform s op = some s' ∧ Alive s' pid ∧ (∀ w b, Has s' pid w b ↔ Has s pid w b) ∧
      M.view s' pid = update (M.view s pid) (v * 4096 + off) byte
  alive : ∀ {s pid}, Untouched s pid → Alive s pid
  has_none : ∀ {s pid v b}, M.Inv s → Untouched s pid → ¬ Has s pid v b
  fresh : ∀ {s pid}, Untouched s pid → A.curr s ≠ pid → Fresh t pid (mmu s)
  alive_switch : ∀ {s p q}, Alive s p → Alive (A.switch q s) p
  alive_store : ∀ {s p a b}, Alive s p → Alive (A.store s a b) p
  alive_free : ∀ {s p q}, q ≠ p → Alive s p → Alive (A.free q s) p
  has_switch : ∀ {s p q v b}, Has (A.switch q s) p v b ↔ Has s p v b
  has_store : ∀ {s p a byte v b}, Has (A.store s a byte) p v b ↔ Has s p v b
  has_free : ∀ {s p q v b}, q ≠ p → (Has (A.free q s) p v b ↔ Has s p v b)
  untouched_switch : ∀ {s p q}, Untouched s p → Untouched (A.switch q s) p
  untouched_store : ∀ {s p a b}, Untouched s p → Untouched (A.store s a b) p
  untouched_free : ∀ {s p q}, Untouched s p → Untouched (A.free q s) p
  untouched_perform : ∀ {s s' p op}, M.Inv s → M.Ok s op → A.perform s op = some s' →
    A.owner op ≠ p → Untouched s p → Untouched s' p

namespace PageLoader

variable {t : Translation} {M : PrivateMemories A} {L : PageLoader t M} {pid : ℤ}
  {s s' : σ} {d d' : Draft} {v base : ℕ}

/-! ## Operations -/

/-- The code has done an operation for the process, and its state is `m`. -/
def after (L : PageLoader t M) (s : σ) (pid : ℤ) (base : ℕ) (m : Mmu) : LoadOp → σ
  | .map v => L.mapped s pid v base m
  | .write _ _ _ => L.written s m

/-- What an operation does to the MMU. -/
theorem mmu_after (op : LoadOp) {m : Mmu} : L.mmu (L.after s pid base m op) = m := by
  cases op with
  | map v => exact L.mmu_mapped
  | write off n bytes => exact L.mmu_written

/-- The memory of a process is as in a draft, and its last page is in the frame at `base`. -/
structure Realises (L : PageLoader t M) (pid : ℤ) (d : Draft) (base : ℕ) (s : σ) : Prop where
  inv : M.Inv s
  hidden : A.curr s ≠ pid
  alive : L.Alive s pid
  pages : ∀ w, (∃ b, L.Has s pid w b) ↔ w ∈ d.pages
  last : ∀ v, d.pages.head? = some v → L.Has s pid v base
  agrees : d.Agrees (M.view s pid)

/-- An operation of the loader has been done. -/
structure Done (L : PageLoader t M) (pid : ℤ) (s : σ) (d : Draft) (base : ℕ) (s' : σ) :
    Prop where
  reach : Reach A.perform (M.Builds pid) s s'
  realises : L.Realises pid d base s'

/-- Mapping a page realises the draft with it. -/
theorem Realises.map {m : Mmu} (h : L.Realises pid d base s) (hv : AppRange v)
    (hnew : v ∉ d.pages) {base' : ℕ} (hrun : mapNext t pid v (L.mmu s) = .ok base' m) :
    L.Done pid s (d.map v) base' (L.mapped s pid v base' m) := by
  have hnone : ∀ b, ¬ L.Has s pid v b := fun b hb => hnew ((h.pages v).1 ⟨b, hb⟩)
  obtain ⟨op, s', hs', hop, hstep, halive, hhas, hkeep, hview⟩ :=
    L.map h.inv h.hidden h.alive hv hnone hrun
  rw [← hs']
  have hreach : Reach A.perform (M.Builds pid) s s' := Reach.init.step hop hstep
  have hbuilt := M.built_of_reach h.inv h.hidden.symm hreach
  refine ⟨hreach, hbuilt.inv, hbuilt.curr.trans_ne h.hidden, halive, fun w => ?_, ?_,
    fun a b ha hb => ?_⟩
  · rw [Draft.map, List.mem_cons]
    by_cases hw : w = v
    · subst hw
      exact iff_of_true ⟨base', hhas⟩ (Or.inl rfl)
    · rw [or_iff_right hw, ← h.pages w]
      exact exists_congr fun b => hkeep w b hw
  · rintro _ ⟨⟩
    exact hhas
  · by_cases hav : a / 4096 = v
    · rw [Draft.map_known_self hav] at hb
      cases hb
    · rw [Draft.map_known hav] at hb
      rw [hview a hav]
      exact h.agrees a b ha hb

/-- Bytes are written to a page one by one. -/
theorem Realises.write (h : L.Realises pid d base s) (hv : d.pages.head? = some v) (off n : ℕ)
    (bytes : ℕ → UInt8) (hn : off + n ≤ 4096) :
    L.Done pid s (d.write (v * 4096 + off) n bytes) base
      (L.written s { L.mmu s with mem := (L.mmu s).mem.blit (base + off) n bytes }) := by
  induction n with
  | zero =>
    rw [Memory.blit_zero, L.written_self]
    refine ⟨.init, h.inv, h.hidden, h.alive, h.pages, h.last, fun a b ha hb => ?_⟩
    rw [Draft.write_zero_known] at hb
    exact h.agrees a b ha hb
  | succ n ih =>
    have h₁ := ih (by omega)
    have hr₁ := h₁.realises
    have hlast : ∀ w, d.pages.head? = some w → L.Has _ pid w base := hr₁.last
    obtain ⟨op, s', hs', hop, hstep, halive, hkeep, hview⟩ :=
      L.fill (bytes n) hr₁.inv hr₁.hidden hr₁.alive (hlast v hv) (show off + n < 4096 by omega)
    rw [L.written_written, L.mmu_written] at hs'
    have hmem : L.written s { L.mmu s with
        mem := (L.mmu s).mem.blit (base + off) (n + 1) bytes } = s' := by
      rw [hs', Memory.blit_succ, Nat.add_assoc]
      rfl
    rw [hmem]
    have hreach := h₁.reach.step hop hstep
    have hbuilt := M.built_of_reach h.inv h.hidden.symm hreach
    refine ⟨hreach, hbuilt.inv, hbuilt.curr.trans_ne h.hidden, halive, fun w => ?_,
      fun w hw => (hkeep w base).2 (hlast w hw), fun a b ha hb => ?_⟩
    · exact (exists_congr fun b => hkeep w b).trans (hr₁.pages w)
    · rw [Draft.write_succ_known] at hb
      rw [hview]
      split at hb
      · rename_i ha'
        rw [ha', ← Nat.add_assoc, update_self]
        exact Option.some.inj hb
      · rename_i ha'
        rw [← Nat.add_assoc, update_of_ne ha']
        exact hr₁.agrees a b ha hb

/-- An operation that the draft takes. -/
theorem Realises.run {op : LoadOp} {m : Mmu} {base' : ℕ} (h : L.Realises pid d base s)
    (hd : d.step op = some d') (hrun : op.run t pid base (L.mmu s) = .ok base' m) :
    L.Done pid s d' base' (L.after s pid base' m op) := by
  cases op with
  | map v =>
    rw [Draft.step] at hd
    split at hd
    · rename_i hv
      cases hd
      exact h.map hv.1 hv.2 hrun
    · cases hd
  | write off n bytes =>
    rw [Draft.step] at hd
    split at hd
    · rename_i hn
      obtain ⟨v, hv, rfl⟩ := Option.map_eq_some_iff.1 hd
      cases hrun
      exact h.write hv off n bytes hn
    · cases hd

/-- A run of operations realises the draft of its end. -/
theorem Realises.runOps {ops : List LoadOp} (h : L.Realises pid d base s)
    (hd : runActions Draft.step d ops = some d') :
    wp (runOps t pid base ops) (fun base' m' => ∃ s', L.mmu s' = m' ∧ L.Done pid s d' base' s')
      (fun _ _ => True) (L.mmu s) := by
  induction ops generalizing s d base with
  | nil =>
    cases hd
    rw [runOps_nil, wp_pure]
    exact ⟨s, rfl, .init, h⟩
  | cons op ops ih =>
    obtain ⟨d₁, hstep, hrest⟩ := Option.bind_eq_some_iff.1 hd
    rw [runOps_cons, wp_bind, wp]
    split
    · rename_i base₁ m₁ hrun
      have h₁ := h.run hstep hrun
      have hmmu₁ : L.mmu (L.after s pid base₁ m₁ op) = m₁ := mmu_after op
      rw [← hmmu₁]
      refine wp_mono (ih h₁.realises hrest) ?_ fun _ _ h => h
      rintro base₂ m₂ ⟨s₂, hmmu, h₂⟩
      exact ⟨s₂, hmmu, h₁.reach.trans h₂.reach, h₂.realises⟩
    · trivial

/-! ## `elf_load` -/

/-- Nothing has been written for a process that has no memory. -/
theorem realises_empty (hs : M.Inv s) (hcurr : A.curr s ≠ pid) (hnew : L.Untouched s pid) :
    L.Realises pid Draft.empty 0 s := by
  refine ⟨hs, hcurr, L.alive hnew, fun w => iff_of_false ?_ List.not_mem_nil, ?_, ?_⟩
  · rintro ⟨b, hb⟩
    exact L.has_none hs hnew hb
  · rintro _ ⟨⟩
  · rintro _ _ _ ⟨⟩

/-- The pages of a program. -/
def AppPages (ph : ProgramHeader) (w : ℕ) : Prop :=
  (0x40027 ≤ w ∧ w < 0x40027 + codePages ph) ∨ w = 0x400FB ∨ w = 0x400FC

/-- A process has memory that holds a program. -/
structure HasProgram (M : PrivateMemories A) (pid : ℤ) (image : ℕ → UInt8) (ph : ProgramHeader)
    (argc : ℕ) (argv : Option (ℕ → UInt8)) (s : σ) : Prop where
  mapped : ∀ a, AppPages ph (a / 4096) → M.Maps s pid a
  program : HoldsProgram image ph argc argv (M.view s pid)

/-- The draft of the program `load_app` has been given. -/
theorem Realises.hasProgram {image : ℕ → UInt8} {ph : ProgramHeader} {argc : ℕ}
    {argv : Option (ℕ → UInt8)} (h : L.Realises pid d base s)
    (hpages : d.pages = 0x400FC :: 0x400FB :: pagesTo (codePages ph))
    (hprogram : ∀ mem, d.Agrees mem → HoldsProgram image ph argc argv mem) :
    HasProgram M pid image ph argc argv s := by
  refine ⟨fun a ha => ?_, hprogram _ h.agrees⟩
  have hmem : a / 4096 ∈ d.pages := by
    rw [hpages, List.mem_cons, List.mem_cons, mem_pagesTo]
    unfold AppPages at ha
    omega
  obtain ⟨b, hb⟩ := (h.pages _).2 hmem
  exact L.maps h.alive hb

/-- The memory of a process has been built up, and holds a program. -/
structure Loaded (M : PrivateMemories A) (pid : ℤ) (image : ℕ → UInt8) (ph : ProgramHeader)
    (argc : ℕ) (argv : Option (ℕ → UInt8)) (s s' : σ) : Prop where
  reach : Reach A.perform (M.Builds pid) s s'
  built : M.Built pid s s'
  has : HasProgram M pid image ph argc argv s'

/-- `elf_load` on a memory system, for a process that is not visible and has no memory yet. -/
theorem elfLoad_loaded {reader : Reader} {ph : ProgramHeader} {argc : ℕ}
    (argv : Option (ℕ → UInt8)) (himage : AppImage reader ph)
    (hsize : ph.pFilesz ≤ appsArg - appsEntry) (hargc : argc ≤ cmdNargs) (hs : M.Inv s)
    (hcurr : A.curr s ≠ pid) (hnew : L.Untouched s pid) :
    wp (elfLoad t pid reader argc argv)
      (fun _ m' => ∃ s', L.mmu s' = m' ∧
        Loaded M pid (segmentByte reader ph) ph argc argv s s')
      (fun _ _ => Stops t pid (L.mmu s) (codePages ph + 2)) (L.mmu s) := by
  have hargc : argc ≤ 16 := hargc
  have hspec := elfLoad_spec argv himage (L.fresh hnew hcurr) hsize
    (show 132 + 32 * argc ≤ 4096 by omega)
  obtain ⟨d, hrun, hpages, hprogram⟩ := yields_appOps reader argv hsize hargc
  have hops : wp (elfLoad t pid reader argc argv)
      (fun _ m' => ∃ s', L.mmu s' = m' ∧ ∃ base, L.Done pid s d base s')
      (fun _ _ => True) (L.mmu s) := by
    rw [elfLoad_eq_runOps argv himage]
    refine wp_seq ((realises_empty hs hcurr hnew).runOps hrun) ?_
    rintro base m' ⟨s', hmmu, hdone⟩
    rw [wp_pure]
    exact ⟨s', hmmu, base, hdone⟩
  refine wp_mono (wp_and hspec hops) ?_ fun _ _ h => h
  rintro _ m' ⟨-, s', hmmu, base, hdone⟩
  exact ⟨s', hmmu, hdone.reach, M.built_of_reach hs hcurr.symm hdone.reach,
    hdone.realises.hasProgram hpages hprogram⟩

end PageLoader

end Egos.Library
