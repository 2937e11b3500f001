import Egos.File.Ownership

/-!
# Running out of space

A write that finds the free list empty panics half way. The program can be started again on the disk
it leaves, so a store is also reached through such panics; blocks that were taken and not linked are
lost then, but nothing else is: every file reads as before, and no block is in two places.
-/

namespace Egos.File

variable {σ : Type} {below : InodeStore σ} {bino nblocks : ℕ} {fails : String → σ → Prop} {nIb : ℕ}

/-- Run a list of calls, and start the program again after each panic: the static `log_rpb` is 0 and
the store is opened. -/
def runRestarting : ℕ × TreediskState σ → List TreediskOp → σ → (ℕ × TreediskState σ) × σ
  | h, [], s => (h, s)
  | h, op :: ops, s =>
    match runOp h op s with
    | .ok h s => runRestarting h ops s
    | .error _ s => runRestarting (treediskInit 0 h.2.below h.2.belowIno) ops s

/-- The store is open, and the disk stores some files. -/
abbrev OpenSome (A : BlockArray below bino nblocks fails) (nIb : ℕ) :
    ℕ × TreediskState σ → σ → Prop :=
  Opened A nIb fun view => ∃ F N heads limbo, Rep nIb nblocks view F N heads limbo

/-- Which files are stored may be forgotten. -/
theorem Open.openSome {A : BlockArray below bino nblocks fails} {F : FileMap}
    {h : ℕ × TreediskState σ} {s : σ} (ho : Open A nIb F h s) : OpenSome A nIb h s :=
  ho.imp fun ⟨N, heads, hrep⟩ => ⟨F, N, heads, _, hrep⟩

/-- A call keeps the store, and so does a panic. -/
theorem OpenSome.runOp {A : TotalBlockArray below bino nblocks} {h : ℕ × TreediskState σ} {s : σ}
    (ho : OpenSome A nIb h s) {op : TreediskOp} (hop : op.OffsetOk) :
    wp (runOp h op) (fun h' s' => OpenSome A nIb h' s')
      (fun _ s' => OpenSome A nIb (treediskInit 0 h.2.below h.2.belowIno) s') s := by
  obtain ⟨rfl, hinv, ⟨F, N, heads, limbo, hrep⟩, hpos, hsize, hsmall⟩ := ho
  have hsuper := hrep.stored.layout.super
  cases op with
  | write ino off blk =>
    have hoff : off < 2 ^ 32 - 1 := hop
    rw [Egos.File.runOp]
    by_cases hi : ino < 64 * nIb
    · refine wp_call (treediskWrite_spec A hinv hrep hsize hsmall hi (by omega) blk) ?_ ?_
      · rintro e s' (⟨-, hinv', -, F', N', heads', limbo', hrep', -⟩ | he)
        · exact ⟨rfl, hinv', ⟨F', N', heads', limbo', hrep'⟩, hpos, hsize, hsmall⟩
        · exact he.elim
      · rintro - s' ⟨-, hinv', N', heads', hrep'⟩
        exact ⟨rfl, hinv', ⟨_, N', heads', limbo, hrep'⟩, hpos, hsize, hsmall⟩
    · refine wp_call (treediskWrite_none_spec A hinv hsuper hsize hi off blk)
        (fun _ _ he => he.elim) ?_
      rintro - s' ⟨-, hinv', hv'⟩
      exact ⟨rfl, hinv', ⟨F, N, heads, limbo, hv' ▸ hrep⟩, hpos, hsize, hsmall⟩
  | create n =>
    rw [Egos.File.runOp]
    refine wp_call (treediskCreate_used_spec A n hinv (by omega)) (fun _ _ he => he.elim) ?_
    rintro - s' ⟨hinv', hv'⟩
    exact ⟨rfl, hinv', ⟨F, N, heads, limbo, hv' ▸ hrep⟩, hpos, hsize, hsmall⟩
  | init => exact ⟨rfl, hinv, ⟨F, N, heads, limbo, hrep⟩, hpos, hsize, hsmall⟩

/-- A run keeps the store, through any number of panics. -/
theorem OpenSome.runRestarting {A : TotalBlockArray below bino nblocks} (ops : List TreediskOp) :
    ∀ {h : ℕ × TreediskState σ} {s : σ}, OpenSome A nIb h s → (∀ op ∈ ops, op.OffsetOk) →
      OpenSome A nIb (runRestarting h ops s).1 (runRestarting h ops s).2 := by
  induction ops with
  | nil => exact fun ho _ => ho
  | cons op ops ih =>
    intro h s ho hops
    have hop := ho.runOp (hops op (by simp))
    have hrest : ∀ op' ∈ ops, op'.OffsetOk := fun op' hop' => hops op' (by simp [hop'])
    rw [Egos.File.runRestarting]
    cases hrun : Egos.File.runOp h op s with
    | ok h' s' => exact ih (wp_ok hop hrun) hrest
    | error e s' =>
      have ho' : OpenSome A nIb (treediskInit 0 h.2.below h.2.belowIno) s' :=
        wp_error (E := fun _ s' => OpenSome A nIb (treediskInit 0 h.2.below h.2.belowIno) s')
          hop hrun
      exact ih ho' hrest

/-- A read of an inode that does not exist returns `-1`. -/
theorem treediskRead_none_spec (A : BlockArray below bino nblocks fails) {s : σ} {ino : ℕ}
    (hinv : A.inv s) (hsuper : (A.view s 0).nInodeblocks = nIb) (hn : nIb < nblocks)
    (hi : ¬ ino < 64 * nIb) (off : ℕ) :
    wp (treediskRead 7 ⟨below, bino⟩ ino off) (fun r _ => r = (-1, nullBlock)) fails s := by
  unfold treediskRead treediskReadInto
  refine wp_seq (treediskGetSnapshot_spec A hinv hsuper hn ino) ?_
  rintro r s1 ⟨-, -, rfl⟩
  rw [if_neg hi]
  exact rfl

/-- A disk with the same blocks and no shorter files reads wherever the other one does. -/
theorem treediskRead_of_longer (A : TotalBlockArray below bino nblocks) {s s' : σ} {F F' : FileMap}
    {N N' : Pos → ℕ} {heads heads' : List ℕ} {limbo limbo' : ℕ → Prop} (hinv : A.inv s)
    (hrep : Rep nIb nblocks (A.view s) F N heads limbo) (hinv' : A.inv s')
    (hrep' : Rep nIb nblocks (A.view s') F' N' heads' limbo') (hnIb : nIb < nblocks)
    (hblock : F'.block = F.block) (hsize : ∀ j, F.size j ≤ F'.size j) {ino off : ℕ} {b : Block}
    {t : σ} (hoff : off < 2 ^ 32) (hread : treediskRead 7 ⟨below, bino⟩ ino off s = .ok (0, b) t) :
    ∃ t', treediskRead 7 ⟨below, bino⟩ ino off s' = .ok (0, b) t' := by
  by_cases hi : ino < 64 * nIb
  · obtain ⟨-, -, hr⟩ := wp_ok (treediskRead_spec A hinv hrep hnIb hi hoff) hread
    obtain ⟨r', t', hread', -, -, hr'⟩ :=
      wp_returns (treediskRead_spec A hinv' hrep' hnIb hi hoff)
    refine ⟨t', ?_⟩
    rw [hread', hr', hr, FileMap.read, FileMap.read, hblock]
    by_cases hlt : off < F.size ino
    · rw [if_pos hlt, if_pos (lt_of_lt_of_le hlt (hsize ino))]
    · rw [FileMap.read, if_neg hlt] at hr
      cases hr
  · have hr := wp_ok (treediskRead_none_spec A hinv hrep.stored.layout.super hnIb hi off) hread
    cases hr

/-- Running out of space destroys nothing. In every state that is reached from a created store,
through any number of panics, a write that panics for lack of blocks leaves a disk on which every
block that could be read reads as before, and on which no block is in two places, be it on the free
list or in a tree. -/
theorem treedisk_full_destroys_nothing (A : TotalBlockArray below bino nblocks) {s₀ s₁ s₂ s₃ : σ}
    {ninodes logRpb : ℕ} (hinv : A.inv s₀) (hfresh : (A.view s₀ 0).nInodeblocks = 0)
    (hn : 1 ≤ ninodes) (hn32 : ninodes < 2 ^ 32)
    (hcreate : treediskCreate below bino ninodes s₀ = .ok 0 s₁)
    (hlog : logRpb = 0 ∨ logRpb = logRpbLoop 32 0) (ops : List TreediskOp)
    (hops : ∀ op ∈ ops, op.OffsetOk) {h : ℕ × TreediskState σ}
    (hrun : runRestarting (treediskInit logRpb below bino) ops s₁ = (h, s₂)) {ino off : ℕ}
    (hoff : off < 2 ^ 32 - 1) {blk : Block}
    (hfull : treediskWrite h.1 h.2 ino off blk s₂ = .error fullMsg s₃) :
    (∀ j o b t, o < 2 ^ 32 → treediskRead h.1 h.2 j o s₂ = .ok (0, b) t →
      ∃ t', treediskRead h.1 h.2 j o s₃ = .ok (0, b) t') ∧
    ∀ p q : Place, p.Valid (A.view s₃) → q.Valid (A.view s₃) → p.ref (A.view s₃) ≠ 0 →
      p.ref (A.view s₃) = q.ref (A.view s₃) → p = q := by
  have hopen := (open_of_create A hinv hfresh hn hn32 hcreate hlog).openSome.runRestarting ops hops
  rw [hrun] at hopen
  obtain ⟨rfl, hinv2, ⟨F, N, heads, limbo, hrep⟩, -, hsize, hsmall⟩ := hopen
  by_cases hi : ino < 64 * (A.view s₁ 0).nInodeblocks
  · obtain ⟨-, hinv3, -, F', N', heads', limbo', hrep', hblock, hle⟩ :=
      (wp_error (treediskWrite_spec A hinv2 hrep hsize hsmall hi (by omega) blk)
        hfull).resolve_right id
    exact ⟨fun j o b t ho hread =>
      treediskRead_of_longer A hinv2 hrep hinv3 hrep' hsize hblock hle ho hread,
      fun p q => hrep'.place_inj⟩
  · have hsuper := hrep.stored.layout.super
    exact (wp_error (treediskWrite_none_spec A hinv2 hsuper hsize hi off blk) hfull).elim

/-- On a disk of three blocks, the second file does not fit, and the first still reads. -/
theorem treedisk_full_destroys_nothing_three :
    ∃ (s₁ s₂ s₃ t t' : Disk) (h : ℕ × TreediskState Disk) (b : Block),
      treediskCreate (arrayStore 3) 0 1 (fun _ => nullBlock) = .ok 0 s₁ ∧
      runRestarting (treediskInit 0 (arrayStore 3) 0) [.write 0 0 (nullBlock.setWord 0 7)] s₁
        = (h, s₂) ∧
      treediskWrite h.1 h.2 1 0 nullBlock s₂ = .error fullMsg s₃ ∧
      treediskRead h.1 h.2 0 0 s₂ = .ok (0, b) t ∧ treediskRead h.1 h.2 0 0 s₃ = .ok (0, b) t' := by
  have hreturns : wp (treediskCreate (arrayStore 3) 0 1)
      (fun r s₁ => r = 0 ∧
        (wp (runOp (treediskInit 0 (arrayStore 3) 0) (.write 0 0 (nullBlock.setWord 0 7)))
          (fun h s₂ => wp (treediskWrite h.1 h.2 1 0 nullBlock) (fun _ _ => False)
              (fun e _ => e = fullMsg) s₂ ∧
            wp (treediskRead h.1 h.2 0 0) (fun r _ => r.1 = 0) (fun _ _ => False) s₂)
          (fun _ _ => False) s₁))
      (fun _ _ => False) (fun _ => nullBlock) := by decide +kernel
  obtain ⟨_, s₁, hcreate, rfl, hrun⟩ := wp_returns hreturns
  obtain ⟨h, s₂, hrun, hwrite, hread⟩ := wp_returns hrun
  obtain ⟨⟨r, b⟩, t, hread, hr⟩ := wp_returns hread
  obtain rfl : r = 0 := hr
  have hruns : runRestarting (treediskInit 0 (arrayStore 3) 0) [.write 0 0 (nullBlock.setWord 0 7)]
      s₁ = (h, s₂) := by simp only [runRestarting, hrun]
  obtain ⟨_, s₃, hfull, rfl⟩ := wp_panics hwrite
  obtain ⟨t', hread'⟩ := (treedisk_full_destroys_nothing (arrayStoreArray 0 3 (by norm_num))
    trivial rfl (le_refl 1) (by norm_num) hcreate (Or.inl rfl) _ (by simp [TreediskOp.OffsetOk])
    hruns (by norm_num) hfull).1 0 0 b t (by norm_num) hread
  exact ⟨s₁, s₂, s₃, t, t', h, b, hcreate, hruns, hfull, hread, hread'⟩

end Egos.File
