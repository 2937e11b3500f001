import Egos.Library.Loading

/-!
# What the loader puts into memory

`load_app` page by page: the code pages hold the bytes of the segment and then zeros, the argument
page holds `argc`, the pointers and the arguments, and every other byte, the stack page included, is
what its frame held before.
-/

namespace Egos.Library

open Egos.Earth
open Function (update update_self update_of_ne)

/-! ## The pages of a program -/

/-- The number of pages that hold some blocks. -/
def pagesFor (blocks : ℕ) : ℕ := (blocks + 7) / 8

/-- The number of pages from `APPS_ENTRY` on: those of the segment, and at least `APPS_SIZE`. -/
def codePages (ph : ProgramHeader) : ℕ := max 4 (pagesFor (blocksFor ph.pFilesz))

/-- The number of page `k` of a program with `m` code pages: these start at `APPS_ENTRY`, and the
argument page and the stack page follow at `APPS_ARG`. -/
def appPage (m k : ℕ) : ℕ := if k < m then 0x40027 + k else 0x400FB + (k - m)

/-- The pages of a program are different pages of its memory. -/
theorem layout_appPage {m : ℕ} (hm : m ≤ 212) : Loading.Layout (appPage m) (m + 2) := by
  refine ⟨fun k hk => ?_, fun k hk => ?_, fun j k hj hk he => ?_⟩ <;> unfold appPage at *
  · split <;> omega
  · split <;> omega
  · split at he <;> split at he <;> omega

/-- What the frame of page `k` held before the program was loaded. -/
def residue (t : Translation) (s : Mmu) (k : ℕ) : Memory :=
  fun o => s.mem (pagingRead (frameOf t s k) + o)

/-- The code pages when the first `n` bytes have been read. -/
def partlyRead (t : Translation) (s : Mmu) (image : ℕ → UInt8) (n k : ℕ) : Memory :=
  fun o => if 4096 * k + o < n then image (4096 * k + o) else residue t s k o

/-- The code pages of a program: its segment and then zeros. -/
def codePage (image : ℕ → UInt8) (filesz k : ℕ) : Memory :=
  fun o => if 4096 * k + o < filesz then image (4096 * k + o) else 0

/-- The argument page when `n` pointers have been set: `argc`, the pointers, the arguments, and
otherwise what was there before. -/
def argPage (argc : ℕ) (argv : Option (ℕ → UInt8)) (old : Memory) (n : ℕ) : Memory := fun o =>
  if o < 4 then UInt8.ofNat (argc / 256 ^ o)
  else if o < 4 + 8 * n then
    UInt8.ofNat ((appsArg + 132 + 32 * ((o - 4) / 8)) / 256 ^ ((o - 4) % 8))
  else if 132 ≤ o ∧ o < 132 + 32 * argc then (argv.map fun args => args (o - 132)).getD (old o)
  else old o

/-- The pages of a program. -/
def appContents (t : Translation) (s : Mmu) (image : ℕ → UInt8) (filesz argc : ℕ)
    (argv : Option (ℕ → UInt8)) (m k : ℕ) : Memory :=
  if k < m then codePage image filesz k
  else if k = m then argPage argc argv (residue t s k) argc
  else residue t s k

/-- The pages in the order in which they are filled. -/
theorem appContents_eq {t : Translation} {s : Mmu} {image : ℕ → UInt8} {filesz argc m k : ℕ}
    {argv : Option (ℕ → UInt8)} (hk : k < m + 2) :
    update (update (codePage image filesz) m (argPage argc argv (residue t s m) argc)) (m + 1)
      (residue t s (m + 1)) k = appContents t s image filesz argc argv m k := by
  unfold appContents
  rcases Nat.lt_trichotomy k m with hkm | rfl | hkm
  · rw [if_pos hkm, update_of_ne (by omega), update_of_ne hkm.ne]
  · rw [if_neg (by omega), if_pos rfl, update_of_ne (by omega), update_self]
  · obtain rfl : k = m + 1 := by omega
    rw [if_neg (by omega), if_neg (by omega), update_self]

/-- A segment that fits leaves room for the arguments. -/
theorem codePages_le {ph : ProgramHeader} (hsize : ph.pFilesz ≤ appsArg - appsEntry) :
    codePages ph ≤ 212 := by
  have hsize : ph.pFilesz ≤ 868352 := hsize
  unfold codePages pagesFor blocksFor
  omega

section

variable {t : Translation} {pid : ℤ} {reader : Reader} {s₀ s : Mmu} {m : ℕ} {image : ℕ → UInt8}

/-- The next page of the program. -/
theorem Loading.mapPage {n : ℕ} {c : ℕ → Memory} (h : Loading t pid s₀ (appPage m) n c s)
    (hm : m ≤ 212) (hn : n < m + 2) :
    wp (Library.mapNext t pid (appPage m n))
      (fun base s' => base = pagingRead (frameOf t s₀ n) ∧
        Loading t pid s₀ (appPage m) (n + 1) (update c n (residue t s₀ n)) s')
      (fun _ _ => Stops t pid s₀ (n + 1)) s := by
  have hlayout := layout_appPage hm
  exact h.mapNext (hlayout.low _ hn) ((hlayout.high _ hn).trans (by decide))
    fun j hj he => hj.ne (hlayout.inj _ _ (hj.trans hn) hn he)

/-! ## Reading the segment -/

/-- One round of the first loop, up to the call of the reader. -/
theorem loadAppPage_spec {b codeStart base : ℕ} (hb : pagesFor (b + 1) ≤ m) (hm : m ≤ 212)
    (hcode : codeStart = 0x40027 + pagesFor b)
    (hbase : 0 < b → base = pagingRead (frameOf t s₀ (pagesFor b - 1)))
    (h : Loading t pid s₀ (appPage m) (pagesFor b) (partlyRead t s₀ image (512 * b)) s) :
    wp (loadAppPage t pid (512 * b) codeStart base)
      (fun x s' => x.1 = 0x40027 + pagesFor (b + 1) ∧
        x.2 = pagingRead (frameOf t s₀ (pagesFor (b + 1) - 1)) ∧
        Loading t pid s₀ (appPage m) (pagesFor (b + 1)) (partlyRead t s₀ image (512 * b)) s')
      (fun _ _ => Stops t pid s₀ (m + 2)) s := by
  unfold loadAppPage
  unfold pagesFor at hb
  split
  · rename_i hfull
    have hfull : 512 * b % 4096 = 0 := hfull
    have hn : pagesFor (b + 1) = pagesFor b + 1 := by
      unfold pagesFor
      omega
    have hlt : pagesFor b < m := by
      unfold pagesFor
      omega
    have hpage : appPage m (pagesFor b) = codeStart := by
      rw [appPage, if_pos hlt, hcode]
    have hmap := h.mapPage hm (by omega)
    rw [hpage] at hmap
    refine wp_call hmap (fun _ _ hs => hs.mono (by omega))
      fun base' s' hs => ?_
    refine ⟨by rw [hcode, hn, Nat.add_assoc], by rw [hs.1, hn, Nat.add_sub_cancel], ?_⟩
    rw [hn]
    refine hs.2.congr fun k hk o ho => ?_
    by_cases hkb : k = pagesFor b
    · -- nothing of the new page has been read
      have hnot : ¬ 4096 * k + o < 512 * b := by
        rw [hkb, pagesFor]
        omega
      rw [hkb, update_self, ← hkb, partlyRead, if_neg hnot]
    · rw [update_of_ne hkb]
  · rename_i hfull
    have hfull : ¬ 512 * b % 4096 = 0 := hfull
    have hn : pagesFor (b + 1) = pagesFor b := by
      unfold pagesFor
      omega
    rw [wp_pure, hn]
    exact ⟨hcode, hbase (by omega), h⟩

/-- One call of the reader. -/
theorem Loading.read {b blockNo : ℕ} (hblock : ∀ j, j < 512 →
      reader ((blockNo : ℤ).bmod (2 ^ 32)) j = image (512 * b + j))
    (h : Loading t pid s₀ (appPage m) (pagesFor (b + 1)) (partlyRead t s₀ image (512 * b)) s) :
    Loading t pid s₀ (appPage m) (pagesFor (b + 1)) (partlyRead t s₀ image (512 * (b + 1)))
      (reader.read blockNo (pagingRead (frameOf t s₀ (pagesFor (b + 1) - 1)) + 512 * b % pageSize)
        s) := by
  have hk : pagesFor (b + 1) - 1 < pagesFor (b + 1) := by
    unfold pagesFor
    omega
  have hpage : 4096 * (pagesFor (b + 1) - 1) + 512 * b % 4096 = 512 * b := by
    unfold pagesFor
    omega
  have hroom : 512 * b % 4096 + 512 ≤ 4096 := by omega
  refine (h.blit hk hroom (reader ((blockNo : ℤ).bmod (2 ^ 32)))).congr fun k hk' o ho => ?_
  by_cases hlast : k = pagesFor (b + 1) - 1
  · subst hlast
    rw [update_self, Memory.blit]
    unfold partlyRead
    split
    · rename_i hin
      rw [hblock _ (by omega), if_pos (by omega)]
      congr 1
      omega
    · exact if_congr (by omega) rfl rfl
  · rw [update_of_ne hlast]
    exact if_congr (by omega) rfl rfl

/-- The first loop of `load_app` from block `b` on. -/
theorem loadAppBlocks_spec {blocks blockOffset : ℕ} (hm : m ≤ 212) (hblocks : pagesFor blocks ≤ m)
    (hread : ∀ b, b < blocks → ∀ j, j < 512 →
      reader (((blockOffset + b : ℕ) : ℤ).bmod (2 ^ 32)) j = image (512 * b + j)) :
    ∀ (n b codeStart base : ℕ) (s : Mmu), b + n = blocks → codeStart = 0x40027 + pagesFor b →
      (0 < b → base = pagingRead (frameOf t s₀ (pagesFor b - 1))) →
      Loading t pid s₀ (appPage m) (pagesFor b) (partlyRead t s₀ image (512 * b)) s →
      wp (loadAppBlocks t pid reader n (blockOffset + b) (512 * b) codeStart base)
        (fun x s' => x.1 = 0x40027 + pagesFor blocks ∧
          (0 < blocks → x.2 = pagingRead (frameOf t s₀ (pagesFor blocks - 1))) ∧
          Loading t pid s₀ (appPage m) (pagesFor blocks)
            (partlyRead t s₀ image (512 * blocks)) s')
        (fun _ _ => Stops t pid s₀ (m + 2)) s
  | 0, b, codeStart, base, s, hb, hcode, hbase, h => by
    obtain rfl : b = blocks := hb
    exact ⟨hcode, hbase, h⟩
  | n + 1, b, codeStart, base, s, hb, hcode, hbase, h => by
    have hle : pagesFor (b + 1) ≤ m := by
      refine le_trans ?_ hblocks
      unfold pagesFor
      omega
    rw [loadAppBlocks]
    refine wp_seq (loadAppPage_spec hle hm hcode hbase h) fun x s' hs => ?_
    obtain ⟨codeStart', base'⟩ := x
    obtain ⟨hcode', rfl, hs'⟩ := hs
    rw [wp_bind, wp_modify]
    refine loadAppBlocks_spec hm hblocks hread n (b + 1) codeStart' _ _ (by omega) hcode'
      (fun _ => rfl) ?_
    exact hs'.read (hread b (by omega))

/-- The rest of the last page is cleared. -/
theorem Loading.clear {filesz base : ℕ}
    (hbase : 0 < blocksFor filesz →
      base = pagingRead (frameOf t s₀ (pagesFor (blocksFor filesz) - 1)))
    (h : Loading t pid s₀ (appPage m) (pagesFor (blocksFor filesz))
      (partlyRead t s₀ image (512 * blocksFor filesz)) s) :
    Loading t pid s₀ (appPage m) (pagesFor (blocksFor filesz)) (codePage image filesz)
      (if filesz % pageSize ≠ 0 then
        { s with mem := s.mem.memset (base + filesz % pageSize) 0 (pageSize - filesz % pageSize) }
      else s) := by
  have hblocks : filesz ≤ 512 * blocksFor filesz ∧ 512 * blocksFor filesz < filesz + 512 := by
    unfold blocksFor
    omega
  split
  · rename_i hpart
    have hpart : filesz % 4096 ≠ 0 := hpart
    have hk : pagesFor (blocksFor filesz) - 1 < pagesFor (blocksFor filesz) := by
      unfold pagesFor
      omega
    have hlast : 4096 * (pagesFor (blocksFor filesz) - 1) + filesz % 4096 = filesz := by
      unfold pagesFor blocksFor
      omega
    rw [hbase (by omega)]
    refine (h.memset hk (Nat.add_sub_of_le (Nat.mod_lt _ (by decide)).le).le 0).congr
      fun k hk' o ho => ?_
    by_cases hkl : k = pagesFor (blocksFor filesz) - 1
    · subst hkl
      rw [update_self, Memory.memset]
      unfold partlyRead codePage
      split
      · rw [if_neg (by omega)]
      · rw [if_pos (by omega), if_pos (by omega)]
    · rw [update_of_ne hkl, partlyRead, codePage, if_pos (by omega), if_pos (by omega)]
  · rename_i hpart
    have hpart : ¬ filesz % 4096 ≠ 0 := hpart
    refine h.congr fun k hk o ho => ?_
    have hin : 4096 * k + o < filesz := by
      unfold pagesFor blocksFor at hk
      omega
    rw [partlyRead, codePage, if_pos (by omega), if_pos hin]

/-- The second loop of `load_app`. -/
theorem loadAppZeros_spec {filesz : ℕ} (hm : m ≤ 212) :
    ∀ (n k codeStart : ℕ) (s : Mmu), k + n = m → codeStart = 0x40027 + k → filesz ≤ 4096 * k →
      Loading t pid s₀ (appPage m) k (codePage image filesz) s →
      wp (loadAppZeros t pid n codeStart)
        (fun _ s' => Loading t pid s₀ (appPage m) m (codePage image filesz) s')
        (fun _ _ => Stops t pid s₀ (m + 2)) s
  | 0, k, codeStart, s, hk, _, _, h => by
    obtain rfl : k = m := hk
    exact h
  | n + 1, k, codeStart, s, hk, hcode, hsize, h => by
    have hpage : appPage m k = codeStart := by
      rw [appPage, if_pos (by omega), hcode]
    have hmap := h.mapPage hm (by omega)
    rw [hpage] at hmap
    rw [loadAppZeros]
    refine wp_call hmap (fun _ _ hs => hs.mono (by omega))
      fun base s' hs => ?_
    rw [wp_bind, wp_modify, hs.1]
    refine loadAppZeros_spec hm n (k + 1) (codeStart + 1) _ (by omega) (by omega) (by omega) ?_
    have hclear := hs.2.memset (k := k) (b := 0) (m := pageSize) (by omega) (by decide) 0
    refine hclear.congr fun j hj o ho => ?_
    by_cases hjk : j = k
    · subst hjk
      rw [update_self, Memory.memset, codePage, if_pos ⟨Nat.zero_le _, by simpa using ho⟩,
        if_neg (by omega)]
    · rw [update_of_ne hjk, update_of_ne hjk]

/-! ## Arguments -/

variable {argc : ℕ} {argv : Option (ℕ → UInt8)} {c : ℕ → Memory}

/-- The loop that sets the pointers. -/
theorem loadAppArgv_spec (hargc : 4 + 8 * argc ≤ 4096) {old : Memory} :
    ∀ (n i : ℕ) (s : Mmu), i + n = argc →
      Loading t pid s₀ (appPage m) (m + 1) (update c m (argPage argc argv old i)) s →
      wp (loadAppArgv (pagingRead (frameOf t s₀ m) + 4) n i)
        (fun _ s' => Loading t pid s₀ (appPage m) (m + 1)
          (update c m (argPage argc argv old argc)) s')
        (fun _ _ => Stops t pid s₀ (m + 2)) s
  | 0, i, s, hi, h => by
    obtain rfl : i = argc := hi
    exact h
  | n + 1, i, s, hi, h => by
    rw [loadAppArgv, wp_bind, wp_modify]
    refine loadAppArgv_spec hargc n (i + 1) _ (by omega) ?_
    have hset := h.writeLE (k := m) (b := 4 + 8 * i) (m := 8) (by omega) (by omega)
      (appsArg + 4 + 8 * cmdNargs + i * cmdArgLen)
    rw [← Nat.add_assoc, update_self, Function.update_idem] at hset
    refine hset.congr fun k hk o ho => ?_
    by_cases hkm : k = m
    · subst hkm
      rw [update_self, update_self, Memory.writeLE]
      unfold argPage
      split
      · -- pointer `i`
        rename_i hin
        have hidx : (o - 4) / 8 = i ∧ (o - 4) % 8 = o - (4 + 8 * i) := by omega
        rw [if_neg (by omega), if_pos (by omega), hidx.1, hidx.2]
        congr 2
        change 1074769920 + 4 + 8 * 16 + i * 32 = 1074769920 + 132 + 32 * i
        omega
      · exact if_congr Iff.rfl rfl (if_congr (by omega) rfl rfl)
    · rw [update_of_ne hkm, update_of_ne hkm]

/-- `argc` and the arguments are stored before the pointers. -/
theorem Loading.args {old : Memory} (argv : Option (ℕ → UInt8))
    (h : Loading t pid s₀ (appPage m) (m + 1) (update c m old) s)
    (hargc : 132 + 32 * argc ≤ 4096) :
    Loading t pid s₀ (appPage m) (m + 1) (update c m (argPage argc argv old 0))
      (match argv with
        | some args => { s with
            mem := (s.mem.writeLE (pagingRead (frameOf t s₀ m)) 4 argc).blit
              (pagingRead (frameOf t s₀ m) + 4 + 8 * cmdNargs) (argc * cmdArgLen) args }
        | none => { s with mem := s.mem.writeLE (pagingRead (frameOf t s₀ m)) 4 argc }) := by
  have hargc' := h.writeLE (k := m) (b := 0) (m := 4) (by omega) (by omega) argc
  rw [update_self, Function.update_idem, Nat.add_zero] at hargc'
  cases argv with
  | none =>
    refine hargc'.congr fun k hk o ho => ?_
    by_cases hkm : k = m
    · subst hkm
      rw [update_self, update_self, Memory.writeLE, argPage]
      by_cases ho4 : o < 4
      · rw [if_pos (by omega), if_pos ho4, Nat.sub_zero]
      · rw [if_neg (by omega), if_neg ho4, if_neg (by omega), Option.map_none, Option.getD_none,
          ite_self]
    · rw [update_of_ne hkm, update_of_ne hkm]
  | some args =>
    have hargv := hargc'.blit (k := m) (b := 132) (m := argc * 32) (by omega) (by omega) args
    rw [update_self, Function.update_idem] at hargv
    refine hargv.congr fun k hk o ho => ?_
    by_cases hkm : k = m
    · subst hkm
      rw [update_self, update_self, Memory.blit, argPage]
      by_cases hin : 132 ≤ o ∧ o < 132 + 32 * argc
      · rw [if_pos (by omega), if_neg (by omega), if_neg (by omega), if_pos hin]
        rfl
      · rw [if_neg (by omega), if_neg hin, Memory.writeLE]
        by_cases ho4 : o < 4
        · rw [if_pos (by omega), if_pos ho4, Nat.sub_zero]
        · rw [if_neg (by omega), if_neg ho4, if_neg (by omega)]
    · rw [update_of_ne hkm, update_of_ne hkm]

/-! ## The program -/

/-- `load_app` of a segment that ends below `APPS_ARG`. -/
theorem loadApp_spec {ph : ProgramHeader} (hfresh : Fresh t pid s₀)
    (hsize : ph.pFilesz ≤ appsArg - appsEntry) (hargc : 132 + 32 * argc ≤ 4096)
    (hread : ∀ b, b < blocksFor ph.pFilesz → ∀ j, j < 512 →
      reader (((ph.pOffset / 512 + b : ℕ) : ℤ).bmod (2 ^ 32)) j = image (512 * b + j)) :
    wp (loadApp t pid reader argc argv ph)
      (fun _ s' => Loading t pid s₀ (appPage (codePages ph)) (codePages ph + 2)
        (appContents t s₀ image ph.pFilesz argc argv (codePages ph)) s')
      (fun _ _ => Stops t pid s₀ (codePages ph + 2)) s₀ := by
  have hblocks : pagesFor (blocksFor ph.pFilesz) ≤ codePages ph := le_max_right _ _
  have hcode : codePages ph
      = pagesFor (blocksFor ph.pFilesz) + (4 - pagesFor (blocksFor ph.pFilesz)) := by
    unfold codePages
    omega
  have hm := codePages_le hsize
  have hcover : ph.pFilesz ≤ 4096 * pagesFor (blocksFor ph.pFilesz) := by
    unfold pagesFor blocksFor
    omega
  generalize codePages ph = m at *
  unfold loadApp
  have hstart : Loading t pid s₀ (appPage m) (pagesFor 0) (partlyRead t s₀ image (512 * 0)) s₀ :=
    .start hfresh
  refine wp_seq (loadAppBlocks_spec hm hblocks hread (blocksFor ph.pFilesz) 0 _ 0 s₀ (by omega) rfl
    (fun h => absurd h (by decide)) hstart) fun x s₁ hs₁ => ?_
  obtain ⟨codeStart, base⟩ := x
  obtain ⟨hstart', hbase, hs₁⟩ := hs₁
  rw [wp_bind, wp_modify]
  have hzeros : ((appsEntry + appsSize) >>> 12) - codeStart
      = 4 - pagesFor (blocksFor ph.pFilesz) := by
    have : (appsEntry + appsSize) >>> 12 = 0x4002B := by decide
    dsimp only at hstart'
    omega
  rw [hzeros]
  refine wp_seq (loadAppZeros_spec hm _ _ codeStart _ hcode.symm hstart' hcover (hs₁.clear hbase))
    fun _ s₂ hs₂ => ?_
  -- the argument page
  have hargPage : appPage m m = appsArg >>> 12 := by
    rw [appPage, if_neg (by omega), Nat.sub_self]
    rfl
  have hmap := hs₂.mapPage hm (by omega)
  rw [hargPage] at hmap
  refine wp_call hmap (fun _ _ hs => hs.mono (by omega))
    fun base' s₃ hs₃ => ?_
  obtain ⟨rfl, hs₃⟩ := hs₃
  have hpointers : 4 + 8 * argc ≤ 4096 := by omega
  have hargs := loadAppArgv_spec hpointers argc 0 _ (Nat.zero_add argc) (hs₃.args argv hargc)
  rw [wp_bind, wp_modify, wp_bind, wp_modify]
  refine wp_seq hargs fun _ s₄ hs₄ => ?_
  -- the stack page
  have hstackPage : appPage m (m + 1) = (appsArg >>> 12) + 1 := by
    rw [appPage, if_neg (by omega), Nat.add_sub_cancel_left]
    rfl
  have hmap' := hs₄.mapPage hm (Nat.lt_succ_self _)
  rw [hstackPage] at hmap'
  exact wp_seq hmap' fun _ s₅ hs₅ => hs₅.2.congr fun k hk o _ => congrFun (appContents_eq hk) o

end

/-! ## The executable -/

/-- An executable whose only nonempty program header, as `elf_load` finds it in its buffer, is `ph`,
which is for `APPS_ENTRY`. -/
structure AppImage (reader : Reader) (ph : ProgramHeader) : Prop where
  only : ∃ i, i < ePhnum (reader 0) ∧ programHeader (reader 0) i = ph ∧
    ∀ j, j < ePhnum (reader 0) → j ≠ i → (programHeader (reader 0) j).pMemsz = 0
  nonempty : ph.pMemsz ≠ 0
  vaddr : ph.pVaddr = appsEntry

/-- Byte `x` of a segment, as the loader asks the reader for it. -/
def segmentByte (reader : Reader) (ph : ProgramHeader) (x : ℕ) : UInt8 :=
  reader (((ph.pOffset / 512 + x / 512 : ℕ) : ℤ).bmod (2 ^ 32)) (x % 512)

section

variable {t : Translation} {pid : ℤ} {reader : Reader} {ph : ProgramHeader} {argc : ℕ}
  {argv : Option (ℕ → UInt8)} {s : Mmu}

/-- A segment without memory is skipped. -/
theorem elfLoadSegment_empty {buf : Memory} {i : ℕ} (h : (programHeader buf i).pMemsz = 0) :
    elfLoadSegment t pid reader argc argv buf i = pure () := if_pos h

/-- A segment at `APPS_ENTRY` is for an application. -/
theorem elfLoadSegment_app {buf : Memory} {i : ℕ} (h : (programHeader buf i).pMemsz ≠ 0)
    (haddr : (programHeader buf i).pVaddr = appsEntry) :
    elfLoadSegment t pid reader argc argv buf i
      = loadApp t pid reader argc argv (programHeader buf i) := by
  have hentry : ¬ appsEntry = grassEntry := by decide
  rw [elfLoadSegment, if_neg h, haddr, if_neg hentry, if_pos rfl]

/-- Empty program headers are passed over. -/
theorem elfLoadSegments_empty {buf : Memory} {n i : ℕ}
    (h : ∀ j, i ≤ j → j < i + n → (programHeader buf j).pMemsz = 0) :
    elfLoadSegments t pid reader argc argv buf n i = pure () := by
  induction n generalizing i with
  | zero => rfl
  | succ n ih =>
    rw [elfLoadSegments, elfLoadSegment_empty (h i (by omega) (by omega)), pure_bind]
    exact ih fun j hj hj' => h j (by omega) (by omega)

/-- `elf_load` of an executable with one nonempty program header loads its segment. -/
theorem elfLoad_eq_segment {i : ℕ} (hi : i < ePhnum (reader 0))
    (hothers : ∀ j, j < ePhnum (reader 0) → j ≠ i → (programHeader (reader 0) j).pMemsz = 0) :
    elfLoad t pid reader argc argv = elfLoadSegment t pid reader argc argv (reader 0) i := by
  unfold elfLoad
  generalize reader 0 = buf at *
  -- from any header up to the nonempty one
  have hfrom : ∀ d n k, k + d = i → k + n = ePhnum buf →
      elfLoadSegments t pid reader argc argv buf n k
        = elfLoadSegment t pid reader argc argv buf i := by
    intro d
    induction d with
    | zero =>
      intro n k hk hn
      have hk : k = i := hk
      have hpos : n = n - 1 + 1 := by omega
      rw [hpos, elfLoadSegments, hk,
        elfLoadSegments_empty fun j hj hj' => hothers j (by omega) (by omega)]
      exact bind_pure_unit
    | succ d ih =>
      intro n k hk hn
      have hpos : n = n - 1 + 1 := by omega
      rw [hpos, elfLoadSegments, elfLoadSegment_empty (hothers k (by omega) (by omega)), pure_bind]
      exact ih (n - 1) (k + 1) (by omega) (by omega)
  exact hfrom i _ 0 (Nat.zero_add i) (Nat.zero_add _)

/-- `elf_load` of a program loads its segment. -/
theorem elfLoad_eq_loadApp (himage : AppImage reader ph) :
    elfLoad t pid reader argc argv = loadApp t pid reader argc argv ph := by
  obtain ⟨i, hi, hph, hothers⟩ := himage.only
  rw [elfLoad_eq_segment hi hothers, elfLoadSegment_app, hph]
  · exact hph ▸ himage.nonempty
  · exact hph ▸ himage.vaddr

/-- `load_app` of a program that ends below `APPS_ARG`. -/
theorem loadApp_segment (argv : Option (ℕ → UInt8)) (hfresh : Fresh t pid s)
    (hsize : ph.pFilesz ≤ appsArg - appsEntry) (hargc : 132 + 32 * argc ≤ 4096) :
    wp (loadApp t pid reader argc argv ph)
      (fun _ s' => Loading t pid s (appPage (codePages ph)) (codePages ph + 2)
        (appContents t s (segmentByte reader ph) ph.pFilesz argc argv (codePages ph)) s')
      (fun _ _ => Stops t pid s (codePages ph + 2)) s := by
  refine loadApp_spec hfresh hsize hargc fun b _ j hj => ?_
  have hblock : (512 * b + j) / 512 = b := by omega
  have hoff : (512 * b + j) % 512 = j := by omega
  rw [segmentByte, hblock, hoff]

/-- `elf_load` of a program that ends below `APPS_ARG`. -/
theorem elfLoad_spec (argv : Option (ℕ → UInt8)) (himage : AppImage reader ph)
    (hfresh : Fresh t pid s) (hsize : ph.pFilesz ≤ appsArg - appsEntry)
    (hargc : 132 + 32 * argc ≤ 4096) :
    wp (elfLoad t pid reader argc argv)
      (fun _ s' => Loading t pid s (appPage (codePages ph)) (codePages ph + 2)
        (appContents t s (segmentByte reader ph) ph.pFilesz argc argv (codePages ph)) s')
      (fun _ _ => Stops t pid s (codePages ph + 2)) s := by
  rw [elfLoad_eq_loadApp himage]
  exact loadApp_segment argv hfresh hsize hargc

end

end Egos.Library
