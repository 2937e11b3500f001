import Egos.Earth.FreshSpace
import Egos.Earth.SoftTlb
import Egos.Library.Elf
import Mathlib.Data.List.GetD

/-!
# The memory of a process that is being loaded

The loader gives a new process one page after another and fills each through the address of its
frame. `Loading` is what holds in between, for both mechanisms: which frames have been taken, that
the pages will be found in them, what the pages hold, and that nothing else has changed. What the
process sees once it is switched in follows (`Loading.sees`).
-/

namespace Egos.Earth

open Function (update update_self update_of_ne)

/-! ## What a process sees -/

/-- The byte that user code reads at an address: with the software TLB it is in memory there, with
page tables it is where the tables that `satp` points to say. -/
def Mmu.sees (t : Translation) (s : Mmu) (va : ℕ) : Option UInt8 :=
  match t with
  | .softTlb => some (s.mem va)
  | .pageTable =>
    if s.satp / 2 ^ 60 = 8 then
      match Sv39.translate s.mem (s.satp % 2 ^ 44 * 2 ^ 12) va with
      | some ⟨pa, true⟩ => some (s.mem (pa + va % 2 ^ 12))
      | _ => none
    else some (s.mem va)

/-- The little-endian integer of `n` bytes that user code reads at an address. -/
def Mmu.seesWord (t : Translation) (s : Mmu) : ℕ → ℕ → Option ℕ
  | _, 0 => some 0
  | va, n + 1 => do
    let byte ← s.sees t va
    let rest ← s.seesWord t (va + 1) n
    pure (byte.toNat + 256 * rest)

/-- A word is seen if its bytes are. -/
theorem Mmu.seesWord_eq {t : Translation} {s : Mmu} (mem : Memory) : ∀ {n va : ℕ} (a : ℕ),
    (∀ j, j < n → s.sees t (va + j) = some (mem (a + j))) →
      s.seesWord t va n = some (mem.readLE a n)
  | 0, _, _, _ => rfl
  | n + 1, va, a, h => by
    have hrest : s.seesWord t (va + 1) n = some (mem.readLE (a + 1) n) := by
      refine Mmu.seesWord_eq mem (a + 1) fun j hj => ?_
      rw [Nat.add_assoc, Nat.add_assoc, Nat.add_comm 1 j]
      exact h (j + 1) (by omega)
    have hbyte : s.sees t va = some (mem a) := h 0 (by omega)
    rw [Mmu.seesWord, hbyte, hrest]
    rfl

/-- `curr_vm_pid` of the mechanism in use. -/
def Mmu.vmPid (t : Translation) (s : Mmu) : ℤ :=
  match t with
  | .softTlb => s.softTlbPid
  | .pageTable => s.pageTablePid

/-- `MAKE_SATP` of a page: the mode and the page number. -/
theorem makeSatp_eq {n : ℕ} (hn : n < 2 ^ 44) : makeSatp (n * 2 ^ 12) = 8 * 2 ^ 60 + n := by
  have hpage : (n * 2 ^ 12) >>> 12 = n := by
    rw [Nat.shiftRight_eq_div_pow, Nat.mul_div_cancel _ (by decide)]
  have hmode : (8 : ℕ) <<< 60 = 2 ^ 63 * 1 := by decide
  rw [makeSatp, hpage, hmode, ← Nat.two_pow_add_eq_or_of_lt (by omega)]
  omega

end Egos.Earth

namespace Egos.Library

open Egos.Earth
open Function (update update_self update_of_ne)

/-! ## Frames -/

/-- The number of frames taken for the first `n` pages of a process. With page tables, the first
page takes 6 more for tables. -/
def framesTaken (t : Translation) (n : ℕ) : ℕ :=
  match t with
  | .softTlb => n
  | .pageTable => if n = 0 then 0 else n + 6

/-- The frame that page `k` of a process gets: the first one that is left. -/
def frameOf (t : Translation) (s : Mmu) (k : ℕ) : Fin nframes :=
  s.freeFrames.getD (framesTaken t k) 0

/-- Before the first page no frame is taken. -/
theorem framesTaken_zero (t : Translation) : framesTaken t 0 = 0 := by
  cases t <;> rfl

/-- Every page takes a frame. -/
theorem framesTaken_lt (t : Translation) {k n : ℕ} (h : k < n) :
    framesTaken t k < framesTaken t n := by
  cases t
  · simp only [framesTaken]
    split_ifs <;> omega
  · exact h

/-- The loader stops before `n` pages are loaded: there are too few free frames, or the pid is too
large for page tables. -/
def Stops (t : Translation) (pid : ℤ) (s : Mmu) (n : ℕ) : Prop :=
  s.freeFrames.length < framesTaken t n ∨ (t = .pageTable ∧ 32 ≤ pid)

/-- A process that cannot have `n` pages cannot have more. -/
theorem Stops.mono {t : Translation} {pid : ℤ} {s : Mmu} {n m : ℕ} (h : Stops t pid s n)
    (hnm : n ≤ m) : Stops t pid s m := by
  rcases Nat.eq_or_lt_of_le hnm with rfl | hlt
  · exact h
  · exact h.imp (·.trans (framesTaken_lt t hlt)) id

/-! ## Pages in frames -/

/-- The tables of a process: on the way to its identity regions, and to memory. -/
def appTables : Finset Node :=
  {.root, .l1 0, .leaf 0 18, .leaf 0 32, .l1 1, .leaf 1 0}

/-- A program has six page tables. -/
theorem ncard_appTables : (↑appTables : Set Node).ncard = 6 := by
  rw [Set.ncard_coe_finset]
  rfl

/-- The nodes on the way to a page of the memory of programs. -/
theorem path_memory {v : ℕ} (h : 0x40000 ≤ v) (h' : v < 0x40200) :
    path (v * 2 ^ 12) = {.root} ∪ ({.l1 1} ∪ {.leaf 1 0}) := by
  have h2 : Sv39.vpn (v * 2 ^ 12) 2 = 1 := by
    simp only [Sv39.vpn]
    omega
  have h1 : Sv39.vpn (v * 2 ^ 12) 1 = 0 := by
    simp only [Sv39.vpn]
    omega
  rw [path, h2, h1]

/-- They are among the page tables of a program. -/
theorem path_memory_subset {v : ℕ} (h : 0x40000 ≤ v) (h' : v < 0x40200) :
    path (v * 2 ^ 12) ⊆ appTables := by
  rw [path_memory h h']
  intro n hn
  simp only [Set.mem_union, Set.mem_singleton_iff] at hn
  rcases hn with rfl | rfl | rfl <;> decide

/-- The identity mapping has the same page tables, whatever the process. -/
theorem paths_identityRegions (p : ℤ) : paths (identityRegions p) = appTables := by
  have hdev : path 0x02500000 = {.root} ∪ ({.l1 0} ∪ {.leaf 0 18}) := rfl
  have hdev' : path 0x04020000 = {.root} ∪ ({.l1 0} ∪ {.leaf 0 32}) := rfl
  have hregions : ∀ r ∈ (identityRegions p).drop 2, ∃ v, r.1 = v * 2 ^ 12 ∧ 0x40000 ≤ v ∧
      v < 0x40200 := by
    intro r hr
    unfold identityRegions at hr
    refine ⟨r.1 / 2 ^ 12, ?_⟩
    split_ifs at hr <;> simp only [List.drop_succ_cons, List.drop_zero, List.mem_cons,
      List.not_mem_nil, or_false] at hr <;>
      rcases hr with rfl | rfl | rfl | rfl | rfl | rfl | rfl <;> decide
  have hrest : paths ((identityRegions p).drop 2) = {.root} ∪ ({.l1 1} ∪ {.leaf 1 0}) := by
    refine Set.Subset.antisymm ?_ fun n hn => ?_
    · rintro n ⟨r, hr, hn⟩
      obtain ⟨v, hv, hle, hlt⟩ := hregions r hr
      rwa [hv, path_memory hle hlt] at hn
    · obtain ⟨r, hr⟩ : ∃ r, r ∈ (identityRegions p).drop 2 := by
        unfold identityRegions
        split_ifs
        · exact ⟨_, List.mem_cons_self⟩
        · exact ⟨_, List.mem_cons_self⟩
        · exact ⟨_, List.mem_cons_self⟩
      obtain ⟨v, hv, hle, hlt⟩ := hregions r hr
      refine ⟨r, hr, ?_⟩
      rwa [hv, path_memory hle hlt]
  have hsplit : identityRegions p = (0x02500000, 1) :: (0x04020000, 3) ::
      (identityRegions p).drop 2 := rfl
  rw [hsplit, paths_cons, paths_cons, hdev, hdev', hrest]
  ext n
  simp only [appTables, Finset.coe_insert, Finset.coe_singleton, Set.mem_union,
    Set.mem_insert_iff, Set.mem_singleton_iff]
  tauto

/-- With the software TLB, the frame table has the pages of the process and no others. -/
structure SoftPages (pid : ℤ) (no : ℕ → ℕ) (frame : ℕ → Fin nframes) (n : ℕ) (s : Mmu) :
    Prop where
  page : ∀ k, k < n → s.table (frame k) = ⟨true, pid, no k⟩
  only : ∀ i, s.Owns pid i → ∃ k, k < n ∧ i = frame k

/-- With page tables, the tables of the process have its pages. The state `t` is the same to it and
has the invariant of page-table mode; no frame in use at the start is a table of the process. -/
structure TablePages (pid : ℤ) (s₀ : Mmu) (no : ℕ → ℕ) (frame : ℕ → Fin nframes) (n : ℕ) (s : Mmu)
    (g : Ghost) (t : Mmu) : Prop where
  same : SameFor pid s t
  tables : PageTables g t
  live : ¬ g.dead pid
  nodes : tablesOf g.kind pid = if n = 0 then ∅ else ↑appTables
  page : ∀ k, k < n → g.kind (frame k) = .data ∧ g.maps pid (no k) = some (framePpn (frame k), true)
  old : ∀ i, (s₀.table i).use = true → g.kind i = .data

/-- A frame that becomes a data page is not a table. -/
theorem tablesOf_update_data {kind : Fin nframes → Kind} {i : Fin nframes} {p : ℤ}
    (hi : kind i = .free) : tablesOf (update kind i .data) p = tablesOf kind p := by
  ext m
  refine exists_congr fun j => ?_
  by_cases hj : j = i
  · subst hj
    rw [update_self, hi]
    simp
  · rw [update_of_ne hj]

namespace TablePages

variable {pid : ℤ} {s₀ s : Mmu} {no : ℕ → ℕ} {frame : ℕ → Fin nframes} {n : ℕ} {g : Ghost}
  {t : Mmu}

/-- A process has a root page table once it has a page. -/
theorem base_eq_zero_iff (h : TablePages pid s₀ no frame n s g t) :
    t.pidToPagetableBase pid = 0 ↔ n = 0 := by
  constructor
  · intro hb
    by_contra hn
    have hroot : Node.root ∈ tablesOf g.kind pid := by
      rw [h.nodes, if_neg hn]
      exact Finset.mem_coe.2 (by decide)
    obtain ⟨i, hi⟩ := hroot
    exact h.tables.no_tables hb _ hi
  · intro hn
    by_contra hb
    have hroot : Node.root ∈ tablesOf g.kind pid := h.tables.root pid h.live hb
    rw [h.nodes, if_pos hn] at hroot
    exact hroot

/-- After the next page has been mapped, the process has all of its tables: the first page takes 6
frames for them, and the others none. -/
theorem nodes_next (h : TablePages pid s₀ no frame n s g t) (hlow : 0x40000 ≤ no n)
    (hhigh : no n < 0x40200) :
    tablesOf g.kind pid ∪ mapNodes t pid (no n) = ↑appTables ∧
      framesTaken .pageTable n + 1 + 6
        = framesTaken .pageTable (n + 1) + (tablesOf g.kind pid).ncard := by
  have hpath : path (pageAddr (no n)) ⊆ appTables := by
    rw [pageAddr_eq (by omega)]
    exact path_memory_subset hlow hhigh
  rw [mapNodes, h.nodes]
  by_cases hn : n = 0
  · rw [if_pos (h.base_eq_zero_iff.2 hn), if_pos hn, Set.empty_union, paths_identityRegions,
      Set.union_eq_self_of_subset_right hpath, Set.ncard_empty, hn]
    exact ⟨rfl, rfl⟩
  · rw [if_neg fun hb => hn (h.base_eq_zero_iff.1 hb), if_neg hn, Set.empty_union,
      Set.union_eq_self_of_subset_right hpath, ncard_appTables]
    refine ⟨rfl, ?_⟩
    simp only [framesTaken, hn, if_false, Nat.succ_ne_zero]

/-- The pages of the process after the next one has been mapped. -/
theorem next (h : TablePages pid s₀ no frame n s g t) {s' t' : Mmu} {g' : Ghost} {i : Fin nframes}
    (hnew : ∀ k, k < n → no k ≠ no n) (hi : i = frame n) (hsame : SameFor pid s' t')
    (htables : PageTables g' t') (hlive : ¬ g'.dead pid)
    (hmaps : ∀ w, g'.maps pid w
      = if w = no n then some (framePpn i, true) else (g.ensureIdentity t pid).maps pid w)
    (hdata : ∀ j, update g.kind i .data j = .data → g'.kind j = .data)
    (hnodes : tablesOf g'.kind pid = ↑appTables) :
    TablePages pid s₀ no frame (n + 1) s' g' t' := by
  have hkeep : ∀ j, g.kind j = .data → g'.kind j = .data := fun j hj => by
    refine hdata j ?_
    by_cases hji : j = i
    · rw [hji, update_self]
    · rw [update_of_ne hji, hj]
  refine ⟨hsame, htables, hlive, hnodes, fun k hk => ?_, fun j hj => hkeep j (h.old j hj)⟩
  rcases Nat.lt_succ_iff_lt_or_eq.1 hk with hk | rfl
  · obtain ⟨hkind, hpage⟩ := h.page k hk
    refine ⟨hkeep _ hkind, ?_⟩
    have hbase : t.pidToPagetableBase pid ≠ 0 := fun hb => by
      have := h.base_eq_zero_iff.1 hb
      omega
    rw [hmaps, if_neg (hnew k hk), Ghost.ensureIdentity, if_neg hbase, hpage]
  · rw [hmaps, if_pos rfl, hi]
    exact ⟨hdata _ (by rw [hi, update_self]), rfl⟩

/-- `page_table_map` of the next page. -/
theorem map (h : TablePages pid s₀ no frame n s g t) (hlow : 0x40000 ≤ no n)
    (hhigh : no n < 0x40200) (hnew : ∀ k, k < n → no k ≠ no n) {rest : List (Fin nframes)}
    (hfree : s.freeFrames = frame n :: rest) :
    wp (pageTableMap pid (no n) (frame n))
      (fun _ s' => pid < 32 ∧ ∃ g' t', TablePages pid s₀ no frame (n + 1) s' g' t' ∧
        s'.freeFrames <:+ rest ∧
        s'.freeFrames.length + 6 = rest.length + (tablesOf g.kind pid).ncard ∧
        (∀ a, (∀ i m, g'.kind i = .table pid m → ¬ InFrame i a) → s'.mem a = s.mem a) ∧
        s'.pageTablePid = s.pageTablePid)
      (fun _ _ => 32 ≤ pid ∨ rest.length + (tablesOf g.kind pid).ncard < 6)
      (s.setFrame (frame n) fun e => { e with use := true }) := by
  have hfree' : t.freeFrames = frame n :: rest := h.same.freeFrames ▸ hfree
  have huse : (t.table (frame n)).use = false :=
    Mmu.mem_freeFrames.1 (hfree' ▸ List.mem_cons_self)
  have htables := tablesOf_update_data (p := pid) (h.tables.kind_free huse)
  have hnodes := (h.nodes_next hlow hhigh).1
  have hrest : (t.setFrame (frame n) fun e => { e with use := true }).freeFrames = rest :=
    Mmu.freeFrames_take hfree' rfl rfl
  have hspec := pageTableMap_spec (p := pid) (h.tables.allocData huse) h.live
    (v := no n) (by omega) (frame n)
  refine wp_mono ((lockstep_pageTableMap (no n) (frame n)).wp
    (h.same.setFrame _ fun _ _ _ => rfl) hspec) (fun _ s' hs => ?_) fun _ _ hs => ?_
  · obtain ⟨t', hsame, hsmall, kind', hgrow, -, htab⟩ := hs
    have hall : tablesOf kind' pid = ↑appTables := by
      rw [hgrow.tables, htables]
      exact hnodes
    have hcount := hgrow.count
    rw [hall, htables, hrest, ncard_appTables] at hcount
    have hsuffix := hgrow.free
    rw [hrest] at hsuffix
    refine ⟨hsmall, _, t', h.next hnew rfl hsame htab ?_ (fun w => ?_) (fun j hj => ?_) hall,
      hsame.freeFrames ▸ hsuffix, hsame.freeFrames ▸ hcount, fun a ha => ?_, ?_⟩
    · simp only [Ghost.setPage, Ghost.ensureIdentity]
      split <;> exact h.live
    · simp only [Ghost.setPage, Ghost.ensureIdentity, true_and, Nat.mod_eq_of_lt
        (show no n < 2 ^ 27 by omega)]
      refine if_congr Iff.rfl rfl ?_
      change Ghost.maps (if t.pidToPagetableBase pid = 0 then _ else _) pid w = _
      split <;> rfl
    · have hne : update g.kind (frame n) .data j ≠ .free := by simp [hj]
      exact (hgrow.kind j hne).trans hj
    · rw [hsame.mem, hgrow.mem a ha, h.same.mem]
      rfl
    · rw [hsame.pageTablePid, hgrow.pageTablePid]
      exact h.same.pageTablePid.symm
  · obtain ⟨-, hs | hs⟩ := hs
    · exact Or.inl hs
    · unfold Short at hs
      rw [htables, hrest] at hs
      exact Or.inr (hs.trans_eq ((congrArg Set.ncard hnodes).trans ncard_appTables))

end TablePages

/-- The first `n` pages of a process are in their frames. -/
def InFrames (t : Translation) (pid : ℤ) (s₀ : Mmu) (no : ℕ → ℕ) (n : ℕ) (s : Mmu) : Prop :=
  match t with
  | .softTlb => SoftPages pid no (frameOf t s₀) n s
  | .pageTable => ∃ g r, TablePages pid s₀ no (frameOf t s₀) n s g r

/-- From state `s₀`, the first `n` pages of a process have been loaded: page `k` has the number
`no k` and holds `c k`. -/
structure Loading (t : Translation) (pid : ℤ) (s₀ : Mmu) (no : ℕ → ℕ) (n : ℕ)
    (c : ℕ → Memory) (s : Mmu) : Prop where
  enough : framesTaken t n ≤ s₀.freeFrames.length
  small : 0 < n → t = .pageTable → pid < 32
  free : s.freeFrames = s₀.freeFrames.drop (framesTaken t n)
  pages : InFrames t pid s₀ no n s
  bytes : ∀ k, k < n → ∀ o, o < 4096 → s.mem (pagingRead (frameOf t s₀ k) + o) = c k o
  mem : ∀ a, (∀ i ∈ s₀.freeFrames.take (framesTaken t n), ¬ InFrame i a) → s.mem a = s₀.mem a
  vmPid : s.vmPid t = s₀.vmPid t

/-- A process that has no frames or no page tables, and is not switched in. -/
def Fresh (t : Translation) (pid : ℤ) (s : Mmu) : Prop :=
  (match t with
    | .softTlb => ∀ i, ¬ s.Owns pid i
    | .pageTable => s.pidToPagetableBase pid = 0) ∧ s.vmPid t ≠ pid

namespace Loading

variable {t : Translation} {pid : ℤ} {s₀ s : Mmu} {no : ℕ → ℕ} {n k : ℕ} {c c' : ℕ → Memory}

/-- Only the content of the pages counts. -/
theorem congr (h : Loading t pid s₀ no n c s)
    (hc : ∀ k, k < n → ∀ o, o < 4096 → c k o = c' k o) : Loading t pid s₀ no n c' s :=
  ⟨h.enough, h.small, h.free, h.pages, fun k hk o ho => (h.bytes k hk o ho).trans (hc k hk o ho),
    h.mem, h.vmPid⟩

/-- The loader has not stopped. -/
theorem not_stops (h : Loading t pid s₀ no n c s) (hn : 0 < n) : ¬ Stops t pid s₀ n := by
  rintro (hlt | ⟨ht, hpid⟩)
  · exact absurd h.enough (by omega)
  · exact absurd (h.small hn ht) (by omega)

/-! ## Frames of pages -/

/-- The frame of a page is one of the free frames of the first state. -/
theorem getElem?_frameOf (h : Loading t pid s₀ no n c s) (hk : k < n) :
    s₀.freeFrames[framesTaken t k]? = some (frameOf t s₀ k) := by
  have hlt := (framesTaken_lt t hk).trans_le h.enough
  rw [frameOf, List.getD_eq_getElem?_getD, List.getElem?_eq_getElem hlt]
  rfl

/-- Different pages are in different frames. -/
theorem frameOf_inj (h : Loading t pid s₀ no n c s) {j : ℕ} (hj : j < n) (hk : k < n)
    (he : frameOf t s₀ j = frameOf t s₀ k) : j = k := by
  have hlt := (framesTaken_lt t hj).trans_le h.enough
  have hidx : framesTaken t j = framesTaken t k := by
    refine (List.getElem?_inj hlt s₀.nodup_freeFrames).1 ?_
    rw [h.getElem?_frameOf hj, h.getElem?_frameOf hk, he]
  rcases Nat.lt_trichotomy j k with hjk | hjk | hjk
  · exact absurd hidx (framesTaken_lt t hjk).ne
  · exact hjk
  · exact absurd hidx (framesTaken_lt t hjk).ne'

/-- The frame of a page is among the first free ones. -/
theorem frameOf_mem_take (h : Loading t pid s₀ no n c s) (hk : k < n) :
    frameOf t s₀ k ∈ s₀.freeFrames.take (framesTaken t n) := by
  refine List.mem_of_getElem? (i := framesTaken t k) ?_
  rw [List.getElem?_take_of_lt (framesTaken_lt t hk), h.getElem?_frameOf hk]

/-! ## Writing to a page -/

/-- Memory changes in the frame of a page only. -/
theorem write (h : Loading t pid s₀ no n c s) (hk : k < n) {mem page : Memory}
    (hout : ∀ a, ¬ InFrame (frameOf t s₀ k) a → mem a = s.mem a)
    (hin : ∀ o, o < 4096 → mem (pagingRead (frameOf t s₀ k) + o) = page o) :
    Loading t pid s₀ no n (update c k page) { s with mem := mem } := by
  refine ⟨h.enough, h.small, h.free, ?_, fun j hj o ho => ?_, fun a ha => ?_, ?_⟩
  · cases t with
    | softTlb => exact ⟨h.pages.page, h.pages.only⟩
    | pageTable =>
      obtain ⟨g, r, hp⟩ := h.pages
      refine ⟨g, { r with mem := mem }, ⟨rfl, hp.same.use, hp.same.base, hp.same.pageTablePid⟩,
        hp.tables.withMem (hp.page k hk).1 fun a ha => ?_, hp.live, hp.nodes, hp.page, hp.old⟩
      rw [← hp.same.mem]
      exact hout a ha
  · by_cases hjk : j = k
    · subst hjk
      rw [update_self]
      exact hin o ho
    · rw [update_of_ne hjk, ← h.bytes j hj o ho]
      refine hout _ fun hf => hjk (h.frameOf_inj hj hk ?_)
      exact (inFrame_add _ ho).unique hf
  · exact (hout a (ha _ (h.frameOf_mem_take hk))).trans (h.mem a ha)
  · cases t <;> exact h.vmPid

/-- A byte outside a frame is not among those written to it. -/
theorem not_inFrame_of {i : Fin nframes} {a b m : ℕ} (hm : b + m ≤ 4096) (ha : ¬ InFrame i a) :
    ¬ (pagingRead i + b ≤ a ∧ a < pagingRead i + b + m) := by
  have ha : ¬ (pagingRead i ≤ a ∧ a < pagingRead i + 4096) := ha
  omega

/-- `memset` on one page. -/
theorem memset (h : Loading t pid s₀ no n c s) (hk : k < n) {b m : ℕ} (hm : b + m ≤ 4096)
    (x : UInt8) :
    Loading t pid s₀ no n (update c k ((c k).memset b x m))
      { s with mem := s.mem.memset (pagingRead (frameOf t s₀ k) + b) x m } := by
  refine h.write hk (fun a ha => if_neg (not_inFrame_of hm ha)) fun o ho => ?_
  rw [Memory.memset_region, Memory.memset, Memory.memset, h.bytes k hk o ho]

/-- `memcpy` to one page. -/
theorem blit (h : Loading t pid s₀ no n c s) (hk : k < n) {b m : ℕ} (hm : b + m ≤ 4096)
    (bytes : ℕ → UInt8) :
    Loading t pid s₀ no n (update c k ((c k).blit b m bytes))
      { s with mem := s.mem.blit (pagingRead (frameOf t s₀ k) + b) m bytes } := by
  refine h.write hk (fun a ha => if_neg (not_inFrame_of hm ha)) fun o ho => ?_
  rw [Memory.blit_region, Memory.blit, Memory.blit, h.bytes k hk o ho]

/-- A store to one page. -/
theorem writeLE (h : Loading t pid s₀ no n c s) (hk : k < n) {b m : ℕ} (hm : b + m ≤ 4096)
    (w : ℕ) :
    Loading t pid s₀ no n (update c k ((c k).writeLE b m w))
      { s with mem := s.mem.writeLE (pagingRead (frameOf t s₀ k) + b) m w } := by
  refine h.write hk (fun a ha => if_neg (not_inFrame_of hm ha)) fun o ho => ?_
  rw [Memory.writeLE_region, Memory.writeLE, Memory.writeLE, h.bytes k hk o ho]

/-! ## The next page -/

/-- Before the first page. -/
theorem start (hfresh : Fresh t pid s₀) : Loading t pid s₀ no 0 c s₀ := by
  refine ⟨by rw [framesTaken_zero]; exact Nat.zero_le _, fun h => absurd h (by decide),
    by rw [framesTaken_zero, List.drop_zero],
    ?_, fun k hk => absurd hk (Nat.not_lt_zero k), fun _ _ => rfl, rfl⟩
  cases t with
  | softTlb =>
    exact ⟨fun k hk => absurd hk (Nat.not_lt_zero k), fun i hi => absurd hi (hfresh.1 i)⟩
  | pageTable =>
    refine ⟨Ghost.bare s₀, s₀.bare, sameFor_bare hfresh.1, pageTables_bare s₀, id,
      tablesOf_bare s₀ pid, fun k hk => absurd hk (Nat.not_lt_zero k), fun i hi => ?_⟩
    simp only [Ghost.bare, hi, if_true]

/-- The frame of the next page is the first one that is left. -/
theorem frameOf_next (h : Loading t pid s₀ no n c s) {i : Fin nframes} {rest : List (Fin nframes)}
    (hfree : s.freeFrames = i :: rest) :
    framesTaken t n < s₀.freeFrames.length ∧ i = frameOf t s₀ n ∧
      rest = s₀.freeFrames.drop (framesTaken t n + 1) := by
  rw [h.free] at hfree
  have hlt : framesTaken t n < s₀.freeFrames.length := by
    by_contra hle
    rw [List.drop_eq_nil_of_le (by omega)] at hfree
    cases hfree
  rw [List.drop_eq_getElem_cons hlt] at hfree
  obtain ⟨hi, hrest⟩ := List.cons.inj hfree
  refine ⟨hlt, ?_, hrest.symm⟩
  rw [frameOf, List.getD_eq_getElem _ _ hlt, hi]

/-- The next frame still holds what it held at the start. -/
theorem mem_next (h : Loading t pid s₀ no n c s) (hlt : framesTaken t n < s₀.freeFrames.length)
    {o : ℕ} (ho : o < 4096) :
    s.mem (pagingRead (frameOf t s₀ n) + o) = s₀.mem (pagingRead (frameOf t s₀ n) + o) := by
  refine h.mem _ fun i hi hin => ?_
  obtain rfl := hin.unique (inFrame_add _ ho)
  rw [frameOf, List.getD_eq_getElem _ _ hlt] at hi
  obtain ⟨j, hj, he⟩ := List.mem_take_iff_getElem.1 hi
  have := (s₀.nodup_freeFrames.getElem_inj_iff).1 he
  omega

/-- `soft_tlb_map` of the next page. -/
theorem mapSoft (h : Loading .softTlb pid s₀ no n c s) {i : Fin nframes}
    {rest : List (Fin nframes)} (hfree : s.freeFrames = i :: rest) :
    Loading .softTlb pid s₀ no (n + 1)
      (update c n fun o => s₀.mem (pagingRead (frameOf .softTlb s₀ n) + o))
      { s with table := update s.table i ⟨true, pid, no n⟩ } := by
  obtain ⟨hlt, rfl, hrest⟩ := h.frameOf_next hfree
  have hne : ∀ k, k < n → frameOf .softTlb s₀ k ≠ frameOf .softTlb s₀ n := by
    intro k hk he
    have hnew := Mmu.mem_freeFrames.1 (hfree ▸ List.mem_cons_self)
    rw [← he, h.pages.page k hk] at hnew
    cases hnew
  refine ⟨hlt, nofun, ?_, ⟨fun k hk => ?_, fun i hi => ?_⟩, fun k hk o ho => ?_, fun a ha => ?_,
    h.vmPid⟩
  · exact (Mmu.freeFrames_take hfree rfl rfl).trans hrest
  · rcases Nat.lt_succ_iff_lt_or_eq.1 hk with hk | rfl
    · exact (update_of_ne (hne k hk) _ _).trans (h.pages.page k hk)
    · exact update_self _ _ _
  · by_cases hin : i = frameOf .softTlb s₀ n
    · exact ⟨n, by omega, hin⟩
    · have hi : (update s.table (frameOf .softTlb s₀ n) ⟨true, pid, no n⟩ i).use = true ∧
          (update s.table (frameOf .softTlb s₀ n) ⟨true, pid, no n⟩ i).pid = pid := hi
      rw [update_of_ne hin] at hi
      obtain ⟨k, hk, he⟩ := h.pages.only i hi
      exact ⟨k, by omega, he⟩
  · rcases Nat.lt_succ_iff_lt_or_eq.1 hk with hk | rfl
    · rw [update_of_ne hk.ne]
      exact h.bytes k hk o ho
    · rw [update_self]
      exact h.mem_next hlt ho
  · refine h.mem a fun i hi => ha i ?_
    exact List.take_subset_take_left _ (Nat.le_succ n) hi

/-- `page_table_map` of the next page. -/
theorem mapTable (h : Loading .pageTable pid s₀ no n c s) (hlow : 0x40000 ≤ no n)
    (hhigh : no n < 0x40200) (hnew : ∀ k, k < n → no k ≠ no n) {i : Fin nframes}
    {rest : List (Fin nframes)} (hfree : s.freeFrames = i :: rest) :
    wp (pageTableMap pid (no n) i)
      (fun _ s' => Loading .pageTable pid s₀ no (n + 1)
        (update c n fun o => s₀.mem (pagingRead (frameOf .pageTable s₀ n) + o)) s')
      (fun _ _ => Stops .pageTable pid s₀ (n + 1))
      (s.setFrame i fun e => { e with use := true }) := by
  obtain ⟨hlt, rfl, hrest⟩ := h.frameOf_next hfree
  have hlen : rest.length + framesTaken .pageTable n + 1 = s₀.freeFrames.length := by
    rw [hrest, List.length_drop]
    omega
  obtain ⟨g, r, hp⟩ := h.pages
  have htaken := (hp.nodes_next hlow hhigh).2
  refine wp_mono (hp.map hlow hhigh hnew hfree) (fun _ s' hs => ?_) fun _ _ hs => ?_
  · obtain ⟨hsmall, g', r', hp', hsuffix, hcount, hmem, hpid⟩ := hs
    have hle := hsuffix.length_le
    have hfinal : s'.freeFrames = s₀.freeFrames.drop (framesTaken .pageTable (n + 1)) := by
      rw [List.suffix_iff_eq_drop.1 hsuffix]
      conv_lhs => rw [hrest, List.drop_drop, ← hrest]
      congr 1
      omega
    -- data pages are not written to
    have hdata : ∀ k o, k < n + 1 → o < 4096 → s'.mem (pagingRead (frameOf .pageTable s₀ k) + o)
        = s.mem (pagingRead (frameOf .pageTable s₀ k) + o) := fun k o hk ho => by
      refine hmem _ fun i m hi hin => ?_
      rw [hin.unique (inFrame_add _ ho), (hp'.page k hk).1] at hi
      cases hi
    refine ⟨by omega, fun _ _ => hsmall, hfinal, ⟨g', r', hp'⟩, fun k hk o ho => ?_, fun a ha => ?_,
      hpid.trans h.vmPid⟩
    · rw [hdata k o hk ho]
      rcases Nat.lt_succ_iff_lt_or_eq.1 hk with hk | rfl
      · rw [update_of_ne hk.ne, h.bytes k hk o ho]
      · rw [update_self, h.mem_next hlt ho]
    · rw [hmem a fun i m hi => ha i ?_]
      · refine h.mem a fun i hi => ha i ?_
        exact List.take_subset_take_left _ (framesTaken_lt _ (Nat.lt_succ_self n)).le hi
      · -- a table of the process is in a frame that has been taken
        have hnot : i ∉ s'.freeFrames := fun hin => by
          rw [hp'.same.freeFrames, Mmu.mem_freeFrames] at hin
          have hk := hp'.tables.kind_free hin
          rw [hi] at hk
          cases hk
        have hin : i ∈ s₀.freeFrames := Mmu.mem_freeFrames.2 (by
          by_contra hu
          have hk := hp'.old i (by simpa using hu)
          rw [hi] at hk
          cases hk)
        rw [← List.take_append_drop (framesTaken .pageTable (n + 1)) s₀.freeFrames,
          List.mem_append, ← hfinal] at hin
        exact hin.resolve_right hnot
  · rcases hs with hs | hs
    · exact Or.inr ⟨rfl, hs⟩
    · exact Or.inl (by omega)

/-- `mmu_alloc` and `mmu_map` of the next page. -/
theorem mapNext (h : Loading t pid s₀ no n c s) (hlow : 0x40000 ≤ no n) (hhigh : no n < 0x40200)
    (hnew : ∀ k, k < n → no k ≠ no n) :
    wp (mapNext t pid (no n))
      (fun base s' => base = pagingRead (frameOf t s₀ n) ∧ Loading t pid s₀ no (n + 1)
        (update c n fun o => s₀.mem (pagingRead (frameOf t s₀ n) + o)) s')
      (fun _ _ => Stops t pid s₀ (n + 1)) s := by
  unfold Library.mapNext
  rw [wp_bind]
  refine mmuAlloc_first (fun i rest hfree => ?_) fun hnone => ?_
  · have hbase := congrArg pagingRead (h.frameOf_next hfree).2.1
    cases t with
    | softTlb =>
      simp only [wp_bind, mmuMap, wp_modify, wp_pure, softTlbMap, Mmu.setFrame, update_self,
        Function.update_idem]
      exact ⟨hbase, h.mapSoft hfree⟩
    | pageTable =>
      exact wp_seq (h.mapTable hlow hhigh hnew hfree) fun _ s' hs => ⟨hbase, hs⟩
  · -- no frame is left
    rw [h.free, List.drop_eq_nil_iff] at hnone
    exact Or.inl (hnone.trans_lt (framesTaken_lt t (Nat.lt_succ_self n)))

/-! ## Switching the process in -/

/-- Pages below the frame cache that are all different. -/
structure Layout (no : ℕ → ℕ) (n : ℕ) : Prop where
  low : ∀ k, k < n → 0x40000 ≤ no k
  high : ∀ k, k < n → no k < 0x40100
  inj : ∀ j k, j < n → k < n → no j = no k → j = k

/-- The pages of a program lie in the window of the software TLB. -/
theorem Layout.window {no : ℕ → ℕ} {n k : ℕ} (h : Layout no n) (hk : k < n) :
    WindowPage (no k) := by
  have hhigh := h.high k hk
  refine ⟨by omega, Or.inl ?_⟩
  change no k * 4096 + 4096 ≤ 1074790400
  omega

/-- With the software TLB: `soft_tlb_switch` copies the pages to where the process sees them. -/
theorem sees_soft (h : Loading .softTlb pid s₀ no n c s) (hlayout : Layout no n)
    (hpid : s₀.softTlbPid ≠ pid) (hk : k < n) {o : ℕ} (ho : o < 4096) :
    (softTlbSwitch pid s).mem (no k * 4096 + o) = c k o := by
  have hne : pid ≠ s.softTlbPid := fun he => hpid (h.vmPid.symm.trans he.symm)
  have hpage := h.pages.page k hk
  have hown : s.Owns pid (frameOf .softTlb s₀ k) := by
    rw [Mmu.Owns, hpage]
    exact ⟨rfl, rfl⟩
  have haddr : no k * 4096 = pageAddr (s.table (frameOf .softTlb s₀ k)).pageNo := by
    rw [hpage, pageAddr_eq (hlayout.window hk).1]
  rw [softTlbSwitch_mem hne, haddr, Memory.copyAll_apply (P := s.Owns pid) hown ho
    (fun j hj hjk => ?_) (fun j hj => ?_) (List.mem_finRange _)]
  · -- the pages of the process switched out are not in this frame
    rw [← h.bytes k hk o ho]
    refine Memory.copyAll_of_not_mem fun j _ hj hin => ?_
    have he := InFrame.unique (i := j) hin (inFrame_add _ ho)
    rw [he, Mmu.Owns, hpage] at hj
    exact hne hj.2
  · obtain ⟨l, hl, rfl⟩ := h.pages.only j hj
    rw [hpage, h.pages.page l hl]
    exact (hlayout.window hk).disjoint_of_ne (hlayout.window hl) fun he =>
      hjk (congrArg _ (hlayout.inj l k hl hk he.symm))
  · obtain ⟨l, hl, rfl⟩ := h.pages.only j hj
    rw [h.pages.page l hl]
    exact ((hlayout.window hl).disjoint _).symm

/-- With page tables: the walk from the root of the process finds the frames of the pages. -/
theorem sees_table (h : Loading .pageTable pid s₀ no n c s) (hlayout : Layout no n)
    (hpid : s₀.pageTablePid ≠ pid) (hk : k < n) {o : ℕ} (ho : o < 4096) :
    (pageTableSwitch pid s).sees .pageTable (no k * 4096 + o) = some (c k o) := by
  have hne : pid ≠ s.pageTablePid := fun he => hpid (h.vmPid.symm.trans he.symm)
  obtain ⟨g, r, hp⟩ := h.pages
  have hhigh := hlayout.high k hk
  have hroot : r.pidToPagetableBase pid ≠ 0 := fun hb => by
    have := hp.base_eq_zero_iff.1 hb
    omega
  obtain ⟨i, hi⟩ := hp.tables.root pid hp.live hroot
  have hbase : s.pidToPagetableBase pid = framePpn i * 2 ^ 12 := by
    rw [hp.same.base, hp.tables.base i pid hi, pagingRead_ppn]
  have hsatp : makeSatp (s.pidToPagetableBase pid) = 8 * 2 ^ 60 + framePpn i := by
    rw [hbase, makeSatp_eq (framePpn_lt i)]
  have hppn := framePpn_lt i
  have hmode : (8 * 2 ^ 60 + framePpn i) / 2 ^ 60 = 8 := by omega
  have htable : (8 * 2 ^ 60 + framePpn i) % 2 ^ 44 * 2 ^ 12 = pagingRead i := by
    rw [pagingRead_ppn]
    omega
  have hcanon : Sv39.Canonical (no k * 4096 + o) := Or.inl (Nat.div_eq_of_lt (by omega))
  have hva : (no k * 4096 + o) / 2 ^ 12 % 2 ^ 27 = no k := by omega
  have hoff : (no k * 4096 + o) % 2 ^ 12 = o := by omega
  have hwalk : Sv39.translate s.mem (pagingRead i) (no k * 4096 + o)
      = some ⟨pagingRead (frameOf .pageTable s₀ k), true⟩ := by
    rw [Sv39.translate, if_pos hcanon, hp.same.mem, hp.tables.walk hi, hva, (hp.page k hk).2,
      pagingRead_ppn]
    rfl
  rw [pageTableSwitch, if_neg hne]
  simp only [Mmu.sees, hsatp, hmode, htable, hwalk, hoff, if_true]
  rw [h.bytes k hk o ho]

/-- What the process sees once it is switched in. -/
theorem sees (h : Loading t pid s₀ no n c s) (hlayout : Layout no n) (hfresh : Fresh t pid s₀)
    (hk : k < n) {o : ℕ} (ho : o < 4096) :
    (mmuSwitch t pid s).sees t (no k * 4096 + o) = some (c k o) := by
  cases t with
  | softTlb => exact congrArg some (h.sees_soft hlayout hfresh.2 hk ho)
  | pageTable => exact h.sees_table hlayout hfresh.2 hk ho

/-! ## Frames of other processes -/

/-- Loading changes no frame that was in use. -/
theorem frame_kept (h : Loading t pid s₀ no n c s) {i : Fin nframes}
    (hi : (s₀.table i).use = true) {o : ℕ} (ho : o < 4096) :
    s.mem (pagingRead i + o) = s₀.mem (pagingRead i + o) := by
  refine h.mem _ fun j hj hin => ?_
  have hfree := Mmu.mem_freeFrames.1 (List.mem_of_mem_take hj)
  rw [hin.unique (inFrame_add i ho), hi] at hfree
  cases hfree

end Loading

end Egos.Library
