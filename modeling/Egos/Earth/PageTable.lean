import Egos.Common.Sv39
import Egos.Earth.FreeFrames

/-!
# Page tables in frames

The invariant of page-table mode. A ghost map says what each frame is: free, a data page, or a
node of the tree of tables of one process. Every entry of a table is what the ghost state says: the
pointer to the child table if there is one, the leaf of a page that is mapped, and otherwise 0. From
it follows what the walk of the hardware finds (`PageTables.translate`); the operations on tables
are a new table below an old one, a new root, and a new leaf.
-/

namespace Egos.Earth

open Function (update update_self update_of_ne)

/-! ## Entries -/

/-- `VA_GET_VPN` is the index of the walk. -/
theorem vaGetVpn_eq (va level : ℕ) : vaGetVpn va level = Sv39.vpn va level := by
  rw [vaGetVpn, Sv39.vpn, Nat.shiftRight_eq_div_pow, Nat.mul_comm level,
    show (0x1FF : ℕ) = 2 ^ 9 - 1 by decide, Nat.and_two_pow_sub_one_eq_mod]

/-- The mask selects the page number of an entry. -/
theorem and_ptePpnMask (x : ℕ) : x &&& ptePpnMask = x / 2 ^ 10 % 2 ^ 44 * 2 ^ 10 := by
  have hmask : ptePpnMask = (2 ^ 44 - 1) <<< 10 := by decide
  have hand : x &&& ptePpnMask = ((x >>> 10) &&& (2 ^ 44 - 1)) <<< 10 := by
    rw [hmask]
    refine Nat.eq_of_testBit_eq fun i => ?_
    simp only [Nat.testBit_and, Nat.testBit_shiftLeft, Nat.testBit_shiftRight]
    by_cases hi : 10 ≤ i
    · rw [Nat.add_sub_cancel' hi]
      simp [hi]
    · simp [hi]
  rw [hand, Nat.and_two_pow_sub_one_eq_mod, Nat.shiftLeft_eq, Nat.shiftRight_eq_div_pow]

/-- `PA_TO_PTE` puts the page number into its place. -/
theorem paToPte_eq {n : ℕ} (hn : n < 2 ^ 44) : paToPte (n * 2 ^ 12) = n * 2 ^ 10 := by
  rw [paToPte, and_ptePpnMask, Nat.shiftRight_eq_div_pow]
  omega

/-- `PTE_GET_PA` gets it back. -/
theorem pteGetPa_pointer {n : ℕ} (hn : n < 2 ^ 44) : pteGetPa (Sv39.pointer n) = n * 2 ^ 12 := by
  rw [pteGetPa, and_ptePpnMask, Nat.shiftLeft_eq, Sv39.pointer]
  omega

/-- Flags are added below the page number. -/
theorem paToPte_or {n f : ℕ} (hn : n < 2 ^ 44) (hf : f < 2 ^ 10) :
    paToPte (n * 2 ^ 12) ||| f = n * 2 ^ 10 + f := by
  rw [paToPte_eq hn, Nat.mul_comm]
  exact (Nat.two_pow_add_eq_or_of_lt hf n).symm

/-- The entry that the source stores for the next table. -/
theorem pointer_eq {n : ℕ} (hn : n < 2 ^ 44) : paToPte (n * 2 ^ 12) ||| pteV = Sv39.pointer n :=
  paToPte_or hn (by decide)

/-- The entry that the source stores for a page. -/
theorem leaf_eq {n flag : ℕ} (hn : n < 2 ^ 44) (user : Bool)
    (hflag : flag = if user then userXwrv else osXwrv) :
    paToPte (n * 2 ^ 12) ||| pteA ||| pteD ||| flag = Sv39.leaf n user := by
  have hor : pteA ||| (pteD ||| flag) = if user then 0xDF else 0xCF := by
    rw [hflag]
    cases user <;> decide
  rw [Nat.or_assoc, Nat.or_assoc, hor, Sv39.leaf, paToPte_or hn]
  split <;> decide

/-- The page number of a frame. -/
def framePpn (i : Fin nframes) : ℕ := 0x40100 + i

/-- The page number of a frame fits into an entry. -/
theorem framePpn_lt (i : Fin nframes) : framePpn i < 2 ^ 44 := by
  have hi : i.val < 256 := i.isLt
  unfold framePpn
  omega

/-- The address of a frame, from its page number. -/
theorem pagingRead_ppn (i : Fin nframes) : pagingRead i = framePpn i * 2 ^ 12 := by
  rw [pagingRead_eq, framePpn]
  omega

/-- No frame is at address 0. -/
theorem pagingRead_ne_zero (i : Fin nframes) : pagingRead i ≠ 0 := by
  rw [pagingRead_eq]
  omega

/-! ## The ghost state -/

/-- A table in the tree of a process. -/
inductive Node
  | root
  | l1 (vpn2 : ℕ)
  | leaf (vpn2 vpn1 : ℕ)
  deriving DecidableEq

namespace Node

/-- The table that an entry of a table is for. -/
def child : Node → ℕ → Option Node
  | root, idx => some (l1 idx)
  | l1 vpn2, idx => some (leaf vpn2 idx)
  | leaf _ _, _ => none

/-- The page that an entry of a leaf table is for. -/
def page : Node → ℕ → ℕ
  | leaf vpn2 vpn1, idx => vpn2 * 2 ^ 18 + vpn1 * 2 ^ 9 + idx
  | _, _ => 0

/-- A page number has the indices of its entries. -/
theorem page_leaf (vpn2 : ℕ) {vpn1 idx : ℕ} (h1 : vpn1 < 512) (hidx : idx < 512) :
    (leaf vpn2 vpn1).page idx / 2 ^ 18 = vpn2 ∧
      (leaf vpn2 vpn1).page idx / 2 ^ 9 % 2 ^ 9 = vpn1 ∧
      (leaf vpn2 vpn1).page idx % 2 ^ 9 = idx := by
  simp only [page]
  omega

/-- A node has one parent, and one entry in it. -/
theorem child_inj {n n' : Node} {idx idx' : ℕ} {c : Node} (h : n.child idx = some c)
    (h' : n'.child idx' = some c) : n = n' ∧ idx = idx' := by
  cases n <;> cases n' <;> simp_all [child] <;> grind

end Node

/-- What a frame is. -/
inductive Kind
  | free
  | data
  | table (pid : ℤ) (node : Node)

/-- The frames, the page number and the user bit of each page of a process, and the processes that
have been freed. -/
structure Ghost where
  kind : Fin nframes → Kind
  maps : ℤ → ℕ → Option (ℕ × Bool)
  dead : ℤ → Prop

/-- The entry for a table. -/
def Points (kind : Fin nframes → Kind) (p : ℤ) (c : Node) (w : ℕ) : Prop :=
  (∃ j, kind j = .table p c ∧ w = Sv39.pointer (framePpn j)) ∨
    ((∀ j, kind j ≠ .table p c) ∧ w = 0)

/-- The entry for a page. -/
def leafWord : Option (ℕ × Bool) → ℕ
  | none => 0
  | some (n, user) => Sv39.leaf n user

/-- What an entry of a table holds. -/
def Ghost.EntryOk (g : Ghost) (p : ℤ) (n : Node) (idx w : ℕ) : Prop :=
  match n.child idx with
  | some c => Points g.kind p c w
  | none => w = leafWord (g.maps p (n.page idx))

/-- The entry of a frame in the frame table. The pid is recorded for page tables only. -/
def FrameOk (e : FrameMapping) : Kind → Prop
  | .free => e = ⟨false, 0, 0⟩
  | .data => e.use = true ∧ e.pid = 0
  | .table p _ => e.use = true ∧ e.pid = p

/-- The invariant of page-table mode. -/
structure PageTables (g : Ghost) (s : Mmu) : Prop where
  frame : ∀ i, FrameOk (s.table i) (g.kind i)
  unique : ∀ i j p n, g.kind i = .table p n → g.kind j = .table p n → i = j
  base : ∀ i p, g.kind i = .table p .root → s.pidToPagetableBase p = pagingRead i
  root : ∀ p, ¬ g.dead p → s.pidToPagetableBase p ≠ 0 → ∃ i, g.kind i = .table p .root
  parent : ∀ i p c par idx, g.kind i = .table p c → par.child idx = some c →
    idx < 512 ∧ ∃ j, g.kind j = .table p par
  entry : ∀ i p n idx, g.kind i = .table p n → idx < 512 →
    g.EntryOk p n idx (s.mem.readLE (pagingRead i + 8 * idx) 8)
  mapped : ∀ p v, g.maps p v ≠ none →
    ∃ i, g.kind i = .table p (.leaf (v / 2 ^ 18) (v / 2 ^ 9 % 2 ^ 9))
  bound : ∀ p v n user, g.maps p v = some (n, user) → n < 2 ^ 44

variable {g : Ghost} {s s' : Mmu} {p : ℤ} {i j : Fin nframes}

/-! ## What the hardware finds -/

/-- The entry of a table for its child: a pointer to it, or null. -/
theorem PageTables.entry_child (h : PageTables g s) {n c : Node} {idx : ℕ}
    (hi : g.kind i = .table p n) (hidx : idx < 512) (hc : n.child idx = some c) :
    Points g.kind p c (s.mem.readLE (pagingRead i + 8 * idx) 8) := by
  have he := h.entry i p n idx hi hidx
  rwa [Ghost.EntryOk, hc] at he

/-- The page number of an address in its 39-bit part. -/
theorem vpn_eq (va : ℕ) :
    Sv39.vpn va 2 = va / 2 ^ 12 % 2 ^ 27 / 2 ^ 18 ∧
    Sv39.vpn va 1 = va / 2 ^ 12 % 2 ^ 27 / 2 ^ 9 % 2 ^ 9 ∧
    va / 2 ^ 12 % 2 ^ 27 = Sv39.vpn va 2 * 2 ^ 18 + Sv39.vpn va 1 * 2 ^ 9 + Sv39.vpn va 0 := by
  simp only [Sv39.vpn]
  omega

/-- The walk finds what is mapped. -/
theorem PageTables.walk (h : PageTables g s) (hroot : g.kind i = .table p .root) (va : ℕ) :
    Sv39.walk s.mem va 2 (pagingRead i)
      = (g.maps p (va / 2 ^ 12 % 2 ^ 27)).map fun x => ⟨x.1 * 2 ^ 12, x.2⟩ := by
  obtain ⟨h2, h1, hpage⟩ := vpn_eq va
  -- without a leaf table nothing is mapped
  have hnone : (∀ j, g.kind j ≠ .table p (.leaf (Sv39.vpn va 2) (Sv39.vpn va 1))) →
      g.maps p (va / 2 ^ 12 % 2 ^ 27) = none := by
    intro hno
    by_contra hm
    obtain ⟨j, hj⟩ := h.mapped p _ hm
    rw [← h2, ← h1] at hj
    exact hno j hj
  rcases h.entry_child hroot (Sv39.vpn_lt va 2) rfl with ⟨j, hj, hw⟩ | ⟨hno, hw⟩
  · rw [Sv39.walk_pointer hw (framePpn_lt j), ← pagingRead_ppn]
    rcases h.entry_child hj (Sv39.vpn_lt va 1) rfl with ⟨l, hl, hw'⟩ | ⟨hno, hw'⟩
    · rw [Sv39.walk_pointer hw' (framePpn_lt l), ← pagingRead_ppn]
      have he : s.mem.readLE (pagingRead l + 8 * Sv39.vpn va 0) 8
          = leafWord (g.maps p (va / 2 ^ 12 % 2 ^ 27)) := by
        rw [hpage]
        exact h.entry l p _ _ hl (Sv39.vpn_lt va 0)
      cases hm : g.maps p (va / 2 ^ 12 % 2 ^ 27) with
      | none =>
        rw [hm] at he
        exact Sv39.walk_null he
      | some x =>
        rw [hm] at he
        exact Sv39.walk_leaf he (h.bound p _ _ _ hm)
    · rw [Sv39.walk_null hw', hnone hno, Option.map_none]
  · rw [Sv39.walk_null hw, hnone, Option.map_none]
    intro j hj
    obtain ⟨-, l, hl⟩ := h.parent j p _ (.l1 (Sv39.vpn va 2)) _ hj rfl
    exact hno l hl

/-- The tables that the walk reads are those of the process. -/
theorem PageTables.tables (h : PageTables g s) (hroot : g.kind i = .table p .root) (va t : ℕ)
    (ht : t ∈ Sv39.tables s.mem va 2 (pagingRead i)) :
    ∃ j n, g.kind j = .table p n ∧ t = pagingRead j := by
  rcases h.entry_child hroot (Sv39.vpn_lt va 2) rfl with ⟨j, hj, hw⟩ | ⟨-, hw⟩
  · rw [Sv39.tables_pointer hw (framePpn_lt j), ← pagingRead_ppn] at ht
    rcases h.entry_child hj (Sv39.vpn_lt va 1) rfl with ⟨l, hl, hw'⟩ | ⟨-, hw'⟩
    · rw [Sv39.tables_pointer hw' (framePpn_lt l), ← pagingRead_ppn, Sv39.tables] at ht
      simp only [List.mem_cons, List.not_mem_nil, or_false] at ht
      rcases ht with rfl | rfl | rfl
      · exact ⟨i, _, hroot, rfl⟩
      · exact ⟨j, _, hj, rfl⟩
      · exact ⟨l, _, hl, rfl⟩
    · rw [Sv39.tables_null hw'] at ht
      simp only [List.mem_cons, List.not_mem_nil, or_false] at ht
      rcases ht with rfl | rfl
      · exact ⟨i, _, hroot, rfl⟩
      · exact ⟨j, _, hj, rfl⟩
  · rw [Sv39.tables_null hw, List.mem_singleton] at ht
    exact ⟨i, _, hroot, ht⟩

/-! ## New tables -/

/-- The memory and the frame table after a page table has been allocated. -/
def Mmu.withTable (s : Mmu) (i : Fin nframes) (p : ℤ) : Mmu :=
  { s with
    table := update s.table i { s.table i with use := true, pid := p }
    mem := s.mem.memset (pagingRead i) 0 pageSize }

/-- A page table is in the first free frame. -/
theorem allocPageTable_spec {Q : ℕ → Mmu → Prop} {E : String → Mmu → Prop}
    (hQ : ∀ i rest, s.freeFrames = i :: rest → (s.withTable i p).freeFrames = rest →
      Q (pagingRead i) (s.withTable i p))
    (hE : s.freeFrames = [] → E "mmu_alloc: no more available frames" s) :
    wp (allocPageTable p) Q E s := by
  unfold allocPageTable
  rw [wp_bind]
  refine mmuAlloc_first (fun i rest hfree => ?_) hE
  simp only [wp_bind, wp_modify, wp_pure, Mmu.setFrame, update_self, Function.update_idem]
  exact hQ i rest hfree (Mmu.freeFrames_take hfree rfl rfl)

/-- A frame that is not in use is free. -/
theorem PageTables.kind_free (h : PageTables g s) (hi : (s.table i).use = false) :
    g.kind i = .free := by
  have hf := h.frame i
  cases hk : g.kind i with
  | free => rfl
  | data => rw [hk] at hf; exact absurd hf.1 (by simp [hi])
  | table q n => rw [hk] at hf; exact absurd hf.1 (by simp [hi])

section words

variable {idx idx' : ℕ}

/-- The entries of a new table are null. -/
theorem readLE_withTable_self (hidx : idx < 512) :
    (s.withTable i p).mem.readLE (pagingRead i + 8 * idx) 8 = 0 :=
  Memory.readLE_memset_zero _ (by omega) (by simp only [pageSize]; omega)

/-- A new table leaves the entries of the others. -/
theorem readLE_withTable_of_ne (hij : j ≠ i) (hidx : idx < 512) :
    (s.withTable i p).mem.readLE (pagingRead j + 8 * idx) 8
      = s.mem.readLE (pagingRead j + 8 * idx) 8 := by
  have hd := pagingRead_disjoint hij
  exact Memory.readLE_memset_of_disjoint _ _ (by simp only [pageSize]; omega)

/-- An entry that has been set. -/
theorem readLE_setPte_self {w : ℕ} (hw : w < 256 ^ 8) (a : ℕ) :
    (s.setPte a w).mem.readLE a 8 = w := Memory.readLE_writeLE_self _ _ _ hw

/-- Setting an entry leaves the others. -/
theorem readLE_setPte_of_ne (w : ℕ) (hne : ¬ (i = j ∧ idx = idx')) (hidx : idx < 512)
    (hidx' : idx' < 512) :
    (s.setPte (pagingRead j + 8 * idx') w).mem.readLE (pagingRead i + 8 * idx) 8
      = s.mem.readLE (pagingRead i + 8 * idx) 8 := by
  refine Memory.readLE_writeLE_of_disjoint _ _ ?_
  by_cases hij : i = j
  · subst hij
    have hne : idx ≠ idx' := fun he => hne ⟨rfl, he⟩
    omega
  · have hd := pagingRead_disjoint hij
    omega

end words

/-- A frame that was free becomes a table. -/
theorem kind_update_iff {kind : Fin nframes → Kind} (hi : kind i = .free) {c n : Node} {q : ℤ} :
    update kind i (.table p c) j = .table q n ↔
      (j = i ∧ q = p ∧ n = c) ∨ kind j = .table q n := by
  by_cases hj : j = i
  · subst hj
    rw [update_self, hi]
    constructor
    · rintro ⟨⟩
      exact Or.inl ⟨rfl, rfl, rfl⟩
    · rintro (⟨-, rfl, rfl⟩ | hc)
      · rfl
      · cases hc
  · rw [update_of_ne hj]
    exact ⟨Or.inr, fun hc => hc.resolve_left fun he => hj he.1⟩

/-- A new table does not matter to the entries for other tables. -/
theorem Points.update_kind {kind : Fin nframes → Kind} (hi : kind i = .free) {c n : Node} {q : ℤ}
    {w : ℕ} (h : Points kind q n w) (hne : ¬ (q = p ∧ n = c)) :
    Points (update kind i (.table p c)) q n w := by
  rcases h with ⟨l, hl, hw⟩ | ⟨hno, hw⟩
  · exact Or.inl ⟨l, (kind_update_iff hi).2 (Or.inr hl), hw⟩
  · refine Or.inr ⟨fun l hl => ?_, hw⟩
    rcases (kind_update_iff hi).1 hl with ⟨-, hq, hn⟩ | hl
    · exact hne ⟨hq, hn⟩
    · exact hno l hl

/-- The entries of a new table are null, and there is nothing below it. -/
theorem PageTables.entry_new (h : PageTables g s) {c : Node} (hi : g.kind i = .free)
    (hnew : ∀ l, g.kind l ≠ .table p c) (hc : ∀ a b, c = .leaf a b → b < 512) {idx : ℕ}
    (hidx : idx < 512) :
    Ghost.EntryOk { g with kind := update g.kind i (.table p c) } p c idx 0 := by
  rw [Ghost.EntryOk]
  cases hchild : c.child idx with
  | some d =>
    refine Or.inr ⟨fun l hl => ?_, rfl⟩
    rcases (kind_update_iff hi).1 hl with ⟨-, -, rfl⟩ | hl
    · cases d <;> cases hchild
    · obtain ⟨-, j, hj⟩ := h.parent l p d c idx hl hchild
      exact hnew j hj
  | none =>
    cases c with
    | root => cases hchild
    | l1 a => cases hchild
    | leaf a b =>
      -- a page of this table that is mapped would have had the table before
      have hnone : g.maps p (Node.page (.leaf a b) idx) = none := by
        by_contra hm
        obtain ⟨j, hj⟩ := h.mapped p _ hm
        obtain ⟨ha, hb, -⟩ := Node.page_leaf a (hc a b rfl) hidx
        rw [ha, hb] at hj
        exact hnew j hj
      change 0 = leafWord (g.maps p (Node.page (.leaf a b) idx))
      rw [hnone]
      rfl

/-- A new table below an old one. -/
theorem PageTables.addTable (h : PageTables g s) {n c : Node} {idx : ℕ} (hi : g.kind i = .free)
    (hj : g.kind j = .table p n) (hidx : idx < 512) (hc : n.child idx = some c)
    (hnew : ∀ l, g.kind l ≠ .table p c) :
    PageTables { g with kind := update g.kind i (.table p c) }
      ((s.withTable i p).setPte (pagingRead j + 8 * idx) (Sv39.pointer (framePpn i))) := by
  have hij : j ≠ i := by
    rintro rfl
    rw [hi] at hj
    cases hj
  have hroot : c ≠ .root := by
    rintro rfl
    cases n <;> cases hc
  have hleaf : ∀ a b, c = .leaf a b → b < 512 := by
    rintro a b rfl
    cases n <;> cases hc
    exact hidx
  refine ⟨fun l => ?_, fun l l' q m hl hl' => ?_, fun l q hl => ?_, fun q hq hb => ?_,
    fun l q d m k hl hd => ?_, fun l q m k hl hk => ?_, fun q v hv => ?_, h.bound⟩
  · by_cases hl : l = i
    · subst hl
      simp only [Mmu.setPte, Mmu.withTable, update_self]
      exact ⟨rfl, rfl⟩
    · simp only [Mmu.setPte, Mmu.withTable, update_of_ne hl]
      exact h.frame l
  · rcases (kind_update_iff hi).1 hl with ⟨rfl, rfl, rfl⟩ | hlo <;>
      rcases (kind_update_iff hi).1 hl' with ⟨rfl, hq, hm⟩ | hlo'
    · rfl
    · exact absurd hlo' (hnew l')
    · rw [hq, hm] at hlo
      exact absurd hlo (hnew l)
    · exact h.unique l l' q m hlo hlo'
  · rcases (kind_update_iff hi).1 hl with ⟨-, -, he⟩ | hl
    · exact absurd he.symm hroot
    · exact h.base l q hl
  · obtain ⟨l, hl⟩ := h.root q hq hb
    exact ⟨l, (kind_update_iff hi).2 (Or.inr hl)⟩
  · rcases (kind_update_iff hi).1 hl with ⟨-, rfl, rfl⟩ | hl
    · obtain ⟨rfl, rfl⟩ := Node.child_inj hd hc
      exact ⟨hidx, j, (kind_update_iff hi).2 (Or.inr hj)⟩
    · obtain ⟨hk, l', hl'⟩ := h.parent l q d m k hl hd
      exact ⟨hk, l', (kind_update_iff hi).2 (Or.inr hl')⟩
  · rcases (kind_update_iff hi).1 hl with ⟨rfl, rfl, rfl⟩ | hlo
    · rw [readLE_setPte_of_ne _ (fun he => hij he.1.symm) hk hidx, readLE_withTable_self hk]
      exact h.entry_new hi hnew hleaf hk
    · clear hl
      by_cases he : l = j ∧ k = idx
      · -- the entry that points to the new table
        obtain ⟨rfl, rfl⟩ := he
        obtain ⟨rfl, rfl⟩ : q = p ∧ m = n := by
          rw [hlo] at hj
          cases hj
          exact ⟨rfl, rfl⟩
        rw [readLE_setPte_self (Sv39.pointer_lt (framePpn_lt i)), Ghost.EntryOk, hc]
        exact Or.inl ⟨i, update_self _ _ _, rfl⟩
      · have hli : l ≠ i := by
          rintro rfl
          rw [hi] at hlo
          cases hlo
        rw [readLE_setPte_of_ne _ he hk hidx, readLE_withTable_of_ne hli hk]
        have hold := h.entry l q m k hlo hk
        rw [Ghost.EntryOk] at hold ⊢
        cases hchild : m.child k with
        | none => rwa [hchild] at hold
        | some d =>
          rw [hchild] at hold
          refine hold.update_kind hi fun hqd => he ?_
          obtain ⟨rfl, rfl⟩ := hqd
          obtain ⟨rfl, rfl⟩ := Node.child_inj hchild hc
          exact ⟨h.unique l j q m hlo hj, rfl⟩
  · obtain ⟨l, hl⟩ := h.mapped q v hv
    exact ⟨l, (kind_update_iff hi).2 (Or.inr hl)⟩

/-- A process without a root has no tables. -/
theorem PageTables.no_tables (h : PageTables g s) (hp : s.pidToPagetableBase p = 0) (n : Node) :
    g.kind i ≠ .table p n := by
  have hroot : ∀ l, g.kind l ≠ .table p .root := fun l hl =>
    pagingRead_ne_zero l ((h.base l p hl).symm.trans hp)
  have hl1 : ∀ l a, g.kind l ≠ .table p (.l1 a) := fun l a hl => by
    obtain ⟨-, j, hj⟩ := h.parent l p _ .root a hl rfl
    exact hroot j hj
  intro hn
  cases n with
  | root => exact hroot i hn
  | l1 a => exact hl1 i a hn
  | leaf a b =>
    obtain ⟨-, j, hj⟩ := h.parent i p _ (.l1 a) b hn rfl
    exact hl1 j a hj

/-- A root for a process that has none. -/
theorem PageTables.addRoot (h : PageTables g s) (hi : g.kind i = .free)
    (hp : s.pidToPagetableBase p = 0) :
    PageTables { g with kind := update g.kind i (.table p .root) }
      { s.withTable i p with
        pidToPagetableBase := update s.pidToPagetableBase p (pagingRead i) } := by
  have hno : ∀ l n, g.kind l ≠ .table p n := fun l n => h.no_tables hp n
  refine ⟨fun l => ?_, fun l l' q m hl hl' => ?_, fun l q hl => ?_, fun q hq hb => ?_,
    fun l q d m k hl hd => ?_, fun l q m k hl hk => ?_, fun q v hv => ?_, h.bound⟩
  · by_cases hl : l = i
    · subst hl
      simp only [Mmu.withTable, update_self]
      exact ⟨rfl, rfl⟩
    · simp only [Mmu.withTable, update_of_ne hl]
      exact h.frame l
  · rcases (kind_update_iff hi).1 hl with ⟨rfl, rfl, rfl⟩ | hlo <;>
      rcases (kind_update_iff hi).1 hl' with ⟨rfl, hq, hm⟩ | hlo'
    · rfl
    · exact absurd hlo' (hno l' _)
    · rw [hq] at hlo
      exact absurd hlo (hno l _)
    · exact h.unique l l' q m hlo hlo'
  · rcases (kind_update_iff hi).1 hl with ⟨rfl, rfl, -⟩ | hlo
    · exact update_self _ _ _
    · have hqp : q ≠ p := fun he => hno l _ (he ▸ hlo)
      exact (update_of_ne hqp _ _).trans (h.base l q hlo)
  · by_cases hqp : q = p
    · subst hqp
      exact ⟨i, update_self _ _ _⟩
    · have hb : update s.pidToPagetableBase p (pagingRead i) q ≠ 0 := hb
      rw [update_of_ne hqp] at hb
      obtain ⟨l, hl⟩ := h.root q hq hb
      exact ⟨l, (kind_update_iff hi).2 (Or.inr hl)⟩
  · rcases (kind_update_iff hi).1 hl with ⟨-, -, rfl⟩ | hl
    · cases m <;> cases hd
    · obtain ⟨hk, l', hl'⟩ := h.parent l q d m k hl hd
      exact ⟨hk, l', (kind_update_iff hi).2 (Or.inr hl')⟩
  · rcases (kind_update_iff hi).1 hl with ⟨rfl, rfl, rfl⟩ | hlo
    · change Ghost.EntryOk _ _ _ _ ((s.withTable l q).mem.readLE _ 8)
      rw [readLE_withTable_self hk]
      exact h.entry_new hi (fun l => hno l _) (fun _ _ he => by cases he) hk
    · have hli : l ≠ i := by
        rintro rfl
        rw [hi] at hlo
        cases hlo
      change Ghost.EntryOk _ _ _ _ ((s.withTable i p).mem.readLE _ 8)
      rw [readLE_withTable_of_ne hli hk]
      have hold := h.entry l q m k hlo hk
      rw [Ghost.EntryOk] at hold ⊢
      cases hchild : m.child k with
      | none => rwa [hchild] at hold
      | some d =>
        rw [hchild] at hold
        refine hold.update_kind hi fun hqd => ?_
        rw [hqd.1] at hlo
        exact hno l m hlo
  · obtain ⟨l, hl⟩ := h.mapped q v hv
    exact ⟨l, (kind_update_iff hi).2 (Or.inr hl)⟩

end Egos.Earth
