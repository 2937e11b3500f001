import Egos.Earth.PageTable
import Mathlib.Data.Set.Card
import Mathlib.Data.Set.Finite.Range

/-!
# The operations of page-table mode

What `walk_page_tables`, `setup_identity_region`, `pagetable_identity_mapping`, `page_table_map` and
`mmu_free` do to the page tables, as changes of the ghost state. Each spec says which tables the
code sees to (`Grows`): it takes the first free frames for those that the process does not have, and
it stops only when there are not enough of them.
-/

namespace Egos.Earth

open Function (update update_self update_of_ne)

variable {g : Ghost} {s s' : Mmu} {p : ℤ} {i j : Fin nframes}

/-! ## The tables of a process -/

/-- Code that works on the tables of process `p`: frames in use stay what they are, and so do the
roots of other processes. -/
structure Extends (p : ℤ) (kind : Fin nframes → Kind) (s : Mmu) (kind' : Fin nframes → Kind)
    (s' : Mmu) : Prop where
  kind : ∀ i, kind i ≠ .free → kind' i = kind i
  bases : ∀ q, q ≠ p → s'.pidToPagetableBase q = s.pidToPagetableBase q

/-- Nothing is added. -/
theorem Extends.refl (p : ℤ) (kind : Fin nframes → Kind) (s : Mmu) : Extends p kind s kind s :=
  ⟨fun _ _ => rfl, fun _ _ => rfl⟩

/-- What is added by one and then another. -/
theorem Extends.trans {k₁ k₂ k₃ : Fin nframes → Kind} {s₁ s₂ s₃ : Mmu}
    (h : Extends p k₁ s₁ k₂ s₂) (h' : Extends p k₂ s₂ k₃ s₃) : Extends p k₁ s₁ k₃ s₃ :=
  ⟨fun i hi => (h'.kind i (by rw [h.kind i hi]; exact hi)).trans (h.kind i hi),
    fun q hq => (h'.bases q hq).trans (h.bases q hq)⟩

/-- One free frame becomes something else. -/
theorem Extends.update {kind : Fin nframes → Kind} (hi : kind i = .free) (k : Kind)
    (hb : ∀ q, q ≠ p → s'.pidToPagetableBase q = s.pidToPagetableBase q) :
    Extends p kind s (update kind i k) s' :=
  ⟨fun j hj => update_of_ne (fun he : j = i => hj (he ▸ hi)) _ _, hb⟩

/-- The tables that a process has. -/
def tablesOf (kind : Fin nframes → Kind) (p : ℤ) : Set Node := {n | ∃ i, kind i = .table p n}

/-- A process has finitely many page tables. -/
theorem finite_tablesOf (kind : Fin nframes → Kind) (p : ℤ) : (tablesOf kind p).Finite := by
  refine (Set.finite_range fun i => match kind i with
    | .table _ n => n
    | _ => .root).subset ?_
  rintro n ⟨i, hi⟩
  exact ⟨i, by simp only [hi]⟩

/-- Code that sees to the tables `nodes` of process `p`. It takes a frame for each one that `p` does
not have, from the front of the free frames, and writes to tables of `p` only. -/
structure Grows (p : ℤ) (nodes : Set Node) (k : Fin nframes → Kind) (s : Mmu)
    (k' : Fin nframes → Kind) (s' : Mmu) : Prop extends Extends p k s k' s' where
  tables : tablesOf k' p = tablesOf k p ∪ nodes
  free : s'.freeFrames <:+ s.freeFrames
  count : s'.freeFrames.length + (tablesOf k' p).ncard
    = s.freeFrames.length + (tablesOf k p).ncard
  mem : ∀ a, (∀ i n, k' i = .table p n → ¬ InFrame i a) → s'.mem a = s.mem a
  pageTablePid : s'.pageTablePid = s.pageTablePid

/-- There are fewer free frames than tables to allocate. -/
def Short (p : ℤ) (nodes : Set Node) (kind : Fin nframes → Kind) (s : Mmu) : Prop :=
  s.freeFrames.length + (tablesOf kind p).ncard < (tablesOf kind p ∪ nodes).ncard

namespace Grows

variable {kind k₁ k₂ k₃ : Fin nframes → Kind} {s₁ s₂ s₃ : Mmu} {A B : Set Node} {n : Node}

/-- Tables that are there already. -/
theorem refl (h : A ⊆ tablesOf kind p) : Grows p A kind s kind s where
  toExtends := .refl p kind s
  tables := (Set.union_eq_self_of_subset_right h).symm
  free := List.suffix_refl _
  count := rfl
  mem _ _ := rfl
  pageTablePid := rfl

/-- The nodes added by one and then another. -/
theorem trans (h : Grows p A k₁ s₁ k₂ s₂) (h' : Grows p B k₂ s₂ k₃ s₃) :
    Grows p (A ∪ B) k₁ s₁ k₃ s₃ where
  toExtends := h.toExtends.trans h'.toExtends
  tables := by rw [h'.tables, h.tables, Set.union_assoc]
  free := h'.free.trans h.free
  count := h'.count.trans h.count
  mem a ha := by
    refine (h'.mem a ha).trans (h.mem a fun i n hi => ha i n ?_)
    rw [h'.kind i (by rw [hi]; simp), hi]
  pageTablePid := h'.pageTablePid.trans h.pageTablePid

/-- A new table, in the first free frame. -/
theorem new {rest : List (Fin nframes)} (hfree : s.freeFrames = i :: rest) (hi : kind i = .free)
    (hn : n ∉ tablesOf kind p) (hrest : s'.freeFrames = rest)
    (hbases : ∀ q, q ≠ p → s'.pidToPagetableBase q = s.pidToPagetableBase q)
    (hmem : ∀ a, (∀ j m, update kind i (.table p n) j = .table p m → ¬ InFrame j a) →
      s'.mem a = s.mem a)
    (hpid : s'.pageTablePid = s.pageTablePid) :
    Grows p {n} kind s (update kind i (.table p n)) s' := by
  have htables : tablesOf (update kind i (.table p n)) p = tablesOf kind p ∪ {n} := by
    ext m
    simp only [tablesOf, kind_update_iff hi, Set.mem_ofPred_eq, Set.mem_union,
      Set.mem_singleton_iff, true_and]
    constructor
    · rintro ⟨j, ⟨-, hm⟩ | hj⟩
      · exact Or.inr hm
      · exact Or.inl ⟨j, hj⟩
    · rintro (⟨j, hj⟩ | hm)
      · exact ⟨j, Or.inr hj⟩
      · exact ⟨i, Or.inl ⟨rfl, hm⟩⟩
  refine ⟨.update hi _ hbases, htables, ?_, ?_, hmem, hpid⟩
  · rw [hrest, hfree]
    exact List.suffix_cons _ _
  · rw [htables, Set.union_singleton, Set.ncard_insert_of_notMem hn (finite_tablesOf kind p), hrest,
      hfree, List.length_cons]
    omega

/-- Writing an entry of a table. -/
theorem write {idx : ℕ} (hi : kind i = .table p n) (hidx : idx < 512) (w : ℕ) :
    Grows p ∅ kind s kind (s.setPte (pagingRead i + 8 * idx) w) where
  toExtends := ⟨fun _ _ => rfl, fun _ _ => rfl⟩
  tables := (Set.union_empty _).symm
  free := List.suffix_refl _
  count := rfl
  mem a ha := by
    have hout : ¬ (pagingRead i ≤ a ∧ a < pagingRead i + 4096) := ha i n hi
    exact Memory.writeLE_of_not_mem _ _ (by omega)
  pageTablePid := rfl

end Grows

/-- The code stops at the first of two tasks. -/
theorem Short.mono {kind : Fin nframes → Kind} {A B : Set Node} (hA : A ⊆ B) (hB : B.Finite)
    (h : Short p A kind s) : Short p B kind s :=
  h.trans_le (Set.ncard_le_ncard (Set.union_subset_union_right _ hA)
    ((finite_tablesOf kind p).union hB))

/-- The code stops at the second of two tasks. -/
theorem Short.of_grows {k₁ k₂ : Fin nframes → Kind} {s₁ s₂ : Mmu} {A B : Set Node}
    (hg : Grows p A k₁ s₁ k₂ s₂) (h : Short p B k₂ s₂) : Short p (A ∪ B) k₁ s₁ := by
  unfold Short at h ⊢
  rwa [hg.count, hg.tables, Set.union_assoc] at h

/-- Without a free frame there is none for a table that is missing. -/
theorem Short.of_empty {kind : Fin nframes → Kind} {n : Node} (hs : s.freeFrames = [])
    (hn : n ∉ tablesOf kind p) : Short p {n} kind s := by
  unfold Short
  rw [Set.union_singleton, Set.ncard_insert_of_notMem hn (finite_tablesOf kind p), hs,
    List.length_nil]
  omega

/-! ## Walking the tables -/

/-- A table of process `p` was found or allocated, with those above it, and no page has changed. -/
def GrownTable (g : Ghost) (s : Mmu) (p : ℤ) (nodes : Set Node) (n : Node) (pt : ℕ) (s' : Mmu) :
    Prop :=
  ∃ kind', PageTables { g with kind := kind' } s' ∧ Grows p nodes g.kind s kind' s' ∧
    ∃ i, kind' i = .table p n ∧ pt = pagingRead i

/-- The root of a process: there is one afterwards, unless no frame is free. -/
theorem rootPageTable_spec (h : PageTables g s) (hp : ¬ g.dead p) :
    wp (rootPageTable p) (GrownTable g s p {.root} .root)
      (fun _ _ => Short p {.root} g.kind s) s := by
  unfold rootPageTable
  rw [wp_bind, wp_get]
  split
  · rename_i hbase
    have hno : Node.root ∉ tablesOf g.kind p := fun ⟨i, hi⟩ => h.no_tables hbase _ hi
    rw [wp_bind]
    refine allocPageTable_spec (fun i rest hfree hrest => ?_) fun hs => .of_empty hs hno
    have hi := h.kind_free (Mmu.mem_freeFrames.1 (hfree ▸ List.mem_cons_self))
    refine ⟨_, h.addRoot hi hbase, .new hfree hi hno hrest (fun q hq => update_of_ne hq _ _)
      (fun a ha => ?_) rfl, i, update_self _ _ _, rfl⟩
    exact Memory.memset_of_not_mem _ _ (ha i .root (update_self _ _ _))
  · rename_i hbase
    obtain ⟨i, hi⟩ := h.root p hp hbase
    exact ⟨g.kind, h, .refl (Set.singleton_subset_iff.2 ⟨i, hi⟩), i, hi, h.base i p hi⟩

/-- The table below an entry: there is one afterwards, unless no frame is free. -/
theorem nextPageTable_spec (h : PageTables g s) {n c : Node} {idx : ℕ}
    (hj : g.kind j = .table p n) (hidx : idx < 512) (hc : n.child idx = some c) :
    wp (nextPageTable p (pagingRead j + 8 * idx)) (GrownTable g s p {c} c)
      (fun _ _ => Short p {c} g.kind s) s := by
  unfold nextPageTable
  rw [wp_bind, wp_get]
  rcases h.entry_child hj hidx hc with ⟨i, hi, hw⟩ | ⟨hno, hw⟩
  · have hvalid : s.mem.readLE (pagingRead j + 8 * idx) 8 &&& pteV ≠ 0 := by
      rw [hw, Nat.and_one_is_mod, Sv39.pointer]
      omega
    rw [if_pos hvalid, wp_pure, hw, pteGetPa_pointer (framePpn_lt i), ← pagingRead_ppn]
    exact ⟨g.kind, h, .refl (Set.singleton_subset_iff.2 ⟨i, hi⟩), i, hi, rfl⟩
  · have hnull : ¬ s.mem.readLE (pagingRead j + 8 * idx) 8 &&& pteV ≠ 0 := by
      rw [hw]
      decide
    have hmiss : c ∉ tablesOf g.kind p := by
      rintro ⟨i, hi⟩
      exact hno i hi
    rw [if_neg hnull, wp_bind]
    refine allocPageTable_spec (fun i rest hfree hrest => ?_) fun hs => .of_empty hs hmiss
    have hi := h.kind_free (Mmu.mem_freeFrames.1 (hfree ▸ List.mem_cons_self))
    rw [wp_bind, wp_modify, wp_pure, pagingRead_ppn i, pointer_eq (framePpn_lt i),
      ← pagingRead_ppn]
    refine ⟨_, h.addTable hi hj hidx hc hno, .new hfree hi hmiss hrest (fun _ _ => rfl)
      (fun a ha => ?_) rfl, i, update_self _ _ _, rfl⟩
    -- the new table is cleared and an entry of the old one points to it
    have hnew := ha i c (update_self _ _ _)
    have hold := ha j n ((kind_update_iff hi).2 (Or.inr hj))
    unfold InFrame at hold
    change ¬ (_ ∧ _ < _ + 4096) at hold
    refine (Memory.writeLE_of_not_mem _ _ (by omega)).trans ?_
    exact Memory.memset_of_not_mem _ _ hnew

/-- The tables on the way to a page. -/
def path (addr : ℕ) : Set Node :=
  {.root} ∪ ({.l1 (Sv39.vpn addr 2)} ∪ {.leaf (Sv39.vpn addr 2) (Sv39.vpn addr 1)})

/-- A walk goes through finitely many nodes. -/
theorem finite_path (addr : ℕ) : (path addr).Finite :=
  (Set.finite_singleton _).union ((Set.finite_singleton _).union (Set.finite_singleton _))

/-- `walk_page_tables` returns the leaf table of a page. -/
theorem walkPageTables_spec (h : PageTables g s) (hp : ¬ g.dead p) {addr : ℕ}
    (haddr : addr % pageSize = 0) :
    wp (walkPageTables p addr)
      (GrownTable g s p (path addr) (.leaf (Sv39.vpn addr 2) (Sv39.vpn addr 1)))
      (fun _ _ => Short p (path addr) g.kind s) s := by
  have hfin := finite_path addr
  unfold walkPageTables
  rw [if_neg (not_not_intro haddr)]
  refine wp_call (rootPageTable_spec h hp)
    (fun _ _ hs => hs.mono Set.subset_union_left hfin) fun root s₁ hroot => ?_
  obtain ⟨k₁, h₁, hg₁, i, hi, rfl⟩ := hroot
  rw [vaGetVpn_eq, vaGetVpn_eq]
  refine wp_call (nextPageTable_spec h₁ hi (Sv39.vpn_lt addr 2) rfl)
    (fun _ _ hs => (hs.of_grows hg₁).mono
      (Set.union_subset_union_right _ Set.subset_union_left) hfin) fun l1 s₂ hl1 => ?_
  obtain ⟨k₂, h₂, hg₂, j, hj, rfl⟩ := hl1
  refine wp_mono (nextPageTable_spec h₂ hj (Sv39.vpn_lt addr 1) rfl) (fun leaf s₃ hleaf => ?_)
    fun _ _ hs => (hs.of_grows hg₂).of_grows hg₁
  obtain ⟨k₃, h₃, hg₃, hfound⟩ := hleaf
  exact ⟨k₃, h₃, hg₁.trans (hg₂.trans hg₃), hfound⟩

/-! ## Leaves -/

/-- The pages of a process with one of them changed. -/
def Ghost.setPage (g : Ghost) (p : ℤ) (v : ℕ) (x : ℕ × Bool) : Ghost :=
  { g with maps := fun q w => if q = p ∧ w = v then some x else g.maps q w }

/-- A new leaf changes one page of one process. -/
theorem PageTables.setLeaf (h : PageTables g s) {a b idx n : ℕ} (user : Bool)
    (hi : g.kind i = .table p (.leaf a b)) (hidx : idx < 512) (hn : n < 2 ^ 44) :
    PageTables (g.setPage p (Node.page (.leaf a b) idx) (n, user))
      (s.setPte (pagingRead i + 8 * idx) (Sv39.leaf n user)) := by
  have hb : ∀ l q a' b', g.kind l = .table q (.leaf a' b') → b' < 512 :=
    fun l q a' b' hl => (h.parent l q _ (.l1 a') b' hl rfl).1
  refine ⟨h.frame, h.unique, h.base, h.root, h.parent, fun l q m k hl hk => ?_,
    fun q v hv => ?_, fun q v n' user' hv => ?_⟩
  · by_cases he : l = i ∧ k = idx
    · obtain ⟨rfl, rfl⟩ := he
      have hlm : Kind.table q m = .table p (.leaf a b) := hl.symm.trans hi
      cases hlm
      rw [readLE_setPte_self (Sv39.leaf_lt hn user)]
      change _ = leafWord (if p = p ∧ _ = _ then _ else _)
      rw [if_pos ⟨rfl, rfl⟩]
      rfl
    · rw [readLE_setPte_of_ne _ he hk hidx]
      have hold := h.entry l q m k hl hk
      rw [Ghost.EntryOk] at hold ⊢
      cases m with
      | root => exact hold
      | l1 a' => exact hold
      | leaf a' b' =>
        -- another entry is for another page
        change _ = leafWord (if q = p ∧ _ = _ then _ else _)
        rw [if_neg]
        · exact hold
        · rintro ⟨rfl, hpage⟩
          obtain ⟨h1, h2, h3⟩ := Node.page_leaf a' (hb l _ _ _ hl) hk
          obtain ⟨h1', h2', h3'⟩ := Node.page_leaf a (hb i _ _ _ hi) hidx
          rw [hpage] at h1 h2 h3
          obtain rfl : a' = a := h1.symm.trans h1'
          obtain rfl : b' = b := h2.symm.trans h2'
          exact he ⟨h.unique l i q _ hl hi, h3.symm.trans h3'⟩
  · by_cases hc : q = p ∧ v = Node.page (.leaf a b) idx
    · obtain ⟨rfl, rfl⟩ := hc
      obtain ⟨h1, h2, -⟩ := Node.page_leaf a (hb i _ _ _ hi) hidx
      rw [h1, h2]
      exact ⟨i, hi⟩
    · change (if q = p ∧ v = _ then some _ else g.maps q v) ≠ none at hv
      rw [if_neg hc] at hv
      exact h.mapped q v hv
  · change (if q = p ∧ v = _ then some _ else g.maps q v) = _ at hv
    split at hv
    · cases hv
      exact hn
    · exact h.bound q v n' user' hv

/-! ## Identity regions -/

/-- A list of regions, given by the address and the number of pages of each, covers a page. -/
def Covers (regions : List (ℕ × ℕ)) (v : ℕ) : Prop :=
  ∃ r ∈ regions, r.1 / pageSize ≤ v ∧ v < r.1 / pageSize + r.2

instance (regions : List (ℕ × ℕ)) (v : ℕ) : Decidable (Covers regions v) :=
  inferInstanceAs (Decidable (∃ r ∈ regions, _ ∧ _))

/-- The pages of one region. -/
theorem covers_singleton {n m v : ℕ} : Covers [(n * 2 ^ 12, m)] v ↔ n ≤ v ∧ v < n + m := by
  simp [Covers]

/-- Ghost states with the same mappings are the same. -/
theorem Ghost.maps_congr {maps maps' : ℤ → ℕ → Option (ℕ × Bool)}
    (h : ∀ q v, maps q v = maps' q v) :
    ({ g with maps := maps } : Ghost) = { g with maps := maps' } := by
  rw [show maps = maps' from funext fun q => funext fun v => h q v]

/-- The pages of a process with regions mapped to themselves, for the kernel only. -/
def Ghost.identity (g : Ghost) (p : ℤ) (regions : List (ℕ × ℕ)) : Ghost :=
  { g with
    maps := fun q v => if q = p ∧ Covers regions v then some (v, false) else g.maps q v }

/-- The identity mapping of regions, one by one. -/
theorem Ghost.identity_cons (g : Ghost) (p : ℤ) (r : ℕ × ℕ) (regions : List (ℕ × ℕ)) :
    (g.identity p [r]).identity p regions = g.identity p (r :: regions) := by
  have hcovers : ∀ v, Covers (r :: regions) v ↔ Covers [r] v ∨ Covers regions v := fun v => by
    simp [Covers]
  refine Ghost.maps_congr fun q v => ?_
  by_cases hq : q = p <;> by_cases h1 : Covers [r] v <;> by_cases h2 : Covers regions v <;>
    simp [Ghost.identity, hq, h1, h2, hcovers]

/-- The loop of `setup_identity_region`. -/
theorem identityEntries_spec {a b addr n0 : ℕ} (haddr : addr = n0 * 2 ^ 12) (hn0 : n0 < 2 ^ 27)
    (ha : a = n0 / 2 ^ 18) (hb : b = n0 / 2 ^ 9 % 2 ^ 9) :
    ∀ (n k : ℕ) {g : Ghost} {s : Mmu}, n0 % 2 ^ 9 + k + n ≤ 512 → PageTables g s →
      g.kind i = .table p (.leaf a b) →
      wp (identityEntries (pagingRead i) (n0 % 2 ^ 9) addr osXwrv n k)
        (fun _ s' => PageTables (g.identity p [((n0 + k) * 2 ^ 12, n)]) s' ∧
          Grows p ∅ g.kind s g.kind s') (fun _ _ => False) s
  | 0, k, g, s, _, h, hi => by
    have hnone : g.identity p [((n0 + k) * 2 ^ 12, 0)] = g := by
      have hc : ∀ v, ¬ Covers [((n0 + k) * 2 ^ 12, 0)] v := fun v hv => by
        rw [covers_singleton] at hv
        omega
      simp only [Ghost.identity, hc, and_false, if_false]
    rw [identityEntries, wp_pure, hnone]
    exact ⟨h, .refl (Set.empty_subset _)⟩
  | n + 1, k, g, s, hfit, h, hi => by
    have hk : n0 % 2 ^ 9 + k < 512 := by omega
    rw [identityEntries, if_neg (by omega)]
    have hpage : Node.page (.leaf a b) (n0 % 2 ^ 9 + k) = n0 + k := by
      rw [Node.page, ha, hb]
      omega
    have hmul : addr + k * pageSize = (n0 + k) * 2 ^ 12 := by
      rw [haddr]
      simp only [pageSize]
      omega
    have hword : paToPte ((n0 + k) * 2 ^ 12) ||| pteA ||| pteD ||| osXwrv
        = Sv39.leaf (n0 + k) false := leaf_eq (by omega) false rfl
    have hset := h.setLeaf (n := n0 + k) false hi hk (by omega)
    rw [hpage] at hset
    have hgrow : Grows p ∅ g.kind s g.kind
        (s.setPte (pagingRead i + 8 * (n0 % 2 ^ 9 + k)) (Sv39.leaf (n0 + k) false)) :=
      .write hi hk _
    rw [wp_bind, wp_modify, hmul, hword]
    have hrest := identityEntries_spec haddr hn0 ha hb n (k + 1) (by omega) hset hi
    have hghost : (g.setPage p (n0 + k) (n0 + k, false)).identity p [((n0 + (k + 1)) * 2 ^ 12, n)]
        = g.identity p [((n0 + k) * 2 ^ 12, n + 1)] := by
      refine Ghost.maps_congr fun q v => ?_
      simp only [Ghost.setPage, covers_singleton]
      by_cases hq : q = p
      · by_cases hv : v = n0 + k
        · rw [if_neg (by omega), if_pos ⟨hq, hv⟩, if_pos ⟨hq, by omega⟩, hv]
        · have hkeep : (if q = p ∧ v = n0 + k then some (n0 + k, false) else g.maps q v)
              = g.maps q v := if_neg fun hc => hv hc.2
          rw [hkeep]
          exact if_congr (by omega) rfl rfl
      · simp [hq]
    rw [hghost] at hrest
    refine wp_mono hrest (fun _ s' hs => ⟨hs.1, ?_⟩) fun _ _ hs => hs
    have hboth := hgrow.trans hs.2
    rwa [Set.union_empty] at hboth

/-- `setup_identity_region` maps a region to itself. The region has to fit its leaf table. -/
theorem setupIdentityRegion_spec (h : PageTables g s) (hp : ¬ g.dead p) {addr n : ℕ}
    (haddr : addr % 2 ^ 12 = 0) (hlt : addr < 2 ^ 39) (hfit : addr / 2 ^ 12 % 2 ^ 9 + n ≤ 512) :
    wp (setupIdentityRegion p addr n osXwrv) (fun _ s' => ∃ kind',
      Grows p (path addr) g.kind s kind' s' ∧
      PageTables { g.identity p [(addr, n)] with kind := kind' } s')
      (fun _ _ => Short p (path addr) g.kind s) s := by
  unfold setupIdentityRegion
  refine wp_seq (walkPageTables_spec h hp haddr) fun leaf s₁ hleaf => ?_
  obtain ⟨kind', h₁, hg, i, hi, rfl⟩ := hleaf
  have hn0 : addr = addr / 2 ^ 12 * 2 ^ 12 := by omega
  have hvpn : vaGetVpn addr 0 = addr / 2 ^ 12 % 2 ^ 9 := by
    rw [vaGetVpn_eq, Sv39.vpn]
  have h2 : Sv39.vpn addr 2 = addr / 2 ^ 12 / 2 ^ 18 := by
    simp only [Sv39.vpn]
    omega
  have h1 : Sv39.vpn addr 1 = addr / 2 ^ 12 / 2 ^ 9 % 2 ^ 9 := by
    simp only [Sv39.vpn]
    omega
  rw [hvpn]
  refine wp_mono (identityEntries_spec hn0 (by omega) h2 h1 n 0 (by omega) h₁ hi)
    (fun _ s' hs => ?_) fun _ _ hs => hs.elim
  rw [Nat.add_zero, ← hn0] at hs
  have hboth := hg.trans hs.2
  rw [Set.union_empty] at hboth
  exact ⟨kind', hboth, hs.1⟩

/-- The identity regions of a process. -/
def identityRegions (pid : ℤ) : List (ℕ × ℕ) :=
  (0x02500000, 1) :: (0x04020000, 3) ::
    if pid = 0 then [(memStart, pageCnt memSize)]
    else
      (earthEntry, pageCnt earthSize) :: (grassEntry, pageCnt grassSize) ::
        (grassStackBottom, pageCnt grassStackSize) :: (grassInterface, 1) ::
          if pid = gpidProcess then [(frameCacheStart, pageCnt frameCacheSize)] else []

/-- Mapping a list of regions. -/
def setupRegions (pid : ℤ) : List (ℕ × ℕ) → MmuM Unit
  | [] => pure ()
  | r :: regions => do
    setupIdentityRegion pid r.1 r.2 osXwrv
    setupRegions pid regions

/-- The two cases of `pagetable_identity_mapping` differ in the list of regions only. -/
theorem pagetableIdentityMapping_eq (pid : ℤ) :
    pagetableIdentityMapping pid = setupRegions pid (identityRegions pid) := by
  unfold pagetableIdentityMapping identityRegions
  by_cases h0 : pid = 0
  · simp [h0, setupRegions]
  · by_cases h1 : pid = gpidProcess <;> simp [h0, h1, setupRegions]

/-- The tables on the way to some regions. -/
def paths (regions : List (ℕ × ℕ)) : Set Node := {n | ∃ r ∈ regions, n ∈ path r.1}

/-- The nodes on the paths to some regions, one by one. -/
theorem paths_cons (r : ℕ × ℕ) (regions : List (ℕ × ℕ)) :
    paths (r :: regions) = path r.1 ∪ paths regions := by
  ext n
  simp [paths]

/-- Regions need finitely many page tables. -/
theorem finite_paths (regions : List (ℕ × ℕ)) : (paths regions).Finite := by
  induction regions with
  | nil => simp [paths]
  | cons r regions ih =>
    rw [paths_cons]
    exact (finite_path r.1).union ih

/-- A region that `setup_identity_region` can map: it starts at a page and fits a leaf table. -/
def RegionOk (r : ℕ × ℕ) : Prop :=
  r.1 % 2 ^ 12 = 0 ∧ r.1 < 2 ^ 39 ∧ r.1 / 2 ^ 12 % 2 ^ 9 + r.2 ≤ 512

instance (r : ℕ × ℕ) : Decidable (RegionOk r) := inferInstanceAs (Decidable (_ ∧ _ ∧ _))

/-- The identity mapping of some regions, by induction on the list. -/
theorem setupRegions_spec (regions : List (ℕ × ℕ)) (hr : ∀ r ∈ regions, RegionOk r)
    (hp : ¬ g.dead p) (h : PageTables g s) :
    wp (setupRegions p regions) (fun _ s' => ∃ kind',
      Grows p (paths regions) g.kind s kind' s' ∧
      PageTables { g.identity p regions with kind := kind' } s')
      (fun _ _ => Short p (paths regions) g.kind s) s := by
  induction regions generalizing g s with
  | nil =>
    have hnone : paths [] = ∅ := by simp [paths]
    refine ⟨g.kind, .refl (hnone ▸ Set.empty_subset _), ?_⟩
    simpa [Ghost.identity, Covers] using h
  | cons r regions ih =>
    obtain ⟨haddr, hlt, hfit⟩ := hr r (by simp)
    have hfin := finite_paths (r :: regions)
    rw [paths_cons] at hfin ⊢
    refine wp_call (setupIdentityRegion_spec h hp haddr hlt hfit)
      (fun _ _ hs => hs.mono Set.subset_union_left hfin) fun _ s₁ hs₁ => ?_
    obtain ⟨k₁, hg₁, h₁⟩ := hs₁
    have hp₁ : ¬ ({ g.identity p [r] with kind := k₁ } : Ghost).dead p := hp
    refine wp_mono (ih (fun r' hr' => hr r' (by simp [hr'])) hp₁ h₁) (fun _ s₂ hs₂ => ?_)
      fun _ _ hs => hs.of_grows hg₁
    obtain ⟨k₂, hg₂, h₂⟩ := hs₂
    refine ⟨k₂, hg₁.trans hg₂, ?_⟩
    rw [← Ghost.identity_cons]
    exact h₂

/-- The regions of the source lie within one leaf table each. -/
theorem regionOk_identityRegions : ∀ r ∈ identityRegions p, RegionOk r := by
  intro r hr
  unfold identityRegions at hr
  split_ifs at hr <;> simp only [List.mem_cons, List.not_mem_nil, or_false] at hr <;>
    rcases hr with rfl | rfl | rfl | rfl | rfl | rfl | rfl <;> decide

/-- `pagetable_identity_mapping` maps the identity regions of a process. -/
theorem pagetableIdentityMapping_spec (h : PageTables g s) (hp : ¬ g.dead p) :
    wp (pagetableIdentityMapping p) (fun _ s' => ∃ kind',
      Grows p (paths (identityRegions p)) g.kind s kind' s' ∧
      PageTables { g.identity p (identityRegions p) with kind := kind' } s')
      (fun _ _ => Short p (paths (identityRegions p)) g.kind s) s := by
  rw [pagetableIdentityMapping_eq]
  exact setupRegions_spec _ regionOk_identityRegions hp h

/-! ## The interface -/

/-- The pages of a process after `page_table_map` has seen to its identity mapping. -/
def Ghost.ensureIdentity (g : Ghost) (s : Mmu) (p : ℤ) : Ghost :=
  if s.pidToPagetableBase p = 0 then g.identity p (identityRegions p) else g

/-- The tables that `page_table_map` sees to. -/
def mapNodes (s : Mmu) (p : ℤ) (v : ℕ) : Set Node :=
  (if s.pidToPagetableBase p = 0 then paths (identityRegions p) else ∅) ∪ path (pageAddr v)

/-- Mapping a page needs finitely many page tables. -/
theorem finite_mapNodes (s : Mmu) (p : ℤ) (v : ℕ) : (mapNodes s p v).Finite := by
  refine Set.Finite.union ?_ (finite_path _)
  split
  · exact finite_paths _
  · exact Set.finite_empty

/-- `page_table_map` gives a page a frame. -/
theorem pageTableMap_spec (h : PageTables g s) (hp : ¬ g.dead p) {v : ℕ} (hv : v < 2 ^ 52)
    (f : Fin nframes) :
    wp (pageTableMap p v f) (fun _ s' => p < 32 ∧ ∃ kind',
      Grows p (mapNodes s p v) g.kind s kind' s' ∧ s'.pidToPagetableBase p ≠ 0 ∧
      PageTables { (g.ensureIdentity s p).setPage p (v % 2 ^ 27) (framePpn f, true) with
        kind := kind' } s') (fun _ _ => 32 ≤ p ∨ Short p (mapNodes s p v) g.kind s) s := by
  have hfin := finite_mapNodes s p v
  unfold pageTableMap
  split
  · exact Or.inl ‹_›
  rename_i hsmall
  have hensure : wp (ensureIdentityMapping p) (fun _ s' => ∃ kind',
      Grows p (if s.pidToPagetableBase p = 0 then paths (identityRegions p) else ∅) g.kind s
        kind' s' ∧ PageTables { g.ensureIdentity s p with kind := kind' } s')
      (fun _ _ => 32 ≤ p ∨ Short p (mapNodes s p v) g.kind s) s := by
    unfold ensureIdentityMapping Ghost.ensureIdentity mapNodes at *
    rw [wp_bind, wp_get]
    split
    · rename_i hbase
      rw [if_pos hbase] at hfin
      exact wp_mono (pagetableIdentityMapping_spec h hp) (fun _ _ hs => hs)
        fun _ _ hs => Or.inr (hs.mono Set.subset_union_left hfin)
    · exact ⟨g.kind, .refl (Set.empty_subset _), h⟩
  refine wp_seq hensure fun _ s₁ hs₁ => ?_
  obtain ⟨k₁, hg₁, h₁⟩ := hs₁
  have hp₁ : ¬ ({ g.ensureIdentity s p with kind := k₁ } : Ghost).dead p := by
    unfold Ghost.ensureIdentity
    split <;> exact hp
  have haligned : pageAddr v % pageSize = 0 := by
    rw [pageAddr_eq hv]
    exact Nat.mul_mod_left _ _
  refine wp_call (walkPageTables_spec h₁ hp₁ haligned)
    (fun _ _ hs => Or.inr (hs.of_grows hg₁)) fun leaf s₂ hs₂ => ?_
  obtain ⟨k₂, h₂, hg₂, i, hi, rfl⟩ := hs₂
  have hword : paToPte (framePpn f * 2 ^ 12) ||| pteA ||| pteD ||| userXwrv
      = Sv39.leaf (framePpn f) true := leaf_eq (framePpn_lt f) true rfl
  have hpage : Node.page (.leaf (Sv39.vpn (pageAddr v) 2) (Sv39.vpn (pageAddr v) 1))
      (Sv39.vpn (pageAddr v) 0) = v % 2 ^ 27 := by
    rw [Node.page, ← (vpn_eq (pageAddr v)).2.2, pageAddr_eq hv]
    omega
  have hvpn := Sv39.vpn_lt (pageAddr v) 0
  have hset := h₂.setLeaf true hi hvpn (framePpn_lt f)
  rw [hpage] at hset
  have hgrow : Grows p ∅ k₂ s₂ k₂ (s₂.setPte (pagingRead i + 8 * Sv39.vpn (pageAddr v) 0)
      (Sv39.leaf (framePpn f) true)) := .write hi hvpn _
  rw [wp_modify, vaGetVpn_eq, pagingRead_ppn f, hword]
  have hg := hg₁.trans (hg₂.trans hgrow)
  rw [Set.union_empty] at hg
  refine ⟨not_le.1 hsmall, k₂, hg, ?_, hset⟩
  -- the tables found are below a root
  obtain ⟨-, j, hj⟩ := h₂.parent i p _ (.l1 _) _ hi rfl
  obtain ⟨-, l, hl⟩ := h₂.parent j p _ .root _ hj rfl
  change s₂.pidToPagetableBase p ≠ 0
  rw [h₂.base l p hl]
  exact pagingRead_ne_zero l

/-- A frame that is allocated and not a table is a data page. -/
theorem PageTables.allocData (h : PageTables g s) (hi : (s.table i).use = false) :
    PageTables { g with kind := update g.kind i .data }
      (s.setFrame i fun e => { e with use := true }) := by
  have hfree := h.kind_free hi
  have hframe := h.frame i
  rw [hfree] at hframe
  have hiff : ∀ j q n, update g.kind i .data j = .table q n ↔ g.kind j = .table q n := by
    intro j q n
    by_cases hj : j = i
    · rw [hj, update_self, hfree]
      simp
    · rw [update_of_ne hj]
  refine ⟨fun j => ?_, fun j l q n hj hl => ?_, fun j q hj => ?_, fun q hq hb => ?_,
    fun j q d n k hj hd => ?_, fun j q n k hj hk => ?_, fun q v hv => ?_, h.bound⟩
  · by_cases hj : j = i
    · subst hj
      simp only [Mmu.setFrame, update_self]
      exact ⟨rfl, by rw [show s.table j = _ from hframe]⟩
    · simp only [Mmu.setFrame, update_of_ne hj]
      exact h.frame j
  · exact h.unique j l q n ((hiff j q n).1 hj) ((hiff l q n).1 hl)
  · exact h.base j q ((hiff j q _).1 hj)
  · obtain ⟨l, hl⟩ := h.root q hq hb
    exact ⟨l, (hiff l q _).2 hl⟩
  · obtain ⟨hk, l, hl⟩ := h.parent j q d n k ((hiff j q d).1 hj) hd
    exact ⟨hk, l, (hiff l q n).2 hl⟩
  · have hold := h.entry j q n k ((hiff j q n).1 hj) hk
    rw [Ghost.EntryOk] at hold ⊢
    cases hc : n.child k with
    | none => rwa [hc] at hold
    | some c =>
      rw [hc] at hold
      simp only [Points, hiff]
      simp only [ne_eq, hiff]
      exact hold
  · obtain ⟨l, hl⟩ := h.mapped q v hv
    exact ⟨l, (hiff l q _).2 hl⟩

/-- The tables of the other processes after a process has been freed. -/
def Ghost.free (g : Ghost) (p : ℤ) : Ghost where
  kind i := match g.kind i with
    | .table q n => if q = p then .free else .table q n
    | k => k
  maps q v := if q = p then none else g.maps q v
  dead q := g.dead q ∨ q = p

/-- Freeing a process takes away its page tables and no others. -/
theorem Ghost.free_kind {q : ℤ} {n : Node} :
    (g.free p).kind i = .table q n ↔ g.kind i = .table q n ∧ q ≠ p := by
  simp only [Ghost.free]
  cases hk : g.kind i with
  | free => simp
  | data => simp
  | table q' n' =>
    by_cases hq : q' = p
    · simp only [hq, if_true, Kind.table.injEq]
      grind
    · simp only [hq, if_false, Kind.table.injEq]
      grind

/-- `mmu_free` takes the tables of a process away from it. -/
theorem PageTables.mmuFree (h : PageTables g s) (hp : p ≠ 0) :
    PageTables (g.free p) (mmuFree p s) := by
  refine ⟨fun i => ?_, fun i j q n hi hj => ?_, fun i q hi => ?_, fun q hq hb => ?_,
    fun i q c n k hi hc => ?_, fun i q n k hi hk => ?_, fun q v hv => ?_, fun q v n u hv => ?_⟩
  · have hf := h.frame i
    simp only [Ghost.free, Egos.Earth.mmuFree]
    cases hk : g.kind i with
    | free =>
      rw [hk] at hf
      rw [show s.table i = _ from hf]
      rfl
    | data =>
      rw [hk] at hf
      rw [if_neg fun hc => hp (hc.2.symm.trans hf.2)]
      exact hf
    | table q n =>
      rw [hk] at hf
      by_cases hq : q = p
      · simp only [hq, if_true]
        rw [if_pos ⟨hf.1, hf.2.trans hq⟩]
        rfl
      · simp only [hq, if_false]
        rw [if_neg fun hc => hq (hf.2.symm.trans hc.2)]
        exact hf
  · exact h.unique i j q n (Ghost.free_kind.1 hi).1 (Ghost.free_kind.1 hj).1
  · exact h.base i q (Ghost.free_kind.1 hi).1
  · have hq' := not_or.1 hq
    obtain ⟨i, hi⟩ := h.root q hq'.1 hb
    exact ⟨i, Ghost.free_kind.2 ⟨hi, hq'.2⟩⟩
  · obtain ⟨hi, hq⟩ := Ghost.free_kind.1 hi
    obtain ⟨hk, j, hj⟩ := h.parent i q c n k hi hc
    exact ⟨hk, j, Ghost.free_kind.2 ⟨hj, hq⟩⟩
  · obtain ⟨hi, hq⟩ := Ghost.free_kind.1 hi
    have hold := h.entry i q n k hi hk
    rw [Ghost.EntryOk] at hold ⊢
    cases hc : n.child k with
    | none =>
      rw [hc] at hold
      change _ = leafWord (if q = p then none else g.maps q _)
      rw [if_neg hq]
      exact hold
    | some c =>
      rw [hc] at hold
      rcases hold with ⟨j, hj, hw⟩ | ⟨hno, hw⟩
      · exact Or.inl ⟨j, Ghost.free_kind.2 ⟨hj, hq⟩, hw⟩
      · exact Or.inr ⟨fun j hj => hno j (Ghost.free_kind.1 hj).1, hw⟩
  · simp only [Ghost.free] at hv
    split at hv
    · exact absurd rfl hv
    · obtain ⟨i, hi⟩ := h.mapped q v hv
      exact ⟨i, Ghost.free_kind.2 ⟨hi, ‹_›⟩⟩
  · simp only [Ghost.free] at hv
    split at hv
    · cases hv
    · exact h.bound q v n u hv

/-- Writes outside the tables are not seen by the hardware. -/
theorem PageTables.withMem_outside (h : PageTables g s) {mem : Memory}
    (hmem : ∀ i q n a, g.kind i = .table q n → InFrame i a → mem a = s.mem a) :
    PageTables g { s with mem := mem } := by
  refine ⟨h.frame, h.unique, h.base, h.root, h.parent, fun j q n k hj hk => ?_, h.mapped, h.bound⟩
  have hword : mem.readLE (pagingRead j + 8 * k) 8 = s.mem.readLE (pagingRead j + 8 * k) 8 := by
    refine Memory.readLE_congr fun x hx hx' => hmem j q n x hj ?_
    change _ ∧ _ < _ + 4096
    omega
  change g.EntryOk q n k (mem.readLE _ 8)
  rw [hword]
  exact h.entry j q n k hj hk

/-- Writes to a data page are not seen by the hardware. -/
theorem PageTables.withMem (h : PageTables g s) (hi : g.kind i = .data) {mem : Memory}
    (hmem : ∀ a, ¬ InFrame i a → mem a = s.mem a) : PageTables g { s with mem := mem } := by
  refine h.withMem_outside fun j q n a hj ha => hmem a fun hia => ?_
  rw [hia.unique ha, hj] at hi
  cases hi

/-- A store to a data page keeps the invariant. -/
theorem PageTables.store (h : PageTables g s) (hi : g.kind i = .data) {off : ℕ} (hoff : off < 4096)
    (byte : UInt8) : PageTables g (s.store (pagingRead i + off) byte) := by
  refine h.withMem hi fun a ha => update_of_ne (fun he => ha ?_) _ _
  change _ ∧ _ < _ + 4096
  omega

end Egos.Earth
