import Egos.Common.Memory
import Egos.Common.Wp
import Mathlib.Data.Fintype.Basic

/-!
# Memory management

Translation of `earth/cpu_mmu.c` and `earth/dev_page.c`. Physical memory is a function from
addresses to bytes; the paging device is 256 frames of it. Two mechanisms give each process its own
view of memory: a software TLB, which copies the pages of a process between its frames and the one
window they are seen through, and Sv39 page tables, which live in frames themselves.

`FATAL` stops with its message. Addresses and page-table entries are 64-bit numbers; a C array of
`unsigned long` at address `pt` has its element `i` at `pt + 8 * i`. The variables of
`walk_page_tables` are static in the source but are assigned before they are read in every call.
-/

namespace Egos.Earth

/-! ## Memory layout (`egos.h`) -/

/-- `PAGE_SIZE`. -/
abbrev pageSize : ℕ := 4096

/-- `PAGE_CNT`. -/
def pageCnt (size : ℕ) : ℕ := size / 4096

/-- `MEM_START`. -/
abbrev memStart : ℕ := 0x40000000

/-- `MEM_SIZE`. -/
abbrev memSize : ℕ := 0x200000

/-- `FRAME_CACHE_SIZE`. -/
abbrev frameCacheSize : ℕ := 1024 * 1024

/-- `FRAME_CACHE_START`. -/
abbrev frameCacheStart : ℕ := memStart + memSize - frameCacheSize

/-- `FRAME_CACHE_END`. -/
abbrev frameCacheEnd : ℕ := memStart + memSize

/-- `GRASS_INTERFACE`, the page below the frame cache. -/
abbrev grassInterface : ℕ := frameCacheStart - pageSize

/-- `GRASS_STACK_SIZE`. -/
abbrev grassStackSize : ℕ := 8 * 1024

/-- `GRASS_STACK_BOTTOM`. -/
abbrev grassStackBottom : ℕ := grassInterface - grassStackSize

/-- `EARTH_ENTRY`. -/
abbrev earthEntry : ℕ := memStart

/-- `EARTH_SIZE`. -/
abbrev earthSize : ℕ := (128 + 16) * 1024

/-- `GRASS_ENTRY`. -/
abbrev grassEntry : ℕ := earthEntry + earthSize

/-- `GRASS_SIZE`. -/
abbrev grassSize : ℕ := (8 + 4) * 1024

/-! ## State -/

/-- `NFRAMES`. -/
abbrev nframes : ℕ := 256

instance : NeZero nframes := ⟨by decide⟩

/-- `struct frame_mapping`. -/
structure FrameMapping where
  use : Bool
  pid : ℤ
  pageNo : ℕ
  deriving DecidableEq

/-- The physical memory and the variables of `cpu_mmu.c`: the frame table, the static `curr_vm_pid`
of `soft_tlb_switch` and that of `page_table_switch`, `pid_to_pagetable_base` with `0` for a null
pointer, and the register `satp`. -/
structure Mmu where
  mem : Memory
  table : Fin nframes → FrameMapping
  softTlbPid : ℤ
  pageTablePid : ℤ
  pidToPagetableBase : ℤ → ℕ
  satp : ℕ

/-- Code of the earth layer; a panic is the message of `FATAL`. -/
abbrev MmuM : Type → Type := EStateM String Mmu

/-- The state at boot: static variables are 0, or `-1` where they are initialised to it. -/
def Mmu.boot (mem : Memory) : Mmu where
  mem
  table := fun _ => ⟨false, 0, 0⟩
  softTlbPid := -1
  pageTablePid := -1
  pidToPagetableBase := fun _ => 0
  satp := 0

/-- The address of page `page_no`, that is `page_no << 12` in 64 bits. -/
def pageAddr (pageNo : ℕ) : ℕ := (pageNo <<< 12) % 2 ^ 64

/-- The address of a page. -/
theorem pageAddr_eq {pageNo : ℕ} (h : pageNo < 2 ^ 52) : pageAddr pageNo = pageNo * 4096 := by
  rw [pageAddr, Nat.shiftLeft_eq, Nat.mod_eq_of_lt (by omega)]

/-- A store to an address. -/
def Mmu.store (s : Mmu) (addr : ℕ) (byte : UInt8) : Mmu :=
  { s with mem := Function.update s.mem addr byte }

theorem Mmu.store_apply (s : Mmu) (addr x : ℕ) (byte : UInt8) :
    (s.store addr byte).mem x = Function.update s.mem addr byte x := rfl

/-! ## The paging device (`dev_page.c`) -/

/-- `paging_read`: the address of a frame. -/
def pagingRead (frameId : Fin nframes) : ℕ := frameCacheStart + frameId * pageSize

theorem pagingRead_eq (i : Fin nframes) : pagingRead i = 1074790400 + i.val * 4096 := rfl

/-- Different frames are apart. -/
theorem pagingRead_disjoint {i j : Fin nframes} (h : i ≠ j) :
    pagingRead i + 4096 ≤ pagingRead j ∨ pagingRead j + 4096 ≤ pagingRead i := by
  have hne : i.val ≠ j.val := fun he => h (Fin.ext he)
  rw [pagingRead_eq, pagingRead_eq]
  omega

/-- An address in a frame. -/
def InFrame (frameId : Fin nframes) (addr : ℕ) : Prop :=
  pagingRead frameId ≤ addr ∧ addr < pagingRead frameId + pageSize

/-- The bytes of a frame. -/
theorem inFrame_add (i : Fin nframes) {off : ℕ} (hoff : off < 4096) :
    InFrame i (pagingRead i + off) :=
  ⟨Nat.le_add_right _ _, Nat.add_lt_add_left hoff _⟩

/-- Frames do not overlap. -/
theorem InFrame.unique {i j : Fin nframes} {addr : ℕ} (hi : InFrame i addr)
    (hj : InFrame j addr) : i = j := by
  by_contra hij
  have hd := pagingRead_disjoint hij
  have hi : pagingRead i ≤ addr ∧ addr < pagingRead i + 4096 := hi
  have hj : pagingRead j ≤ addr ∧ addr < pagingRead j + 4096 := hj
  omega

/-- `paging_write`: copy a page to its frame. -/
def pagingWrite (mem : Memory) (frameId : Fin nframes) (pageNo : ℕ) : Memory :=
  mem.memcpy (pagingRead frameId) (pageAddr pageNo) pageSize

/-! ## Frames -/

/-- Change one entry of the frame table. -/
def Mmu.setFrame (s : Mmu) (frameId : Fin nframes) (f : FrameMapping → FrameMapping) : Mmu :=
  { s with table := Function.update s.table frameId (f (s.table frameId)) }

/-- `mmu_alloc`: the first frame not in use and its address. -/
def mmuAlloc : MmuM (Fin nframes × ℕ) := do
  let s ← get
  match (List.finRange nframes).find? fun i => !(s.table i).use with
  | some i =>
    modify fun s => s.setFrame i fun e => { e with use := true }
    pure (i, pagingRead i)
  | none => throw "mmu_alloc: no more available frames"

/-- `mmu_alloc` gives a frame not in use, or stops when there is none. -/
theorem mmuAlloc_spec {s : Mmu} {Q : Fin nframes × ℕ → Mmu → Prop} {E : String → Mmu → Prop}
    (hQ : ∀ i, (s.table i).use = false →
      Q (i, pagingRead i) (s.setFrame i fun e => { e with use := true }))
    (hE : (∀ i, (s.table i).use = true) → E "mmu_alloc: no more available frames" s) :
    wp mmuAlloc Q E s := by
  unfold mmuAlloc
  rw [wp_bind, wp_get]
  cases hfind : (List.finRange nframes).find? fun i => !(s.table i).use with
  | some i =>
    refine hQ i ?_
    simpa using List.find?_some hfind
  | none =>
    refine hE fun i => ?_
    simpa using List.find?_eq_none.1 hfind i (List.mem_finRange i)

/-- `mmu_free`. `paging_invalidate_cache` does nothing. -/
def mmuFree (pid : ℤ) (s : Mmu) : Mmu :=
  { s with
    table := fun i =>
      if (s.table i).use = true ∧ (s.table i).pid = pid then ⟨false, 0, 0⟩ else s.table i }

/-! ## Software TLB -/

/-- `soft_tlb_map`. -/
def softTlbMap (pid : ℤ) (pageNo : ℕ) (frameId : Fin nframes) (s : Mmu) : Mmu :=
  s.setFrame frameId fun e => { e with pid, pageNo }

/-- A frame in use belongs to a process. -/
def Mmu.Owns (s : Mmu) (pid : ℤ) (i : Fin nframes) : Prop :=
  (s.table i).use = true ∧ (s.table i).pid = pid

instance (s : Mmu) (pid : ℤ) : DecidablePred (s.Owns pid) :=
  fun i => inferInstanceAs (Decidable ((s.table i).use = true ∧ (s.table i).pid = pid))

/-- `soft_tlb_switch`: the pages of the process switched out go to its frames, and those of the
process switched in come from its frames. -/
def softTlbSwitch (pid : ℤ) (s : Mmu) : Mmu :=
  if pid = s.softTlbPid then s else
    let mem := (List.finRange nframes).foldl
      (fun mem i => if s.Owns s.softTlbPid i then pagingWrite mem i (s.table i).pageNo else mem)
      s.mem
    let mem := (List.finRange nframes).foldl
      (fun mem i =>
        if s.Owns pid i then mem.memcpy (pageAddr (s.table i).pageNo) (pagingRead i) pageSize
        else mem)
      mem
    { s with mem, softTlbPid := pid }

/-! ## Page tables -/

/-- `PTE_PPN_MASK`. -/
def ptePpnMask : ℕ := 0xFFFFFFFFFFF <<< 10

/-- `PTE_GET_PA`. -/
def pteGetPa (pte : ℕ) : ℕ := ((pte &&& ptePpnMask) <<< 2) % 2 ^ 64

/-- `PA_TO_PTE`. -/
def paToPte (pa : ℕ) : ℕ := (pa >>> 2) &&& ptePpnMask

/-- `VA_GET_VPN`. -/
def vaGetVpn (va level : ℕ) : ℕ := (va >>> (12 + level * 9)) &&& 0x1FF

/-- `PTE_V`. -/
abbrev pteV : ℕ := 1

/-- `OS_XWRV`. -/
abbrev osXwrv : ℕ := 0xF

/-- `USER_XWRV`. -/
abbrev userXwrv : ℕ := 0x1F

/-- `PTE_A`. -/
abbrev pteA : ℕ := 1 <<< 6

/-- `PTE_D`. -/
abbrev pteD : ℕ := 1 <<< 7

/-- `MAKE_SATP`. -/
def makeSatp (pt : ℕ) : ℕ := (8 <<< 60) ||| (pt >>> 12)

/-- Store a page-table entry. -/
def Mmu.setPte (s : Mmu) (addr pte : ℕ) : Mmu := { s with mem := s.mem.writeLE addr 8 pte }

/-- `mmu_alloc` of a page table for `pid`, as `walk_page_tables` does it at each level. -/
def allocPageTable (pid : ℤ) : MmuM ℕ := do
  let (frameId, pt) ← mmuAlloc
  modify fun s => s.setFrame frameId fun e => { e with pid }
  modify fun s => { s with mem := s.mem.memset pt 0 pageSize }
  pure pt

/-- The root page table of `pid`, allocated if there is none. -/
def rootPageTable (pid : ℤ) : MmuM ℕ := do
  let s ← get
  if s.pidToPagetableBase pid = 0 then do
    let root ← allocPageTable pid
    modify fun s =>
      { s with pidToPagetableBase := Function.update s.pidToPagetableBase pid root }
    pure root
  else pure (s.pidToPagetableBase pid)

/-- The page table that the entry at `addr` points to, allocated if the entry is not valid. -/
def nextPageTable (pid : ℤ) (addr : ℕ) : MmuM ℕ := do
  let s ← get
  if s.mem.readLE addr 8 &&& pteV ≠ 0 then pure (pteGetPa (s.mem.readLE addr 8))
  else do
    let pt ← allocPageTable pid
    modify fun s => s.setPte addr (paToPte pt ||| pteV)
    pure pt

/-- `walk_page_tables`: the leaf page table for an address. -/
def walkPageTables (pid : ℤ) (addr : ℕ) : MmuM ℕ :=
  if addr % pageSize ≠ 0 then throw s!"Address {addr} not page aligned"
  else do
    let root ← rootPageTable pid
    let l1Pt ← nextPageTable pid (root + 8 * vaGetVpn addr 2)
    nextPageTable pid (l1Pt + 8 * vaGetVpn addr 1)

/-- The loop of `setup_identity_region` from round `i` on, with `n` rounds to go. -/
def identityEntries (leafPt vpn0 addr flag : ℕ) : ℕ → ℕ → MmuM Unit
  | 0, _ => pure ()
  | n + 1, i =>
    if vpn0 + i > 511 then throw "Leaf page table overrun!!!"
    else do
      modify fun s => s.setPte (leafPt + 8 * (vpn0 + i))
        (paToPte (addr + i * pageSize) ||| pteA ||| pteD ||| flag)
      identityEntries leafPt vpn0 addr flag n (i + 1)

/-- `setup_identity_region`. -/
def setupIdentityRegion (pid : ℤ) (addr npages flag : ℕ) : MmuM Unit := do
  let leafPt ← walkPageTables pid addr
  identityEntries leafPt (vaGetVpn addr 0) addr flag npages 0

/-- `GPID_PROCESS`. -/
abbrev gpidProcess : ℤ := 1

/-- `pagetable_identity_mapping`. -/
def pagetableIdentityMapping (pid : ℤ) : MmuM Unit := do
  setupIdentityRegion pid 0x02500000 1 osXwrv
  setupIdentityRegion pid 0x04020000 3 osXwrv
  if pid = 0 then setupIdentityRegion pid memStart (pageCnt memSize) osXwrv
  else do
    setupIdentityRegion pid earthEntry (pageCnt earthSize) osXwrv
    setupIdentityRegion pid grassEntry (pageCnt grassSize) osXwrv
    setupIdentityRegion pid grassStackBottom (pageCnt grassStackSize) osXwrv
    setupIdentityRegion pid grassInterface 1 osXwrv
    if pid = gpidProcess then
      setupIdentityRegion pid frameCacheStart (pageCnt frameCacheSize) osXwrv
    else pure ()

/-- The identity mapping that `page_table_map` sets up for a process without page tables. -/
def ensureIdentityMapping (pid : ℤ) : MmuM Unit := do
  let s ← get
  if s.pidToPagetableBase pid = 0 then pagetableIdentityMapping pid else pure ()

/-- `page_table_map`. -/
def pageTableMap (pid : ℤ) (pageNo : ℕ) (frameId : Fin nframes) : MmuM Unit :=
  if pid ≥ 32 then throw "page_table_map: pid too large"
  else do
    ensureIdentityMapping pid
    let leafPt ← walkPageTables pid (pageAddr pageNo)
    modify fun s => s.setPte (leafPt + 8 * vaGetVpn (pageAddr pageNo) 0)
      (paToPte (pagingRead frameId) ||| pteA ||| pteD ||| userXwrv)

/-- `page_table_switch`. -/
def pageTableSwitch (pid : ℤ) (s : Mmu) : Mmu :=
  if pid = s.pageTablePid then s
  else { s with satp := makeSatp (s.pidToPagetableBase pid), pageTablePid := pid }

/-! ## The chosen mechanism -/

/-- `earth->translation`. -/
inductive Translation
  | pageTable
  | softTlb
  deriving DecidableEq

/-- `earth->mmu_map`. -/
def mmuMap (translation : Translation) (pid : ℤ) (pageNo : ℕ) (frameId : Fin nframes) : MmuM Unit :=
  match translation with
  | .pageTable => pageTableMap pid pageNo frameId
  | .softTlb => modify (softTlbMap pid pageNo frameId)

/-- `earth->mmu_switch`. -/
def mmuSwitch (translation : Translation) (pid : ℤ) (s : Mmu) : Mmu :=
  match translation with
  | .pageTable => pageTableSwitch pid s
  | .softTlb => softTlbSwitch pid s

/-- `mmu_init` after the choice of a mechanism. -/
def mmuInit (translation : Translation) : MmuM Unit :=
  match translation with
  | .pageTable => do
    pagetableIdentityMapping 0
    modify fun s => { s with satp := makeSatp (s.pidToPagetableBase 0) }
  | .softTlb => pure ()

end Egos.Earth
