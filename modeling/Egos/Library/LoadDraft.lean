import Egos.Common.Reach
import Egos.Library.LoadOps

/-!
# What the loader writes

The operations of `load_app` are followed on a draft of the memory of the process: the pages it has,
and the bytes that have been written to them. The draft says nothing about the frames that the pages
are in, nor about what else happens in the machine meanwhile. At the end, a memory that agrees with
the draft holds the program.
-/

namespace Egos.Library

/-- The page numbers that programs have, from `APPS_ENTRY` to the top of the stack. -/
def AppRange (v : ℕ) : Prop := 0x40027 ≤ v ∧ v ≤ 0x400FC

instance (v : ℕ) : Decidable (AppRange v) := inferInstanceAs (Decidable (_ ∧ _))

/-- The pages of a process, the last one first, and the bytes that have been written to them. -/
structure Draft where
  pages : List ℕ
  known : ℕ → Option UInt8

namespace Draft

/-- A process without pages. -/
def empty : Draft := ⟨[], fun _ => none⟩

/-- A new page may hold anything. -/
def map (d : Draft) (v : ℕ) : Draft :=
  ⟨v :: d.pages, fun a => if a / 4096 = v then none else d.known a⟩

/-- Some bytes are written. -/
def write (d : Draft) (addr n : ℕ) (bytes : ℕ → UInt8) : Draft :=
  { d with known := fun a =>
      if addr ≤ a ∧ a < addr + n then some (bytes (a - addr)) else d.known a }

/-- An operation. A page is mapped once, and what is written to it fits. -/
def step (d : Draft) : LoadOp → Option Draft
  | .map v => if AppRange v ∧ v ∉ d.pages then some (d.map v) else none
  | .write off n bytes =>
    if off + n ≤ 4096 then d.pages.head?.map fun v => d.write (v * 4096 + off) n bytes else none

variable {d : Draft} {v off addr n : ℕ} {bytes : ℕ → UInt8} {ops : List LoadOp} {Q : Draft → Prop}

/-- An operation that maps a page, before the others. -/
theorem yields_map (hv : AppRange v) (hnew : v ∉ d.pages) (h : Yields step (d.map v) ops Q) :
    Yields step d (.map v :: ops) Q := .cons (if_pos ⟨hv, hnew⟩) h

/-- An operation that writes to the last page, before the others. -/
theorem yields_write (hv : d.pages.head? = some v) (hn : off + n ≤ 4096)
    (h : Yields step (d.write (v * 4096 + off) n bytes) ops Q) :
    Yields step d (.write off n bytes :: ops) Q := by
  refine .cons ?_ h
  rw [step, if_pos hn, hv]
  rfl

/-- Nothing is known of a page that has just been mapped. -/
theorem map_known_self {a : ℕ} (ha : a / 4096 = v) : (d.map v).known a = none := if_pos ha

/-- Other pages are as they were. -/
theorem map_known {a : ℕ} (ha : a / 4096 ≠ v) : (d.map v).known a = d.known a := if_neg ha

/-- Other bytes are as they were. -/
theorem write_known {a : ℕ} (ha : ¬ (addr ≤ a ∧ a < addr + n)) :
    (d.write addr n bytes).known a = d.known a := if_neg ha

/-- The bytes that have been written are known. -/
theorem write_known_self {a j : ℕ} (ha : a = addr + j) (hj : j < n) :
    (d.write addr n bytes).known a = some (bytes j) := by
  subst ha
  refine (if_pos (by omega)).trans ?_
  rw [Nat.add_sub_cancel_left]

/-- Writing nothing changes nothing. -/
theorem write_zero_known (a : ℕ) : (d.write addr 0 bytes).known a = d.known a :=
  write_known (by omega)

/-- Bytes are written one by one. -/
theorem write_succ_known (a : ℕ) : (d.write addr (n + 1) bytes).known a
    = if a = addr + n then some (bytes n) else (d.write addr n bytes).known a := by
  split
  · exact write_known_self ‹_› (Nat.lt_succ_self n)
  · by_cases hin : addr ≤ a ∧ a < addr + n
    · have ha : a = addr + (a - addr) := by omega
      rw [write_known_self ha (by omega), write_known_self ha (by omega)]
    · rw [write_known (by omega), write_known hin]

end Draft

/-- The first `m` pages of a program, the last one first. -/
def pagesTo : ℕ → List ℕ
  | 0 => []
  | m + 1 => (0x40027 + m) :: pagesTo m

/-- The first `m` pages have the page numbers from that of `APPS_ENTRY` on. -/
theorem mem_pagesTo {m w : ℕ} : w ∈ pagesTo m ↔ 0x40027 ≤ w ∧ w < 0x40027 + m := by
  induction m with
  | zero => simp [pagesTo]
  | succ m ih =>
    rw [pagesTo, List.mem_cons, ih]
    omega

/-- The last page that was mapped. -/
theorem head?_pagesTo {m : ℕ} (hm : 0 < m) : (pagesTo m).head? = some (0x40027 + (m - 1)) := by
  cases m with
  | zero => exact absurd hm (lt_irrefl 0)
  | succ m => rfl

/-- The pages of the segment, up to byte `k` of them. -/
structure CodeDraft (image : ℕ → UInt8) (m k : ℕ) (d : Draft) : Prop where
  pages : d.pages = pagesTo m
  known : ∀ j, j < k → d.known (appsEntry + j) = some (image j)

/-- `APPS_ENTRY` is where its page starts. -/
theorem appsEntry_eq : appsEntry = 0x40027 * 4096 := rfl

section

variable {reader : Reader} {ph : ProgramHeader} {image : ℕ → UInt8} {m k b argc : ℕ} {d : Draft}

/-- The next page. -/
theorem CodeDraft.map (h : CodeDraft image m (4096 * m) d) :
    CodeDraft image (m + 1) (4096 * m) (d.map (0x40027 + m)) := by
  refine ⟨congrArg ((0x40027 + m) :: ·) h.pages, fun j hj => ?_⟩
  rw [Draft.map_known, h.known j hj]
  rw [appsEntry_eq]
  omega

/-- Bytes that follow those that are there. -/
theorem CodeDraft.write {addr n : ℕ} {bytes : ℕ → UInt8} (h : CodeDraft image m k d)
    (haddr : addr = appsEntry + k) (hbytes : ∀ j, j < n → bytes j = image (k + j)) :
    CodeDraft image m (k + n) (d.write addr n bytes) := by
  refine ⟨h.pages, fun j hj => ?_⟩
  by_cases hjk : j < k
  · rw [Draft.write_known (by omega), h.known j hjk]
  · rw [Draft.write_known_self (j := j - k) (by omega) (by omega), hbytes _ (by omega),
      Nat.add_sub_cancel' (by omega)]

/-- One round of the loop over the blocks of the segment. -/
theorem CodeDraft.block (h : CodeDraft (segmentByte reader ph) (pagesFor b) (512 * b) d)
    (hb : pagesFor (b + 1) ≤ 212) :
    Yields Draft.step d (blockOps reader (ph.pOffset / 512) b)
      (CodeDraft (segmentByte reader ph) (pagesFor (b + 1)) (512 * (b + 1))) := by
  -- the page of the block is the last one of `d'`
  have hwrite : ∀ {d' : Draft}, CodeDraft (segmentByte reader ph) (pagesFor (b + 1)) (512 * b) d' →
      Yields Draft.step d' [.write (512 * b % 4096) 512
          (reader (((ph.pOffset / 512 + b : ℕ) : ℤ).bmod (2 ^ 32)))]
        (CodeDraft (segmentByte reader ph) (pagesFor (b + 1)) (512 * (b + 1))) := by
    intro d' h'
    have hpos : 0 < pagesFor (b + 1) := by
      unfold pagesFor
      omega
    apply Draft.yields_write (h'.pages ▸ head?_pagesTo hpos) (by omega)
    apply Yields.nil
    apply h'.write
    · rw [appsEntry_eq]
      unfold pagesFor
      omega
    · intro j hj
      have hdiv : (512 * b + j) / 512 = b := by omega
      have hmod : (512 * b + j) % 512 = j := by omega
      rw [segmentByte, hdiv, hmod]
  unfold blockOps
  split
  · rename_i hfull
    have hpages : pagesFor (b + 1) = pagesFor b + 1 := by
      unfold pagesFor
      omega
    have hbytes : 512 * b = 4096 * pagesFor b := by
      unfold pagesFor
      omega
    apply Draft.yields_map ⟨by omega, by omega⟩
    · rw [h.pages, mem_pagesTo]
      omega
    · apply hwrite
      rw [hbytes] at h ⊢
      rw [hpages]
      exact h.map
  · have hpages : pagesFor (b + 1) = pagesFor b := by
      unfold pagesFor
      omega
    rw [List.nil_append]
    apply hwrite
    rw [hpages]
    exact h

/-- The loop over the blocks of the segment, by induction on the blocks left. -/
theorem CodeDraft.blocks {n : ℕ} (h : CodeDraft (segmentByte reader ph) (pagesFor b) (512 * b) d)
    (hn : pagesFor (b + n) ≤ 212) :
    Yields Draft.step d ((List.range' b n).flatMap (blockOps reader (ph.pOffset / 512)))
      (CodeDraft (segmentByte reader ph) (pagesFor (b + n)) (512 * (b + n))) := by
  induction n generalizing b d with
  | zero => exact .nil h
  | succ n ih =>
    have hle : pagesFor (b + 1) ≤ pagesFor (b + (n + 1)) := by
      unfold pagesFor
      omega
    rw [List.range'_succ, List.flatMap_cons]
    refine (h.block (hle.trans hn)).append fun d' h' => ?_
    have hrest := ih h' (by rwa [Nat.add_assoc, Nat.add_comm 1 n])
    rwa [Nat.add_assoc, Nat.add_comm 1 n] at hrest

/-- The segment, with zeros behind it. -/
def padded (image : ℕ → UInt8) (size k : ℕ) : UInt8 := if k < size then image k else 0

/-- The rest of the last page is cleared. -/
theorem CodeDraft.clear {size : ℕ}
    (h : CodeDraft image (pagesFor (blocksFor size)) (512 * blocksFor size) d) :
    Yields Draft.step d (clearOps size) (CodeDraft (padded image size) (pagesFor (blocksFor size))
      (4096 * pagesFor (blocksFor size))) := by
  have hsize : CodeDraft (padded image size) (pagesFor (blocksFor size)) size d := by
    refine ⟨h.pages, fun j hj => ?_⟩
    rw [padded, if_pos hj]
    refine h.known j (hj.trans_le ?_)
    unfold blocksFor
    omega
  unfold clearOps
  split
  · rename_i hpart
    have hpages : pagesFor (blocksFor size) = size / 4096 + 1 := by
      unfold pagesFor blocksFor
      omega
    have hend : 4096 * pagesFor (blocksFor size) = size + (4096 - size % 4096) := by omega
    apply Draft.yields_write (h.pages ▸ head?_pagesTo (by omega)) (by omega)
    apply Yields.nil
    rw [hend]
    apply hsize.write
    · rw [appsEntry_eq]
      omega
    · intro j _
      rw [padded, if_neg (by omega)]
  · rename_i hfull
    have hend : 4096 * pagesFor (blocksFor size) = size := by
      unfold pagesFor blocksFor
      omega
    apply Yields.nil
    rw [hend]
    exact hsize

/-- The loop over the pages of zeros, by induction on the pages left. -/
theorem CodeDraft.zeros {size n : ℕ} (h : CodeDraft (padded image size) m (4096 * m) d)
    (hsize : size ≤ 4096 * m) (hn : m + n ≤ 212) :
    Yields Draft.step d ((List.range' (0x40027 + m) n).flatMap zeroOps)
      (CodeDraft (padded image size) (m + n) (4096 * (m + n))) := by
  induction n generalizing m d with
  | zero => exact .nil h
  | succ n ih =>
    rw [List.range'_succ, List.flatMap_cons]
    have hpage : Yields Draft.step d (zeroOps (0x40027 + m))
        (CodeDraft (padded image size) (m + 1) (4096 * (m + 1))) := by
      apply Draft.yields_map ⟨by omega, by omega⟩
      · rw [h.pages, mem_pagesTo]
        omega
      · apply Draft.yields_write (v := 0x40027 + m) rfl (by omega)
        apply Yields.nil
        apply h.map.write
        · rw [appsEntry_eq]
          omega
        · intro j _
          rw [padded, if_neg (by omega)]
    refine hpage.append fun d' h' => ?_
    have hrest := ih h' (by omega) (by omega)
    rwa [Nat.add_assoc m, Nat.add_comm 1 n] at hrest

/-! ## The arguments -/

/-- `APPS_ARG` is where its page starts. -/
theorem appsArg_eq : appsArg = 0x400FB * 4096 := rfl

/-- The segment, `argc`, the arguments and the first `i` pointers. -/
structure ArgDraft (image : ℕ → UInt8) (m argc : ℕ) (argv : Option (ℕ → UInt8)) (i : ℕ)
    (d : Draft) : Prop where
  pages : d.pages = 0x400FB :: pagesTo m
  code : ∀ j, j < 4096 * m → d.known (appsEntry + j) = some (image j)
  count : ∀ j, j < 4 → d.known (appsArg + j) = some (leBytes argc j)
  arguments : ∀ args, argv = some args → ∀ j, j < argc * 32 →
    d.known (appsArg + 132 + j) = some (args j)
  pointers : ∀ k, k < i → ∀ j, j < 8 →
    d.known (appsArg + 4 + 8 * k + j) = some (leBytes (argAddr k) j)

/-- Writing to the argument page leaves the segment alone. -/
theorem known_code {off n j : ℕ} {bytes : ℕ → UInt8} (hm : m ≤ 212) (hj : j < 4096 * m) :
    (d.write (0x400FB * 4096 + off) n bytes).known (appsEntry + j) = d.known (appsEntry + j) := by
  apply Draft.write_known
  rw [appsEntry_eq]
  omega

/-- The argument page is mapped and gets `argc` and the arguments. -/
theorem CodeDraft.args (h : CodeDraft image m (4096 * m) d) (hm : m ≤ 212)
    (argv : Option (ℕ → UInt8)) (hargc : argc ≤ 16) :
    Yields Draft.step d ([.map 0x400FB, .write 0 4 (leBytes argc)] ++
      argv.elim [] fun args => [.write 132 (argc * 32) args]) (ArgDraft image m argc argv 0) := by
  have hcode : ∀ j, j < 4096 * m →
      ((d.map 0x400FB).write (0x400FB * 4096 + 0) 4 (leBytes argc)).known (appsEntry + j)
        = some (image j) := fun j hj => by
    rw [known_code hm hj, Draft.map_known, h.known j hj]
    rw [appsEntry_eq]
    omega
  have hcount : ∀ j, j < 4 → ((d.map 0x400FB).write (0x400FB * 4096 + 0) 4 (leBytes argc)).known
      (appsArg + j) = some (leBytes argc j) := fun j hj =>
    Draft.write_known_self (by rw [appsArg_eq]) hj
  apply Draft.yields_map ⟨by omega, by omega⟩
  · rw [h.pages, mem_pagesTo]
    omega
  apply Draft.yields_write (v := 0x400FB) rfl (by omega)
  cases argv with
  | none =>
    apply Yields.nil
    refine ⟨congrArg (0x400FB :: ·) h.pages, hcode, hcount, fun _ hargs => ?_, fun k hk => ?_⟩
    · cases hargs
    · exact absurd hk (Nat.not_lt_zero k)
  | some args =>
    apply Draft.yields_write (v := 0x400FB) rfl (by omega)
    apply Yields.nil
    refine ⟨congrArg (0x400FB :: ·) h.pages, fun j hj => ?_, fun j hj => ?_, ?_, fun k hk => ?_⟩
    · rw [known_code hm hj, hcode j hj]
    · rw [Draft.write_known, hcount j hj]
      rw [appsArg_eq]
      omega
    · rintro _ ⟨⟩ j hj
      exact Draft.write_known_self (by rw [appsArg_eq]) hj
    · exact absurd hk (Nat.not_lt_zero k)

/-- One round of the loop over the pointers to the arguments. -/
theorem ArgDraft.pointer {argv : Option (ℕ → UInt8)} {i : ℕ} (h : ArgDraft image m argc argv i d)
    (hm : m ≤ 212) (hi : i < 16) :
    ArgDraft image m argc argv (i + 1)
      (d.write (0x400FB * 4096 + (4 + 8 * i)) 8 (leBytes (argAddr i))) := by
  refine ⟨h.pages, fun j hj => ?_, fun j hj => ?_, fun args hargs j hj => ?_, fun k hk j hj => ?_⟩
  · rw [known_code hm hj, h.code j hj]
  · rw [Draft.write_known, h.count j hj]
    rw [appsArg_eq]
    omega
  · rw [Draft.write_known, h.arguments args hargs j hj]
    rw [appsArg_eq]
    omega
  · by_cases hki : k = i
    · subst hki
      exact Draft.write_known_self (by rw [appsArg_eq]; omega) hj
    · rw [Draft.write_known, h.pointers k (by omega) j hj]
      rw [appsArg_eq]
      omega

/-- The loop over the pointers, by induction on the pointers left. -/
theorem ArgDraft.argv {argv : Option (ℕ → UInt8)} {n i : ℕ} (h : ArgDraft image m argc argv i d)
    (hm : m ≤ 212) (hn : i + n ≤ 16) :
    Yields Draft.step d ((List.range' i n).map pointerOp) (ArgDraft image m argc argv (i + n)) := by
  induction n generalizing i d with
  | zero => exact .nil h
  | succ n ih =>
    rw [List.range'_succ, List.map_cons]
    apply Draft.yields_write (v := 0x400FB) (by rw [h.pages]; rfl) (by omega)
    have hrest := ih (h.pointer hm (by omega)) (by omega)
    rwa [Nat.add_assoc, Nat.add_comm 1 n] at hrest

/-- A memory with a program: its segment, zeros, `argc`, and pointers to its arguments. -/
structure HoldsProgram (image : ℕ → UInt8) (ph : ProgramHeader) (argc : ℕ)
    (argv : Option (ℕ → UInt8)) (mem : Memory) : Prop where
  segment : ∀ k, k < ph.pFilesz → mem (appsEntry + k) = image k
  zeros : ∀ k, ph.pFilesz ≤ k → k < appsSize → mem (appsEntry + k) = 0
  count : mem.readLE appsArg 4 = argc
  pointers : ∀ i, i < argc → mem.readLE (appsArg + 4 + 8 * i) 8 = argAddr i
  arguments : ∀ args, argv = some args → ∀ i, i < argc → ∀ j, j < cmdArgLen →
    mem (argAddr i + j) = args (cmdArgLen * i + j)

/-- A program is below the last three quarters of its argument page. -/
theorem HoldsProgram.congr {argv : Option (ℕ → UInt8)} {mem mem' : Memory}
    (h : HoldsProgram image ph argc argv mem)
    (hsize : ph.pFilesz ≤ appsArg - appsEntry) (hargc : argc ≤ cmdNargs)
    (hsame : ∀ a, appsEntry ≤ a → a < appsArg + 1024 → mem' a = mem a) :
    HoldsProgram image ph argc argv mem' := by
  have hsize : ph.pFilesz ≤ 868352 := hsize.trans (by decide)
  have hargc : argc ≤ 16 := hargc
  have hcode : ∀ k, k < 868352 → mem' (appsEntry + k) = mem (appsEntry + k) := fun k hk =>
    hsame _ (Nat.le_add_right _ _) (by change 1073901568 + k < 1074769920 + 1024; omega)
  have harg : ∀ o, o < 1024 → mem' (appsArg + o) = mem (appsArg + o) := fun o ho =>
    hsame _ (by change 1073901568 ≤ 1074769920 + o; omega) (Nat.add_lt_add_left ho _)
  have hword : ∀ o n, o + n ≤ 1024 →
      mem'.readLE (appsArg + o) n = mem.readLE (appsArg + o) n := fun o n ho => by
    apply Memory.readLE_congr
    intro a ha ha'
    have := harg (a - appsArg) (by omega)
    rwa [Nat.add_sub_cancel' (by omega)] at this
  refine ⟨fun k hk => ?_, fun k hk hk' => ?_, ?_, fun i hi => ?_, fun args hargs i hi j hj => ?_⟩
  · rw [hcode k (by omega)]
    exact h.segment k hk
  · have hk'' : k < 16384 := hk'
    rw [hcode k (by omega)]
    exact h.zeros k hk hk'
  · exact (hword 0 4 (by omega)).trans h.count
  · have hptr := h.pointers i hi
    rw [Nat.add_assoc] at hptr ⊢
    rw [hword _ _ (by omega)]
    exact hptr
  · have hj' : j < 32 := hj
    have haddr : argAddr i + j = appsArg + (132 + 32 * i + j) := by
      rw [argAddr]
      omega
    have hbyte := h.arguments args hargs i hi j hj
    rw [haddr] at hbyte ⊢
    rw [harg _ (by omega)]
    exact hbyte

/-- Only the bytes of the segment count. -/
theorem HoldsProgram.image_congr {image' : ℕ → UInt8} {argv : Option (ℕ → UInt8)} {mem : Memory}
    (h : HoldsProgram image ph argc argv mem)
    (hsame : ∀ k, k < ph.pFilesz → image k = image' k) : HoldsProgram image' ph argc argv mem :=
  ⟨fun k hk => (h.segment k hk).trans (hsame k hk), h.zeros, h.count, h.pointers, h.arguments⟩

/-- A memory agrees with a draft below the system-call area. -/
def Draft.Agrees (d : Draft) (mem : Memory) : Prop :=
  ∀ a b, a < appsArg + 1024 → d.known a = some b → mem a = b

/-- A memory that agrees with the draft of the whole load holds the program. -/
theorem ArgDraft.holdsProgram {argv : Option (ℕ → UInt8)} {mem : Memory}
    (h : ArgDraft (padded image ph.pFilesz) m argc argv argc d) (hfour : 4 ≤ m)
    (hfile : ph.pFilesz ≤ 4096 * m) (hm : m ≤ 212) (hargc : argc ≤ 16) (hmem : d.Agrees mem) :
    HoldsProgram image ph argc argv mem := by
  have hcode : ∀ j, j < 4096 * m → mem (appsEntry + j) = padded image ph.pFilesz j := by
    intro j hj
    refine hmem _ _ ?_ (h.code j hj)
    rw [appsEntry_eq, appsArg_eq]
    omega
  refine ⟨fun k hk => ?_, fun k hk hk' => ?_, ?_, fun i hi => ?_, fun args hargs i hi j hj => ?_⟩
  · rw [hcode k (by omega), padded, if_pos hk]
  · have hk' : k < 16384 := hk'
    rw [hcode k (by omega), padded, if_neg (by omega)]
  · rw [Memory.readLE_digits (w := argc) fun j hj => hmem _ _ (by omega) (h.count j hj)]
    exact Nat.mod_eq_of_lt (by omega)
  · rw [Memory.readLE_digits (w := argAddr i) fun j hj =>
      hmem _ _ (by omega) (h.pointers i hi j hj)]
    apply Nat.mod_eq_of_lt
    change 1074769920 + 132 + 32 * i < 18446744073709551616
    omega
  · have hj : j < 32 := hj
    have haddr : argAddr i + j = appsArg + 132 + (32 * i + j) := by
      rw [argAddr]
      omega
    rw [haddr]
    exact hmem _ _ (by omega) (h.arguments args hargs _ (by omega))

/-- The operations of `load_app` give the pages of the program, and a memory that agrees with what
they write holds the program. -/
theorem yields_appOps (reader : Reader) (argv : Option (ℕ → UInt8))
    (hsize : ph.pFilesz ≤ appsArg - appsEntry) (hargc : argc ≤ 16) :
    Yields Draft.step Draft.empty (appOps reader argc argv ph) fun d =>
      d.pages = 0x400FC :: 0x400FB :: pagesTo (codePages ph) ∧
        ∀ mem, d.Agrees mem → HoldsProgram (segmentByte reader ph) ph argc argv mem := by
  have hsize : ph.pFilesz ≤ 868352 := hsize.trans (by decide)
  have hpages : pagesFor (blocksFor ph.pFilesz) ≤ 212 := by
    unfold pagesFor blocksFor
    omega
  have hfile : ph.pFilesz ≤ 4096 * pagesFor (blocksFor ph.pFilesz) := by
    unfold pagesFor blocksFor
    omega
  have hcode : pagesFor (blocksFor ph.pFilesz) + (4 - pagesFor (blocksFor ph.pFilesz))
      = codePages ph := by
    rw [codePages]
    omega
  have hm : codePages ph ≤ 212 := by
    rw [← hcode]
    omega
  have hempty : CodeDraft (segmentByte reader ph) (pagesFor 0) (512 * 0) Draft.empty :=
    ⟨rfl, fun j hj => absurd hj (Nat.not_lt_zero j)⟩
  have hblocks := hempty.blocks (n := blocksFor ph.pFilesz) (by rwa [Nat.zero_add])
  rw [Nat.zero_add] at hblocks
  have hsegment := (hblocks.append fun d h => h.clear).append fun d h =>
    h.zeros (n := 4 - pagesFor (blocksFor ph.pFilesz)) hfile (by omega)
  rw [hcode] at hsegment
  have hargs : ∀ d, CodeDraft (padded (segmentByte reader ph) ph.pFilesz) (codePages ph)
      (4096 * codePages ph) d → Yields Draft.step d (argOps argc argv)
        (ArgDraft (padded (segmentByte reader ph) ph.pFilesz) (codePages ph) argc argv argc) := by
    intro d h
    have hrun := (h.args hm argv hargc).append fun d' h' => h'.argv (n := argc) hm (by omega)
    rwa [Nat.zero_add] at hrun
  refine (hsegment.append hargs).append fun d h => ?_
  apply Draft.yields_map ⟨by omega, by omega⟩
  · rw [h.pages, List.mem_cons, mem_pagesTo]
    omega
  · apply Yields.nil
    refine ⟨congrArg (0x400FC :: ·) h.pages, fun mem hmem => ?_⟩
    apply h.holdsProgram (by omega) (by omega) hm hargc
    -- nothing below the system-call area is on the page of the stack
    intro a b ha hb
    refine hmem a b ha ?_
    rw [Draft.map_known, hb]
    rw [appsArg_eq] at ha
    omega

end

end Egos.Library
