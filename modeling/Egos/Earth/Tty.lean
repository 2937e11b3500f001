import Egos.Common.CString

/-!
# Reading a line from the tty

Translation of `tty_read` in `earth/dev_tty.c`, without what it prints, and the line editor that it
implements: `editLine` keeps the line as a list and never looks at the buffer.
-/

namespace Egos.Earth

/-- What a call of `tty_read` leaves; `keys` are the bytes that `uart0_getc` has still to return. -/
structure TtyReturn where
  value : ℕ
  buf : ℕ → UInt8
  isReading : Bool
  keys : List UInt8

/-- The loop of `tty_read` from `i` on, or nothing while it waits for a key. -/
def ttyLoop (len : ℕ) (keys : List UInt8) (i : ℕ) (buf : ℕ → UInt8) : Option TtyReturn :=
  if i < len - 1 then
    match keys with
    | [] => none
    | c :: keys =>
      let buf := Function.update buf i c
      if c = 0x03 then
        some ⟨0, Function.update (Function.update buf 0 0) i 0, false, keys⟩
      else if c = 0x0d then some ⟨i, Function.update buf i 0, false, keys⟩
      -- `i` becomes `i - 2`, or `i - 1` if it is zero, and then the loop adds one
      else if c = 0x7f then ttyLoop len keys (i - 1) buf
      else ttyLoop len keys (i + 1) buf
  else some ⟨len - 1, Function.update buf (len - 1) 0, false, keys⟩

/-- `tty_read` -/
def ttyRead (len : ℕ) (keys : List UInt8) (buf : ℕ → UInt8) : Option TtyReturn :=
  ttyLoop len keys 0 buf

/-- The bytes that `tty_read` stores from `i` on, each with its place in the buffer, and while it
waits for a key those that it has stored so far. -/
def ttyStores (len : ℕ) (keys : List UInt8) (i : ℕ) : List (ℕ × UInt8) :=
  if i < len - 1 then
    match keys with
    | [] => []
    | c :: keys =>
      -- every byte is stored before the `switch` looks at it
      (i, c) ::
        -- the case of `Ctrl+C` clears the start of the buffer and falls through to that of `Enter`
        if c = 0x03 then [(0, 0), (i, 0)]
        else if c = 0x0d then [(i, 0)]
        else if c = 0x7f then ttyStores len keys (i - 1)
        else ttyStores len keys (i + 1)
  else [(len - 1, 0)]

/-- A buffer after stores. -/
def storeAll (stores : List (ℕ × UInt8)) (buf : ℕ → UInt8) : ℕ → UInt8 :=
  stores.foldl (fun buf store => Function.update buf store.1 store.2) buf

/-- Edit a line of which `kept` has been typed: the line, and the keys that come after it. `Ctrl+C`
gives an empty line, and a line with `room` bytes is at its end. -/
def editLine (room : ℕ) (keys kept : List UInt8) : Option (List UInt8 × List UInt8) :=
  if kept.length < room then
    match keys with
    | [] => none
    | c :: keys =>
      if c = 0x03 then some ([], keys)
      else if c = 0x0d then some (kept, keys)
      else if c = 0x7f then editLine room keys kept.dropLast
      else editLine room keys (kept ++ [c])
  else some (kept, keys)

/-- What `tty_read` returns for a line, over the buffer `buf` of `len` bytes. -/
structure TtyReturn.Reads (ret : TtyReturn) (len : ℕ) (buf : ℕ → UInt8) (line : List UInt8) :
    Prop where
  value_eq : ret.value = line.length
  length_lt : line.length < len
  holds : Holds ret.buf line
  null : ret.buf line.length = 0
  not_reading : ret.isReading = false
  outside : ∀ j ≥ len, ret.buf j = buf j

section editing

variable {len : ℕ} {buf buf₀ : ℕ → UInt8} {kept : List UInt8}

/-- The line ends where the loop is. -/
theorem reads_end (hbuf : Holds buf kept) (hkept : kept.length < len)
    (hout : ∀ j ≥ len, buf j = buf₀ j) (keys : List UInt8) :
    TtyReturn.Reads ⟨kept.length, Function.update buf kept.length 0, false, keys⟩ len buf₀
      kept where
  value_eq := rfl
  length_lt := hkept
  holds := hbuf.update_of_le (Nat.le_refl _) 0
  null := Function.update_self ..
  not_reading := rfl
  outside j hj := (Function.update_of_ne (by omega) ..).trans (hout j hj)

/-- Ctrl+C empties the line. -/
theorem reads_ctrlC {i : ℕ} (hi : i < len) (hout : ∀ j ≥ len, buf j = buf₀ j)
    (keys : List UInt8) :
    TtyReturn.Reads ⟨0, Function.update (Function.update buf 0 0) i 0, false, keys⟩ len buf₀
      [] where
  value_eq := rfl
  length_lt := Nat.zero_lt_of_lt hi
  holds _ h := absurd h (Nat.not_lt_zero _)
  null := by
    change Function.update (Function.update buf 0 0) i 0 0 = 0
    rw [Function.update_apply, Function.update_self, ite_self]
  not_reading := rfl
  outside j hj := by
    change Function.update (Function.update buf 0 0) i 0 j = buf₀ j
    rw [Function.update_of_ne (by omega), Function.update_of_ne (by omega), hout j hj]

/-- The loop does what the line editor does, when the buffer holds what has been typed. -/
theorem ttyLoop_editLine (keys : List UInt8) (hbuf : Holds buf kept)
    (hkept : kept.length < len) (hout : ∀ j ≥ len, buf j = buf₀ j) :
    Option.Rel (fun edited ret => ret.keys = edited.2 ∧ ret.Reads len buf₀ edited.1)
      (editLine (len - 1) keys kept) (ttyLoop len keys kept.length buf) := by
  have hfull {n : ℕ} (hn : n < len) (hroom : ¬n < len - 1) : len - 1 = n := by omega
  induction keys generalizing kept buf with
  | nil =>
    rw [editLine, ttyLoop]
    by_cases hroom : kept.length < len - 1
    · rw [if_pos hroom, if_pos hroom]
      exact .none
    · rw [if_neg hroom, if_neg hroom, hfull hkept hroom]
      exact .some ⟨rfl, reads_end hbuf hkept hout []⟩
  | cons c keys ih =>
    rw [editLine, ttyLoop]
    by_cases hroom : kept.length < len - 1
    · have hstored := hbuf.update_of_le (Nat.le_refl _) c
      have hout' : ∀ j ≥ len, Function.update buf kept.length c j = buf₀ j := by
        intro j hj
        rw [Function.update_of_ne (by omega), hout j hj]
      simp only [if_pos hroom]
      by_cases hctrlC : c = 0x03
      · rw [if_pos hctrlC, if_pos hctrlC]
        exact .some ⟨rfl, reads_ctrlC hkept hout' keys⟩
      rw [if_neg hctrlC, if_neg hctrlC]
      by_cases henter : c = 0x0d
      · rw [if_pos henter, if_pos henter]
        exact .some ⟨rfl, reads_end hstored hkept hout' keys⟩
      rw [if_neg henter, if_neg henter]
      by_cases hback : c = 0x7f
      · have hnext := ih hstored.dropLast (by rw [List.length_dropLast]; omega) hout'
        rw [List.length_dropLast] at hnext
        rwa [if_pos hback, if_pos hback]
      · have hlen : (kept ++ [c]).length < len := by
          rw [List.length_append, List.length_singleton]
          omega
        have hnext := ih (hbuf.append_byte c) hlen hout'
        rw [List.length_append, List.length_singleton] at hnext
        rwa [if_neg hback, if_neg hback]
    · rw [if_neg hroom, if_neg hroom, hfull hkept hroom]
      exact .some ⟨rfl, reads_end hbuf hkept hout _⟩

end editing

/-- `tty_read` reads the next line of the line editor. -/
theorem ttyRead_editLine {len : ℕ} (hlen : 0 < len) (keys : List UInt8) (buf : ℕ → UInt8) :
    Option.Rel (fun edited ret => ret.keys = edited.2 ∧ ret.Reads len buf edited.1)
      (editLine (len - 1) keys []) (ttyRead len keys buf) :=
  ttyLoop_editLine keys (fun _ h => absurd h (Nat.not_lt_zero _)) hlen fun _ _ => rfl

/-! ## The stores -/

/-- The stores are those of the loop. -/
theorem ttyLoop_stores {len : ℕ} (keys : List UInt8) (i : ℕ) (buf : ℕ → UInt8) :
    ∀ ret ∈ ttyLoop len keys i buf, ret.buf = storeAll (ttyStores len keys i) buf := by
  induction keys generalizing i buf with
  | nil =>
    intro ret hret
    rw [ttyLoop] at hret
    rw [ttyStores]
    split_ifs at hret ⊢ with hroom
    · cases hret
    · cases hret
      rfl
  | cons c keys ih =>
    intro ret hret
    rw [ttyLoop] at hret
    rw [ttyStores]
    by_cases hroom : i < len - 1
    · simp only [if_pos hroom] at hret ⊢
      split_ifs at hret ⊢ with hctrlC henter hback
      · cases hret
        rfl
      · cases hret
        rfl
      · exact ih (i - 1) _ ret hret
      · exact ih (i + 1) _ ret hret
    · rw [if_neg hroom] at hret ⊢
      cases hret
      rfl

/-- Every byte is stored within the buffer: the loop keeps `i` below `len`. -/
theorem ttyStores_lt {len : ℕ} (keys : List UInt8) (i : ℕ) (hi : i < len) :
    ∀ store ∈ ttyStores len keys i, store.1 < len := by
  have hlen : 0 < len := Nat.zero_lt_of_lt hi
  have hlast : ∀ store ∈ [(len - 1, (0 : UInt8))], store.1 < len := by
    intro store hstore
    rw [List.mem_singleton.1 hstore]
    exact Nat.sub_one_lt_of_lt hlen
  induction keys generalizing i with
  | nil =>
    rw [ttyStores]
    split_ifs with hroom
    · exact fun _ h => absurd h List.not_mem_nil
    · exact hlast
  | cons c keys ih =>
    rw [ttyStores]
    by_cases hroom : i < len - 1
    · simp only [if_pos hroom]
      refine List.forall_mem_cons.2 ⟨hi, ?_⟩
      split_ifs with hctrlC henter hback
      · exact List.forall_mem_cons.2 ⟨hlen, List.forall_mem_singleton.2 hi⟩
      · exact List.forall_mem_singleton.2 hi
      · exact ih (i - 1) (by omega)
      · exact ih (i + 1) (by omega)
    · rw [if_neg hroom]
      exact hlast

/-- `tty_read` stores only within its buffer, also while it waits for a key, and returns when the
line editor has a line, with that line in the buffer. A line that `Ctrl+C` ends is empty. -/
theorem ttyRead_line {len : ℕ} (hlen : 2 ≤ len) (keys : List UInt8) (buf : ℕ → UInt8) :
    (∀ store ∈ ttyStores len keys 0, store.1 < len) ∧
      Option.Rel (fun edited ret => ret.keys = edited.2 ∧ ret.Reads len buf edited.1 ∧
          ret.buf = storeAll (ttyStores len keys 0) buf)
        (editLine (len - 1) keys []) (ttyRead len keys buf) := by
  have hpos : 0 < len := by omega
  have hstores : ∀ ret ∈ ttyLoop len keys 0 buf, _ := ttyLoop_stores keys 0 buf
  have hread := ttyRead_editLine hpos keys buf
  refine ⟨ttyStores_lt keys 0 hpos, ?_⟩
  rw [ttyRead] at hread ⊢
  generalize ttyLoop len keys 0 buf = returned at hstores hread ⊢
  generalize editLine (len - 1) keys [] = edited at hread ⊢
  cases hread with
  | none => exact .none
  | some h => exact .some ⟨h.1, h.2, hstores _ rfl⟩

/-- `a`, backspace, backspace, `b` and `Enter`, with room for three bytes. -/
theorem ttyRead_line_backspace :
    ∃ ret, ttyRead 4 [97, 0x7f, 0x7f, 98, 0x0d] (fun _ => 1) = some ret ∧
      ret.Reads 4 (fun _ => 1) [98] := by
  have h := (ttyRead_line (by decide : 2 ≤ 4) [97, 0x7f, 0x7f, 98, 0x0d] fun _ => 1).2
  have hline : editLine (4 - 1) [97, 0x7f, 0x7f, 98, 0x0d] [] = some ([98], []) := by decide
  rw [hline] at h
  generalize ttyRead 4 [97, 0x7f, 0x7f, 98, 0x0d] (fun _ => 1) = returned at h ⊢
  cases h with
  | some h => exact ⟨_, rfl, h.2.1⟩

/-- The string that a line is for those who read the buffer. -/
theorem TtyReturn.Reads.bufString_eq {ret : TtyReturn} {len : ℕ} {buf : ℕ → UInt8}
    {line : List UInt8} (h : ret.Reads len buf line) :
    bufString len ret.buf = line.takeWhile (· ≠ 0) :=
  bufString_of_holds h.holds h.null h.length_lt

end Egos.Earth
