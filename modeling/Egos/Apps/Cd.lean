import Egos.Apps.Servers
import Egos.Common.CString
import Egos.Common.Fields

/-!
# Changing the working directory

Translation of `apps/user/cd.c`. The working directory is kept twice, as an inode number and as a
path in a buffer of 128 bytes; `cd` asks `dir_lookup` for the one and edits the other in place. Over
a directory tree, the path always leads to the inode.
-/

namespace Egos.Apps

open Egos.Library

/-! ## `cd.c` -/

/-- `'/'` -/
abbrev slash : UInt8 := 47

/-- `"."` -/
abbrev dot : List UInt8 := [46]

/-- `".."` -/
abbrev dotdot : List UInt8 := [46, 46]

/-- `"home"` -/
def home : List UInt8 := [104, 111, 109, 101]

/-- `"yunhao"` -/
def yunhao : List UInt8 := [121, 117, 110, 104, 97, 111]

/-- `sizeof(grass->workdir)` -/
abbrev workdirSize : ℕ := 128

/-- `workdir_ino` and `workdir` of `struct grass`. -/
structure Workdir where
  ino : ℤ
  path : ℕ → UInt8

/-- `while (workdir[len] != '/') workdir[len--] = 0;`, or nothing if it leaves the buffer. -/
def stripLoop : ℕ → (ℕ → UInt8) → Option (ℕ × (ℕ → UInt8))
  | 0, path => if path 0 = slash then some (0, path) else none
  | len + 1, path =>
    if path (len + 1) = slash then some (len + 1, path)
    else stripLoop len (Function.update path (len + 1) 0)

/-- `if (len > 1) strcat(workdir, "/");` -/
def addSlash (path : ℕ → UInt8) : Option (ℕ → UInt8) :=
  let len := (bufString workdirSize path).length
  if len > 1 then putString workdirSize path len [slash] else some path

/-- The same, and `strncat(workdir, arg, strlen(arg) - 1);`. -/
def pathDown (path : ℕ → UInt8) (arg : List UInt8) : Option (ℕ → UInt8) := do
  let path ← addSlash path
  putString workdirSize path (bufString workdirSize path).length (arg.take (arg.length - 1))

/-- The loop, and `if (len) workdir[len] = 0;`. -/
def pathUp (path : ℕ → UInt8) : Option (ℕ → UInt8) := do
  let (len, path) ← stripLoop (bufString workdirSize path).length path
  return if len ≠ 0 then Function.update path len 0 else path

/-- `main` of `cd`, with `argv[1]` if there is one: its result and the new working directory. There
is nothing if a string does not fit in its buffer. -/
def cdMain (lookup : ℤ → List UInt8 → ℤ) (arg : Option (List UInt8)) (g : Workdir) :
    Option (ℤ × Workdir) :=
  match arg with
  | none => do
    let homeIno := lookup 0 (home ++ [slash])
    let path ← putString workdirSize g.path 0 (slash :: home ++ slash :: yunhao)
    return (0, ⟨lookup homeIno (yunhao ++ [slash]), path⟩)
  | some arg =>
    if arg.length + 1 < cmdArgLen then
      let arg := arg ++ [slash]
      let dirIno := lookup g.ino arg
      if dirIno = -1 then return (-1, g)
      else if arg = dot ++ [slash] then return (0, ⟨dirIno, g.path⟩)
      else do
        let path ← if arg ≠ dotdot ++ [slash] then pathDown g.path arg else pathUp g.path
        return (0, ⟨dirIno, path⟩)
    else none

/-- Several `cd` commands, one after the other. -/
def runCd (lookup : ℤ → List UInt8 → ℤ) (args : List (Option (List UInt8))) (g : Workdir) :
    Option Workdir :=
  args.foldlM (fun g arg => Prod.snd <$> cdMain lookup arg g) g

/-! ## Directory trees -/

/-- A name that a directory can have. -/
structure ValidName (name : List UInt8) : Prop where
  ne_nil : name ≠ []
  no_slash : slash ∉ name
  no_null : 0 ∉ name
  length_le : name.length ≤ 30
  ne_dot : name ≠ dot
  ne_dotdot : name ≠ dotdot

/-- The absolute path with some components. -/
def pathOf (names : List (List UInt8)) : List UInt8 :=
  if names = [] then [slash] else names.flatMap (slash :: ·)

/-- A tree of directories, with the root at inode 0. -/
structure DirTree where
  child : ℕ → List UInt8 → Option ℕ
  parent : ℕ → ℕ
  parent_root : parent 0 = 0
  parent_child : ∀ {d name e}, child d name = some e → parent e = d
  validName : ∀ {d name e}, child d name = some e → ValidName name
  path_short : ∀ {names d}, names.foldlM child 0 = some d → (pathOf names).length < 127
  home_yunhao : ∃ d, [home, yunhao].foldlM child 0 = some d

namespace DirTree

variable (T : DirTree)

/-- The entry of a directory that is written with a slash behind its name. -/
def entry (d : ℕ) (name : List UInt8) : Option ℕ :=
  if name = dot then some d else if name = dotdot then some (T.parent d) else T.child d name

/-- The directories of the tree. -/
def HasDir (d : ℕ) : Prop := ∃ names : List (List UInt8), names.foldlM T.child 0 = some d

/-- What `dir_lookup` is assumed to return, in the directories of the tree, for the entries with a
slash. -/
def LookedUpBy (lookup : ℤ → List UInt8 → ℤ) : Prop :=
  ∀ d : ℕ, T.HasDir d → ∀ name,
    lookup d (name ++ [slash]) = ((T.entry d name).map Int.ofNat).getD (-1)

/-- The directory that a path leads to from the root, component by component. -/
def resolve (path : List UInt8) : Option ℕ := (fields slash path).foldlM T.entry 0

variable {T}

/-- A name that is not `.` or `..` is a child. -/
theorem entry_eq_child {d : ℕ} {name : List UInt8} (h : ValidName name) :
    T.entry d name = T.child d name := by
  rw [entry, if_neg h.ne_dot, if_neg h.ne_dotdot]

/-- The components on the way from a directory to one below it. -/
theorem foldlM_child {names : List (List UInt8)} {d e : ℕ}
    (h : names.foldlM T.child d = some e) :
    (∀ name ∈ names, ValidName name) ∧ names.foldlM T.entry d = some e := by
  induction names generalizing d with
  | nil => exact ⟨nofun, h⟩
  | cons name names ih =>
    rw [List.foldlM_cons, Option.bind_eq_bind, Option.bind_eq_some_iff] at h
    obtain ⟨d', hchild, hrest⟩ := h
    have hvalid := T.validName hchild
    obtain ⟨hvalids, hentries⟩ := ih hrest
    refine ⟨List.forall_mem_cons.2 ⟨hvalid, hvalids⟩, ?_⟩
    rw [List.foldlM_cons, entry_eq_child hvalid, hchild]
    exact hentries

end DirTree

/-- The components of a path. -/
theorem fields_pathOf {names : List (List UInt8)} (h : ∀ name ∈ names, ValidName name) :
    fields slash (pathOf names) = names := by
  rw [pathOf]
  split
  next hnil =>
    subst hnil
    rfl
  next => exact fields_flatMap fun name hname => ⟨(h name hname).ne_nil, (h name hname).no_slash⟩

theorem pathOf_append (names : List (List UInt8)) (name : List UInt8) :
    pathOf (names ++ [name]) = names.flatMap (slash :: ·) ++ slash :: name := by
  rw [pathOf, if_neg (by simp), List.flatMap_append]
  simp

/-- A path is `"/"` or does not end with a slash. -/
theorem pathOf_getLast {names : List (List UInt8)} (h : ∀ name ∈ names, ValidName name) :
    pathOf names = [slash] ∨ (pathOf names).getLast? ≠ some slash := by
  rcases List.eq_nil_or_concat names with rfl | ⟨names, name, rfl⟩
  · exact .inl rfl
  · right
    have hvalid := h name (by simp)
    obtain ⟨c, cs, rfl⟩ := List.exists_cons_of_ne_nil hvalid.ne_nil
    rw [List.concat_eq_append, pathOf_append, List.getLast?_append_of_ne_nil _ (by simp),
      List.getLast?_cons_cons]
    exact fun hlast => hvalid.no_slash (List.mem_of_getLast? hlast)

/-! ## One command -/

/-- The loop clears the last component of a path and stops at the slash before it. -/
theorem stripLoop_eq {n k : ℕ} {path : ℕ → UInt8} (hslash : path n = slash)
    (hrest : ∀ j, n < j → j ≤ n + k → path j ≠ slash) :
    stripLoop (n + k) path = some (n, fun j => if n < j ∧ j ≤ n + k then 0 else path j) := by
  induction k generalizing path with
  | zero =>
    have hsame : (fun j => if n < j ∧ j ≤ n + 0 then 0 else path j) = path := by
      funext j
      exact if_neg (by omega)
    rw [hsame]
    cases n <;> rw [Nat.add_zero, stripLoop, if_pos hslash]
  | succ k ih =>
    rw [← Nat.add_assoc, stripLoop, if_neg (hrest _ (by omega) (by omega)), ih]
    · congr 2
      funext j
      by_cases hj : j = n + k + 1
      · rw [if_neg (by omega), if_pos (by omega), hj, Function.update_self]
      · rw [Function.update_of_ne hj]
        by_cases hin : n < j ∧ j ≤ n + k
        · rw [if_pos hin, if_pos (by omega)]
        · rw [if_neg hin, if_neg (by omega)]
    · rw [Function.update_of_ne (by omega), hslash]
    · intro j hlt hle
      rw [Function.update_of_ne (by omega)]
      exact hrest j hlt (by omega)

section path

variable {path : ℕ → UInt8} {names : List (List UInt8)} {name : List UInt8}

/-- With a slash behind it, a path has a slash behind every component. -/
theorem addSlash_eq (h : HasString workdirSize path (pathOf names))
    (hvalid : ∀ name ∈ names, ValidName name)
    (hshort : (names.flatMap (slash :: ·)).length + 1 < workdirSize) :
    ∃ path', addSlash path = some path' ∧
      HasString workdirSize path' (names.flatMap (slash :: ·) ++ [slash]) := by
  simp only [addSlash, h.bufString_eq]
  cases names with
  | nil => exact ⟨path, rfl, h⟩
  | cons name names =>
    have hpath : pathOf (name :: names) = (name :: names).flatMap (slash :: ·) := rfl
    have hlen : (pathOf (name :: names)).length > 1 := by
      have := List.length_pos_iff.2 (hvalid name List.mem_cons_self).ne_nil
      rw [hpath, List.flatMap_cons, List.length_append, List.length_cons]
      omega
    rw [if_pos hlen, ← hpath]
    exact h.holds.put h.no_null (by decide) (by rwa [hpath, List.length_append])

/-- Going down appends the name to the path. -/
theorem pathDown_eq (h : HasString workdirSize path (pathOf names))
    (hvalid : ∀ name ∈ names, ValidName name) (hname : 0 ∉ name)
    (hshort : (pathOf (names ++ [name])).length < workdirSize) :
    ∃ path', pathDown path (name ++ [slash]) = some path' ∧
      HasString workdirSize path' (pathOf (names ++ [name])) := by
  have hpath : pathOf (names ++ [name]) = names.flatMap (slash :: ·) ++ [slash] ++ name := by
    rw [pathOf_append, List.append_assoc, List.singleton_append]
  rw [hpath] at hshort ⊢
  have hmid : (names.flatMap (slash :: ·)).length + 1 < workdirSize := by
    rw [List.length_append, List.length_append, List.length_singleton] at hshort
    omega
  obtain ⟨mid, hslash, hstring⟩ := addSlash_eq h hvalid hmid
  obtain ⟨path', hput, hstring'⟩ := hstring.holds.put hstring.no_null hname hshort
  refine ⟨path', ?_, hstring'⟩
  have htake : (name ++ [slash]).take ((name ++ [slash]).length - 1) = name := by
    rw [List.length_append, List.length_singleton, Nat.add_sub_cancel, List.take_left]
  rw [pathDown, hslash, Option.bind_eq_bind, Option.bind_some, hstring.bufString_eq, htake]
  exact hput

/-- The last component goes, and the slash before it unless it is the first one. -/
theorem pathUp_eq (pre w : List UInt8) (h : HasString workdirSize path (pre ++ slash :: w))
    (hw : slash ∉ w) :
    ∃ path', pathUp path = some path' ∧
      HasString workdirSize path' (if pre = [] then [slash] else pre) := by
  have hlen : (pre ++ slash :: w).length = pre.length + (w.length + 1) := List.length_append
  have hsize := h.length_lt
  rw [hlen] at hsize
  have hslash : path pre.length = slash := by
    rw [h.holds _ (by omega), List.getElem_append_right le_rfl]
    simp
  have hrest : ∀ j, pre.length < j → j ≤ pre.length + (w.length + 1) → path j ≠ slash := by
    intro j hlt hle
    by_cases hj : j = pre.length + (w.length + 1)
    · rw [hj, ← hlen, h.null]
      decide
    · rw [h.holds j (by omega), List.getElem_append_right (by omega), List.getElem_cons,
        dif_neg (by omega)]
      exact fun heq => hw (heq ▸ List.getElem_mem _)
  rw [pathUp, h.bufString_eq, hlen, stripLoop_eq hslash hrest]
  refine ⟨_, rfl, ?_⟩
  by_cases hpre : pre = []
  · subst hpre
    rw [if_pos rfl]
    refine ⟨?_, ?_, by decide, by decide⟩
    · intro j hj
      obtain rfl : j = 0 := by simpa using hj
      exact hslash
    · change (if 0 < 1 ∧ 1 ≤ 0 + (w.length + 1) then 0 else path 1) = 0
      exact if_pos (by omega)
  · have hne : pre.length ≠ 0 := fun h0 => hpre (List.eq_nil_of_length_eq_zero h0)
    have hnull := h.no_null
    rw [if_neg hpre, if_pos hne]
    refine ⟨?_, Function.update_self .., fun hmem => hnull (by simp [hmem]), by omega⟩
    intro j hj
    rw [Function.update_of_ne (by omega), if_neg (by omega), h.holds j (by omega),
      List.getElem_append_left hj]

end path

/-- The working directory is `d`, with the path `names`. -/
structure Workdir.At (T : DirTree) (g : Workdir) (names : List (List UInt8)) (d : ℕ) : Prop where
  leads : names.foldlM T.child 0 = some d
  ino_eq : g.ino = d
  string : HasString workdirSize g.path (pathOf names)

section step

variable {T : DirTree} {lookup : ℤ → List UInt8 → ℤ} {g : Workdir} {names : List (List UInt8)}
  {d : ℕ}

theorem Workdir.At.hasDir (hg : g.At T names d) : T.HasDir d := ⟨names, hg.leads⟩

/-- One more component. -/
theorem foldlM_child_append {name : List UInt8} {e : ℕ} :
    (names ++ [name]).foldlM T.child 0 = some e ↔
      ∃ d, names.foldlM T.child 0 = some d ∧ T.child d name = some e := by
  rw [List.foldlM_append, Option.bind_eq_bind, Option.bind_eq_some_iff]
  simp

/-- The lookup of a child of a directory in the tree. -/
theorem lookup_child (hlookup : T.LookedUpBy lookup) (hd : T.HasDir d) {name : List UInt8} {e : ℕ}
    (h : T.child d name = some e) : lookup d (name ++ [slash]) = e := by
  rw [hlookup d hd, DirTree.entry_eq_child (T.validName h), h]
  rfl

/-- `cd` without an argument. -/
theorem cd_home (hlookup : T.LookedUpBy lookup) (g : Workdir) :
    ∃ g' names d, cdMain lookup none g = some (0, g') ∧ g'.At T names d := by
  obtain ⟨y, hleads⟩ := T.home_yunhao
  obtain ⟨h, hleads', hyunhao⟩ :
      ∃ h, [home].foldlM T.child 0 = some h ∧ T.child h yunhao = some y :=
    foldlM_child_append.1 hleads
  have hhome := hleads'
  rw [List.foldlM_cons, Option.bind_eq_bind, Option.bind_eq_some_iff] at hhome
  obtain ⟨_, hhome, ⟨⟩⟩ := hhome
  obtain ⟨path, hput, hstring⟩ : ∃ path, putString workdirSize g.path 0
      (slash :: home ++ slash :: yunhao) = some path ∧
        HasString workdirSize path (slash :: home ++ slash :: yunhao) :=
    (holds_nil g.path).put List.not_mem_nil (by decide) (by decide)
  have hino : lookup (lookup 0 (home ++ [slash])) (yunhao ++ [slash]) = y := by
    rw [← Nat.cast_zero, lookup_child hlookup ⟨[], rfl⟩ hhome,
      lookup_child hlookup ⟨[home], hleads'⟩ hyunhao]
  refine ⟨⟨y, path⟩, [home, yunhao], y, ?_, hleads, rfl, hstring⟩
  simp only [cdMain, hput, hino]
  rfl

/-- `cd` with an argument for which there is an entry. -/
theorem cdMain_found {name : List UInt8} {e : ℕ} (hlen : name.length ≤ 30)
    (hino : lookup g.ino (name ++ [slash]) = e) :
    cdMain lookup (some name) g =
      if name = dot then some (0, ⟨e, g.path⟩)
      else (if name ≠ dotdot then pathDown g.path (name ++ [slash]) else pathUp g.path).map
        fun path => (0, ⟨e, path⟩) := by
  have hroom : name.length + 1 < cmdArgLen := by
    change name.length + 1 < 32
    omega
  have hfound : (e : ℤ) ≠ -1 := by omega
  simp only [cdMain, if_pos hroom, hino, if_neg hfound, List.append_left_inj, ne_eq]
  split_ifs
  · rfl
  · rw [Option.map_eq_bind]
    rfl
  · rw [Option.map_eq_bind]
    rfl

/-- `cd .` stays where it is. -/
theorem cd_dot (hg : g.At T names d) (hlookup : T.LookedUpBy lookup) :
    ∃ g', cdMain lookup (some dot) g = some (0, g') ∧ g'.At T names d := by
  have hino : lookup g.ino (dot ++ [slash]) = d := by
    rw [hg.ino_eq, hlookup d hg.hasDir, DirTree.entry, if_pos rfl]
    rfl
  refine ⟨⟨d, g.path⟩, ?_, hg.leads, rfl, hg.string⟩
  rw [cdMain_found (by decide) hino, if_pos rfl]

/-- `cd` into a directory below. -/
theorem cd_down (hg : g.At T names d) {name : List UInt8} {e : ℕ} (hchild : T.child d name = some e)
    (hlookup : T.LookedUpBy lookup) :
    ∃ g', cdMain lookup (some name) g = some (0, g') ∧ g'.At T (names ++ [name]) e := by
  have hvalid := T.validName hchild
  have hleads := foldlM_child_append.2 ⟨d, hg.leads, hchild⟩
  have hshort : (pathOf (names ++ [name])).length < workdirSize :=
    Nat.lt_succ_of_lt (T.path_short hleads)
  have hino : lookup g.ino (name ++ [slash]) = e := by
    rw [hg.ino_eq, lookup_child hlookup hg.hasDir hchild]
  obtain ⟨path, hpath, hstring⟩ :=
    pathDown_eq hg.string (DirTree.foldlM_child hg.leads).1 hvalid.no_null hshort
  refine ⟨⟨e, path⟩, ?_, hleads, rfl, hstring⟩
  rw [cdMain_found hvalid.length_le hino, if_neg hvalid.ne_dot, if_pos hvalid.ne_dotdot, hpath]
  rfl

/-- `cd ..` -/
theorem cd_up (hg : g.At T names d) (hlookup : T.LookedUpBy lookup) :
    ∃ g' names', cdMain lookup (some dotdot) g = some (0, g') ∧ g'.At T names' (T.parent d) := by
  have hino : lookup g.ino (dotdot ++ [slash]) = T.parent d := by
    rw [hg.ino_eq, hlookup d hg.hasDir, DirTree.entry, if_neg (by decide), if_pos rfl]
    rfl
  have hmain (path : ℕ → UInt8) (hpath : pathUp g.path = some path) :
      cdMain lookup (some dotdot) g = some (0, ⟨T.parent d, path⟩) := by
    rw [cdMain_found (by decide) hino, if_neg (by decide), if_neg (not_not.2 rfl), hpath]
    rfl
  rcases List.eq_nil_or_concat names with rfl | ⟨names, name, rfl⟩
  · -- the root is its own parent
    obtain rfl : 0 = d := Option.some.inj hg.leads
    obtain ⟨path, hpath, hstring⟩ : ∃ path, pathUp g.path = some path ∧
        HasString workdirSize path [slash] := pathUp_eq [] [] hg.string List.not_mem_nil
    refine ⟨⟨T.parent 0, path⟩, [], hmain path hpath, ?_, rfl, hstring⟩
    rw [T.parent_root]
    rfl
  · rw [List.concat_eq_append] at hg
    obtain ⟨p, hleads, hchild⟩ := foldlM_child_append.1 hg.leads
    have hstring := hg.string
    rw [pathOf_append] at hstring
    obtain ⟨path, hpath, hstring⟩ := pathUp_eq _ _ hstring (T.validName hchild).no_slash
    refine ⟨⟨T.parent d, path⟩, names, hmain path hpath, ?_, rfl, ?_⟩
    · rw [T.parent_child hchild, hleads]
    · have hnil : names.flatMap (slash :: ·) = [] ↔ names = [] := by
        cases names <;> simp
      rw [pathOf]
      simpa only [hnil] using hstring

/-- A command that fails changes nothing. -/
theorem cd_fails {arg : Option (List UInt8)} {g' : Workdir}
    (h : cdMain lookup arg g = some (-1, g')) : g' = g := by
  have hbind {x : Option (ℕ → UInt8)} {ino : ℤ} :
      (x.bind fun path => some ((0 : ℤ), Workdir.mk ino path)) ≠ some (-1, g') := by
    intro hx
    obtain ⟨path, -, hpath⟩ := Option.bind_eq_some_iff.1 hx
    cases hpath
  cases arg with
  | none =>
    simp only [cdMain] at h
    exact absurd h hbind
  | some name =>
    simp only [cdMain] at h
    split_ifs at h
    · cases h
      rfl
    · cases h
    · exact absurd h hbind
    · exact absurd h hbind

/-- Every command keeps the working directory in the tree. -/
theorem cd_step (hg : g.At T names d) (hlookup : T.LookedUpBy lookup)
    {arg : Option (List UInt8)} (harg : ∀ name, arg = some name → name.length ≤ 30) :
    ∃ r g' names' d', cdMain lookup arg g = some (r, g') ∧ g'.At T names' d' := by
  cases arg with
  | none =>
    obtain ⟨g', names', d', hmain, hg'⟩ := cd_home hlookup g
    exact ⟨0, g', names', d', hmain, hg'⟩
  | some name =>
    by_cases hdot : name = dot
    · subst hdot
      obtain ⟨g', hmain, hg'⟩ := cd_dot hg hlookup
      exact ⟨0, g', names, d, hmain, hg'⟩
    by_cases hdotdot : name = dotdot
    · subst hdotdot
      obtain ⟨g', names', hmain, hg'⟩ := cd_up hg hlookup
      exact ⟨0, g', names', _, hmain, hg'⟩
    cases hchild : T.child d name with
    | some e =>
      obtain ⟨g', hmain, hg'⟩ := cd_down hg hchild hlookup
      exact ⟨0, g', _, e, hmain, hg'⟩
    | none =>
      have hino : lookup g.ino (name ++ [slash]) = -1 := by
        rw [hg.ino_eq, hlookup d hg.hasDir, DirTree.entry, if_neg hdot, if_neg hdotdot, hchild]
        rfl
      have hroom : name.length + 1 < cmdArgLen := by
        have := harg name rfl
        change name.length + 1 < 32
        omega
      refine ⟨-1, g, names, d, ?_, hg⟩
      simp only [cdMain, if_pos hroom, hino, if_true]
      rfl

/-- Any number of commands. -/
theorem runCd_at (hlookup : T.LookedUpBy lookup) {args : List (Option (List UInt8))}
    (hargs : ∀ name, some name ∈ args → name.length ≤ 30) (hg : g.At T names d) :
    ∃ g' names' d', runCd lookup args g = some g' ∧ g'.At T names' d' := by
  induction args generalizing g names d with
  | nil => exact ⟨g, names, d, rfl, hg⟩
  | cons arg args ih =>
    obtain ⟨r, g₁, names₁, d₁, hmain, hg₁⟩ :=
      cd_step hg hlookup fun name h => hargs name (h ▸ List.mem_cons_self)
    obtain ⟨g', names', d', hrun, hg'⟩ := ih (fun name h => hargs name (.tail _ h)) hg₁
    refine ⟨g', names', d', ?_, hg'⟩
    rw [runCd, List.foldlM_cons, hmain]
    exact hrun

end step

/-- After any sequence of commands that starts with a `cd` without an argument, the path of the
working directory leads to its inode and has no slash at its end unless it is the root, and a
command that fails changes neither of them. -/
theorem cd_consistent (T : DirTree) {lookup : ℤ → List UInt8 → ℤ} (hlookup : T.LookedUpBy lookup)
    (g₀ : Workdir) (args : List (Option (List UInt8)))
    (hargs : ∀ name, some name ∈ args → name.length ≤ 30) :
    ∃ g, runCd lookup (none :: args) g₀ = some g ∧
      (T.resolve (bufString workdirSize g.path)).map Int.ofNat = some g.ino ∧
      (bufString workdirSize g.path = [slash] ∨
        (bufString workdirSize g.path).getLast? ≠ some slash) ∧
      ∀ arg g', cdMain lookup arg g = some (-1, g') → g' = g := by
  obtain ⟨g₁, names₁, d₁, hmain, hg₁⟩ := cd_home hlookup g₀
  obtain ⟨g, names, d, hrun, hg⟩ := runCd_at hlookup hargs hg₁
  obtain ⟨hvalid, hentries⟩ := DirTree.foldlM_child hg.leads
  refine ⟨g, ?_, ?_, ?_, fun _ _ => cd_fails⟩
  · rw [runCd, List.foldlM_cons, hmain]
    exact hrun
  · rw [hg.string.bufString_eq, DirTree.resolve, fields_pathOf hvalid, hentries, hg.ino_eq]
    rfl
  · rw [hg.string.bufString_eq]
    exact pathOf_getLast hvalid

/-- What `dir_lookup` returns on a tree without other entries. -/
def DirTree.lookup (T : DirTree) (d : ℤ) (name : List UInt8) : ℤ :=
  if name.getLast? = some slash then ((T.entry d.toNat name.dropLast).map Int.ofNat).getD (-1)
  else -1

theorem DirTree.lookedUpBy_lookup (T : DirTree) : T.LookedUpBy T.lookup := by
  intro d _ name
  rw [DirTree.lookup, if_pos (by simp), List.dropLast_concat, Int.toNat_natCast]

/-- The directories on the way to `/home/yunhao`. -/
def homeChild (d : ℕ) (name : List UInt8) : Option ℕ :=
  if d = 0 ∧ name = home then some 1 else if d = 1 ∧ name = yunhao then some 2 else none

theorem homeChild_eq_some {d e : ℕ} {name : List UInt8} (h : homeChild d name = some e) :
    d = 0 ∧ name = home ∧ e = 1 ∨ d = 1 ∧ name = yunhao ∧ e = 2 := by
  rw [homeChild] at h
  split_ifs at h with h₁ h₂ <;> cases h
  · exact .inl ⟨h₁.1, h₁.2, rfl⟩
  · exact .inr ⟨h₂.1, h₂.2, rfl⟩

/-- Below `home` and below `yunhao` there is little. -/
theorem foldlM_homeChild {names : List (List UInt8)} {d e : ℕ}
    (h : names.foldlM homeChild d = some e) :
    names.length ≤ 2 - d ∧ ∀ name ∈ names, name.length ≤ 6 := by
  induction names generalizing d with
  | nil => exact ⟨Nat.zero_le _, nofun⟩
  | cons name names ih =>
    rw [List.foldlM_cons, Option.bind_eq_bind, Option.bind_eq_some_iff] at h
    obtain ⟨d', hchild, hrest⟩ := h
    obtain ⟨hlen, hall⟩ := ih hrest
    rw [List.length_cons]
    rcases homeChild_eq_some hchild with ⟨rfl, rfl, rfl⟩ | ⟨rfl, rfl, rfl⟩
    · exact ⟨by omega, List.forall_mem_cons.2 ⟨by decide, hall⟩⟩
    · exact ⟨by omega, List.forall_mem_cons.2 ⟨by decide, hall⟩⟩

/-- The length of a path, from the lengths of its names. -/
theorem length_pathOf_le {names : List (List UInt8)} {n : ℕ}
    (h : ∀ name ∈ names, name.length ≤ n) :
    (pathOf names).length ≤ 1 + names.length * (n + 1) := by
  have hflat : (names.flatMap (slash :: ·)).length ≤ names.length * (n + 1) := by
    induction names with
    | nil => simp
    | cons name names ih =>
      obtain ⟨hname, hnames⟩ := List.forall_mem_cons.1 h
      have := ih hnames
      rw [List.flatMap_cons, List.length_append, List.length_cons, List.length_cons, Nat.succ_mul]
      omega
  rw [pathOf]
  split
  · simp
  · omega

/-- The tree with these directories. -/
def homeTree : DirTree where
  child := homeChild
  parent d := d - 1
  parent_root := rfl
  parent_child h := by
    rcases homeChild_eq_some h with ⟨rfl, -, rfl⟩ | ⟨rfl, -, rfl⟩ <;> rfl
  validName h := by
    rcases homeChild_eq_some h with ⟨-, rfl, -⟩ | ⟨-, rfl, -⟩ <;>
      exact ⟨by decide, by decide, by decide, by decide, by decide, by decide⟩
  path_short {names _} h := by
    obtain ⟨hlen, hall⟩ := foldlM_homeChild h
    have := length_pathOf_le hall
    omega
  home_yunhao := ⟨2, by decide⟩

/-- `cd`, `cd ..`, a `cd` that fails, and `cd yunhao`. -/
theorem cd_consistent_home :
    ∃ g, runCd homeTree.lookup [none, some dotdot, some home, some yunhao] ⟨0, fun _ => 0⟩
        = some g ∧
      (homeTree.resolve (bufString workdirSize g.path)).map Int.ofNat = some g.ino ∧
      (bufString workdirSize g.path = [slash] ∨
        (bufString workdirSize g.path).getLast? ≠ some slash) ∧
      ∀ arg g', cdMain homeTree.lookup arg g = some (-1, g') → g' = g :=
  cd_consistent homeTree homeTree.lookedUpBy_lookup _ [some dotdot, some home, some yunhao]
    (by simp [home, yunhao])

end Egos.Apps
