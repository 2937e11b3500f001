import Egos.Apps.Servers
import Egos.Common.Fields
import Egos.Earth.Tty

/-!
# Command lines

The grammar of `parse_request`: a line is a sequence of tokens, its fields between spaces. The
parser checks the number of tokens only when a space follows a token, so that it accepts `CMD_NARGS`
tokens at the end of a line but not with a space behind the last one.

The shell parses every line for which `tty_read` returns a length other than zero. A line of spaces,
or one that starts with a null, is such a line: it has no tokens, and the shell asks for a command
with `argc = 0`.
-/

namespace Egos.Apps

open Egos.Grass Egos.Library

/-! ## The parser -/

/-- `argv` when it holds some tokens and is zero elsewhere. -/
def argvOf (ts : List (List UInt8)) : Argv := fun i j => (ts.getD i []).getD j 0

/-- The line is a sequence of at most `CMD_NARGS` tokens that are shorter than `CMD_ARG_LEN`. -/
def InGrammar (line : List UInt8) : Prop :=
  (fields 32 line).length ≤ cmdNargs ∧ ∀ t ∈ fields 32 line, t.length < cmdArgLen

instance (line : List UInt8) : Decidable (InGrammar line) :=
  inferInstanceAs (Decidable (_ ∧ _))

/-- What the parser accepts after `n` tokens. No space may follow the last token that has room. -/
def Accepts (n : ℕ) (line : List UInt8) : Prop :=
  n + (fields 32 line).length ≤ cmdNargs ∧ (∀ t ∈ fields 32 line, t.length < cmdArgLen) ∧
    (n + (fields 32 line).length = cmdNargs → line.getLast? ≠ some 32)

instance (n : ℕ) (line : List UInt8) : Decidable (Accepts n line) :=
  inferInstanceAs (Decidable (_ ∧ _ ∧ _))

section accepts

variable {n : ℕ} {w : List UInt8}

/-- A short word is a short token. -/
theorem length_lt_of_mem_fieldOf (hlen : w.length < cmdArgLen) :
    ∀ t ∈ fieldOf w, t.length < cmdArgLen := by
  intro t ht
  rw [fieldOf] at ht
  split at ht
  · exact absurd ht List.not_mem_nil
  · rwa [List.mem_singleton.1 ht]

/-- A short word is accepted while there is room for a token. -/
theorem accepts_word (hn : n < cmdNargs) (hw : 32 ∉ w) (hlen : w.length < cmdArgLen) :
    Accepts n w := by
  rw [Accepts, fields_part hw]
  refine ⟨?_, length_lt_of_mem_fieldOf hlen, fun _ h => hw (List.mem_of_getLast? h)⟩
  rw [fieldOf]
  split <;> simp <;> omega

/-- A long word is not accepted. -/
theorem not_accepts_long (hw : 32 ∉ w) (hlen : cmdArgLen ≤ w.length) (cs : List UInt8) :
    ¬Accepts n (w ++ cs) := by
  have hne : w ≠ [] := by
    rintro rfl
    exact absurd hlen (by decide)
  obtain ⟨v, ts, htokens⟩ := exists_fields_cons hw hne cs
  rintro ⟨-, hall, -⟩
  rw [htokens] at hall
  have := hall _ List.mem_cons_self
  rw [List.length_append] at this
  omega

/-- A word for which there is no room is not accepted. -/
theorem not_accepts_full (hn : cmdNargs ≤ n + 1) (hw : 32 ∉ w) (hne : w ≠ []) (cs : List UInt8) :
    ¬Accepts n (w ++ 32 :: cs) := by
  rw [Accepts, fields_part_sep hw, fieldOf, if_neg hne, List.singleton_append, List.length_cons]
  rintro ⟨hle, -, hlast⟩
  -- there is no room for another token, so that only spaces can follow
  have hnil : fields 32 cs = [] := List.eq_nil_of_length_eq_zero (by omega)
  refine hlast (by omega) ?_
  rw [List.getLast?_append_of_ne_nil _ (List.cons_ne_nil 32 cs)]
  have hmem := List.getLast_mem (List.cons_ne_nil 32 cs)
  rw [List.getLast?_eq_getLast_of_ne_nil (List.cons_ne_nil 32 cs)]
  rcases List.mem_cons.1 hmem with h | h
  · rw [h]
  · rw [fields_eq_nil_iff.1 hnil _ h]

/-- A space that ends a token for which there is room, or that follows a space. -/
theorem accepts_space (hn : n + (fieldOf w).length < cmdNargs) (hw : 32 ∉ w)
    (hlen : w.length < cmdArgLen) (cs : List UInt8) :
    Accepts n (w ++ 32 :: cs) ↔ Accepts (n + (fieldOf w).length) cs := by
  have hall := length_lt_of_mem_fieldOf hlen
  rw [Accepts, Accepts, fields_part_sep hw, List.length_append, List.forall_mem_append,
    and_iff_right hall, ← Nat.add_assoc]
  cases cs with
  | nil =>
    have hnil : fields (32 : UInt8) [] = [] := rfl
    simp only [hnil, List.length_nil, Nat.add_zero]
    constructor
    · rintro ⟨h, -, -⟩
      exact ⟨h, nofun, fun h' => by omega⟩
    · rintro ⟨h, -, -⟩
      exact ⟨h, nofun, fun h' => by omega⟩
  | cons c cs =>
    have hlast : (w ++ 32 :: c :: cs).getLast? = (c :: cs).getLast? := by
      rw [List.getLast?_append_of_ne_nil _ (List.cons_ne_nil 32 _), List.getLast?_cons_cons]
    rw [hlast]

end accepts

section argv

variable (ts : List (List UInt8)) (w : List UInt8)

theorem getD_append_singleton {α : Type} (l : List α) (a d : α) (i : ℕ) :
    (l ++ [a]).getD i d = if i = l.length then a else l.getD i d := by
  simp only [List.getD_eq_getElem?_getD, List.getElem?_append]
  rcases Nat.lt_trichotomy i l.length with h | rfl | h
  · simp [h, h.ne]
  · simp
  · have hpast : ¬i < l.length := by omega
    have hsub : i - l.length ≠ 0 := by omega
    simp [hpast, h.ne', hsub]

/-- One more token. -/
theorem argvOf_append (i j : ℕ) :
    argvOf (ts ++ [w]) i j = if i = ts.length then w.getD j 0 else argvOf ts i j := by
  simp only [argvOf, getD_append_singleton]
  split <;> rfl

/-- An empty token adds nothing. -/
theorem argvOf_append_nil : argvOf (ts ++ [[]]) = argvOf ts := by
  funext i j
  rw [argvOf_append]
  split
  next h =>
    subst h
    simp [argvOf]
  next => rfl

/-- Storing a byte of the current token. -/
theorem argvOf_set (c : UInt8) :
    (argvOf (ts ++ [w])).set ts.length w.length c = argvOf (ts ++ [w ++ [c]]) := by
  funext i j
  rw [Argv.set, argvOf_append, getD_append_singleton, Function.update_apply]
  split
  next => rw [Function.update_apply, argvOf_append, if_pos rfl]
  next h => rw [argvOf_append, if_neg h]

/-- The null behind a token is there already. -/
theorem argvOf_set_null : (argvOf (ts ++ [w])).set ts.length w.length 0 = argvOf (ts ++ [w]) := by
  have hnull : (argvOf (ts ++ [w])) ts.length w.length = 0 := by
    rw [argvOf_append, if_pos rfl, List.getD_eq_getElem?_getD, List.getElem?_eq_none le_rfl]
    rfl
  rw [Argv.set, ← hnull, Function.update_eq_self, Function.update_eq_self]

end argv

/-- The loop of `parse_request` with the tokens `ts` behind it and `w` read of the next one. -/
theorem parseLoop_eq (cs : List UInt8) {w : List UInt8} (ts : List (List UInt8)) (hw : 32 ∉ w)
    (hlen : w.length < cmdArgLen) (hts : ts.length < cmdNargs) :
    parseLoop cs w.length ts.length (argvOf (ts ++ [w])) =
      if Accepts ts.length (w ++ cs) then
        some (ts.length + (fields 32 (w ++ cs)).length, argvOf (ts ++ fields 32 (w ++ cs)))
      else none := by
  induction cs generalizing w ts with
  | nil =>
    rw [List.append_nil, if_pos (accepts_word hts hw hlen), fields_part hw, parseLoop, fieldOf]
    by_cases hnil : w = []
    · subst hnil
      rw [argvOf_append_nil]
      simp
    · simp [hnil]
  | cons c cs ih =>
    rw [parseLoop]
    by_cases hc : c = 32
    · subst hc
      rw [if_neg (not_not.2 rfl)]
      by_cases hnil : w = []
      · -- another space
        subst hnil
        have haccepts : Accepts ts.length (32 :: cs) ↔ Accepts ts.length cs :=
          accepts_space hts List.not_mem_nil (by decide) cs
        have hnext := ih ts List.not_mem_nil (by decide) hts
        rw [List.length_nil, if_neg (not_not.2 rfl)]
        simp only [haccepts, fields_sep, List.nil_append] at hnext ⊢
        exact hnext
      · -- the end of a token
        have hidx : w.length ≠ 0 := fun h => hnil (List.eq_nil_of_length_eq_zero h)
        rw [if_pos hidx]
        by_cases hfull : ts.length + 1 ≥ cmdNargs
        · rw [if_pos hfull, if_neg (not_accepts_full hfull hw hnil cs)]
        · have htoken : fieldOf w = [w] := if_neg hnil
          have hroom : ts.length + (fieldOf w).length < cmdNargs := by
            rw [htoken]
            exact Nat.lt_of_not_le hfull
          have hnext := ih (ts ++ [w]) List.not_mem_nil (by decide) (by simpa [htoken] using hroom)
          rw [argvOf_append_nil, List.length_nil, List.length_append, List.length_singleton,
            List.nil_append] at hnext
          rw [if_neg hfull, argvOf_set_null, hnext]
          simp only [accepts_space hroom hw hlen, fields_part_sep hw, htoken, List.length_append,
            List.length_singleton, List.append_assoc, Nat.add_assoc]
    · -- a byte of a token
      have hw' : 32 ∉ w ++ [c] := by simpa [hw] using Ne.symm hc
      rw [if_pos hc]
      by_cases hlong : w.length + 1 ≥ cmdArgLen
      · have hnot := not_accepts_long (n := ts.length) hw' (by simpa using hlong) cs
        rw [List.append_assoc, List.singleton_append] at hnot
        rw [if_pos hlong, if_neg hnot]
      · have hnext := ih ts hw' (by simpa using hlong) hts
        rw [List.length_append, List.length_singleton, List.append_assoc, List.singleton_append]
          at hnext
        rw [if_neg hlong, argvOf_set, hnext]

/-- What `parse_request` returns. -/
theorem parseRequest_eq (line : List UInt8) :
    parseRequest line =
      if Accepts 0 line then some ((fields 32 line).length, argvOf (fields 32 line)) else none := by
  have h := parseLoop_eq line (w := []) [] List.not_mem_nil (by decide) (by decide)
  rw [argvOf_append_nil] at h
  simp only [List.length_nil, List.nil_append, Nat.zero_add] at h
  exact h

/-- The parser agrees with the grammar on every line but those in which a space follows the last of
`CMD_NARGS` tokens. -/
theorem parseRequest_grammar_iff (line : List UInt8) :
    ((∃ req, parseRequest line = some req) ↔ InGrammar line) ∧
      (∀ argc argv, parseRequest line = some (argc, argv) →
        argc = (fields 32 line).length ∧ argv = argvOf (fields 32 line)) ↔
      ¬((fields 32 line).length = cmdNargs ∧ line.getLast? = some 32 ∧
        ∀ t ∈ fields 32 line, t.length < cmdArgLen) := by
  have hresult : ∀ argc argv, parseRequest line = some (argc, argv) →
      argc = (fields 32 line).length ∧ argv = argvOf (fields 32 line) := by
    intro argc argv h
    rw [parseRequest_eq] at h
    split at h
    · cases h
      exact ⟨rfl, rfl⟩
    · cases h
  have hreturns : (∃ req, parseRequest line = some req) ↔ Accepts 0 line := by
    rw [parseRequest_eq]
    by_cases h : Accepts 0 line <;> simp [h]
  rw [and_iff_left hresult, hreturns, Accepts, InGrammar, Nat.zero_add]
  constructor
  · rintro h ⟨hfull, hlast, hall⟩
    exact (h.2 ⟨hfull.le, hall⟩).2.2 hfull hlast
  · intro h
    refine ⟨fun h' => ⟨h'.1, h'.2.1⟩, fun h' => ⟨h'.1, h'.2, fun hfull hlast => ?_⟩⟩
    exact h ⟨hfull, hlast, h'.2⟩

/-- Sixteen arguments and a space: `"a a a a a a a a a a a a a a a a "`. -/
def sixteenArgs : List UInt8 := (List.replicate 16 [97, 32]).flatten

/-- The line is in the grammar, and only the space at its end makes the parser reject it. -/
theorem parseRequest_rejects :
    InGrammar sixteenArgs ∧ (fields 32 sixteenArgs).length = 16 ∧ parseRequest sixteenArgs = none ∧
      (parseRequest (sixteenArgs.take 31)).isSome := by
  refine ⟨by decide, by decide, ?_, by decide⟩
  rw [parseRequest_eq, if_neg (by decide)]

/-! ## The prompt -/

/-- The lines that the shell parses after `cd`, for `n` calls of `tty_read`. A call that returns
zero is made again. -/
def shellLines : ℕ → List UInt8 → (ℕ → UInt8) → List (List UInt8)
  | 0, _, _ => []
  | n + 1, keys, buf =>
    match Earth.ttyRead 256 keys buf with
    | none => []
    | some ret =>
      if ret.value = 0 then shellLines n ret.keys ret.buf
      else bufString 256 ret.buf :: shellLines n ret.keys ret.buf

/-- The lines that are typed, as the line editor gives them, without the empty ones. -/
def typedLines : ℕ → List UInt8 → List (List UInt8)
  | 0, _ => []
  | n + 1, keys =>
    match Earth.editLine 255 keys [] with
    | none => []
    | some (line, rest) => if line = [] then typedLines n rest else line :: typedLines n rest

/-- The shell parses the lines that are typed, up to a null. -/
theorem shellLines_eq (n : ℕ) (keys : List UInt8) (buf : ℕ → UInt8) :
    shellLines n keys buf = (typedLines n keys).map (List.takeWhile (· ≠ 0)) := by
  induction n generalizing keys buf with
  | zero => rfl
  | succ n ih =>
    have hread := Earth.ttyRead_editLine (show 0 < 256 by decide) keys buf
    rw [shellLines, typedLines]
    cases hedit : Earth.editLine 255 keys [] with
    | none =>
      rw [hedit] at hread
      cases htty : Earth.ttyRead 256 keys buf with
      | none => rfl
      | some ret =>
        rw [htty] at hread
        cases hread
    | some edited =>
      rw [hedit] at hread
      cases htty : Earth.ttyRead 256 keys buf with
      | none =>
        rw [htty] at hread
        cases hread
      | some ret =>
        rw [htty] at hread
        obtain ⟨line, rest⟩ := edited
        obtain ⟨hkeys, hreads⟩ := Option.rel_some_some.1 hread
        simp only [hreads.value_eq, List.length_eq_zero_iff, ih, hkeys, hreads.bufString_eq]
        split <;> rfl

/-- The requests that the programs behind the shell can take: there is an argument to look at, and
the first one is a name. -/
def InBounds (argc : ℕ) (argv : Argv) : Prop :=
  1 ≤ argc ∧ argc ≤ cmdNargs ∧ cString (argv 0) ≠ []

/-- Every `PROC_SPAWN` request is in bounds. -/
def spawnsInBounds : Protocol SysOp.Res Fatal Unit where
  allows _ o := ∀ topic receiver argc argv,
    o = .send topic receiver (.proc procSpawn argc argv) → InBounds argc argv
  next _ _ _ _ := True
  stops _ _ := True

/-- The tokens of a line are in bounds exactly if it is not all spaces. -/
theorem inBounds_tokens {line : List UInt8} (hnull : 0 ∉ line) (haccepts : Accepts 0 line) :
    InBounds (fields 32 line).length (argvOf (fields 32 line)) ↔ ∃ c ∈ line, c ≠ 32 := by
  constructor
  · rintro ⟨hargc, -, -⟩
    by_contra! hall
    rw [fields_eq_nil_iff.2 hall] at hargc
    exact absurd hargc (by decide)
  · intro h
    obtain ⟨c, v, ts, hc, htokens⟩ := exists_fields_head h
    have hne : c ≠ 0 := by
      rintro rfl
      exact hnull hc
    have hle := haccepts.1
    rw [Nat.zero_add] at hle
    refine ⟨by rw [htokens]; simp, hle, ?_⟩
    have hfirst : argvOf (fields 32 line) 0 0 = c := by rw [htokens]; rfl
    rw [cString, List.range_succ_eq_map, List.map_cons, hfirst,
      List.takeWhile_cons_of_pos (by simpa using hne)]
    exact List.cons_ne_nil _ _

/-- A round of the shell is in bounds just if its line is not blank. -/
theorem shellCommand_inBounds_iff {line : List UInt8} (hnull : 0 ∉ line) (stray : UInt8) :
    (shellCommand line stray).Follows spawnsInBounds (fun _ _ => True) () ↔
      ∃ c ∈ line, c ≠ 32 := by
  rw [shellCommand]
  by_cases hkill : line = killall
  · subst hkill
    refine iff_of_true ⟨?_, fun _ _ _ => trivial⟩ (by decide)
    rintro topic receiver argc argv ⟨⟩
  rw [if_neg hkill, parseRequest_eq]
  by_cases haccepts : Accepts 0 line
  · rw [if_pos haccepts, ← inBounds_tokens hnull haccepts]
    constructor
    · rintro ⟨hsend, -⟩
      exact hsend _ _ _ _ rfl
    · intro hin
      refine ⟨?_, fun _ _ _ => ⟨nofun, fun ⟨sender, reply⟩ _ _ => ?_⟩⟩
      · rintro _ _ _ _ ⟨⟩
        exact hin
      · dsimp only [Prog.bind]
        split_ifs
        · trivial
        · exact ⟨nofun, fun _ _ _ => trivial⟩
        · trivial
  · rw [if_neg haccepts]
    refine iff_of_true trivial ?_
    by_contra! hall
    have hnil := fields_eq_nil_iff.2 hall
    refine haccepts ⟨?_, ?_, ?_⟩ <;> simp [hnil]

/-- The spawn requests of the shell are in bounds for a stream of keys just if every line that is
typed, and not empty, has a byte other than a space before its first null. -/
theorem spawn_requests_iff (keys : List UInt8) (buf : ℕ → UInt8) :
    (∀ n, ∀ line ∈ cd :: shellLines n keys buf, ∀ stray,
      (shellCommand line stray).Follows spawnsInBounds (fun _ _ => True) ()) ↔
      ∀ n, ∀ line ∈ typedLines n keys, ∃ c ∈ line.takeWhile (· ≠ 0), c ≠ 32 := by
  have hnull (line : List UInt8) : 0 ∉ line.takeWhile (· ≠ 0) := fun h => by
    simpa using List.all_eq_true.1 List.all_takeWhile 0 h
  constructor
  · intro h n line hline
    have hmem : line.takeWhile (· ≠ 0) ∈ cd :: shellLines n keys buf := by
      rw [shellLines_eq]
      exact .tail _ (List.mem_map_of_mem hline)
    exact (shellCommand_inBounds_iff (hnull line) 0).1 (h n _ hmem 0)
  · intro h n line hline stray
    rcases List.mem_cons.1 hline with rfl | hline
    · exact (shellCommand_inBounds_iff (by decide) stray).2 (by decide)
    · rw [shellLines_eq] at hline
      obtain ⟨typed, htyped, rfl⟩ := List.mem_map.1 hline
      exact (shellCommand_inBounds_iff (hnull typed) stray).2 (h n typed htyped)

/-- A space and `Enter`: the shell asks for a command without arguments. -/
theorem spawn_request_blank :
    shellLines 1 [0x20, 0x0d] (fun _ => 0) = [[0x20]] ∧ ¬InBounds 0 (argvOf []) ∧
      ∃ k, shellCommand [0x20] 0 =
        .op (.send .command gpidProcess (.proc procSpawn 0 (argvOf []))) k := by
  refine ⟨?_, fun h => absurd h.1 (by decide), ?_⟩
  · rw [shellLines_eq]
    decide
  · rw [shellCommand, if_neg (by decide), parseRequest_eq, if_pos (by decide)]
    exact ⟨_, rfl⟩

end Egos.Apps
