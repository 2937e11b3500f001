import Egos.Apps.Servers

/-!
# Directory lookup

A directory is a text: each entry is a name, spaces, an inode number in decimal and one space.
`dir_do_lookup` does not take the text apart but looks for its argument as a word between spaces, so
that it also finds the words that are inode numbers.
-/

namespace Egos.Apps

open Egos.File (Block)

/-! ## Words

A text in which every word is followed by one space; more than one space in a row is an empty word
in between. -/

/-- The text of a list of words. -/
def wordsText (ws : List (List UInt8)) : List UInt8 := ws.flatMap fun w => w ++ [32]

/-- No words, no text. -/
@[simp] theorem wordsText_nil : wordsText [] = [] := rfl

/-- The first word, a space and the others. -/
@[simp] theorem wordsText_cons (w : List UInt8) (ws : List (List UInt8)) :
    wordsText (w :: ws) = w ++ 32 :: wordsText ws := by
  rw [wordsText, List.flatMap_cons, List.append_assoc]
  rfl

/-- The words that come after the first word equal to `name`. -/
def wordsAfter (name : List UInt8) : List (List UInt8) → Option (List (List UInt8))
  | [] => none
  | w :: ws => if w = name then some ws else wordsAfter name ws

/-- A text starts with `name` and a space just if its first word is `name`. -/
theorem take_word_iff {name w : List UInt8} (post : List UInt8) (hname : 32 ∉ name) (hw : 32 ∉ w) :
    (w ++ 32 :: post).take name.length = name ∧ (w ++ 32 :: post)[name.length]? = some 32 ↔
      w = name := by
  induction name generalizing w with
  | nil =>
    cases w with
    | nil => simp
    | cons b w => simpa using fun h : b = 32 => hw (h ▸ List.mem_cons_self)
  | cons c name ih =>
    have hname' := List.not_mem_of_not_mem_cons hname
    cases w with
    | nil => simpa using fun h : 32 = c => absurd (h ▸ List.mem_cons_self) hname
    | cons b w =>
      have hrest := ih hname' (List.not_mem_of_not_mem_cons hw)
      simp only [List.cons_append, List.length_cons, List.take_succ_cons, List.cons.injEq,
        List.getElem?_cons_succ, and_assoc, hrest]

/-- A byte that is a space is within the text. -/
theorem getD_eq_space {l : List UInt8} {i : ℕ} : l.getD i 0 = 32 ↔ l[i]? = some 32 := by
  rw [List.getD_eq_getElem?_getD]
  cases l[i]? with
  | none => simp
  | some c => simp

/-- Within a word only its first byte is at the start of the text or comes after a space. -/
theorem word_start_iff {pre w post : List UInt8} {t : ℕ}
    (hpre : pre = [] ∨ pre.getLast? = some 32) (hw : 32 ∉ w) (ht : t ≤ w.length) :
    pre.length + t = 0 ∨ (pre ++ (w ++ 32 :: post))[pre.length + t - 1]? = some 32 ↔ t = 0 := by
  constructor
  · rintro (h | h)
    · omega
    · by_contra hne
      rw [List.getElem?_append_right (by omega), List.getElem?_append_left (by omega)] at h
      exact hw (List.mem_of_getElem? h)
  · rintro rfl
    rcases hpre with rfl | hlast
    · exact .inl rfl
    · right
      rw [List.getLast?_eq_getElem?] at hlast
      rwa [Nat.add_zero, List.getElem?_append_left (List.getElem?_eq_some_iff.1 hlast).1]

/-- Within a word, the loop matches at its start only, if it is the whole word. -/
theorem dirMatch_word {pre w name : List UInt8} {t : ℕ} (post : List UInt8)
    (hpre : pre = [] ∨ pre.getLast? = some 32) (hw : 32 ∉ w) (hname : 32 ∉ name)
    (ht : t ≤ w.length) :
    dirMatch (pre ++ (w ++ 32 :: post)) name (pre.length + t) = true ↔ t = 0 ∧ w = name := by
  have hdrop : (pre ++ (w ++ 32 :: post)).drop (pre.length + t) = w.drop t ++ 32 :: post := by
    rw [List.drop_append, List.drop_of_length_le (by omega), List.nil_append,
      Nat.add_sub_cancel_left, List.drop_append_of_le_length ht]
  have hword := take_word_iff (w := w.drop t) post hname fun h => hw (List.mem_of_mem_drop h)
  rw [← hdrop, List.getElem?_drop] at hword
  simp only [dirMatch, Bool.and_eq_true, Bool.or_eq_true, decide_eq_true_eq, getD_eq_space, hword,
    word_start_iff hpre hw ht]
  constructor
  · rintro ⟨h, rfl⟩
    exact ⟨rfl, h⟩
  · rintro ⟨rfl, h⟩
    exact ⟨h, rfl⟩

/-- The loop goes on over positions without a match. -/
theorem dirLoop_skip {buf name : List UInt8} (m n i : ℕ)
    (h : ∀ t < m, dirMatch buf name (i + t) = false) :
    dirLoop buf name n i = dirLoop buf name (n - m) (i + m) := by
  induction m generalizing n i with
  | zero => rfl
  | succ m ih =>
    cases n with
    | zero => rw [Nat.zero_sub, dirLoop, dirLoop]
    | succ n =>
      have hi := h 0 (by omega)
      rw [Nat.add_zero] at hi
      rw [dirLoop, hi, if_neg Bool.false_ne_true, ih n (i + 1), Nat.add_sub_add_right]
      · congr 1
        omega
      · intro t ht
        rw [Nat.add_assoc, Nat.add_comm 1 t]
        exact h (t + 1) (by omega)

/-- The loop finds the first word equal to `name` and reads a number from what comes after it. -/
theorem dirLoop_words {ws : List (List UInt8)} {name : List UInt8} (pre post : List UInt8)
    (hpre : pre = [] ∨ pre.getLast? = some 32) (hws : ∀ w ∈ ws, 32 ∉ w) (hname : 32 ∉ name) :
    dirLoop (pre ++ (wordsText ws ++ post)) name ((wordsText ws).length - name.length) pre.length =
      ((wordsAfter name ws).map fun ws' => atoi (32 :: (wordsText ws' ++ post))).getD (-1) := by
  induction ws generalizing pre with
  | nil => simp [wordsAfter, dirLoop]
  | cons w ws ih =>
    have hw := hws w List.mem_cons_self
    have hmatch (t : ℕ) (ht : t ≤ w.length) :=
      dirMatch_word (wordsText ws ++ post) hpre hw hname ht
    simp only [wordsText_cons, List.append_assoc, List.cons_append, wordsAfter]
    by_cases heq : w = name
    · subst heq
      obtain ⟨n, hn⟩ : ∃ n, (w ++ 32 :: wordsText ws).length - w.length = n + 1 :=
        ⟨(wordsText ws).length, by simp⟩
      have hfound := (hmatch 0 (by omega)).2 ⟨rfl, rfl⟩
      rw [Nat.add_zero] at hfound
      rw [hn, dirLoop, if_pos hfound, if_pos rfl, Option.map_some, Option.getD_some,
        List.drop_append, List.drop_of_length_le (by omega), List.nil_append,
        Nat.add_sub_cancel_left, List.drop_left]
    · have hnone (t : ℕ) (ht : t < w.length + 1) := Bool.eq_false_iff.2
        fun h => heq ((hmatch t (by omega)).1 h).2
      rw [dirLoop_skip (w.length + 1) _ _ hnone, if_neg heq,
        ← ih (pre ++ (w ++ [32])) (.inr (by simp)) fun w' h => hws w' (.tail _ h)]
      simp only [List.append_assoc, List.length_append, List.length_cons, List.cons_append,
        List.nil_append, List.length_nil]
      congr 1
      omega

/-! ## Numbers -/

/-- The digits end at a byte that is none. -/
theorem digits_append (s : List UInt8) {rest : List UInt8}
    (hrest : ∀ c ∈ rest.head?, ¬(48 ≤ c ∧ c ≤ 57)) (n : ℕ) :
    digits (s ++ rest) n = digits s n := by
  induction s generalizing n with
  | nil =>
    cases rest with
    | nil => rfl
    | cons c rest =>
      have hc := hrest c rfl
      simp [digits, hc]
  | cons d s ih =>
    rw [List.cons_append, digits, digits]
    split
    · exact ih _
    · rfl

/-- The number ends before the null. -/
theorem leadingNumber_append_null (s rest : List UInt8) :
    leadingNumber (s ++ 0 :: rest) = leadingNumber s := by
  have hdrop : (s ++ 0 :: rest).dropWhile isSpace = s.dropWhile isSpace ++ 0 :: rest := by
    induction s with
    | nil => rfl
    | cons c s ih =>
      by_cases hc : isSpace c <;> simp [hc, ih]
  simp only [leadingNumber, hdrop]
  cases s.dropWhile isSpace with
  | nil => rfl
  | cons c t =>
    have hnull : ∀ c ∈ (0 :: rest).head?, ¬((48 : UInt8) ≤ c ∧ c ≤ 57) := by
      rintro _ ⟨⟩
      decide
    have hdigits := digits_append t hnull 0
    have hdigits' := digits_append (c :: t) hnull 0
    rw [List.cons_append] at hdigits' ⊢
    simp only [List.head?_cons, List.tail_cons, Option.some.injEq, hdigits, hdigits']

/-- `atoi` stops at the null. -/
theorem atoi_append_null (s rest : List UInt8) : atoi (s ++ 0 :: rest) = atoi s :=
  congrArg asInt (leadingNumber_append_null s rest)

/-- A space in front of a string does not matter. -/
theorem atoi_space (s : List UInt8) : atoi (32 :: s) = atoi s := rfl

/-- A number is its own value as an `int` just if it is not too large. -/
theorem asInt_natCast_iff {n : ℕ} : asInt n = n ↔ n < 2 ^ 31 := by
  rw [asInt, Int.bmod_def]
  split <;> omega

/-- A text starts with the number `v` in decimal, as `strtol` understands it: after white space, a
sign that may be missing and the digits up to the first byte that is none. Where there are no digits
the number is 0. -/
def StartsWith (text : List UInt8) (v : ℤ) : Prop :=
  ∃ blanks sign num rest, text = blanks ++ (sign ++ (num ++ rest)) ∧
    (∀ c ∈ blanks, isSpace c = true) ∧ (∀ c ∈ num, 48 ≤ c ∧ c ≤ 57) ∧
    (∀ c ∈ rest.head?, ¬ (48 ≤ c ∧ c ≤ 57)) ∧
    (sign = [45] ∧ v = -digits num 0 ∨ sign = [43] ∧ v = digits num 0 ∨
      sign = [] ∧ v = digits num 0 ∧
        (num = [] → ∀ c ∈ rest.head?, isSpace c = false ∧ c ≠ 45 ∧ c ≠ 43))

/-- A digit is neither white space nor a sign. -/
theorem isSpace_of_digit {c : UInt8} (hc : 48 ≤ c ∧ c ≤ 57) :
    isSpace c = false ∧ c ≠ 45 ∧ c ≠ 43 := by
  have hne (d : UInt8) (hd : d < 48) : c ≠ d := by
    rintro rfl
    exact absurd hc.1 (UInt8.not_le.2 hd)
  refine ⟨?_, hne 45 (by decide), hne 43 (by decide)⟩
  simp only [isSpace, Bool.or_eq_false_iff, decide_eq_false_iff_not, Bool.and_eq_false_iff]
  exact ⟨hne 32 (by decide), .inr fun h => absurd (UInt8.le_trans hc.1 h) (by decide)⟩

/-- `atoi` reads digits up to a space. -/
theorem atoi_digits {num : List UInt8} (hne : num ≠ []) (hnum : ∀ c ∈ num, 48 ≤ c ∧ c ≤ 57)
    (post : List UInt8) : atoi (num ++ 32 :: post) = asInt (digits num 0) := by
  obtain ⟨c, cs, rfl⟩ := List.exists_cons_of_ne_nil hne
  obtain ⟨hspace, h45, h43⟩ := isSpace_of_digit (hnum c List.mem_cons_self)
  have hend : ∀ c ∈ (32 :: post).head?, ¬((48 : UInt8) ≤ c ∧ c ≤ 57) := by
    rintro _ ⟨⟩
    decide
  have hdigits := digits_append (c :: cs) hend 0
  rw [List.cons_append] at hdigits ⊢
  simp only [atoi, leadingNumber, List.dropWhile_cons, hspace, Bool.false_eq_true, if_false,
    List.head?_cons, Option.some.injEq, h45, h43, hdigits]

/-- White space in front of a byte that is none. -/
theorem dropWhile_blanks {blanks t : List UInt8} (hblanks : ∀ c ∈ blanks, isSpace c = true)
    (ht : ∀ c ∈ t.head?, isSpace c = false) : (blanks ++ t).dropWhile isSpace = t := by
  rw [List.dropWhile_append_of_pos hblanks]
  cases t with
  | nil => rfl
  | cons c t => exact List.dropWhile_cons_of_neg (by simp [ht c rfl])

/-- A text is the digits at its start and the rest, which starts with no digit. -/
theorem exists_digits_append (t : List UInt8) :
    ∃ num rest, t = num ++ rest ∧ (∀ c ∈ num, 48 ≤ c ∧ c ≤ 57) ∧
      (∀ c ∈ rest.head?, ¬(48 ≤ c ∧ c ≤ 57)) ∧ digits t 0 = digits num 0 := by
  induction t with
  | nil => exact ⟨[], [], rfl, nofun, nofun, rfl⟩
  | cons c t ih =>
    by_cases hc : 48 ≤ c ∧ c ≤ 57
    · obtain ⟨num, rest, rfl, hnum, hrest, -⟩ := ih
      exact ⟨c :: num, rest, rfl, List.forall_mem_cons.2 ⟨hc, hnum⟩, hrest,
        digits_append (c :: num) hrest 0⟩
    · refine ⟨[], c :: t, rfl, nofun, ?_, by simp [digits, hc]⟩
      rintro _ ⟨⟩
      exact hc

/-- `strtol` reads the number that a text starts with. -/
theorem StartsWith.eq {text : List UInt8} {v : ℤ} (h : StartsWith text v) :
    v = leadingNumber text := by
  obtain ⟨blanks, sign, num, rest, rfl, hblanks, hnum, hrest, hv⟩ := h
  have hdigits : digits (num ++ rest) 0 = digits num 0 := digits_append num hrest 0
  rcases hv with ⟨rfl, rfl⟩ | ⟨rfl, rfl⟩ | ⟨rfl, rfl, hempty⟩
  · rw [leadingNumber, dropWhile_blanks hblanks (by rintro _ ⟨⟩; rfl)]
    simp [hdigits]
  · rw [leadingNumber, dropWhile_blanks hblanks (by rintro _ ⟨⟩; rfl)]
    simp [hdigits]
  · -- without a sign, there is a digit behind the white space, or some byte that is no part of it
    have hhead : ∀ c, (num ++ rest).head? = some c → isSpace c = false ∧ c ≠ 45 ∧ c ≠ 43 := by
      cases num with
      | nil => exact hempty rfl
      | cons d num =>
        rintro _ ⟨⟩
        exact isSpace_of_digit (hnum d List.mem_cons_self)
    rw [List.nil_append, leadingNumber, dropWhile_blanks hblanks fun c hc => (hhead c hc).1,
      if_neg fun h => (hhead 45 h).2.1 rfl, if_neg fun h => (hhead 43 h).2.2 rfl, hdigits]

/-- A text starts with the number that `strtol` reads. -/
theorem startsWith_leadingNumber (text : List UInt8) : StartsWith text (leadingNumber text) := by
  have hblanks : ∀ c ∈ text.takeWhile isSpace, isSpace c = true :=
    List.all_eq_true.1 List.all_takeWhile
  have htext : text = text.takeWhile isSpace ++ text.dropWhile isSpace :=
    List.takeWhile_append_dropWhile.symm
  have hnot := List.head?_dropWhile_not isSpace text
  simp only [leadingNumber]
  generalize text.takeWhile isSpace = blanks at hblanks htext
  generalize text.dropWhile isSpace = t at htext hnot
  have hsign {c : UInt8} (h : t.head? = some c) : t = [c] ++ t.tail := by
    obtain ⟨u, rfl⟩ := List.head?_eq_some_iff.1 h
    rfl
  obtain ⟨num, rest, ht, hnum, hrest, hdigits⟩ := exists_digits_append t.tail
  split
  next h =>
    exact ⟨blanks, [45], num, rest, by rw [htext, hsign h, ht], hblanks, hnum, hrest,
      .inl ⟨rfl, by rw [hdigits]⟩⟩
  next h45 =>
    split
    next h =>
      exact ⟨blanks, [43], num, rest, by rw [htext, hsign h, ht], hblanks, hnum, hrest,
        .inr (.inl ⟨rfl, by rw [hdigits]⟩)⟩
    next h43 =>
      obtain ⟨num, rest, ht, hnum, hrest, hdigits⟩ := exists_digits_append t
      refine ⟨blanks, [], num, rest, by rw [htext, ht]; rfl, hblanks, hnum, hrest,
        .inr (.inr ⟨rfl, by rw [hdigits], ?_⟩)⟩
      rintro rfl c hc
      rw [List.nil_append] at ht
      subst ht
      rw [Option.mem_def.1 hc] at hnot
      exact ⟨hnot, fun he => h45 (he ▸ hc), fun he => h43 (he ▸ hc)⟩

/-! ## Entries -/

/-- An entry of a directory; `gap` is the number of spaces after the first one. -/
structure Entry where
  name : List UInt8
  gap : ℕ
  num : List UInt8
  name_ne_nil : name ≠ []
  name_no_space : 32 ∉ name
  name_no_null : 0 ∉ name
  num_ne_nil : num ≠ []
  num_digits : ∀ c ∈ num, 48 ≤ c ∧ c ≤ 57

namespace Entry

/-- The words of an entry. -/
def words (e : Entry) : List (List UInt8) := e.name :: (List.replicate e.gap [] ++ [e.num])

/-- The inode number. -/
def ino (e : Entry) : ℕ := digits e.num 0

/-- Inode numbers have digits only. -/
theorem not_mem_num (e : Entry) {c : UInt8} (hc : c < 48) : c ∉ e.num := fun h =>
  absurd (e.num_digits c h).1 (UInt8.not_le.2 hc)

/-- The words of an entry have neither spaces nor nulls. -/
theorem not_mem_words {e : Entry} {w : List UInt8} (hw : w ∈ e.words) : 32 ∉ w ∧ 0 ∉ w := by
  simp only [words, List.mem_cons, List.mem_append, List.mem_replicate, List.not_mem_nil,
    or_false] at hw
  rcases hw with rfl | ⟨-, rfl⟩ | rfl
  · exact ⟨e.name_no_space, e.name_no_null⟩
  · exact ⟨List.not_mem_nil, List.not_mem_nil⟩
  · exact ⟨e.not_mem_num (by decide), e.not_mem_num (by decide)⟩

/-- What `atoi` reads after the name of an entry. -/
theorem atoi_after_name (e : Entry) (ws : List (List UInt8)) (post : List UInt8) :
    atoi (32 :: (wordsText (List.replicate e.gap [] ++ e.num :: ws) ++ post)) = asInt e.ino := by
  rw [atoi_space]
  induction e.gap with
  | zero =>
    simp only [List.replicate_zero, List.nil_append, wordsText_cons, List.append_assoc,
      List.cons_append]
    exact atoi_digits e.num_ne_nil e.num_digits _
  | succ k ih =>
    rw [List.replicate_succ, List.cons_append, wordsText_cons, List.nil_append, List.cons_append,
      atoi_space, ih]

end Entry

/-- The text of a directory. -/
def dirText (es : List Entry) : List UInt8 := wordsText (es.flatMap Entry.words)

/-- The inode number of the first entry with a name as an `int`, or `-1`. -/
def entryIno (name : List UInt8) : List Entry → ℤ
  | [] => -1
  | e :: es => if e.name = name then asInt e.ino else entryIno name es

/-- If the first word of the text that equals `name` is an inode number, the entries after it. -/
def numberFirst (name : List UInt8) : List Entry → Option (List Entry)
  | [] => none
  | e :: es =>
    if e.name = name then none else if e.num = name then some es else numberFirst name es

/-- The right result `r` of a lookup. -/
def Exact (es : List Entry) (name : List UInt8) (r : ℤ) : Prop :=
  (∀ e ∈ es, e.name = name → r = e.ino) ∧ ((∀ e ∈ es, e.name ≠ name) → r = -1)

/-- An entry whose number is an `int` is looked up exactly. -/
theorem exact_entryIno_iff {es : List Entry} (hdist : es.Pairwise (·.name ≠ ·.name))
    (name : List UInt8) :
    Exact es name (entryIno name es) ↔ ∀ e ∈ es, e.name = name → e.ino < 2 ^ 31 := by
  have hfound : ∀ e ∈ es, e.name = name → entryIno name es = asInt e.ino := by
    induction es with
    | nil => exact nofun
    | cons d es ih =>
      obtain ⟨hne, hdist⟩ := List.pairwise_cons.1 hdist
      intro e he hname
      rw [entryIno]
      rcases List.mem_cons.1 he with rfl | hmem
      · exact if_pos hname
      · rw [if_neg (hname ▸ hne e hmem)]
        exact ih hdist e hmem hname
  have hnone : (∀ e ∈ es, e.name ≠ name) → entryIno name es = -1 := by
    clear hfound hdist
    intro hall
    induction es with
    | nil => rfl
    | cons d es ih =>
      rw [entryIno, if_neg (hall d List.mem_cons_self)]
      exact ih fun e he => hall e (.tail _ he)
  constructor
  · intro h e he hname
    exact asInt_natCast_iff.1 ((hfound e he hname).symm.trans (h.1 e he hname))
  · intro h
    exact ⟨fun e he hname => (hfound e he hname).trans (asInt_natCast_iff.2 (h e he hname)), hnone⟩

/-- What the loop finds, in terms of the entries. -/
theorem wordsAfter_entries {name : List UInt8} (hne : name ≠ []) (es : List Entry)
    (post : List UInt8) :
    ((wordsAfter name (es.flatMap Entry.words)).map
      fun ws => atoi (32 :: (wordsText ws ++ post))).getD (-1) =
      match numberFirst name es with
      | some es' => atoi (dirText es' ++ post)
      | none => entryIno name es := by
  have hgap (k : ℕ) (ws : List (List UInt8)) :
      wordsAfter name (List.replicate k [] ++ ws) = wordsAfter name ws := by
    induction k with
    | zero => rfl
    | succ k ih => rw [List.replicate_succ, List.cons_append, wordsAfter, if_neg hne.symm, ih]
  induction es with
  | nil => rfl
  | cons e es ih =>
    rw [List.flatMap_cons, Entry.words, List.cons_append, List.append_assoc, List.singleton_append,
      wordsAfter, numberFirst, entryIno]
    by_cases hname : e.name = name
    · rw [if_pos hname, if_pos hname, if_pos hname]
      exact e.atoi_after_name _ _
    · rw [if_neg hname, if_neg hname, if_neg hname, hgap, wordsAfter]
      by_cases hnum : e.num = name
      · rw [if_pos hnum, if_pos hnum]
        rfl
      · rw [if_neg hnum, if_neg hnum]
        exact ih

/-- The text of a directory has no null. -/
theorem null_not_mem_dirText (es : List Entry) : 0 ∉ dirText es := by
  intro h
  obtain ⟨w, hw, hmem⟩ := List.mem_flatMap.1 h
  obtain ⟨e, -, hwords⟩ := List.mem_flatMap.1 hw
  rcases List.mem_append.1 hmem with hmem | hmem
  · exact (Entry.not_mem_words hwords).2 hmem
  · exact absurd (List.mem_singleton.1 hmem) (by decide)

/-- `strlen` of a string and what is behind its null. -/
theorem strlen_append_null {s : List UInt8} (hs : 0 ∉ s) (rest : List UInt8) :
    strlen (s ++ 0 :: rest) = s.length := by
  have hpos : ∀ c ∈ s, (decide (c ≠ 0)) = true := by
    intro c hc
    simpa using fun h : c = 0 => hs (h ▸ hc)
  rw [strlen, List.takeWhile_append_of_pos hpos, List.takeWhile_cons_of_neg (by decide),
    List.append_nil]

section lookup

variable {es : List Entry} {name : List UInt8} {block : Block} {rest : List UInt8}

/-- The result of `dir_do_lookup`. -/
theorem dirScan_dirText (hne : name ≠ []) (hspace : 32 ∉ name)
    (hlen : name.length < (dirText es).length)
    (hblock : List.ofFn block = dirText es ++ 0 :: rest) :
    dirScan block name = match numberFirst name es with
      | some es' => atoi (dirText es')
      | none => entryIno name es := by
  have hsize : (dirText es).length < 512 := by
    have h : 512 = (dirText es ++ 0 :: rest).length := by rw [← hblock, List.length_ofFn]
    rw [List.length_append, List.length_cons] at h
    omega
  have hwords : ∀ w ∈ es.flatMap Entry.words, 32 ∉ w := by
    intro w hw
    obtain ⟨e, -, hmem⟩ := List.mem_flatMap.1 hw
    exact (Entry.not_mem_words hmem).1
  have hbound : ((dirText es).length + 2 ^ 64 - name.length) % 2 ^ 64 =
      (dirText es).length - name.length := by omega
  have hloop := dirLoop_words [] (0 :: rest) (.inl rfl) hwords hspace
  rw [wordsAfter_entries hne] at hloop
  rw [dirScan, hblock, strlen_append_null (null_not_mem_dirText es), hbound]
  simp only [atoi_append_null] at hloop
  exact hloop

/-- A lookup is exact just in these cases. When the first word equal to the name is the name of an
entry, the number of this entry is an `int`; and there may be no such word. When it is an inode
number, the text of the entries behind it happens to start with the right result. -/
theorem dirScan_exact_iff (hdist : es.Pairwise (·.name ≠ ·.name)) (hne : name ≠ [])
    (hspace : 32 ∉ name) (hlen : name.length < (dirText es).length)
    (hblock : List.ofFn block = dirText es ++ 0 :: rest) :
    Exact es name (dirScan block name) ↔
      (numberFirst name es = none → ∀ e ∈ es, e.name = name → e.ino < 2 ^ 31) ∧
      ∀ es', numberFirst name es = some es' → ∃ v, StartsWith (dirText es') v ∧
        (∀ e ∈ es, e.name = name → asInt v = e.ino) ∧
        ((∀ e ∈ es, e.name ≠ name) → asInt v = -1) := by
  rw [dirScan_dirText hne hspace hlen hblock]
  cases numberFirst name es with
  | none =>
    rw [exact_entryIno_iff hdist]
    exact ⟨fun h => ⟨fun _ => h, nofun⟩, fun h => h.1 rfl⟩
  | some es' =>
    refine ⟨fun h => ⟨nofun, ?_⟩, fun h => ?_⟩
    · rintro _ ⟨⟩
      exact ⟨_, startsWith_leadingNumber _, h⟩
    · obtain ⟨v, hv, h⟩ := h.2 es' rfl
      rw [hv.eq] at h
      exact h

end lookup

/-- A block that holds a text, with nulls behind it. -/
def textBlock (text : List UInt8) : Block := fun j => text.getD j 0

/-- A block with a text: the text, a null and the rest. -/
theorem ofFn_textBlock (text : List UInt8) (h : text.length < 512) :
    List.ofFn (textBlock text) = text ++ 0 :: List.replicate (511 - text.length) 0 := by
  refine List.ext_getElem? fun j => ?_
  rw [List.getElem?_ofFn, ← List.replicate_succ]
  split
  next hj =>
    have hbyte : textBlock text ⟨j, hj⟩ = text[j]?.getD 0 := List.getD_eq_getElem?_getD
    rw [hbyte]
    by_cases hlt : j < text.length
    · rw [List.getElem?_append_left hlt, List.getElem?_eq_getElem hlt, Option.getD_some]
    · have hrep : j - text.length < 511 - text.length + 1 := by
        change j < 512 at hj
        omega
      rw [List.getElem?_append_right (by omega), List.getElem?_eq_none (by omega),
        List.getElem?_replicate, if_pos hrep, Option.getD_none]
  next hj =>
    change ¬j < 512 at hj
    rw [List.getElem?_eq_none]
    rw [List.length_append, List.length_replicate]
    omega

/-- The root directory of `mkfs`: `"./   0 ../   0 home/   1 bin/   6 "`. -/
def rootEntries : List Entry :=
  [⟨[46, 47], 2, [48], by decide, by decide, by decide, by decide,
      List.forall_mem_singleton.2 (by decide)⟩,
   ⟨[46, 46, 47], 2, [48], by decide, by decide, by decide, by decide,
      List.forall_mem_singleton.2 (by decide)⟩,
   ⟨[104, 111, 109, 101, 47], 2, [49], by decide, by decide, by decide, by decide,
      List.forall_mem_singleton.2 (by decide)⟩,
   ⟨binDir, 2, [54], by decide, by decide, by decide, by decide,
      List.forall_mem_singleton.2 (by decide)⟩]

/-- The lookup of `bin/` in the root directory is exact. -/
theorem dirScan_exact_bin :
    Exact rootEntries binDir (dirScan (textBlock (dirText rootEntries)) binDir) := by
  have hfirst : numberFirst binDir rootEntries = none := rfl
  refine (dirScan_exact_iff (by decide) (by decide) (by decide) (by decide)
    (ofFn_textBlock _ (by decide))).2 ⟨fun _ => by decide, ?_⟩
  rw [hfirst]
  exact nofun

/-- There is no `1` in the root directory, but it is the inode number of `home/`. -/
theorem dirScan_finds_number :
    rootEntries.Pairwise (·.name ≠ ·.name) ∧
      List.ofFn (textBlock (dirText rootEntries)) =
        dirText rootEntries ++ 0 :: List.replicate 477 0 ∧
      dirScan (textBlock (dirText rootEntries)) [49] = 0 ∧
      ¬Exact rootEntries [49] (dirScan (textBlock (dirText rootEntries)) [49]) := by
  have hblock := ofFn_textBlock (dirText rootEntries) (by decide)
  have hscan : dirScan (textBlock (dirText rootEntries)) [49] = 0 := by
    rw [dirScan_dirText (by decide) (by decide) (by decide) hblock]
    decide
  refine ⟨by decide, hblock, hscan, ?_⟩
  rw [hscan]
  exact fun h => absurd (h.2 (by decide)) (by decide)

/-! ## Bounds

The loop once more, with every access to `buf` checked. Nothing stands for an access behind the
block. -/

/-- `DIR_NAME_SIZE` -/
abbrev dirNameSize : ℕ := 32

/-- `!strncmp(name, s, strlen(name))`, where `s` is the rest of the buffer. -/
def strncmp : List UInt8 → List UInt8 → Option Bool
  | [], _ => some true
  | _ :: _, [] => none
  | c :: name, b :: s => if c = b then strncmp name s else some false

/-- `digits`, as long as there are bytes. -/
def digitsChecked : List UInt8 → ℕ → Option ℕ
  | [], _ => none
  | c :: cs, n =>
    if 48 ≤ c && c ≤ 57 then digitsChecked cs (10 * n + (c.toNat - 48)) else some n

/-- The rest of the buffer from the first byte on that is no space. -/
def skipSpaces : List UInt8 → Option (List UInt8)
  | [] => none
  | c :: cs => if isSpace c then skipSpaces cs else some (c :: cs)

/-- `atoi` on the rest of the buffer. -/
def atoiChecked (s : List UInt8) : Option ℤ := do
  let s ← skipSpaces s
  if s.head? = some 45 then return asInt (-(← digitsChecked s.tail 0))
  else if s.head? = some 43 then return asInt (← digitsChecked s.tail 0)
  else return asInt (← digitsChecked s 0)

/-- The condition in the loop; `&&` and `||` only go on to the next access when they have to. -/
def dirMatchChecked (buf name : List UInt8) (i : ℕ) : Option Bool := do
  if ← strncmp name (buf.drop i) then
    if (← buf[i + name.length]?) = 32 then
      if i = 0 then return true else return (← buf[i - 1]?) = 32
    else return false
  else return false

/-- The loop from `i` on, with `n` rounds to go: how many rounds it has made in the end, and the
result. -/
def dirLoopChecked (buf name : List UInt8) : ℕ → ℕ → Option (ℕ × ℤ)
  | 0, i => some (i, -1)
  | n + 1, i => do
    if ← dirMatchChecked buf name i then return (i + 1, ← atoiChecked (buf.drop (i + name.length)))
    else dirLoopChecked buf name n (i + 1)

/-- `dir_do_lookup` after it has read the block. -/
def dirScanChecked (block : Block) (name : List UInt8) : Option (ℕ × ℤ) :=
  let buf := List.ofFn block
  dirLoopChecked buf name ((strlen buf + 2 ^ 64 - name.length) % 2 ^ 64) 0

/-- `strncmp` on a string that is long enough. -/
theorem strncmp_of_le {name s : List UInt8} (h : name.length ≤ s.length) :
    strncmp name s = some (decide (s.take name.length = name)) := by
  induction name generalizing s with
  | nil => rfl
  | cons c name ih =>
    cases s with
    | nil => exact absurd h (by simp)
    | cons b s =>
      rw [strncmp, ih (Nat.le_of_succ_le_succ h), List.length_cons, List.take_succ_cons]
      by_cases hcb : c = b <;> simp [hcb, eq_comm]

/-- A null in the buffer where `name` would be ends the comparison. -/
theorem strncmp_null {name s : List UInt8} {k : ℕ} (hk : s[k]? = some 0) (hlt : k < name.length)
    (hname : 0 ∉ name) : strncmp name s ≠ some true := by
  induction name generalizing s k with
  | nil => exact absurd hlt (Nat.not_lt_zero k)
  | cons c name ih =>
    cases s with
    | nil => exact nofun
    | cons b s =>
      rw [strncmp]
      split
      next h =>
        subst h
        cases k with
        | zero => exact absurd (Option.some.inj hk ▸ List.mem_cons_self) hname
        | succ k => exact ih hk (Nat.lt_of_succ_lt_succ hlt) (List.not_mem_of_not_mem_cons hname)
      next => exact fun h => Bool.false_ne_true (Option.some.inj h)

/-- `atoi` stops at the null at the latest. -/
theorem digitsChecked_of_mem {s : List UInt8} (h : 0 ∈ s) (n : ℕ) :
    digitsChecked s n = some (digits s n) := by
  induction s generalizing n with
  | nil => exact absurd h List.not_mem_nil
  | cons c s ih =>
    rw [digitsChecked, digits]
    split
    next hc =>
      refine ih ((List.mem_cons.1 h).resolve_left ?_) _
      rintro rfl
      exact absurd hc (by decide)
    next => rfl

/-- So does its skipping of spaces. -/
theorem skipSpaces_of_mem {s : List UInt8} (h : 0 ∈ s) :
    skipSpaces s = some (s.dropWhile isSpace) ∧ 0 ∈ s.dropWhile isSpace := by
  induction s with
  | nil => exact absurd h List.not_mem_nil
  | cons c s ih =>
    rw [skipSpaces, List.dropWhile_cons]
    split
    next hc =>
      refine ih ((List.mem_cons.1 h).resolve_left ?_)
      rintro rfl
      exact absurd hc (by decide)
    next => exact ⟨rfl, h⟩

/-- `atoi` stays before a null. -/
theorem atoiChecked_of_mem {s : List UInt8} (h : 0 ∈ s) : atoiChecked s = some (atoi s) := by
  obtain ⟨hskip, hmem⟩ := skipSpaces_of_mem h
  simp only [atoiChecked, atoi, leadingNumber, hskip, Option.bind_eq_bind, Option.bind_some]
  have htail {c : UInt8} (hc : (s.dropWhile isSpace).head? = some c) (hne : c ≠ 0) :
      0 ∈ (s.dropWhile isSpace).tail := by
    obtain ⟨t, ht⟩ := List.head?_eq_some_iff.1 hc
    rw [ht] at hmem ⊢
    exact (List.mem_cons.1 hmem).resolve_left hne.symm
  split
  next hc => rw [digitsChecked_of_mem (htail hc (by decide))]; rfl
  next =>
    split
    next hc => rw [digitsChecked_of_mem (htail hc (by decide))]; rfl
    next => rw [digitsChecked_of_mem hmem]; rfl

/-- A match within the buffer reads no byte behind it. -/
theorem dirMatchChecked_of_lt {buf name : List UInt8} {i : ℕ} (h : i + name.length < buf.length) :
    dirMatchChecked buf name i = some (dirMatch buf name i) := by
  have hget {j : ℕ} (hj : j < buf.length) : buf[j]? = some (buf.getD j 0) := by
    rw [List.getD_eq_getElem?_getD, List.getElem?_eq_getElem hj, Option.getD_some]
  have hbefore : i - 1 < buf.length := by omega
  have hcmp : strncmp name (buf.drop i) = some (decide ((buf.drop i).take name.length = name)) :=
    strncmp_of_le (by rw [List.length_drop]; omega)
  simp only [dirMatchChecked, dirMatch, hcmp, hget h, hget hbefore, Option.bind_eq_bind,
    Option.bind_some]
  by_cases heq : (buf.drop i).take name.length = name <;> simp [heq]
  by_cases hspace : buf[i + name.length]?.getD 0 = 32 <;> simp [hspace]
  by_cases hi : i = 0 <;> simp [hi]

/-- The null that ends a string. -/
theorem getElem?_strlen {s : List UInt8} (h : 0 ∈ s) : s[strlen s]? = some 0 := by
  induction s with
  | nil => exact absurd h List.not_mem_nil
  | cons c s ih =>
    by_cases hc : c = 0
    · subst hc
      rfl
    · have hlen : strlen (c :: s) = strlen s + 1 := by simp [strlen, hc]
      rw [hlen, List.getElem?_cons_succ]
      exact ih ((List.mem_cons.1 h).resolve_left (Ne.symm hc))

/-- While the name ends before the null, the loop stays before the null too. -/
theorem dirLoopChecked_of_le {buf : List UInt8} (name : List UInt8) (hnull : 0 ∈ buf) (n i : ℕ)
    (h : i + n + name.length ≤ strlen buf) :
    ∃ rounds ≤ i + n, dirLoopChecked buf name n i = some (rounds, dirLoop buf name n i) := by
  have hend := getElem?_strlen hnull
  have hlt := (List.getElem?_eq_some_iff.1 hend).1
  induction n generalizing i with
  | zero => exact ⟨i, le_rfl, rfl⟩
  | succ n ih =>
    have hmatch := dirMatchChecked_of_lt (show i + name.length < buf.length by omega)
    simp only [dirLoopChecked, dirLoop, hmatch, Option.bind_eq_bind, Option.bind_some]
    split
    next =>
      have hmem : 0 ∈ buf.drop (i + name.length) := by
        refine List.mem_of_getElem? (i := strlen buf - (i + name.length)) ?_
        rw [List.getElem?_drop, Nat.add_sub_cancel' (by omega), hend]
      rw [atoiChecked_of_mem hmem]
      exact ⟨i + 1, by omega, rfl⟩
    next =>
      obtain ⟨rounds, hle, hrun⟩ := ih (i + 1) (by omega)
      exact ⟨rounds, by omega, hrun⟩

/-- The loop counts its rounds up. -/
theorem le_of_dirLoopChecked {buf name : List UInt8} {n i rounds : ℕ} {r : ℤ}
    (h : dirLoopChecked buf name n i = some (rounds, r)) : i ≤ rounds := by
  induction n generalizing i with
  | zero =>
    cases h
    exact le_rfl
  | succ n ih =>
    rw [dirLoopChecked, Option.bind_eq_bind, Option.bind_eq_some_iff] at h
    obtain ⟨found, -, h⟩ := h
    split at h
    next =>
      rw [Option.bind_eq_bind, Option.bind_eq_some_iff] at h
      obtain ⟨_, -, h⟩ := h
      cases h
      omega
    next =>
      have := ih h
      omega

/-- If the name goes beyond the null from every position up to it, the loop passes the null. -/
theorem dirLoopChecked_overrun {buf name : List UInt8} (hnull : 0 ∈ buf) (hname : 0 ∉ name)
    (hlong : strlen buf < name.length) {n i rounds : ℕ} {r : ℤ} (hn : strlen buf < i + n)
    (h : dirLoopChecked buf name n i = some (rounds, r)) : strlen buf < rounds := by
  induction n generalizing i with
  | zero =>
    have := le_of_dirLoopChecked h
    omega
  | succ n ih =>
    by_cases hi : i ≤ strlen buf
    · have hcmp : strncmp name (buf.drop i) ≠ some true := by
        refine strncmp_null (k := strlen buf - i) ?_ (by omega) hname
        rw [List.getElem?_drop, Nat.add_sub_cancel' hi, getElem?_strlen hnull]
      rw [dirLoopChecked, Option.bind_eq_bind, Option.bind_eq_some_iff] at h
      obtain ⟨found, hfound, h⟩ := h
      have hnot : found = false := by
        rw [dirMatchChecked, Option.bind_eq_bind, Option.bind_eq_some_iff] at hfound
        obtain ⟨eq, heq, hfound⟩ := hfound
        cases eq with
        | true => exact absurd heq hcmp
        | false => exact (Option.some.inj hfound).symm
      rw [hnot, if_neg Bool.false_ne_true] at h
      exact ih (by omega) h
    · have := le_of_dirLoopChecked h
      omega

/-- The checked loop is the loop of the model, when nothing goes wrong. -/
theorem dirScanChecked_of_le {block : Block} {name : List UInt8} (hnull : 0 ∈ List.ofFn block)
    (h : name.length ≤ strlen (List.ofFn block)) :
    ∃ rounds ≤ strlen (List.ofFn block) - name.length,
      dirScanChecked block name = some (rounds, dirScan block name) := by
  have hlt := (List.getElem?_eq_some_iff.1 (getElem?_strlen hnull)).1
  rw [List.length_ofFn] at hlt
  change _ < 512 at hlt
  have hbound : (strlen (List.ofFn block) + 2 ^ 64 - name.length) % 2 ^ 64 =
      strlen (List.ofFn block) - name.length := by omega
  obtain ⟨rounds, hle, hrun⟩ :=
    dirLoopChecked_of_le name hnull (strlen (List.ofFn block) - name.length) 0 (by omega)
  refine ⟨rounds, by omega, ?_⟩
  rw [dirScanChecked, dirScan, hbound]
  exact hrun

/-- The loop stays in the block and within the length of the text just if the name is not longer
than the text: the bound of the loop is unsigned. -/
theorem dirScan_in_block_iff {block : Block} {name : List UInt8} (hnull : ∃ j, block j = 0)
    (hname : 0 ∉ name) (hlen : name.length ≤ dirNameSize - 1) :
    (∃ rounds r, dirScanChecked block name = some (rounds, r) ∧ rounds ≤ strlen (List.ofFn block)) ↔
      name.length ≤ strlen (List.ofFn block) := by
  have hnull' : 0 ∈ List.ofFn block := by
    obtain ⟨j, hj⟩ := hnull
    exact List.mem_ofFn.2 ⟨j, hj⟩
  constructor
  · rintro ⟨rounds, r, hrun, hle⟩
    by_contra hlong
    have hlen' : name.length ≤ 31 := hlen
    refine absurd (dirLoopChecked_overrun hnull' hname (by omega) ?_ hrun) (by omega)
    omega
  · intro h
    obtain ⟨rounds, hle, hrun⟩ := dirScanChecked_of_le hnull' h
    exact ⟨rounds, _, hrun, by omega⟩

/-- The lookup of `bin/` in the root directory stays within the block. -/
theorem dirScan_in_block_bin :
    ∃ rounds r, dirScanChecked (textBlock (dirText rootEntries)) binDir = some (rounds, r) ∧
      rounds ≤ strlen (List.ofFn (textBlock (dirText rootEntries))) := by
  refine (dirScan_in_block_iff ⟨511, by decide⟩ (by decide) (by decide)).2 ?_
  rw [ofFn_textBlock _ (by decide), strlen_append_null (null_not_mem_dirText rootEntries)]
  decide

/-- `/home/rvr` of `mkfs`: `"./   3 ../   1 "`. -/
def rvrEntries : List Entry :=
  [⟨[46, 47], 2, [51], by decide, by decide, by decide, by decide,
      List.forall_mem_singleton.2 (by decide)⟩,
   ⟨[46, 46, 47], 2, [49], by decide, by decide, by decide, by decide,
      List.forall_mem_singleton.2 (by decide)⟩]

/-- With a name whose first byte does not occur in the block, only the bound stops the loop. -/
theorem dirLoopChecked_leaves {buf name : List UInt8} {c : UInt8} (hc : c ∉ buf) {n i : ℕ}
    (hn : buf.length < i + n) (hi : i ≤ buf.length) :
    dirLoopChecked buf (c :: name) n i = none := by
  induction n generalizing i with
  | zero => omega
  | succ n ih =>
    rw [dirLoopChecked, dirMatchChecked]
    cases hdrop : buf.drop i with
    | nil => rfl
    | cons b s =>
      have hb : c ≠ b := by
        rintro rfl
        exact hc (List.mem_of_mem_drop (hdrop ▸ List.mem_cons_self))
      have hlt : i < buf.length := by
        by_contra hge
        rw [List.drop_of_length_le (by omega)] at hdrop
        cases hdrop
      rw [strncmp, if_neg hb]
      exact ih (by omega) (by omega)

/-- In a directory of 15 bytes the lookup of a name of 16 bytes reads on behind the block. -/
theorem dirScan_leaves_block :
    strlen (List.ofFn (textBlock (dirText rvrEntries))) = 15 ∧
      dirScanChecked (textBlock (dirText rvrEntries)) (List.replicate 16 97) = none := by
  have hblock := ofFn_textBlock (dirText rvrEntries) (by decide)
  have hlen : strlen (List.ofFn (textBlock (dirText rvrEntries))) = 15 := by
    rw [hblock, strlen_append_null (null_not_mem_dirText rvrEntries)]
    rfl
  refine ⟨hlen, dirLoopChecked_leaves ?_ ?_ (Nat.zero_le _)⟩
  · rw [hblock, List.mem_append, List.mem_cons, List.mem_replicate]
    decide
  · rw [hlen, List.length_ofFn]
    decide

end Egos.Apps
