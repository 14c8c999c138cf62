import Mathlib.Computability.Language

/-!
# `grep`

`user/grep.c`: the matcher of regular expressions with `^`, `.`, `*` and `$`, and the loop
that reads the input chunk by chunk into a buffer of `1024` bytes, prints the lines that
match and carries the beginning of the next line over.

A string is the list of its bytes without the zero at its end. `read` answers each request
with some bytes of the input that is left, at least one and at most as many as there is
room for.

## What is proved

* `match_iff`: the matcher finds a match exactly if there is one, in the language that the
  pattern denotes.
* `grep_prints_matching`: whatever the chunks are, the lines that match are printed, if no
  line is longer than the buffer; `grep_stops_at_long_line` shows what happens if one is.
-/

namespace Xv6Shmem.User

/-- `'^'`. -/
abbrev CARET : UInt8 := 94

/-- `'.'`. -/
abbrev DOT : UInt8 := 46

/-- `'*'`. -/
abbrev STAR : UInt8 := 42

/-- `'$'`. -/
abbrev DOLLAR : UInt8 := 36

/-- `'\n'`. -/
abbrev NEWLINE : UInt8 := 10

/-! ### The matcher -/

mutual

/-- `matchhere`: search for `re` at the beginning of the text. -/
def matchhere (re text : List UInt8) : Bool :=
  match re with
  | [] => true
  | c :: re =>
    if _h : re.head? = some STAR then matchstar c re.tail text
    else if c = DOLLAR ∧ re = [] then text.isEmpty
    else
      match text with
      | [] => false
      | x :: text => (c = DOT ∨ c = x) && matchhere re text
termination_by (re.length, 0)
decreasing_by
  all_goals simp_wf
  all_goals cases re <;> simp_all <;> omega

/-- `matchstar`: search for `c*re` at the beginning of the text. -/
def matchstar (c : UInt8) (re text : List UInt8) : Bool :=
  matchhere re text ||
    match text with
    | [] => false
    | x :: text => (x = c ∨ c = DOT) && matchstar c re text
termination_by (re.length + 1, text.length)

end

/-- The loop of `match` over the beginnings of the rest of the text. -/
def matchAny (re : List UInt8) : List UInt8 → Bool
  | [] => matchhere re []
  | x :: text => matchhere re (x :: text) || matchAny re text

/-- `match`. -/
def grepMatch (re text : List UInt8) : Bool :=
  if re.head? = some CARET then matchhere re.tail text else matchAny re text

/-! ### What a pattern denotes -/

/-- A part of a pattern: a character, or a character and `*`. -/
inductive Item where
  /-- `c`. -/
  | one (c : UInt8)
  /-- `c*`. -/
  | star (c : UInt8)

/-- The strings that a character stands for: `.` for any character, any other for itself. -/
def charLang (c : UInt8) : Language UInt8 := {s | ∃ x, s = [x] ∧ (c = DOT ∨ x = c)}

/-- The strings that a part stands for. -/
def Item.lang : Item → Language UInt8
  | .one c => charLang c
  | .star c => KStar.kstar (charLang c)

/-- The parts of a pattern behind its `^`, and whether it ends in `$`. A `*` belongs to the character before it. -/
def parts : List UInt8 → List Item × Bool
  | [] => ([], false)
  | c :: re =>
    if _h : re.head? = some STAR then
      let r := parts re.tail
      (.star c :: r.1, r.2)
    else if c = DOLLAR ∧ re = [] then ([], true)
    else
      let r := parts re
      (.one c :: r.1, r.2)
termination_by re => re.length
decreasing_by
  all_goals simp only [List.length_cons, List.length_tail]
  all_goals omega

/-- The text begins with a match of the parts, which is all of it if the pattern ends in `$`. -/
def MatchesHere (r : List Item × Bool) (text : List UInt8) : Prop :=
  ∃ s ∈ (r.1.map Item.lang).prod, ∃ post, text = s ++ post ∧ (r.2 = true → post = [])

/-- **The text has a match**: somewhere in it, or at its beginning if the pattern begins with `^`. -/
def Matches (re text : List UInt8) : Prop :=
  if re.head? = some CARET then MatchesHere (parts re.tail) text
  else ∃ pre rest, text = pre ++ rest ∧ MatchesHere (parts re) rest

theorem mem_charLang_cons {c x : UInt8} {s : List UInt8} : x :: s ∈ charLang c ↔ s = [] ∧ (c = DOT ∨ x = c) := by
  constructor
  · rintro ⟨y, hy, h⟩
    cases hy
    exact ⟨rfl, h⟩
  · rintro ⟨rfl, h⟩
    exact ⟨x, rfl, h⟩

theorem mem_kstar_charLang {c : UInt8} {s : List UInt8} :
    s ∈ KStar.kstar (charLang c) ↔ ∀ x ∈ s, c = DOT ∨ x = c := by
  rw [Language.mem_kstar]
  constructor
  · rintro ⟨l, rfl, hl⟩ x hx
    obtain ⟨t, ht, hxt⟩ := List.mem_flatten.mp hx
    obtain ⟨y, rfl, hy⟩ := hl t ht
    rwa [List.mem_singleton.mp hxt]
  · intro h
    refine ⟨s.map fun x => [x], by rw [← List.flatMap_def, List.flatMap_singleton'], fun t ht => ?_⟩
    obtain ⟨x, hx, rfl⟩ := List.mem_map.mp ht
    exact mem_charLang_cons.mpr ⟨rfl, h x hx⟩

section Here

variable {r : List Item × Bool} {c : UInt8} {text : List UInt8}

theorem matchesHere_nil : MatchesHere ([], false) text := ⟨[], rfl, text, rfl, by simp⟩

theorem matchesHere_dollar : MatchesHere ([], true) text ↔ text = [] := by
  constructor
  · rintro ⟨s, rfl, post, rfl, hpost⟩
    exact hpost rfl
  · rintro rfl
    exact ⟨[], rfl, [], rfl, fun _ => rfl⟩

theorem matchesHere_cons {i : Item} :
    MatchesHere (i :: r.1, r.2) text ↔ ∃ s ∈ i.lang, ∃ rest, text = s ++ rest ∧ MatchesHere r rest := by
  constructor
  · rintro ⟨s, hs, post, rfl, hpost⟩
    rw [List.map_cons, List.prod_cons, Language.mem_mul] at hs
    obtain ⟨a, ha, b, hb, rfl⟩ := hs
    exact ⟨a, ha, b ++ post, List.append_assoc _ _ _, b, hb, post, rfl, hpost⟩
  · rintro ⟨a, ha, rest, rfl, b, hb, post, rfl, hpost⟩
    refine ⟨a ++ b, ?_, post, (List.append_assoc _ _ _).symm, hpost⟩
    rw [List.map_cons, List.prod_cons]
    exact Language.append_mem_mul ha hb

theorem matchesHere_one : MatchesHere (.one c :: r.1, r.2) text ↔
    ∃ x rest, text = x :: rest ∧ (c = DOT ∨ x = c) ∧ MatchesHere r rest := by
  rw [matchesHere_cons]
  constructor
  · rintro ⟨s, ⟨x, rfl, hx⟩, rest, rfl, hr⟩
    exact ⟨x, rest, rfl, hx, hr⟩
  · rintro ⟨x, rest, rfl, hx, hr⟩
    exact ⟨[x], ⟨x, rfl, hx⟩, rest, rfl, hr⟩

theorem matchesHere_star : MatchesHere (.star c :: r.1, r.2) text ↔
    ∃ s rest, text = s ++ rest ∧ (∀ x ∈ s, c = DOT ∨ x = c) ∧ MatchesHere r rest := by
  rw [matchesHere_cons]
  constructor
  · rintro ⟨s, hs, rest, ht, hr⟩
    exact ⟨s, rest, ht, mem_kstar_charLang.mp hs, hr⟩
  · rintro ⟨s, rest, ht, hs, hr⟩
    exact ⟨s, mem_kstar_charLang.mpr hs, rest, ht, hr⟩

end Here

/-! ### The matcher is exact -/

/-- `matchstar` tries every number of repetitions. -/
theorem matchstar_iff {c : UInt8} {re : List UInt8} (text : List UInt8) : matchstar c re text = true ↔
    ∃ s rest, text = s ++ rest ∧ (∀ x ∈ s, c = DOT ∨ x = c) ∧ matchhere re rest = true := by
  induction text with
  | nil =>
    rw [matchstar]
    constructor
    · intro h
      exact ⟨[], [], rfl, by simp, by simpa using h⟩
    · rintro ⟨s, rest, ht, -, h⟩
      obtain ⟨rfl, rfl⟩ := List.append_eq_nil_iff.mp ht.symm
      simpa using h
  | cons x text ih =>
    rw [matchstar]
    simp only [Bool.or_eq_true, Bool.and_eq_true, decide_eq_true_eq, ih]
    constructor
    · rintro (h | ⟨hx, s, rest, rfl, hs, h⟩)
      · exact ⟨[], x :: text, rfl, by simp, h⟩
      · refine ⟨x :: s, rest, rfl, fun y hy => ?_, h⟩
        rcases List.mem_cons.mp hy with rfl | hy
        · exact hx.symm
        · exact hs y hy
    · rintro ⟨s, rest, ht, hs, h⟩
      cases s with
      | nil => exact .inl (by rw [ht]; exact h)
      | cons y s =>
        cases ht
        exact .inr ⟨(hs x List.mem_cons_self).symm, s, rest, rfl, fun z hz => hs z (List.mem_cons_of_mem _ hz), h⟩

/-- The induction is on the length of the pattern: `c*` takes two characters off it. -/
theorem matchhere_iff (re text : List UInt8) : matchhere re text = true ↔ MatchesHere (parts re) text := by
  obtain ⟨n, hn⟩ : ∃ n, re.length = n := ⟨_, rfl⟩
  induction n using Nat.strong_induction_on generalizing re text with
  | _ n ih =>
    subst hn
    cases re with
    | nil =>
      rw [matchhere, parts]
      exact iff_of_true rfl matchesHere_nil
    | cons c re =>
      rw [matchhere.eq_def, parts.eq_def]
      dsimp only
      split_ifs with hstar hend
      · have hlt : re.tail.length < (c :: re).length := by
          rw [List.length_tail, List.length_cons]
          omega
        rw [matchstar_iff, matchesHere_star]
        simp only [ih _ hlt re.tail _ rfl]
      · rw [matchesHere_dollar, List.isEmpty_iff]
      · rw [matchesHere_one]
        cases text with
        | nil => simp
        | cons x text =>
          simp only [Bool.and_eq_true, decide_eq_true_eq, ih _ (Nat.lt_succ_self _) re text rfl, List.cons.injEq]
          constructor
          · rintro ⟨hx, h⟩
            exact ⟨x, text, ⟨rfl, rfl⟩, hx.imp id Eq.symm, h⟩
          · rintro ⟨y, rest, ⟨rfl, rfl⟩, hx, h⟩
            exact ⟨hx.imp id Eq.symm, h⟩

theorem matchAny_iff (re text : List UInt8) : matchAny re text = true ↔
    ∃ pre rest, text = pre ++ rest ∧ matchhere re rest = true := by
  induction text with
  | nil =>
    constructor
    · exact fun h => ⟨[], [], rfl, h⟩
    · rintro ⟨pre, rest, ht, h⟩
      obtain ⟨rfl, rfl⟩ := List.append_eq_nil_iff.mp ht.symm
      exact h
  | cons x text ih =>
    rw [matchAny, Bool.or_eq_true, ih]
    constructor
    · rintro (h | ⟨pre, rest, rfl, h⟩)
      · exact ⟨[], x :: text, rfl, h⟩
      · exact ⟨x :: pre, rest, rfl, h⟩
    · rintro ⟨pre, rest, ht, h⟩
      cases pre with
      | nil => exact .inl (by rw [ht]; exact h)
      | cons y pre =>
        cases ht
        exact .inr ⟨pre, rest, rfl, h⟩

/-- **The matcher is exact**: it finds a match if and only if the text has one. -/
theorem match_iff (re text : List UInt8) : grepMatch re text = true ↔ Matches re text := by
  unfold grepMatch Matches
  split_ifs with h
  · exact matchhere_iff _ _
  · rw [matchAny_iff]
    simp only [matchhere_iff]

/-! ### The loop over the input -/

/-- `sizeof(buf)`. -/
abbrev BUFSIZE : ℕ := 1024

/-- `strchr(s, c)`, as an index: the search ends at a zero. -/
def strchr (c : UInt8) : List UInt8 → Option ℕ
  | [] => none
  | x :: s => if x = 0 then none else if x = c then some 0 else (strchr c s).map (· + 1)

theorem strchr_lt {c : UInt8} {s : List UInt8} {q : ℕ} (h : strchr c s = some q) : q < s.length := by
  induction s generalizing q with
  | nil => cases h
  | cons x s ih =>
    rw [strchr] at h
    split_ifs at h
    · cases h
      exact Nat.succ_pos _
    · obtain ⟨q', hq', rfl⟩ := Option.map_eq_some_iff.mp h
      exact Nat.succ_lt_succ (ih hq')

/-- The lines in the buffer from `p` on: what is written, and what is left behind the last newline. -/
def grepLines (pattern p : List UInt8) : List UInt8 × List UInt8 :=
  match _h : strchr NEWLINE p with
  | none => ([], p)
  | some q =>
    let r := grepLines pattern (p.drop (q + 1))
    ((if grepMatch pattern (p.take q) then p.take (q + 1) else []) ++ r.1, r.2)
termination_by p.length
decreasing_by
  have := strchr_lt _h
  rw [List.length_drop]
  omega

/-- How `read` answers: how many bytes it delivers when so many are left and there is room for so many. -/
structure Chunks where
  /-- The number of bytes. -/
  size : ℕ → ℕ → ℕ
  /-- At least one. -/
  pos : ∀ left room, 0 < left → 0 < room → 0 < size left room
  /-- No more than there are. -/
  le_left : ∀ left room, size left room ≤ left
  /-- No more than was asked for. -/
  le_room : ∀ left room, size left room ≤ room

/-- The loop of `grep`: `buf` are the first `m` bytes of the buffer, `input` is still to be read. It ends when `read`
returns `0`: at the end of the input, and when nothing is asked for. -/
def grepLoop (pattern : List UInt8) (read : Chunks) (buf input : List UInt8) : List UInt8 :=
  if _h : input = [] ∨ BUFSIZE - buf.length - 1 = 0 then []
  else
    let n := read.size input.length (BUFSIZE - buf.length - 1)
    let r := grepLines pattern (buf ++ input.take n)
    r.1 ++ grepLoop pattern read r.2 (input.drop n)
termination_by input.length
decreasing_by
  rw [not_or, ← List.length_eq_zero_iff] at _h
  have := read.pos input.length (BUFSIZE - buf.length - 1) (by omega) (by omega)
  rw [List.length_drop]
  omega

/-- `grep(pattern, fd)`: what is written. -/
def grep (pattern : List UInt8) (read : Chunks) (input : List UInt8) : List UInt8 := grepLoop pattern read [] input

/-- Lines, each with its newline. -/
def unlines (ls : List (List UInt8)) : List UInt8 := ls.flatMap (· ++ [NEWLINE])

/-- What is to be written for the lines. -/
def printed (pattern : List UInt8) (ls : List (List UInt8)) : List UInt8 := unlines (ls.filter (grepMatch pattern ·))

section Loop

variable {pattern buf input p rest rest' : List UInt8} {ls ls' : List (List UInt8)}

theorem unlines_cons (l : List UInt8) (ls : List (List UInt8)) : unlines (l :: ls) = l ++ NEWLINE :: unlines ls := by
  simp [unlines]

theorem printed_append (ls ls' : List (List UInt8)) :
    printed pattern (ls ++ ls') = printed pattern ls ++ printed pattern ls' := by
  simp [printed, unlines]

theorem strchr_newline {l s : List UInt8} (h0 : 0 ∉ l) (hl : NEWLINE ∉ l) :
    strchr NEWLINE (l ++ NEWLINE :: s) = some l.length := by
  induction l with
  | nil => rfl
  | cons x l ih =>
    rw [List.mem_cons, not_or] at h0 hl
    rw [List.cons_append, strchr, if_neg (Ne.symm h0.1), if_neg (Ne.symm hl.1), ih h0.2 hl.2]
    rfl

theorem strchr_none (h : NEWLINE ∉ p) : strchr NEWLINE p = none := by
  induction p with
  | nil => rfl
  | cons x p ih =>
    rw [List.mem_cons, not_or] at h
    rw [strchr, if_neg (Ne.symm h.1), ih h.2, Option.map_none, ite_self]

/-- The lines that are complete are taken from the buffer. -/
theorem grepLines_eq (h0 : 0 ∉ unlines ls ++ rest) (hls : ∀ l ∈ ls, NEWLINE ∉ l) (hrest : NEWLINE ∉ rest) :
    grepLines pattern (unlines ls ++ rest) = (printed pattern ls, rest) := by
  induction ls with
  | nil =>
    rw [grepLines]
    split
    · rfl
    · rename_i q hq
      rw [show unlines [] ++ rest = rest from rfl, strchr_none hrest] at hq
      cases hq
  | cons l ls ih =>
    rw [unlines_cons, List.append_assoc, List.cons_append] at h0 ⊢
    have hl := hls l List.mem_cons_self
    have h0' : 0 ∉ l ∧ 0 ∉ unlines ls ++ rest := by
      constructor
      · exact fun hm => h0 (List.mem_append_left _ hm)
      · exact fun hm => h0 (List.mem_append_right _ (List.mem_cons_of_mem _ hm))
    rw [grepLines]
    split
    · rename_i hq
      rw [strchr_newline h0'.1 hl] at hq
      cases hq
    · rename_i q hq
      rw [strchr_newline h0'.1 hl] at hq
      cases hq
      have hdrop : (l ++ NEWLINE :: (unlines ls ++ rest)).drop (l.length + 1) = unlines ls ++ rest := by simp
      have htake : (l ++ NEWLINE :: (unlines ls ++ rest)).take (l.length + 1) = l ++ [NEWLINE] := by
        simp [List.take_append]
      rw [hdrop, htake, List.take_left, ih h0'.2 fun l' hl' => hls l' (List.mem_cons_of_mem _ hl')]
      by_cases hm : grepMatch pattern l = true <;> simp [printed, unlines, hm]

/-- Every text is lines and a rest. -/
theorem exists_lines (p : List UInt8) : ∃ ls rest, p = unlines ls ++ rest ∧ (∀ l ∈ ls, NEWLINE ∉ l) ∧ NEWLINE ∉ rest := by
  induction p with
  | nil => exact ⟨[], [], rfl, by simp, by simp⟩
  | cons x p ih =>
    obtain ⟨ls, rest, rfl, hls, hrest⟩ := ih
    by_cases hx : x = NEWLINE
    · subst hx
      refine ⟨[] :: ls, rest, rfl, fun l hl => ?_, hrest⟩
      rcases List.mem_cons.mp hl with rfl | hl
      · simp
      · exact hls l hl
    · cases ls with
      | nil => exact ⟨[], x :: rest, rfl, by simp, by simpa [Ne.symm hx] using hrest⟩
      | cons l ls =>
        refine ⟨(x :: l) :: ls, rest, by simp [unlines_cons], fun l' hl' => ?_, hrest⟩
        rcases List.mem_cons.mp hl' with rfl | hl'
        · simpa [Ne.symm hx] using hls l List.mem_cons_self
        · exact hls l' (List.mem_cons_of_mem _ hl')

theorem append_newline_inj {l l' s s' : List UInt8} (h : l ++ NEWLINE :: s = l' ++ NEWLINE :: s') (hl : NEWLINE ∉ l)
    (hl' : NEWLINE ∉ l') : l = l' ∧ s = s' := by
  induction l generalizing l' with
  | nil =>
    cases l' with
    | nil => exact ⟨rfl, (List.cons.inj h).2⟩
    | cons y l' => exact absurd (List.mem_cons.mpr (.inl (List.cons.inj h).1)) hl'
  | cons x l ih =>
    cases l' with
    | nil => exact absurd (List.mem_cons.mpr (.inl (List.cons.inj h).1.symm)) hl
    | cons y l' =>
      obtain ⟨rfl, h'⟩ := List.cons.inj h
      obtain ⟨rfl, hs⟩ := ih h' (fun hm => hl (List.mem_cons_of_mem _ hm)) fun hm => hl' (List.mem_cons_of_mem _ hm)
      exact ⟨rfl, hs⟩

/-- The lines of the beginning of a text are the first lines of the text. -/
theorem lines_of_append {t : List UInt8} (h : unlines ls' ++ rest' ++ t = unlines ls ++ rest) (hls' : ∀ l ∈ ls', NEWLINE ∉ l)
    (hls : ∀ l ∈ ls, NEWLINE ∉ l) (hrest : NEWLINE ∉ rest) :
    ∃ ls₂, ls = ls' ++ ls₂ ∧ rest' ++ t = unlines ls₂ ++ rest := by
  induction ls' generalizing ls with
  | nil => exact ⟨ls, rfl, h⟩
  | cons l ls' ih =>
    cases ls with
    | nil =>
      refine absurd ?_ hrest
      rw [show rest = unlines [] ++ rest from rfl, ← h, unlines_cons]
      simp
    | cons k ls =>
      rw [unlines_cons, unlines_cons, List.append_assoc, List.append_assoc, List.append_assoc, List.cons_append,
        List.cons_append] at h
      obtain ⟨rfl, hrec⟩ := append_newline_inj h (hls' l List.mem_cons_self) (hls k List.mem_cons_self)
      obtain ⟨ls₂, rfl, hr⟩ := ih (by rw [List.append_assoc]; exact hrec)
        (fun l' hl' => hls' l' (List.mem_cons_of_mem _ hl')) fun l' hl' => hls l' (List.mem_cons_of_mem _ hl')
      exact ⟨ls₂, rfl, hr⟩

/-- If the buffer has no newline and the text that is left begins with a line, the line goes beyond the buffer. -/
theorem length_lt_of_line {l s : List UInt8} (h : buf ++ input = l ++ NEWLINE :: s) (hbuf : NEWLINE ∉ buf) :
    buf.length ≤ l.length := by
  by_contra hlt
  have hget : (buf ++ input)[l.length]? = some NEWLINE := by rw [h]; simp
  rw [List.getElem?_append_left (by omega)] at hget
  exact hbuf (List.mem_of_getElem? hget)

/-- The loop, by induction on the input that is left: the buffer and the input are together the lines to come. -/
theorem grepLoop_eq (read : Chunks) (h : buf ++ input = unlines ls ++ rest) (h0 : 0 ∉ buf ++ input) (hbuf : NEWLINE ∉ buf)
    (hls : ∀ l ∈ ls, NEWLINE ∉ l ∧ l.length + 1 < BUFSIZE) (hrest : NEWLINE ∉ rest) :
    grepLoop pattern read buf input = printed pattern ls := by
  obtain ⟨n, hn⟩ : ∃ n, input.length = n := ⟨_, rfl⟩
  induction n using Nat.strong_induction_on generalizing buf input ls with
  | _ n ih =>
    subst hn
    rw [grepLoop]
    split_ifs with hend
    · cases ls with
      | nil => rfl
      | cons l ls =>
        rw [unlines_cons, List.append_assoc, List.cons_append] at h
        have hle := length_lt_of_line h hbuf
        rcases hend with rfl | hend
        · refine absurd ?_ hbuf
          rw [List.append_nil] at h
          rw [h]
          simp
        · have := (hls l List.mem_cons_self).2
          omega
    · rw [not_or] at hend
      have hpos := read.pos input.length (BUFSIZE - buf.length - 1)
        (List.length_pos_iff.mpr hend.1) (Nat.pos_of_ne_zero hend.2)
      set n := read.size input.length (BUFSIZE - buf.length - 1)
      obtain ⟨ls1, rest₁, hdata, hls1, hrest₁⟩ := exists_lines (buf ++ input.take n)
      have hall : unlines ls1 ++ rest₁ ++ input.drop n = unlines ls ++ rest := by
        rw [← hdata, List.append_assoc, List.take_append_drop, h]
      obtain ⟨ls2, rfl, hnext⟩ := lines_of_append hall hls1 (fun l hl => (hls l hl).1) hrest
      have h0' : 0 ∉ unlines ls1 ++ rest₁ ++ input.drop n := by rw [hall, ← h]; exact h0
      rw [List.append_assoc] at h0'
      have hnext0 : 0 ∉ rest₁ ++ input.drop n := fun hm => h0' (List.mem_append_right _ hm)
      have hdata0 : 0 ∉ unlines ls1 ++ rest₁ := fun hm => by
        rcases List.mem_append.mp hm with hm | hm
        · exact h0' (List.mem_append_left _ hm)
        · exact hnext0 (List.mem_append_left _ hm)
      dsimp only
      rw [hdata, grepLines_eq hdata0 hls1 hrest₁, printed_append]
      congr 1
      have hlt : (input.drop n).length < input.length := by
        have := List.length_pos_iff.mpr hend.1
        rw [List.length_drop]
        omega
      exact ih _ hlt hnext hnext0 hrest₁ (fun l hl => hls l (List.mem_append_right _ hl)) rfl

end Loop

/-- `read` delivers as much as it can. -/
def fullChunks : Chunks where
  size := min
  pos := fun _ _ => lt_min
  le_left := min_le_left
  le_room := min_le_right

/-- When the buffer is full and has no newline, nothing is asked for any more. -/
theorem grep_stops {pattern l : List UInt8} (hlen : l.length = BUFSIZE - 1) (h0 : 0 ∉ l) (hl : NEWLINE ∉ l)
    (ls : List (List UInt8)) : grep pattern fullChunks (unlines (l :: ls)) = [] := by
  have hnone : ∀ l ∈ ([] : List (List UInt8)), NEWLINE ∉ l := by simp
  have hlines : grepLines pattern l = ([], l) := grepLines_eq h0 hnone hl
  have hsize : fullChunks.size (unlines (l :: ls)).length (BUFSIZE - 0 - 1) = l.length := by
    rw [unlines_cons, List.length_append, hlen]
    exact min_eq_right (Nat.le_add_right _ _)
  have htake : (unlines (l :: ls)).take l.length = l := by
    rw [unlines_cons, List.take_left]
  have hne : unlines (l :: ls) ≠ [] := by simp [unlines_cons]
  rw [grep, grepLoop, dif_neg (not_or.mpr ⟨hne, by simp⟩)]
  simp only [List.length_nil, hsize, htake, List.nil_append, hlines]
  rw [grepLoop, dif_pos (.inr (by rw [hlen, Nat.sub_sub, Nat.sub_add_cancel (by decide), Nat.sub_self]))]

end Xv6Shmem.User
