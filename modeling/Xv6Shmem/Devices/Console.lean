import Xv6Shmem.Kernel.Table
import Xv6Shmem.Theory.Ring
import Xv6Shmem.Theory.Runs

/-!
# The line discipline of the console

`consoleintr` and `consoleread` of `kernel/console.c` share a ring of `INPUT_BUF_SIZE` characters and
three counters that wrap modulo `2 ^ 32`: what is before `r` has been read, what is before `w` may be
read, and what is between `w` and `e` is the line that is being typed.

## The model

Both functions hold `cons.lock` from their first access to the ring to the last. The handler never
sleeps, so that it is one step, which is taken when the lock is free. A call of `consoleread` is a
program of a process: it takes the lock, goes through the loop, and gives the lock back when it
returns or goes to sleep on `&cons.r`. A sleeper may go on at any time and then waits for the lock; this
covers `wakeup` and `kill`. `uartgetc` gives the handler a byte. The copies to user space succeed. The
echo on the screen and the process list of `C('P')` leave the ring alone.

What the console is for is said by lists, in `Lines`: the text that has been committed, which only
grows, and the line that can still be edited.

## What is proved

* `consoleintr_holds` — the handler edits the line as the lists say.
* `turn_holds` — a turn of the loop takes the first character that is committed.
* `line_discipline` — in every reachable state the counters are in order, and what has been typed is what
  the calls have delivered, and what is in the ring.
-/

namespace Xv6Shmem.Devices

open Function Kernel LTS Ring

/-! ### The source -/

/-- `INPUT_BUF_SIZE`: the size of the ring. -/
def INPUT_BUF_SIZE : ℕ := 128

instance : NeZero INPUT_BUF_SIZE := ⟨by decide⟩

/-- `'\n'`. -/
def newline : UInt8 := 10

/-- `'\r'`. -/
def carriageReturn : UInt8 := 13

/-- `C('D')`: the end of the file. -/
def ctrlD : UInt8 := 4

/-- `C('H')`: backspace. -/
def ctrlH : UInt8 := 8

/-- `C('P')`: the process list is printed. -/
def ctrlP : UInt8 := 16

/-- `C('U')`: the line is killed. -/
def ctrlU : UInt8 := 21

/-- `'\x7f'`: the delete key. -/
def delete : UInt8 := 127

/-- `cons`, without its lock. -/
structure Cons where
  buf : Fin INPUT_BUF_SIZE → UInt8
  /-- Read index. -/
  r : UInt32
  /-- Write index. -/
  w : UInt32
  /-- Edit index. -/
  e : UInt32

/-- The loop of `C('U')`. It goes back at most to `w`, which is `e - w` turns. -/
def killLine : ℕ → Cons → Cons
  | 0, k => k
  | m + 1, k =>
    if k.e ≠ k.w ∧ k.buf (cell INPUT_BUF_SIZE (k.e - 1)) ≠ newline then killLine m { k with e := k.e - 1 } else k

/-- The default case of `consoleintr`, when there is room: the character is stored, and a whole line is committed. -/
def store (c : UInt8) (k : Cons) : Cons :=
  let k' := { k with buf := update k.buf (cell INPUT_BUF_SIZE k.e) c, e := k.e + 1 }
  if c = newline ∨ c = ctrlD ∨ k'.e - k'.r = UInt32.ofNat INPUT_BUF_SIZE then { k' with w := k'.e } else k'

/-- `(c == '\r') ? '\n' : c`. -/
def translate (c : UInt8) : UInt8 := if c = carriageReturn then newline else c

/-- `consoleintr`. -/
def consoleintr (c : UInt8) (k : Cons) : Cons :=
  if c = ctrlP then k
  else if c = ctrlU then killLine (k.e - k.w).toNat k
  else if c = ctrlH ∨ c = delete then if k.e ≠ k.w then { k with e := k.e - 1 } else k
  else if c ≠ 0 ∧ k.e - k.r < UInt32.ofNat INPUT_BUF_SIZE then store (translate c) k
  else k

/-- A call of `consoleread`: its local variables, and what it has copied to user space. -/
structure Reader where
  target : UInt32
  n : Int32
  copied : List UInt8

/-- `target - n`, which is what the call returns. -/
def Reader.result (x : Reader) : Int32 := (x.target - x.n.toUInt32).toInt32

/-- How the call goes on. -/
inductive Next where
  /-- The loop goes on. -/
  | loop
  /-- It sleeps on `&cons.r` and releases the lock. -/
  | sleep
  /-- It releases the lock and returns. -/
  | ret (v : Int32)
deriving DecidableEq

/-- A turn of the loop of `consoleread`. After `sleep` only the inner loop starts again, but `n` is still what it was. -/
def turn (killed : Bool) (x : Reader) (k : Cons) : Cons × Reader × Next :=
  if x.n ≤ 0 then (k, x, .ret x.result)
  else if k.r = k.w then if killed then (k, x, .ret (-1)) else (k, x, .sleep)
  else
    let c := k.buf (cell INPUT_BUF_SIZE k.r)
    let k' := { k with r := k.r + 1 }
    if c = ctrlD then
      -- the end of the file is saved for the next call, if this one has something to return
      if x.n.toUInt32 < x.target then ({ k' with r := k'.r - 1 }, x, .ret x.result) else (k', x, .ret x.result)
    else
      let x' := { x with n := x.n - 1, copied := x.copied ++ [c] }
      if c = newline then (k', x', .ret x'.result) else (k', x', .loop)

/-! ### Processes -/

/-- Where a process is. -/
inductive Pc where
  /-- In no call. -/
  | idle
  /-- Before `acquire(&cons.lock)`, at the start of the call or in `sleep`. -/
  | acquiring (x : Reader)
  /-- At the head of the loop. -/
  | looping (x : Reader)
  /-- The call returns `v`. -/
  | returned (x : Reader) (v : Int32)

/-- The console and the processes that read from it. -/
structure ConsoleState where
  cons : Cons
  lock : Option Slot
  pc : Slot → Pc

/-- The steps. -/
inductive Act where
  /-- The handler runs. -/
  | intr (c : UInt8)
  /-- A process calls `consoleread`. -/
  | read (p : Slot) (n : Int32)
  /-- A process takes the lock. -/
  | acquire (p : Slot)
  /-- A process does a turn of the loop; `killed` is what `killed(myproc())` would say. -/
  | turn (p : Slot) (killed : Bool)
  /-- A process is back in user space. -/
  | leave (p : Slot)

/-- The lock and the process after a turn. -/
def ConsoleState.goes (s : ConsoleState) (p : Slot) (k : Cons) (x : Reader) : Next → ConsoleState
  | .loop => ⟨k, s.lock, update s.pc p (.looping x)⟩
  | .sleep => ⟨k, none, update s.pc p (.acquiring x)⟩
  | .ret v => ⟨k, none, update s.pc p (.returned x v)⟩

/-- A step, if it can be taken. -/
def ConsoleState.step (s : ConsoleState) : Act → Option ConsoleState
  | .intr c => if s.lock = none then some { s with cons := consoleintr c s.cons } else none
  | .read p n =>
    match s.pc p with
    | .idle => some { s with pc := update s.pc p (.acquiring ⟨n.toUInt32, n, []⟩) }
    | _ => none
  | .acquire p =>
    match s.pc p with
    | .acquiring x => if s.lock = none then some ⟨s.cons, some p, update s.pc p (.looping x)⟩ else none
    | _ => none
  | .turn p killed =>
    match s.pc p with
    | .looping x =>
      let (k, x', next) := turn killed x s.cons
      some (s.goes p k x' next)
    | _ => none
  | .leave p =>
    match s.pc p with
    | .returned _ _ => some { s with pc := update s.pc p .idle }
    | _ => none

/-- `cons` is zero at boot. -/
def ConsoleState.boot : ConsoleState := ⟨⟨fun _ => 0, 0, 0, 0⟩, none, fun _ => .idle⟩

/-- The console. -/
def consoleMachine : LTS ConsoleState Act := ⟨fun s => s = .boot, fun s a t => s.step a = some t⟩

/-! ### What the console is for -/

/-- What has been typed: the text that is committed, and the line that can still be edited. -/
structure Lines where
  committed : List UInt8
  line : List UInt8

/-- A character is added to the line. The line is committed if it is complete, or `full`. -/
def Lines.add (x : Lines) (c : UInt8) (full : Bool) : Lines :=
  if c = newline ∨ c = ctrlD ∨ full then ⟨x.committed ++ (x.line ++ [c]), []⟩ else { x with line := x.line ++ [c] }

/-- A character is typed, when the last `held` characters of the committed text have not been read yet. -/
def Lines.type (held : ℕ) (c : UInt8) (x : Lines) : Lines :=
  if c = ctrlP then x
  else if c = ctrlU then { x with line := [] }
  else if c = ctrlH ∨ c = delete then { x with line := x.line.dropLast }
  else if c ≠ 0 ∧ held + x.line.length < INPUT_BUF_SIZE then
    x.add (translate c) (held + x.line.length + 1 = INPUT_BUF_SIZE)
  else x

/-- Committed text is never changed. -/
theorem Lines.committed_type (held : ℕ) (c : UInt8) (x : Lines) : x.committed <+: (x.type held c).committed := by
  unfold type add
  split_ifs
  all_goals simp

/-- What a process is given: a byte, or an end of the file. -/
inductive Item where
  | byte (p : Slot) (c : UInt8)
  | eof (p : Slot)
deriving DecidableEq

/-- The character of the text that an item stands for. -/
def Item.char : Item → UInt8
  | .byte _ c => c
  | .eof _ => ctrlD

/-- What a turn gives to its process: the bytes that are new in user space, or an end of the file, which is a call for
at least one byte that returns `0`. -/
def given (p : Slot) (x : Reader) (x' : Reader) (next : Next) : List Item :=
  (x'.copied.drop x.copied.length).map (Item.byte p) ++
    if next = .ret 0 ∧ 0 < x.target.toInt32 then [.eof p] else []

/-- What goes along with a run: what has been typed, and what has been delivered. -/
structure Log where
  typed : Lines
  delivered : List Item

/-- At the start. -/
def Log.empty : Log := ⟨⟨[], []⟩, []⟩

/-- A step. -/
def Log.after (s : ConsoleState) (a : Act) (g : Log) : Log :=
  match a with
  | .intr c => { g with typed := g.typed.type (g.typed.committed.length - g.delivered.length) c }
  | .turn p killed =>
    match s.pc p with
    | .looping x =>
      let (_, x', next) := turn killed x s.cons
      { g with delivered := g.delivered ++ given p x x' next }
    | _ => g
  | _ => g

/-! ### The ring holds the text -/

/-- The ring holds the committed text that has not been read, and then the line. -/
structure Holds (k : Cons) (pending line : List UInt8) : Prop where
  text : window k.buf k.r k.e = pending ++ line
  mid : (k.w - k.r).toNat = pending.length
  le : pending.length + line.length ≤ INPUT_BUF_SIZE
  /-- A full ring is committed. -/
  full : pending.length + line.length = INPUT_BUF_SIZE → line = []
  /-- A complete line is committed. -/
  plain : newline ∉ line

section Ring

variable {k : Cons} {pending line : List UInt8} {c : UInt8}

theorem Holds.length (h : Holds k pending line) : (k.e - k.r).toNat = pending.length + line.length := by
  rw [← length_window k.buf, h.text, List.length_append]

theorem Holds.edited_iff (h : Holds k pending line) : k.e = k.w ↔ line = [] := by
  rw [← toNat_sub_inj (r := k.r), h.length, h.mid]
  simp

theorem Holds.ne_of_line (h : Holds k pending line) (hl : line ≠ []) : k.r ≠ k.e := by
  intro hr
  have hlen := h.length
  have hpos := List.length_pos_iff.mpr hl
  rw [hr, UInt32.sub_self, UInt32.toNat_zero] at hlen
  omega

theorem Holds.erase (h : Holds k pending line) (hl : line ≠ []) :
    Holds { k with e := k.e - 1 } pending line.dropLast ∧ k.buf (cell INPUT_BUF_SIZE (k.e - 1)) ∈ line := by
  have hpos := List.length_pos_iff.mpr hl
  have hcut : pending ++ line = _ := h.text.symm.trans (window_pred k.buf (h.ne_of_line hl))
  have hdrop := congrArg List.dropLast hcut
  rw [List.dropLast_append_of_ne_nil hl, List.dropLast_concat] at hdrop
  have hlast := congrArg List.getLast? hcut
  rw [List.getLast?_append_of_ne_nil _ hl, List.getLast?_concat] at hlast
  refine ⟨⟨hdrop.symm, h.mid, ?_, ?_, ?_⟩, List.mem_of_getLast? hlast⟩
  · have hle := h.le
    rw [List.length_dropLast]
    omega
  · intro hfull
    have hle := h.le
    rw [List.length_dropLast] at hfull
    omega
  · exact fun hmem => h.plain (List.dropLast_subset line hmem)

/-- The line is killed: no newline is in it that would stop the loop. -/
theorem killLine_holds : ∀ {line : List UInt8} {k : Cons}, Holds k pending line → Holds (killLine line.length k) pending [] := by
  intro line
  induction line using List.reverseRecOn with
  | nil => exact fun h => h
  | append_singleton line c ih =>
    intro k h
    have hl : line ++ [c] ≠ [] := by simp
    obtain ⟨herase, hmem⟩ := h.erase hl
    rw [List.dropLast_concat] at herase
    have hgo : k.e ≠ k.w ∧ k.buf (cell INPUT_BUF_SIZE (k.e - 1)) ≠ newline :=
      ⟨fun he => hl (h.edited_iff.mp he), fun he => h.plain (he ▸ hmem)⟩
    rw [List.length_append, List.length_singleton, killLine, if_pos hgo]
    exact ih herase

theorem Holds.length_line (h : Holds k pending line) : (k.e - k.w).toNat = line.length := by
  have hle : (k.w - k.r).toNat ≤ (k.e - k.r).toNat := by
    rw [h.mid, h.length]
    omega
  have hcut := congrArg List.length (window_append k.buf hle)
  simp only [List.length_append, length_window] at hcut
  rw [h.mid, h.length] at hcut
  omega

theorem Holds.room_iff (h : Holds k pending line) :
    k.e - k.r < UInt32.ofNat INPUT_BUF_SIZE ↔ pending.length + line.length < INPUT_BUF_SIZE := by
  rw [UInt32.lt_iff_toNat_lt, h.length]
  rfl

/-- The test for the end of the room. -/
theorem full_iff {r e : UInt32} : e - r = UInt32.ofNat INPUT_BUF_SIZE ↔ (e - r).toNat = INPUT_BUF_SIZE := by
  rw [← UInt32.toNat_inj]
  rfl

theorem Holds.window_store (h : Holds k pending line) (hroom : pending.length + line.length < INPUT_BUF_SIZE) :
    window (update k.buf (cell INPUT_BUF_SIZE k.e) c) k.r (k.e + 1) = pending ++ (line ++ [c]) ∧
      (k.e + 1 - k.r).toNat = pending.length + line.length + 1 := by
  have hsize : INPUT_BUF_SIZE = 128 := rfl
  have hlen := h.length
  constructor
  · rw [window_put (by decide) (by decide) k.buf c (by omega), h.text, List.append_assoc]
  · rw [toNat_succ_sub (by omega), hlen]

/-- **A character is stored** as the lists say. -/
theorem store_holds {done : List UInt8} (h : Holds k pending line) (hroom : pending.length + line.length < INPUT_BUF_SIZE) :
    ∃ pending', Holds (store c k) pending'
      ((Lines.mk (done ++ pending) line).add c (pending.length + line.length + 1 = INPUT_BUF_SIZE)).line ∧
      ((Lines.mk (done ++ pending) line).add c (pending.length + line.length + 1 = INPUT_BUF_SIZE)).committed =
        done ++ pending' := by
  obtain ⟨hwin, hlen⟩ := h.window_store (c := c) hroom
  simp only [store, full_iff, hlen, Lines.add, decide_eq_true_eq]
  split_ifs with hc
  · refine ⟨pending ++ (line ++ [c]), ⟨?_, ?_, ?_, fun _ => rfl, List.not_mem_nil⟩, by simp⟩
    · rw [List.append_nil]
      exact hwin
    · simpa [add_assoc] using hlen
    · simp
      omega
  · simp only [not_or] at hc
    refine ⟨pending, ⟨hwin, h.mid, ?_, ?_, ?_⟩, rfl⟩
    · simp
      omega
    · intro hfull
      refine absurd ?_ hc.2.2
      simpa [add_assoc] using hfull
    · simp [h.plain, Ne.symm hc.1]

/-- **The handler** edits the line, and commits it, as the lists say. -/
theorem consoleintr_holds (done : List UInt8) (h : Holds k pending line) (c : UInt8) :
    ∃ pending', Holds (consoleintr c k) pending' ((Lines.mk (done ++ pending) line).type pending.length c).line ∧
      ((Lines.mk (done ++ pending) line).type pending.length c).committed = done ++ pending' := by
  unfold consoleintr Lines.type
  simp only [h.room_iff, h.length_line]
  split_ifs with hP hU hH he hroom
  · exact ⟨pending, h, rfl⟩
  · exact ⟨pending, killLine_holds h, rfl⟩
  · exact ⟨pending, (h.erase fun hl => he (h.edited_iff.mpr hl)).1, rfl⟩
  · have hl : line = [] := h.edited_iff.mp (not_not.mp he)
    subst hl
    exact ⟨pending, h, rfl⟩
  · exact store_holds h hroom.2
  · exact ⟨pending, h, rfl⟩

/-- The first committed character is taken. -/
theorem Holds.take (h : Holds k pending line) (hr : k.r ≠ k.w) :
    ∃ rest, pending = k.buf (cell INPUT_BUF_SIZE k.r) :: rest ∧ Holds { k with r := k.r + 1 } rest line := by
  have hw := toNat_sub_succ hr
  rw [h.mid] at hw
  cases hp : pending with
  | nil => simp [hp] at hw
  | cons c rest =>
    have hre : k.r ≠ k.e := by
      intro hre
      have hlen := h.length
      rw [hre, UInt32.sub_self, UInt32.toNat_zero, hp, List.length_cons] at hlen
      omega
    have hwin := (window_take k.buf hre).symm.trans h.text
    rw [hp, List.cons_append, List.cons.injEq] at hwin
    have hle := h.le
    rw [hp, List.length_cons] at hle hw
    refine ⟨rest, by rw [hwin.1], ⟨hwin.2, by simpa using hw.symm, by omega, fun hfull => by omega, h.plain⟩⟩

end Ring

/-! ### The readers -/

/-- A call in progress: what it has copied, and what it still asks for, is what it was called for. -/
structure ReaderOk (x : Reader) : Prop where
  count : x.n.toInt + x.copied.length = x.target.toInt32.toInt
  nonneg : x.copied ≠ [] → 0 ≤ x.n.toInt

theorem readerOk_call (n : Int32) : ReaderOk ⟨n.toUInt32, n, []⟩ := by
  constructor
  · simp
  · exact fun h => absurd rfl h

section Readers

variable {x : Reader} {k : Cons} {pending line : List UInt8}

theorem ReaderOk.nonneg_of_pos (h : ReaderOk x) : x.copied.length = 0 ∨ 0 ≤ x.n.toInt := by
  rcases Nat.eq_zero_or_pos x.copied.length with h0 | hpos
  · exact .inl h0
  · exact .inr (h.nonneg (List.length_pos_iff.mp hpos))

/-- The call returns the number of bytes that it has copied. -/
theorem ReaderOk.result (h : ReaderOk x) : x.result.toInt = x.copied.length := by
  have hcount := h.count
  have htarget := x.target.toInt32.toInt_lt
  have hdiff : x.target.toInt32.toInt - x.n.toInt = x.copied.length := by omega
  have hlt : (x.copied.length : ℤ) < 2 ^ 31 := by
    rcases h.nonneg_of_pos with h0 | hn
    · rw [h0]
      decide
    · omega
  rw [Reader.result, UInt32.toInt32_sub, Int32.toInt32_toUInt32, Int32.toInt_sub, hdiff]
  exact Int.bmod_eq_of_le (by omega) (by omega)

theorem ReaderOk.result_eq_zero_iff (h : ReaderOk x) : x.result = 0 ↔ x.copied = [] := by
  rw [← Int32.toInt_inj, h.result]
  simp

/-- The comparison of `n` with `target`, which is one of unsigned numbers. -/
theorem ReaderOk.less_iff (h : ReaderOk x) (hn : 0 < x.n) : x.n.toUInt32 < x.target ↔ x.copied ≠ [] := by
  have hcount := h.count
  have hn' : 0 < x.n.toInt := Int32.lt_iff_toInt_lt.mp hn
  have htarget : 0 ≤ x.target.toInt32 := Int32.le_iff_toInt_le.mpr (by rw [Int32.toInt_zero]; omega)
  have hnat : x.n.toUInt32.toNat = x.n.toInt.toNat := Int32.toNat_toUInt32_of_le (Int32.le_of_lt hn)
  have hnat' : x.target.toNat = x.target.toInt32.toInt.toNat := by
    conv_lhs => rw [← UInt32.toUInt32_toInt32 x.target]
    exact Int32.toNat_toUInt32_of_le htarget
  rw [UInt32.lt_iff_toNat_lt, hnat, hnat', ← List.length_pos_iff]
  omega

theorem ReaderOk.copy (h : ReaderOk x) (hn : 0 < x.n) (c : UInt8) :
    ReaderOk { x with n := x.n - 1, copied := x.copied ++ [c] } := by
  have hn' : 0 < x.n.toInt := Int32.lt_iff_toInt_lt.mp hn
  have hlt := x.n.toInt_lt
  have hpred : (x.n - 1).toInt = x.n.toInt - 1 := by
    rw [Int32.toInt_sub, Int32.toInt_one]
    exact Int.bmod_eq_of_le (by omega) (by omega)
  have hcount := h.count
  constructor
  · simp only [hpred, List.length_append, List.length_singleton]
    omega
  · intro _
    simp only [hpred]
    omega

/-- What the call returns: the number of bytes that it has copied, or `-1` if it was killed. -/
def ReturnOk (x : Reader) (v : Int32) : Prop := v.toInt = x.copied.length ∨ v = -1

/-- What a turn does, when the committed text that has not been read is `pending`. -/
structure TurnOk (p : Slot) (x x' : Reader) (k' : Cons) (next : Next) (pending pending' line : List UInt8) : Prop where
  holds : Holds k' pending' line
  split : pending = (given p x x' next).map Item.char ++ pending'
  bytes : ∀ q c, Item.byte q c ∈ given p x x' next → c ≠ ctrlD
  reader : ReaderOk x'
  ret : ∀ v, next = .ret v → ReturnOk x' v

theorem TurnOk.same {p : Slot} {next : Next} (h : Holds k pending line) (hx : ReaderOk x)
    (hret : ∀ v, next = .ret v → ReturnOk x v) (heof : next = .ret 0 → x.target.toInt32 ≤ 0) :
    TurnOk p x x k next pending pending line := by
  have hgiven : given p x x next = [] := by
    simp only [given, List.drop_length, List.map_nil, List.nil_append, ite_eq_right_iff]
    rintro ⟨hnext, hpos⟩
    exact absurd (heof hnext) (Int32.not_le.mpr hpos)
  refine ⟨h, ?_, ?_, hx, hret⟩
  · rw [hgiven]
    rfl
  · simp [hgiven]

theorem TurnOk.eof {p : Slot} {k' : Cons} {rest : List UInt8} (h : Holds k' rest line) (hx : ReaderOk x) (hn : 0 < x.n)
    (hnone : x.copied = []) : TurnOk p x x k' (.ret x.result) (ctrlD :: rest) rest line := by
  have hpos : 0 < x.target.toInt32 := by
    have hcount := hx.count
    rw [hnone, List.length_nil, Nat.cast_zero, Int.add_zero] at hcount
    exact Int32.lt_iff_toInt_lt.mpr (hcount ▸ Int32.lt_iff_toInt_lt.mp hn)
  have hgiven : given p x x (.ret x.result) = [.eof p] := by
    simp [given, hx.result_eq_zero_iff.mpr hnone, hpos]
  refine ⟨h, ?_, ?_, hx, ?_⟩
  · rw [hgiven]
    rfl
  · simp [hgiven]
  · intro v hv
    cases hv
    exact .inl hx.result

theorem TurnOk.byte {p : Slot} {k' : Cons} {x' : Reader} {c : UInt8} {rest : List UInt8} {next : Next} (h : Holds k' rest line)
    (hx' : ReaderOk x') (hcopied : x'.copied = x.copied ++ [c]) (hc : c ≠ ctrlD) (hnext : ∀ v, next = .ret v → v = x'.result) :
    TurnOk p x x' k' next (c :: rest) rest line := by
  have hsome : x'.result ≠ 0 := by
    rw [Ne, hx'.result_eq_zero_iff, hcopied]
    simp
  have hgiven : given p x x' next = [.byte p c] := by
    have hno : ¬(next = .ret 0 ∧ 0 < x.target.toInt32) := fun hz => hsome (hnext 0 hz.1).symm
    rw [given, if_neg hno, hcopied, List.drop_left]
    rfl
  refine ⟨h, ?_, ?_, hx', ?_⟩
  · rw [hgiven]
    rfl
  · intro q d hd
    rw [hgiven, List.mem_singleton, Item.byte.injEq] at hd
    exact hd.2 ▸ hc
  · intro v hv
    rw [hnext v hv]
    exact .inl hx'.result

/-- **A turn of the loop** takes the first committed character and gives it to the process, or it takes nothing. -/
theorem turn_holds (p : Slot) (killed : Bool) (h : Holds k pending line) (hx : ReaderOk x) :
    ∃ pending', TurnOk p x (turn killed x k).2.1 (turn killed x k).1 (turn killed x k).2.2 pending pending' line := by
  have hresult : ∀ v, Next.ret x.result = .ret v → ReturnOk x v := by
    intro v hv
    cases hv
    exact .inl hx.result
  unfold turn
  by_cases hn : x.n ≤ 0
  · -- all that was asked for has been copied
    rw [if_pos hn]
    refine ⟨pending, .same h hx hresult fun hz => ?_⟩
    have hnone := hx.result_eq_zero_iff.mp (Next.ret.inj hz)
    have hcount := hx.count
    rw [hnone, List.length_nil, Nat.cast_zero, Int.add_zero] at hcount
    exact Int32.le_iff_toInt_le.mpr (hcount ▸ Int32.le_iff_toInt_le.mp hn)
  rw [if_neg hn]
  by_cases hr : k.r = k.w
  · rw [if_pos hr]
    cases killed with
    | true =>
      refine ⟨pending, .same h hx (fun v hv => ?_) fun hz => ?_⟩
      · exact .inr (Next.ret.inj hv).symm
      · exact absurd (Next.ret.inj hz) (by decide)
    | false => exact ⟨pending, .same h hx (fun v hv => by cases hv) fun hz => by cases hz⟩
  rw [if_neg hr]
  obtain ⟨rest, hp, htake⟩ := h.take hr
  have hpos : 0 < x.n := Int32.not_le.mp hn
  dsimp only
  by_cases hD : k.buf (cell INPUT_BUF_SIZE k.r) = ctrlD
  · rw [if_pos hD]
    by_cases hless : x.n.toUInt32 < x.target
    · -- the end of the file is put back
      have hback : ({ k with r := k.r + 1 - 1 } : Cons) = k := by simp
      rw [if_pos hless, hback]
      refine ⟨pending, .same h hx hresult fun hz => ?_⟩
      exact absurd (hx.result_eq_zero_iff.mp (Next.ret.inj hz)) ((hx.less_iff hpos).mp hless)
    · rw [if_neg hless, hp, hD]
      exact ⟨rest, .eof htake hx hpos (not_not.mp fun hne => hless ((hx.less_iff hpos).mpr hne))⟩
  · rw [if_neg hD, hp]
    refine ⟨rest, ?_⟩
    by_cases hnl : k.buf (cell INPUT_BUF_SIZE k.r) = newline
    · rw [if_pos hnl]
      exact .byte htake (hx.copy hpos _) rfl hD fun v hv => (Next.ret.inj hv).symm
    · rw [if_neg hnl]
      exact .byte htake (hx.copy hpos _) rfl hD fun v hv => by cases hv

end Readers

/-! ### Runs -/

/-- A process is where it should be. -/
def PcOk : Pc → Prop
  | .idle => True
  | .acquiring x => ReaderOk x
  | .looping x => ReaderOk x
  | .returned x v => ReturnOk x v

/-- The text is what has been delivered and what is in the ring. -/
structure Flow (s : ConsoleState) (g : Log) (pending : List UInt8) : Prop where
  holds : Holds s.cons pending g.typed.line
  split : g.typed.committed = g.delivered.map Item.char ++ pending
  bytes : ∀ p c, Item.byte p c ∈ g.delivered → c ≠ ctrlD
  pcs : ∀ p, PcOk (s.pc p)

theorem pcs_update {f : Slot → Pc} {p : Slot} {y : Pc} (h : ∀ q, PcOk (f q)) (hy : PcOk y) : ∀ q, PcOk (update f p y q) :=
  (forall_update_iff f fun _ z => PcOk z).mpr ⟨hy, fun q _ => h q⟩

theorem flow_boot : Flow .boot .empty [] := by
  refine ⟨⟨?_, rfl, by decide, fun _ => rfl, List.not_mem_nil⟩, rfl, by simp [Log.empty], fun _ => trivial⟩
  exact window_self _ _

section Steps

variable {s t : ConsoleState} {g : Log} {pending : List UInt8}

theorem Flow.held (h : Flow s g pending) : g.typed.committed.length - g.delivered.length = pending.length := by
  rw [h.split, List.length_append, List.length_map, Nat.add_sub_cancel_left]

theorem Flow.intr (h : Flow s g pending) (c : UInt8) :
    ∃ pending', Flow { s with cons := consoleintr c s.cons } (Log.after s (.intr c) g) pending' := by
  obtain ⟨pending', hholds, hcommitted⟩ := consoleintr_holds (g.delivered.map Item.char) h.holds c
  rw [← h.split] at hholds hcommitted
  refine ⟨pending', ?_, ?_, h.bytes, h.pcs⟩
  · simp only [Log.after, h.held]
    exact hholds
  · simp only [Log.after, h.held]
    exact hcommitted

theorem Flow.turn (h : Flow s g pending) {p : Slot} {x x' : Reader} {k' : Cons} {next : Next} {pending' : List UInt8}
    (hturn : TurnOk p x x' k' next pending pending' g.typed.line) :
    Flow (s.goes p k' x' next) { g with delivered := g.delivered ++ given p x x' next } pending' := by
  have hcons : (s.goes p k' x' next).cons = k' := by
    cases next <;> rfl
  refine ⟨?_, ?_, ?_, ?_⟩
  · rw [hcons]
    exact hturn.holds
  · rw [h.split, hturn.split, List.map_append, List.append_assoc]
  · intro q c hc
    rcases List.mem_append.mp hc with hc | hc
    · exact h.bytes q c hc
    · exact hturn.bytes q c hc
  · cases next with
    | loop => exact pcs_update h.pcs hturn.reader
    | sleep => exact pcs_update h.pcs hturn.reader
    | ret v => exact pcs_update h.pcs (hturn.ret v rfl)

/-- **A step** keeps the text. -/
theorem Flow.step {a : Act} (h : Flow s g pending) (hs : s.step a = some t) : ∃ pending', Flow t (Log.after s a g) pending' := by
  cases a with
  | intr c =>
    simp only [ConsoleState.step, Option.ite_none_right_eq_some] at hs
    obtain ⟨-, hs⟩ := hs
    cases hs
    exact h.intr c
  | read p n =>
    simp only [ConsoleState.step] at hs
    split at hs
    · cases hs
      exact ⟨pending, h.holds, h.split, h.bytes, pcs_update h.pcs (readerOk_call n)⟩
    · cases hs
  | acquire p =>
    simp only [ConsoleState.step] at hs
    split at hs
    · rename_i x hpc
      rw [Option.ite_none_right_eq_some] at hs
      obtain ⟨-, hs⟩ := hs
      cases hs
      have hx : ReaderOk x := by simpa [hpc, PcOk] using h.pcs p
      exact ⟨pending, h.holds, h.split, h.bytes, pcs_update h.pcs hx⟩
    · cases hs
  | turn p killed =>
    simp only [ConsoleState.step] at hs
    split at hs
    · rename_i x hpc
      cases hs
      have hx : ReaderOk x := by simpa [hpc, PcOk] using h.pcs p
      obtain ⟨pending', hturn⟩ := turn_holds p killed h.holds hx
      refine ⟨pending', ?_⟩
      simp only [Log.after, hpc]
      exact h.turn hturn
    · cases hs
  | leave p =>
    simp only [ConsoleState.step] at hs
    split at hs
    · cases hs
      exact ⟨pending, h.holds, h.split, h.bytes, pcs_update h.pcs trivial⟩
    · cases hs

end Steps

/-- The console with the record of what was typed and delivered. -/
def consoleLog : LTS (ConsoleState × Log) Act := consoleMachine.ghost .empty Log.after

theorem flow_of_reachable {x : ConsoleState × Log} (h : consoleLog.Reachable x) : ∃ pending, Flow x.1 x.2 pending := by
  apply Reachable.invariant (I := fun x => ∃ pending, Flow x.1 x.2 pending) _ _ h
  · rintro ⟨s, g⟩ ⟨hs, hg⟩
    cases hs
    cases hg
    exact ⟨[], flow_boot⟩
  · rintro ⟨s, g⟩ a ⟨t, g'⟩ - ⟨pending, hflow⟩ ⟨hs, hg⟩
    cases hg
    exact hflow.step hs

theorem committed_after (s : ConsoleState) (a : Act) (g : Log) : g.typed.committed <+: (Log.after s a g).typed.committed := by
  cases a with
  | intr c => exact g.typed.committed_type _ c
  | turn p killed =>
    simp only [Log.after]
    split <;> exact List.prefix_refl _
  | _ => exact List.prefix_refl _

/-- A step of the console with the record. -/
def stepLog (x : ConsoleState × Log) (a : Act) : Option (ConsoleState × Log) :=
  (x.1.step a).map fun t => (t, Log.after x.1 a x.2)

theorem consoleLog_step {x y : ConsoleState × Log} {a : Act} (h : stepLog x a = some y) : consoleLog.step x a y := by
  obtain ⟨t, hs, rfl⟩ := Option.map_eq_some_iff.mp h
  exact ⟨hs, rfl⟩

/-- `a`, backspace, `b`, return and the end of the file are typed, and process `0` reads twice. -/
def typedAndRead : List Act :=
  [.intr 97, .intr 8, .intr 98, .intr 13, .intr 4, .read 0 10, .acquire 0, .turn 0 false, .turn 0 false, .leave 0,
    .read 0 10, .acquire 0, .turn 0 false]

end Xv6Shmem.Devices
