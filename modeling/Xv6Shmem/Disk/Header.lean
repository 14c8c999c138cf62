import Xv6Shmem.Theory.ByteArea

/-!
# Blocks and the header of the log

A disk block has `BSIZE` bytes. The header block of the log starts with a `struct logheader`:
the number of logged blocks, and their numbers.
-/

namespace Xv6Shmem.Disk

/-- `BSIZE`: the bytes in a block. -/
abbrev BSIZE : ℕ := 1024

/-- `MAXOPBLOCKS`: the most blocks that an operation is meant to write. -/
abbrev MAXOPBLOCKS : ℕ := 10

/-- `LOGSIZE`: the most blocks in the log. -/
abbrev LOGSIZE : ℕ := MAXOPBLOCKS * 3

/-- `NBUF`: the size of the buffer cache. -/
abbrev NBUF : ℕ := MAXOPBLOCKS * 3

/-- The data of a block. -/
abbrev Block := ByteArea BSIZE

open ByteArea

/-- The block numbers in a header, as `read_head` reads them; `n` is an `int`. -/
def header (d : Block) : List ℕ :=
  if word 4 0 d < 2 ^ 31 then (List.range (word 4 0 d)).map fun i => word 4 (4 + 4 * i) d else []

/-- The loop of `write_head`, from entry `i` on. -/
def putEntries : ℕ → List ℕ → Block → Block
  | _, [], d => d
  | i, b :: l, d => putEntries (i + 1) l (setWord 4 (4 + 4 * i) b d)

/-- What `write_head` makes of the header block. -/
def putHeader (l : List ℕ) (d : Block) : Block := putEntries 0 l (setWord 4 0 l.length d)

theorem word_putEntries_of_le {i off : ℕ} {l : List ℕ} {d : Block} (h : off + 4 ≤ 4 + 4 * i) :
    word 4 off (putEntries i l d) = word 4 off d := by
  induction l generalizing i d with
  | nil => rfl
  | cons b l ih => rw [putEntries, ih (by omega), word_setWord_of_disjoint (by omega)]

theorem word_putEntries {i k : ℕ} {l : List ℕ} {d : Block} (hk : k < l.length) (hl : i + l.length ≤ LOGSIZE)
    (hb : ∀ b ∈ l, b < 2 ^ 32) : word 4 (4 + 4 * (i + k)) (putEntries i l d) = l[k] := by
  induction l generalizing i k d with
  | nil => cases hk
  | cons b l ih =>
    rw [putEntries]
    cases k with
    | zero =>
      have hlen : i + (l.length + 1) ≤ 30 := hl
      rw [word_putEntries_of_le (by omega), Nat.add_zero, word_setWord (by simp only [BSIZE]; omega)]
      exact Nat.mod_eq_of_lt (hb b List.mem_cons_self)
    | succ k =>
      have hk' : k < l.length := Nat.lt_of_succ_lt_succ hk
      have hlen : i + 1 + l.length ≤ LOGSIZE := by rw [List.length_cons] at hl; omega
      have h := ih (i := i + 1) (d := setWord 4 (4 + 4 * i) b d) hk' hlen
        fun c hc => hb c (List.mem_cons_of_mem _ hc)
      rw [show i + (k + 1) = i + 1 + k by omega, h, List.getElem_cons_succ]

/-- **A header that was written is read back**. -/
theorem header_putHeader {l : List ℕ} {d : Block} (hl : l.length ≤ LOGSIZE) (hb : ∀ b ∈ l, b < 2 ^ 32) :
    header (putHeader l d) = l := by
  have hn : word 4 0 (putHeader l d) = l.length := by
    rw [putHeader, word_putEntries_of_le (by omega), word_setWord (by simp [BSIZE])]
    exact Nat.mod_eq_of_lt (by simp only [LOGSIZE, MAXOPBLOCKS] at hl; omega)
  rw [header, hn, if_pos (by simp only [LOGSIZE, MAXOPBLOCKS] at hl; omega)]
  refine List.ext_getElem (by simp) fun k hk hk' => ?_
  rw [List.getElem_map, List.getElem_range]
  have h := word_putEntries (i := 0) (d := setWord 4 0 l.length d) hk' (by omega) hb
  rwa [Nat.zero_add] at h

theorem header_putHeader_nil (d : Block) : header (putHeader [] d) = [] := header_putHeader (by simp) (by simp)

theorem putHeader_nil_idem (d : Block) : putHeader [] (putHeader [] d) = putHeader [] d := by
  funext i
  simp only [putHeader, putEntries, setWord, List.length_nil]
  split_ifs <;> rfl

end Xv6Shmem.Disk
