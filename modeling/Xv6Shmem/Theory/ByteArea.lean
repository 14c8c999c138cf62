import Mathlib.Data.UInt
import Mathlib.Algebra.Order.Group.Nat
import Mathlib.Tactic.Ring

/-!
# Numbers in an area of bytes

An area of `N` bytes, as a C program sees the data of a disk block: numbers of one, two or
four bytes stand at certain offsets, the least significant byte first. `word n off` reads
the number of `n` bytes at offset `off`, and `setWord n off v` stores one.

What is proved is what code over such an area needs: a number that was stored is read back,
cut to its width, and a store leaves what does not meet it alone.
-/

/-- An area of `N` bytes. -/
abbrev ByteArea (N : ℕ) := Fin N → UInt8

namespace ByteArea

variable {N : ℕ}

/-- The byte at an offset; `0` outside. -/
def byte (d : ByteArea N) (off : ℕ) : UInt8 := if h : off < N then d ⟨off, h⟩ else 0

/-- The number in the `n` bytes at offset `off`. -/
def word : ℕ → ℕ → ByteArea N → ℕ
  | 0, _, _ => 0
  | n + 1, off, d => (d.byte off).toNat + 256 * word n (off + 1) d

/-- Store `v` in the `n` bytes at offset `off`. -/
def setWord (n off v : ℕ) (d : ByteArea N) : ByteArea N :=
  fun i => if off ≤ i ∧ i < off + n then UInt8.ofNat (v / 256 ^ (i - off)) else d i

/-- Copy the bytes `bs` to offset `off`. -/
def copy (off : ℕ) (bs : List UInt8) (d : ByteArea N) : ByteArea N :=
  fun i => if off ≤ i ∧ i < off + bs.length then bs.getD (i - off) 0 else d i

/-- The `n` bytes from offset `off` on. -/
def slice (n off : ℕ) (d : ByteArea N) : List UInt8 := (List.range n).map fun i => d.byte (off + i)

theorem word_congr {n off : ℕ} {d d' : ByteArea N} (h : ∀ i, off ≤ i → i < off + n → d.byte i = d'.byte i) :
    word n off d = word n off d' := by
  induction n generalizing off with
  | zero => rfl
  | succ n ih =>
    rw [word, word, h off le_rfl (by omega), ih fun i h1 h2 => h i (by omega) (by omega)]

section Bytes

variable {d : ByteArea N} {n off v i : ℕ}

theorem byte_setWord_of_mem (h₁ : off ≤ i) (h₂ : i < off + n) (hi : i < N) :
    (setWord n off v d).byte i = UInt8.ofNat (v / 256 ^ (i - off)) := by
  simp [byte, setWord, hi, h₁, h₂]

theorem byte_setWord_of_not (h : i < off ∨ off + n ≤ i) : (setWord n off v d).byte i = d.byte i := by
  have hn : ¬ (off ≤ i ∧ i < off + n) := by omega
  simp [byte, setWord, hn]

theorem byte_copy_of_mem {bs : List UInt8} (h₁ : off ≤ i) (h₂ : i < off + bs.length) (hi : i < N) :
    (copy off bs d).byte i = bs.getD (i - off) 0 := by
  simp [byte, copy, hi, h₁, h₂]

theorem byte_copy_of_not {bs : List UInt8} (h : i < off ∨ off + bs.length ≤ i) :
    (copy off bs d).byte i = d.byte i := by
  have hn : ¬ (off ≤ i ∧ i < off + bs.length) := by omega
  simp [byte, copy, hn]

end Bytes

/-- The digits of a number, as they are read from the byte `k` of a stored `v` on. -/
theorem word_setWord_from {m n k off v : ℕ} {d : ByteArea N} (hm : k + m = n) (h : off + n ≤ N) :
    word m (off + k) (setWord n off v d) = v / 256 ^ k % 256 ^ m := by
  induction m generalizing k with
  | zero => rw [word, pow_zero, Nat.mod_one]
  | succ m ih =>
    rw [word, byte_setWord_of_mem (by omega) (by omega) (by omega), Nat.add_sub_cancel_left, add_assoc, ih (by omega),
      UInt8.toNat_ofNat', pow_succ' 256 m, pow_succ 256 k, ← Nat.div_div_eq_div_mul]
    exact (Nat.mod_mul).symm

/-- **What was stored is read back**, cut to its width. -/
theorem word_setWord {n off v : ℕ} {d : ByteArea N} (h : off + n ≤ N) :
    word n off (setWord n off v d) = v % 256 ^ n := by
  have := word_setWord_from (m := n) (n := n) (k := 0) (v := v) (d := d) (Nat.zero_add n) h
  rwa [pow_zero, Nat.div_one] at this

/-- **A store leaves other numbers alone**. -/
theorem word_setWord_of_disjoint {m off' n off v : ℕ} {d : ByteArea N} (h : off' + m ≤ off ∨ off + n ≤ off') :
    word m off' (setWord n off v d) = word m off' d :=
  word_congr fun i h1 h2 => byte_setWord_of_not (by omega)

end ByteArea
