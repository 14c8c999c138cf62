import Mathlib.Data.Int.Basic
import Mathlib.Data.UInt

/-!
# A flat byte memory

Memory is a byte at every address. Addresses are integers: an address that a program
computes by going below the start of an object is just a smaller number. A 32-bit
`int` is kept in four consecutive bytes, the least significant first.

What is proved is what a program over such a memory needs: a load gives what the last
store to the same address put there, and stores and fills leave every byte outside
their range alone.
-/

/-- A byte at every address. -/
abbrev Mem := ℤ → UInt8

namespace Mem

/-- `memset(a, v, n)`. -/
def memset (m : Mem) (a : ℤ) (v : UInt8) (n : ℕ) : Mem := fun x => if a ≤ x ∧ x < a + n then v else m x

/-- Byte `k` of an `int`, the least significant first. -/
def byteOf (v : Int32) (k : ℕ) : UInt8 := UInt8.ofNat (v.toUInt32.toNat / 256 ^ k)

/-- Store an `int` at address `a`. -/
def storeInt (m : Mem) (a : ℤ) (v : Int32) : Mem :=
  fun x => if a ≤ x ∧ x < a + 4 then byteOf v (x - a).toNat else m x

/-- Load the `int` at address `a`. -/
def loadInt (m : Mem) (a : ℤ) : Int32 :=
  (UInt32.ofNat ((m a).toNat + 256 * (m (a + 1)).toNat + 65536 * (m (a + 2)).toNat +
    16777216 * (m (a + 3)).toNat)).toInt32

/-- Copy the bytes `bs` to address `a`. -/
def write (m : Mem) (a : ℤ) (bs : List UInt8) : Mem :=
  fun x => if a ≤ x ∧ x < a + bs.length then bs.getD (x - a).toNat 0 else m x

/-- `memmove(dst, src, n)`. -/
def memmove (m : Mem) (dst src : ℤ) (n : ℕ) : Mem :=
  fun x => if dst ≤ x ∧ x < dst + n then m (src + (x - dst)) else m x

/-- The same bytes at addresses `a` to `a + n - 1`. -/
def EqOn (a : ℤ) (n : ℕ) (m m' : Mem) : Prop := ∀ x, a ≤ x → x < a + n → m' x = m x

variable {a b : ℤ} {n k : ℕ} {m : Mem}

theorem EqOn.rfl : EqOn a n m m := fun _ _ _ => Eq.refl _

theorem EqOn.trans {m₁ m₂ m₃ : Mem} (h : EqOn a n m₁ m₂) (h' : EqOn a n m₂ m₃) :
    EqOn a n m₁ m₃ := fun x h1 h2 => (h' x h1 h2).trans (h x h1 h2)

/-! ### Ranges apart from each other -/

/-- A fill leaves a range it does not meet alone. -/
theorem eqOn_memset {v : UInt8} (h : b + k ≤ a ∨ a + n ≤ b) :
    EqOn b k m (m.memset a v n) := by
  intro x h1 h2
  have : ¬ (a ≤ x ∧ x < a + n) := by omega
  simp [memset, this]

theorem eqOn_storeInt {v : Int32} (h : b + k ≤ a ∨ a + 4 ≤ b) :
    EqOn b k m (m.storeInt a v) := by
  intro x h1 h2
  have : ¬ (a ≤ x ∧ x < a + 4) := by omega
  simp [storeInt, this]

theorem loadInt_of_eqOn {m' : Mem} (h : EqOn b k m m') (h₁ : b ≤ a) (h₂ : a + 4 ≤ b + k) : m'.loadInt a = m.loadInt a := by
  rw [loadInt, loadInt, h a h₁ (by omega), h (a + 1) (by omega) (by omega),
    h (a + 2) (by omega) (by omega), h (a + 3) (by omega) (by omega)]

/-! ### Writing only where one may -/

/-- The same bytes everywhere but at the addresses in `A`. -/
def OnlyOn (A : ℤ → Prop) (m m' : Mem) : Prop := ∀ x, ¬ A x → m' x = m x

section OnlyOn

variable {A : ℤ → Prop} {m₁ m₂ m₃ : Mem}

theorem OnlyOn.rfl : OnlyOn A m m := fun _ _ => Eq.refl _

theorem OnlyOn.trans (h : OnlyOn A m₁ m₂) (h' : OnlyOn A m₂ m₃) : OnlyOn A m₁ m₃ :=
  fun x hx => (h' x hx).trans (h x hx)

theorem OnlyOn.eqOn (h : OnlyOn A m₁ m₂) (ha : ∀ x, a ≤ x → x < a + n → ¬ A x) : EqOn a n m₁ m₂ :=
  fun x h1 h2 => h x (ha x h1 h2)

theorem onlyOn_memset {v : UInt8} (h : ∀ x, a ≤ x → x < a + n → A x) : OnlyOn A m (m.memset a v n) :=
  fun x hx => if_neg fun hr => hx (h x hr.1 hr.2)

theorem onlyOn_write {bs : List UInt8} (h : ∀ x, a ≤ x → x < a + bs.length → A x) :
    OnlyOn A m (m.write a bs) :=
  fun x hx => if_neg fun hr => hx (h x hr.1 hr.2)

theorem onlyOn_memmove (h : ∀ x, a ≤ x → x < a + n → A x) : OnlyOn A m (m.memmove a b n) :=
  fun x hx => if_neg fun hr => hx (h x hr.1 hr.2)

end OnlyOn

/-! ### What a load gives -/

/-- The four bytes of an `int` give it back. -/
theorem bytes_toNat (v : Int32) :
    (byteOf v 0).toNat + 256 * (byteOf v 1).toNat + 65536 * (byteOf v 2).toNat +
      16777216 * (byteOf v 3).toNat = v.toUInt32.toNat := by
  have hlt := v.toUInt32.toNat_lt
  simp only [byteOf, UInt8.toNat_ofNat']
  omega

/-- A load gives what was stored at its address. -/
theorem loadInt_storeInt (m : Mem) (a : ℤ) (v : Int32) : (m.storeInt a v).loadInt a = v := by
  have hbyte : ∀ k : ℕ, k < 4 → (m.storeInt a v) (a + k) = byteOf v k := by
    intro k hk
    have : a ≤ a + k ∧ a + (k : ℤ) < a + 4 := by omega
    simp [storeInt, this]
  have h0 := hbyte 0 (by omega)
  have h1 := hbyte 1 (by omega)
  have h2 := hbyte 2 (by omega)
  have h3 := hbyte 3 (by omega)
  simp only [Nat.cast_zero, add_zero, Nat.cast_one, Nat.cast_ofNat] at h0 h1 h2 h3
  rw [loadInt, h0, h1, h2, h3, bytes_toNat]
  simp

/-- A load from a memory filled with one byte gives that byte four times. -/
theorem loadInt_const (b : UInt8) (a : ℤ) :
    loadInt (fun _ => b) a = (UInt32.ofNat (16843009 * b.toNat)).toInt32 := by
  rw [loadInt]
  congr 2
  omega

end Mem
