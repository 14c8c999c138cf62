import Mathlib.Data.Fintype.Card
import Mathlib.Algebra.BigOperators.Group.Finset.Piecewise
import Mathlib.Algebra.BigOperators.Group.Finset.Sigma

/-!
# Counting over a finite table

How many entries of a finite table have a property, and how the number moves when
one entry changes. A table is a function on a finite type, its entries being
written one at a time.

A program that keeps the number in a 32-bit counter, adding and taking one as
entries change, has the right number as long as the table has fewer than `2 ^ 31`
entries: `Counts n f` says that it has, and `Counts.join`, `Counts.leave` are the two
moves.
-/

universe u

namespace Tally

open Function

variable {ι : Type u} [Fintype ι]

/-- How many entries satisfy `f`. -/
def tally (f : ι → Bool) : ℕ := (Finset.univ.filter fun q => f q = true).card

/-- If one entry goes from not satisfying the property to satisfying it, and no other
changes, there is one more. -/
theorem tally_succ [DecidableEq ι] {f g : ι → Bool} {p : ι} (hf : f p = false) (hg : g p = true)
    (h : ∀ q, q ≠ p → g q = f q) : tally g = tally f + 1 := by
  have hins : (Finset.univ.filter fun q => g q = true) =
      insert p (Finset.univ.filter fun q => f q = true) := by
    ext q
    simp only [Finset.mem_filter, Finset.mem_univ, true_and, Finset.mem_insert]
    by_cases hq : q = p
    · simp [hq, hg]
    · simp [hq, h q hq]
  rw [tally, hins, Finset.card_insert_of_notMem (by simp [hf]), tally]

theorem tally_congr {f g : ι → Bool} (h : ∀ q, g q = f q) : tally g = tally f := by
  rw [tally, tally, funext h]

/-- One entry changes. -/
theorem tally_change [DecidableEq ι] {f g : ι → Bool} {p : ι} (h : ∀ q, q ≠ p → g q = f q) :
    tally g + (f p).toNat = tally f + (g p).toNat := by
  cases hf : f p <;> cases hg : g p
  · rw [tally_congr fun q => if hq : q = p then by rw [hq, hf, hg] else h q hq]
  · rw [tally_succ hf hg h]
    rfl
  · rw [tally_succ hg hf fun q hq => (h q hq).symm]
    rfl
  · rw [tally_congr fun q => if hq : q = p then by rw [hq, hf, hg] else h q hq]

theorem tally_eq_zero_iff {f : ι → Bool} : tally f = 0 ↔ ∀ q, f q = false := by
  simp [tally, Finset.filter_eq_empty_iff]

theorem tally_pos_of {f : ι → Bool} {p : ι} (h : f p = true) : 0 < tally f := by
  refine Nat.pos_of_ne_zero fun h0 => ?_
  rw [tally_eq_zero_iff.mp h0 p] at h
  cases h

/-- Entries that hold one value each, counted value by value. -/
theorem sum_tally_eq_some {κ : Type*} [Fintype κ] [DecidableEq κ] (g : ι → Option κ) :
    ∑ k, tally (fun i => decide (g i = some k)) = tally fun i => (g i).isSome := by
  simp only [tally, Finset.card_filter, decide_eq_true_eq]
  rw [Finset.sum_comm]
  refine Finset.sum_congr rfl fun i _ => ?_
  cases g i <;> simp

theorem tally_lt_card {f : ι → Bool} {p : ι} (h : f p = false) : tally f < Fintype.card ι :=
  Finset.card_lt_univ_of_notMem (x := p) (by simp [h])

/-! ### A 32-bit counter -/

theorem toInt_add_one {n : Int32} (h : n.toInt < 2 ^ 31 - 1) : (n + 1).toInt = n.toInt + 1 := by
  have hlo := n.le_toInt
  rw [Int32.toInt_add, Int32.toInt_one]
  exact Int.bmod_eq_of_le (by omega) (by omega)

theorem toInt_sub_one {n : Int32} (h : -2 ^ 31 < n.toInt) : (n - 1).toInt = n.toInt - 1 := by
  have hhi := n.toInt_lt
  rw [Int32.toInt_sub, Int32.toInt_one]
  exact Int.bmod_eq_of_le (by omega) (by omega)

theorem eq_zero_iff_toInt {n : Int32} : n = 0 ↔ n.toInt = 0 := by
  rw [← Int32.toInt_inj, Int32.toInt_zero]

/-- The counter `n` has the number of entries that satisfy `f`. -/
def Counts (n : Int32) (f : ι → Bool) : Prop := n.toInt = tally f

variable {n : Int32} {f g : ι → Bool} {p : ι}

theorem Counts.congr (h : Counts n f) (hh : ∀ q, g q = f q) : Counts n g := by
  rw [Counts, tally_congr hh]
  exact h

/-- One more entry, one more. -/
theorem Counts.join [DecidableEq ι] (hcard : Fintype.card ι < 2 ^ 31) (h : Counts n f) (hf : f p = false)
    (hg : g p = true) (hh : ∀ q, q ≠ p → g q = f q) : Counts (n + 1) g := by
  have hlt := tally_lt_card hf
  unfold Counts at h ⊢
  rw [toInt_add_one (by omega), h, tally_succ hf hg hh]
  simp

theorem Counts.leave [DecidableEq ι] (h : Counts n f) (hf : f p = true) (hg : g p = false)
    (hh : ∀ q, q ≠ p → g q = f q) : Counts (n - 1) g := by
  have hsucc := tally_succ hg hf fun q hq => (hh q hq).symm
  unfold Counts at h ⊢
  rw [toInt_sub_one (by omega), h, hsucc]
  simp

theorem Counts.eq_zero_iff (h : Counts n f) : n = 0 ↔ ∀ q, f q = false := by
  unfold Counts at h
  rw [eq_zero_iff_toInt, h, ← tally_eq_zero_iff]
  simp

theorem Counts.nonneg (h : Counts n f) : 0 ≤ n.toInt := by
  unfold Counts at h
  omega

/-- Taking one leaves none exactly when there was no other entry. -/
theorem Counts.sub_one_eq_zero_iff [DecidableEq ι] (h : Counts n f) (hp : f p = true) :
    n - 1 = 0 ↔ ∀ q, q ≠ p → f q = false := by
  have hl : Counts (n - 1) (update f p false) :=
    h.leave hp (update_self ..) fun q hq => update_of_ne hq ..
  rw [hl.eq_zero_iff]
  constructor
  · intro hz q hq
    rw [← hz q, update_of_ne hq]
  · intro hz q
    by_cases hq : q = p
    · rw [hq, update_self]
    · rw [update_of_ne hq, hz q hq]

end Tally
