import Mathlib.Logic.Function.Basic

/-!
# Resources with one owner

A resource is free, or it belongs to exactly one of the parties. Whether it is free is what a program
keeps; who has it follows from where each party is in its own code.

## What is proved

* `Exclusive.update` — the rule for a change of owner.
-/

variable {P R : Type}

/-- Each resource is free, or has exactly one owner. -/
def Exclusive (own : P → List R) (free : R → Bool) : Prop :=
  ∀ j, (free j = true ∧ ∀ p, j ∉ own p) ∨ (free j = false ∧ ∃ p, j ∈ own p ∧ ∀ q, j ∈ own q → q = p)

variable {own : P → List R} {free free' : R → Bool} {p q : P} {j : R}

theorem Exclusive.unique (h : Exclusive own free) (hp : j ∈ own p) (hq : j ∈ own q) : q = p := by
  rcases h j with ⟨-, hnone⟩ | ⟨-, r, -, hr⟩
  · exact absurd hp (hnone p)
  · rw [hr p hp, hr q hq]

theorem Exclusive.not_free (h : Exclusive own free) (hp : j ∈ own p) : free j = false := by
  rcases h j with ⟨-, hnone⟩ | ⟨hfree, -⟩
  · exact absurd hp (hnone p)
  · exact hfree

/-- **A change of owner**: `p` has `l` afterwards, which was its own or free. -/
theorem Exclusive.update [DecidableEq P] (h : Exclusive own free) (p : P) (l : List R)
    (hin : ∀ j ∈ l, free' j = false ∧ (j ∈ own p ∨ free j = true)) (hout : ∀ j ∈ own p, j ∉ l → free' j = true)
    (hrest : ∀ j, j ∉ own p → j ∉ l → free' j = free j) : Exclusive (Function.update own p l) free' := by
  intro j
  by_cases hl : j ∈ l
  · refine .inr ⟨(hin j hl).1, p, by simpa using hl, fun q hq => ?_⟩
    by_contra hqp
    rw [Function.update_of_ne hqp] at hq
    rcases (hin j hl).2 with hp | hfree
    · exact hqp (h.unique hp hq)
    · simp [h.not_free hq] at hfree
  by_cases hp : j ∈ own p
  · refine .inl ⟨hout j hp hl, fun q hq => ?_⟩
    by_cases hqp : q = p
    · subst hqp
      exact hl (by simpa using hq)
    · rw [Function.update_of_ne hqp] at hq
      exact hqp (h.unique hp hq)
  rw [hrest j hp hl]
  rcases h j with ⟨hfree, hnone⟩ | ⟨hfree, r, hr, huniq⟩
  · refine .inl ⟨hfree, fun q hq => ?_⟩
    by_cases hqp : q = p
    · subst hqp
      exact hl (by simpa using hq)
    · rw [Function.update_of_ne hqp] at hq
      exact hnone q hq
  · have hrp : r ≠ p := fun hrp => hp (hrp ▸ hr)
    refine .inr ⟨hfree, r, by rwa [Function.update_of_ne hrp], fun q hq => ?_⟩
    by_cases hqp : q = p
    · subst hqp
      exact absurd (by simpa using hq) hl
    · rw [Function.update_of_ne hqp] at hq
      exact huniq q hq
