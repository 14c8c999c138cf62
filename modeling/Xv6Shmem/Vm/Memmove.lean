import Xv6Shmem.Theory.ByteMemory

/-!
# `memmove`

`kernel/string.c` and `user/ulib.c` each have a `memmove`, which copies byte by byte, upwards or
downwards. The kernel's goes downwards only if the source begins below the destination and reaches
into it, the user's whenever the source does not begin above the destination.

Both are `Mem.memmove`, the copy that reads every byte before it writes any: `memmove_overlap_safe`.
Neither range wraps round the address space, so that a pointer is an integer, and the length is
the same number as an `uint` and as an `int`.
-/

namespace Xv6Shmem.Vm

open Function

/-- `while(n-- > 0) *d++ = *s++`. -/
def copyUp : ℕ → Mem → ℤ → ℤ → Mem
  | 0, m, _, _ => m
  | n + 1, m, d, s => copyUp n (update m d (m s)) (d + 1) (s + 1)

/-- `while(n-- > 0) *--d = *--s`. -/
def copyDown : ℕ → Mem → ℤ → ℤ → Mem
  | 0, m, _, _ => m
  | n + 1, m, d, s => copyDown n (update m (d - 1) (m (s - 1))) (d - 1) (s - 1)

/-- `memmove` of `kernel/string.c`. -/
def kernelMemmove (m : Mem) (dst src : ℤ) (n : ℕ) : Mem :=
  if n = 0 then m
  else if src < dst ∧ src + n > dst then copyDown n m (dst + n) (src + n)
  else copyUp n m dst src

/-- `memmove` of `user/ulib.c`. -/
def userMemmove (m : Mem) (dst src : ℤ) (n : ℕ) : Mem :=
  if src > dst then copyUp n m dst src else copyDown n m (dst + n) (src + n)

/-- Going up, a byte of the source is not written before it is read, if the destination does not begin inside the
source. -/
theorem copyUp_eq {d s : ℤ} {n : ℕ} (h : ¬ (s < d ∧ d < s + n)) (m : Mem) : copyUp n m d s = m.memmove d s n := by
  induction n generalizing m d s with
  | zero =>
    funext x
    rw [copyUp, Mem.memmove, if_neg (by omega)]
  | succ n ih =>
    funext x
    rw [copyUp, ih (by omega), Mem.memmove, Mem.memmove]
    by_cases hx : d + 1 ≤ x ∧ x < d + 1 + n
    · rw [if_pos hx, if_pos (by omega), update_of_ne (by omega)]
      congr 1
      omega
    · rw [if_neg hx]
      by_cases hxd : x = d
      · rw [hxd, update_self, if_pos (by omega), sub_self, add_zero]
      · rw [update_of_ne hxd, if_neg (by omega)]

/-- Going down, if the source does not begin inside the destination. The last byte is copied first. -/
theorem copyDown_eq {d s : ℤ} {n : ℕ} (h : ¬ (d < s ∧ s < d + n)) (m : Mem) :
    copyDown n m (d + n) (s + n) = m.memmove d s n := by
  induction n generalizing m with
  | zero =>
    funext x
    rw [copyDown, Mem.memmove, if_neg (by omega)]
  | succ n ih =>
    have hd : d + ((n + 1 : ℕ) : ℤ) - 1 = d + n := by omega
    have hs : s + ((n + 1 : ℕ) : ℤ) - 1 = s + n := by omega
    funext x
    rw [copyDown, hd, hs, ih (by omega), Mem.memmove, Mem.memmove]
    by_cases hx : d ≤ x ∧ x < d + n
    · rw [if_pos hx, if_pos (by omega), update_of_ne (by omega)]
    · rw [if_neg hx]
      by_cases hxd : x = d + n
      · rw [hxd, update_self, if_pos (by omega), add_sub_cancel_left]
      · rw [update_of_ne hxd, if_neg (by omega)]

theorem kernelMemmove_eq (m : Mem) (dst src : ℤ) (n : ℕ) : kernelMemmove m dst src n = m.memmove dst src n := by
  unfold kernelMemmove
  split_ifs with h0 hover
  · rw [← copyUp_eq (by omega) m, h0, copyUp]
  · exact copyDown_eq (by omega) m
  · exact copyUp_eq (by omega) m

theorem userMemmove_eq (m : Mem) (dst src : ℤ) (n : ℕ) : userMemmove m dst src n = m.memmove dst src n := by
  unfold userMemmove
  split_ifs with hup
  · exact copyUp_eq (by omega) m
  · exact copyDown_eq (by omega) m

/-- **`memmove` is safe for ranges that overlap**, in the kernel and in user space: the destination has the bytes that
the source had, and nothing else is changed. -/
theorem memmove_overlap_safe (m : Mem) (dst src : ℤ) (n : ℕ) :
    (∀ i : ℕ, i < n → kernelMemmove m dst src n (dst + i) = m (src + i) ∧
      userMemmove m dst src n (dst + i) = m (src + i)) ∧
    (∀ x, ¬ (dst ≤ x ∧ x < dst + n) → kernelMemmove m dst src n x = m x ∧ userMemmove m dst src n x = m x) ∧
    kernelMemmove m dst src n = userMemmove m dst src n := by
  rw [kernelMemmove_eq, userMemmove_eq]
  refine ⟨fun i hi => ?_, fun x hx => ?_, rfl⟩
  · have hin : m.memmove dst src n (dst + i) = m (src + i) := by
      rw [Mem.memmove, if_pos (by omega), add_sub_cancel_left]
    exact ⟨hin, hin⟩
  · exact ⟨if_neg hx, if_neg hx⟩

end Xv6Shmem.Vm
