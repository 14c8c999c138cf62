import Mathlib.Data.List.Range
import Mathlib.Data.Nat.ModEq
import Mathlib.Data.Fintype.Fin
import Mathlib.Logic.Function.Basic

/-!
# A ring with counters that wrap

A ring of `n` cells is used through two counters of 32 bits, which are never reduced to the
size of the ring: the number of elements taken and the number put, each modulo `2 ^ 32`.
Element `i` is in cell `i % n`. When `n` divides `2 ^ 32` the cells go on in order where the
counters wrap. What is in the ring is the window between the counters.

For counters of any width, `Queued` says the same by the numbers that were counted: the queue lies in the
cells from the number of elements taken on.

## What is proved

* `window_put` — one element more at the end, when there is room.
* `window_take` — the first element and the rest.
* `window_pred` — the last element is given up.
* `window_append` — a window is cut in two by a counter in it.
* `Queued.put`, `Queued.take` — the same for a queue.
-/

namespace Ring

open Function

variable {α : Type} {n : ℕ} [NeZero n]

/-- The cell of element `i`. -/
def cell (n : ℕ) [NeZero n] (i : UInt32) : Fin n := Fin.ofNat n i.toNat

/-- What is in the ring between two counters. -/
def window (data : Fin n → α) (r w : UInt32) : List α :=
  (List.range (w - r).toNat).map fun k => data (cell n (r + UInt32.ofNat k))

theorem length_window (data : Fin n → α) (r w : UInt32) : (window data r w).length = (w - r).toNat := by
  simp [window]

theorem window_self (data : Fin n → α) (r : UInt32) : window data r r = [] := by
  simp [window]

/-- The counter of the next element to be put, from that of the first. -/
theorem add_sub (r w : UInt32) : r + UInt32.ofNat (w - r).toNat = w := by
  rw [UInt32.ofNat_toNat]
  grind

theorem cell_val (hn : n ∣ 2 ^ 32) (r : UInt32) (k : ℕ) : (cell n (r + UInt32.ofNat k)).val = (r.toNat + k) % n := by
  simp only [cell, Fin.ofNat, UInt32.toNat_add, UInt32.toNat_ofNat']
  rw [Nat.mod_mod_of_dvd _ hn, Nat.add_mod, Nat.mod_mod_of_dvd _ hn, ← Nat.add_mod]

/-- A put element is in none of the cells that are in use. -/
theorem cell_ne (hn : n ∣ 2 ^ 32) {r w : UInt32} {k : ℕ} (hk : k < (w - r).toNat) (hroom : (w - r).toNat < n) :
    cell n (r + UInt32.ofNat k) ≠ cell n w := by
  intro h
  have hval : (r.toNat + k) % n = (r.toNat + (w - r).toNat) % n := by
    rw [← cell_val hn, ← cell_val hn, add_sub, h]
  have hmod := Nat.ModEq.add_left_cancel' r.toNat hval
  rw [Nat.ModEq, Nat.mod_eq_of_lt hroom, Nat.mod_eq_of_lt (hk.trans hroom)] at hmod
  omega

/-! ### Counters -/

variable {r w : UInt32} {data : Fin n → α} {l : List α}

/-- One more put. -/
theorem toNat_succ_sub (h : (w - r).toNat < 2 ^ 32 - 1) : (w + 1 - r).toNat = (w - r).toNat + 1 := by
  have hadd : w + 1 - r = (w - r) + 1 := by grind
  rw [hadd, UInt32.toNat_add]
  exact Nat.mod_eq_of_lt (by simp only [UInt32.toNat_one]; omega)

theorem toNat_sub_ne_zero (h : r ≠ w) : (w - r).toNat ≠ 0 := by
  intro h0
  have hzero : w - r = 0 := UInt32.toNat_inj.mp h0
  refine h ?_
  grind

/-- One more taken. -/
theorem toNat_sub_succ (h : r ≠ w) : (w - r).toNat = (w - (r + 1)).toNat + 1 := by
  have hpos := toNat_sub_ne_zero h
  have hadd : w - r = (w - (r + 1)) + 1 := by grind
  have hlt : (w - (r + 1)).toNat < 2 ^ 32 := (w - (r + 1)).toNat_lt
  rw [hadd, UInt32.toNat_add] at hpos ⊢
  simp only [UInt32.toNat_one] at hpos ⊢
  omega

/-- One put less. -/
theorem toNat_pred_sub (h : r ≠ w) : (w - r).toNat = (w - 1 - r).toNat + 1 := by
  have hadd : w - 1 - r = w - (r + 1) := by grind
  rw [hadd, toNat_sub_succ h]

/-- A counter is known by its distance from another. -/
theorem toNat_sub_inj {w' : UInt32} : (w - r).toNat = (w' - r).toNat ↔ w = w' := by
  constructor
  · intro h
    have heq : w - r = w' - r := UInt32.toNat_inj.mp h
    grind
  · rintro rfl
    rfl

/-! ### Putting and taking -/

/-- **Put** an element, when there is room. -/
theorem window_put (hn : n ∣ 2 ^ 32) (hlt : n < 2 ^ 32) (data : Fin n → α) (x : α) {r w : UInt32} (hroom : (w - r).toNat < n) :
    window (update data (cell n w) x) r (w + 1) = window data r w ++ [x] := by
  have hlen : (w + 1 - r).toNat = (w - r).toNat + 1 := toNat_succ_sub (by omega)
  rw [window, hlen, List.range_succ, List.map_append, List.map_singleton, add_sub, update_self, window]
  congr 1
  refine List.map_congr_left fun k hk => ?_
  exact update_of_ne (cell_ne hn (List.mem_range.mp hk) hroom) _ _

/-- **Take** the first element, when there is one. -/
theorem window_take (data : Fin n → α) {r w : UInt32} (h : r ≠ w) :
    window data r w = data (cell n r) :: window data (r + 1) w := by
  rw [window, toNat_sub_succ h, List.range_succ_eq_map, List.map_cons, List.map_map, window]
  congr 1
  · simp
  · refine List.map_congr_left fun k _ => ?_
    have hadd : r + UInt32.ofNat (k + 1) = r + 1 + UInt32.ofNat k := by
      rw [UInt32.ofNat_add]
      grind
    simp only [Function.comp_apply, Nat.succ_eq_add_one, hadd]

/-- **Give up** the last element, when there is one. -/
theorem window_pred (data : Fin n → α) {r w : UInt32} (h : r ≠ w) :
    window data r w = window data r (w - 1) ++ [data (cell n (w - 1))] := by
  rw [window, toNat_pred_sub h, List.range_succ, List.map_append, List.map_singleton, add_sub, window]

/-- **Cut** a window at a counter in it. -/
theorem window_append (data : Fin n → α) {r w e : UInt32} (h : (w - r).toNat ≤ (e - r).toNat) :
    window data r e = window data r w ++ window data w e := by
  have hlen : (e - r).toNat = (w - r).toNat + (e - w).toNat := by
    have hsub : e - w = (e - r) - (w - r) := by grind
    rw [hsub, UInt32.toNat_sub_of_le _ _ (UInt32.le_iff_toNat_le.mpr h)]
    omega
  rw [window, hlen, List.range_add, List.map_append, List.map_map, window, window]
  congr 1
  refine List.map_congr_left fun k _ => ?_
  have hadd : r + UInt32.ofNat ((w - r).toNat + k) = w + UInt32.ofNat k := by
    rw [UInt32.ofNat_add, ← UInt32.add_assoc, add_sub]
  simp only [Function.comp_apply, hadd]

/-! ### Queues -/

/-- The queue `l` lies in the ring; `r` elements have been taken before it. -/
def Queued (data : Fin n → α) (r : ℕ) (l : List α) : Prop :=
  ∀ (k : ℕ) (hk : k < l.length), data (Fin.ofNat n (r + k)) = l.get ⟨k, hk⟩

theorem Queued.nil (data : Fin n → α) (r : ℕ) : Queued data r [] := fun _ hk => absurd hk (Nat.not_lt_zero _)

/-- Different elements of the ring are in different cells. -/
theorem ofNat_ne {i j : ℕ} (hij : i < j) (hn : j < i + n) : Fin.ofNat n i ≠ Fin.ofNat n j := by
  intro h
  have hmod : i % n = j % n := congrArg Fin.val h
  have hdvd := (Nat.modEq_iff_dvd' hij.le).mp hmod
  have hle := Nat.le_of_dvd (by omega) hdvd
  omega

/-- The next cell is written, when there is room. -/
theorem Queued.write {r : ℕ} (h : Queued data r l) (hroom : l.length < n) (x : α) :
    Queued (update data (Fin.ofNat n (r + l.length)) x) r l := by
  intro k hk
  rw [update_of_ne (ofNat_ne (by omega) (by omega))]
  exact h k hk

theorem Queued.snoc {r : ℕ} {x : α} (h : Queued data r l)
    (hx : data (Fin.ofNat n (r + l.length)) = x) : Queued data r (l ++ [x]) := by
  intro k hk
  rw [List.length_append, List.length_singleton] at hk
  rcases Nat.lt_succ_iff_lt_or_eq.mp hk with hlt | rfl
  · rw [h k hlt]
    simp [List.getElem_append_left hlt]
  · simpa using hx

theorem Queued.put {r : ℕ} (h : Queued data r l) (hroom : l.length < n) (x : α) :
    Queued (update data (Fin.ofNat n (r + l.length)) x) r (l ++ [x]) :=
  (h.write hroom x).snoc (update_self ..)

theorem Queued.take {r : ℕ} {x : α} (h : Queued data r (x :: l)) :
    data (Fin.ofNat n r) = x ∧ Queued data (r + 1) l := by
  constructor
  · exact h 0 (Nat.succ_pos _)
  · intro k hk
    rw [Nat.add_right_comm, Nat.add_assoc]
    exact h (k + 1) (Nat.succ_lt_succ hk)

end Ring
