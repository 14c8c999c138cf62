import Mathlib.Data.List.GetD
import Xv6Shmem.Theory.ByteMemory

/-!
# Memory behind an address translation

A translation takes some virtual addresses to addresses of a byte memory. Here are a copy out of a virtual
range, a copy into one and a copy of a zero-terminated string, each byte by byte and up to the first address
that is not translated.

A copy that goes in chunks does the same, as long as a chunk lies in one piece behind the translation: the
`_chunk` lemmas take one such piece off the byte-by-byte copy.

## What is proved

* `readBytes_fst`, `readBytes_bytes` — when a read succeeds, and what it gives.
* `readString_fst`, `readString_bytes`, `readString_length` — the same for a string.
* `writeBytes_fst`, `writeBytes_onlyOn`, `load_writeBytes` — when a write succeeds and what it changes.
* `readBytes_writeBytes` — what was written is read back.
-/

namespace Translation

variable {tr : ℕ → Option ℤ} {m : Mem} {a n : ℕ}

/-- The byte at a virtual address. -/
def load (tr : ℕ → Option ℤ) (m : Mem) (a : ℕ) : Option UInt8 := (tr a).map m

/-- `n` bytes of the memory itself. -/
def bytesAt (m : Mem) : ℕ → ℤ → List UInt8
  | 0, _ => []
  | n + 1, x => m x :: bytesAt m n (x + 1)

/-- Read `n` bytes: whether all of them are there, and those before the first that is not. -/
def readBytes (tr : ℕ → Option ℤ) (m : Mem) : ℕ → ℕ → Bool × List UInt8
  | 0, _ => (true, [])
  | n + 1, a =>
    match load tr m a with
    | none => (false, [])
    | some b => ((readBytes tr m n (a + 1)).1, b :: (readBytes tr m n (a + 1)).2)

/-- Read up to a zero, at most `n` bytes: whether a zero was found, and the bytes up to it. -/
def readString (tr : ℕ → Option ℤ) (m : Mem) : ℕ → ℕ → Bool × List UInt8
  | 0, _ => (false, [])
  | n + 1, a =>
    match load tr m a with
    | none => (false, [])
    | some b =>
      if b = 0 then (true, [0])
      else ((readString tr m n (a + 1)).1, b :: (readString tr m n (a + 1)).2)

/-- Write bytes: whether all of them have a place, and the memory. -/
def writeBytes (tr : ℕ → Option ℤ) : ℕ → List UInt8 → Mem → Bool × Mem
  | _, [], m => (true, m)
  | a, b :: bs, m =>
    match tr a with
    | none => (false, m)
    | some x => writeBytes tr (a + 1) bs (m.write x [b])

/-- The bytes `a` to `a + n` lie in one piece, from `x` on. -/
def Chunk (tr : ℕ → Option ℤ) (a n : ℕ) (x : ℤ) : Prop := ∀ i < n, tr (a + i) = some (x + i)

variable {x : ℤ} {bs : List UInt8}

theorem Chunk.head (h : Chunk tr a (n + 1) x) : tr a = some x := by simpa using h 0 n.succ_pos

theorem Chunk.tail (h : Chunk tr a (n + 1) x) : Chunk tr (a + 1) n (x + 1) := by
  intro i hi
  rw [Nat.add_assoc, h (1 + i) (by omega)]
  congr 1
  push_cast
  omega

/-- Every address of a range is translated, from its first address on. -/
theorem forall_lt_succ_add {P : ℕ → Prop} : (∀ j < n + 1, P (a + j)) ↔ P a ∧ ∀ j < n, P (a + 1 + j) := by
  constructor
  · intro h
    refine ⟨by simpa using h 0 n.succ_pos, fun j hj => ?_⟩
    rw [Nat.add_assoc, Nat.add_comm 1]
    exact h (j + 1) (by omega)
  · rintro ⟨h0, hs⟩ j hj
    cases j with
    | zero => exact h0
    | succ j =>
      rw [Nat.add_comm j, ← Nat.add_assoc]
      exact hs j (by omega)

/-! ### Reading -/

theorem readBytes_fst : (readBytes tr m n a).1 = true ↔ ∀ j < n, (tr (a + j)).isSome := by
  induction n generalizing a with
  | zero => simp [readBytes]
  | succ n ih =>
    rw [forall_lt_succ_add (P := fun c => (tr c).isSome), readBytes, load]
    cases tr a with
    | none => simp
    | some x => simp [ih]

theorem readBytes_bytes (h : (readBytes tr m n a).1 = true) :
    (readBytes tr m n a).2.map some = (List.range n).map fun j => load tr m (a + j) := by
  induction n generalizing a with
  | zero => rfl
  | succ n ih =>
    rw [readBytes] at h ⊢
    rw [List.range_succ_eq_map, List.map_cons, List.map_map, Nat.add_zero]
    cases hb : load tr m a with
    | none => rw [hb] at h; cases h
    | some b =>
      rw [hb] at h
      rw [List.map_cons, ih h]
      congr 1
      refine List.map_congr_left fun j _ => ?_
      rw [Function.comp_apply, Nat.succ_eq_add_one, Nat.add_comm j, Nat.add_assoc]

/-- What a read gives is fixed by the bytes that are loaded. -/
theorem readBytes_eq (h : ∀ j (hj : j < bs.length), load tr m (a + j) = some bs[j]) :
    readBytes tr m bs.length a = (true, bs) := by
  induction bs generalizing a with
  | nil => rfl
  | cons b bs ih =>
    have h0 : load tr m a = some b := h 0 (Nat.succ_pos _)
    have hs : readBytes tr m bs.length (a + 1) = (true, bs) := by
      refine ih fun j hj => ?_
      rw [Nat.add_assoc, Nat.add_comm 1]
      exact h (j + 1) (Nat.succ_lt_succ hj)
    rw [List.length_cons, readBytes, h0, hs]

theorem readBytes_chunk {l : ℕ} (h : Chunk tr a n x) :
    readBytes tr m (n + l) a =
      ((readBytes tr m l (a + n)).1, bytesAt m n x ++ (readBytes tr m l (a + n)).2) := by
  induction n generalizing a x with
  | zero => simp [bytesAt]
  | succ n ih =>
    have hnext : a + 1 + n = a + (n + 1) := by omega
    rw [Nat.add_right_comm, readBytes, load, h.head, Option.map_some, ih h.tail, hnext]
    rfl

/-! ### Strings -/

/-- A string of `k` bytes and a zero. -/
def IsString (tr : ℕ → Option ℤ) (m : Mem) (a k : ℕ) : Prop :=
  load tr m (a + k) = some 0 ∧ ∀ i < k, ∃ b, load tr m (a + i) = some b ∧ b ≠ 0

theorem isString_zero : IsString tr m a 0 ↔ load tr m a = some 0 := by simp [IsString]

theorem isString_succ {k : ℕ} :
    IsString tr m a (k + 1) ↔ (∃ b, load tr m a = some b ∧ b ≠ 0) ∧ IsString tr m (a + 1) k := by
  have hk : a + 1 + k = a + (k + 1) := by omega
  rw [IsString, IsString, forall_lt_succ_add (P := fun c => ∃ b, load tr m c = some b ∧ b ≠ 0), hk]
  exact and_left_comm

theorem readString_fst : (readString tr m n a).1 = true ↔ ∃ k < n, IsString tr m a k := by
  induction n generalizing a with
  | zero => simp [readString]
  | succ n ih =>
    rw [readString]
    cases hb : load tr m a with
    | none =>
      refine iff_of_false Bool.false_ne_true ?_
      rintro ⟨k, -, h⟩
      cases k with
      | zero => simp [isString_zero, hb] at h
      | succ k => simp [isString_succ, hb] at h
    | some b =>
      by_cases h0 : b = 0
      · simp only [h0, if_true, true_iff]
        exact ⟨0, n.succ_pos, isString_zero.mpr (by rw [hb, h0])⟩
      · simp only [h0, if_false, ih]
        constructor
        · rintro ⟨k, hk, h⟩
          exact ⟨k + 1, by omega, isString_succ.mpr ⟨⟨b, hb, h0⟩, h⟩⟩
        · rintro ⟨k, hk, h⟩
          cases k with
          | zero =>
            rw [isString_zero, hb] at h
            exact absurd (Option.some_inj.mp h) h0
          | succ k => exact ⟨k, by omega, (isString_succ.mp h).2⟩

/-- A string that is found is given with its zero. -/
theorem readString_bytes {k : ℕ} (hk : k < n) (h : IsString tr m a k) :
    (readString tr m n a).2.map some = (List.range (k + 1)).map fun i => load tr m (a + i) := by
  induction k generalizing a n with
  | zero =>
    obtain ⟨n, rfl⟩ := Nat.exists_eq_succ_of_ne_zero (Nat.ne_of_gt hk)
    rw [isString_zero] at h
    simp [readString, h]
  | succ k ih =>
    obtain ⟨n, rfl⟩ := Nat.exists_eq_succ_of_ne_zero (Nat.ne_of_gt (Nat.zero_lt_of_lt hk))
    obtain ⟨⟨b, hb, h0⟩, hs⟩ := isString_succ.mp h
    have hrec := ih (n := n) (by omega) hs
    rw [List.range_succ_eq_map, List.map_cons, List.map_map, Nat.add_zero, readString, hb]
    simp only [h0, if_false, List.map_cons, hrec]
    congr 1
    refine List.map_congr_left fun j _ => ?_
    rw [Function.comp_apply, Nat.succ_eq_add_one, Nat.add_comm j, Nat.add_assoc]

theorem readString_length : (readString tr m n a).2.length ≤ n := by
  induction n generalizing a with
  | zero => exact Nat.le_refl 0
  | succ n ih =>
    rw [readString]
    cases load tr m a with
    | none => exact Nat.zero_le _
    | some b =>
      by_cases h0 : b = 0
      · simp [h0]
      · simpa [h0] using ih

/-! ### Writing -/

theorem writeBytes_fst : (writeBytes tr a bs m).1 = true ↔ ∀ j < bs.length, (tr (a + j)).isSome := by
  induction bs generalizing a m with
  | nil => simp [writeBytes]
  | cons b bs ih =>
    rw [List.length_cons, forall_lt_succ_add (P := fun c => (tr c).isSome), writeBytes]
    cases tr a with
    | none => simp
    | some x => simp [ih]

theorem writeBytes_onlyOn :
    Mem.OnlyOn (fun x => ∃ j < bs.length, tr (a + j) = some x) m (writeBytes tr a bs m).2 := by
  induction bs generalizing a m with
  | nil => exact .rfl
  | cons b bs ih =>
    rw [writeBytes]
    cases hx : tr a with
    | none => exact .rfl
    | some x =>
      refine Mem.OnlyOn.trans (Mem.onlyOn_write fun y hy hy' => ⟨0, by simp, ?_⟩) fun y hy => ih y ?_
      · rw [List.length_singleton] at hy'
        rw [Nat.add_zero, hx, show x = y by omega]
      · rintro ⟨j, hj, hy'⟩
        refine hy ⟨j + 1, by simpa using hj, ?_⟩
        rw [Nat.add_comm j, ← Nat.add_assoc]
        exact hy'

/-- No two virtual addresses have the same place. -/
def Separate (tr : ℕ → Option ℤ) : Prop := ∀ a b x, tr a = some x → tr b = some x → a = b

/-- **A write changes its range and nothing else**, if no two addresses have the same place. -/
theorem load_writeBytes (hsep : Separate tr) (h : (writeBytes tr a bs m).1 = true) (b : ℕ) :
    load tr (writeBytes tr a bs m).2 b =
      if a ≤ b ∧ b < a + bs.length then some (bs.getD (b - a) 0) else load tr m b := by
  induction bs generalizing a m with
  | nil =>
    rw [if_neg (by simp)]
    rfl
  | cons c bs ih =>
    rw [writeBytes] at h ⊢
    cases hx : tr a with
    | none => rw [hx] at h; cases h
    | some x =>
      rw [hx] at h
      refine (ih h).trans ?_
      have hother : b ≠ a → load tr (m.write x [c]) b = load tr m b := fun hba => by
        rw [load, load]
        cases hy : tr b with
        | none => rfl
        | some y =>
          have hne : y ≠ x := by
            rintro rfl
            exact hba (hsep b a y hy hx)
          simp only [Option.map_some, Mem.write, List.length_singleton]
          rw [if_neg (by omega)]
      rcases Nat.lt_trichotomy b a with hlt | rfl | hlt
      · rw [if_neg (by omega), if_neg (by omega), hother hlt.ne]
      · -- the byte that was written first
        rw [if_neg (by omega), if_pos (by simp), load, hx]
        simp [Mem.write]
      · by_cases hin : b < a + 1 + bs.length
        · rw [if_pos (by omega), if_pos (by rw [List.length_cons]; omega)]
          have hsub : b - a = b - (a + 1) + 1 := by omega
          rw [hsub, List.getD_cons_succ]
        · rw [if_neg (by omega), if_neg (by rw [List.length_cons]; omega), hother hlt.ne']

/-- **What was written is read back.** -/
theorem readBytes_writeBytes (hsep : Separate tr) (h : (writeBytes tr a bs m).1 = true) :
    readBytes tr (writeBytes tr a bs m).2 bs.length a = (true, bs) := by
  refine readBytes_eq fun j hj => ?_
  rw [load_writeBytes hsep h, if_pos (by omega), Nat.add_sub_cancel_left, List.getD_eq_getElem _ _ hj]

theorem writeBytes_chunk (hn : n ≤ bs.length) (h : Chunk tr a n x) :
    writeBytes tr a bs m = writeBytes tr (a + n) (bs.drop n) (m.write x (bs.take n)) := by
  induction n generalizing a x bs m with
  | zero =>
    have hm : m.write x [] = m := by
      funext y
      simp [Mem.write]
    simp [hm]
  | succ n ih =>
    cases bs with
    | nil => simp at hn
    | cons b bs =>
      have hm : (m.write x [b]).write (x + 1) (bs.take n) = m.write x (b :: bs.take n) := by
        funext y
        simp only [Mem.write, List.length_cons, List.length_nil]
        by_cases hy : x + 1 ≤ y ∧ y < x + 1 + (bs.take n).length
        · have hsub : (y - x).toNat = (y - (x + 1)).toNat + 1 := by omega
          rw [if_pos hy, if_pos (by push_cast; omega), hsub, List.getD_cons_succ]
        · rw [if_neg hy]
          by_cases hy' : y = x
          · subst hy'
            simp
          · rw [if_neg (by push_cast; omega), if_neg (by push_cast; omega)]
      rw [writeBytes, h.head]
      simp only [List.drop_succ_cons, List.take_succ_cons]
      rw [ih (by simpa using hn) h.tail, hm, Nat.add_assoc, Nat.add_comm 1]

end Translation
