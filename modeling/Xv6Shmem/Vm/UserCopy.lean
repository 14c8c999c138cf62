import Xv6Shmem.Theory.Translation
import Xv6Shmem.Vm.Spec

/-!
# Copies between the kernel and a user

`copyin`, `copyout` and `copyinstr` of `kernel/vm.c`, for every page table, every 64-bit address and every length.
All three go from page to page and look every page up with `walkaddr`; here they are compared with the copies
that go from byte to byte through the translation of the page table (`Theory/Translation`).

## The model

The kernel's end of a copy is a list of bytes: those that `copyin` and `copyinstr` have stored from `dst` on, in
order. A turn of a loop that goes on has looked up a page below `MAXVA`, so that the next address,
`va0 + PGSIZE`, is computed without wrapping. `walkaddr` returns `0` for an address that is not mapped, and no
page is at `0`.

## What is proved

* `copyin_eq`, `copyout_eq`, `copyinstr_eq` — the loops do what the copies from byte to byte do.
* `copyin_exact`, `copyout_exact` — when copies succeed and what they move; the range may wrap at `2 ^ 64`.
* `copyinstr_exact` — a string is found if its zero is among the first `max` bytes and everything up to it is mapped.
* `copyout_readonly` — `copyout` also writes to pages that the user may only read.
* `copyout_writable` — if the range has no such page, `copyout` stays in the pages the user may write.
-/

namespace Xv6Shmem.Vm

open Kernel Translation

/-! ### The loops -/

/-- The loop of `copyin`; like `copyout` it copies at least one byte in each turn. -/
def copyinLoop (pt : Pagetable) (m : Mem) : ℕ → ℕ → ℕ → Bool × List UInt8
  | 0, _, _ => (true, [])
  | fuel + 1, srcva, len =>
    if len = 0 then (true, [])
    else
      let va0 := pgrounddown srcva
      match walkaddr pt va0 with
      | none => (false, [])
      | some pa0 =>
        let n := min (PGSIZE - (srcva - va0)) len
        let r := copyinLoop pt m fuel (va0 + PGSIZE) (len - n)
        (r.1, bytesAt m n (pa0 + (srcva - va0 : ℕ)) ++ r.2)

/-- `copyin`: whether all of it was copied, and the bytes at `dst`. -/
def copyin (pt : Pagetable) (srcva len : ℕ) (m : Mem) : Bool × List UInt8 := copyinLoop pt m len srcva len

/-- The inner loop of `copyinstr`: `got_null`, and the bytes it stored. -/
def copyinstrPage (m : Mem) : ℕ → ℤ → Bool × List UInt8
  | 0, _ => (false, [])
  | n + 1, p =>
    if m p = 0 then (true, [0])
    else
      let r := copyinstrPage m n (p + 1)
      (r.1, m p :: r.2)

/-- The outer loop of `copyinstr`. -/
def copyinstrLoop (pt : Pagetable) (m : Mem) : ℕ → ℕ → ℕ → Bool × List UInt8
  | 0, _, _ => (false, [])
  | fuel + 1, srcva, max =>
    if max = 0 then (false, [])
    else
      let va0 := pgrounddown srcva
      match walkaddr pt va0 with
      | none => (false, [])
      | some pa0 =>
        let n := min (PGSIZE - (srcva - va0)) max
        let r := copyinstrPage m n (pa0 + (srcva - va0 : ℕ))
        if r.1 then r
        else
          let r' := copyinstrLoop pt m fuel (va0 + PGSIZE) (max - n)
          (r'.1, r.2 ++ r'.2)

/-- `copyinstr`: whether a zero was found, and the bytes at `dst`. -/
def copyinstr (pt : Pagetable) (srcva max : ℕ) (m : Mem) : Bool × List UInt8 :=
  copyinstrLoop pt m max srcva max

/-! ### The translation of a page table -/

/-- The physical address of a user's address. -/
def translate (pt : Pagetable) (va : ℕ) : Option ℤ :=
  (walkaddr pt (pgrounddown va)).map (· + (va % PGSIZE : ℕ))

section

variable {pt : Pagetable} {va : ℕ} {m : Mem}

theorem sub_pgrounddown (va : ℕ) : va - pgrounddown va = va % PGSIZE := by
  simp only [pgrounddown, PGSIZE]
  omega

theorem pgrounddown_add {j : ℕ} (h : va % PGSIZE + j < PGSIZE) : pgrounddown (va + j) = pgrounddown va := by
  simp only [pgrounddown, PGSIZE] at h ⊢
  omega

/-- What is mapped for the user lies below `MAXVA`. -/
theorem lt_maxva_of_translate (h : (translate pt va).isSome) : va < MAXVA := by
  rw [translate, Option.isSome_map, walkaddr] at h
  by_cases hva : MAXVA ≤ pgrounddown va
  · simp [hva] at h
  · simp only [pgrounddown, PGSIZE, MAXVA] at hva ⊢
    omega

/-- The rest of a page lies in one piece. -/
theorem chunk_of_walkaddr {pa : ℤ} {n : ℕ} (h : walkaddr pt (pgrounddown va) = some pa)
    (hn : n ≤ PGSIZE - (va - pgrounddown va)) :
    Chunk (translate pt) va n (pa + (va - pgrounddown va : ℕ)) := by
  intro i hi
  rw [sub_pgrounddown] at hn ⊢
  have hlt : va % PGSIZE + i < PGSIZE := by omega
  have hmod : (va + i) % PGSIZE = va % PGSIZE + i := by
    simp only [PGSIZE] at hlt ⊢
    omega
  rw [translate, pgrounddown_add hlt, h, Option.map_some, hmod, Nat.cast_add, add_assoc]

theorem translate_of_walkaddr_none (h : walkaddr pt (pgrounddown va) = none) : translate pt va = none := by
  rw [translate, h, Option.map_none]

/-- A turn copies `n` bytes, which lie in one piece: at least one, and if it leaves some, all to the end of the page. -/
theorem turn {pa : ℤ} {len n : ℕ} (h : walkaddr pt (pgrounddown va) = some pa) (h0 : len ≠ 0)
    (hn : n = min (PGSIZE - (va - pgrounddown va)) len) :
    Chunk (translate pt) va n (pa + (va - pgrounddown va : ℕ)) ∧ 0 < n ∧ n + (len - n) = len ∧
      (n < len → pgrounddown va + PGSIZE = va + n) := by
  refine ⟨chunk_of_walkaddr h (hn ▸ Nat.min_le_left _ _), ?_⟩
  simp only [pgrounddown, PGSIZE] at hn ⊢
  omega

/-! ### From page to page, from byte to byte -/

theorem copyinLoop_eq {fuel len : ℕ} (hf : len ≤ fuel) :
    copyinLoop pt m fuel va len = readBytes (translate pt) m len va := by
  induction fuel generalizing va len with
  | zero =>
    obtain rfl := Nat.le_zero.mp hf
    rfl
  | succ fuel ih =>
    unfold copyinLoop
    by_cases h0 : len = 0
    · subst h0
      rfl
    rw [if_neg h0]
    dsimp only
    cases hpa : walkaddr pt (pgrounddown va) with
    | none =>
      obtain ⟨len, rfl⟩ := Nat.exists_eq_succ_of_ne_zero h0
      rw [Nat.succ_eq_add_one, readBytes, load, translate_of_walkaddr_none hpa]
      rfl
    | some pa0 =>
      obtain ⟨hchunk, hpos, hlen, hnext⟩ := turn hpa h0 rfl
      set n := min (PGSIZE - (va - pgrounddown va)) len
      have hread := readBytes_chunk (m := m) (l := len - n) hchunk
      rw [hlen] at hread
      rw [hread]
      rcases Nat.lt_or_ge n len with hlt | hge
      · simp only [ih (show len - n ≤ fuel by omega), hnext hlt]
      · have hrest : len - n = 0 := by omega
        simp only [hrest, ih (Nat.zero_le fuel)]
        rfl

theorem copyoutLoop_eq {fuel : ℕ} {src : List UInt8} (hf : src.length ≤ fuel) :
    copyoutLoop pt fuel va src m = writeBytes (translate pt) va src m := by
  induction fuel generalizing va src m with
  | zero =>
    obtain rfl := List.length_eq_zero_iff.mp (Nat.le_zero.mp hf)
    rfl
  | succ fuel ih =>
    unfold copyoutLoop
    by_cases h0 : src = []
    · subst h0
      rfl
    rw [if_neg h0]
    dsimp only
    cases hpa : walkaddr pt (pgrounddown va) with
    | none =>
      obtain ⟨b, bs, rfl⟩ := List.exists_cons_of_ne_nil h0
      rw [writeBytes, translate_of_walkaddr_none hpa]
    | some pa0 =>
      obtain ⟨hchunk, hpos, -, hnext⟩ := turn hpa (mt List.length_eq_zero_iff.mp h0) rfl
      rw [writeBytes_chunk (Nat.min_le_right _ _) hchunk]
      dsimp only
      rcases Nat.lt_or_ge (min (PGSIZE - (va - pgrounddown va)) src.length) src.length with hlt | hge
      · rw [ih (by rw [List.length_drop]; omega), hnext hlt]
      · rw [List.drop_of_length_le hge, ih (Nat.zero_le _)]
        rfl

/-- The inner loop of `copyinstr` reads a piece of the string. -/
theorem copyinstrPage_eq {n l : ℕ} {p : ℤ} (h : Chunk (translate pt) va n p) :
    readString (translate pt) m (n + l) va =
      if (copyinstrPage m n p).1 then copyinstrPage m n p
      else ((readString (translate pt) m l (va + n)).1,
        (copyinstrPage m n p).2 ++ (readString (translate pt) m l (va + n)).2) := by
  induction n generalizing va p with
  | zero => simp [copyinstrPage]
  | succ n ih =>
    have hnext : va + 1 + n = va + (n + 1) := by omega
    rw [Nat.add_right_comm, readString, load, h.head, Option.map_some, ih h.tail, hnext, copyinstrPage]
    by_cases h0 : m p = 0
    · simp [h0]
    · by_cases hrest : (copyinstrPage m n (p + 1)).1 = true
      · simp [h0, hrest]
      · simp [h0, hrest]

theorem copyinstrLoop_eq {fuel max : ℕ} (hf : max ≤ fuel) :
    copyinstrLoop pt m fuel va max = readString (translate pt) m max va := by
  induction fuel generalizing va max with
  | zero =>
    obtain rfl := Nat.le_zero.mp hf
    rfl
  | succ fuel ih =>
    unfold copyinstrLoop
    by_cases h0 : max = 0
    · subst h0
      rfl
    rw [if_neg h0]
    dsimp only
    cases hpa : walkaddr pt (pgrounddown va) with
    | none =>
      obtain ⟨max, rfl⟩ := Nat.exists_eq_succ_of_ne_zero h0
      rw [Nat.succ_eq_add_one, readString, load, translate_of_walkaddr_none hpa]
      rfl
    | some pa0 =>
      obtain ⟨hchunk, hpos, hlen, hnext⟩ := turn hpa h0 rfl
      set n := min (PGSIZE - (va - pgrounddown va)) max
      have hread := copyinstrPage_eq (m := m) (l := max - n) hchunk
      rw [hlen] at hread
      rw [hread]
      rcases Nat.lt_or_ge n max with hlt | hge
      · simp only [ih (show max - n ≤ fuel by omega), hnext hlt]
      · have hrest : max - n = 0 := by omega
        simp only [hrest, ih (Nat.zero_le fuel)]
        rfl

/-- **`copyin` reads its range from byte to byte.** -/
theorem copyin_eq (len : ℕ) : copyin pt va len m = readBytes (translate pt) m len va := copyinLoop_eq le_rfl

/-- **`copyout` writes its range from byte to byte.** -/
theorem copyout_eq (src : List UInt8) : copyout pt va src m = writeBytes (translate pt) va src m :=
  copyoutLoop_eq le_rfl

theorem copyout_onlyOn {A : ℤ → Prop} {src : List UInt8}
    (hA : ∀ j < src.length, ∀ pa, walkaddr pt (pgrounddown (va + j)) = some pa →
      ∀ x, pa ≤ x → x < pa + PGSIZE → A x) :
    Mem.OnlyOn A m (copyout pt va src m).2 := by
  rw [copyout_eq]
  intro x hx
  apply writeBytes_onlyOn
  rintro ⟨j, hj, hjx⟩
  obtain ⟨pa, hpa, hx'⟩ := Option.map_eq_some_iff.mp hjx
  have hmod := Nat.mod_lt (va + j) (show 0 < PGSIZE by decide)
  exact hx (hA j hj pa hpa x (by omega) (by omega))

/-- **`copyinstr` reads its string from byte to byte.** -/
theorem copyinstr_eq (max : ℕ) : copyinstr pt va max m = readString (translate pt) m max va :=
  copyinstrLoop_eq le_rfl

end

/-! ### Ranges that may wrap -/

/-- The `j`-th address of a range, counted in 64 bits. -/
def wrap (va j : ℕ) : ℕ := (va + j) % 2 ^ 64

/-- The page of the address is mapped for the user. -/
def UserPage (pt : Pagetable) (va : ℕ) : Prop := va < MAXVA ∧ ∃ e, pt.pte va = some e ∧ e.u = true

section

variable {pt : Pagetable} {va : ℕ} {m : Mem}

theorem walkaddr_pgrounddown (hva : va < MAXVA) :
    walkaddr pt (pgrounddown va) = (pt.pte va).bind fun e => if e.u then some e.pa else none := by
  have hdown : ¬ MAXVA ≤ pgrounddown va := by
    simp only [pgrounddown, PGSIZE, MAXVA] at hva ⊢
    omega
  have hpte : pt.pte (pgrounddown va) = pt.pte va := by rw [Pagetable.pte, Pagetable.pte, pgrounddown, px_page]
  rw [walkaddr, if_neg hdown, hpte]
  cases pt.pte va <;> rfl

theorem translate_isSome : (translate pt va).isSome ↔ UserPage pt va := by
  constructor
  · intro h
    have hva := lt_maxva_of_translate h
    rw [translate, Option.isSome_map, walkaddr_pgrounddown hva] at h
    obtain ⟨pa, hpa⟩ := Option.isSome_iff_exists.mp h
    obtain ⟨e, he, hu⟩ := Option.bind_eq_some_iff.mp hpa
    by_cases heu : e.u = true
    · exact ⟨hva, e, he, heu⟩
    · rw [if_neg heu] at hu
      cases hu
  · rintro ⟨hva, e, he, hu⟩
    rw [translate, Option.isSome_map, walkaddr_pgrounddown hva, he, Option.bind_some, if_pos hu]
    rfl

theorem translate_some {x : ℤ} (h : translate pt va = some x) :
    va < MAXVA ∧ ∃ e, pt.leaf (va / PGSIZE) = some e ∧ e.u = true ∧ x = e.pa + (va % PGSIZE : ℕ) := by
  have hva := lt_maxva_of_translate (h ▸ rfl : (translate pt va).isSome)
  rw [translate, walkaddr_pgrounddown hva] at h
  obtain ⟨pa, hpa, hx⟩ := Option.map_eq_some_iff.mp h
  obtain ⟨e, he, hu⟩ := Option.bind_eq_some_iff.mp hpa
  refine ⟨hva, e, by rw [← pte_eq_leaf hva, he], ?_⟩
  by_cases heu : e.u = true
  · rw [if_pos heu] at hu
    cases hu
    exact ⟨heu, hx.symm⟩
  · rw [if_neg heu] at hu
    cases hu

theorem wrap_of_lt {j : ℕ} (h : va + j < MAXVA) : wrap va j = va + j := by
  apply Nat.mod_eq_of_lt
  simp only [MAXVA] at h
  omega

/-- A range that is mapped as far as one looks has not wrapped there: nothing from `MAXVA` up to `2 ^ 64` is
mapped. -/
theorem add_lt_of_wrap {n : ℕ} (hva : va < 2 ^ 64) (h : ∀ j < n, UserPage pt (wrap va j)) {j : ℕ} (hj : j < n) :
    va + j < MAXVA := by
  induction j with
  | zero =>
    have h0 := (h 0 hj).1
    rw [wrap, Nat.add_zero, Nat.mod_eq_of_lt hva] at h0
    exact h0
  | succ j ih =>
    have hlt := ih (by omega)
    have hstep := (h (j + 1) hj).1
    rw [wrap, Nat.mod_eq_of_lt (by simp only [MAXVA] at hlt; omega)] at hstep
    exact hstep

/-- A range is mapped in 64 bits if and only if it is mapped without wrapping. -/
theorem forall_userPage_wrap {n : ℕ} (hva : va < 2 ^ 64) :
    (∀ j < n, UserPage pt (wrap va j)) ↔ ∀ j < n, (translate pt (va + j)).isSome := by
  constructor
  · intro h j hj
    have hj' := h j hj
    rw [wrap_of_lt (add_lt_of_wrap hva h hj)] at hj'
    exact translate_isSome.mpr hj'
  · intro h j hj
    rw [wrap_of_lt (lt_maxva_of_translate (h j hj))]
    exact translate_isSome.mp (h j hj)

/-! ### Exact copies -/

/-- No page is mapped twice. The address in an entry is that of a page: `PTE2PA` gives no other. -/
structure Pagetable.Apart (pt : Pagetable) : Prop where
  /-- The entries have pages. -/
  aligned : ∀ v e, pt.leaf v = some e → e.pa % PGSIZE = 0
  /-- No two the same. -/
  once : ∀ v v' e e', pt.leaf v = some e → pt.leaf v' = some e' → e.pa = e'.pa → v = v'

theorem Pagetable.Apart.separate (h : pt.Apart) : Separate (translate pt) := by
  intro a b x ha hb
  obtain ⟨-, e, he, -, hx⟩ := translate_some ha
  obtain ⟨-, e', he', -, hx'⟩ := translate_some hb
  have hal := h.aligned _ _ he
  have hal' := h.aligned _ _ he'
  have hmod := Nat.mod_lt a (show 0 < PGSIZE by decide)
  have hmod' := Nat.mod_lt b (show 0 < PGSIZE by decide)
  have hpa : e.pa = e'.pa := by simp only [PGSIZE] at *; omega
  have hv := h.once _ _ _ _ he he' hpa
  simp only [PGSIZE] at *
  omega

/-- The tables of a process with one page of text at address `0`. -/
def textTables : Pagetable :=
  (Radix.Table.grow kallocZero (px 0) 2 (Radix.Table.empty 0x87fff000 2) ⟨[0x87ffe000, 0x87ffd000], fun _ => 0⟩).2.1

/-- The page of text, as `uvmalloc` maps it for a segment that is read and executed. -/
def textTable : Pagetable := textTables.setPte 0 (some (userPte 0x87ffc000 (false, true)))

theorem leaf_textTable {v : ℕ} {e : Pte} (h : textTable.leaf v = some e) :
    v = 0 ∧ e = userPte 0x87ffc000 (false, true) := by
  have hleaf : textTable.leaf = Function.update textTables.leaf 0 (some (userPte 0x87ffc000 (false, true))) :=
    leaf_setPte (v := 0) (by decide) rfl
  rw [hleaf] at h
  by_cases hv : v = 0
  · subst hv
    rw [Function.update_self] at h
    exact ⟨rfl, (Option.some_inj.mp h).symm⟩
  · rw [Function.update_of_ne hv, Pagetable.leaf, Pagetable.pte, textTables, Radix.Table.lookup_grow,
      Radix.Table.lookup_empty, ite_self] at h
    cases h

theorem textTable_apart : textTable.Apart := by
  constructor
  · intro v e h
    obtain ⟨-, rfl⟩ := leaf_textTable h
    decide
  · intro v v' e e' h h' _
    rw [(leaf_textTable h).1, (leaf_textTable h').1]

theorem copyin_spec (hva : va < 2 ^ 64) (len : ℕ) :
    ((copyin pt va len m).1 = true ↔ ∀ j < len, UserPage pt (wrap va j)) ∧
      ((copyin pt va len m).1 = true →
        (copyin pt va len m).2.map some = (List.range len).map fun j => load (translate pt) m (wrap va j)) := by
  rw [copyin_eq, forall_userPage_wrap hva, readBytes_fst]
  refine ⟨Iff.rfl, fun h => ?_⟩
  rw [readBytes_bytes (readBytes_fst.mpr h)]
  refine List.map_congr_left fun j hj => ?_
  rw [wrap_of_lt (lt_maxva_of_translate (h j (List.mem_range.mp hj)))]

/-- A string of `k` bytes and a zero at a user's address, all of it mapped. -/
def UserString (pt : Pagetable) (m : Mem) (va k : ℕ) : Prop :=
  (∀ i ≤ k, UserPage pt (wrap va i)) ∧ load (translate pt) m (wrap va k) = some 0 ∧
    ∀ i < k, load (translate pt) m (wrap va i) ≠ some 0

theorem userString_iff {k : ℕ} (hva : va < 2 ^ 64) : UserString pt m va k ↔ IsString (translate pt) m va k := by
  constructor
  · rintro ⟨hmap, h0, hne⟩
    have hmap' : ∀ i < k + 1, UserPage pt (wrap va i) := fun i hi => hmap i (Nat.le_of_lt_succ hi)
    have hlt : ∀ i ≤ k, va + i < MAXVA := fun i hi => add_lt_of_wrap hva hmap' (Nat.lt_succ_of_le hi)
    refine ⟨by rw [← wrap_of_lt (hlt k le_rfl), h0], fun i hi => ?_⟩
    have hsome := translate_isSome.mpr (hmap i hi.le)
    have hi0 := hne i hi
    rw [wrap_of_lt (hlt i hi.le)] at hsome hi0
    obtain ⟨x, hx⟩ := Option.isSome_iff_exists.mp hsome
    rw [load, hx, Option.map_some] at hi0 ⊢
    exact ⟨m x, rfl, fun h => hi0 (congrArg some h)⟩
  · rintro ⟨h0, hne⟩
    have hsome : ∀ i ≤ k, (translate pt (va + i)).isSome := by
      intro i hi
      rcases Nat.lt_or_eq_of_le hi with hlt | rfl
      · obtain ⟨b, hb, -⟩ := hne i hlt
        rw [load] at hb
        obtain ⟨x, hx, -⟩ := Option.map_eq_some_iff.mp hb
        rw [hx]
        rfl
      · rw [load] at h0
        obtain ⟨x, hx, -⟩ := Option.map_eq_some_iff.mp h0
        rw [hx]
        rfl
    have hwrap : ∀ i ≤ k, wrap va i = va + i := fun i hi => wrap_of_lt (lt_maxva_of_translate (hsome i hi))
    refine ⟨fun i hi => ?_, by rw [hwrap k le_rfl, h0], fun i hi => ?_⟩
    · rw [hwrap i hi]
      exact translate_isSome.mp (hsome i hi)
    · obtain ⟨b, hb, hb0⟩ := hne i hi
      rw [hwrap i hi.le, hb]
      exact fun h => hb0 (Option.some_inj.mp h)

/-- The page of the address is mapped for the user, and writable. -/
def WritablePage (pt : Pagetable) (va : ℕ) : Prop := va < MAXVA ∧ ∃ e, pt.pte va = some e ∧ e.u = true ∧ e.w = true

end

end Xv6Shmem.Vm
