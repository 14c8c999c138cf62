import Xv6Shmem.Theory.RadixPages
import Xv6Shmem.Vm.Flat

/-!
# The tree in memory

Memory holds a page table if it can be unfolded into a tree: the word of an inner entry is not valid, or it is the
packed address of the page of a table of the level below, without `PTE_R`, `PTE_W` and `PTE_X` (`Rep`). The tree is one of
`Radix.Table`, with the words of its leaves as values and the addresses of its pages as names. Nothing is shared if
the names are all different (`Tree`), and the pages that `walk` takes are new if the free pages are different
from them and from each other (`Fresh`).

## What is proved

* `pte2pa_pack`, `pteFlags_pack`, `px_key` — the packed fields of entries and addresses.
* `entryAddr_inj` — different entries of different tables are at different addresses.
* `Rep.congr` — only the pages of the tree matter.
* `walkLoop_find`, `walkLoop_alloc` — `walk` finds the entry of the tree, and makes the tables that `grow` makes.
* `Rep.write` — a store to an entry is a write to the tree.
-/

namespace Xv6Shmem.Flat

open Function Radix

/-! ### Packed fields -/

theorem and_high {a : ℕ} (ha : a < 2 ^ 64) : a &&& (2 ^ 64 - 4096) = a / 4096 * 4096 := by
  have hmask : (2 ^ 64 - 4096 : ℕ) = (2 ^ 52 - 1) <<< 12 := by decide
  have hdiv : a / 4096 * 4096 = (a >>> 12) <<< 12 := by
    rw [Nat.shiftLeft_eq, Nat.shiftRight_eq_div_pow]
  rw [hmask, hdiv]
  apply Nat.eq_of_testBit_eq
  intro i
  rw [Nat.testBit_and, Nat.testBit_shiftLeft, Nat.testBit_shiftLeft, Nat.testBit_shiftRight, Nat.testBit_two_pow_sub_one]
  by_cases hi : 12 ≤ i
  · have hback : 12 + (i - 12) = i := by omega
    by_cases h64 : i < 64
    · have hlt : i - 12 < 52 := by omega
      simp [hi, hback, hlt]
    · have hle : 2 ^ 64 ≤ 2 ^ i := Nat.pow_le_pow_right (by decide) (by omega)
      have hfalse : a.testBit i = false := Nat.testBit_lt_two_pow (lt_of_lt_of_le ha hle)
      simp [hi, hback, hfalse]
  · simp [hi]

theorem toNat_pgrounddown (a : UInt64) : (pgrounddown a).toNat = a.toNat / 4096 * 4096 := by
  rw [pgrounddown, UInt64.toNat_and]
  exact and_high a.toNat_lt

theorem toNat_pte2pa (w : UInt64) : (pte2pa w).toNat = w.toNat / 1024 * 4096 % 2 ^ 64 := by
  simp [pte2pa, UInt64.toNat_shiftLeft, UInt64.toNat_shiftRight, Nat.shiftLeft_eq, Nat.shiftRight_eq_div_pow]

theorem toNat_pteFlags (w : UInt64) : (pteFlags w).toNat = w.toNat % 1024 := by
  rw [pteFlags, UInt64.toNat_and]
  exact Nat.and_two_pow_sub_one_eq_mod w.toNat 10

theorem toNat_pack (pa : UInt64) {f : UInt64} (hf : f.toNat < 1024) :
    (pa2pte pa ||| f).toNat = pa.toNat / 4096 * 1024 + f.toNat := by
  have hpa : (pa2pte pa).toNat = 2 ^ 10 * (pa.toNat / 4096) := by
    have hlt := pa.toNat_lt
    simp only [pa2pte, UInt64.toNat_shiftLeft, UInt64.toNat_shiftRight, UInt64.toNat_ofNat, Nat.shiftLeft_eq,
      Nat.shiftRight_eq_div_pow, Nat.reducePow, Nat.reduceMod]
    omega
  rw [UInt64.toNat_or, hpa, ← Nat.two_pow_add_eq_or_of_lt hf]
  omega

theorem pte2pa_pack (pa : UInt64) {f : UInt64} (hf : f.toNat < 1024) : pte2pa (pa2pte pa ||| f) = pgrounddown pa := by
  apply UInt64.toNat_inj.mp
  have hlt := pa.toNat_lt
  rw [toNat_pte2pa, toNat_pack pa hf, toNat_pgrounddown]
  omega

theorem pteFlags_pack (pa : UInt64) {f : UInt64} (hf : f.toNat < 1024) : pteFlags (pa2pte pa ||| f) = f := by
  apply UInt64.toNat_inj.mp
  rw [toNat_pteFlags, toNat_pack pa hf]
  omega

/-- Whether an entry is valid is said by its flags. -/
theorem and_flags {w f : UInt64} (hf : f &&& 0x3FF = f) : w &&& f = pteFlags w &&& f := by
  rw [pteFlags, UInt64.and_assoc, UInt64.and_comm 0x3FF f, hf]

/-! ### Entries -/

/-- A page is at a multiple of its size. -/
def Aligned (b : UInt64) : Prop := b.toNat % 4096 = 0

theorem pgrounddown_of_aligned {b : UInt64} (h : Aligned b) : pgrounddown b = b := by
  apply UInt64.toNat_inj.mp
  rw [toNat_pgrounddown]
  unfold Aligned at h
  omega

theorem aligned_pte2pa (w : UInt64) : Aligned (pte2pa w) := by
  unfold Aligned
  rw [toNat_pte2pa]
  omega

/-- The address of entry `i` of the table at `b`. -/
def entry (b : UInt64) (i : Fin 512) : UInt64 := entryAddr b (UInt64.ofNat i)

theorem toNat_entry {b : UInt64} (h : Aligned b) (i : Fin 512) : (entry b i).toNat = b.toNat + 8 * i := by
  have hb := b.toNat_lt
  have hi := i.isLt
  unfold Aligned at h
  simp only [entry, entryAddr, UInt64.toNat_add, UInt64.toNat_mul, UInt64.toNat_ofNat']
  have h8 : (8 : UInt64).toNat = 8 := rfl
  rw [h8]
  omega

/-- **Different entries are at different addresses**. -/
theorem entryAddr_inj {b b' : UInt64} (h : Aligned b) (h' : Aligned b') {i j : Fin 512} :
    entry b i = entry b' j ↔ b = b' ∧ i = j := by
  constructor
  · intro he
    have hnat := congrArg UInt64.toNat he
    rw [toNat_entry h, toNat_entry h'] at hnat
    have hi := i.isLt
    have hj := j.isLt
    unfold Aligned at h h'
    refine ⟨UInt64.toNat_inj.mp (by omega), Fin.ext (by omega)⟩
  · rintro ⟨rfl, rfl⟩
    rfl

theorem inPage_entry {b : UInt64} (h : Aligned b) (i : Fin 512) : InPage b (entry b i) := by
  have hi := i.isLt
  rw [InPage, toNat_entry h]
  omega

theorem not_inPage_entry {b b' : UInt64} (h : Aligned b) (h' : Aligned b') (hne : b' ≠ b) (i : Fin 512) :
    ¬InPage b' (entry b i) := by
  rintro ⟨hle, hlt⟩
  have hi := i.isLt
  rw [toNat_entry h] at hle hlt
  unfold Aligned at h h'
  exact hne (UInt64.toNat_inj.mp (by omega))

/-! ### Keys -/

/-- The number of pages below `MAXVA`. -/
abbrev NPAGES : ℕ := 2 ^ 26

/-- The index of page number `p` at each level. -/
def key (p : ℕ) (level : ℕ) : Fin 512 := ⟨p / 2 ^ (9 * level) % 512, Nat.mod_lt _ (by decide)⟩

/-- The page number of an address. -/
def pageNo (va : UInt64) : ℕ := va.toNat / 4096

/-- **The indices of an address** are those of its page number. -/
theorem px_key (va : UInt64) {level : ℕ} (hl : level ≤ 2) : px level va = UInt64.ofNat (key (pageNo va) level) := by
  apply UInt64.toNat_inj.mp
  have hshift : (UInt64.ofNat (12 + 9 * level)).toNat % 64 = 12 + 9 * level := by
    rw [UInt64.toNat_ofNat']
    omega
  have hdiv : va.toNat / 2 ^ (12 + 9 * level) = va.toNat / 4096 / 2 ^ (9 * level) := by
    rw [Nat.div_div_eq_div_mul, Nat.pow_add]
  rw [px, UInt64.toNat_and, UInt64.toNat_shiftRight, Nat.shiftRight_eq_div_pow, hshift, hdiv, UInt64.toNat_ofNat']
  simp only [key, pageNo]
  have hmod : ∀ x : ℕ, x &&& (0x1FF : UInt64).toNat = x % 512 := fun x => Nat.and_two_pow_sub_one_eq_mod x 9
  rw [hmod]
  omega

/-- **Different pages have different indices**. -/
theorem key_ne {p q : ℕ} (hp : p < NPAGES) (hq : q < NPAGES) (hne : p ≠ q) : ∃ l ≤ 2, key p l ≠ key q l := by
  by_contra hall
  push Not at hall
  have h0 := congrArg Fin.val (hall 0 (by omega))
  have h1 := congrArg Fin.val (hall 1 (by omega))
  have h2 := congrArg Fin.val (hall 2 (by omega))
  simp only [key] at h0 h1 h2
  norm_num at h0 h1 h2
  simp only [NPAGES] at hp hq
  omega

/-! ### Trees in memory -/

/-- A page table as a tree: the words of its leaves, and the addresses of its tables. -/
abbrev Tree := Table 512 UInt64 UInt64

/-- A leaf entry, if it is valid. -/
def leafOf (w : UInt64) : Option UInt64 := if w &&& PTE_V = 0 then none else some w

/-- An entry that points to a table: it is valid, and none of `PTE_R`, `PTE_W` and `PTE_X` is set. -/
def Inner (w : UInt64) : Prop := w &&& PTE_V ≠ 0 ∧ w &&& (PTE_R ||| PTE_W ||| PTE_X) = 0

/-- Memory holds the tree. -/
def Rep (m : UInt64 → UInt64) : (n : ℕ) → Tree n → Prop
  | 0, t => ∀ i, t.2 i = leafOf (m (entry t.1 i))
  | n + 1, t => ∀ i,
    match t.2 i with
    | none => m (entry t.1 i) &&& PTE_V = 0
    | some c => Inner (m (entry t.1 i)) ∧ pte2pa (m (entry t.1 i)) = c.name n ∧ Rep m n c

/-- The pages are at multiples of their size. -/
def AllAligned (s : Multiset UInt64) : Prop := ∀ b ∈ s, Aligned b

theorem AllAligned.mono {s u : Multiset UInt64} (h : AllAligned u) (hle : s ≤ u) : AllAligned s :=
  fun b hb => h b (Multiset.mem_of_le hle hb)

/-- Outside of the pages `s` memory is the same. -/
def SameOff (s : Multiset UInt64) (m m' : UInt64 → UInt64) : Prop :=
  ∀ a, (∀ b ∈ s, ¬InPage b a) → m' a = m a

theorem SameOff.mono {s u : Multiset UInt64} {m m' : UInt64 → UInt64} (h : SameOff s m m') (hle : s ≤ u) : SameOff u m m' :=
  fun a ha => h a fun b hb => ha b (Multiset.mem_of_le hle hb)

section Trees

variable {m m' : UInt64 → UInt64} {n : ℕ} {t : Tree n} {b : UInt64}

/-- **Only the pages of the tree matter**. -/
theorem Rep.congr (h : Rep m n t) (hsame : ∀ b ∈ Table.names n t, ∀ i, m' (entry b i) = m (entry b i)) : Rep m' n t := by
  induction n with
  | zero =>
    intro i
    rw [hsame t.1 (Table.name_mem_names t) i]
    exact h i
  | succ n ih =>
    intro i
    have hi := h i
    have hroot := hsame t.1 (Table.fst_mem_names t) i
    cases hc : t.2 i with
    | none =>
      simp only [hc] at hi ⊢
      rw [hroot]
      exact hi
    | some c =>
      simp only [hc] at hi ⊢
      rw [hroot]
      refine ⟨hi.1, hi.2.1, ih hi.2.2 fun b hb => hsame b ?_⟩
      exact Multiset.mem_of_le (Table.names_le_of_entry hc) hb

/-- Memory that is the same outside of other pages holds the same tree. -/
theorem Rep.sameOff (h : Rep m n t) {s : Multiset UInt64} (hsame : SameOff s m m') (ht : AllAligned (Table.names n t))
    (hs : AllAligned s) (hdis : Disjoint (Table.names n t) s) : Rep m' n t := by
  refine h.congr fun b hb i => hsame _ fun b' hb' => ?_
  refine not_inPage_entry (ht b hb) (hs b' hb') ?_ i
  rintro rfl
  exact Multiset.disjoint_left.mp hdis hb hb'

theorem SameOff.entry {s : Multiset UInt64} (h : SameOff s m m') (hs : AllAligned s) (hb : Aligned b) (hnot : b ∉ s)
    (i : Fin 512) : m' (entry b i) = m (entry b i) := by
  refine h _ fun b' hb' => not_inPage_entry hb (hs b' hb') ?_ i
  rintro rfl
  exact hnot hb'

theorem rep_empty (hb : Aligned b) (h : ∀ a, InPage b a → m a = 0) (n : ℕ) : Rep m n (Table.empty b n) := by
  cases n with
  | zero =>
    intro i
    simp only [Table.empty]
    rw [h _ (inPage_entry hb i)]
    rfl
  | succ n =>
    intro i
    simp only [Table.empty]
    rw [h _ (inPage_entry hb i)]
    rfl

theorem Rep.update {t : Tree (n + 1)} (h : Rep m (n + 1) t) {i : Fin 512} {c : Tree n}
    (hroot : ∀ j, j ≠ i → m' (entry t.1 j) = m (entry t.1 j)) (hothers : ∀ j d, j ≠ i → t.2 j = some d → Rep m n d → Rep m' n d)
    (hinner : Inner (m' (entry t.1 i))) (hpa : pte2pa (m' (entry t.1 i)) = c.name n) (hc : Rep m' n c) :
    Rep m' (n + 1) ((t.1, Function.update t.2 i (some c)) : Tree (n + 1)) := by
  intro j
  by_cases hj : j = i
  · subst hj
    simp only [update_self]
    exact ⟨hinner, hpa, hc⟩
  · have hold := h j
    simp only [update_of_ne hj]
    rw [hroot j hj]
    cases hd : t.2 j with
    | none =>
      simp only [hd] at hold
      exact hold
    | some d =>
      simp only [hd] at hold
      exact ⟨hold.1, hold.2.1, hothers j d hj hd hold.2.2⟩

theorem Inner.of_flags {w : UInt64} (h : pteFlags w = PTE_V) : Inner w := by
  constructor
  · rw [and_flags (by decide), h]
    decide
  · rw [and_flags (by decide), h]
    decide

/-! ### `walk` -/

theorem walkLoop_succ (va : UInt64) (alloc : Bool) (b : UInt64) (k : Kmem) (hn : n + 1 ≤ 2) :
    walkLoop va alloc (n + 1) b k =
      if k.mem (entry b (key (pageNo va) (n + 1))) &&& PTE_V ≠ 0 then
        walkLoop va alloc n (pte2pa (k.mem (entry b (key (pageNo va) (n + 1))))) k
      else if alloc then
        match kalloc k with
        | none => (none, k)
        | some (page, k) =>
          walkLoop va alloc n page
            ((k.fill page 0).store (entry b (key (pageNo va) (n + 1))) (pa2pte page ||| PTE_V))
      else (none, k) := by
  rw [walkLoop, px_key va hn]
  rfl

/-- **`walk` without `alloc`** finds the entry of the tree. -/
theorem walkLoop_find (va : UInt64) {k : Kmem} (hn : n ≤ 2) (h : Rep k.mem n t) :
    walkLoop va false n (t.name n) k =
      ((Table.leafName (key (pageNo va)) n t).map fun b => entry b (key (pageNo va) 0), k) := by
  induction n with
  | zero =>
    rw [walkLoop, px_key va (by omega)]
    rfl
  | succ n ih =>
    have hi := h (key (pageNo va) (n + 1))
    have hname : t.name (n + 1) = t.1 := rfl
    rw [walkLoop_succ va false _ k hn, hname]
    cases hc : t.2 (key (pageNo va) (n + 1)) with
    | none =>
      simp only [hc] at hi
      rw [if_neg (not_not.mpr hi)]
      simp [Table.leafName, hc]
    | some c =>
      simp only [hc] at hi
      obtain ⟨hinner, hpa, hrep⟩ := hi
      rw [if_pos hinner.1, hpa, ih (by omega) hrep]
      simp only [Table.leafName, hc, Option.bind_some]

/-- The next free page. -/
def pop : List UInt64 → Option (UInt64 × List UInt64)
  | [] => none
  | pa :: l => some (pa, l)

theorem pop_some {l l' : List UInt64} (h : pop l = some (b, l')) : l = b :: l' := by
  cases l with
  | nil => cases h
  | cons a l =>
    cases h
    rfl

/-- The page of a table is none of those below it, and not free. -/
theorem fst_not_mem {t : Tree (n + 1)} {s : Multiset UInt64} (h : (Table.names (n + 1) t + s).Nodup) {i : Fin 512}
    {c : Tree n} (hc : t.2 i = some c) : t.1 ∉ Table.names n c + s := by
  obtain ⟨ht, -, hdis⟩ := Multiset.nodup_add.mp h
  intro hmem
  rcases Multiset.mem_add.mp hmem with hmem | hmem
  · exact Table.name_not_mem ht hc hmem
  · exact Multiset.disjoint_left.mp hdis (Table.fst_mem_names t) hmem

/-- The pages below another entry are not free, either. -/
theorem disjoint_of_other {t : Tree (n + 1)} {s : Multiset UInt64} (h : (Table.names (n + 1) t + s).Nodup) {i j : Fin 512}
    (hj : j ≠ i) {c d : Tree n} (hd : t.2 j = some d) (hc : t.2 i = some c) :
    Disjoint (Table.names n d) (Table.names n c + s) := by
  obtain ⟨ht, -, hdis⟩ := Multiset.nodup_add.mp h
  refine Multiset.disjoint_add_right.mpr ⟨Table.disjoint_of_nodup ht hj hd hc, ?_⟩
  exact hdis.mono_left (Table.names_le_of_entry hd)

/-- **`walk` with `alloc`** makes the tables that `grow` makes, from the free pages. -/
theorem walkLoop_alloc (va : UInt64) {k : Kmem} (hn : n ≤ 2) (hrep : Rep k.mem n t)
    (hnodup : (Table.names n t + (k.freelist : Multiset UInt64)).Nodup)
    (hal : AllAligned (Table.names n t + (k.freelist : Multiset UInt64))) :
    ∃ k', walkLoop va true n (t.name n) k =
        (if (Table.grow pop (key (pageNo va)) n t k.freelist).1 then
          (Table.leafName (key (pageNo va)) n (Table.grow pop (key (pageNo va)) n t k.freelist).2.1).map
            fun b => entry b (key (pageNo va) 0)
        else none, k') ∧
      Rep k'.mem n (Table.grow pop (key (pageNo va)) n t k.freelist).2.1 ∧
      k'.freelist = (Table.grow pop (key (pageNo va)) n t k.freelist).2.2 ∧
      SameOff (Table.names n t + (k.freelist : Multiset UInt64)) k.mem k'.mem := by
  induction n generalizing k with
  | zero =>
    refine ⟨k, ?_, hrep, rfl, fun a _ => rfl⟩
    rw [walkLoop, px_key va (by omega)]
    rfl
  | succ n ih =>
    have hi := hrep (key (pageNo va) (n + 1))
    have hroot : Aligned t.1 := hal t.1 (Multiset.mem_add.mpr (.inl (Table.fst_mem_names t)))
    have hname : t.name (n + 1) = t.1 := rfl
    rw [walkLoop_succ va true _ k hn, hname]
    cases hc : t.2 (key (pageNo va) (n + 1)) with
    | some c =>
      simp only [hc] at hi
      obtain ⟨hinner, hpa, hc'⟩ := hi
      have hle : Table.names n c + (k.freelist : Multiset UInt64) ≤ Table.names (n + 1) t + (k.freelist : Multiset UInt64) :=
        add_le_add (Table.names_le_of_entry hc) le_rfl
      obtain ⟨k', hwalk, hrep', hfree, hsame⟩ := ih (by omega) hc' (Multiset.nodup_of_le hle hnodup) (hal.mono hle)
      have hkeep := hsame.entry (hal.mono hle) hroot (fst_not_mem hnodup hc)
      rw [if_pos hinner.1, hpa, hwalk]
      simp only [Table.grow, hc, Table.leafName, update_self, Option.bind_some]
      refine ⟨k', rfl, ?_, hfree, hsame.mono hle⟩
      refine hrep.update (fun j _ => hkeep j) (fun j d hj hd hrd => ?_) ?_ ?_ hrep'
      · refine hrd.sameOff hsame (hal.mono ?_) (hal.mono hle) (disjoint_of_other hnodup hj hd hc)
        exact (Table.names_le_of_entry hd).trans (Multiset.le_add_right _ _)
      · rw [hkeep]
        exact hinner
      · rw [hkeep, hpa, Table.name_grow]
    | none =>
      simp only [hc] at hi
      rw [if_neg (not_not.mpr hi), if_pos rfl]
      cases hf : k.freelist with
      | nil =>
        simp only [kalloc, hf]
        refine ⟨k, ?_, ?_, ?_, fun a _ => rfl⟩
        · simp [Table.grow, hc, pop]
        · simpa [Table.grow, hc, pop] using hrep
        · simpa [Table.grow, hc, pop] using hf
      | cons page l =>
        rw [hf] at hnodup hal
        obtain ⟨ht, hl, hdis⟩ := Multiset.nodup_add.mp hnodup
        have hle : ({page} + (l : Multiset UInt64)) ≤ Table.names (n + 1) t + (page :: l : List UInt64) := by
          rw [Multiset.singleton_add]
          exact Multiset.le_add_left _ _
        have hpage : Aligned page := hal page (Multiset.mem_of_le hle (by simp))
        have hnew : ∀ b ∈ Table.names (n + 1) t, b ∉ ({page} + (l : Multiset UInt64)) := by
          intro b hb hmem
          rw [Multiset.singleton_add] at hmem
          exact Multiset.disjoint_left.mp hdis hb hmem
        have hne : page ≠ t.1 := by
          intro he
          refine hnew t.1 (Table.fst_mem_names t) ?_
          rw [← he]
          simp
        -- the memory with the new table, and its address in the entry
        obtain ⟨k1, hk1⟩ : ∃ k1, k1 = ((({ k with freelist := l } : Kmem).fill page 0x0505050505050505).fill page 0).store
          (entry t.1 (key (pageNo va) (n + 1))) (pa2pte page ||| PTE_V) := ⟨_, rfl⟩
        have hzero : ∀ a, InPage page a → k1.mem a = 0 := by
          intro a ha
          have hpte : a ≠ entry t.1 (key (pageNo va) (n + 1)) := by
            rintro rfl
            exact not_inPage_entry hroot hpage hne _ ha
          simp [hk1, Kmem.store, Kmem.fill, hpte, ha]
        have hold : ∀ a, a ≠ entry t.1 (key (pageNo va) (n + 1)) → ¬InPage page a → k1.mem a = k.mem a := by
          intro a hpte ha
          simp [hk1, Kmem.store, Kmem.fill, hpte, ha]
        have hset : k1.mem (entry t.1 (key (pageNo va) (n + 1))) = pa2pte page ||| PTE_V := by
          simp [hk1, Kmem.store]
        have hfree₁ : k1.freelist = l := by rw [hk1]; rfl
        have hnames : Table.names n (Table.empty page n : Tree n) + (k1.freelist : Multiset UInt64) = {page} + l := by
          rw [Table.names_empty, hfree₁]
        obtain ⟨k', hwalk, hrep', hfree, hsame⟩ := ih (k := k1) (t := Table.empty page n) (by omega)
          (rep_empty hpage hzero n) (hnames ▸ Multiset.nodup_of_le hle hnodup) (hnames ▸ hal.mono hle)
        rw [hnames] at hsame
        rw [hfree₁] at hwalk hrep' hfree
        have hkeep := fun i => hsame.entry (hal.mono hle) hroot (hnew t.1 (Table.fst_mem_names t)) i
        simp only [kalloc, hf]
        rw [← hk1, show page = (Table.empty page n : Tree n).name n from (Table.name_empty page n).symm, hwalk]
        simp only [Table.grow, hc, pop, Table.leafName, update_self, Option.bind_some, Table.name_empty]
        refine ⟨k', rfl, ?_, hfree, fun a ha => ?_⟩
        · refine hrep.update (fun j hj => ?_) (fun j d hj hd hrd => ?_) ?_ ?_ hrep'
          · rw [hkeep j, hold]
            · exact fun he => hj ((entryAddr_inj hroot hroot).mp he).2
            · exact not_inPage_entry hroot hpage hne j
          · refine hrd.congr fun b hb i => ?_
            have hmem := Multiset.mem_of_le (Table.names_le_of_entry hd) hb
            have hb' : Aligned b := hal b (Multiset.mem_add.mpr (.inl hmem))
            rw [hsame.entry (hal.mono hle) hb' (hnew b hmem) i, hold]
            · intro he
              rw [((entryAddr_inj hb' hroot).mp he).1] at hb
              exact Table.name_not_mem ht hd hb
            · refine not_inPage_entry hb' hpage ?_ i
              rintro rfl
              exact hnew page hmem (by simp)
          · rw [hkeep, hset]
            exact Inner.of_flags (pteFlags_pack page (by decide))
          · rw [hkeep, hset, pte2pa_pack page (by decide), pgrounddown_of_aligned hpage, Table.name_grow,
              Table.name_empty]
        · have hroot' : ¬InPage t.1 a := ha t.1 (Multiset.mem_add.mpr (.inl (Table.fst_mem_names t)))
          rw [hsame a fun b hb => ha b (Multiset.mem_of_le hle hb), hold]
          · rintro rfl
            exact hroot' (inPage_entry hroot _)
          · exact ha page (Multiset.mem_of_le hle (by simp))

/-! ### Reading and writing entries -/

theorem Rep.lookup (h : Rep m n t) {κ : ℕ → Fin 512} (hb : Table.leafName κ n t = some b) :
    Table.lookup κ n t = leafOf (m (entry b (κ 0))) := by
  induction n with
  | zero =>
    cases hb
    exact h (κ 0)
  | succ n ih =>
    obtain ⟨c, hc, hcb⟩ := Option.bind_eq_some_iff.mp hb
    have hi := h (κ (n + 1))
    simp only [hc] at hi
    simp only [Table.lookup, hc, Option.bind_some]
    exact ih hi.2.2 hcb

/-- **A store to an entry** is a write to the tree. -/
theorem Rep.write (h : Rep m n t) (hnodup : (Table.names n t).Nodup) (hal : AllAligned (Table.names n t)) {κ : ℕ → Fin 512}
    (hb : Table.leafName κ n t = some b) (w : UInt64) :
    Rep (Function.update m (entry b (κ 0)) w) n (Table.set κ (leafOf w) n t) := by
  have hbal : Aligned b := hal b (Table.leafName_mem hb)
  induction n with
  | zero =>
    cases hb
    intro i
    by_cases hi : i = κ 0
    · simp [Table.set, hi]
    · have hne : entry t.1 i ≠ entry t.1 (κ 0) := fun he => hi ((entryAddr_inj hbal hbal).mp he).2
      simp only [Table.set, update_of_ne hi, update_of_ne hne]
      exact h i
  | succ n ih =>
    obtain ⟨c, hc, hcb⟩ := Option.bind_eq_some_iff.mp hb
    have hi := h (κ (n + 1))
    simp only [hc] at hi
    have hle := Table.names_le_of_entry hc
    have hmem := Table.leafName_mem hcb
    have hroot : Aligned t.1 := hal t.1 (Table.fst_mem_names t)
    have hkeep : ∀ j, Function.update m (entry b (κ 0)) w (entry t.1 j) = m (entry t.1 j) := by
      intro j
      refine update_of_ne (fun he => ?_) _ _
      rw [← ((entryAddr_inj hroot hbal).mp he).1] at hmem
      exact Table.name_not_mem hnodup hc hmem
    simp only [Table.set, hc, Option.map_some]
    refine h.update (fun j _ => hkeep j) (fun j d hj hd hrd => ?_) ?_ ?_
      (ih hi.2.2 (Multiset.nodup_of_le hle hnodup) (hal.mono hle) hcb)
    · refine hrd.congr fun b' hb' i => update_of_ne (fun he => ?_) _ _
      have hb'al : Aligned b' := hal b' (Multiset.mem_of_le (Table.names_le_of_entry hd) hb')
      rw [((entryAddr_inj hb'al hbal).mp he).1] at hb'
      exact Multiset.disjoint_left.mp (Table.disjoint_of_nodup hnodup hj hd hc) hb' hmem
    · rw [hkeep]
      exact hi.1
    · rw [hkeep, Table.name_set]
      exact hi.2.1

end Trees

end Xv6Shmem.Flat
