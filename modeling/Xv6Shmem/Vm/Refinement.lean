import Xv6Shmem.Vm.Represents

/-!
# The page table is a finite map

What a page table is for is to map page numbers below `MAXVA / PGSIZE` to pages with flags (`PageMap`). The
functions of `kernel/vm.c` on memory refine the operations on the map: whatever tree memory holds, `mappages` adds
the mappings of its range, or of the first pages of it if it runs out of memory, `uvmunmap` takes those of its
range away, `walkaddr` looks one up, and no other entry is changed.

## What is proved

* `walk_spec`, `walk_ne` — `walk` gives the address of the entry of the page, which is another one for every page, and
  leaves the map as it is.
* `mappagesLoop_spec`, `uvmunmapLoop_spec`, `walkaddr_spec` — what the loops and the lookup do to the map.
* `pagetable_refines` — the functions, for every tree in memory.
-/

namespace Xv6Shmem.Flat

open Function Radix

/-! ### The map -/

/-- A page and its flags. -/
structure Mapping where
  pa : UInt64
  flags : UInt64
deriving DecidableEq

/-- A finite map from page numbers. -/
abbrev PageMap := Fin NPAGES → Option Mapping

/-- `n` pages from number `p` on are mapped to the pages from `pa` on. -/
def PageMap.extend (f : PageMap) (p n : ℕ) (pa perm : UInt64) : PageMap := fun q =>
  if p ≤ q.val ∧ q.val < p + n then
    some ⟨pgrounddown (pa + PGSIZE * UInt64.ofNat (q.val - p)), perm ||| PTE_V⟩
  else f q

/-- `n` pages from number `p` on are not mapped any more. -/
def PageMap.remove (f : PageMap) (p n : ℕ) : PageMap := fun q => if p ≤ q.val ∧ q.val < p + n then none else f q

/-- The page a user address is mapped to, or `0`. -/
def PageMap.userPage (f : PageMap) (va : UInt64) : UInt64 :=
  if h : pageNo va < NPAGES then
    match f ⟨pageNo va, h⟩ with
    | none => 0
    | some e => if e.flags &&& PTE_U = 0 then 0 else e.pa
  else 0

/-- The map that a tree stands for. -/
def view (t : Tree 2) : PageMap := fun p => (Table.lookup (key p) 2 t).map fun w => ⟨pte2pa w, pteFlags w⟩

/-- Memory holds the page table: the tree, in pages that are all different. -/
structure Holds (k : Kmem) (t : Tree 2) : Prop where
  rep : Rep k.mem 2 t
  nodup : (Table.names 2 t).Nodup
  aligned : AllAligned (Table.names 2 t)

/-- The free pages are others than those of the tree. -/
structure Fresh (k : Kmem) (t : Tree 2) : Prop where
  nodup : (Table.names 2 t + (k.freelist : Multiset UInt64)).Nodup
  aligned : AllAligned (Table.names 2 t + (k.freelist : Multiset UInt64))

section Views

variable {t : Tree 2}

theorem view_eq_none {p : Fin NPAGES} : view t p = none ↔ Table.lookup (key p) 2 t = none := by
  simp [view]

theorem view_grow {κ : ℕ → Fin 512} {l : List UInt64} : view (Table.grow pop κ 2 t l).2.1 = view t := by
  funext p
  rw [view, Table.lookup_grow, view]

theorem view_set {p : Fin NPAGES} (h : Table.reaches (key p) 2 t = true) (v : Option UInt64) :
    view (Table.set (key p) v 2 t) = update (view t) p (v.map fun w => ⟨pte2pa w, pteFlags w⟩) := by
  funext q
  by_cases hq : q = p
  · subst hq
    rw [update_self, view, Table.lookup_set_self h]
  · rw [update_of_ne hq, view, view, Table.lookup_set_of_ne]
    exact key_ne p.isLt q.isLt fun he => hq (Fin.ext he.symm)

end Views

/-! ### `walk` -/

section Walk

variable {k : Kmem} {t : Tree 2}

theorem toNat_maxva : MAXVA.toNat = 2 ^ 38 := by decide

theorem lt_maxva_iff {va : UInt64} : va < MAXVA ↔ pageNo va < NPAGES := by
  rw [UInt64.lt_iff_toNat_lt, toNat_maxva, pageNo, NPAGES]
  omega

/-- **What `walk` does**: the tree may have more tables, but the map is the same; and what it returns is the address of
the entry of the page. -/
structure Walked (t : Tree 2) (va : UInt64) (r : Option UInt64) (k' : Kmem) (t' : Tree 2) : Prop where
  holds : Holds k' t'
  name : t'.name 2 = t.name 2
  view : view t' = view t
  kept : ∀ κ b, Table.leafName κ 2 t = some b → Table.leafName κ 2 t' = some b
  found : ∀ a, r = some a → ∃ b, Table.leafName (key (pageNo va)) 2 t' = some b ∧ a = entry b (key (pageNo va) 0)

theorem walk_find (h : Holds k t) {va : UInt64} (hva : va < MAXVA) :
    ∃ r, walk (t.name 2) va false k = .ok (r, k) ∧ Walked t va r k t ∧
      (r = none ↔ Table.reaches (key (pageNo va)) 2 t = false) := by
  refine ⟨(Table.leafName (key (pageNo va)) 2 t).map fun b => entry b (key (pageNo va) 0), ?_, ⟨h, rfl, rfl, ?_, ?_⟩, ?_⟩
  · rw [walk, if_neg (UInt64.not_le.mpr hva), walkLoop_find va le_rfl h.rep]
  · exact fun κ b hb => hb
  · intro a ha
    obtain ⟨b, hb, rfl⟩ := Option.map_eq_some_iff.mp ha
    exact ⟨b, hb, rfl⟩
  · rw [Option.map_eq_none_iff, ← Table.leafName_isSome]
    simp

theorem walk_alloc (h : Holds k t) (hf : Fresh k t) {va : UInt64} (hva : va < MAXVA) :
    ∃ r k' t', walk (t.name 2) va true k = .ok (r, k') ∧ Walked t va r k' t' ∧ Fresh k' t' := by
  obtain ⟨k', hwalk, hrep, hfree, -⟩ := walkLoop_alloc va le_rfl h.rep hf.nodup hf.aligned
  have hnames : Table.names 2 (Table.grow pop (key (pageNo va)) 2 t k.freelist).2.1 + (k'.freelist : Multiset UInt64) =
      Table.names 2 t + (k.freelist : Multiset UInt64) := by
    rw [hfree]
    refine Table.names_grow (fun l : List UInt64 => (l : Multiset UInt64)) fun l b l' hl => ?_
    rw [pop_some hl]
    rfl
  have hf' : Fresh k' (Table.grow pop (key (pageNo va)) 2 t k.freelist).2.1 := ⟨hnames ▸ hf.nodup, hnames ▸ hf.aligned⟩
  refine ⟨_, k', _, by rw [walk, if_neg (UInt64.not_le.mpr hva), hwalk], ⟨⟨hrep, ?_, ?_⟩, ?_, view_grow, ?_, ?_⟩, hf'⟩
  · exact (Multiset.nodup_add.mp hf'.nodup).1
  · exact hf'.aligned.mono (Multiset.le_add_right _ _)
  · exact Table.name_grow
  · exact fun κ b hb => Table.leafName_grow hb
  · intro a ha
    split at ha
    · obtain ⟨b, hb, rfl⟩ := Option.map_eq_some_iff.mp ha
      exact ⟨b, hb, rfl⟩
    · cases ha

theorem lt_maxva_of_walk {root va : UInt64} {alloc : Bool} {r : Option UInt64} {k' : Kmem}
    (h : walk root va alloc k = .ok (r, k')) : va < MAXVA := by
  by_contra hva
  rw [walk, if_pos (UInt64.not_lt.mp hva)] at h
  cases h

/-- **`walk`**, with `alloc` or without it, whenever it does not panic. -/
theorem walk_spec (h : Holds k t) {va : UInt64} {alloc : Bool} {r : Option UInt64} {k' : Kmem} (hf : alloc = true → Fresh k t)
    (hwalk : walk (t.name 2) va alloc k = .ok (r, k')) :
    ∃ t', Walked t va r k' t' ∧ (Fresh k t → Fresh k' t') := by
  have hva := lt_maxva_of_walk hwalk
  cases alloc with
  | false =>
    obtain ⟨r', hwalk', hW, -⟩ := walk_find h hva
    obtain ⟨rfl, rfl⟩ := Prod.mk.inj (Except.ok.inj (hwalk'.symm.trans hwalk))
    exact ⟨t, hW, id⟩
  | true =>
    obtain ⟨r', k'', t', hwalk', hW, hf'⟩ := walk_alloc h (hf rfl) hva
    obtain ⟨rfl, rfl⟩ := Prod.mk.inj (Except.ok.inj (hwalk'.symm.trans hwalk))
    exact ⟨t', hW, fun _ => hf'⟩

/-- **Different pages have different entries**. -/
theorem entry_ne (h : Holds k t) {p q : ℕ} (hp : p < NPAGES) (hq : q < NPAGES) (hne : p ≠ q) {b b' : UInt64}
    (hb : Table.leafName (key p) 2 t = some b) (hb' : Table.leafName (key q) 2 t = some b') :
    entry b (key p 0) ≠ entry b' (key q 0) := by
  intro he
  obtain ⟨rfl, h0⟩ := (entryAddr_inj (h.aligned b (Table.leafName_mem hb)) (h.aligned b' (Table.leafName_mem hb'))).mp he
  obtain ⟨l, hl, hkl⟩ := key_ne hp hq hne
  refine Table.leafName_ne h.nodup hb hb' ⟨l, hl, ?_, hkl⟩ rfl
  rintro rfl
  exact hkl h0

theorem Holds.store (h : Holds k t) {p : Fin NPAGES} {b : UInt64} (hb : Table.leafName (key p) 2 t = some b) (w : UInt64) :
    Holds (k.store (entry b (key p 0)) w) (Table.set (key p) (leafOf w) 2 t) ∧
      view (Table.set (key p) (leafOf w) 2 t) =
        update (view t) p ((leafOf w).map fun w => ⟨pte2pa w, pteFlags w⟩) := by
  have hreach : Table.reaches (key p) 2 t = true := by
    rw [← Table.leafName_isSome, hb]
    rfl
  refine ⟨⟨h.rep.write h.nodup h.aligned hb w, ?_, ?_⟩, view_set hreach _⟩
  · rw [Table.names_set]
    exact h.nodup
  · rw [Table.names_set]
    exact h.aligned

theorem Holds.view_entry (h : Holds k t) {p : Fin NPAGES} {b : UInt64} (hb : Table.leafName (key p) 2 t = some b) :
    view t p = (leafOf (k.mem (entry b (key p 0)))).map fun w => ⟨pte2pa w, pteFlags w⟩ := by
  rw [view, h.rep.lookup hb]

end Walk

/-! ### `mappages` -/

theorem or_valid (f : UInt64) : (f ||| PTE_V) &&& PTE_V ≠ 0 := by
  intro h
  have hnat := congrArg UInt64.toNat h
  rw [UInt64.toNat_and, UInt64.toNat_or] at hnat
  change (f.toNat ||| 1) &&& 1 = 0 at hnat
  rw [Nat.and_one_is_mod] at hnat
  have hone := Nat.or_mod_two_eq_one.mpr (.inr rfl : f.toNat % 2 = 1 ∨ 1 % 2 = 1)
  omega

theorem mapped_word (pa : UInt64) {perm : UInt64} (hperm : perm.toNat < 1024) :
    (leafOf (pa2pte pa ||| perm ||| PTE_V)).map (fun w => (⟨pte2pa w, pteFlags w⟩ : Mapping)) =
      some ⟨pgrounddown pa, perm ||| PTE_V⟩ := by
  have hlt : (perm ||| PTE_V).toNat < 1024 := by
    rw [UInt64.toNat_or]
    exact Nat.or_lt_two_pow (n := 10) hperm (by decide)
  have hvalid : (pa2pte pa ||| (perm ||| PTE_V)) &&& PTE_V ≠ 0 := by
    rw [← UInt64.or_assoc]
    exact or_valid _
  rw [UInt64.or_assoc, leafOf, if_neg hvalid, Option.map_some, pte2pa_pack pa hlt, pteFlags_pack pa hlt]

theorem extend_zero (f : PageMap) (p : ℕ) (pa perm : UInt64) : f.extend p 0 pa perm = f := by
  funext q
  rw [PageMap.extend, if_neg (by omega)]

theorem extend_succ (f : PageMap) {p : ℕ} (hp : p < NPAGES) (n : ℕ) (pa perm : UInt64) :
    PageMap.extend (update f ⟨p, hp⟩ (some ⟨pgrounddown pa, perm ||| PTE_V⟩)) (p + 1) n (pa + PGSIZE) perm =
      f.extend p (n + 1) pa perm := by
  funext q
  simp only [PageMap.extend]
  by_cases hq : q.val = p
  · have hqp : q = ⟨p, hp⟩ := Fin.ext hq
    rw [if_neg (by omega), if_pos (by omega), hqp, update_self]
    simp
  · have hqp : q ≠ ⟨p, hp⟩ := fun he => hq (congrArg Fin.val he)
    rw [update_of_ne hqp]
    by_cases hin : p + 1 ≤ q.val ∧ q.val < p + 1 + n
    · have hsub : UInt64.ofNat (q.val - p) = 1 + UInt64.ofNat (q.val - (p + 1)) := by
        rw [show q.val - p = 1 + (q.val - (p + 1)) by omega, UInt64.ofNat_add]
        rfl
      have hadd : ∀ x : UInt64, pa + PGSIZE + PGSIZE * x = pa + PGSIZE * (1 + x) := by
        intro x
        grind
      rw [if_pos hin, if_pos (by omega), hsub, hadd]
    · rw [if_neg hin, if_neg (by omega)]

section Mappages

/-- Where the pages of an aligned address are. -/
theorem pageNo_of_mul {a : UInt64} {p : ℕ} (h : a.toNat = 4096 * p) : pageNo a = p := by
  rw [pageNo, h]
  omega

theorem toNat_add_pgsize {a : UInt64} {p : ℕ} (h : a.toNat = 4096 * p) (hp : p < NPAGES) :
    (a + PGSIZE).toNat = 4096 * (p + 1) := by
  have hp' : p < 2 ^ 26 := hp
  rw [UInt64.toNat_add, h, show PGSIZE.toNat = 4096 from rfl]
  omega

/-- A turn of `mappages` at a page that is not mapped: there is no memory for the tables, or the page is mapped. -/
theorem mappages_turn {k : Kmem} {t : Tree 2} (h : Holds k t) (hf : Fresh k t) {a perm : UInt64} (hperm : perm.toNat < 1024)
    (pa : UInt64) {p : ℕ} (ha : a.toNat = 4096 * p) (hp : p < NPAGES) (hnone : view t ⟨p, hp⟩ = none) :
    ∃ r k' t', walk (t.name 2) a true k = .ok (r, k') ∧ t'.name 2 = t.name 2 ∧
      match r with
      | none => Holds k' t' ∧ Fresh k' t' ∧ view t' = view t
      | some pte => k'.mem pte &&& PTE_V = 0 ∧ Holds (k'.store pte (pa2pte pa ||| perm ||| PTE_V)) t' ∧
          Fresh (k'.store pte (pa2pte pa ||| perm ||| PTE_V)) t' ∧
          view t' = update (view t) ⟨p, hp⟩ (some ⟨pgrounddown pa, perm ||| PTE_V⟩) := by
  have hpage : pageNo a = p := pageNo_of_mul ha
  obtain ⟨r, k', t', hwalk, hW, hf'⟩ := walk_alloc h hf (lt_maxva_iff.mpr (hpage ▸ hp))
  cases r with
  | none => exact ⟨none, k', t', hwalk, hW.name, hW.holds, hf', hW.view⟩
  | some pte =>
    obtain ⟨b, hb, rfl⟩ := hW.found pte rfl
    rw [hpage] at hb hwalk
    have hentry := hW.holds.view_entry (p := ⟨p, hp⟩) hb
    rw [hW.view, hnone] at hentry
    obtain ⟨hstore, hview⟩ := hW.holds.store (p := ⟨p, hp⟩) hb (pa2pte pa ||| perm ||| PTE_V)
    rw [mapped_word pa hperm, hW.view] at hview
    refine ⟨some _, k', Table.set (key p) (leafOf (pa2pte pa ||| perm ||| PTE_V)) 2 t', hwalk, ?_, ?_, hstore, ?_, hview⟩
    · rw [Table.name_set]
      exact hW.name
    · have hnil := Option.map_eq_none_iff.mp hentry.symm
      unfold leafOf at hnil
      split at hnil
      · assumption
      · cases hnil
    · refine ⟨?_, ?_⟩
      · rw [Table.names_set]
        exact hf'.nodup
      · rw [Table.names_set]
        exact hf'.aligned

/-- **The loop of `mappages`** from page `p` to page `p + m`. -/
theorem mappagesLoop_spec {root last perm : UInt64} (hperm : perm.toNat < 1024) (m : ℕ) :
    ∀ (pa : UInt64) {fuel : ℕ} {k : Kmem} {t : Tree 2} {a : UInt64} {p : ℕ}, m < fuel → Holds k t → Fresh k t →
      t.name 2 = root → a.toNat = 4096 * p → last.toNat = 4096 * (p + m) → p + m < NPAGES →
      (∀ q : Fin NPAGES, p ≤ q.val → q.val ≤ p + m → view t q = none) →
      ∃ done k' t' n, mappagesLoop root last perm fuel a pa k = .ok (done, k') ∧ Holds k' t' ∧ Fresh k' t' ∧
        t'.name 2 = root ∧ n ≤ m + 1 ∧ (done = true ↔ n = m + 1) ∧ view t' = (view t).extend p n pa perm := by
  induction m with
  | zero =>
    intro pa fuel k t a p hfuel h hf hroot ha hlast hp hnone
    obtain ⟨fuel, rfl⟩ := Nat.exists_eq_add_one.mpr hfuel
    obtain ⟨r, k', t', hwalk, hname, hr⟩ := mappages_turn h hf hperm pa ha hp (hnone ⟨p, hp⟩ le_rfl le_rfl)
    have heq : a = last := UInt64.toNat_inj.mp (ha.trans hlast.symm)
    rw [hroot] at hwalk hname
    rw [mappagesLoop, hwalk]
    cases r with
    | none => exact ⟨false, k', t', 0, rfl, hr.1, hr.2.1, hname, by omega, by simp, by rw [extend_zero, hr.2.2]⟩
    | some pte =>
      obtain ⟨hfree, hstore, hf', hview⟩ := hr
      refine ⟨true, _, t', 1, ?_, hstore, hf', hname, le_rfl, by simp, ?_⟩
      · dsimp only [Bind.bind, Except.bind]
        rw [if_neg (not_not.mpr hfree), if_pos heq]
      · rw [hview, ← extend_zero (update _ _ _) (p + 1) (pa + PGSIZE) perm, extend_succ]
  | succ m ih =>
    intro pa fuel k t a p hfuel h hf hroot ha hlast hp hnone
    obtain ⟨fuel, rfl⟩ := Nat.exists_eq_add_one.mpr (Nat.zero_lt_of_lt hfuel)
    have hp0 : p < NPAGES := by omega
    obtain ⟨r, k', t', hwalk, hname, hr⟩ := mappages_turn h hf hperm pa ha hp0 (hnone ⟨p, hp0⟩ le_rfl (Nat.le_add_right _ _))
    have hne : a ≠ last := by
      rintro rfl
      omega
    rw [hroot] at hwalk hname
    rw [mappagesLoop, hwalk]
    cases r with
    | none => exact ⟨false, k', t', 0, rfl, hr.1, hr.2.1, hname, by omega, by simp, by rw [extend_zero, hr.2.2]⟩
    | some pte =>
      obtain ⟨hfree, hstore, hf', hview⟩ := hr
      obtain ⟨done, k'', t'', n, hloop, h'', hf'', hname'', hn, hdone, hview''⟩ :=
        ih (pa + PGSIZE) (show m < fuel by omega) hstore hf' hname (toNat_add_pgsize ha hp0) (by omega) (by omega)
          (fun q hq hq' => by
            rw [hview, update_of_ne fun he => by rw [he] at hq; exact Nat.not_succ_le_self p hq]
            exact hnone q (by omega) (by omega))
      refine ⟨done, k'', t'', n + 1, ?_, h'', hf'', hname'', by omega, by rw [hdone]; omega, ?_⟩
      · dsimp only [Bind.bind, Except.bind]
        rw [if_neg (not_not.mpr hfree), if_neg hne]
        exact hloop
      · rw [hview'', hview, extend_succ]

/-- **`mappages`** maps the pages of its range, or the first of them. -/
theorem mappages_spec {k : Kmem} {t : Tree 2} (h : Holds k t) (hf : Fresh k t) {va size perm : UInt64} (pa : UInt64)
    (hsize : size ≠ 0) (hmax : va.toNat + size.toNat ≤ MAXVA.toNat) (hperm : perm.toNat < 1024)
    (hnone : ∀ q : Fin NPAGES, pageNo va ≤ q.val → q.val ≤ pageNo (va + size - 1) → view t q = none) :
    ∃ done k' t' n, mappages (t.name 2) va size pa perm k = .ok (done, k') ∧ Holds k' t' ∧ Fresh k' t' ∧
      t'.name 2 = t.name 2 ∧ n ≤ pageNo (va + size - 1) + 1 - pageNo va ∧
      (done = true ↔ n = pageNo (va + size - 1) + 1 - pageNo va) ∧ view t' = (view t).extend (pageNo va) n pa perm := by
  have hpos : 0 < size.toNat := Nat.pos_of_ne_zero fun h0 => hsize (UInt64.toNat_inj.mp h0)
  rw [toNat_maxva] at hmax
  have hend : (va + size - 1).toNat = va.toNat + size.toNat - 1 := by
    have hsum : (va + size).toNat = va.toNat + size.toNat := by
      rw [UInt64.toNat_add]
      omega
    rw [UInt64.toNat_sub_of_le _ _ (UInt64.le_iff_toNat_le.mpr (by rw [hsum, UInt64.toNat_one]; omega)), hsum,
      UInt64.toNat_one]
  obtain ⟨m, hm⟩ : ∃ m, pageNo (va + size - 1) = pageNo va + m :=
    Nat.exists_eq_add_of_le (by rw [pageNo, pageNo, hend]; omega)
  have hlt : pageNo va + m < NPAGES := by
    rw [← hm, pageNo, hend, NPAGES]
    omega
  have hlast : (pgrounddown (va + size - 1)).toNat = 4096 * (pageNo va + m) := by
    rw [toNat_pgrounddown, ← hm, pageNo, Nat.mul_comm]
  have ha : (pgrounddown va).toNat = 4096 * pageNo va := by
    rw [toNat_pgrounddown, pageNo, Nat.mul_comm]
  rw [mappages, if_neg hsize]
  rw [hm] at hnone ⊢
  rw [show pageNo va + m + 1 - pageNo va = m + 1 by omega]
  have hfuel : m < 2 ^ 26 + 1 := by
    rw [NPAGES] at hlt
    omega
  exact mappagesLoop_spec hperm m pa hfuel h hf rfl ha hlast hlt hnone

end Mappages

/-! ### `uvmunmap` -/

section Uvmunmap

variable {k : Kmem} {t : Tree 2}

theorem Holds.fill (h : Holds k t) {pa : UInt64} (hpa : Aligned pa) (hnot : pa ∉ Table.names 2 t) (v : UInt64) (l : List UInt64) :
    Holds { k.fill pa v with freelist := l } t := by
  refine ⟨h.rep.sameOff (s := {pa}) (fun a ha => ?_) h.aligned (fun b hb => ?_) ?_, h.nodup, h.aligned⟩
  · have hout : ¬InPage pa a := ha pa (Multiset.mem_singleton_self pa)
    simp [Kmem.fill, hout]
  · rw [Multiset.mem_singleton.mp hb]
    exact hpa
  · exact Multiset.disjoint_singleton.mpr hnot

/-- What `uvmunmap` asks of an entry: it is a leaf, and its page can be freed. -/
def Freeable (kend : UInt64) (doFree : Bool) (t : Tree 2) (e : Mapping) : Prop :=
  e.flags ≠ PTE_V ∧ (doFree = true → kend ≤ e.pa ∧ e.pa < PHYSTOP ∧ e.pa ∉ Table.names 2 t)

theorem kfreeIf_holds (h : Holds k t) {kend w : UInt64} {doFree : Bool} (he : Freeable kend doFree t ⟨pte2pa w, pteFlags w⟩) :
    ∃ k', kfreeIf kend doFree (pte2pa w) k = .ok k' ∧ Holds k' t := by
  cases doFree with
  | false => exact ⟨k, rfl, h⟩
  | true =>
    obtain ⟨hlow, hhigh, hnot⟩ := he.2 rfl
    have hal : pte2pa w % PGSIZE = 0 := by
      apply UInt64.toNat_inj.mp
      rw [UInt64.toNat_mod]
      exact aligned_pte2pa w
    refine ⟨_, ?_, h.fill (aligned_pte2pa w) hnot 0x0101010101010101 (pte2pa w :: k.freelist)⟩
    rw [kfreeIf, if_pos rfl, kfree, if_neg]
    simp only [not_or, not_not, UInt64.not_lt, UInt64.not_le]
    exact ⟨hal, hlow, hhigh⟩

theorem uvmunmap_turn (h : Holds k t) {kend a : UInt64} {doFree : Bool} {p : ℕ} (ha : a.toNat = 4096 * p) (hp : p < NPAGES)
    {e : Mapping} (he : view t ⟨p, hp⟩ = some e) (hfree : Freeable kend doFree t e) :
    ∃ pte k' t', walk (t.name 2) a false k = .ok (some pte, k) ∧ k.mem pte &&& PTE_V ≠ 0 ∧ pteFlags (k.mem pte) ≠ PTE_V ∧
      kfreeIf kend doFree (pte2pa (k.mem pte)) k = .ok k' ∧ Holds (k'.store pte 0) t' ∧ t'.name 2 = t.name 2 ∧
      Table.names 2 t' = Table.names 2 t ∧ view t' = update (view t) ⟨p, hp⟩ none := by
  have hpage : pageNo a = p := pageNo_of_mul ha
  obtain ⟨r, hwalk, hW, hr⟩ := walk_find h (lt_maxva_iff.mpr (hpage ▸ hp))
  rw [hpage] at hr
  obtain ⟨w, hw, rfl⟩ := Option.map_eq_some_iff.mp he
  have hreach := Table.reaches_of_lookup hw
  cases r with
  | none => simp [hreach] at hr
  | some pte =>
    obtain ⟨b, hb, rfl⟩ := hW.found pte rfl
    rw [hpage] at hb hwalk
    have hword := (h.rep.lookup hb).symm.trans hw
    have hvalid : k.mem (entry b (key p 0)) &&& PTE_V ≠ 0 ∧ k.mem (entry b (key p 0)) = w := by
      unfold leafOf at hword
      split at hword
      · cases hword
      · exact ⟨‹_›, Option.some.inj hword⟩
    obtain ⟨hvalid, hmem⟩ := hvalid
    obtain ⟨k', hk', h'⟩ := kfreeIf_holds h hfree
    obtain ⟨hstore, hview⟩ := h'.store (p := ⟨p, hp⟩) hb 0
    refine ⟨_, k', _, hwalk, hvalid, ?_, ?_, hstore, Table.name_set, Table.names_set, hview⟩
    · rw [hmem]
      exact hfree.1
    · rw [hmem]
      exact hk'

theorem remove_succ (f : PageMap) {p : ℕ} (hp : p < NPAGES) (n : ℕ) :
    PageMap.remove (update f ⟨p, hp⟩ none) (p + 1) n = f.remove p (n + 1) := by
  funext q
  simp only [PageMap.remove]
  by_cases hq : q.val = p
  · have hqp : q = ⟨p, hp⟩ := Fin.ext hq
    rw [if_neg (by omega), if_pos (by omega), hqp, update_self]
  · have hqp : q ≠ ⟨p, hp⟩ := fun he => hq (congrArg Fin.val he)
    rw [update_of_ne hqp]
    by_cases hin : p + 1 ≤ q.val ∧ q.val < p + 1 + n
    · rw [if_pos hin, if_pos (by omega)]
    · rw [if_neg hin, if_neg (by omega)]

/-- **The loop of `uvmunmap`** over `n` pages from page `p` on. -/
theorem uvmunmapLoop_spec {kend root bound : UInt64} {doFree : Bool} (n : ℕ) :
    ∀ {fuel : ℕ} {k : Kmem} {t : Tree 2} {a : UInt64} {p : ℕ}, n < fuel → Holds k t → t.name 2 = root → a.toNat = 4096 * p →
      bound.toNat = 4096 * (p + n) → p + n ≤ NPAGES →
      (∀ q : Fin NPAGES, p ≤ q.val → q.val < p + n → ∃ e, view t q = some e ∧ Freeable kend doFree t e) →
      ∃ k' t', uvmunmapLoop kend root bound doFree fuel a k = .ok k' ∧ Holds k' t' ∧ t'.name 2 = root ∧
        view t' = (view t).remove p n := by
  induction n with
  | zero =>
    intro fuel k t a p hfuel h hroot ha hbound _ _
    obtain ⟨fuel, rfl⟩ := Nat.exists_eq_add_one.mpr hfuel
    refine ⟨k, t, ?_, h, hroot, ?_⟩
    · have hnot : ¬a < bound := by
        rw [UInt64.lt_iff_toNat_lt]
        omega
      rw [uvmunmapLoop, if_neg hnot]
    · funext q
      rw [PageMap.remove, if_neg (by omega)]
  | succ n ih =>
    intro fuel k t a p hfuel h hroot ha hbound hp hmapped
    obtain ⟨fuel, rfl⟩ := Nat.exists_eq_add_one.mpr (Nat.zero_lt_of_lt hfuel)
    have hp0 : p < NPAGES := by omega
    obtain ⟨e, he, hfree⟩ := hmapped ⟨p, hp0⟩ le_rfl (by simp)
    obtain ⟨pte, k', t', hwalk, hvalid, hleaf, hk', hstore, hname, hnames, hview⟩ := uvmunmap_turn h ha hp0 he hfree
    rw [hroot] at hwalk hname
    have hlt : a < bound := by
      rw [UInt64.lt_iff_toNat_lt]
      omega
    obtain ⟨k'', t'', hloop, h'', hname'', hview''⟩ := ih (show n < fuel by omega) hstore hname (toNat_add_pgsize ha hp0)
      (by omega) (by omega) (fun q hq hq' => by
        obtain ⟨e', he', hfree'⟩ := hmapped q (by omega) (by omega)
        refine ⟨e', ?_, ?_⟩
        · rw [hview, update_of_ne fun hqp => by rw [hqp] at hq; exact Nat.not_succ_le_self p hq]
          exact he'
        · unfold Freeable
          rw [hnames]
          exact hfree')
    refine ⟨k'', t'', ?_, h'', hname'', ?_⟩
    · rw [uvmunmapLoop, if_pos hlt, hwalk]
      dsimp only [Bind.bind, Except.bind]
      rw [if_neg hvalid, if_neg hleaf, hk']
      exact hloop
    · rw [hview'', hview, remove_succ]

/-- **`uvmunmap`** takes the pages of its range away. -/
theorem uvmunmap_spec (h : Holds k t) {kend va npages : UInt64} {doFree : Bool} (hal : va.toNat % 4096 = 0)
    (hmax : va.toNat + 4096 * npages.toNat ≤ MAXVA.toNat)
    (hmapped : ∀ q : Fin NPAGES, pageNo va ≤ q.val → q.val < pageNo va + npages.toNat →
      ∃ e, view t q = some e ∧ Freeable kend doFree t e) :
    ∃ k' t', uvmunmap kend (t.name 2) va npages doFree k = .ok k' ∧ Holds k' t' ∧ t'.name 2 = t.name 2 ∧
      view t' = (view t).remove (pageNo va) npages.toNat := by
  rw [toNat_maxva] at hmax
  have hsize : PGSIZE.toNat = 4096 := rfl
  have hva : va % PGSIZE = 0 := by
    apply UInt64.toNat_inj.mp
    rw [UInt64.toNat_mod]
    exact hal
  have ha : va.toNat = 4096 * pageNo va := by
    rw [pageNo]
    omega
  have hbound : (va + npages * PGSIZE).toNat = 4096 * (pageNo va + npages.toNat) := by
    rw [UInt64.toNat_add, UInt64.toNat_mul, hsize]
    omega
  rw [uvmunmap, if_neg (not_not.mpr hva)]
  refine uvmunmapLoop_spec npages.toNat ?_ h rfl ha hbound ?_ hmapped
  · omega
  · rw [NPAGES]
    omega

end Uvmunmap

/-! ### The refinement -/

/-- **`walkaddr`** looks a page up. -/
theorem walkaddr_spec {k : Kmem} {t : Tree 2} (h : Holds k t) (va : UInt64) :
    walkaddr (t.name 2) va k = .ok ((view t).userPage va) := by
  unfold walkaddr PageMap.userPage
  by_cases hva : va < MAXVA
  · have hp := lt_maxva_iff.mp hva
    obtain ⟨r, hwalk, hW, hr⟩ := walk_find h hva
    rw [if_neg (UInt64.not_le.mpr hva), dif_pos hp, hwalk]
    dsimp only [Bind.bind, Except.bind]
    cases r with
    | none =>
      have hnone : view t ⟨pageNo va, hp⟩ = none := by
        rw [view_eq_none]
        cases hl : Table.lookup (key (pageNo va)) 2 t with
        | none => rfl
        | some w => simp [Table.reaches_of_lookup hl] at hr
      rw [hnone]
    | some pte =>
      obtain ⟨b, hb, rfl⟩ := hW.found pte rfl
      rw [h.view_entry (p := ⟨pageNo va, hp⟩) hb, leafOf]
      dsimp only
      by_cases hvalid : k.mem (entry b (key (pageNo va) 0)) &&& PTE_V = 0
      · rw [if_pos hvalid, if_pos hvalid]
        rfl
      · rw [if_neg hvalid, if_neg hvalid, Option.map_some, and_flags (f := PTE_U) (by decide)]
        dsimp only
        split_ifs
        · rfl
        · rfl
  · rw [if_pos (UInt64.not_lt.mp hva), dif_neg fun hp => hva (lt_maxva_iff.mpr hp)]

/-- Two calls of `walk`, one after the other, for different pages give different entries. -/
theorem walk_ne {k : Kmem} {t : Tree 2} (h : Holds k t) {va va' a a' : UInt64} {alloc alloc' : Bool} {k₁ k₂ : Kmem}
    (hfresh : alloc = true ∨ alloc' = true → Fresh k t) (hne : pageNo va ≠ pageNo va')
    (hwalk : walk (t.name 2) va alloc k = .ok (some a, k₁)) (hwalk' : walk (t.name 2) va' alloc' k₁ = .ok (some a', k₂)) :
    a ≠ a' := by
  have hva := lt_maxva_of_walk hwalk
  have hva' := lt_maxva_of_walk hwalk'
  obtain ⟨t1, hW, hfresh₁⟩ := walk_spec h (fun ha => hfresh (.inl ha)) hwalk
  rw [← hW.name] at hwalk'
  obtain ⟨t2, hW', -⟩ := walk_spec hW.holds (fun ha => hfresh₁ (hfresh (.inr ha))) hwalk'
  obtain ⟨b, hb, rfl⟩ := hW.found a rfl
  obtain ⟨b', hb', rfl⟩ := hW'.found a' rfl
  exact entry_ne hW'.holds (lt_maxva_iff.mp hva) (lt_maxva_iff.mp hva') hne (hW'.kept _ b hb) hb'

/-- What the functions do to the map that memory holds. -/
structure Refines (k : Kmem) (t : Tree 2) : Prop where
  /-- Different pages have different entries, also while tables are made. -/
  walk_ne : ∀ va va' alloc alloc' a a' k₁ k₂, (alloc = true ∨ alloc' = true → Fresh k t) → pageNo va ≠ pageNo va' →
    walk (t.name 2) va alloc k = .ok (some a, k₁) → walk (t.name 2) va' alloc' k₁ = .ok (some a', k₂) → a ≠ a'
  /-- `walk` changes nothing of the map. -/
  walk_view : ∀ va alloc r k', (alloc = true → Fresh k t) → walk (t.name 2) va alloc k = .ok (r, k') →
    ∃ t', Holds k' t' ∧ t'.name 2 = t.name 2 ∧ view t' = view t
  /-- `walkaddr` is the lookup. -/
  walkaddr_eq : ∀ va, walkaddr (t.name 2) va k = .ok ((view t).userPage va)
  /-- `mappages` over pages that are not mapped adds all of them, or the first ones when it returns `-1`. -/
  mappages_view : ∀ va size pa perm, Fresh k t → size ≠ 0 → va.toNat + size.toNat ≤ MAXVA.toNat → perm.toNat < 1024 →
    (∀ q : Fin NPAGES, pageNo va ≤ q.val → q.val ≤ pageNo (va + size - 1) → view t q = none) →
    ∃ done k' t' n, mappages (t.name 2) va size pa perm k = .ok (done, k') ∧ Holds k' t' ∧ Fresh k' t' ∧
      t'.name 2 = t.name 2 ∧ n ≤ pageNo (va + size - 1) + 1 - pageNo va ∧
      (done = true ↔ n = pageNo (va + size - 1) + 1 - pageNo va) ∧ view t' = (view t).extend (pageNo va) n pa perm
  /-- `uvmunmap` over mapped pages removes all of them. -/
  uvmunmap_view : ∀ kend va npages doFree, va.toNat % 4096 = 0 → va.toNat + 4096 * npages.toNat ≤ MAXVA.toNat →
    (∀ q : Fin NPAGES, pageNo va ≤ q.val → q.val < pageNo va + npages.toNat →
      ∃ e, view t q = some e ∧ Freeable kend doFree t e) →
    ∃ k' t', uvmunmap kend (t.name 2) va npages doFree k = .ok k' ∧ Holds k' t' ∧ t'.name 2 = t.name 2 ∧
      view t' = (view t).remove (pageNo va) npages.toNat

/-- **The three-level page table refines a finite map**: for every tree that memory holds, with table pages that are
all different and inner entries without `PTE_R`, `PTE_W` and `PTE_X`. -/
theorem pagetable_refines {k : Kmem} {t : Tree 2} (h : Holds k t) : Refines k t where
  walk_ne _ _ _ _ _ _ _ _ hfresh hne hwalk hwalk' := walk_ne h hfresh hne hwalk hwalk'
  walk_view _ _ _ _ hfresh hwalk := by
    obtain ⟨t', hW, -⟩ := walk_spec h hfresh hwalk
    exact ⟨t', hW.holds, hW.name, hW.view⟩
  walkaddr_eq := walkaddr_spec h
  mappages_view _ _ pa _ hf hsize hmax hperm hnone := mappages_spec h hf pa hsize hmax hperm hnone
  uvmunmap_view _ _ _ _ hal hmax hmapped := uvmunmap_spec h hal hmax hmapped

/-- Memory that is zero, with three free pages. -/
def blank : Kmem where
  mem := fun _ => 0
  freelist := [0x80003000, 0x80002000, 0x80001000]

/-- An empty page table whose root is the page before them. -/
abbrev blankTable : Tree 2 := Table.empty 0x80000000 2

theorem blank_holds : Holds blank blankTable where
  rep := rep_empty (show Aligned 0x80000000 from rfl) (fun _ _ => rfl) 2
  nodup := by
    rw [Table.names_empty]
    exact Multiset.nodup_singleton _
  aligned := by
    rw [Table.names_empty]
    intro b hb
    rw [Multiset.mem_singleton.mp hb]
    rfl

theorem blank_fresh : Fresh blank blankTable where
  nodup := by
    rw [Table.names_empty]
    decide
  aligned := by
    rw [Table.names_empty]
    intro b hb
    simp only [blank, Multiset.mem_add, Multiset.mem_singleton, Multiset.mem_coe, List.mem_cons, List.not_mem_nil,
      or_false] at hb
    obtain rfl | rfl | rfl | rfl := hb <;> rfl

theorem pagetable_refines_of_blank :
    Holds blank blankTable ∧ Refines blank blankTable ∧
      ∃ done k' t' n, mappages 0x80000000 0 8192 0x80005000 (PTE_R ||| PTE_U) blank = .ok (done, k') ∧ Holds k' t' ∧
        n ≤ 2 ∧ view t' = PageMap.extend (fun _ => none) 0 n 0x80005000 (PTE_R ||| PTE_U) := by
  have hview : view blankTable = fun _ => none := by
    funext p
    exact view_eq_none.mpr (Table.lookup_empty _ _)
  obtain ⟨done, k', t', n, hrun, hholds, -, -, hn, -, hv⟩ := (pagetable_refines blank_holds).mappages_view 0 8192 0x80005000
    (PTE_R ||| PTE_U) blank_fresh (by decide) (by decide) (by decide) (fun q _ _ => congrFun hview q)
  refine ⟨blank_holds, pagetable_refines blank_holds, done, k', t', n, hrun, hholds, hn, ?_⟩
  rw [hv, hview]
  rfl

end Xv6Shmem.Flat
