import Xv6Shmem.Theory.RadixPages
import Xv6Shmem.Vm.PageTable

/-!
# What the page-table functions do

Read as a map from page numbers to leaf entries (`Pagetable.leaf`), a page table is
changed by `mappages` and `uvmunmap` at the pages they are given and nowhere else. The
leaves of a user page table have a shape (`Shape`): every page below the size of the
process is mapped, and from there on the leaves are a given map `X`, in which nothing is
below the size.

Pages are counted. Making tables takes free pages into the tree (`Took`); a loop that maps
page after page has made a table that has grown (`Grown`), with what each new page holds;
freeing gives exactly the pages of the table and of the memory back (`Moved`).

Each function has one lemma, which says what it returns, which pages it has moved, and
with which panics it can fail: of the panics of `mappages`, "walk" and "remap" happen when
there are free pages for the process to grow into `X` (`Blocked`), and "freewalk: leaf"
when something besides the trampoline and the trapframe is in `X`.
-/

namespace Xv6Shmem.Vm

open Function Kernel Radix

/-- The number of pages that have an entry in a tree of three levels, twice those below `MAXVA`. -/
abbrev VPNS : ℕ := 2 ^ 27

/-- The number of pages below `MAXVA`. -/
abbrev MAXVPN : ℕ := 2 ^ 26

/-- The leaf entry of page `v`, if there is one. -/
def Pagetable.leaf (pt : Pagetable) (v : ℕ) : Option Pte := if v < VPNS then pt.pte (v * PGSIZE) else none

/-! ### The map of a page table -/

variable {v : ℕ} {pt : Pagetable}

theorem px_ne {v' : ℕ} (hv : v < VPNS) (hv' : v' < VPNS) (h : v ≠ v') :
    ∃ l ≤ 2, px (v * PGSIZE) l ≠ px (v' * PGSIZE) l := by
  by_contra hall
  have hpx : ∀ l, l ≤ 2 → v * PGSIZE / 2 ^ (12 + 9 * l) % 512 = v' * PGSIZE / 2 ^ (12 + 9 * l) % 512 := by
    intro l hl
    by_contra hne
    exact hall ⟨l, hl, fun he => hne (congrArg Fin.val he)⟩
  have h0 := hpx 0 (by omega)
  have h1 := hpx 1 (by omega)
  have h2 := hpx 2 (by omega)
  simp only [PGSIZE, VPNS] at h0 h1 h2 hv hv'
  omega

theorem px_page (va : ℕ) : px (va / PGSIZE * PGSIZE) = px va := by
  funext l
  have hdiv : va / PGSIZE * PGSIZE / 2 ^ (12 + 9 * l) = va / 2 ^ (12 + 9 * l) := by
    rw [pow_add, ← Nat.div_div_eq_div_mul, ← Nat.div_div_eq_div_mul]
    congr 1
    simp only [PGSIZE]
    omega
  simp only [px, hdiv]

theorem pte_eq_leaf {va : ℕ} (h : va < MAXVA) : pt.pte va = pt.leaf (va / PGSIZE) := by
  have hv : va / PGSIZE < VPNS := by
    simp only [PGSIZE, VPNS, MAXVA] at h ⊢
    omega
  rw [Pagetable.leaf, if_pos hv, Pagetable.pte, Pagetable.pte, px_page]

theorem leaf_setPte {e : Option Pte} (hv : v < VPNS) (h : Table.reaches (px (v * PGSIZE)) 2 pt = true) :
    (pt.setPte (v * PGSIZE) e).leaf = update pt.leaf v e := by
  funext v'
  by_cases hvv : v' = v
  · subst hvv
    rw [update_self, Pagetable.leaf, if_pos hv]
    exact Table.lookup_set_self h
  · rw [update_of_ne hvv, Pagetable.leaf, Pagetable.leaf]
    split_ifs with hv'
    · exact Table.lookup_set_of_ne (px_ne hv hv' (Ne.symm hvv))
    · rfl

theorem leaf_empty (b : ℤ) : Pagetable.leaf (Table.empty b 2) = fun _ => none := by
  funext v
  rw [Pagetable.leaf]
  split_ifs
  · exact Table.lookup_empty b 2
  · rfl

theorem lookup_eq_leaf (pt : Pagetable) (k : ℕ → Fin 512) : ∃ v, Table.lookup k 2 pt = pt.leaf v := by
  have h0 := (k 0).isLt
  have h1 := (k 1).isLt
  have h2 := (k 2).isLt
  obtain ⟨v, hv⟩ : ∃ v, v = ((k 2).val * 512 + (k 1).val) * 512 + (k 0).val := ⟨_, rfl⟩
  have hlt : v < VPNS := by simp only [VPNS]; omega
  have hpx : ∀ l ≤ 2, px (v * PGSIZE) l = k l := by
    intro l hl
    apply Fin.ext
    show v * PGSIZE / 2 ^ (12 + 9 * l) % 512 = (k l).val
    obtain rfl | rfl | rfl : l = 0 ∨ l = 1 ∨ l = 2 := by omega
    all_goals simp only [PGSIZE]; omega
  refine ⟨v, ?_⟩
  rw [Pagetable.leaf, if_pos hlt, Pagetable.pte]
  simp only [Table.lookup, hpx 0 (by omega), hpx 1 (by omega), hpx 2 le_rfl]

theorem reaches_of_leaf {e : Pte} (h : pt.leaf v = some e) :
    v < VPNS ∧ Table.reaches (px (v * PGSIZE)) 2 pt = true ∧ pt.pte (v * PGSIZE) = some e := by
  rw [Pagetable.leaf] at h
  split_ifs at h with hv
  exact ⟨hv, Table.reaches_of_lookup h, h⟩

/-! ### What an allocating function takes -/

/-- The pages of the tables. -/
def Pagetable.tables (pt : Pagetable) : Multiset ℤ := Table.names 2 pt

/-- From `k` to `k'` the tables have grown from those of `pt` to those of `pt'`, the pages `X` are taken besides,
and only pages that were free are written. -/
def Took (pt : Pagetable) (k : Kmem) (X : Multiset ℤ) (pt' : Pagetable) (k' : Kmem) : Prop :=
  ∃ T, Moved 0 (T + X) k k' ∧ pt'.tables = pt.tables + T

section

variable {L : Layout} {k k₀ k' k₁ k₂ : Kmem} {pt₀ pt' pt₁ pt₂ : Pagetable} {X Y : Multiset ℤ} {pa : ℤ}

theorem tables_setPte (va : ℕ) (e : Option Pte) : (pt.setPte va e).tables = pt.tables := Table.names_set

theorem Took.of_moved (h : Moved 0 X k k') : Took pt k X pt k' := ⟨0, by rwa [zero_add], (add_zero _).symm⟩

theorem Took.refl : Took pt k 0 pt k := .of_moved .refl

theorem Took.trans (h : Took pt k X pt₁ k₁) (h' : Took pt₁ k₁ Y pt₂ k₂) : Took pt k (X + Y) pt₂ k₂ := by
  obtain ⟨T, hm, ht⟩ := h
  obtain ⟨T', hm', ht'⟩ := h'
  refine ⟨T + T', ?_, by rw [ht', ht, add_assoc]⟩
  have hsum : T + T' + (X + Y) = T' + Y + (T + X) := by abel
  rw [hsum]
  exact hm.take hm'

theorem Took.give (h : Took pt k (X + Y) pt' k₁) (hm : Moved Y 0 k₁ k₂) : Took pt k X pt' k₂ := by
  obtain ⟨T, hm1, ht⟩ := h
  refine ⟨T, ?_, ht⟩
  have hsum : T + (X + Y) = Y + (T + X) := by abel
  rw [hsum] at hm1
  exact hm1.give hm

variable (h : Took pt k X pt' k')

include h

theorem Took.setPte (va : ℕ) (e : Option Pte) : Took pt k X (pt'.setPte va e) k' := by
  obtain ⟨T, hm, ht⟩ := h
  exact ⟨T, hm, by rw [tables_setPte, ht]⟩

theorem Took.all {P : ℤ → Prop} (hk : ∀ a ∈ k.freelist, P a) :
    (∀ a ∈ X, P a) ∧ ∀ a ∈ k'.freelist, P a := by
  obtain ⟨T, hm, -⟩ := h
  obtain ⟨hT, hk'⟩ := hm.all (by simp) hk
  exact ⟨fun a ha => hT a (Multiset.mem_add.mpr (.inr ha)), hk'⟩

theorem Took.mem_freelist : ∀ a ∈ X, a ∈ k.freelist := (h.all fun _ ha => ha).1

theorem Took.freelist_subset : ∀ a ∈ k'.freelist, a ∈ k.freelist := (h.all fun _ ha => ha).2

theorem Took.length_le : k'.freelist.length ≤ k.freelist.length := by
  obtain ⟨T, hm, -⟩ := h
  exact hm.length_le

/-- If no page is free twice, a page that was taken is not free. -/
theorem Took.not_free (hk : k.freelist.Nodup) (hpa : pa ∈ X) : pa ∉ k'.freelist := by
  obtain ⟨T, hm, -⟩ := h
  exact (hm.nodup hk).2.2 pa (Multiset.mem_add.mpr (.inr hpa))

theorem Took.nodup (hk : k.freelist.Nodup) : k'.freelist.Nodup := by
  obtain ⟨T, hm, -⟩ := h
  exact (hm.nodup hk).2.1

/-- A page that was not free keeps its bytes. -/
theorem Took.eqOn (hk : ∀ a ∈ k.freelist, L.IsPage a) (hpa : pa % PGSIZE = 0)
    (hnot : pa ∉ k.freelist) : Mem.EqOn pa PGSIZE k.mem k'.mem := by
  obtain ⟨T, hm, -⟩ := h
  refine hm.eqOn (fun a ha => (hk a ?_).1) hpa ?_
  · rwa [zero_add] at ha
  · rwa [zero_add]

omit h

/-! ### Mapping -/

/-- Making tables takes free pages and nothing else. -/
theorem grow_took (va : ℕ) :
    Took pt k 0 (Table.grow kallocZero (px va) 2 pt k).2.1 (Table.grow kallocZero (px va) 2 pt k).2.2 := by
  have hrule : Table.All (fun _ => True) 2 (Table.grow kallocZero (px va) 2 pt k).2.1 ∧
      ∃ T, Moved 0 T k (Table.grow kallocZero (px va) 2 pt k).2.2 := by
    refine Table.grow_rule (I := fun k' => ∃ T, Moved 0 T k k') ?_ (Table.all_of_names fun _ _ => trivial) ⟨0, .refl⟩
    rintro s pa s' ⟨T, hm⟩ hs
    exact ⟨trivial, {pa} + T, hm.take (kallocZero_moved hs).1⟩
  have hlist : ∀ s a s', kallocZero s = some (a, s') → (s.freelist : Multiset ℤ) = a ::ₘ s'.freelist := by
    intro s a s' hs
    have hpages := (kallocZero_moved hs).1.pages
    rwa [zero_add] at hpages
  have hnames := Table.names_grow (k := px va) (t := pt) (s := k) (fun k : Kmem => (k.freelist : Multiset ℤ)) hlist
  obtain ⟨-, T, hm⟩ := hrule
  have hpages := hm.pages
  rw [zero_add] at hpages
  rw [hpages, ← add_assoc] at hnames
  exact ⟨T, by rwa [add_zero], add_right_cancel hnames⟩

theorem leaf_grow (va : ℕ) : Pagetable.leaf (Table.grow kallocZero (px va) 2 pt k).2.1 = pt.leaf := by
  funext v
  rw [Pagetable.leaf, Pagetable.leaf]
  split_ifs
  · exact Table.lookup_grow
  · rfl

variable {E : Panic → Prop} {n : ℕ} {e : Pte} {f : ℕ → Option Pte}

/-- `walk` with `alloc` changes no leaf, and goes through if there are pages for the tables that are missing. -/
theorem walk_alloc {va : ℕ} (hva : va < MAXVA) :
    Outcome
      (fun r : Bool × Pagetable × Kmem => Took pt k 0 r.2.1 r.2.2 ∧ r.2.1.leaf = pt.leaf ∧
        (r.1 = true → Table.reaches (px va) 2 r.2.1 = true) ∧
        (r.1 = true ↔ Table.missing (px va) 2 pt ≤ k.freelist.length))
      E (walk pt va true k) := by
  rw [walk, if_neg (not_le.mpr hva), if_pos rfl]
  exact .ok ⟨grow_took va, leaf_grow va, Table.reaches_grow,
    Table.grow_flag (fun k : Kmem => k.freelist.length) kallocZero_none kallocZero_some⟩

theorem walk_error {va : ℕ} {alloc : Bool} (hva : MAXVA ≤ va) : walk pt va alloc k = .error .walk := by
  rw [walk, if_pos hva]

theorem walk_of_leaf (hv : v < MAXVPN) (h : pt.leaf v = some e) :
    walk pt (v * PGSIZE) false k = .ok (true, pt, k) := by
  obtain ⟨-, hr, -⟩ := reaches_of_leaf h
  have hva : ¬ MAXVA ≤ v * PGSIZE := by simp only [PGSIZE, MAXVA, MAXVPN] at hv ⊢; omega
  rw [walk, if_neg hva, if_neg (by simp), hr]

/-- The panics of `mappages` on a page `v`. -/
def MapPanic (pt : Pagetable) (v : ℕ) (e : Panic) : Prop :=
  e = .walk ∧ MAXVPN ≤ v ∨ e = .mappagesRemap ∧ pt.leaf v ≠ none

/-- What `mappages` of one page does: it panics if the page is beyond `MAXVA` or mapped; else it maps
it, if there are pages for the tables that are missing, or runs out of pages and changes no leaf. -/
theorem mappages_page :
    Outcome
      (fun r : Bool × Pagetable × Kmem => v < MAXVPN ∧ Took pt k 0 r.2.1 r.2.2 ∧
        (r.1 = false → r.2.1.leaf = pt.leaf) ∧
        (r.1 = true → pt.leaf v = none ∧ r.2.1.leaf = update pt.leaf v (some e)) ∧
        (r.1 = true ↔ Table.missing (px (v * PGSIZE)) 2 pt ≤ k.freelist.length))
      (MapPanic pt v) (mappages pt (v * PGSIZE) PGSIZE e k) := by
  have hdown : pgrounddown (v * PGSIZE) = v * PGSIZE := by
    simp only [pgrounddown, PGSIZE]; omega
  have hturns : (pgrounddown (v * PGSIZE + PGSIZE - 1) - v * PGSIZE) / PGSIZE = 0 := by
    simp only [pgrounddown, PGSIZE]; omega
  rw [mappages, if_neg (by simp [PGSIZE])]
  simp only [hdown, hturns]
  unfold mappagesLoop
  by_cases hv : v < MAXVPN
  · have hva : v * PGSIZE < MAXVA := by simp only [PGSIZE, MAXVA, MAXVPN] at hv ⊢; omega
    have hv' : v < VPNS := lt_trans hv (by decide)
    refine Outcome.bind (walk_alloc hva) ?_
    rintro ⟨found, pt', k'⟩ ⟨htook, hleaf, hreach, hroom⟩
    dsimp only at htook hleaf hreach hroom ⊢
    have hpte : pt'.pte (v * PGSIZE) = pt.leaf v := by rw [← hleaf, Pagetable.leaf, if_pos hv']
    cases found with
    | false => exact .ok ⟨hv, htook, fun _ => hleaf, nofun, hroom⟩
    | true =>
      rw [if_neg (by simp), hpte]
      cases hl : pt.leaf v with
      | some e' => exact .error (.inr ⟨rfl, by simp [hl]⟩)
      | none =>
        refine .ok ⟨hv, htook.setPte _ _, nofun, fun _ => ⟨rfl, ?_⟩, hroom⟩
        rw [← hleaf]
        exact leaf_setPte hv' (hreach rfl)
  · have hva : MAXVA ≤ v * PGSIZE := by simp only [PGSIZE, MAXVA, MAXVPN] at hv ⊢; omega
    rw [walk_error hva]
    exact .error (.inl ⟨rfl, not_lt.mp hv⟩)

/-- `mappages` of a page that is not mapped does not panic. -/
theorem mappages_unmapped (hv : v < MAXVPN) (hnone : pt.leaf v = none) :
    Outcome
      (fun r : Bool × Pagetable × Kmem => Took pt k 0 r.2.1 r.2.2 ∧ (r.1 = false → r.2.1.leaf = pt.leaf) ∧
        (r.1 = true → r.2.1.leaf = update pt.leaf v (some e)))
      E (mappages pt (v * PGSIZE) PGSIZE e k) := by
  refine mappages_page.mono (fun r hr => ⟨hr.2.1, hr.2.2.1, fun hb => (hr.2.2.2.1 hb).2⟩) ?_
  rintro err (⟨-, hge⟩ | ⟨-, hne⟩)
  · exact absurd hv (not_lt.mpr hge)
  · exact absurd hnone hne

/-! ### Unmapping -/

/-- A map with the pages `v` to `v + n - 1` taken out. -/
def cut (f : ℕ → Option Pte) (v n : ℕ) (x : ℕ) : Option Pte := if v ≤ x ∧ x < v + n then none else f x

theorem cut_zero (f : ℕ → Option Pte) (v : ℕ) : cut f v 0 = f := by
  funext x
  rw [cut, if_neg (by omega)]

theorem cut_succ (f : ℕ → Option Pte) (v n : ℕ) :
    cut (update f v none) (v + 1) n = cut f v (n + 1) := by
  funext x
  unfold cut
  by_cases hx : x = v
  · subst hx
    rw [if_neg (by omega), if_pos (by omega), update_self]
  · rw [update_of_ne hx]
    congr 1
    simp only [eq_iff_iff]
    omega

/-- The pages that a map has for the page numbers `v` to `v + n - 1`. -/
def pages (f : ℕ → Option Pte) : ℕ → ℕ → Multiset ℤ
  | _, 0 => 0
  | v, n + 1 => (f v).elim 0 (fun e => {e.pa}) + pages f (v + 1) n

theorem pages_congr {g : ℕ → Option Pte} (h : ∀ x, v ≤ x → x < v + n → f x = g x) :
    pages f v n = pages g v n := by
  induction n generalizing v with
  | zero => rfl
  | succ n ih => rw [pages, pages, h v le_rfl (by omega), ih fun x hx hx' => h x (by omega) (by omega)]

theorem pages_update {x : ℕ} {e' : Pte} (hx : f x = some e) (he : e'.pa = e.pa) (v n : ℕ) :
    pages (update f x (some e')) v n = pages f v n := by
  induction n generalizing v with
  | zero => rfl
  | succ n ih =>
    rw [pages, pages, ih]
    by_cases hv : v = x
    · rw [hv, update_self, hx, Option.elim_some, Option.elim_some, he]
    · rw [update_of_ne hv]

theorem pages_add (f : ℕ → Option Pte) (v n m : ℕ) : pages f v (n + m) = pages f v n + pages f (v + n) m := by
  induction n generalizing v with
  | zero => simp [pages]
  | succ n ih =>
    have hv : v + 1 + n = v + (n + 1) := by omega
    rw [Nat.add_right_comm, pages, ih, pages, hv, ← add_assoc]

theorem mem_pages {a : ℤ} :
    a ∈ pages f v n ↔ ∃ x, v ≤ x ∧ x < v + n ∧ ∃ e, f x = some e ∧ e.pa = a := by
  induction n generalizing v with
  | zero => simp [pages]; omega
  | succ n ih =>
    rw [pages, Multiset.mem_add, ih]
    constructor
    · rintro (h | ⟨x, hx, hx', he⟩)
      · cases hf : f v with
        | none => simp [hf] at h
        | some e =>
          rw [hf, Option.elim_some, Multiset.mem_singleton] at h
          exact ⟨v, le_rfl, by omega, e, hf, h.symm⟩
      · exact ⟨x, by omega, by omega, he⟩
    · rintro ⟨x, hx, hx', e, he, ha⟩
      by_cases hxv : x = v
      · left
        rw [← hxv, he, Option.elim_some, Multiset.mem_singleton, ha]
      · exact .inr ⟨x, by omega, by omega, e, he, ha⟩

theorem card_pages (h : ∀ x, v ≤ x → x < v + n → ∃ e, f x = some e) :
    (pages f v n).card = n := by
  induction n generalizing v with
  | zero => rfl
  | succ n ih =>
    obtain ⟨e, he⟩ := h v le_rfl (by omega)
    rw [pages, he, Option.elim_some, Multiset.card_add, Multiset.card_singleton,
      ih fun x hx hx' => h x (by omega) (by omega), Nat.add_comm]

/-- Where every page is mapped, and to a page of the allocator if it is to be freed, `uvmunmap`
does not fail, takes these leaves out, and gives their pages back if it is to. -/
theorem uvmunmap_outcome {doFree : Bool} (hle : v + n ≤ MAXVPN)
    (hmap : ∀ x, v ≤ x → x < v + n → ∃ e, pt.leaf x = some e ∧ (doFree = true → L.IsPage e.pa)) :
    Outcome
      (fun r : Pagetable × Kmem => r.1.tables = pt.tables ∧ r.1.leaf = cut pt.leaf v n ∧
        (doFree = true → Moved (pages pt.leaf v n) 0 k r.2) ∧ (doFree = false → r.2 = k))
      E (uvmunmap L pt (v * PGSIZE) n doFree k) := by
  rw [uvmunmap, if_neg (by simp)]
  induction n generalizing v pt k with
  | zero => exact .ok ⟨rfl, (cut_zero _ _).symm, fun _ => .refl, fun _ => rfl⟩
  | succ n ih =>
    obtain ⟨e, he, hfree⟩ := hmap v le_rfl (by omega)
    obtain ⟨hv, hr, hpte⟩ := reaches_of_leaf he
    have hset := leaf_setPte (e := none) hv hr
    unfold uvmunmapLoop
    rw [walk_of_leaf (by omega) he]
    refine Outcome.bind (R := (· = (true, pt, k))) (.ok rfl) ?_
    rintro _ rfl
    simp only [Bool.not_true, Bool.false_eq_true, if_false, hpte]
    have hk : Outcome (fun k1 => (doFree = true → Moved {e.pa} 0 k k1) ∧ (doFree = false → k1 = k)) E
        (kfreeIf L doFree e.pa k) := by
      rw [kfreeIf]
      by_cases hd : doFree = true
      · rw [if_pos hd]
        exact (kfree_moved (hfree hd)).imp fun k1 hk1 => ⟨fun _ => hk1, by simp [hd]⟩
      · rw [if_neg hd]
        exact .ok ⟨fun h => absurd h hd, fun _ => rfl⟩
    refine Outcome.bind hk fun k1 hk1 => ?_
    have hnext : v * PGSIZE + PGSIZE = (v + 1) * PGSIZE := (Nat.succ_mul v PGSIZE).symm
    have hrest : pages (pt.setPte (v * PGSIZE) none).leaf (v + 1) n = pages pt.leaf (v + 1) n :=
      pages_congr fun x hx _ => by rw [hset, update_of_ne (by omega)]
    rw [hnext]
    have hmap' : ∀ x, v + 1 ≤ x → x < v + 1 + n →
        ∃ e, (pt.setPte (v * PGSIZE) none).leaf x = some e ∧ (doFree = true → L.IsPage e.pa) := by
      intro x hx hx'
      obtain ⟨e', he', hfree'⟩ := hmap x (by omega) (by omega)
      exact ⟨e', by rw [hset, update_of_ne (by omega), he'], hfree'⟩
    refine (ih (k := k1) (by omega) hmap').imp ?_
    rintro ⟨pt', k'⟩ ⟨ht, hleaf, hmoved, hsame⟩
    refine ⟨by rw [ht, tables_setPte], by rw [hleaf, hset, cut_succ], fun hd => ?_, fun hd => ?_⟩
    · have hfirst := (hk1.1 hd).frame (pages pt.leaf (v + 1) n)
      rw [zero_add] at hfirst
      rw [pages, he, Option.elim_some]
      exact hfirst.trans (hrest ▸ hmoved hd)
    · rw [hsame hd, hk1.2 hd]

end

/-- The number of pages that `sz` bytes take. -/
def npages (sz : ℕ) : ℕ := pgroundup sz / PGSIZE

theorem npages_eq (sz : ℕ) : npages sz = (sz + PGSIZE - 1) / PGSIZE := by
  simp only [npages, pgroundup, PGSIZE]; omega

theorem pgroundup_eq (sz : ℕ) : pgroundup sz = npages sz * PGSIZE := by
  simp only [npages, pgroundup, PGSIZE]; omega

theorem npages_mul (n : ℕ) : npages (n * PGSIZE) = n := by
  simp only [npages_eq, PGSIZE]; omega

theorem npages_mono {a b : ℕ} (h : a ≤ b) : npages a ≤ npages b := by
  simp only [npages_eq, PGSIZE]; omega

/-! ### Growing -/

section

variable {L : Layout} {C : ℕ → Pte → Mem → Prop} {k k₀ k₁ k₂ : Kmem} {pt₀ pt₁ : Pagetable} {n₀ n : ℕ}

/-- From `pt₀` and `k₀` to `pt` and `k` the pages `n₀` to `n - 1` have been mapped. `C` says what the entries and the
bytes of these pages are. -/
structure Grown (C : ℕ → Pte → Mem → Prop) (n₀ : ℕ) (pt₀ : Pagetable) (k₀ : Kmem) (n : ℕ) (pt : Pagetable) (k : Kmem) :
    Prop where
  /-- There may be none. -/
  le : n₀ ≤ n
  /-- All other leaves are as before. -/
  out : ∀ v, v < n₀ ∨ n ≤ v → pt.leaf v = pt₀.leaf v
  /-- These were not mapped. -/
  fresh : ∀ v, n₀ ≤ v → v < n → pt₀.leaf v = none
  /-- Now they are. -/
  into : ∀ v, n₀ ≤ v → v < n → ∃ e, pt.leaf v = some e ∧ C v e k.mem
  /-- The pages are taken from the list. -/
  took : Took pt₀ k₀ (pages pt.leaf n₀ (n - n₀)) pt k

theorem Grown.refl : Grown C n₀ pt₀ k₀ n₀ pt₀ k₀ where
  le := le_rfl
  out := fun _ _ => rfl
  fresh := fun v h h' => absurd h (by omega)
  into := fun v h h' => absurd h (by omega)
  took := by
    rw [Nat.sub_self]
    exact .refl

/-- `C` is about the bytes of one page, if no page was free twice. -/
def Local (k₀ : Kmem) (C : ℕ → Pte → Mem → Prop) : Prop :=
  ∀ v e m m', (k₀.freelist.Nodup → Mem.EqOn e.pa PGSIZE m m') → C v e m → C v e m'

variable (h : Grown C n₀ pt₀ k₀ n pt k) (hC : Local k₀ C) (hk₀ : ∀ a ∈ k₀.freelist, L.IsPage a)

include h hC hk₀

/-- The pages that are mapped keep their bytes when free pages are taken. -/
theorem Grown.keep {X : Multiset ℤ}
    (ht : Took pt k X pt₁ k₁) {v : ℕ} (hv : n₀ ≤ v) (hv' : v < n) :
    ∃ e, pt.leaf v = some e ∧ C v e k₁.mem := by
  obtain ⟨e, he, hc⟩ := h.into v hv hv'
  refine ⟨e, he, hC v e _ _ (fun hnd => ?_) hc⟩
  have hmem : e.pa ∈ pages pt.leaf n₀ (n - n₀) := mem_pages.mpr ⟨v, hv, by omega, e, he, rfl⟩
  exact ht.eqOn (fun a ha => hk₀ a (h.took.freelist_subset a ha)) (hk₀ _ (h.took.mem_freelist _ hmem)).1
    (h.took.not_free hnd hmem)

theorem Grown.tables
    (ht : Took pt k 0 pt₁ k₁) (hleaf : pt₁.leaf = pt.leaf) : Grown C n₀ pt₀ k₀ n pt₁ k₁ where
  le := h.le
  out := by rw [hleaf]; exact h.out
  fresh := h.fresh
  into := fun v hv hv' => by rw [hleaf]; exact h.keep hC hk₀ ht hv hv'
  took := by
    have htook := h.took.trans ht
    rwa [add_zero, ← hleaf] at htook

theorem Grown.succ {e : Pte}
    (ht : Took pt k {e.pa} pt₁ k₁) (hnone : pt.leaf n = none) (hleaf : pt₁.leaf = update pt.leaf n (some e))
    (hc : C n e k₁.mem) : Grown C n₀ pt₀ k₀ (n + 1) pt₁ k₁ where
  le := Nat.le_succ_of_le h.le
  out := fun v hv => by
    have hle := h.le
    rw [hleaf, update_of_ne (by omega)]
    exact h.out v (by omega)
  fresh := fun v hv hv' => by
    by_cases hvn : v = n
    · rw [hvn, ← h.out n (.inr le_rfl), hnone]
    · exact h.fresh v hv (by omega)
  into := fun v hv hv' => by
    rw [hleaf]
    by_cases hvn : v = n
    · subst hvn
      exact ⟨e, update_self .., hc⟩
    · rw [update_of_ne hvn]
      exact h.keep hC hk₀ ht hv (by omega)
  took := by
    have htook := h.took.trans ht
    have hle := h.le
    have hsum : n + 1 - n₀ = n - n₀ + 1 := by omega
    have hlast : n₀ + (n - n₀) = n := by omega
    rw [hsum, pages_add, hlast, hleaf, pages, pages, update_self, Option.elim_some, add_zero]
    have hsame : pages (update pt.leaf n (some e)) n₀ (n - n₀) = pages pt.leaf n₀ (n - n₀) :=
      pages_congr fun x _ hx => by rw [update_of_ne (by omega)]
    rwa [hsame]

omit h hC hk₀

variable {E : Panic → Prop} {sz : ℕ} {f : ℕ → Option Pte}

/-- **Undoing**: what was mapped is taken out and given back. -/
theorem Grown.undo (h : Grown C n₀ pt₀ k₀ n pt k) (hk₀ : ∀ a ∈ k₀.freelist, L.IsPage a) (hn : n ≤ MAXVPN) :
    Outcome (fun r : Pagetable × Kmem => r.1.leaf = pt₀.leaf ∧ Took pt₀ k₀ 0 r.1 r.2) E
      (uvmunmap L pt (n₀ * PGSIZE) (n - n₀) true k) := by
  have hle := h.le
  refine (uvmunmap_outcome (by omega) fun x hx hx' => ?_).imp ?_
  · obtain ⟨e, he, -⟩ := h.into x hx (by omega)
    exact ⟨e, he, fun _ => hk₀ _ (h.took.mem_freelist _ (mem_pages.mpr ⟨x, hx, hx', e, he, rfl⟩))⟩
  · rintro ⟨pt', k'⟩ ⟨ht, hleaf, hm, -⟩
    refine ⟨?_, ?_⟩
    · funext x
      rw [hleaf, cut]
      split_ifs with hx
      · exact (h.fresh x hx.1 (by omega)).symm
      · exact h.out x (by omega)
    · have htook := Took.give (X := 0) (by rw [zero_add]; exact h.took) (hm rfl)
      obtain ⟨T, hT, hnames⟩ := htook
      exact ⟨T, hT, by rw [ht, hnames]⟩

/-- The panics of a process that grows into what is mapped above it, or beyond `MAXVA`. -/
def GrowPanic (e : Panic) : Prop := e = .walk ∨ e = .mappagesRemap

theorem MapPanic.grow {e : Panic} (h : MapPanic pt v e) : GrowPanic e :=
  h.imp And.left And.left

/-- The panics of a table with the leaves `f` that is to be grown from page `a` to page `b`. -/
def Blocked (f : ℕ → Option Pte) (a b : ℕ) (e : Panic) : Prop :=
  GrowPanic e ∧ ∃ v, a ≤ v ∧ v < b ∧ (MAXVPN ≤ v ∨ f v ≠ none)

theorem Blocked.mono {a a' b b' : ℕ} {e : Panic} (h : Blocked f a b e) (ha : a' ≤ a) (hb : b ≤ b') :
    Blocked f a' b' e := by
  obtain ⟨he, v, hv, hv', hf⟩ := h
  exact ⟨he, v, by omega, by omega, hf⟩

/-- **A turn** of a loop that takes a page, fills it and maps it: one page more is mapped, or the page is left
over, with no leaf changed. -/
theorem Grown.turn (h : Grown C n₀ pt₀ k₀ n pt k) (hC : Local k₀ C) (hk₀ : ∀ a ∈ k₀.freelist, L.IsPage a) {e : Pte}
    (ha : Moved 0 {e.pa} k k₁) (hc : C n e k₁.mem) :
    Outcome
      (fun r : Bool × Pagetable × Kmem => n < MAXVPN ∧ r.2.2.freelist.length < k.freelist.length ∧
        (r.1 = true → Grown C n₀ pt₀ k₀ (n + 1) r.2.1 r.2.2) ∧
        (r.1 = false → r.2.1.leaf = pt.leaf ∧ Took pt k {e.pa} r.2.1 r.2.2))
      (fun x => Blocked pt₀.leaf n (n + 1) x) (mappages pt (n * PGSIZE) PGSIZE e k₁) := by
  have htake : Took pt k {e.pa} pt k₁ := .of_moved ha
  refine mappages_page.mono ?_ fun x hx => ⟨hx.grow, n, le_rfl, n.lt_succ_self, ?_⟩
  · rintro ⟨mapped, pt', k'⟩ ⟨hlt, htook, hfail, hok, -⟩
    dsimp only at htook hfail hok ⊢
    have htook' : Took pt k {e.pa} pt' k' := by
      have := htake.trans htook
      rwa [add_zero] at this
    have hlen := kalloc_length ha
    have hlen' := htook.length_le
    refine ⟨hlt, by omega, fun hm => ?_, fun hm => ⟨hfail hm, htook'⟩⟩
    obtain ⟨hnone, hleaf⟩ := hok hm
    refine h.succ hC hk₀ htook' hnone hleaf (hC n e _ _ (fun hnd => ?_) hc)
    have hmem : e.pa ∈ k₀.freelist :=
      h.took.freelist_subset _ (htake.mem_freelist _ (Multiset.mem_singleton_self _))
    exact htook.eqOn (fun a ha' => hk₀ a (h.took.freelist_subset a (htake.freelist_subset a ha'))) (hk₀ _ hmem).1
      (htake.not_free (h.took.nodup hnd) (Multiset.mem_singleton_self _))
  · rcases hx with ⟨-, hv⟩ | ⟨-, hv⟩
    · exact .inl hv
    · right
      rwa [← h.out n (.inr le_rfl)]

theorem Grown.giveBack (h : Grown C n₀ pt₀ k₀ n pt k) (hC : Local k₀ C)
    (hk₀ : ∀ a ∈ k₀.freelist, L.IsPage a) {a : ℤ} (ht : Took pt k {a} pt₁ k₁) (hleaf : pt₁.leaf = pt.leaf) :
    Outcome (Grown C n₀ pt₀ k₀ n pt₁) E (kfree L a k₁) := by
  have hpa := hk₀ a (h.took.freelist_subset _ (ht.mem_freelist _ (Multiset.mem_singleton_self a)))
  refine (kfree_moved hpa).imp fun k2 hm => h.tables hC hk₀ (Took.give (X := 0) ?_ hm) hleaf
  rwa [zero_add]

/-! ### `uvmdealloc` and `uvmalloc` -/

/-- `uvmdealloc` of a process with all pages mapped takes the leaves beyond the new size out and gives their pages
back. -/
theorem uvmdealloc_outcome {oldsz newsz : ℕ} (hle : npages oldsz ≤ MAXVPN)
    (hmap : ∀ x, npages newsz ≤ x → x < npages oldsz → ∃ e, pt.leaf x = some e ∧ L.IsPage e.pa) :
    Outcome
      (fun r : ℕ × Pagetable × Kmem => r.1 = min oldsz newsz ∧ r.2.1.tables = pt.tables ∧
        r.2.1.leaf = cut pt.leaf (npages newsz) (npages oldsz - npages newsz) ∧
        Moved (pages pt.leaf (npages newsz) (npages oldsz - npages newsz)) 0 k r.2.2)
      E (uvmdealloc L pt oldsz newsz k) := by
  have hnone : npages oldsz ≤ npages newsz → npages oldsz - npages newsz = 0 := Nat.sub_eq_zero_of_le
  unfold uvmdealloc
  by_cases hsz : oldsz ≤ newsz
  · rw [if_pos hsz, hnone (npages_mono hsz)]
    exact .ok ⟨(min_eq_left hsz).symm, rfl, (cut_zero _ _).symm, .refl⟩
  rw [if_neg hsz, min_eq_right (by omega)]
  by_cases hlt : pgroundup newsz < pgroundup oldsz
  · have hpages : (pgroundup oldsz - pgroundup newsz) / PGSIZE = npages oldsz - npages newsz := by
      simp only [pgroundup_eq, PGSIZE]; omega
    have hmn : npages newsz ≤ npages oldsz := npages_mono (by omega)
    rw [if_pos hlt]
    dsimp only
    rw [hpages, pgroundup_eq newsz]
    refine Outcome.bind (uvmunmap_outcome (by omega) fun x hx hx' => ?_) ?_
    · obtain ⟨e, he, hpa⟩ := hmap x hx (by omega)
      exact ⟨e, he, fun _ => hpa⟩
    · rintro ⟨pt', k'⟩ ⟨ht, hleaf, hm, -⟩
      exact .ok ⟨rfl, ht, hleaf, hm rfl⟩
  · rw [if_neg hlt, hnone (by simp only [pgroundup_eq, npages_eq, PGSIZE] at hlt ⊢; omega)]
    exact .ok ⟨rfl, rfl, (cut_zero _ _).symm, .refl⟩

/-- How `uvmalloc` gives back what it mapped. -/
theorem Grown.uvmdealloc (h : Grown C n₀ pt₀ k₀ n pt k) (hk₀ : ∀ a ∈ k₀.freelist, L.IsPage a) (hn : n ≤ MAXVPN) :
    Outcome (fun r : ℕ × Pagetable × Kmem => r.2.1.leaf = pt₀.leaf ∧ Took pt₀ k₀ 0 r.2.1 r.2.2) E
      (uvmdealloc L pt (n * PGSIZE) (n₀ * PGSIZE) k) := by
  have hle := h.le
  have hundo := h.undo (E := E) hk₀ hn
  unfold Vm.uvmdealloc
  by_cases hsz : n * PGSIZE ≤ n₀ * PGSIZE
  · obtain rfl : n = n₀ := le_antisymm (Nat.le_of_mul_le_mul_right hsz (by decide)) hle
    rw [if_pos hsz]
    refine .ok ⟨funext fun x => h.out x (by omega), ?_⟩
    have htook := h.took
    rwa [Nat.sub_self] at htook
  · have hlt : pgroundup (n₀ * PGSIZE) < pgroundup (n * PGSIZE) := by
      rw [pgroundup_eq, pgroundup_eq, npages_mul, npages_mul]
      omega
    have hpages : (pgroundup (n * PGSIZE) - pgroundup (n₀ * PGSIZE)) / PGSIZE = n - n₀ := by
      rw [pgroundup_eq, pgroundup_eq, npages_mul, npages_mul, ← Nat.sub_mul, Nat.mul_div_cancel _ (by decide)]
    rw [if_neg hsz, if_pos hlt]
    dsimp only
    rw [hpages, pgroundup_eq (n₀ * PGSIZE), npages_mul]
    exact Outcome.bind hundo fun r hr => .ok hr

/-- The entries and the bytes of the pages that `uvmalloc` maps, when it begins with `k₀`. -/
def Zeroed (xperm : Bool × Bool) (k₀ : Kmem) (_ : ℕ) (e : Pte) (m : Mem) : Prop :=
  e = userPte e.pa xperm ∧ (k₀.freelist.Nodup → ∀ x, e.pa ≤ x → x < e.pa + PGSIZE → m x = 0)

theorem local_zeroed (xperm : Bool × Bool) (k₀ : Kmem) : Local k₀ (Zeroed xperm k₀) := by
  rintro v e m m' heq ⟨he, hz⟩
  exact ⟨he, fun hnd x hx hx' => (heq hnd x hx hx').trans (hz hnd x hx hx')⟩

theorem uvmallocLoop_outcome {xperm : Bool × Bool} {turns : ℕ} (h : Grown (Zeroed xperm k₀) n₀ pt₀ k₀ n pt k)
    (hk₀ : ∀ a ∈ k₀.freelist, L.IsPage a) (hn : n ≤ MAXVPN) :
    Outcome
      (fun r : Bool × Pagetable × Kmem =>
        (r.1 = true → n + turns ≤ MAXVPN ∧ Grown (Zeroed xperm k₀) n₀ pt₀ k₀ (n + turns) r.2.1 r.2.2) ∧
        (r.1 = false → r.2.1.leaf = pt₀.leaf ∧ Took pt₀ k₀ 0 r.2.1 r.2.2))
      (Blocked pt₀.leaf n (n + min turns k.freelist.length))
      (uvmallocLoop L xperm (n₀ * PGSIZE) turns (n * PGSIZE) pt k) := by
  induction turns generalizing n pt k with
  | zero => exact .ok ⟨fun _ => ⟨hn, h⟩, nofun⟩
  | succ turns ih =>
    unfold uvmallocLoop
    cases ha : kallocZero k with
    | none =>
      refine Outcome.bind (h.uvmdealloc hk₀ hn) ?_
      rintro ⟨sz, pt1, k1⟩ hr
      exact .ok ⟨nofun, fun _ => hr⟩
    | some x =>
      obtain ⟨mem, k1⟩ := x
      obtain ⟨hmoved, hzero⟩ := kallocZero_moved ha
      have hlen := kalloc_length hmoved
      refine Outcome.bind ((h.turn (local_zeroed xperm k₀) hk₀ (e := userPte mem xperm) hmoved ⟨rfl, fun _ => hzero⟩).mono
        (fun _ hr => hr) fun _ hx => hx.mono le_rfl (by omega)) ?_
      rintro ⟨mapped, pt', k'⟩ ⟨hlt, hlen', hok, hfail⟩
      dsimp only at hlen' hok hfail ⊢
      cases mapped with
      | false =>
        obtain ⟨hleaf, htook⟩ := hfail rfl
        rw [if_pos (by simp)]
        refine Outcome.bind (h.giveBack (local_zeroed xperm k₀) hk₀ htook hleaf) fun k2 hk2 => ?_
        refine Outcome.bind (hk2.uvmdealloc hk₀ hn) ?_
        rintro ⟨sz, pt1, k1⟩ hr
        exact .ok ⟨nofun, fun _ => hr⟩
      | true =>
        have hnext : n * PGSIZE + PGSIZE = (n + 1) * PGSIZE := (Nat.succ_mul n PGSIZE).symm
        have hturns : n + (turns + 1) = n + 1 + turns := by omega
        rw [if_neg (by simp), hnext, hturns]
        exact (ih (hok rfl) hlt).mono (fun _ hr => hr) fun _ hx => hx.mono (by omega) (by omega)

/-- **`uvmalloc`** returns the new size with the pages up to it mapped and zero, or returns `0` with no leaf changed
and nothing taken but for tables. -/
theorem uvmalloc_outcome {xperm : Bool × Bool} {oldsz newsz : ℕ} (hk : ∀ a ∈ k.freelist, L.IsPage a)
    (hle : npages oldsz ≤ MAXVPN) :
    Outcome
      (fun r : ℕ × Pagetable × Kmem => (newsz < oldsz → r = (oldsz, pt, k)) ∧ (oldsz ≤ newsz →
        r.1 = newsz ∧ npages newsz ≤ MAXVPN ∧ Grown (Zeroed xperm k) (npages oldsz) pt k (npages newsz) r.2.1 r.2.2 ∨
        r.1 = 0 ∧ r.2.1.leaf = pt.leaf ∧ Took pt k 0 r.2.1 r.2.2))
      (Blocked pt.leaf (npages oldsz) (min (npages newsz) (npages oldsz + k.freelist.length)))
      (uvmalloc L pt oldsz newsz xperm k) := by
  unfold uvmalloc
  by_cases hlt : newsz < oldsz
  · rw [if_pos hlt]
    exact .ok ⟨fun _ => rfl, fun h => absurd hlt (not_lt.mpr h)⟩
  have hcount : npages oldsz + (newsz - npages oldsz * PGSIZE + PGSIZE - 1) / PGSIZE = npages newsz := by
    simp only [npages_eq, PGSIZE]; omega
  rw [if_neg hlt]
  simp only [pgroundup_eq oldsz]
  refine Outcome.bind ((uvmallocLoop_outcome .refl hk hle).mono (fun _ hr => hr) fun _ hx => hx.mono le_rfl (by omega)) ?_
  rintro ⟨grown, pt', k'⟩ ⟨hok, hfail⟩
  rw [hcount] at hok
  refine .ok ⟨fun h => absurd h hlt, fun _ => ?_⟩
  cases grown with
  | false => exact .inr ⟨rfl, hfail rfl⟩
  | true => exact .inl ⟨rfl, hok rfl⟩

/-! ### Copying a process -/

/-- The entries and the bytes of the pages that `uvmcopy` maps, when it begins with `k₀`. -/
def Copied (old : Pagetable) (k₀ : Kmem) (v : ℕ) (e : Pte) (m : Mem) : Prop :=
  ∃ e₀, old.leaf v = some e₀ ∧ e = { e₀ with pa := e.pa } ∧
    (k₀.freelist.Nodup → e₀.pa % PGSIZE = 0 → e₀.pa ∉ k₀.freelist →
      ∀ i : ℤ, 0 ≤ i → i < PGSIZE → m (e.pa + i) = k₀.mem (e₀.pa + i))

theorem local_copied (old : Pagetable) (k₀ : Kmem) : Local k₀ (Copied old k₀) := by
  rintro v e m m' heq ⟨e0, he0, he, hbytes⟩
  refine ⟨e0, he0, he, fun hnd hal hnot i hi hi' => ?_⟩
  rw [heq hnd _ (by omega) (by omega), hbytes hnd hal hnot i hi hi']

theorem uvmcopyLoop_outcome {old : Pagetable} {turns : ℕ} (hold : ∀ v, v < n + turns → ∃ e, old.leaf v = some e)
    (h : Grown (Copied old k₀) 0 pt₀ k₀ n pt k) (hk₀ : ∀ a ∈ k₀.freelist, L.IsPage a) (hn : n + turns ≤ MAXVPN) :
    Outcome
      (fun r : Bool × Pagetable × Kmem =>
        (r.1 = true → Grown (Copied old k₀) 0 pt₀ k₀ (n + turns) r.2.1 r.2.2) ∧
        (r.1 = false → r.2.1.leaf = pt₀.leaf ∧ Took pt₀ k₀ 0 r.2.1 r.2.2))
      (Blocked pt₀.leaf n (n + turns)) (uvmcopyLoop L old turns (n * PGSIZE) pt k) := by
  induction turns generalizing n pt k with
  | zero => exact .ok ⟨fun _ => h, nofun⟩
  | succ turns ih =>
    obtain ⟨e, he⟩ := hold n (by omega)
    have hdiv : n * PGSIZE / PGSIZE = n := Nat.mul_div_cancel n (by simp)
    have hundo : ∀ {pt1 k1}, Grown (Copied old k₀) 0 pt₀ k₀ n pt1 k1 →
        Outcome (fun r : Pagetable × Kmem => r.1.leaf = pt₀.leaf ∧ Took pt₀ k₀ 0 r.1 r.2)
          (Blocked pt₀.leaf n (n + (turns + 1))) (uvmunmap L pt1 0 n true k1) := by
      intro pt1 k1 h1
      have hout := h1.undo (E := Blocked pt₀.leaf n (n + (turns + 1))) hk₀ (by omega)
      rwa [Nat.zero_mul, Nat.sub_zero] at hout
    unfold uvmcopyLoop
    rw [walk_of_leaf (by omega) he]
    refine Outcome.bind (R := fun r => r = (true, old, k)) (.ok rfl) ?_
    rintro _ rfl
    dsimp only
    rw [if_neg (by simp), (reaches_of_leaf he).2.2]
    dsimp only
    cases ha : kalloc k with
    | none =>
      dsimp only
      rw [hdiv]
      refine Outcome.bind (hundo h) ?_
      rintro ⟨pt1, k1⟩ hr
      exact .ok ⟨nofun, fun _ => hr⟩
    | some x =>
      obtain ⟨mem, k1⟩ := x
      have hm1 := kalloc_moved ha
      have hmoved := hm1.write (Mem.onlyOn_memmove (b := e.pa) (inPages_of_page (Multiset.mem_singleton_self mem)))
      -- the page of the old process is not written before it is copied
      have hcopied : Copied old k₀ n { e with pa := mem } (k1.mem.memmove mem e.pa PGSIZE) := by
        refine ⟨e, he, rfl, fun _ hal hnot i hi hi' => ?_⟩
        have htake : Took pt k {mem} pt k1 := .of_moved hm1
        have heq := (h.took.trans htake).eqOn hk₀ hal hnot
        have hin : mem ≤ mem + i ∧ mem + i < mem + (PGSIZE : ℕ) := ⟨by omega, by omega⟩
        simp only [Mem.memmove]
        rw [if_pos hin, add_sub_cancel_left]
        exact heq _ (by omega) (by omega)
      refine Outcome.bind ((h.turn (local_copied old k₀) hk₀ (e := { e with pa := mem }) hmoved hcopied).mono
        (fun _ hr => hr) fun _ hx => hx.mono le_rfl (by omega)) ?_
      rintro ⟨mapped, pt', k'⟩ ⟨-, -, hok, hfail⟩
      dsimp only at hok hfail ⊢
      cases mapped with
      | false =>
        obtain ⟨hleaf, htook⟩ := hfail rfl
        rw [if_pos (by simp), hdiv]
        refine Outcome.bind (h.giveBack (local_copied old k₀) hk₀ htook hleaf) fun k2 hk2 => ?_
        refine Outcome.bind (hundo hk2) ?_
        rintro ⟨pt1, k1⟩ hr
        exact .ok ⟨nofun, fun _ => hr⟩
      | true =>
        have hnext : n * PGSIZE + PGSIZE = (n + 1) * PGSIZE := (Nat.succ_mul n PGSIZE).symm
        have hturns : n + (turns + 1) = n + 1 + turns := by omega
        rw [hturns] at hold hn ⊢
        rw [if_neg (by simp), hnext]
        exact (ih hold (hok rfl) hn).mono (fun _ hr => hr) fun _ hx => hx.mono (by omega) le_rfl

/-- **`uvmcopy`** maps copies of all pages of the old table in the new one, or returns with no leaf changed and
nothing taken but for tables. -/
theorem uvmcopy_outcome {old : Pagetable} (hold : ∀ v, v < npages sz → ∃ e, old.leaf v = some e)
    (hk : ∀ a ∈ k.freelist, L.IsPage a) (hle : npages sz ≤ MAXVPN) :
    Outcome
      (fun r : Bool × Pagetable × Kmem =>
        (r.1 = true → Grown (Copied old k) 0 pt k (npages sz) r.2.1 r.2.2) ∧
        (r.1 = false → r.2.1.leaf = pt.leaf ∧ Took pt k 0 r.2.1 r.2.2))
      (Blocked pt.leaf 0 (npages sz)) (uvmcopy L old pt sz k) := by
  have hout : Outcome _ _ (uvmcopyLoop L old (npages sz) (0 * PGSIZE) pt k) :=
    uvmcopyLoop_outcome (by rwa [Nat.zero_add]) .refl hk (by rwa [Nat.zero_add])
  rw [Nat.zero_mul, Nat.zero_add] at hout
  rw [uvmcopy, ← npages_eq]
  exact hout

/-! ### Freeing a page table -/

/-- What a function took is what the tables and the pages besides have more. -/
theorem Took.moved {X : Multiset ℤ} (h : Took pt k X pt₁ k₁) : Moved pt.tables (pt₁.tables + X) k k₁ := by
  obtain ⟨T, hm, ht⟩ := h
  have htake := (Moved.refl (F := pt.tables)).take hm
  have hsum : T + X + pt.tables = pt.tables + T + X := by abel
  rwa [hsum, ← ht] at htake

/-- `freewalk` gives the tables back; it panics only if there is a leaf. -/
theorem freewalk_outcome (hpt : ∀ a ∈ pt.tables, L.IsPage a) :
    Outcome (Moved pt.tables 0 k) (fun e => e = .freewalkLeaf ∧ ∃ v, pt.leaf v ≠ none) (freewalk L pt k) := by
  have hgive : ∀ a k', L.IsPage a ∧ a ∈ pt.tables →
      Mem.OnlyOn (InPages fun b => b ∈ pt.tables + (k.freelist : Multiset ℤ)) k.mem k'.mem →
      Outcome (fun k'' => Mem.OnlyOn (InPages fun b => b ∈ pt.tables + (k.freelist : Multiset ℤ)) k.mem k''.mem)
        (fun _ => False) (kfree L a k') := by
    rintro a k' ⟨hpa, hmem⟩ hk'
    rw [kfree, if_neg (not_not.mpr hpa)]
    exact .ok (hk'.trans (Mem.onlyOn_memset (inPages_of_page (Multiset.mem_add.mpr (.inl hmem)))))
  have hout : Outcome _ _ (Table.drain (kfree L) Panic.freewalkLeaf 2 pt k) :=
    Table.drain_outcome hgive (Table.all_of_names fun b hb => ⟨hpt b hb, hb⟩) .rfl
  rw [freewalk]
  cases hd : Table.drain (kfree L) .freewalkLeaf 2 pt k with
  | ok k' =>
    refine .ok ⟨?_, hout.of_ok hd⟩
    have hnames := Table.drain_names (fun k : Kmem => (k.freelist : Multiset ℤ)) (fun a s s' hs => ?_) hd
    · rw [zero_add]
      exact hnames.symm
    · unfold kfree at hs
      split_ifs at hs
      cases hs
      rfl
  | error e =>
    obtain ⟨rfl, key, v, hv⟩ := (hout.of_error hd).resolve_left id
    obtain ⟨u, hu⟩ := lookup_eq_leaf pt key
    exact .error ⟨rfl, u, by rw [← hu, hv]; simp⟩

/-- `uvmfree` gives back the pages of a process and its tables; it panics only if there is a leaf
above. -/
theorem uvmfree_outcome (hpt : ∀ a ∈ pt.tables, L.IsPage a) (hle : npages sz ≤ MAXVPN)
    (hmap : ∀ x < npages sz, ∃ e, pt.leaf x = some e ∧ L.IsPage e.pa) :
    Outcome (Moved (pt.tables + pages pt.leaf 0 (npages sz)) 0 k)
      (fun e => e = .freewalkLeaf ∧ ∃ v, npages sz ≤ v ∧ pt.leaf v ≠ none) (uvmfree L pt sz k) := by
  unfold uvmfree
  by_cases hpos : 0 < sz
  · rw [if_pos hpos]
    have hmap' : ∀ x, 0 ≤ x → x < 0 + npages sz → ∃ e, pt.leaf x = some e ∧ (true = true → L.IsPage e.pa) := by
      intro x _ hx
      obtain ⟨e, he, hpa⟩ := hmap x (by omega)
      exact ⟨e, he, fun _ => hpa⟩
    have hunmap := uvmunmap_outcome (k := k)
      (E := fun e => e = .freewalkLeaf ∧ ∃ v, npages sz ≤ v ∧ pt.leaf v ≠ none) (by omega) hmap'
    rw [Nat.zero_mul] at hunmap
    refine Outcome.bind hunmap ?_
    rintro ⟨pt', k'⟩ ⟨ht, hleaf, hm, -⟩
    dsimp only at ht hleaf hm ⊢
    refine (freewalk_outcome (by rwa [ht])).mono (fun k'' hk'' => ?_) ?_
    · have hfirst := (hm rfl).frame pt.tables
      rw [zero_add, add_comm] at hfirst
      rw [ht] at hk''
      exact hfirst.trans hk''
    · rintro e ⟨rfl, v, hv⟩
      rw [hleaf, cut] at hv
      split_ifs at hv with hin
      · exact absurd rfl hv
      · exact ⟨rfl, v, by omega, hv⟩
  · have hzero : npages sz = 0 := by simp only [npages_eq, PGSIZE]; omega
    rw [if_neg hpos, hzero]
    simp only [pages, add_zero]
    refine (freewalk_outcome hpt).mono (fun _ hr => hr) ?_
    rintro e ⟨rfl, v, hv⟩
    exact ⟨rfl, v, Nat.zero_le v, hv⟩

/-! ### A process's page table -/

/-- The page number of `TRAMPOLINE`. -/
abbrev TRAMPVPN : ℕ := 2 ^ 26 - 1

/-- The page number of `TRAPFRAME`. -/
abbrev TFVPN : ℕ := 2 ^ 26 - 2

/-- What is mapped above the size of a process: its trampoline and its trapframe, and what `E`
has besides. -/
def upper (L : Layout) (tf : ℤ) (E : ℕ → Option Pte) (v : ℕ) : Option Pte :=
  if v = TRAMPVPN then some (trampolinePte L) else if v = TFVPN then some (trapframePte tf) else E v

theorem upper_tramp (tf : ℤ) (E : ℕ → Option Pte) : upper L tf E TRAMPVPN = some (trampolinePte L) :=
  if_pos rfl

theorem upper_tf (tf : ℤ) (E : ℕ → Option Pte) : upper L tf E TFVPN = some (trapframePte tf) := by
  rw [upper, if_neg (by decide), if_pos rfl]

/-- Pages `0` to `n - 1` are mapped, and from `n` on the leaves are those of `X`, which has none below. -/
structure Shape (n : ℕ) (X f : ℕ → Option Pte) : Prop where
  /-- Below the size. -/
  low : ∀ v < n, ∃ e, f v = some e
  /-- Above it. -/
  high : ∀ v, n ≤ v → f v = X v
  /-- The two are apart. -/
  apart : ∀ v < n, X v = none
  /-- The size is below `MAXVA`. -/
  le : n ≤ MAXVPN

theorem Shape.empty (X : ℕ → Option Pte) : Shape 0 X X :=
  ⟨fun v hv => absurd hv v.not_lt_zero, fun _ _ => rfl, fun v hv => absurd hv v.not_lt_zero, Nat.zero_le _⟩

/-- A process's memory ends below its trapframe. -/
theorem Shape.le_tf {tf : ℤ} {E : ℕ → Option Pte} (h : Shape n (upper L tf E) f) : n ≤ TFVPN := by
  by_contra hlt
  have := h.apart TFVPN (not_le.mp hlt)
  rw [upper_tf] at this
  cases this

theorem Shape.tramp {tf : ℤ} {E : ℕ → Option Pte} (h : Shape n (upper L tf E) f) :
    f TRAMPVPN = some (trampolinePte L) := by
  rw [h.high _ (le_trans h.le_tf (by decide)), upper_tramp]

theorem Shape.tf {tf : ℤ} {E : ℕ → Option Pte} (h : Shape n (upper L tf E) f) : f TFVPN = some (trapframePte tf) := by
  rw [h.high _ h.le_tf, upper_tf]

theorem Shape.grown {X : ℕ → Option Pte} (h : Shape n₀ X pt₀.leaf) (hg : Grown C n₀ pt₀ k₀ n pt k) (hn : n ≤ MAXVPN) :
    Shape n X pt.leaf where
  low := fun v hv => by
    by_cases hv' : v < n₀
    · rw [hg.out v (.inl hv')]
      exact h.low v hv'
    · obtain ⟨e, he, -⟩ := hg.into v (by omega) hv
      exact ⟨e, he⟩
  high := fun v hv => by
    have hle := hg.le
    rw [hg.out v (.inr hv), h.high v (by omega)]
  apart := fun v hv => by
    by_cases hv' : v < n₀
    · exact h.apart v hv'
    · rw [← h.high v (by omega), hg.fresh v (by omega) hv]
  le := hn

theorem Shape.cut {m : ℕ} {X : ℕ → Option Pte} (h : Shape n X f) (hm : m ≤ n) : Shape m X (cut f m (n - m)) where
  low := fun v hv => by
    rw [Vm.cut, if_neg (by omega)]
    exact h.low v (by omega)
  high := fun v hv => by
    rw [Vm.cut]
    split_ifs with hc
    · rw [h.apart v (by omega)]
    · exact h.high v (by omega)
  apart := fun v hv => h.apart v (by omega)
  le := le_trans hm h.le

theorem uvmunmap_one {e : Pte} (hv : v < MAXVPN) (he : pt.leaf v = some e) :
    Outcome (fun r : Pagetable × Kmem => r.1.tables = pt.tables ∧ r.1.leaf = update pt.leaf v none ∧ r.2 = k) E
      (uvmunmap L pt (v * PGSIZE) 1 false k) := by
  have hmap : ∀ x, v ≤ x → x < v + 1 → ∃ e', pt.leaf x = some e' ∧ (false = true → L.IsPage e'.pa) := by
    intro x hx hx'
    obtain rfl : x = v := by omega
    exact ⟨e, he, by simp⟩
  refine (uvmunmap_outcome hv hmap).imp fun r hr => ⟨hr.1, ?_, hr.2.2.2 rfl⟩
  rw [hr.2.1, ← cut_succ, cut_zero]

/-- `proc_freepagetable` gives back everything a process has; it panics only if there is a leaf
besides its memory, its trapframe and the trampoline. -/
theorem procFreepagetable_outcome {tf : ℤ} {E : ℕ → Option Pte} (hs : Shape (npages sz) (upper L tf E) pt.leaf)
    (hpt : ∀ a ∈ pt.tables + pages pt.leaf 0 (npages sz), L.IsPage a) :
    Outcome (Moved (pt.tables + pages pt.leaf 0 (npages sz)) 0 k) (fun e => e = .freewalkLeaf ∧ ∃ v, E v ≠ none)
      (procFreepagetable L pt sz k) := by
  have hle := hs.le_tf
  unfold procFreepagetable
  refine Outcome.bind (uvmunmap_one (v := TRAMPVPN) (by decide) hs.tramp) ?_
  rintro ⟨pt1, k1⟩ ⟨ht1, hleaf₁, rfl⟩
  dsimp only at ht1 hleaf₁ ⊢
  refine Outcome.bind (uvmunmap_one (v := TFVPN) (e := trapframePte tf) (by decide) ?_) ?_
  · rw [hleaf₁, update_of_ne (by decide), hs.tf]
  rintro ⟨pt2, k2⟩ ⟨ht2, hleaf₂, rfl⟩
  dsimp only at ht2 hleaf₂ ⊢
  rw [hleaf₁] at hleaf₂
  have hlow : ∀ x < npages sz, pt2.leaf x = pt.leaf x := by
    intro x hx
    simp only [TFVPN, TRAMPVPN] at hle hleaf₂
    rw [hleaf₂, update_of_ne (by omega), update_of_ne (by omega)]
  have hsame : pt2.tables + pages pt2.leaf 0 (npages sz) = pt.tables + pages pt.leaf 0 (npages sz) := by
    rw [ht2, ht1, pages_congr fun x _ hx => hlow x (by omega)]
  rw [← hsame] at hpt ⊢
  refine (uvmfree_outcome (fun a ha => hpt a (Multiset.mem_add.mpr (.inl ha))) hs.le fun x hx => ?_).mono
    (fun _ hr => hr) ?_
  · obtain ⟨e, he⟩ := hs.low x hx
    rw [← hlow x hx] at he
    exact ⟨e, he, hpt _ (Multiset.mem_add.mpr (.inr (mem_pages.mpr ⟨x, Nat.zero_le x, by omega, e, he, rfl⟩)))⟩
  · rintro e ⟨rfl, v, hv, hne⟩
    refine ⟨rfl, v, fun hE => hne ?_⟩
    rw [hleaf₂]
    by_cases h1 : v = TFVPN
    · rw [h1, update_self]
    rw [update_of_ne h1]
    by_cases h2 : v = TRAMPVPN
    · rw [h2, update_self]
    rw [update_of_ne h2, hs.high v hv, upper, if_neg h2, if_neg h1, hE]

theorem uvmfree_empty (hpt : ∀ a ∈ pt.tables, L.IsPage a) (hleaf : pt.leaf = fun _ => none) :
    Outcome (Moved pt.tables 0 k) E (uvmfree L pt 0 k) := by
  have hout : Outcome _ _ (uvmfree L pt 0 k) := uvmfree_outcome hpt (by decide) fun x hx => absurd hx (by decide +revert)
  rw [show npages 0 = 0 by decide, pages, add_zero] at hout
  refine hout.mono (fun _ hr => hr) ?_
  rintro e ⟨-, v, -, hv⟩
  rw [hleaf] at hv
  exact absurd rfl hv

/-- **`proc_pagetable`** maps the trampoline and the trapframe, or gives everything back. -/
theorem procPagetable_outcome {tf : ℤ} (hk : ∀ a ∈ k.freelist, L.IsPage a) :
    Outcome
      (fun r : Option Pagetable × Kmem => (r.1 = none → Moved 0 0 k r.2) ∧
        ∀ pt, r.1 = some pt → Moved 0 pt.tables k r.2 ∧ pt.leaf = upper L tf fun _ => none)
      E (procPagetable L tf k) := by
  unfold procPagetable uvmcreate
  cases ha : kallocZero k with
  | none => exact .ok ⟨fun _ => .refl, nofun⟩
  | some x =>
    obtain ⟨pa, k1⟩ := x
    have hempty := leaf_empty pa
    have htables : Pagetable.tables (Table.empty pa 2) = {pa} := Table.names_empty pa 2
    have hm : Moved 0 (Pagetable.tables (Table.empty pa 2)) k k1 := by
      rw [htables]
      exact (kallocZero_moved ha).1
    dsimp only [Option.map_some]
    refine Outcome.bind (mappages_unmapped (v := TRAMPVPN) (by decide) (by rw [hempty])) ?_
    rintro ⟨mapped, pt1, k2⟩ ⟨htook₁, hfail₁, hok1⟩
    dsimp only at htook₁ hfail₁ hok1 ⊢
    rw [hempty] at hfail₁ hok1
    have hm1 : Moved 0 pt1.tables k k2 := by
      have := hm.trans htook₁.moved
      rwa [add_zero] at this
    cases mapped with
    | false =>
      rw [if_pos (by simp)]
      exact Outcome.bind (uvmfree_empty (hm1.all (by simp) hk).1 (hfail₁ rfl)) fun k3 hk3 => .ok ⟨fun _ => hm1.trans hk3, nofun⟩
    | true =>
      have hleaf₁ := hok1 rfl
      rw [if_neg (by simp)]
      refine Outcome.bind (mappages_unmapped (v := TFVPN) (by decide)
        (by rw [hleaf₁, update_of_ne (by decide)])) ?_
      rintro ⟨mapped, pt2, k3⟩ ⟨htook₂, hfail₂, hok2⟩
      dsimp only at htook₂ hfail₂ hok2 ⊢
      rw [hleaf₁] at hfail₂ hok2
      have hm2 : Moved 0 pt2.tables k k3 := by
        have := hm1.trans htook₂.moved
        rwa [add_zero] at this
      cases mapped with
      | false =>
        have hleaf₂ := hfail₂ rfl
        rw [if_pos (by simp)]
        refine Outcome.bind (uvmunmap_one (v := TRAMPVPN) (by decide) (by rw [hleaf₂, update_self])) ?_
        rintro ⟨pt3, k4⟩ ⟨ht3, hleaf₃, rfl⟩
        dsimp only at ht3 hleaf₃ ⊢
        rw [hleaf₂, update_idem] at hleaf₃
        refine Outcome.bind (uvmfree_empty (by rw [ht3]; exact (hm2.all (by simp) hk).1) ?_) fun k5 hk5 => .ok ⟨fun _ => ?_, nofun⟩
        · rw [hleaf₃]
          exact update_eq_self ..
        · rw [ht3] at hk5
          exact hm2.trans hk5
      | true =>
        rw [if_neg (by simp)]
        refine .ok ⟨nofun, ?_⟩
        rintro _ ⟨⟩
        refine ⟨hm2, funext fun v => ?_⟩
        rw [hok2 rfl, upper]
        by_cases hv : v = TFVPN
        · rw [hv, update_self, if_neg (by decide), if_pos rfl]
        · rw [update_of_ne hv, if_neg hv]
          by_cases hv' : v = TRAMPVPN
          · rw [hv', update_self, if_pos rfl]
          · rw [update_of_ne hv', if_neg hv']

/-- `uvmclear` of a page that is mapped takes only the user's access to it. -/
theorem uvmclear_outcome {e : Pte} (hv : v < MAXVPN) (he : pt.leaf v = some e) :
    Outcome (fun pt' => pt'.tables = pt.tables ∧ pt'.leaf = update pt.leaf v (some { e with u := false })) E
      (uvmclear pt (v * PGSIZE) k) := by
  obtain ⟨hlt, hr, hpte⟩ := reaches_of_leaf he
  unfold uvmclear
  rw [walk_of_leaf hv he]
  refine Outcome.bind (R := fun r => r = (true, pt, k)) (.ok rfl) ?_
  rintro _ rfl
  dsimp only
  rw [if_neg (by simp), hpte]
  exact .ok ⟨tables_setPte _ _, leaf_setPte hlt hr⟩

/-! ### Looking up -/

theorem walkaddr_some {va : ℕ} {pa : ℤ} (h : walkaddr pt va = some pa) :
    ∃ e, pt.leaf (va / PGSIZE) = some e ∧ e.u = true ∧ e.pa = pa := by
  unfold walkaddr at h
  split_ifs at h with hva
  rw [pte_eq_leaf (not_le.mp hva)] at h
  split at h
  · rename_i e he
    split_ifs at h with hu
    cases h
    exact ⟨e, he, hu, rfl⟩
  · cases h

end

end Xv6Shmem.Vm
