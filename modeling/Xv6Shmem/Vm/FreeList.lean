import Mathlib.Data.List.Perm.Basic
import Xv6Shmem.Kernel.Table
import Xv6Shmem.Theory.Runs

/-!
# The list in the free pages

`kernel/kalloc.c` with the list where it is: the first word of a free page points to the next, and `kmem.freelist` to the
first. `kfree` and `kalloc` fill the whole page with junk, and whoever has a page may write what it likes in it.

Memory is given by its words, and a pointer is a number. Between the calls, all memory may change but the pages of the
pool that are free. Locks are left out, each call being one step.

## What is proved

* `kalloc_threaded`, `kfree_threaded` — each call takes a page off the list or puts one on it, for any list.
* `pages_once` — from `kinit` on, the list is one of different pages, and it and the pages handed out are all that there are.
-/

namespace Xv6Shmem.FreeList

open Function Kernel

/-- The memory that `kinit` gets: from `end`, which is not the null pointer, to `PHYSTOP`, with no addresses near `2 ^ 64`,
where they would wrap around. -/
structure Range where
  kend : ℕ
  phystop : ℕ
  kend_pos : 0 < kend
  kend_fits : kend + PGSIZE ≤ 2 ^ 64
  phystop_fits : phystop + PGSIZE ≤ 2 ^ 64

/-- A whole page in the range. -/
def Range.Whole (R : Range) (pa : ℕ) : Prop := pa % PGSIZE = 0 ∧ R.kend ≤ pa ∧ pa + PGSIZE ≤ R.phystop

/-- Memory, and `kmem.freelist`. -/
structure Heap where
  mem : ℕ → ℕ
  freelist : ℕ

/-- `memset(pa, c, PGSIZE)`, where `v` is the word all of whose bytes are `c`. -/
def Heap.fill (k : Heap) (pa v : ℕ) : Heap := { k with mem := fun a => if pa ≤ a ∧ a < pa + PGSIZE then v else k.mem a }

/-- `kfree`; `none` if it panics. -/
def kfree (R : Range) (pa : ℕ) (k : Heap) : Option Heap :=
  if pa % PGSIZE ≠ 0 ∨ pa < R.kend ∨ R.phystop ≤ pa then none
  else
    let k := k.fill pa 0x0101010101010101
    some { mem := update k.mem pa k.freelist, freelist := pa }

/-- `kalloc`. -/
def kalloc (k : Heap) : ℕ × Heap :=
  if k.freelist ≠ 0 then (k.freelist, { k with freelist := k.mem k.freelist }.fill k.freelist 0x0505050505050505)
  else (0, k)

/-- `PGROUNDUP`. -/
def pgroundup (a : ℕ) : ℕ := (a + PGSIZE - 1) / PGSIZE * PGSIZE

/-- The loop of `freerange`. -/
def freerange (R : Range) (p : ℕ) (k : Heap) : Option Heap :=
  if p + PGSIZE ≤ R.phystop then (kfree R p k).bind (freerange R (p + PGSIZE)) else some k
termination_by R.phystop - p
decreasing_by
  unfold PGSIZE at *
  omega

/-- `kinit`. -/
def kinit (R : Range) (k : Heap) : Option Heap := freerange R (pgroundup R.kend) k

/-! ### The list -/

/-- The pages on the list from `r`, which ends with a null pointer. -/
def Threaded (mem : ℕ → ℕ) : ℕ → List ℕ → Prop
  | r, [] => r = 0
  | r, a :: l => r = a ∧ a ≠ 0 ∧ Threaded mem (mem a) l

section Threaded

variable {R : Range} {mem mem' : ℕ → ℕ} {r pa : ℕ} {l : List ℕ} {k : Heap}

theorem Threaded.congr (h : Threaded mem r l) (hm : ∀ a ∈ l, mem' a = mem a) : Threaded mem' r l := by
  induction l generalizing r with
  | nil => exact h
  | cons a l ih =>
    obtain ⟨rfl, h0, ht⟩ := h
    refine ⟨rfl, h0, ?_⟩
    rw [hm r List.mem_cons_self]
    exact ih ht fun b hb => hm b (List.mem_cons_of_mem _ hb)

theorem fill_of_ne {a v : ℕ} (ha : a % PGSIZE = 0) (hpa : pa % PGSIZE = 0) (hne : a ≠ pa) : (k.fill pa v).mem a = k.mem a := by
  apply if_neg
  unfold PGSIZE at *
  omega

/-- **`kfree`** puts a page on the list. -/
theorem kfree_threaded (h : Threaded k.mem k.freelist l) (hl : ∀ a ∈ l, a % PGSIZE = 0) (hpa : R.Whole pa) (hnot : pa ∉ l) :
    ∃ k', kfree R pa k = some k' ∧ Threaded k'.mem k'.freelist (pa :: l) := by
  obtain ⟨hal, hlo, hhi⟩ := hpa
  have hpos := R.kend_pos
  have hok : ¬(pa % PGSIZE ≠ 0 ∨ pa < R.kend ∨ R.phystop ≤ pa) := by
    unfold PGSIZE at *
    omega
  refine ⟨_, if_neg hok, rfl, by omega, ?_⟩
  simp only [update_self]
  refine h.congr fun a ha => ?_
  have hne : a ≠ pa := fun he => hnot (he ▸ ha)
  rw [update_of_ne hne]
  exact fill_of_ne (hl a ha) hal hne

/-- **`kalloc`** takes the first page off the list, if there is one. -/
theorem kalloc_threaded (h : Threaded k.mem k.freelist l) (hl : ∀ a ∈ l, a % PGSIZE = 0) (hnd : l.Nodup) :
    l = [] ∧ kalloc k = (0, k) ∨
      ∃ pa l' k', l = pa :: l' ∧ pa ≠ 0 ∧ kalloc k = (pa, k') ∧ Threaded k'.mem k'.freelist l' := by
  cases l with
  | nil => exact .inl ⟨rfl, if_neg (not_not_intro h)⟩
  | cons pa l =>
    obtain ⟨rfl, h0, ht⟩ := h
    refine .inr ⟨k.freelist, l, _, rfl, h0, if_pos h0, ht.congr fun a ha => ?_⟩
    refine fill_of_ne (hl a (List.mem_cons_of_mem _ ha)) (hl _ List.mem_cons_self) ?_
    rintro rfl
    exact (List.nodup_cons.mp hnd).1 ha

/-- **The loop** puts the rest of the pages on the list. -/
theorem freerange_threaded {p : ℕ} (h : Threaded k.mem k.freelist l) (hnd : l.Nodup) (hp : p % PGSIZE = 0) (hlo : R.kend ≤ p)
    (hl : ∀ a, a ∈ l ↔ R.Whole a ∧ a < p) :
    ∃ k' l', freerange R p k = some k' ∧ Threaded k'.mem k'.freelist l' ∧ l'.Nodup ∧ ∀ a, a ∈ l' ↔ R.Whole a := by
  induction p, k using freerange.induct R generalizing l with
  | case1 p k hle ih =>
    have hnot : p ∉ l := fun hmem => by
      have := ((hl p).mp hmem).2
      omega
    obtain ⟨k', hk, ht⟩ := kfree_threaded h (fun a ha => ((hl a).mp ha).1.1) ⟨hp, hlo, hle⟩ hnot
    rw [freerange, if_pos hle, hk, Option.bind_some]
    refine ih k' ht (List.nodup_cons.mpr ⟨hnot, hnd⟩) ?_ ?_ fun a => ?_
    · simpa using hp
    · omega
    · rw [List.mem_cons, hl a]
      unfold Range.Whole PGSIZE at *
      omega
  | case2 p k hgt =>
    refine ⟨k, l, by rw [freerange, if_neg hgt], h, hnd, fun a => ?_⟩
    rw [hl a]
    unfold Range.Whole PGSIZE at *
    omega

/-- **`kinit`** makes a list of all pages. -/
theorem kinit_threaded (R : Range) (mem : ℕ → ℕ) :
    ∃ k l, kinit R ⟨mem, 0⟩ = some k ∧ Threaded k.mem k.freelist l ∧ l.Nodup ∧ ∀ a, a ∈ l ↔ R.Whole a := by
  apply freerange_threaded (l := []) (show Threaded mem 0 [] from rfl) List.nodup_nil
  · exact Nat.mul_mod_left ..
  · unfold pgroundup PGSIZE
    omega
  · intro a
    unfold Range.Whole pgroundup PGSIZE
    simp only [List.not_mem_nil, false_iff]
    omega

end Threaded

/-! ### Whole runs -/

/-- The allocator, and the pages that are handed out. -/
structure Pool where
  heap : Heap
  held : List ℕ

/-- What happens: a call, or writes by others. -/
inductive Label where
  | kalloc
  | kfree (pa : ℕ)
  | write

/-- **The machine**: after `kinit`, with any memory, come calls of `kalloc`, calls of `kfree` with pages that are handed out,
and writes anywhere but in the free pages. -/
def machine (R : Range) : LTS Pool Label where
  init := fun s => s.held = [] ∧ ∃ mem, kinit R ⟨mem, 0⟩ = some s.heap
  step := fun s a t =>
    match a with
    | .kalloc => t = ⟨(kalloc s.heap).2, if (kalloc s.heap).1 = 0 then s.held else (kalloc s.heap).1 :: s.held⟩
    | .kfree pa => pa ∈ s.held ∧ kfree R pa s.heap = some t.heap ∧ t.held = s.held.erase pa
    | .write => t.held = s.held ∧ t.heap.freelist = s.heap.freelist ∧
        ∀ pa a, R.Whole pa → pa ∉ s.held → pa ≤ a → a < pa + PGSIZE → t.heap.mem a = s.heap.mem a

/-- The list has the pages `l`, and they and those handed out are all pages, each once. -/
structure Sound (R : Range) (s : Pool) (l : List ℕ) : Prop where
  list : Threaded s.heap.mem s.heap.freelist l
  once : (l ++ s.held).Nodup
  all : ∀ a, a ∈ l ++ s.held ↔ R.Whole a

section Sound

variable {R : Range} {s t : Pool} {l l' : List ℕ} {pa : ℕ}

variable (h : Sound R s l)

include h

theorem Sound.whole {a : ℕ} (ha : a ∈ l) : R.Whole a := (h.all a).mp (List.mem_append_left _ ha)

theorem Sound.aligned : ∀ a ∈ l, a % PGSIZE = 0 := fun _ ha => (h.whole ha).1

theorem Sound.nodup : l.Nodup := h.once.of_append_left

theorem Sound.notHeld : ∀ a ∈ l, a ∉ s.held := fun _ ha ha' => (List.nodup_append.mp h.once).2.2 _ ha _ ha' rfl

theorem Sound.move (hlist : Threaded t.heap.mem t.heap.freelist l')
    (hp : List.Perm (l ++ s.held) (l' ++ t.held)) : Sound R t l' :=
  ⟨hlist, hp.nodup_iff.mp h.once, fun a => by rw [← hp.mem_iff, h.all]⟩

theorem Sound.kfree (hpa : pa ∈ s.held) :
    ∃ k, kfree R pa s.heap = some k ∧ Threaded k.mem k.freelist (pa :: l) :=
  kfree_threaded h.list h.aligned ((h.all pa).mp (List.mem_append_right _ hpa)) fun ha => h.notHeld pa ha hpa

/-- **Every step** keeps the list. -/
theorem Sound.step {a : Label} (hs : (machine R).step s a t) : ∃ l', Sound R t l' := by
  cases a with
  | kalloc =>
    obtain rfl := hs
    rcases kalloc_threaded h.list h.aligned h.nodup with ⟨-, hk⟩ | ⟨pa, l', k, rfl, h0, hk, ht⟩
    · rw [hk]
      exact ⟨l, h⟩
    · rw [hk, if_neg h0]
      exact ⟨l', h.move ht List.perm_middle.symm⟩
  | kfree pa =>
    obtain ⟨hpa, hk, hheld⟩ := hs
    obtain ⟨k, hk', ht⟩ := h.kfree hpa
    obtain rfl : t.heap = k := Option.some.inj (hk.symm.trans hk')
    refine ⟨pa :: l, h.move ht ?_⟩
    rw [hheld]
    exact ((List.perm_cons_erase hpa).append_left l).trans List.perm_middle
  | write =>
    obtain ⟨hheld, hfree, hmem⟩ := hs
    refine ⟨l, h.move ?_ (by rw [hheld])⟩
    rw [hfree]
    refine h.list.congr fun a ha => hmem a a (h.whole ha) (h.notHeld a ha) le_rfl ?_
    exact Nat.lt_add_of_pos_right (by decide)

end Sound

/-- **Every page is handed out at most once**. From `kinit` on, for every sequence of calls of `kalloc` and of `kfree` with
pages that are handed out, the list in the free pages ends, and its pages are different; the pages on it and those handed
out are all whole pages of the range, and no page is both; what `kalloc` returns is a page of the list, and it is null
exactly if the list is empty; and a page that is handed out can be given back. `kinit` itself returns. -/
theorem pages_once (R : Range) {s : Pool} (h : (machine R).Reachable s) :
    (∀ mem, (kinit R ⟨mem, 0⟩).isSome) ∧
    (∃ l, Threaded s.heap.mem s.heap.freelist l ∧ l.Nodup ∧ s.held.Nodup ∧ (∀ a ∈ l, a ∉ s.held) ∧
      (∀ a, a ∈ l ∨ a ∈ s.held ↔ R.Whole a) ∧ ((kalloc s.heap).1 = 0 ↔ l = []) ∧
      ((kalloc s.heap).1 ≠ 0 → (kalloc s.heap).1 ∈ l ∧ (kalloc s.heap).1 % PGSIZE = 0)) ∧
    ∀ pa ∈ s.held, (kfree R pa s.heap).isSome := by
  have hsound : ∃ l, Sound R s l := by
    refine h.invariant (I := fun s => ∃ l, Sound R s l) ?_ fun _ _ _ _ ⟨_, hl⟩ hs => hl.step hs
    rintro s ⟨hheld, mem, hk⟩
    obtain ⟨k, l, hk', ht, hnd, hl⟩ := kinit_threaded R mem
    obtain rfl : s.heap = k := Option.some.inj (hk.symm.trans hk')
    exact ⟨l, ht, by rwa [hheld, List.append_nil], fun a => by rw [hheld, List.append_nil, hl]⟩
  obtain ⟨l, hl⟩ := hsound
  refine ⟨fun mem => ?_, ⟨l, hl.list, hl.nodup, hl.once.of_append_right, hl.notHeld, fun a => ?_, ?_⟩, fun pa hpa => ?_⟩
  · obtain ⟨k, -, hk, -⟩ := kinit_threaded R mem
    rw [hk]
    rfl
  · rw [← List.mem_append, hl.all]
  · rcases kalloc_threaded hl.list hl.aligned hl.nodup with ⟨rfl, hk⟩ | ⟨pa, l', k, rfl, h0, hk, -⟩
    · simp [hk]
    · simp [hk, h0, hl.aligned pa List.mem_cons_self]
  · obtain ⟨k, hk, -⟩ := hl.kfree hpa
    rw [hk]
    rfl

/-- A page is handed out of a range of two, where the kernel ends in the middle of a page. -/
theorem pages_once_of_two : ∃ s : Pool, ∃ R : Range, (machine R).Reachable s ∧
    ∃ l, Threaded s.heap.mem s.heap.freelist l ∧ l.Nodup ∧ ∀ a, a ∈ l ∨ a ∈ s.held ↔ R.Whole a := by
  obtain ⟨k, -, hk, -⟩ := kinit_threaded ⟨0x80000001, 0x80003000, by decide, by decide, by decide⟩ fun _ => 0
  have hr := LTS.Reachable.snoc (.start (M := machine _) (s := ⟨k, []⟩) ⟨rfl, _, hk⟩) (a := Label.kalloc) rfl
  obtain ⟨-, ⟨l, h1, h2, -, -, h5, -⟩, -⟩ := pages_once _ hr
  exact ⟨_, _, hr, l, h1, h2, h5⟩

end Xv6Shmem.FreeList
