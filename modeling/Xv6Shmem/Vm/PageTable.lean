import Xv6Shmem.Theory.RadixTree
import Xv6Shmem.Vm.Kalloc

/-!
# Page tables

The functions of `kernel/vm.c` on user page tables, with `proc_pagetable` and
`proc_freepagetable` of `kernel/proc.c`.

## The model

A page table is a tree of three levels of tables with 512 entries each; every table has
the page it is kept in. The trees are kept apart from the byte memory: an entry is not
read from the bytes of its table's page, and a store to those bytes is not a write to
the table. An entry above level `0` is a table or not valid; an entry at level `0` is a
leaf or not valid. A leaf has one of the flags `PTE_R`, `PTE_W` and `PTE_X`, which is
part of its type, so the panic "uvmunmap: not a leaf" cannot happen.

`walk` returns a pointer to an entry in the source. Here it says whether there is one,
and with `alloc` returns the tree with the tables it made, also when it ran out of pages
half way. Addresses and sizes are natural numbers; the loops, which go from page to page
up to a bound, are recursions on the number of turns.
-/

namespace Xv6Shmem.Vm

open Kernel Radix

/-! ### Addresses -/

/-- `MAXVA`: one beyond the highest virtual address. -/
abbrev MAXVA : ℕ := 2 ^ 38

/-- `TRAMPOLINE`. -/
abbrev TRAMPOLINE : ℕ := MAXVA - PGSIZE

/-- `TRAPFRAME`. -/
abbrev TRAPFRAME : ℕ := TRAMPOLINE - PGSIZE

/-- `PGROUNDUP`. -/
def pgroundup (a : ℕ) : ℕ := (a + PGSIZE - 1) / PGSIZE * PGSIZE

/-- `PGROUNDDOWN`. -/
def pgrounddown (a : ℕ) : ℕ := a / PGSIZE * PGSIZE

/-- `PX(level, va)`: the index of a virtual address at a level. -/
def px (va level : ℕ) : Fin 512 := Fin.ofNat 512 (va / 2 ^ (12 + 9 * level))

/-! ### Entries and tables -/

/-- A valid leaf entry. -/
structure Pte where
  /-- `PTE2PA`: the page it maps to. -/
  pa : ℤ
  /-- `PTE_R`. -/
  r : Bool
  /-- `PTE_W`. -/
  w : Bool
  /-- `PTE_X`. -/
  x : Bool
  /-- `PTE_U`. -/
  u : Bool
  /-- It is a leaf, not a pointer to a table. -/
  leaf : (r || w || x) = true
  deriving DecidableEq

/-- A page table. -/
abbrev Pagetable := Table 512 Pte ℤ 2

/-- The leaf entry of a virtual address, if it is valid. -/
def Pagetable.pte (pt : Pagetable) (va : ℕ) : Option Pte := Table.lookup (px va) 2 pt

/-- Write the leaf entry of a virtual address. -/
def Pagetable.setPte (pt : Pagetable) (va : ℕ) (e : Option Pte) : Pagetable := Table.set (px va) e 2 pt

/-- `walk(pagetable, va, alloc)`: whether there is an entry for the address, and the tables. -/
def walk (pt : Pagetable) (va : ℕ) (alloc : Bool) (k : Kmem) : Except Panic (Bool × Pagetable × Kmem) :=
  if MAXVA ≤ va then .error .walk
  else if alloc then .ok (Table.grow kallocZero (px va) 2 pt k)
  else .ok (Table.reaches (px va) 2 pt, pt, k)

/-- `walkaddr`: the page a user address is mapped to. -/
def walkaddr (pt : Pagetable) (va : ℕ) : Option ℤ :=
  if MAXVA ≤ va then none
  else
    match pt.pte va with
    | some e => if e.u then some e.pa else none
    | none => none

/-! ### Mapping and unmapping -/

/-- The loop of `mappages`, with the turns that follow the first. -/
def mappagesLoop : ℕ → ℕ → Pte → Pagetable → Kmem → Except Panic (Bool × Pagetable × Kmem)
  | n, a, e, pt, k => do
    let (found, pt, k) ← walk pt a true k
    if !found then .ok (false, pt, k)
    else if (pt.pte a).isSome then .error .mappagesRemap
    else
      let pt := pt.setPte a (some e)
      match n with
      | 0 => .ok (true, pt, k)
      | n + 1 => mappagesLoop n (a + PGSIZE) { e with pa := e.pa + PGSIZE } pt k

/-- `mappages(pagetable, va, size, pa, perm)`, where the entry has the address and the
permissions; whether it did not run out of pages. -/
def mappages (pt : Pagetable) (va size : ℕ) (e : Pte) (k : Kmem) :
    Except Panic (Bool × Pagetable × Kmem) :=
  if size = 0 then .error .mappagesSize
  else
    let a := pgrounddown va
    let last := pgrounddown (va + size - 1)
    mappagesLoop ((last - a) / PGSIZE) a e pt k

/-- `if(do_free) kfree(pa)`. -/
def kfreeIf (L : Layout) (doFree : Bool) (pa : ℤ) (k : Kmem) : Except Panic Kmem :=
  if doFree then kfree L pa k else .ok k

/-- The loop of `uvmunmap`. -/
def uvmunmapLoop (L : Layout) (doFree : Bool) : ℕ → ℕ → Pagetable → Kmem → Except Panic (Pagetable × Kmem)
  | 0, _, pt, k => .ok (pt, k)
  | n + 1, a, pt, k => do
    let (found, pt, k) ← walk pt a false k
    if !found then .error .uvmunmapWalk
    else
      match pt.pte a with
      | none => .error .uvmunmapNotMapped
      | some e =>
        let k ← kfreeIf L doFree e.pa k
        uvmunmapLoop L doFree n (a + PGSIZE) (pt.setPte a none) k

/-- `uvmunmap(pagetable, va, npages, do_free)`. -/
def uvmunmap (L : Layout) (pt : Pagetable) (va npages : ℕ) (doFree : Bool) (k : Kmem) :
    Except Panic (Pagetable × Kmem) :=
  if va % PGSIZE ≠ 0 then .error .uvmunmapNotAligned
  else uvmunmapLoop L doFree npages va pt k

/-- `uvmcreate`: an empty page table. -/
def uvmcreate (k : Kmem) : Option (Pagetable × Kmem) :=
  (kallocZero k).map fun r => (Table.empty r.1 2, r.2)

/-- `freewalk`. -/
def freewalk (L : Layout) (pt : Pagetable) (k : Kmem) : Except Panic Kmem :=
  Table.drain (kfree L) .freewalkLeaf 2 pt k

/-- `uvmfree`. -/
def uvmfree (L : Layout) (pt : Pagetable) (sz : ℕ) (k : Kmem) : Except Panic Kmem :=
  if 0 < sz then do
    let (pt, k) ← uvmunmap L pt 0 (pgroundup sz / PGSIZE) true k
    freewalk L pt k
  else freewalk L pt k

/-! ### Growing and shrinking -/

/-- `uvmdealloc`, returning the new size. -/
def uvmdealloc (L : Layout) (pt : Pagetable) (oldsz newsz : ℕ) (k : Kmem) :
    Except Panic (ℕ × Pagetable × Kmem) :=
  if oldsz ≤ newsz then .ok (oldsz, pt, k)
  else if pgroundup newsz < pgroundup oldsz then do
    let npages := (pgroundup oldsz - pgroundup newsz) / PGSIZE
    let (pt, k) ← uvmunmap L pt (pgroundup newsz) npages true k
    .ok (newsz, pt, k)
  else .ok (newsz, pt, k)

/-- An entry with `PTE_R|PTE_U|xperm`, where `xperm` is `PTE_W` and `PTE_X`. -/
def userPte (pa : ℤ) (xperm : Bool × Bool) : Pte := ⟨pa, true, xperm.1, xperm.2, true, rfl⟩

/-- The loop of `uvmalloc`; `oldsz` is rounded up. -/
def uvmallocLoop (L : Layout) (xperm : Bool × Bool) (oldsz : ℕ) :
    ℕ → ℕ → Pagetable → Kmem → Except Panic (Bool × Pagetable × Kmem)
  | 0, _, pt, k => .ok (true, pt, k)
  | n + 1, a, pt, k =>
    match kallocZero k with
    | none => do
      let (_, pt, k) ← uvmdealloc L pt a oldsz k
      .ok (false, pt, k)
    | some (mem, k) => do
      let (mapped, pt, k) ← mappages pt a PGSIZE (userPte mem xperm) k
      if !mapped then
        let k ← kfree L mem k
        let (_, pt, k) ← uvmdealloc L pt a oldsz k
        .ok (false, pt, k)
      else uvmallocLoop L xperm oldsz n (a + PGSIZE) pt k

/-- `uvmalloc`, returning the new size or `0`. -/
def uvmalloc (L : Layout) (pt : Pagetable) (oldsz newsz : ℕ) (xperm : Bool × Bool) (k : Kmem) :
    Except Panic (ℕ × Pagetable × Kmem) :=
  if newsz < oldsz then .ok (oldsz, pt, k)
  else do
    let oldsz := pgroundup oldsz
    let (grown, pt, k) ← uvmallocLoop L xperm oldsz ((newsz - oldsz + PGSIZE - 1) / PGSIZE) oldsz pt k
    .ok (if grown then newsz else 0, pt, k)

/-- The loop of `uvmcopy`; whether it did not run out of pages. -/
def uvmcopyLoop (L : Layout) (old : Pagetable) : ℕ → ℕ → Pagetable → Kmem → Except Panic (Bool × Pagetable × Kmem)
  | 0, _, new, k => .ok (true, new, k)
  | n + 1, i, new, k => do
    let (found, _, _) ← walk old i false k
    if !found then .error .uvmcopyPte
    else
      match old.pte i with
      | none => .error .uvmcopyPage
      | some e =>
        match kalloc k with
        | none => do
          let (new, k) ← uvmunmap L new 0 (i / PGSIZE) true k
          .ok (false, new, k)
        | some (mem, k) => do
          let k := { k with mem := k.mem.memmove mem e.pa PGSIZE }
          let (mapped, new, k) ← mappages new i PGSIZE { e with pa := mem } k
          if !mapped then
            let k ← kfree L mem k
            let (new, k) ← uvmunmap L new 0 (i / PGSIZE) true k
            .ok (false, new, k)
          else uvmcopyLoop L old n (i + PGSIZE) new k

/-- `uvmcopy`. -/
def uvmcopy (L : Layout) (old new : Pagetable) (sz : ℕ) (k : Kmem) : Except Panic (Bool × Pagetable × Kmem) :=
  uvmcopyLoop L old ((sz + PGSIZE - 1) / PGSIZE) 0 new k

/-- `uvmclear`: take the user's access from a page. -/
def uvmclear (pt : Pagetable) (va : ℕ) (k : Kmem) : Except Panic Pagetable := do
  let (found, pt, _) ← walk pt va false k
  if !found then .error .uvmclear
  else .ok (pt.setPte va ((pt.pte va).map fun e => { e with u := false }))

/-! ### Copying to the user -/

/-- The loop of `copyout`. Each turn copies at least one byte, so as many turns as there are bytes
are enough. -/
def copyoutLoop (pt : Pagetable) : ℕ → ℕ → List UInt8 → Mem → Bool × Mem
  | 0, _, _, m => (true, m)
  | fuel + 1, dstva, src, m =>
    if src = [] then (true, m)
    else
      let va0 := pgrounddown dstva
      match walkaddr pt va0 with
      | none => (false, m)
      | some pa0 =>
        let n := min (PGSIZE - (dstva - va0)) src.length
        copyoutLoop pt fuel (va0 + PGSIZE) (src.drop n) (m.write (pa0 + (dstva - va0 : ℕ)) (src.take n))

/-- `copyout`: whether all of it was copied, and the memory. -/
def copyout (pt : Pagetable) (dstva : ℕ) (src : List UInt8) (m : Mem) : Bool × Mem :=
  copyoutLoop pt src.length dstva src m

/-! ### A process's page table -/

/-- The entry of the trampoline page. -/
def trampolinePte (L : Layout) : Pte := ⟨L.trampoline, true, false, true, false, rfl⟩

/-- The entry of a trapframe page. -/
def trapframePte (tf : ℤ) : Pte := ⟨tf, true, true, false, false, rfl⟩

/-- `proc_pagetable`, for a process whose trapframe is at `tf`; `none` if there was no memory. -/
def procPagetable (L : Layout) (tf : ℤ) (k : Kmem) : Except Panic (Option Pagetable × Kmem) :=
  match uvmcreate k with
  | none => .ok (none, k)
  | some (pt, k) => do
    let (mapped, pt, k) ← mappages pt TRAMPOLINE PGSIZE (trampolinePte L) k
    if !mapped then
      let k ← uvmfree L pt 0 k
      .ok (none, k)
    else
      let (mapped, pt, k) ← mappages pt TRAPFRAME PGSIZE (trapframePte tf) k
      if !mapped then
        let (pt, k) ← uvmunmap L pt TRAMPOLINE 1 false k
        let k ← uvmfree L pt 0 k
        .ok (none, k)
      else .ok (some pt, k)

/-- `proc_freepagetable`. -/
def procFreepagetable (L : Layout) (pt : Pagetable) (sz : ℕ) (k : Kmem) : Except Panic Kmem := do
  let (pt, k) ← uvmunmap L pt TRAMPOLINE 1 false k
  let (pt, k) ← uvmunmap L pt TRAPFRAME 1 false k
  uvmfree L pt sz k

end Xv6Shmem.Vm
