import Mathlib.Data.Nat.Bitwise
import Mathlib.Logic.Function.Basic

/-!
# Page tables in memory

`walk`, `walkaddr`, `mappages` and `uvmunmap` of `kernel/vm.c` as they work on memory: a table is 512 words of a
page, an entry is a word that has an address and flags packed into it, and a pointer is a number.

## The model

Memory is given by its words of 64 bits: `mem a` is the word at address `a`. All accesses are to whole words at
multiples of 8, or to whole pages. A `uint64` is a `UInt64`; a null pointer is `none`, except for `walkaddr`, which
returns `0`. The list of free pages is kept next to the memory, and `kalloc` and `kfree` fill a page with junk.

The loops of `mappages` and `uvmunmap` have no bound of their own, but `walk` panics at `MAXVA`, so that they take at
most `2 ^ 26` turns and then panic.
-/

namespace Xv6Shmem.Flat

/-! ### Words -/

/-- `PGSIZE`. -/
def PGSIZE : UInt64 := 4096

/-- `MAXVA`: one beyond the highest virtual address. -/
def MAXVA : UInt64 := (1 : UInt64) <<< 38

/-- `PHYSTOP`. -/
def PHYSTOP : UInt64 := 0x88000000

/-- `PTE_V`: valid. -/
def PTE_V : UInt64 := (1 : UInt64) <<< 0

/-- `PTE_R`. -/
def PTE_R : UInt64 := (1 : UInt64) <<< 1

/-- `PTE_W`. -/
def PTE_W : UInt64 := (1 : UInt64) <<< 2

/-- `PTE_X`. -/
def PTE_X : UInt64 := (1 : UInt64) <<< 3

/-- `PTE_U`: the user can access. -/
def PTE_U : UInt64 := (1 : UInt64) <<< 4

/-- `PGROUNDDOWN`. -/
def pgrounddown (a : UInt64) : UInt64 := a &&& ~~~(PGSIZE - 1)

/-- `PA2PTE`. -/
def pa2pte (pa : UInt64) : UInt64 := (pa >>> 12) <<< 10

/-- `PTE2PA`. -/
def pte2pa (pte : UInt64) : UInt64 := (pte >>> 10) <<< 12

/-- `PTE_FLAGS`. -/
def pteFlags (pte : UInt64) : UInt64 := pte &&& 0x3FF

/-- `PX(level, va)`. -/
def px (level : ℕ) (va : UInt64) : UInt64 := (va >>> UInt64.ofNat (12 + 9 * level)) &&& 0x1FF

/-! ### Memory -/

/-- Memory and the free pages. -/
structure Kmem where
  mem : UInt64 → UInt64
  freelist : List UInt64

/-- The panics. -/
inductive Panic where
  | walk
  | mappagesSize
  | mappagesRemap
  | uvmunmapNotAligned
  | uvmunmapWalk
  | uvmunmapNotMapped
  | uvmunmapNotLeaf
  | kfree
deriving DecidableEq

/-- An address in the page at `pa`. -/
def InPage (pa a : UInt64) : Prop := pa.toNat ≤ a.toNat ∧ a.toNat < pa.toNat + 4096

instance (pa a : UInt64) : Decidable (InPage pa a) := inferInstanceAs (Decidable (_ ∧ _))

/-- `*a = v`. -/
def Kmem.store (k : Kmem) (a v : UInt64) : Kmem := { k with mem := Function.update k.mem a v }

/-- `memset(pa, c, PGSIZE)`, where `v` is the word all of whose bytes are `c`. -/
def Kmem.fill (k : Kmem) (pa v : UInt64) : Kmem := { k with mem := fun a => if InPage pa a then v else k.mem a }

/-- `kalloc`. -/
def kalloc (k : Kmem) : Option (UInt64 × Kmem) :=
  match k.freelist with
  | [] => none
  | pa :: l => some (pa, { k with freelist := l }.fill pa 0x0505050505050505)

/-- `kfree`, where the kernel ends at `kend`. -/
def kfree (kend pa : UInt64) (k : Kmem) : Except Panic Kmem :=
  if pa % PGSIZE ≠ 0 ∨ pa < kend ∨ PHYSTOP ≤ pa then .error .kfree
  else .ok { k.fill pa 0x0101010101010101 with freelist := pa :: k.freelist }

/-! ### The functions -/

/-- `&pagetable[i]`. -/
def entryAddr (pagetable i : UInt64) : UInt64 := pagetable + 8 * i

/-- The loop of `walk`, from a level down. -/
def walkLoop (va : UInt64) (alloc : Bool) : ℕ → UInt64 → Kmem → Option UInt64 × Kmem
  | 0, pagetable, k => (some (entryAddr pagetable (px 0 va)), k)
  | level + 1, pagetable, k =>
    let pte := entryAddr pagetable (px (level + 1) va)
    if k.mem pte &&& PTE_V ≠ 0 then walkLoop va alloc level (pte2pa (k.mem pte)) k
    else if alloc then
      match kalloc k with
      | none => (none, k)
      | some (page, k) => walkLoop va alloc level page ((k.fill page 0).store pte (pa2pte page ||| PTE_V))
    else (none, k)

/-- `walk(pagetable, va, alloc)`. -/
def walk (pagetable va : UInt64) (alloc : Bool) (k : Kmem) : Except Panic (Option UInt64 × Kmem) :=
  if MAXVA ≤ va then .error .walk else .ok (walkLoop va alloc 2 pagetable k)

/-- `walkaddr(pagetable, va)`. -/
def walkaddr (pagetable va : UInt64) (k : Kmem) : Except Panic UInt64 :=
  if MAXVA ≤ va then .ok 0
  else do
    let (pte, k) ← walk pagetable va false k
    match pte with
    | none => .ok 0
    | some pte =>
      if k.mem pte &&& PTE_V = 0 then .ok 0
      else if k.mem pte &&& PTE_U = 0 then .ok 0
      else .ok (pte2pa (k.mem pte))

/-- The loop of `mappages`; whether it did not run out of pages. -/
def mappagesLoop (pagetable last perm : UInt64) : ℕ → UInt64 → UInt64 → Kmem → Except Panic (Bool × Kmem)
  | 0, _, _, _ => .error .walk
  | fuel + 1, a, pa, k => do
    let (pte, k) ← walk pagetable a true k
    match pte with
    | none => .ok (false, k)
    | some pte =>
      if k.mem pte &&& PTE_V ≠ 0 then .error .mappagesRemap
      else
        let k := k.store pte (pa2pte pa ||| perm ||| PTE_V)
        if a = last then .ok (true, k) else mappagesLoop pagetable last perm fuel (a + PGSIZE) (pa + PGSIZE) k

/-- `mappages(pagetable, va, size, pa, perm)`; whether it returns `0`, and not `-1`. -/
def mappages (pagetable va size pa perm : UInt64) (k : Kmem) : Except Panic (Bool × Kmem) :=
  if size = 0 then .error .mappagesSize
  else mappagesLoop pagetable (pgrounddown (va + size - 1)) perm (2 ^ 26 + 1) (pgrounddown va) pa k

/-- `if(do_free) kfree(pa)`. -/
def kfreeIf (kend : UInt64) (doFree : Bool) (pa : UInt64) (k : Kmem) : Except Panic Kmem :=
  if doFree then kfree kend pa k else .ok k

/-- The loop of `uvmunmap`, up to `bound`. -/
def uvmunmapLoop (kend pagetable bound : UInt64) (doFree : Bool) : ℕ → UInt64 → Kmem → Except Panic Kmem
  | 0, _, _ => .error .walk
  | fuel + 1, a, k =>
    if a < bound then do
      let (pte, k) ← walk pagetable a false k
      match pte with
      | none => .error .uvmunmapWalk
      | some pte =>
        if k.mem pte &&& PTE_V = 0 then .error .uvmunmapNotMapped
        else if pteFlags (k.mem pte) = PTE_V then .error .uvmunmapNotLeaf
        else
          let k ← kfreeIf kend doFree (pte2pa (k.mem pte)) k
          uvmunmapLoop kend pagetable bound doFree fuel (a + PGSIZE) (k.store pte 0)
    else .ok k

/-- `uvmunmap(pagetable, va, npages, do_free)`. -/
def uvmunmap (kend pagetable va npages : UInt64) (doFree : Bool) (k : Kmem) : Except Panic Kmem :=
  if va % PGSIZE ≠ 0 then .error .uvmunmapNotAligned
  else uvmunmapLoop kend pagetable (va + npages * PGSIZE) doFree (2 ^ 26 + 1) va k

end Xv6Shmem.Flat
