import Xv6Shmem.Kernel.Shmem
import Xv6Shmem.Vm.Exec

/-!
# The system calls, with the memory of the processes

The machine of `Xv6Shmem.Kernel.Shmem` takes as an argument what depends on memory. Here
the same calls are made with the page allocator and the page tables in the state: `fork`
copies the memory of the parent, `exec` replaces it, `sbrk` grows and shrinks it, `wait`
gives it back, and `shmem_access` maps a shared page.

## The model

A process has its trapframe page, its page table and its size; a slot that has neither a
trapframe nor a page table has none of the three, and its size is zero. A call is made as a
whole. Besides the calls there are the other ways in which memory comes to be written:

* a store of the user's program, which the page table translates; one that it does not
  allow is a trap, and the process exits with `-1`;
* `copyout` by a call that is not modelled, as `read`, `fstat` and `pipe` make it;
* the registers that a trap leaves in the trapframe page;
* the pages that the rest of the kernel takes from the allocator, for pipes and for the
  arguments of `exec`, writes and gives back.
-/

namespace Xv6Shmem.Vm

open Kernel Radix

/-! ### State -/

/-- The memory of a process: `p->trapframe`, `p->pagetable` and `p->sz`. -/
structure Uvm where
  /-- The trapframe page. -/
  trapframe : ℤ
  /-- The page table. -/
  pagetable : Pagetable
  /-- The size in bytes. -/
  sz : ℕ

/-- The state of the kernel with the memory of the processes. -/
structure VmState where
  /-- The tables and physical memory. -/
  kern : State
  /-- The free pages. -/
  freelist : List ℤ
  /-- The memory of each process. -/
  uvm : Slot → Option Uvm
  /-- The pages that the rest of the kernel has taken. -/
  others : List ℤ

/-- The allocator and the memory. -/
def VmState.kmem (v : VmState) : Kmem := ⟨v.freelist, v.kern.mem⟩

/-- The state with other tables, and with another allocator and memory. -/
def VmState.put (v : VmState) (s : State) (k : Kmem) : VmState :=
  { v with kern := { s with mem := k.mem }, freelist := k.freelist }

/-- The state with other bytes in memory. -/
def VmState.setMem (v : VmState) (m : Mem) : VmState := { v with kern := { v.kern with mem := m } }

/-- The state with another memory for slot `p`. -/
def VmState.setUvm (v : VmState) (p : Slot) (u : Option Uvm) : VmState :=
  { v with uvm := Function.update v.uvm p u }

/-- The memory of the calling process. -/
def VmState.user (v : VmState) (p : Slot) : Except Panic Uvm :=
  match v.uvm p with
  | some u => .ok u
  | none => .error .kerneltrap

/-! ### Creating and removing the memory of a process -/

/-- What `allocproc` allocates: the trapframe and an empty page table; `none` if there was no
memory. -/
def allocUvm (L : Layout) (k : Kmem) : Except Panic (Option Uvm × Kmem) :=
  match kalloc k with
  | none => .ok (none, k)
  | some (tf, k) => do
    let (pt, k) ← procPagetable L tf k
    match pt with
    | none =>
      let k ← kfree L tf k
      .ok (none, k)
    | some pt => .ok (some ⟨tf, pt, 0⟩, k)

/-- What `freeproc` frees. -/
def freeUvm (L : Layout) (u : Option Uvm) (k : Kmem) : Except Panic Kmem :=
  match u with
  | none => .ok k
  | some u => do
    let k ← kfree L u.trapframe k
    procFreepagetable L u.pagetable u.sz k

/-- `sizeof(struct trapframe)`. -/
abbrev TRAPFRAMESIZE : ℕ := 288

/-- The offset of `a0` in a trapframe. -/
abbrev A0 : ℕ := 112

/-- `*(np->trapframe) = *(p->trapframe)` and `np->trapframe->a0 = 0`, for the trapframes at `np` and `p`. -/
def forkRegs (np p : ℤ) (m : Mem) : Mem := (m.memmove np p TRAPFRAMESIZE).write (np + A0) (List.replicate 8 0)

/-- The memory of the child that `fork` makes; `none` if there was no memory. -/
def forkUvm (L : Layout) (u : Uvm) (k : Kmem) : Except Panic (Option Uvm × Kmem) := do
  let (child, k) ← allocUvm L k
  match child with
  | none => .ok (none, k)
  | some c =>
    let (copied, pt, k) ← uvmcopy L u.pagetable c.pagetable u.sz k
    if copied then
      .ok (some { c with pagetable := pt, sz := u.sz }, { k with mem := forkRegs c.trapframe u.trapframe k.mem })
    else
      let k ← freeUvm L (some { c with pagetable := pt }) k
      .ok (none, k)

/-- `growproc`; whether there was memory. -/
def growproc (L : Layout) (n : Int32) (u : Uvm) (k : Kmem) : Except Panic (Bool × Uvm × Kmem) :=
  let newsz := (((u.sz : ℤ) + n.toInt) % 2 ^ 64).toNat
  if 0 < n then do
    let (sz, pt, k) ← uvmalloc L u.pagetable u.sz newsz (true, false) k
    if sz = 0 then .ok (false, { u with pagetable := pt }, k)
    else .ok (true, { u with pagetable := pt, sz := sz }, k)
  else if n < 0 then do
    let (sz, pt, k) ← uvmdealloc L u.pagetable u.sz newsz k
    .ok (true, { u with pagetable := pt, sz := sz }, k)
  else .ok (true, u, k)

/-! ### The shared pages in a page table -/

/-- `VASHMEM(n)`. -/
def vashmem (n : Int32) : ℕ := ((TRAPFRAME : ℤ) - (4096 * (n + 1)).toInt).toNat

/-- The entry that `get_shmem_access` makes: `PTE_R|PTE_W|PTE_U`. -/
def shmemPte (phaddr : ℤ) : Pte := userPte phaddr (true, false)

/-! ### The calls -/

/-- `fork`. -/
def VmState.fork (L : Layout) (p : Slot) (v : VmState) : Except Panic (Option ℤ × VmState) :=
  match findUnused v.kern with
  | none => .ok (some (-1), v)
  | some np => do
    let u ← v.user p
    let (child, k) ← forkUvm L u v.kmem
    let r := Kernel.fork child.isSome p v.kern
    .ok (some r.1.toInt, (v.put r.2 k).setUvm np child)

/-- `exec`, with the file that `namei` finds and the arguments that `sys_exec` has fetched. -/
def VmState.exec (L : Layout) (file : Option Inode) (argv : List (List UInt8)) (p : Slot) (v : VmState) :
    Except Panic (Option ℤ × VmState) := do
  let u ← v.user p
  let (image, k) ← execImage L u.trapframe u.pagetable u.sz file argv v.kmem
  match image with
  | none =>
    let r := Kernel.exec none p v.kern
    .ok (some r.1.toInt, v.put r.2 k)
  | some i =>
    let r := Kernel.exec (some (Int32.ofNat i.argc)) p v.kern
    .ok (some r.1.toInt, (v.put r.2 k).setUvm p (some { u with pagetable := i.pagetable, sz := i.sz }))

/-- The four bytes of an `int`. -/
def intBytes (n : Int32) : List UInt8 := (List.range 4).map (Mem.byteOf n)

/-- `wait(addr)`. -/
def VmState.wait (L : Layout) (addr : ℕ) (p : Slot) (v : VmState) : Except Panic (Option ℤ × VmState) :=
  match findZombie p v.kern with
  | none => .ok ((Kernel.wait true p v.kern).1.map Int32.toInt, v)
  | some pp => do
    let u ← v.user p
    let r := if addr = 0 then (true, v.kern.mem)
      else copyout u.pagetable addr (intBytes (v.kern.proc pp).xstate) v.kern.mem
    let s := Kernel.wait r.1 p v.kern
    if !r.1 then .ok (s.1.map Int32.toInt, v.put s.2 ⟨v.freelist, r.2⟩)
    else
      let k ← freeUvm L (v.uvm pp) ⟨v.freelist, r.2⟩
      .ok (s.1.map Int32.toInt, (v.put s.2 k).setUvm pp none)

/-- `sbrk(n)`, returning the old size, an `int`, or `-1`. -/
def VmState.sbrk (L : Layout) (n : Int32) (p : Slot) (v : VmState) : Except Panic (Option ℤ × VmState) := do
  let u ← v.user p
  let (grown, u', k) ← growproc L n u v.kmem
  .ok (some (if grown then (Int32.ofNat u.sz).toInt else -1), (v.put v.kern k).setUvm p (some u'))

/-- `get_shmem_access(i, 0)`, returning the address of the page or `0`. -/
def VmState.shmemAccess (i : PageNo) (p : Slot) (v : VmState) : Except Panic (Option ℤ × VmState) :=
  if !(v.kern.proc p).shmemAccess i then .error .noAccess
  else do
    let u ← v.user p
    let va := vashmem (v.kern.proc p).shmemAccessCount
    let (mapped, pt, k) ← mappages u.pagetable va PGSIZE (shmemPte (v.kern.shmem i).phaddr) v.kmem
    let s ← Kernel.getShmemAccess i mapped p v.kern
    .ok (some (if mapped then va else 0), (v.put s k).setUvm p (some { u with pagetable := pt }))

/-! ### Other writes -/

/-- Where a user's store to a virtual address goes. -/
def Pagetable.writable (pt : Pagetable) (va : ℕ) : Option ℤ :=
  if MAXVA ≤ va then none
  else
    match pt.pte va with
    | some e => if e.u && e.w then some (e.pa + (va % PGSIZE : ℕ)) else none
    | none => none

/-- A store of one byte by the user's program. -/
def VmState.store (va : ℕ) (b : UInt8) (p : Slot) (v : VmState) : Except Panic (Option ℤ × VmState) := do
  let u ← v.user p
  match u.pagetable.writable va with
  | some pa => .ok (none, v.setMem (v.kern.mem.write pa [b]))
  | none =>
    let s ← Kernel.exit (-1) p v.kern
    .ok (none, { v with kern := s })

/-- `copyout` of the bytes `src` by another call. -/
def VmState.copyout (va : ℕ) (src : List UInt8) (p : Slot) (v : VmState) : Except Panic (Option ℤ × VmState) := do
  let u ← v.user p
  let r := Vm.copyout u.pagetable va src v.kern.mem
  .ok (some (if r.1 then src.length else -1), v.setMem r.2)

/-- A trap leaves the registers in the trapframe. -/
def VmState.trap (regs : List UInt8) (p : Slot) (v : VmState) : Except Panic (Option ℤ × VmState) := do
  let u ← v.user p
  .ok (none, v.setMem (v.kern.mem.write u.trapframe (regs.take PGSIZE)))

/-- The rest of the kernel takes a page. -/
def VmState.take (v : VmState) : VmState :=
  match kalloc v.kmem with
  | none => v
  | some (pa, k) => { v.put v.kern k with others := pa :: v.others }

/-- The rest of the kernel writes to a page that it has. -/
def VmState.fill (pa : ℤ) (bs : List UInt8) (v : VmState) : VmState :=
  if pa ∈ v.others then v.setMem (v.kern.mem.write pa (bs.take PGSIZE)) else v

/-- The rest of the kernel gives a page back. -/
def VmState.give (L : Layout) (pa : ℤ) (v : VmState) : Except Panic VmState :=
  if pa ∈ v.others then do
    let k ← kfree L pa v.kmem
    .ok { v.put v.kern k with others := v.others.erase pa }
  else .ok v

/-! ### The machine -/

/-- What a process, or the kernel for it, can do. -/
inductive VmOp where
  /-- A call that has no part in the memory of the processes. -/
  | kern (op : Op) (plain : op.plain = true)
  | fork
  | exec (file : Option Inode) (argv : List (List UInt8))
  | wait (addr : ℕ)
  | sbrk (n : Int32)
  | shmemAccess (i : PageNo)
  | store (va : ℕ) (b : UInt8)
  | copyout (va : ℕ) (src : List UInt8)
  | trap (regs : List UInt8)
  | take
  | fill (pa : ℤ) (bs : List UInt8)
  | give (pa : ℤ)

/-- `exit`. -/
abbrev VmOp.exit (status : Int32) : VmOp := .kern (.exit status) rfl

/-- `shmem_set_writable`. -/
abbrev VmOp.shmemSetWritable (i : PageNo) : VmOp := .kern (.shmemSetWritable i) rfl

/-- `shmem_set_unwritable`. -/
abbrev VmOp.shmemSetUnwritable (i : PageNo) : VmOp := .kern (.shmemSetUnwritable i) rfl

/-- `shmem_write_int`. -/
abbrev VmOp.shmemWriteInt (i : PageNo) (index value : Int32) : VmOp := .kern (.shmemWriteInt i index value) rfl

/-- `shmem_release_access`. -/
abbrev VmOp.shmemReleaseAccess (i : PageNo) : VmOp := .kern (.shmemReleaseAccess i) rfl

/-- What it does, when process `p` is running: the value returned, if there is one, and the state after
it. -/
def vcall (L : Layout) (p : Slot) (v : VmState) : VmOp → Except Panic (Option ℤ × VmState)
  | .kern op _ => (call p v.kern op).map fun r => (r.1.map Int32.toInt, { v with kern := r.2 })
  | .fork => v.fork L p
  | .exec file argv => v.exec L file argv p
  | .wait addr => v.wait L addr p
  | .sbrk n => v.sbrk L n p
  | .shmemAccess i => v.shmemAccess i p
  | .store va b => v.store va b p
  | .copyout va src => v.copyout va src p
  | .trap regs => v.trap regs p
  | .take => .ok (none, v.take)
  | .fill pa bs => .ok (none, v.fill pa bs)
  | .give pa => (v.give L pa).map (none, ·)

/-- A step that did not panic. -/
structure VmEvent where
  /-- The slot of the running process. -/
  slot : Slot
  /-- What it did. -/
  op : VmOp
  /-- The value returned. -/
  ret : Option ℤ

/-- `initcode`, the program of the first process. -/
def initcode : List UInt8 :=
  [0x17, 0x05, 0x00, 0x00, 0x13, 0x05, 0x45, 0x02, 0x97, 0x05, 0x00, 0x00, 0x93, 0x85, 0x35, 0x02,
   0x93, 0x08, 0x70, 0x00, 0x73, 0x00, 0x00, 0x00, 0x93, 0x08, 0x20, 0x00, 0x73, 0x00, 0x00, 0x00,
   0xef, 0xf0, 0x9f, 0xff, 0x2f, 0x69, 0x6e, 0x69, 0x74, 0x00, 0x00, 0x24, 0x00, 0x00, 0x00, 0x00,
   0x00, 0x00, 0x00, 0x00]

/-- `uvmfirst`; whether `mappages` did not run out of pages, which the source does not ask. -/
def uvmfirst (pt : Pagetable) (src : List UInt8) (k : Kmem) : Except Panic (Bool × Pagetable × Kmem) :=
  match kallocZero k with
  | none => .error .kerneltrap
  | some (mem, k) => do
    let (mapped, pt, k) ← mappages pt 0 PGSIZE (userPte mem (true, true)) k
    .ok (mapped, pt, { k with mem := k.mem.write mem src })

/-- `userinit`, when `main` has taken the shared pages (`shmemInit_eq`). If the first page could not be
mapped, the first instruction is a trap and the first process exits. -/
def VmState.boot (L : Layout) (m : Mem) : Except Panic VmState := do
  let (u, k) ← allocUvm L ⟨pagesDown L.npages (L.base - PGSIZE * SHMEM), (tables L.base m).mem⟩
  match u with
  | none => .error .kerneltrap
  | some u =>
    let (mapped, pt, k) ← uvmfirst u.pagetable initcode k
    if !mapped then .error .initExiting
    else
      .ok
        { kern := { Kernel.boot L.base m with mem := k.mem }
          freelist := k.freelist
          uvm := Function.update (fun _ => none) 0 (some { u with pagetable := pt, sz := PGSIZE })
          others := [] }

/-- **The machine with the memory of the processes**. -/
def vmachine (L : Layout) (m : Mem) : LTS VmState VmEvent where
  init := fun v => VmState.boot L m = .ok v
  step := fun v e v' => (v.kern.proc e.slot).live ∧ vcall L e.slot v e.op = .ok (e.ret, v')

/-- Do a list of steps from a state, keeping the trace; `none` if one of them panics or its process is not
there. -/
def vtrace (L : Layout) (v : VmState) : List (Slot × VmOp) → Option (List (VmState × VmEvent) × VmState)
  | [] => some ([], v)
  | (p, op) :: l =>
    if (v.kern.proc p).live then
      match vcall L p v op with
      | .ok (r, w) => (vtrace L w l).map fun x => ((v, ⟨p, op, r⟩) :: x.1, x.2)
      | .error _ => none
    else none

variable {L : Layout} {m : Mem} {l : List (Slot × VmOp)}

theorem run_of_vtrace {v w : VmState}
    {tr : List (VmState × VmEvent)} (h : vtrace L v l = some (tr, w)) : (vmachine L m).Run v tr w := by
  induction l generalizing v tr with
  | nil => cases h; exact .nil
  | cons c l ih =>
    obtain ⟨p, op⟩ := c
    simp only [vtrace] at h
    split_ifs at h with hp
    split at h
    · rename_i r u hc
      obtain ⟨⟨tr', w'⟩, h', hx⟩ := Option.map_eq_some_iff.mp h
      cases hx
      exact .cons ⟨hp, hc⟩ (ih h')
    · cases h

/-- The steps of a trace. -/
def vops (tr : List (VmState × VmEvent)) : List (Slot × VmOp) := tr.map fun x => (x.2.slot, x.2.op)

theorem vops_vtrace {v w : VmState} {tr : List (VmState × VmEvent)} (h : vtrace L v l = some (tr, w)) : vops tr = l := by
  induction l generalizing v tr with
  | nil => cases h; rfl
  | cons c l ih =>
    obtain ⟨p, op⟩ := c
    simp only [vtrace] at h
    split_ifs at h with hp
    split at h
    · obtain ⟨⟨tr', w'⟩, h', hx⟩ := Option.map_eq_some_iff.mp h
      cases hx
      exact congrArg ((p, op) :: ·) (ih h')
    · cases h

/-- Boot, do the steps `l₀`, then the steps `l₁`, and ask `f` of the state between, the trace of `l₁` and the
last state. -/
def vcheck (L : Layout) (m : Mem) (l₀ l₁ : List (Slot × VmOp))
    (f : VmState → List (VmState × VmEvent) → VmState → Bool) : Bool :=
  match VmState.boot L m with
  | .error _ => false
  | .ok v =>
    match vtrace L v l₀ with
    | none => false
    | some (_, v₀) =>
      match vtrace L v₀ l₁ with
      | none => false
      | some (tr, v₁) => f v₀ tr v₁

/-- What was asked of a run holds of a run of the machine. -/
theorem exists_of_vcheck {l₀ l₁ : List (Slot × VmOp)}
    {f : VmState → List (VmState × VmEvent) → VmState → Bool} (h : vcheck L m l₀ l₁ f = true) :
    ∃ v₀ tr v₁, (vmachine L m).Reachable v₀ ∧ (vmachine L m).Run v₀ tr v₁ ∧ vops tr = l₁ ∧
      f v₀ tr v₁ = true := by
  unfold vcheck at h
  split at h
  · cases h
  · rename_i v hv
    split at h
    · cases h
    · rename_i tr0 v₀ h0
      split at h
      · cases h
      · rename_i tr v₁ h1
        exact ⟨v₀, tr, v₁, ⟨v, tr0, hv, run_of_vtrace h0⟩, run_of_vtrace h1, vops_vtrace h1, h⟩

/-- The same for a run from the start. -/
theorem exists_of_vcheck_boot {f : VmState → List (VmState × VmEvent) → VmState → Bool} (h : vcheck L m [] l f = true) :
    ∃ v₀ tr v₁, VmState.boot L m = .ok v₀ ∧ (vmachine L m).Run v₀ tr v₁ ∧ vops tr = l ∧ f v₀ tr v₁ = true := by
  unfold vcheck at h
  split at h
  · cases h
  · rename_i v hv
    dsimp only [vtrace] at h
    split at h
    · cases h
    · rename_i tr v₁ h1
      exact ⟨v, tr, v₁, hv, run_of_vtrace h1, vops_vtrace h1, h⟩

/-- The addresses of a kernel that ends at `0x80022000`. -/
def Layout.sample : Layout where
  kend := 0x80022000
  trampoline := 0x80007000
  base := 0x87f00000
  aligned := by decide
  above := by decide
  below := by decide

end Xv6Shmem.Vm
