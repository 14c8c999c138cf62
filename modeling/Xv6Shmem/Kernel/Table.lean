import Mathlib.Data.List.FinRange
import Mathlib.Logic.Function.Basic
import Xv6Shmem.Theory.ByteMemory
import Xv6Shmem.Theory.Tally

/-!
# The process table and the shared pages

The data of `kernel/proc.h` and `kernel/param.h`, and the parts of `kernel/proc.c`
and `kernel/exec.c` that create, mark and remove processes: `allocproc`, `freeproc`,
`userinit`, `fork`, `reparent`, `exit`, `wait`, `kill` and the line of `exec` that
makes a process the top of its group.

## The model

The kernel's state is the process table, the table of shared pages, the counter
`nextpid` and physical memory. A C `int` is an `Int32`, so its arithmetic wraps. A
pointer into the process table is the slot it points to; `0` is `none`. Each function
takes the slot of the calling process, `myproc()`, and the state, and returns the
state it leaves.

What depends on memory or on the file system is an argument here: whether the pages
`fork` needs were there, whether `exec` found and loaded its file, whether `wait` could
copy the status out. The loops over the shared pages are folds over the page numbers in
the order of the source.

Not kept: locks (each function here runs as a whole), open files, the working
directory, names, and the scheduler's part of a process's state. A slot that is neither
`UNUSED` nor `ZOMBIE` belongs to a process that has not exited.
-/

namespace Xv6Shmem.Kernel

open Function

/-! ### Parameters -/

/-- `NPROC`: the size of the process table. -/
abbrev NPROC : ℕ := 64

/-- `SHMEM`: the number of shared pages. -/
abbrev SHMEM : ℕ := 4

/-- `PGSIZE`: the bytes in a page. -/
abbrev PGSIZE : ℕ := 4096

instance : NeZero NPROC := ⟨by decide⟩

instance : NeZero SHMEM := ⟨by decide⟩

/-- A slot of the process table. -/
abbrev Slot := Fin NPROC

/-- The number of a shared page. -/
abbrev PageNo := Fin SHMEM

/-! ### Data -/

/-- `enum procstate`. -/
inductive ProcState where
  | unused
  | used
  | sleeping
  | runnable
  | running
  | zombie
  deriving DecidableEq, Repr

/-- `struct proc`, as far as the shared pages and the process tree go. -/
structure Proc where
  /-- Process state. -/
  state : ProcState
  /-- If true, have been killed. -/
  killed : Bool
  /-- Exit status to be returned to the parent's `wait`. -/
  xstate : Int32
  /-- Process ID. -/
  pid : Int32
  /-- `shmem_access_count`, said to be the number of shared pages the process has access to. -/
  shmemAccessCount : Int32
  /-- `shmem_access`: whether the process has access to the page. -/
  shmemAccess : PageNo → Bool
  /-- Parent process. -/
  parent : Option Slot
  /-- `top_pid`: the pid of the top of the process's group. -/
  topPid : Int32

/-- The states of a shared page, `kernel/shmem.h`. -/
inductive PageState where
  /-- `NOT_SET`. -/
  | notSet
  /-- `UNWRITABLE`. -/
  | unwritable
  /-- `WRITABLE`. -/
  | writable
  deriving DecidableEq, Repr

/-- `struct shmem`, less its locks. -/
structure Shmem where
  /-- `PHADDR`: the physical address of the page. -/
  phaddr : ℤ
  /-- The number of users of the page. -/
  numberofusers : Int32
  /-- Whether the page is writable, unwritable or not set. -/
  state : PageState
  /-- `using_top_pid`: the `top_pid` of the group that uses the page, or `-1`. -/
  usingTopPid : Int32

/-- The kernel's state. -/
structure State where
  /-- The process table. -/
  proc : Slot → Proc
  /-- The first process. -/
  initproc : Slot
  /-- The next process ID. -/
  nextpid : Int32
  /-- The shared pages. -/
  shmem : PageNo → Shmem
  /-- Physical memory. -/
  mem : Mem

/-- The calls of `panic` that the modelled functions make. -/
inductive Panic where
  /-- "init exiting". -/
  | initExiting
  /-- "shmem state is already set". -/
  | alreadySet
  /-- "shmem is already used by other process". -/
  | usedByOther
  /-- "shmem_i_lock", where `i` is the page number. -/
  | pageLock (i : PageNo)
  /-- "The process don't have access to this shmem page". -/
  | noAccess
  /-- "This shmem page already have access to other process". -/
  | otherProcess
  /-- "The process already have access to this shmem page". -/
  | alreadyAccess
  /-- "shmem state is not set". -/
  | notSet
  /-- "shmem state is invalid". -/
  | stateInvalid
  /-- "shmem numberofusers is invalid". -/
  | usersInvalid
  /-- "kfree". -/
  | kfree
  /-- "walk". -/
  | walk
  /-- "mappages: size". -/
  | mappagesSize
  /-- "mappages: remap". -/
  | mappagesRemap
  /-- "uvmunmap: not aligned". -/
  | uvmunmapNotAligned
  /-- "uvmunmap: walk". -/
  | uvmunmapWalk
  /-- "uvmunmap: not mapped". -/
  | uvmunmapNotMapped
  /-- "freewalk: leaf". -/
  | freewalkLeaf
  /-- "uvmcopy: pte should exist". -/
  | uvmcopyPte
  /-- "uvmcopy: page not present". -/
  | uvmcopyPage
  /-- "uvmclear". -/
  | uvmclear
  /-- "loadseg: address should exist". -/
  | loadseg
  /-- "kerneltrap": the kernel went through a null pointer. -/
  | kerneltrap
  deriving DecidableEq

/-- The process in this slot has not exited. -/
def Proc.live (q : Proc) : Bool := q.state ≠ .unused && q.state ≠ .zombie

theorem Proc.used_of_live {q : Proc} (h : q.live = true) : q.state ≠ .unused := by
  intro hu
  simp [Proc.live, hu] at h

/-- Slot `p` holds a process that has not exited and has access to page `i`. -/
def State.holds (s : State) (i : PageNo) (p : Slot) : Bool := (s.proc p).live && (s.proc p).shmemAccess i

/-! ### Writing the tables -/

/-- Write a slot of the process table. -/
def State.setProc (s : State) (p : Slot) (q : Proc) : State := { s with proc := update s.proc p q }

/-- Write an entry of the table of shared pages. -/
def State.setShmem (s : State) (i : PageNo) (g : Shmem) : State :=
  { s with shmem := update s.shmem i g }

section Writes

variable (s : State) (p : Slot) (q : Proc) (i : PageNo) (g : Shmem)

@[simp] theorem setProc_proc : (s.setProc p q).proc = update s.proc p q := rfl

@[simp] theorem setProc_initproc : (s.setProc p q).initproc = s.initproc := rfl

@[simp] theorem setProc_nextpid : (s.setProc p q).nextpid = s.nextpid := rfl

@[simp] theorem setProc_shmem : (s.setProc p q).shmem = s.shmem := rfl

@[simp] theorem setProc_mem : (s.setProc p q).mem = s.mem := rfl

@[simp] theorem setShmem_proc : (s.setShmem i g).proc = s.proc := rfl

@[simp] theorem setShmem_initproc : (s.setShmem i g).initproc = s.initproc := rfl

@[simp] theorem setShmem_nextpid : (s.setShmem i g).nextpid = s.nextpid := rfl

@[simp] theorem setShmem_shmem : (s.setShmem i g).shmem = update s.shmem i g := rfl

@[simp] theorem setShmem_mem : (s.setShmem i g).mem = s.mem := rfl

end Writes

/-! ### Slots -/

/-- The first `UNUSED` slot, which `allocproc` takes. -/
def findUnused (s : State) : Option Slot :=
  (List.finRange NPROC).find? fun p => (s.proc p).state = .unused

/-- `allocproc` from its label `found` on: the slot gets the next pid and loses every
access. Each turn of the loop over the pages takes one from `shmem_access_count`. -/
def allocproc (np : Slot) (s : State) : State :=
  { s with
    nextpid := s.nextpid + 1
    proc := update s.proc np
      { s.proc np with
        pid := s.nextpid
        state := .used
        shmemAccessCount := (List.finRange SHMEM).foldl (fun c _ => c - 1) 0
        shmemAccess := fun _ => false } }

/-- `freeproc`: the slot is `UNUSED` again. Its flags and its `top_pid` stay. -/
def freeproc (p : Slot) (s : State) : State :=
  s.setProc p { s.proc p with pid := 0, parent := none, killed := false, xstate := 0, state := .unused }

/-! ### Start -/

/-- A slot of the process table before it is first used: all zero. -/
def zeroProc : Proc :=
  { state := .unused, killed := false, xstate := 0, pid := 0, shmemAccessCount := 0,
    shmemAccess := fun _ => false, parent := none, topPid := 0 }

/-- `safe_physical_address`: the entry of a shared page at the start. -/
def safePhysicalAddress (phaddr : ℤ) : Shmem :=
  { phaddr := phaddr, numberofusers := 0, state := .notSet, usingTopPid := -1 }

/-- The address of page `i`, when page `0` is at `base`. The pages come from consecutive
calls of `kalloc`, and the free list built by `freerange` gives the highest page first,
so each is just below the one before. -/
def pageAddr (base : ℤ) (i : PageNo) : ℤ := base - PGSIZE * i

/-- The kernel's tables when `main` has set up the shared pages: `kalloc` filled each page
with the byte `5`; the rest of memory is `m`. -/
def tables (base : ℤ) (m : Mem) : State where
  proc := fun _ => zeroProc
  initproc := 0
  nextpid := 1
  shmem := fun i => safePhysicalAddress (pageAddr base i)
  mem := (List.finRange SHMEM).foldl (fun m i => m.memset (pageAddr base i) 5 PGSIZE) m

/-- The state after `userinit`: the first process, in slot `0`, can run. -/
def boot (base : ℤ) (m : Mem) : State :=
  let s := allocproc 0 (tables base m)
  s.setProc 0 { s.proc 0 with state := .runnable }

/-! ### Creating and removing processes -/

/-- The body of `fork`'s loop over the shared pages: the child gets the parent's access,
and is counted if it has it. -/
def forkPage (p np : Slot) (s : State) (i : PageNo) : State :=
  let s := s.setProc np
    { s.proc np with shmemAccess := update (s.proc np).shmemAccess i ((s.proc p).shmemAccess i) }
  if (s.proc p).shmemAccess i then
    s.setShmem i { s.shmem i with numberofusers := (s.shmem i).numberofusers + 1 }
  else s

/-- `fork`, returning the child's pid or `-1`. The argument says whether there was memory
for the child; where there was not, `allocproc` or `fork` gives the slot back with
`freeproc`, and the pid is used up. -/
def fork (mem : Bool) (p : Slot) (s : State) : Int32 × State :=
  match findUnused s with
  | none => (-1, s)
  | some np =>
    let s := allocproc np s
    if mem then
      let s := s.setProc np { s.proc np with parent := some p, topPid := (s.proc p).topPid }
      let s := s.setProc np { s.proc np with state := .runnable }
      ((s.proc np).pid, (List.finRange SHMEM).foldl (forkPage p np) s)
    else (-1, freeproc np s)

/-- `exec`, returning `argc` or `-1`. The process becomes the top of its group first,
whatever comes of the call. -/
def exec (argc : Option Int32) (p : Slot) (s : State) : Int32 × State :=
  (argc.getD (-1), s.setProc p { s.proc p with topPid := (s.proc p).pid })

/-- `reparent`: pass `p`'s children to the first process. -/
def reparent (p : Slot) (s : State) : State :=
  { s with proc := fun pp =>
      if (s.proc pp).parent = some p then { s.proc pp with parent := some s.initproc } else s.proc pp }

/-- The counter of a page after `exit` of a process: one less if it had access. -/
def exitUsers (q : Proc) (i : PageNo) (g : Shmem) : Int32 :=
  if q.shmemAccess i then g.numberofusers - 1 else g.numberofusers

/-- `exit` resets the page: no user is left, and the page belongs to the group of the
exiting process. -/
def ExitResets (q : Proc) (i : PageNo) (g : Shmem) : Prop :=
  exitUsers q i g = 0 ∧ g.usingTopPid = q.topPid

instance (q : Proc) (i : PageNo) (g : Shmem) : Decidable (ExitResets q i g) :=
  inferInstanceAs (Decidable (_ ∧ _))

/-- The entry of page `i` after the body of `exit`'s loop. -/
def exitShmem (q : Proc) (i : PageNo) (g : Shmem) : Shmem :=
  if ExitResets q i g then
    { g with numberofusers := exitUsers q i g, state := .notSet, usingTopPid := -1 }
  else { g with numberofusers := exitUsers q i g }

/-- The body of `exit`'s loop over the shared pages. The flag of the process stays. -/
def exitPage (p : Slot) (s : State) (i : PageNo) : State :=
  { s with
    shmem := update s.shmem i (exitShmem (s.proc p) i (s.shmem i))
    mem := if ExitResets (s.proc p) i (s.shmem i) then s.mem.memset (s.shmem i).phaddr 0 PGSIZE else s.mem }

/-- `exit`. -/
def exit (status : Int32) (p : Slot) (s : State) : Except Panic State :=
  if p = s.initproc then .error .initExiting
  else
    let s := (List.finRange SHMEM).foldl (exitPage p) (reparent p s)
    .ok (s.setProc p { s.proc p with xstate := status, state := .zombie })

/-- The child that `wait` finds: the first `ZOMBIE` whose parent is `p`. -/
def findZombie (p : Slot) (s : State) : Option Slot :=
  (List.finRange NPROC).find? fun pp => (s.proc pp).parent = some p ∧ (s.proc pp).state = .zombie

/-- `wait`, returning the child's pid or `-1`; `none` if the caller sleeps on. The argument
says whether the status was copied out (or the address was `0`). -/
def wait (copied : Bool) (p : Slot) (s : State) : Option Int32 × State :=
  match findZombie p s with
  | some pp => if copied then (some (s.proc pp).pid, freeproc pp s) else (some (-1), s)
  | none =>
    if (∀ pp, (s.proc pp).parent ≠ some p) ∨ (s.proc p).killed then (some (-1), s) else (none, s)

/-- `kill`: the first slot with the pid, if there is one. -/
def kill (pid : Int32) (s : State) : Int32 × State :=
  match (List.finRange NPROC).find? fun p => (s.proc p).pid = pid with
  | some p =>
    let q := { s.proc p with killed := true }
    (0, s.setProc p (if q.state = .sleeping then { q with state := .runnable } else q))
  | none => (-1, s)

end Xv6Shmem.Kernel
