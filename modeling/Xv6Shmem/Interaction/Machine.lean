import Xv6Shmem.Kernel.Effects

/-!
# The calls, step by step

The machine of `Xv6Shmem.Kernel.Shmem` makes each call as a whole. Here the calls of
different processes run at the same time, on different CPUs, and a step is what one of
them does between two points at which another may come in: to take a lock, which it can
do only when nobody has it, to give one back, to load `numberofusers`, to store it, or to
do one of the other writes.

## The model

Next to the kernel's tables the state has the locks, each with the process that holds it,
and for each process where it is in the call it makes (`Pc`). The locks are `wait_lock`,
the lock of each slot, and the locks `state_lock` and `lock` of each shared page.

`shmem_set_writable`, `shmem_set_unwritable`, `shmem_acquire_access` and
`shmem_release_access` have one shape, as has the body of `exit`'s loop: they take
`state_lock`, check, take the lock of the process, write its flag, load the counter, store
it, write the page's entry, and give the locks back. `Kind` says which of them it is.
`fork` copies the flags and changes the counters holding the lock of the child and no
other.

A panic is no step: the process stays where it is, with its locks. The search for a free
slot in `allocproc`, and the calls `exec`, `wait` and `shmem_set_init_int`, are one step
each. The status of `exit` and the value that a read returns are not kept.
-/

namespace Xv6Shmem.Interaction

open Function Kernel

/-- The calls, and the body of `exit`'s loop, that change a counter under `state_lock`. -/
inductive Kind where
  /-- `shmem_set_writable` or `shmem_set_unwritable`. -/
  | set (writable : Bool)
  /-- `shmem_acquire_access`. -/
  | acquire
  /-- `shmem_release_access`. -/
  | release
  /-- A turn of the loop of `exit`. -/
  | exit
  deriving DecidableEq

/-- What it stores when it has loaded `n`. -/
def Kind.update : Kind → Int32 → Int32
  | .set _, n | .acquire, n => n + 1
  | .release, n | .exit, n => n - 1

/-- Where a process is in the call it makes. -/
inductive Pc where
  /-- In none. -/
  | idle
  /-- `fork`: the slot of the child is taken, with its lock. -/
  | forkAlloc (np : Slot)
  /-- The lock of the child is given back. -/
  | forkLink (np : Slot)
  /-- `wait_lock` is taken, and the child has its parent and its group. -/
  | forkLinked (np : Slot)
  /-- `wait_lock` is given back. -/
  | forkRun (np : Slot)
  /-- The lock of the child is taken and the child can run; the loop is at page `k`. -/
  | forkPage (np : Slot) (k : ℕ)
  /-- The child has access to page `i`; next the counter is loaded. -/
  | forkLoad (np : Slot) (i : PageNo)
  /-- The counter of page `i` was loaded. -/
  | forkStore (np : Slot) (i : PageNo) (n : Int32)
  /-- `exit`: `wait_lock` is taken, and the children have another parent. -/
  | exitLock
  /-- The lock of the process is taken; the loop is at page `k`. -/
  | exitPage (k : ℕ)
  /-- The process is a `ZOMBIE`. -/
  | exitZombie
  /-- `wait_lock` is given back. -/
  | exitDone
  /-- `state_lock` is taken. -/
  | enter (kind : Kind) (i : PageNo)
  /-- The lock of the process is taken, or was before. -/
  | mark (kind : Kind) (i : PageNo)
  /-- The flag of the process is written. -/
  | marked (kind : Kind) (i : PageNo)
  /-- Next the counter is loaded. -/
  | load (kind : Kind) (i : PageNo)
  /-- The counter was loaded. -/
  | store (kind : Kind) (i : PageNo) (n : Int32)
  /-- The counter is stored. -/
  | finish (kind : Kind) (i : PageNo)
  /-- The entry of the page is written. -/
  | leave (kind : Kind) (i : PageNo)
  /-- The lock of the process is given back; next `state_lock` is. -/
  | unlock (kind : Kind) (i : PageNo)
  /-- `shmem_write_int`: the state was checked. -/
  | writeEnter (i : PageNo) (index value : Int32)
  /-- The lock of the process is taken. -/
  | writeAccess (i : PageNo) (index value : Int32)
  /-- The access was checked. -/
  | writeChecked (i : PageNo) (index value : Int32)
  /-- The lock of the process is given back. -/
  | writeLock (i : PageNo) (index value : Int32)
  /-- The lock of the page is taken. -/
  | writeStore (i : PageNo) (index value : Int32)
  /-- The value is stored. -/
  | writeUnlock (i : PageNo)
  /-- `shmem_read_int`: the state was checked, and was `st`. -/
  | readAccess (i : PageNo) (index : Int32) (st : PageState)
  /-- The access was checked. -/
  | readState (i : PageNo) (index : Int32) (st : PageState)
  /-- The page was `WRITABLE`. -/
  | readLock (i : PageNo) (index : Int32) (st : PageState)
  /-- Next the value is loaded, with the lock of the page or without. -/
  | readLoad (i : PageNo) (index : Int32) (st : PageState) (locked : Bool)
  /-- The value was loaded, with the lock of the page. -/
  | readUnlock (i : PageNo)
  deriving DecidableEq

/-- The state: the tables, the locks, and where each process is. -/
structure IState where
  /-- The tables and memory. -/
  kern : State
  /-- Where each process is. -/
  pc : Slot → Pc
  /-- Who holds `state_lock` of a page. -/
  stateLock : PageNo → Option Slot
  /-- Who holds `lock` of a page. -/
  pageLock : PageNo → Option Slot
  /-- Who holds the lock of a slot. -/
  procLock : Slot → Option Slot
  /-- Who holds `wait_lock`. -/
  waitLock : Option Slot

namespace IState

/-- Process `p` goes to `c`. -/
def go (s : IState) (p : Slot) (c : Pc) : IState := { s with pc := update s.pc p c }

/-- `p` takes, or gives back, `state_lock` of page `i`. -/
def setStateLock (s : IState) (i : PageNo) (o : Option Slot) : IState :=
  { s with stateLock := update s.stateLock i o }

/-- The same for `lock` of page `i`. -/
def setPageLock (s : IState) (i : PageNo) (o : Option Slot) : IState :=
  { s with pageLock := update s.pageLock i o }

/-- The same for the lock of slot `q`. -/
def setProcLock (s : IState) (q : Slot) (o : Option Slot) : IState :=
  { s with procLock := update s.procLock q o }

/-- The entry of slot `q` becomes `c`. -/
def setProc (s : IState) (q : Slot) (c : Proc) : IState := { s with kern := s.kern.setProc q c }

/-- The entry of page `i` becomes `g`. -/
def setShmem (s : IState) (i : PageNo) (g : Shmem) : IState := { s with kern := s.kern.setShmem i g }

/-- The flag of slot `q` for page `i` becomes `b`. -/
def setFlag (s : IState) (q : Slot) (i : PageNo) (b : Bool) : IState :=
  s.setProc q { s.kern.proc q with shmemAccess := update (s.kern.proc q).shmemAccess i b }

/-- The counter of page `i` becomes `n`. -/
def setUsers (s : IState) (i : PageNo) (n : Int32) : IState :=
  s.setShmem i { s.kern.shmem i with numberofusers := n }

/-- Page `i` is cleared: `NOT_SET`, no group's, and zero. -/
def clear (s : IState) (i : PageNo) : IState :=
  { s with kern :=
      { s.kern.setShmem i { s.kern.shmem i with state := .notSet, usingTopPid := -1 } with
        mem := s.kern.mem.memset (s.kern.shmem i).phaddr 0 PGSIZE } }

end IState

/-! ### Steps of a call -/

/-- The checks of a call that has taken `state_lock`; then it takes the lock of the process. If the page is not
set, `shmem_acquire_access` gives up. -/
def stepEnter (p : Slot) (s : IState) (kind : Kind) (i : PageNo) : Option IState :=
  let locked := if s.procLock p = none then some ((s.setProcLock p (some p)).go p (.mark kind i)) else none
  match kind with
  | .set _ => if (s.kern.shmem i).state = .notSet then locked else none
  | .acquire => if (s.kern.shmem i).state = .notSet then some (s.go p (.unlock .acquire i)) else locked
  | .release => if (s.kern.shmem i).state ≠ .notSet ∧ 0 < (s.kern.shmem i).numberofusers then locked else none
  | .exit => none

/-- Write the flag of the process, having checked the group or the flag. -/
def stepMark (p : Slot) (s : IState) (kind : Kind) (i : PageNo) : Option IState :=
  match kind with
  | .set w =>
    if (s.kern.shmem i).usingTopPid = -1 ∨ (s.kern.shmem i).usingTopPid = (s.kern.proc p).topPid then
      let s := s.setShmem i { s.kern.shmem i with usingTopPid := (s.kern.proc p).topPid }
      let s := s.setProc p { s.kern.proc p with shmemAccessCount := (s.kern.proc p).shmemAccessCount + 1 }
      some ((s.setFlag p i true).go p (.marked (.set w) i))
    else none
  | .acquire =>
    if (s.kern.proc p).shmemAccess i = false ∧ (s.kern.proc p).topPid = (s.kern.shmem i).usingTopPid then
      some ((s.setFlag p i true).go p (.marked .acquire i))
    else none
  | .release =>
    if (s.kern.proc p).shmemAccess i = true then some ((s.setFlag p i false).go p (.marked .release i)) else none
  | .exit => none

/-- The call clears the page when it has stored the counter: nobody uses the page any more, and in `exit` the
page is of the group of the process. -/
def Clears (p : Slot) (s : IState) (i : PageNo) : Kind → Prop
  | .set _ | .acquire => False
  | .release => (s.kern.shmem i).numberofusers = 0
  | .exit => (s.kern.shmem i).numberofusers = 0 ∧ (s.kern.shmem i).usingTopPid = (s.kern.proc p).topPid

instance (p : Slot) (s : IState) (i : PageNo) : DecidablePred (Clears p s i)
  | .set _ | .acquire => inferInstanceAs (Decidable False)
  | .release => inferInstanceAs (Decidable (_ = _))
  | .exit => inferInstanceAs (Decidable (_ ∧ _))

/-- Write the entry of the page. `shmem_set_writable` initialises the lock of the page. -/
def stepFinish (p : Slot) (s : IState) (kind : Kind) (i : PageNo) : IState :=
  let s :=
    match kind with
    | .set true => (s.setShmem i { s.kern.shmem i with state := .writable }).setPageLock i none
    | .set false => s.setShmem i { s.kern.shmem i with state := .unwritable }
    | .acquire | .release | .exit => if Clears p s i kind then s.clear i else s
  s.go p (.leave kind i)

/-- Give the lock of the process back, if the call still has it. -/
def stepLeave (p : Slot) (s : IState) (kind : Kind) (i : PageNo) : IState :=
  let s :=
    match kind with
    | .acquire | .release => s.setProcLock p none
    | .set _ | .exit => s
  s.go p (.unlock kind i)

/-- Give `state_lock` back. -/
def stepUnlock (p : Slot) (s : IState) (kind : Kind) (i : PageNo) : IState :=
  (s.setStateLock i none).go p (if kind = .exit then .exitPage (i + 1) else .idle)

/-- The loop of `fork` at page `k`: the child gets the flag of the parent. After the last page the lock of the
child is given back. -/
def stepForkPage (p : Slot) (s : IState) (np : Slot) (k : ℕ) : IState :=
  if h : k < SHMEM then
    let b := (s.kern.proc p).shmemAccess ⟨k, h⟩
    (s.setFlag np ⟨k, h⟩ b).go p (if b then .forkLoad np ⟨k, h⟩ else .forkPage np (k + 1))
  else (s.setProcLock np none).go p .idle

/-- The loop of `exit` at page `k`: take `state_lock` and look at the flag. After the last page the process is
a `ZOMBIE`. -/
def stepExitPage (p : Slot) (s : IState) (k : ℕ) : Option IState :=
  if h : k < SHMEM then
    if s.stateLock ⟨k, h⟩ = none then
      some ((s.setStateLock ⟨k, h⟩ (some p)).go p
        (if (s.kern.proc p).shmemAccess ⟨k, h⟩ then .load .exit ⟨k, h⟩ else .finish .exit ⟨k, h⟩))
    else none
  else some ((s.setProc p { s.kern.proc p with state := .zombie }).go p .exitZombie)

/-- The next step of process `p` in its call; `none` if it has to wait for a lock, panics, or is in no call. -/
def next (p : Slot) (s : IState) : Option IState :=
  match s.pc p with
  | .idle => none
  | .forkAlloc np => some ((s.setProcLock np none).go p (.forkLink np))
  | .forkLink np =>
    if s.waitLock = none then
      let c := { s.kern.proc np with parent := some p, topPid := (s.kern.proc p).topPid }
      some (({ s with waitLock := some p }.setProc np c).go p (.forkLinked np))
    else none
  | .forkLinked np => some ({ s with waitLock := none }.go p (.forkRun np))
  | .forkRun np =>
    if s.procLock np = none then
      let s := s.setProcLock np (some p)
      some ((s.setProc np { s.kern.proc np with state := .runnable }).go p (.forkPage np 0))
    else none
  | .forkPage np k => some (stepForkPage p s np k)
  | .forkLoad np i => some (s.go p (.forkStore np i (s.kern.shmem i).numberofusers))
  | .forkStore np i n => some ((s.setUsers i (n + 1)).go p (.forkPage np (i + 1)))
  | .exitLock => if s.procLock p = none then some ((s.setProcLock p (some p)).go p (.exitPage 0)) else none
  | .exitPage k => stepExitPage p s k
  | .exitZombie => some ({ s with waitLock := none }.go p .exitDone)
  | .exitDone => some ((s.setProcLock p none).go p .idle)
  | .enter kind i => stepEnter p s kind i
  | .mark kind i => stepMark p s kind i
  | .marked kind i =>
    match kind with
    | .set w => some ((s.setProcLock p none).go p (.load (.set w) i))
    | .acquire | .release | .exit => some (s.go p (.load kind i))
  | .load kind i => some (s.go p (.store kind i (s.kern.shmem i).numberofusers))
  | .store kind i n => some ((s.setUsers i (kind.update n)).go p (.finish kind i))
  | .finish kind i => some (stepFinish p s kind i)
  | .leave kind i => some (stepLeave p s kind i)
  | .unlock kind i => some (stepUnlock p s kind i)
  | .writeEnter i index value =>
    if s.procLock p = none then some ((s.setProcLock p (some p)).go p (.writeAccess i index value)) else none
  | .writeAccess i index value =>
    if (s.kern.proc p).shmemAccess i = true then some (s.go p (.writeChecked i index value)) else none
  | .writeChecked i index value => some ((s.setProcLock p none).go p (.writeLock i index value))
  | .writeLock i index value =>
    if s.pageLock i = none then some ((s.setPageLock i (some p)).go p (.writeStore i index value)) else none
  | .writeStore i index value =>
    let m := s.kern.mem.storeInt (s.kern.wordAddr i index) value
    some ({ s with kern := { s.kern with mem := m } }.go p (.writeUnlock i))
  | .writeUnlock i => some ((s.setPageLock i none).go p .idle)
  | .readAccess i index st =>
    if (s.kern.proc p).shmemAccess i = true then some (s.go p (.readState i index st)) else none
  | .readState i index st =>
    match (s.kern.shmem i).state with
    | .unwritable => some (s.go p (.readLoad i index st false))
    | .writable => some (s.go p (.readLock i index st))
    | .notSet => none
  | .readLock i index st =>
    if s.pageLock i = none then some ((s.setPageLock i (some p)).go p (.readLoad i index st true)) else none
  | .readLoad i _ _ locked => some (s.go p (if locked then .readUnlock i else .idle))
  | .readUnlock i => some ((s.setPageLock i none).go p .idle)

theorem next_idle {p : Slot} {s : IState} (h : s.pc p = .idle) : next p s = none := by simp only [next, h]

/-! ### The machine -/

/-- What a process can do: begin a call, or go on with it. -/
inductive Act where
  /-- Begin `fork`, with `np` as the slot of the child. -/
  | fork (np : Slot)
  /-- Begin `exit`. -/
  | exit
  /-- Begin a call that changes a counter. -/
  | call (kind : Kind) (i : PageNo)
  /-- Begin `shmem_write_int`. -/
  | write (i : PageNo) (index value : Int32)
  /-- Begin `shmem_read_int`. -/
  | read (i : PageNo) (index : Int32)
  /-- `shmem_set_init_int`. -/
  | setInit (i : PageNo) (index value : Int32)
  /-- `exec`, as far as it makes the process the top of its group. -/
  | exec
  /-- `wait`, for the exited child `pp`. -/
  | wait (pp : Slot)
  /-- `fork` finds no memory and gives the slot back. -/
  | abort
  /-- The next step of the call. -/
  | next
  deriving DecidableEq

/-- A process that can begin a call: it is in none, it has been created in full and has not exited, and nobody
has its lock. -/
def CanBegin (s : IState) (p : Slot) : Prop :=
  s.pc p = .idle ∧ (s.kern.proc p).live = true ∧ (s.kern.proc p).state ≠ .used ∧ s.procLock p = none

instance (s : IState) (p : Slot) : Decidable (CanBegin s p) := inferInstanceAs (Decidable (_ ∧ _ ∧ _ ∧ _))

/-- Begin a call. -/
def begin (p : Slot) (s : IState) : Act → Option IState
  | .fork np =>
    if (s.kern.proc np).state = .unused ∧ s.procLock np = none then
      some (({ s with kern := allocproc np s.kern }.setProcLock np (some p)).go p (.forkAlloc np))
    else none
  | .exit =>
    if p ≠ s.kern.initproc ∧ s.waitLock = none then
      some ({ s with kern := reparent p s.kern, waitLock := some p }.go p .exitLock)
    else none
  | .call kind i =>
    if kind ≠ .exit ∧ s.stateLock i = none then some ((s.setStateLock i (some p)).go p (.enter kind i)) else none
  | .write i index value =>
    if (s.kern.shmem i).state = .writable then some (s.go p (.writeEnter i index value)) else none
  | .read i index =>
    if (s.kern.shmem i).state ≠ .notSet then some (s.go p (.readAccess i index (s.kern.shmem i).state)) else none
  | .setInit i index value =>
    if s.stateLock i = none then
      match shmemSetInitInt i index value p s.kern with
      | .ok t => some { s with kern := t }
      | .error _ => none
    else none
  | .exec => some { s with kern := (Kernel.exec none p s.kern).2 }
  | .wait pp =>
    if (s.kern.proc pp).parent = some p ∧ (s.kern.proc pp).state = .zombie ∧ s.procLock pp = none ∧
        s.waitLock = none then
      some { s with kern := freeproc pp s.kern }
    else none
  | .abort | .next => none

/-- A step of process `p`. -/
def istep (p : Slot) (s : IState) : Act → Option IState
  | .next => next p s
  | .abort =>
    match s.pc p with
    | .forkAlloc np => some (({ s with kern := freeproc np s.kern }.setProcLock np none).go p .idle)
    | _ => none
  | act => if CanBegin s p then begin p s act else none

/-- The state after start. -/
def iboot (base : ℤ) (m : Mem) : IState where
  kern := boot base m
  pc := fun _ => .idle
  stateLock := fun _ => none
  pageLock := fun _ => none
  procLock := fun _ => none
  waitLock := none

/-- **The machine of the steps of all processes**, in any order. -/
def imachine (base : ℤ) (m : Mem) : LTS IState (Slot × Act) where
  init := fun s => s = iboot base m
  step := fun s e s' => istep e.1 s e.2 = some s'

/-- The trace of a list of steps and the state after them. -/
def traceActs : IState → List (Slot × Act) → Option (List (IState × Slot × Act) × IState) :=
  LTS.traceOf (fun s e => istep e.1 s e.2) fun _ _ => true

theorem traceActs_iboot {base : ℤ} {m : Mem} {t : IState} {l : List (Slot × Act)}
    {tr : List (IState × Slot × Act)} (h : traceActs (iboot base m) l = some (tr, t)) :
    (imachine base m).Run (iboot base m) tr t :=
  LTS.run_of_traceOf (fun _ _ _ _ hs => hs) h

/-- `n` steps of process `p`. -/
def steps (n : ℕ) (p : Slot) : List (Slot × Act) := List.replicate n (p, .next)

end Xv6Shmem.Interaction
