import Xv6Shmem.Kernel.Table
import Xv6Shmem.Theory.Program
import Xv6Shmem.Theory.Runs

/-!
# The spinlocks of the process code

What `kernel/proc.c` does with spinlocks, with the scheduler that every CPU runs and the
interrupts that come in between.

## The model

An agent is the kernel thread of a process or the scheduler of a CPU. Its code is a program
over the commands that matter to locks: to take one, which it can do only when nobody has
it, to give one back, to look at or set the state of a process, and to switch between a
process and the scheduler. At a switch the lock `p->lock` goes over from one to the other,
as both run on the same CPU. A thread that holds a lock has `noff` above zero; interrupts are
off then, and `sched` panics unless it is `1`.

Every other test in the code is left open: `ask` may be answered either way, and `count` by
any number. So a run of the machine goes through the code in any way that the data could make
it go, and more. The states of the processes are kept, as it is they that keep two CPUs from
running one process.

Left out are the locks of the parts below that are taken and given back before the next
command here: those of the console, the log and the buffer cache, of pipes and sleep-locks.
They appear as a lock `chan` that guards what a process sleeps on, in `sleepOn` and
`wakeupOn`, which have the shape of all their uses of `sleep` and `wakeup`. What `exit` does
before it takes `wait_lock` consists of such uses.
-/

namespace Xv6Shmem.Locking

open Function (update)
open Kernel

/-- `NCPU`: the number of CPUs. -/
abbrev NCPU : ℕ := 8

/-- The spinlocks. -/
inductive Lock where
  /-- `wait_lock`. -/
  | wait
  /-- `pid_lock`. -/
  | pid
  /-- `kmem.lock`. -/
  | kmem
  /-- `ftable.lock`. -/
  | ftable
  /-- `itable.lock`. -/
  | itable
  /-- `p->lock`. -/
  | proc (q : Slot)
  /-- `state_lock` of a shared page. -/
  | state (i : PageNo)
  /-- `lock` of a shared page. -/
  | page (i : PageNo)
  /-- A lock that guards what a process sleeps on: `tickslock`, that of a pipe, of a sleep-lock. -/
  | chan (c : ℕ)
  deriving DecidableEq

/-- Who can hold a lock. -/
inductive Agent where
  /-- The kernel thread of a process. -/
  | proc (p : Slot)
  /-- The scheduler of a CPU. -/
  | cpu (c : Fin NCPU)
  deriving DecidableEq

/-- What the code does. -/
inductive Cmd where
  /-- `acquire`. -/
  | acquire (l : Lock)
  /-- `release`. -/
  | release (l : Lock)
  /-- `initlock`. -/
  | initlock (l : Lock)
  /-- Is `p->state` this state? -/
  | test (q : Slot) (st : ProcState)
  /-- `p->state` becomes this state. -/
  | set (q : Slot) (st : ProcState)
  /-- A test of what is not kept. -/
  | ask
  /-- How often a loop is made, by what is not kept. -/
  | count
  /-- The context of `q` is made to start in `forkret`. -/
  | start (q : Slot)
  /-- `sched`: from the process to the scheduler of its CPU. -/
  | sched
  /-- `swtch` in the scheduler: to process `q`. -/
  | switchTo (q : Slot)
  /-- `panic`. -/
  | panic

/-- What a command answers. -/
def Cmd.Res : Cmd → Type
  | .test _ _ | .ask => Bool
  | .count => ℕ
  | .panic => Empty
  | _ => Unit

/-- Code of the kernel. -/
abbrev Code := Prog Cmd.Res

/-- Where a thread goes on when it has come to the end of its code. -/
inductive Label where
  /-- User code, which makes the next call. -/
  | user
  /-- The loop of `wait`. -/
  | waitLoop
  /-- The loop of a process that sleeps until a condition holds. -/
  | sleepLoop (c : ℕ)
  /-- The loop of the scheduler. -/
  | scheduler
  deriving DecidableEq

/-! ### Commands -/

def acquire (l : Lock) : Code Unit := Prog.call (Cmd.acquire l)

def release (l : Lock) : Code Unit := Prog.call (Cmd.release l)

def initlock (l : Lock) : Code Unit := Prog.call (Cmd.initlock l)

def test (q : Slot) (st : ProcState) : Code Bool := Prog.call (Cmd.test q st)

def set (q : Slot) (st : ProcState) : Code Unit := Prog.call (Cmd.set q st)

def ask : Code Bool := Prog.call Cmd.ask

def count : Code ℕ := Prog.call Cmd.count

def start (q : Slot) : Code Unit := Prog.call (Cmd.start q)

def sched : Code Unit := Prog.call Cmd.sched

def switchTo (q : Slot) : Code Unit := Prog.call (Cmd.switchTo q)

def panic {α : Type} : Code α := Prog.op Cmd.panic Empty.elim

/-- `panic` if a test that is left open says so. -/
def check : Code Unit := do
  if ← ask then panic

/-! ### Memory, files and slots -/

/-- Take a lock and give it back. -/
def brief (l : Lock) : Code Unit := do
  acquire l
  release l

/-- The calls of `kalloc` and `kfree` that a function makes. -/
def useMemory : Code Unit := do
  let n ← count
  forM (List.replicate n Lock.kmem) brief

/-- `allocpid`. -/
def allocpid : Code Unit := brief .pid

/-- `freeproc`. -/
def freeproc (q : Slot) : Code Unit := do
  useMemory
  set q .unused

/-- `allocproc` from its label `found` on. -/
def allocprocFound (q : Slot) : Code (Option Slot) := do
  allocpid
  set q .used
  -- the trapframe page and the page table; either may fail
  useMemory
  if ← ask then
    start q
    return some q
  else
    freeproc q
    release (.proc q)
    return none

/-- The search of `allocproc`. It returns with the lock of the slot held. -/
def allocprocFrom : List Slot → Code (Option Slot)
  | [] => return none
  | q :: qs => do
    acquire (.proc q)
    if ← test q .unused then allocprocFound q
    else
      release (.proc q)
      allocprocFrom qs

/-- `allocproc`. -/
def allocproc : Code (Option Slot) := allocprocFrom (List.finRange NPROC)

/-! ### Sleep and wakeup -/

/-- `sleep`, under lock `l`. -/
def sleep (p : Slot) (l : Lock) : Code Unit := do
  acquire (.proc p)
  release l
  set p .sleeping
  sched
  release (.proc p)
  acquire l

/-- The body of `wakeup`'s loop. The channel is not kept. -/
def wakeupOne (q : Slot) : Code Unit := do
  acquire (.proc q)
  if ← test q .sleeping then
    if ← ask then set q .runnable
  release (.proc q)

/-- `wakeup`, by the process `me` or by a scheduler that takes an interrupt. -/
def wakeup (me : Option Slot) : Code Unit :=
  forM ((List.finRange NPROC).filter fun q => some q ≠ me) wakeupOne

/-- `yield`. -/
def yield (p : Slot) : Code Unit := do
  acquire (.proc p)
  set p .runnable
  sched
  release (.proc p)

/-- `killed` and `setkilled`, of the calling process. -/
def killed (p : Slot) : Code Bool := do
  brief (.proc p)
  ask

/-- A use of `wakeup`, under the lock of the channel, as in `clockintr`, `releasesleep` or `pipewrite`. -/
def wakeupOn (me : Option Slot) (c : ℕ) : Code Unit := do
  acquire (.chan c)
  wakeup me
  release (.chan c)

/-- A process waits for a condition, as in `sys_sleep`, `acquiresleep` or `piperead`. -/
def sleepOn (c : ℕ) : Code Label := do
  acquire (.chan c)
  return .sleepLoop c

/-- `killed`, where the function looks at it at all. -/
def checkKilled (p : Slot) : Code Bool := do
  if ← ask then killed p else return false

/-- The loop: the condition holds, or the process was killed, or it sleeps. -/
def sleepLoop (p : Slot) (c : ℕ) : Code Label := do
  if ← ask then
    release (.chan c)
    return .user
  else if ← checkKilled p then
    release (.chan c)
    return .user
  else
    sleep p (.chan c)
    return .sleepLoop c

/-! ### Processes -/

/-- `fork`. -/
def fork : Code Label := do
  match ← allocproc with
  | none => return .user
  | some np =>
    useMemory
    if ← ask then
      -- `filedup` for every open file, and `idup`
      let n ← count
      forM (List.replicate n Lock.ftable) brief
      brief .itable
      release (.proc np)
      brief .wait
      acquire (.proc np)
      set np .runnable
      release (.proc np)
      return .user
    else
      -- no memory for the child
      freeproc np
      release (.proc np)
      return .user

/-- `reparent`, which wakes up the first process for each child that it gets. -/
def reparent (p : Slot) : Code Unit :=
  forM (List.finRange NPROC) fun _ => do
    if ← ask then wakeup (some p)

/-- `exit`, from where it takes `wait_lock`. -/
def exit (p : Slot) : Code Label := do
  if p = 0 then panic
  else
    acquire .wait
    reparent p
    wakeup (some p)
    acquire (.proc p)
    forM ((List.finRange SHMEM).map Lock.state) brief
    set p .zombie
    release .wait
    sched
    panic

/-- The scan of `wait` for a child that has exited: whether there are children, or `none` if the call is over. -/
def waitScan : List Slot → Bool → Code (Option Bool)
  | [], havekids => return some havekids
  | pp :: pps, havekids => do
    if ← ask then
      -- `pp` is a child
      acquire (.proc pp)
      if ← test pp .zombie then
        if ← ask then
          freeproc pp
          release (.proc pp)
          release .wait
          return none
        else
          -- the status could not be copied out
          release (.proc pp)
          release .wait
          return none
      else
        release (.proc pp)
        waitScan pps true
    else waitScan pps havekids

/-- The loop of `wait`. -/
def waitLoop (p : Slot) : Code Label := do
  match ← waitScan (List.finRange NPROC) false with
  | none => return .user
  | some false =>
    release .wait
    return .user
  | some true =>
    if ← killed p then
      release .wait
      return .user
    else
      sleep p .wait
      return .waitLoop

/-- `wait`. -/
def wait : Code Label := do
  acquire .wait
  return .waitLoop

/-- `kill`. -/
def kill : List Slot → Code Label
  | [] => return .user
  | q :: qs => do
    acquire (.proc q)
    if ← ask then
      -- this is the process with the pid
      if ← test q .sleeping then set q .runnable
      release (.proc q)
      return .user
    else
      release (.proc q)
      kill qs

/-- `forkret`. -/
def forkret (p : Slot) : Code Label := do
  release (.proc p)
  return .user

/-- A turn of the scheduler's loop over the processes. -/
def scheduleOne (p : Slot) : Code Unit := do
  acquire (.proc p)
  if ← test p .runnable then
    set p .running
    switchTo p
  release (.proc p)

/-- `scheduler`. -/
def scheduler : Code Label := do
  forM (List.finRange NPROC) scheduleOne
  return .scheduler

/-! ### Shared pages -/

/-- `shmem_set_writable`, which makes the lock of the page new, and `shmem_set_unwritable`. -/
def shmemSet (writable : Bool) (p : Slot) (i : PageNo) : Code Label := do
  acquire (.state i)
  check
  acquire (.proc p)
  check
  release (.proc p)
  if writable then initlock (.page i)
  release (.state i)
  return .user

/-- `shmem_set_init_int`. -/
def shmemSetInitInt (p : Slot) (i : PageNo) : Code Label := do
  acquire (.state i)
  check
  acquire (.proc p)
  check
  release (.proc p)
  release (.state i)
  return .user

/-- `shmem_write_int`. -/
def shmemWriteInt (p : Slot) (i : PageNo) : Code Label := do
  check
  acquire (.proc p)
  check
  release (.proc p)
  brief (.page i)
  return .user

/-- `shmem_read_int`. -/
def shmemReadInt (i : PageNo) : Code Label := do
  check
  if ← ask then
    -- the page is `UNWRITABLE`
    return .user
  else
    check
    brief (.page i)
    return .user

/-- `shmem_acquire_access`. -/
def shmemAcquireAccess (p : Slot) (i : PageNo) : Code Label := do
  acquire (.state i)
  if ← ask then
    -- the page is not set
    release (.state i)
    return .user
  else
    acquire (.proc p)
    check
    release (.proc p)
    release (.state i)
    return .user

/-- `shmem_release_access`. -/
def shmemReleaseAccess (p : Slot) (i : PageNo) : Code Label := do
  acquire (.state i)
  check
  acquire (.proc p)
  check
  release (.proc p)
  release (.state i)
  return .user

/-- `get_shmem_access`, of the calling process. -/
def getShmemAccess (p : Slot) : Code Label := do
  check
  acquire (.proc p)
  useMemory
  release (.proc p)
  return .user

/-- What user code can have the kernel do. -/
inductive Call where
  | fork
  | exit
  | wait
  | kill
  | killed
  | shmemSet (writable : Bool) (i : PageNo)
  | shmemSetInitInt (i : PageNo)
  | shmemWriteInt (i : PageNo)
  | shmemReadInt (i : PageNo)
  | shmemAcquireAccess (i : PageNo)
  | shmemReleaseAccess (i : PageNo)
  | shmemAccess (i : PageNo)
  | memory
  | sleepOn (c : ℕ)
  | wakeupOn (c : ℕ)

/-- The code of a call by process `p`. -/
def Call.code (p : Slot) : Call → Code Label
  | .fork => Locking.fork
  | .exit => Locking.exit p
  | .wait => Locking.wait
  | .kill => Locking.kill (List.finRange NPROC)
  | .killed => do
    let _ ← Locking.killed p
    return .user
  | .shmemSet writable i => Locking.shmemSet writable p i
  | .shmemSetInitInt i => Locking.shmemSetInitInt p i
  | .shmemWriteInt i => Locking.shmemWriteInt p i
  | .shmemReadInt i => Locking.shmemReadInt i
  | .shmemAcquireAccess i => Locking.shmemAcquireAccess p i
  | .shmemReleaseAccess i => Locking.shmemReleaseAccess p i
  | .shmemAccess _ => Locking.getShmemAccess p
  | .memory => do
    -- `sbrk` and `exec`
    useMemory
    return .user
  | .sleepOn c => Locking.sleepOn c
  | .wakeupOn c => do
    Locking.wakeupOn (some p) c
    return .user

/-! ### The machine -/

/-- The state. -/
structure LockState where
  /-- Who holds a lock. -/
  holder : Lock → Option Agent
  /-- The depth of `push_off` in a thread. -/
  noff : Agent → ℕ
  /-- `p->state`. -/
  state : Slot → ProcState
  /-- The process that a CPU runs; if there is none, it runs its scheduler. -/
  on : Fin NCPU → Option Slot
  /-- What a thread has to do. -/
  code : Agent → Code Label

/-- The CPU that runs a process. -/
def LockState.cpuOf (s : LockState) (p : Slot) : Option (Fin NCPU) :=
  (List.finRange NCPU).find? fun c => s.on c = some p

/-- The thread has a CPU. -/
def LockState.active (s : LockState) : Agent → Bool
  | .proc p => (s.cpuOf p).isSome
  | .cpu c => s.on c = none

/-- The thread goes on with `x`. -/
def LockState.go (s : LockState) (a : Agent) (x : Code Label) : LockState :=
  { s with code := update s.code a x }

/-- What command `c` of thread `a` does; what is left open is answered by `n`. -/
def LockState.exec (s : LockState) (a : Agent) (n : ℕ) : (c : Cmd) → Option (c.Res × LockState)
  | .acquire l =>
    if s.holder l = none then
      some ((), { s with holder := update s.holder l (some a), noff := update s.noff a (s.noff a + 1) })
    else none
  | .release l =>
    if s.holder l = some a then
      some ((), { s with holder := update s.holder l none, noff := update s.noff a (s.noff a - 1) })
    else none
  | .initlock l => some ((), { s with holder := update s.holder l none })
  | .test q st => some (decide (s.state q = st), s)
  | .set q st => some ((), { s with state := update s.state q st })
  | .ask => some (decide (n ≠ 0), s)
  | .count => some (n, s)
  | .start q =>
    some ((), { s with noff := update s.noff (.proc q) 1, code := update s.code (.proc q) (forkret q) })
  | .sched =>
    match a with
    | .proc p =>
      if s.holder (.proc p) = some a ∧ s.noff a = 1 ∧ s.state p ≠ .running then
        (s.cpuOf p).map fun c =>
          ((), { s with on := update s.on c none, holder := update s.holder (.proc p) (some (.cpu c)) })
      else none
    | .cpu _ => none
  | .switchTo q =>
    match a with
    | .proc _ => none
    | .cpu c =>
      some ((), { s with on := update s.on c (some q), holder := update s.holder (.proc q) (some (.proc q)) })
  | .panic => none

/-- The code at a label; user code makes a call when it likes. -/
def Label.code : Agent → Label → Option (Code Label)
  | .proc p, .waitLoop => some (Locking.waitLoop p)
  | .proc p, .sleepLoop c => some (Locking.sleepLoop p c)
  | .cpu _, .scheduler => some Locking.scheduler
  | _, _ => none

/-- The steps. -/
inductive Act where
  /-- The thread does what is next. -/
  | run (a : Agent) (n : ℕ)
  /-- User code makes a call. -/
  | begin (p : Slot) (call : Call)
  /-- A device interrupts the thread, and wakes up those who sleep on `c`. -/
  | interrupt (a : Agent) (c : ℕ)
  /-- The timer interrupts the thread of a process, which yields. -/
  | timer (p : Slot)

/-- The process that runs in a thread, `myproc()`. -/
def Agent.myproc : Agent → Option Slot
  | .proc p => some p
  | .cpu _ => none

/-- A step of the thread itself. -/
def LockState.run (s : LockState) (a : Agent) (n : ℕ) : Option LockState :=
  match s.code a with
  | .ret l => (l.code a).map (s.go a)
  | .op c k => (s.exec a n c).map fun x => x.2.go a (k x.1)

/-- A step. -/
def LockState.step (s : LockState) : Act → Option LockState
  | .run a n => if s.active a then s.run a n else none
  | .begin p call =>
    match s.code (.proc p) with
    | .ret .user => if s.active (.proc p) then some (s.go (.proc p) (call.code p)) else none
    | _ => none
  | .interrupt a c =>
    if s.active a ∧ s.noff a = 0 then some (s.go a (wakeupOn a.myproc c >>= fun _ => s.code a)) else none
  | .timer p =>
    if s.active (.proc p) ∧ s.noff (.proc p) = 0 then some (s.go (.proc p) (yield p >>= fun _ => s.code (.proc p)))
    else none

/-- The state after `userinit`: the first process, in slot `0`, can run, and every CPU is in its scheduler. -/
def LockState.boot : LockState where
  holder := fun _ => none
  noff := fun a => if a.myproc = none then 0 else 1
  state := fun q => if q = 0 then .runnable else .unused
  on := fun _ => none
  code := fun a =>
    match a with
    | .proc p => if p = 0 then forkret p else panic
    | .cpu _ => .ret .scheduler

/-- The machine. -/
def lockMachine : LTS LockState Act where
  init := fun s => s = .boot
  step := fun s act t => s.step act = some t

/-- The thread waits for a lock: to take it is what it has to do next. -/
def Waits (s : LockState) (a : Agent) (l : Lock) : Prop := ∃ k, s.code a = .op (.acquire l) k

/-- The thread holds a lock. -/
def Holds (s : LockState) (a : Agent) (l : Lock) : Prop := s.holder l = some a

end Xv6Shmem.Locking
