import Xv6Shmem.Kernel.Table
import Xv6Shmem.Theory.Program
import Xv6Shmem.Theory.Ring
import Xv6Shmem.Theory.Runs

/-!
# Sleeping, waking and killing

`sleep`, `wakeup`, `kill` and `killed` of `kernel/proc.c`, `kernel/pipe.c`, and the loops that
sleep in `wait`, `consoleread` and `sys_sleep`.

## The model

The state has the spinlocks with their holders, the state, channel and mark of each process, and
one pipe. A command is what a process does between two points at which another one may come in.
The functions of the source are programs over the commands, and run step by step, interleaved
with those of other processes. A program ends at the top of a loop, or in user code, where the
process makes its next call.

`p->lock` goes over to the scheduler at `sched` and is given back there; the process goes on
when a scheduler has found it `RUNNABLE` and its lock free. Whether another process is running
on the same CPU meanwhile makes no difference to what is modelled here: a process that is
neither asleep nor waiting for a lock may take a step at any time.

What the user memory is, which process has the pid that `kill` is given, whether there is input
or a child, and how late it is, is left open: `copyin`, `copyout` and `ask` may be answered in
any way, and the answer is part of the label of the step. `wakeupOn` stands for the uses of
`wakeup` outside of `pipe.c`: in `clockintr`, `consoleintr` and `exit`.
-/

namespace Xv6Shmem.Sleeping

open Function Kernel

/-- `PIPESIZE`. -/
def PIPESIZE : ℕ := 512

instance : NeZero PIPESIZE := ⟨by decide⟩

/-- What a process sleeps on. -/
inductive Chan where
  /-- `&pi->nread`. -/
  | nread
  /-- `&pi->nwrite`. -/
  | nwrite
  /-- `&ticks`. -/
  | ticks
  /-- `&cons.r`. -/
  | cons
  /-- The process itself, in `wait`. -/
  | proc (p : Slot)
  deriving DecidableEq

/-- The locks. -/
inductive Lock where
  /-- `pi->lock`. -/
  | pipe
  /-- `tickslock`. -/
  | ticks
  /-- `cons.lock`. -/
  | cons
  /-- `wait_lock`. -/
  | wait
  /-- `p->lock`. -/
  | proc (p : Slot)
  deriving DecidableEq

/-- The lock that guards what is waited for on a channel. -/
def Chan.lock : Chan → Lock
  | .nread | .nwrite => .pipe
  | .ticks => .ticks
  | .cons => .cons
  | .proc _ => .wait

/-- `struct pipe`. -/
structure Pipe where
  data : Fin PIPESIZE → UInt8
  /-- The number of bytes read. -/
  nread : UInt32
  /-- The number of bytes written. -/
  nwrite : UInt32
  /-- The read fd is still open. -/
  readopen : Bool
  /-- The write fd is still open. -/
  writeopen : Bool

/-- A byte is written: `pi->data[pi->nwrite++ % PIPESIZE] = ch`. -/
def Pipe.put (pi : Pipe) (ch : UInt8) : Pipe :=
  { pi with data := update pi.data (Ring.cell PIPESIZE pi.nwrite) ch, nwrite := pi.nwrite + 1 }

/-- The byte that is read next. -/
def Pipe.head (pi : Pipe) : UInt8 := pi.data (Ring.cell PIPESIZE pi.nread)

/-- A byte is read: `pi->nread++`. -/
def Pipe.take (pi : Pipe) : Pipe := { pi with nread := pi.nread + 1 }

/-- An end is closed. -/
def Pipe.close (pi : Pipe) (writable : Bool) : Pipe :=
  if writable then { pi with writeopen := false } else { pi with readopen := false }

/-- A process, as far as sleeping goes. -/
structure Thread where
  state : ProcState
  /-- What it sleeps on. -/
  chan : Option Chan
  killed : Bool

/-- The shared state. -/
structure Store where
  /-- Who holds a lock. -/
  lock : Lock → Option Slot
  /-- The processes. -/
  proc : Slot → Thread
  /-- The pipe. -/
  pipe : Pipe

/-- What a process does. -/
inductive Cmd where
  | acquire (l : Lock)
  | release (l : Lock)
  /-- `p->chan = chan` and `p->state = SLEEPING`, in `sleep`. -/
  | fallAsleep (c : Chan)
  /-- `sched`: the scheduler has the CPU, and gives `p->lock` back. -/
  | sched
  /-- A scheduler takes the lock of the process, and switches to it. -/
  | resume
  /-- `p->chan = 0`. -/
  | clearChan
  /-- The test and the assignment in the loop of `wakeup`. -/
  | wake (q : Slot) (c : Chan)
  /-- `p->killed`. -/
  | isKilled
  /-- What `kill` does to the process that it has found. -/
  | kill (q : Slot)
  /-- The fields of the pipe. -/
  | pipe
  | put (ch : UInt8)
  | take
  | close (writable : Bool)
  /-- `copyin` of a byte. -/
  | copyin
  /-- `copyout` of a byte. -/
  | copyout (ch : UInt8)
  /-- A test of what is not kept. -/
  | ask

/-- What a command answers. -/
def Cmd.Res : Cmd → Type
  | .isKilled | .copyout _ | .ask => Bool
  | .pipe => Pipe
  | .take => UInt8
  | .copyin => Option UInt8
  | _ => Unit

/-- Code over the state. -/
abbrev Code := Prog Cmd.Res

/-- Where a process goes on when it has come to the end of its code. -/
inductive Label where
  /-- User code, which makes the next call, with what the last one has returned, if that is kept. -/
  | user (r : Option ℤ)
  /-- The loop of `pipewrite`, with `i` of `n` bytes written. -/
  | pipewrite (i : ℕ) (n : ℤ)
  /-- The loop of `piperead` that waits for bytes. -/
  | pipereadWait (n : ℤ)
  /-- The loop of `piperead` that copies, with `i` of `n` bytes read. -/
  | pipereadCopy (i : ℕ) (n : ℤ)
  /-- The loop of `consoleread` that waits for input. -/
  | consoleread
  /-- The loop of `sys_sleep`. -/
  | sleep
  /-- The loop of `wait`. -/
  | wait
  deriving DecidableEq

/-! ### Commands -/

def acquire (l : Lock) : Code Unit := Prog.call (Cmd.acquire l)

def release (l : Lock) : Code Unit := Prog.call (Cmd.release l)

def fallAsleep (c : Chan) : Code Unit := Prog.call (Cmd.fallAsleep c)

def sched : Code Unit := Prog.call Cmd.sched

def resume : Code Unit := Prog.call Cmd.resume

def clearChan : Code Unit := Prog.call Cmd.clearChan

def wake (q : Slot) (c : Chan) : Code Unit := Prog.call (Cmd.wake q c)

def isKilled : Code Bool := Prog.call Cmd.isKilled

def mark (q : Slot) : Code Unit := Prog.call (Cmd.kill q)

def pipe : Code Pipe := Prog.call Cmd.pipe

def put (ch : UInt8) : Code Unit := Prog.call (Cmd.put ch)

def take : Code UInt8 := Prog.call Cmd.take

def close (writable : Bool) : Code Unit := Prog.call (Cmd.close writable)

def copyin : Code (Option UInt8) := Prog.call Cmd.copyin

def copyout (ch : UInt8) : Code Bool := Prog.call (Cmd.copyout ch)

def ask : Code Bool := Prog.call Cmd.ask

/-! ### `proc.c` -/

/-- `sleep`. -/
def sleep (p : Slot) (c : Chan) (lk : Lock) : Code Unit := do
  acquire (.proc p)
  release lk
  fallAsleep c
  sched
  resume
  clearChan
  release (.proc p)
  acquire lk

/-- The body of `wakeup`'s loop. -/
def wakeupOne (c : Chan) (q : Slot) : Code Unit := do
  acquire (.proc q)
  wake q c
  release (.proc q)

/-- `wakeup`. -/
def wakeup (p : Slot) (c : Chan) : Code Unit := forM ((List.finRange NPROC).filter fun q => q ≠ p) (wakeupOne c)

/-- `killed`, of the calling process. -/
def killed (p : Slot) : Code Bool := do
  acquire (.proc p)
  let k ← isKilled
  release (.proc p)
  return k

/-- `kill`. -/
def kill : List Slot → Code Label
  | [] => return .user (some (-1))
  | q :: qs => do
    acquire (.proc q)
    if ← ask then
      -- this is the process with the pid
      mark q
      release (.proc q)
      return .user (some 0)
    else
      release (.proc q)
      kill qs

/-- The scan of `wait` for a child that has exited: whether there are children, or `none` if the call is over. -/
def waitScan : List Slot → Bool → Code (Option Bool)
  | [], havekids => return some havekids
  | pp :: pps, havekids => do
    if ← ask then
      -- `pp` is a child
      acquire (.proc pp)
      if ← ask then
        -- it has exited
        release (.proc pp)
        release .wait
        return none
      else
        release (.proc pp)
        waitScan pps true
    else waitScan pps havekids

/-- The loop of `wait`. A process is not its own child. -/
def waitLoop (p : Slot) : Code Label := do
  match ← waitScan ((List.finRange NPROC).filter fun q => q ≠ p) false with
  | none => return .user none
  | some false =>
    release .wait
    return .user (some (-1))
  | some true =>
    if ← killed p then
      release .wait
      return .user (some (-1))
    else
      sleep p (.proc p) .wait
      return .wait

/-! ### `pipe.c` -/

/-- The end of `pipewrite`. -/
def pipewriteEnd (p : Slot) (i : ℕ) : Code Label := do
  wakeup p .nread
  release .pipe
  return .user (some i)

/-- The loop of `pipewrite`. -/
def pipewriteLoop (p : Slot) (i : ℕ) (n : ℤ) : Code Label :=
  if i < n then do
    let pi ← pipe
    if pi.readopen = false then
      release .pipe
      return .user (some (-1))
    else if ← killed p then
      release .pipe
      return .user (some (-1))
    else
      let pi ← pipe
      if pi.nwrite = pi.nread + UInt32.ofNat PIPESIZE then
        wakeup p .nread
        sleep p .nwrite .pipe
        return .pipewrite i n
      else
        match ← copyin with
        | none => pipewriteEnd p i
        | some ch =>
          put ch
          return .pipewrite (i + 1) n
  else pipewriteEnd p i

/-- The loop of `piperead` that waits for bytes. -/
def pipereadWait (p : Slot) (n : ℤ) : Code Label := do
  let pi ← pipe
  if pi.nread = pi.nwrite ∧ pi.writeopen = true then
    if ← killed p then
      release .pipe
      return .user (some (-1))
    else
      sleep p .nread .pipe
      return .pipereadWait n
  else return .pipereadCopy 0 n

/-- The end of `piperead`. -/
def pipereadEnd (p : Slot) (i : ℕ) : Code Label := do
  wakeup p .nwrite
  release .pipe
  return .user (some i)

/-- The loop of `piperead` that copies. -/
def pipereadCopy (p : Slot) (i : ℕ) (n : ℤ) : Code Label :=
  if i < n then do
    let pi ← pipe
    if pi.nread = pi.nwrite then pipereadEnd p i
    else
      let ch ← take
      if ← copyout ch then return .pipereadCopy (i + 1) n
      else pipereadEnd p i
  else pipereadEnd p i

/-- `pipeclose`. -/
def pipeclose (p : Slot) (writable : Bool) : Code Label := do
  acquire .pipe
  close writable
  wakeup p (if writable then .nread else .nwrite)
  release .pipe
  return .user none

/-! ### `console.c` and `sysproc.c` -/

/-- The loop of `consoleread` that waits for input. When there is some it may go on to wait for more. -/
def consolereadLoop (p : Slot) : Code Label := do
  if ← ask then
    if ← ask then return .consoleread
    else
      release .cons
      return .user none
  else if ← killed p then
    release .cons
    return .user (some (-1))
  else
    sleep p .cons .cons
    return .consoleread

/-- The loop of `sys_sleep`, which looks at `killed` without the lock. -/
def sleepLoop (p : Slot) : Code Label := do
  if ← ask then
    release .ticks
    return .user (some 0)
  else if ← isKilled then
    release .ticks
    return .user (some (-1))
  else
    sleep p .ticks .ticks
    return .sleep

/-! ### Calls -/

/-- What a process can do next. -/
inductive Call where
  | pipewrite (n : ℤ)
  | piperead (n : ℤ)
  | pipeclose (writable : Bool)
  | kill
  | wait
  | consoleread
  | sleep
  /-- A use of `wakeup` under the lock of the channel. -/
  | wakeupOn (c : Chan)
  deriving DecidableEq

/-- The code of a call. -/
def Call.code (p : Slot) : Call → Code Label
  | .pipewrite n => do
    acquire .pipe
    return .pipewrite 0 n
  | .piperead n => do
    acquire .pipe
    return .pipereadWait n
  | .pipeclose w => Sleeping.pipeclose p w
  | .kill => Sleeping.kill (List.finRange NPROC)
  | .wait => do
    acquire .wait
    return .wait
  | .consoleread => do
    acquire .cons
    return .consoleread
  | .sleep => do
    acquire .ticks
    return .sleep
  | .wakeupOn c => do
    acquire c.lock
    wakeup p c
    release c.lock
    return .user none

/-- The code of a loop. -/
def Label.code (p : Slot) : Label → Option (Code Label)
  | .user _ => none
  | .pipewrite i n => some (pipewriteLoop p i n)
  | .pipereadWait n => some (Sleeping.pipereadWait p n)
  | .pipereadCopy i n => some (Sleeping.pipereadCopy p i n)
  | .consoleread => some (consolereadLoop p)
  | .sleep => some (sleepLoop p)
  | .wait => some (waitLoop p)

/-- Whether the process is in user code. -/
def Label.isUser : Label → Bool
  | .user _ => true
  | _ => false

/-- What the call has returned, if it has and if that is kept. -/
def Label.result : Label → Option ℤ
  | .user r => r
  | _ => none

/-- What the call returns if it is over. -/
def result : Code Label → Option ℤ
  | .ret l => l.result
  | .op _ _ => none

theorem eq_of_result {x : Code Label} {v : ℤ} (h : result x = some v) : x = .ret (.user (some v)) := by
  cases x with
  | ret l =>
    cases l with
    | user r => exact congrArg (fun r => Prog.ret (Label.user r)) h
    | _ => cases h
  | op c k => cases h

/-! ### The machine -/

/-- What is answered to a command when it is left open. -/
structure Answer where
  yes : Bool
  byte : Option UInt8
  deriving DecidableEq

/-- Set who holds a lock. -/
def Store.setLock (s : Store) (l : Lock) (o : Option Slot) : Store := { s with lock := update s.lock l o }

/-- Change a process. -/
def Store.setProc (s : Store) (q : Slot) (x : Thread) : Store := { s with proc := update s.proc q x }

/-- Change the pipe. -/
def Store.setPipe (s : Store) (pi : Pipe) : Store := { s with pipe := pi }

/-- The test and the assignment in the loop of `wakeup`. -/
def Store.wake (s : Store) (q : Slot) (c : Chan) : Store :=
  if (s.proc q).state = .sleeping ∧ (s.proc q).chan = some c then s.setProc q { s.proc q with state := .runnable } else s

/-- What `kill` does to the process that it has found. -/
def Store.mark (s : Store) (q : Slot) : Store :=
  s.setProc q { s.proc q with
    killed := true
    state := if (s.proc q).state = .sleeping then .runnable else (s.proc q).state }

/-- What a command of process `p` does. A lock that is given back by another than its holder is a panic. -/
def Store.exec (s : Store) (p : Slot) (x : Answer) : (c : Cmd) → Option (c.Res × Store)
  | .acquire l => if s.lock l = none then some ((), s.setLock l (some p)) else none
  | .release l => if s.lock l = some p then some ((), s.setLock l none) else none
  | .fallAsleep c => some ((), s.setProc p { s.proc p with state := .sleeping, chan := some c })
  | .sched => if s.lock (.proc p) = some p then some ((), s.setLock (.proc p) none) else none
  | .resume =>
    if (s.proc p).state = .runnable ∧ s.lock (.proc p) = none then
      some ((), (s.setProc p { s.proc p with state := .running }).setLock (.proc p) (some p))
    else none
  | .clearChan => some ((), s.setProc p { s.proc p with chan := none })
  | .wake q c => some ((), s.wake q c)
  | .isKilled => some ((s.proc p).killed, s)
  | .kill q => some ((), s.mark q)
  | .pipe => some (s.pipe, s)
  | .put ch => some ((), s.setPipe (s.pipe.put ch))
  | .take => some (s.pipe.head, s.setPipe s.pipe.take)
  | .close w => some ((), s.setPipe (s.pipe.close w))
  | .copyin => some (x.byte, s)
  | .copyout _ => some (x.yes, s)
  | .ask => some (x.yes, s)

/-- The state of the machine: the shared state, and what each process has to do. -/
structure SleepState where
  store : Store
  code : Slot → Code Label

/-- The steps. -/
inductive Act where
  /-- The process does what is next. -/
  | run (p : Slot) (x : Answer)
  /-- The process goes on with a loop. -/
  | loop (p : Slot)
  /-- The process makes a call. -/
  | call (p : Slot) (c : Call)

/-- Process `p` goes on with `x`. -/
def SleepState.go (s : SleepState) (p : Slot) (x : Code Label) : SleepState :=
  { s with code := update s.code p x }

/-- A step. -/
def SleepState.step (s : SleepState) : Act → Option SleepState
  | .run p x =>
    match s.code p with
    | .ret _ => none
    | .op c k => (s.store.exec p x c).map fun y => SleepState.go { s with store := y.2 } p (k y.1)
  | .loop p =>
    match s.code p with
    | .ret l => (l.code p).map (s.go p)
    | .op _ _ => none
  | .call p c =>
    match s.code p with
    | .ret l => if l.isUser then some (s.go p (c.code p)) else none
    | .op _ _ => none

/-- At the start the pipe is new, and all processes run in user code. Some may have been killed. -/
def SleepState.start (killed : Slot → Bool) : SleepState where
  store :=
    { lock := fun _ => none
      proc := fun p => ⟨.running, none, killed p⟩
      pipe := ⟨fun _ => 0, 0, 0, true, true⟩ }
  code := fun _ => .ret (.user none)

/-- **The machine**. -/
def sleepMachine : LTS SleepState Act where
  init := fun s => ∃ killed, s = .start killed
  step := fun s act t => s.step act = some t

end Xv6Shmem.Sleeping
