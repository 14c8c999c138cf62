import Xv6Shmem.Kernel.Table
import Xv6Shmem.Theory.Outcome
import Xv6Shmem.Theory.Runs

/-!
# Open files

The table of open files (`kernel/file.c`), the descriptors of the processes, and the life of a pipe
(`kernel/pipe.c`), with the calls that make and drop references: `open`, `dup`, `pipe` and `close`
of `kernel/sysfile.c`, and `fork` and `exit` of `kernel/proc.c`.

## The model

Calls are made one after the other. A call panics where the source does, and fails with
`useAfterFree` where the source would use the page of a pipe that is not there.

What the file system, the allocator and user memory answer is left open. `open` is given the inode
that it finds or creates, or none if it fails before it asks for a file; what it does to the inode
is left out, as is `iput` in `fileclose`. `kalloc` hands out any page that does not hold a pipe, or
none. `fork` is given the slot that `allocproc` finds, or none if it fails; that is before it copies
any descriptors.
-/

namespace Xv6Shmem.Files

open Function Kernel

/-- `NFILE`: open files per system. -/
abbrev NFILE : ℕ := 100

/-- `NOFILE`: open files per process. -/
def NOFILE : ℕ := 16

instance : NeZero NOFILE := ⟨by decide⟩

/-- `NINODE`: maximum number of active i-nodes. -/
def NINODE : ℕ := 50

instance : NeZero NINODE := ⟨by decide⟩

/-- A file of the table. -/
abbrev FileNo := Fin NFILE

/-- An inode of the table in memory, as a pointer to it. -/
abbrev InodeNo := Fin NINODE

/-- A descriptor. -/
abbrev Fd := Fin NOFILE

/-- The type of a file. -/
inductive FileType where
  | none
  | pipe
  | inode
  | device
  deriving DecidableEq

/-- `struct file`. -/
structure File where
  type : FileType
  /-- Reference count. -/
  ref : ℕ
  readable : Bool
  writable : Bool
  /-- The page of the pipe. -/
  pipe : ℕ
  /-- The inode. -/
  ip : InodeNo
  off : UInt32
  major : Int16
  deriving DecidableEq

/-- `struct pipe`, as far as its ends go. -/
structure PipeEnds where
  /-- Read fd is still open. -/
  readopen : Bool
  /-- Write fd is still open. -/
  writeopen : Bool
  deriving DecidableEq

/-- Whether a slot of the process table has a process. -/
inductive Life where
  | unused
  | live
  | zombie
  deriving DecidableEq

/-- The files, the descriptors and the pipes. -/
structure FileState where
  /-- `ftable`. -/
  file : FileNo → File
  /-- `ofile` of the processes. -/
  ofile : Slot → Fd → Option FileNo
  life : Slot → Life
  /-- The pages that hold pipes. -/
  pipe : ℕ → Option PipeEnds
  /-- How often a page was handed out by `kalloc` for a pipe. -/
  kallocs : ℕ → ℕ
  /-- How often the page of a pipe was passed to `kfree`. -/
  kfrees : ℕ → ℕ

/-- How a call can go wrong. -/
inductive Fault where
  /-- `panic("filedup")`. -/
  | filedup
  /-- `panic("fileclose")`. -/
  | fileclose
  /-- The page of a pipe is used that does not hold one. -/
  | useAfterFree
  deriving DecidableEq

/-! ### Changes -/

/-- Change a file. -/
def FileState.setFile (s : FileState) (f : FileNo) (x : File) : FileState := { s with file := update s.file f x }

/-- `p->ofile[fd] = o`. -/
def FileState.setOfile (s : FileState) (p : Slot) (fd : Fd) (o : Option FileNo) : FileState :=
  { s with ofile := update s.ofile p (update (s.ofile p) fd o) }

def FileState.setLife (s : FileState) (p : Slot) (l : Life) : FileState := { s with life := update s.life p l }

/-- Change a page. -/
def FileState.setPipe (s : FileState) (pi : ℕ) (o : Option PipeEnds) : FileState := { s with pipe := update s.pipe pi o }

/-- `kalloc` has handed out a page, which is made a pipe. -/
def FileState.kalloc (s : FileState) (pi : ℕ) : FileState :=
  { s.setPipe pi (some ⟨true, true⟩) with kallocs := update s.kallocs pi (s.kallocs pi + 1) }

/-- `kfree` of the page of a pipe. -/
def FileState.kfree (s : FileState) (pi : ℕ) : FileState :=
  { s.setPipe pi none with kfrees := update s.kfrees pi (s.kfrees pi + 1) }

/-! ### `file.c` and `pipe.c` -/

/-- `filealloc`: a file with one reference, or none if the table is full. -/
def filealloc (s : FileState) : Option (FileNo × FileState) :=
  ((List.finRange NFILE).find? fun f => (s.file f).ref = 0).map fun f => (f, s.setFile f { s.file f with ref := 1 })

/-- `filedup`. -/
def filedup (s : FileState) (f : FileNo) : Except Fault FileState :=
  if (s.file f).ref < 1 then .error .filedup else .ok (s.setFile f { s.file f with ref := (s.file f).ref + 1 })

/-- One end of a pipe is closed. -/
def PipeEnds.close (e : PipeEnds) (writable : Bool) : PipeEnds :=
  if writable then { e with writeopen := false } else { e with readopen := false }

/-- `pipeclose`. -/
def pipeclose (s : FileState) (pi : ℕ) (writable : Bool) : Except Fault FileState :=
  match s.pipe pi with
  | none => .error .useAfterFree
  | some e =>
    let e := e.close writable
    .ok (if e.readopen = false ∧ e.writeopen = false then s.kfree pi else s.setPipe pi (some e))

/-- `fileclose`. -/
def fileclose (s : FileState) (f : FileNo) : Except Fault FileState :=
  let ff := s.file f
  if ff.ref < 1 then .error .fileclose
  else if 0 < ff.ref - 1 then .ok (s.setFile f { ff with ref := ff.ref - 1 })
  else
    let s := s.setFile f { ff with ref := 0, type := .none }
    if ff.type = .pipe then pipeclose s ff.pipe ff.writable else .ok s

/-- The first part of `pipealloc`: two files. What was allocated is given back when there is no second one. -/
def pipeFiles (s : FileState) : Except Fault (Option (FileNo × FileNo) × FileState) :=
  match filealloc s with
  | none => .ok (none, s)
  | some (f0, s) =>
    match filealloc s with
    | none => do
      let s ← fileclose s f0
      return (none, s)
    | some (f1, s) => return (some (f0, f1), s)

/-- `pipealloc`: `pg` is what `kalloc` returns. -/
def pipealloc (s : FileState) (pg : Option ℕ) : Except Fault (Option (FileNo × FileNo) × FileState) := do
  let (fs, s) ← pipeFiles s
  match fs with
  | none => return (none, s)
  | some (f0, f1) =>
    match pg with
    | none =>
      let s ← fileclose s f0
      let s ← fileclose s f1
      return (none, s)
    | some pi =>
      let s := s.kalloc pi
      let s := s.setFile f0 { s.file f0 with type := .pipe, readable := true, writable := false, pipe := pi }
      let s := s.setFile f1 { s.file f1 with type := .pipe, readable := false, writable := true, pipe := pi }
      return (some (f0, f1), s)

/-! ### `sysfile.c` -/

/-- `argfd`: the file of a descriptor. -/
def argfd (s : FileState) (p : Slot) (fd : ℤ) : Option (Fd × FileNo) :=
  if 0 ≤ fd ∧ fd < NOFILE then (s.ofile p (Fin.ofNat NOFILE fd.toNat)).map fun f => (Fin.ofNat NOFILE fd.toNat, f)
  else none

/-- `fdalloc`. -/
def fdalloc (s : FileState) (p : Slot) (f : FileNo) : Option (Fd × FileState) :=
  ((List.finRange NOFILE).find? fun fd => s.ofile p fd = none).map fun fd => (fd, s.setOfile p fd (some f))

/-- `sys_dup`. -/
def dup (s : FileState) (p : Slot) (fd : ℤ) : Except Fault (ℤ × FileState) :=
  match argfd s p fd with
  | none => .ok (-1, s)
  | some (_, f) =>
    match fdalloc s p f with
    | none => .ok (-1, s)
    | some (fd, s) => do
      let s ← filedup s f
      return ((fd : ℤ), s)

/-- `sys_close`. -/
def close (s : FileState) (p : Slot) (fd : ℤ) : Except Fault (ℤ × FileState) :=
  match argfd s p fd with
  | none => .ok (-1, s)
  | some (fd, f) => do
    let s ← fileclose (s.setOfile p fd none) f
    return (0, s)

/-- What `sys_open` has found: the inode, its major number if it is a device, and what `omode` asks for. -/
structure Opened where
  ip : InodeNo
  device : Option Int16
  readable : Bool
  writable : Bool
  deriving DecidableEq

/-- The file that `sys_open` makes of it. -/
def Opened.file (o : Opened) (x : File) : File :=
  match o.device with
  | some major => { x with type := .device, major := major, ip := o.ip, readable := o.readable, writable := o.writable }
  | none => { x with type := .inode, off := 0, ip := o.ip, readable := o.readable, writable := o.writable }

/-- `sys_open`. -/
def openFile (s : FileState) (p : Slot) : Option Opened → Except Fault (ℤ × FileState)
  | none => .ok (-1, s)
  | some o =>
    match filealloc s with
    | none => .ok (-1, s)
    | some (f, s) =>
      match fdalloc s p f with
      | none => do
        let s ← fileclose s f
        return (-1, s)
      | some (fd, s) => .ok ((fd : ℤ), s.setFile f (o.file (s.file f)))

/-- `sys_pipe` gives up: the descriptors `fds` are cleared, and both ends closed. -/
def pipeFail (s : FileState) (p : Slot) (rf wf : FileNo) (fds : List Fd) : Except Fault (ℤ × FileState) := do
  let s ← fileclose (fds.foldl (fun s fd => s.setOfile p fd none) s) rf
  let s ← fileclose s wf
  return (-1, s)

/-- `sys_pipe` when it has two files. -/
def pipeFds (s : FileState) (p : Slot) (rf wf : FileNo) (copied : Bool) : Except Fault (ℤ × FileState) :=
  match fdalloc s p rf with
  | none => pipeFail s p rf wf []
  | some (fd0, s) =>
    match fdalloc s p wf with
    | none => pipeFail s p rf wf [fd0]
    | some (fd1, s) => if copied then .ok (0, s) else pipeFail s p rf wf [fd0, fd1]

/-- `sys_pipe`: `pg` is what `kalloc` returns, and `copied` whether the descriptors could be copied out. -/
def pipe (s : FileState) (p : Slot) (pg : Option ℕ) (copied : Bool) : Except Fault (ℤ × FileState) := do
  let (fs, s) ← pipealloc s pg
  match fs with
  | none => return (-1, s)
  | some (rf, wf) => pipeFds s p rf wf copied

/-! ### `proc.c` -/

/-- A turn of the loop of `fork` over the descriptors. -/
def forkFd (p np : Slot) (s : FileState) (fd : Fd) : Except Fault FileState :=
  match s.ofile p fd with
  | none => .ok s
  | some f => do
    let s ← filedup s f
    return s.setOfile np fd (some f)

/-- `fork`, into the slot that `allocproc` has found. -/
def fork (s : FileState) (p : Slot) : Option Slot → Except Fault (ℤ × FileState)
  | none => .ok (-1, s)
  | some np => do
    let s ← (List.finRange NOFILE).foldlM (forkFd p np) (s.setLife np .live)
    return (0, s)

/-- A turn of the loop of `exit` over the descriptors. -/
def exitFd (p : Slot) (s : FileState) (fd : Fd) : Except Fault FileState :=
  match s.ofile p fd with
  | none => .ok s
  | some f => do
    let s ← fileclose s f
    return s.setOfile p fd none

/-- `exit`. -/
def exit (s : FileState) (p : Slot) : Except Fault (ℤ × FileState) := do
  let s ← (List.finRange NOFILE).foldlM (exitFd p) s
  return (0, s.setLife p .zombie)

/-! ### The machine -/

/-- The calls, with what is left open in them. -/
inductive Call where
  | openFile (o : Option Opened)
  | dup (fd : ℤ)
  | pipe (pg : Option ℕ) (copied : Bool)
  | close (fd : ℤ)
  | fork (np : Option Slot)
  | exit
  /-- `wait` finds that process `q` has exited, and frees its slot. -/
  | wait (q : Slot)
  deriving DecidableEq

/-- Process `p` makes a call. -/
def FileState.call (s : FileState) (p : Slot) : Call → Except Fault (ℤ × FileState)
  | .openFile o => Files.openFile s p o
  | .dup fd => Files.dup s p fd
  | .pipe pg copied => Files.pipe s p pg copied
  | .close fd => Files.close s p fd
  | .fork np => Files.fork s p np
  | .exit => Files.exit s p
  | .wait q => .ok (0, s.setLife q .unused)

/-- What the rest of the kernel can answer to a call: `kalloc` hands out a page that holds no pipe, `allocproc` finds an
unused slot, and `wait` a zombie. The first process does not exit. -/
def FileState.Allows (s : FileState) (p : Slot) : Call → Prop
  | .pipe (some pg) _ => s.pipe pg = none
  | .fork (some np) => s.life np = .unused
  | .wait q => s.life q = .zombie
  | .exit => p ≠ 0
  | _ => True

/-- At the start there is the first process, and no file is open. -/
def FileState.boot : FileState where
  file := fun _ => ⟨.none, 0, false, false, 0, 0, 0, 0⟩
  ofile := fun _ _ => none
  life := fun p => if p = 0 then .live else .unused
  pipe := fun _ => none
  kallocs := fun _ => 0
  kfrees := fun _ => 0

/-- **The machine**: live processes make calls. -/
def fileMachine : LTS FileState (Slot × Call) where
  init s := s = .boot
  step s x t := s.life x.1 = .live ∧ s.Allows x.1 x.2 ∧ ∃ r, s.call x.1 x.2 = .ok (r, t)

end Xv6Shmem.Files
