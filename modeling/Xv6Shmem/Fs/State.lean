import Xv6Shmem.Files.Table
import Xv6Shmem.Fs.Layout
import Xv6Shmem.Theory.Sequential

/-!
# The state of the file system, and what its code does to it

The file system as one process at a time runs it: disk blocks, the table of inodes in memory, open
files and working directories.

## The model

A command is what the code of `kernel/fs.c` and `kernel/sysfile.c` asks of the layers below, or what
it does under a spin-lock: to get, change, log and release a buffer (`kernel/bio.c`, `kernel/log.c`),
a search of the table of inodes, a sleep-lock, the fields of an inode that the lock protects, a
file or a descriptor, and a copy from or to user memory. It fails with a panic of the source, or
with `blocked` where the source would wait for something that no one will give it.

A buffer is named by its block. `cache` is what one finds who reads a block, and `home` what the
block has on the disk; they differ for a block that is logged, and for one that was changed and not
logged. `end_op` of the last operation commits. That this is what buffers, log and disk do together
is the subject of the modules on the disk; in this one a buffer is always to be had.

The device number is that of the only disk, but the table keeps it. User memory is that of the
process that runs: the bytes at the addresses that are mapped.
-/

namespace Xv6Shmem.Fs

open Function Kernel Disk Files

/-- `struct inode`: an inode in memory. -/
structure Inode where
  dev : ℕ
  /-- Inode number. -/
  inum : ℕ
  /-- Reference count. -/
  ref : ℤ
  /-- Who holds the sleep-lock, which protects everything below. -/
  lock : Option Slot
  /-- The inode has been read from disk. -/
  valid : Bool
  /-- Copy of the disk inode. -/
  d : Dinode

/-- The state. -/
structure FsState where
  /-- The blocks, as they are read. -/
  cache : ℕ → Block
  /-- The blocks on the disk. -/
  home : ℕ → Block
  /-- The buffers that are locked. -/
  held : List ℕ
  /-- `log.lh`: the logged blocks. -/
  logged : List ℕ
  /-- `log.outstanding`. -/
  outstanding : ℕ
  /-- `itable`. -/
  inode : InodeNo → Inode
  /-- Files, descriptors and pipes. -/
  files : FileState
  /-- Current directories. -/
  cwd : Slot → Option InodeNo
  /-- User memory. -/
  user : ℕ → Option UInt8

/-- How code can fail. -/
inductive Fault where
  /-- It waits for good. -/
  | blocked
  /-- `panic("brelse")`. -/
  | brelse
  /-- `panic("too big a transaction")`. -/
  | tooBig
  /-- `panic("log_write outside of trans")`. -/
  | outsideOfTrans
  /-- `panic("freeing free block")`. -/
  | freeingFreeBlock
  /-- `panic("iget: no inodes")`. -/
  | igetNoInodes
  /-- `panic("ilock")`. -/
  | ilock
  /-- `panic("ilock: no type")`. -/
  | ilockNoType
  /-- `panic("iunlock")`. -/
  | iunlock
  /-- `panic("bmap: out of range")`. -/
  | bmapOutOfRange
  /-- `panic("dirlookup not DIR")`. -/
  | dirlookupNotDir
  /-- `panic("dirlookup read")`. -/
  | dirlookupRead
  /-- `panic("dirlink read")`. -/
  | dirlinkRead
  /-- `panic("isdirempty: readi")`. -/
  | isdiremptyReadi
  /-- `panic("unlink: nlink < 1")`. -/
  | unlinkNlink
  /-- `panic("unlink: writei")`. -/
  | unlinkWritei
  /-- `panic("fileread")`. -/
  | fileread
  /-- `panic("filewrite")`. -/
  | filewrite
  /-- A null pointer is used. -/
  | null
  /-- A fault of the table of files. -/
  | files (e : Files.Fault)
  deriving DecidableEq

/-- What the code does. -/
inductive Cmd where
  | panic (e : Fault)
  | bread (b : ℕ)
  /-- The data of a buffer. -/
  | data (b : ℕ)
  /-- Change the data of a buffer. -/
  | setData (b : ℕ) (d : Block)
  | logWrite (b : ℕ)
  | brelse (b : ℕ)
  | beginOp
  | endOp
  | iget (dev inum : ℕ)
  | idup (ip : InodeNo)
  /-- `dev` and `inum` of an inode, which stay while there is a reference. -/
  | ident (ip : InodeNo)
  /-- `ip->ref`. -/
  | ref (ip : InodeNo)
  | acquiresleep (ip : InodeNo)
  | holdingsleep (ip : InodeNo)
  | releasesleep (ip : InodeNo)
  | valid (ip : InodeNo)
  | setValid (ip : InodeNo) (v : Bool)
  /-- The copy of the disk inode. -/
  | fields (ip : InodeNo)
  | setFields (ip : InodeNo) (x : Dinode)
  /-- `iput` up to where it releases `itable.lock` for the first time: has it taken the lock of the inode, to free it? -/
  | iputTest (ip : InodeNo)
  /-- `ip->ref--`. -/
  | unref (ip : InodeNo)
  | filealloc
  | file (f : FileNo)
  | setFile (f : FileNo) (x : File)
  | filedup (f : FileNo)
  /-- The part of `fileclose` under `ftable.lock`: the file, if this was the last reference. -/
  | fileunref (f : FileNo)
  | pipeclose (pi : ℕ) (writable : Bool)
  /-- A page from `kalloc` is made a pipe. -/
  | pipeinit (pi : ℕ)
  | argfd (p : Slot) (fd : ℤ)
  | fdalloc (p : Slot) (f : FileNo)
  | ofile (p : Slot) (fd : Fd)
  | setOfile (p : Slot) (fd : Fd) (o : Option FileNo)
  | cwd (p : Slot)
  | setCwd (p : Slot) (o : Option InodeNo)
  | setLife (p : Slot) (l : Life)
  /-- The bytes that `copyin` copies, and whether it succeeds. -/
  | copyin (src n : ℕ)
  | copyout (dst : ℕ) (bs : List UInt8)

/-- What a command answers. -/
def Cmd.Res : Cmd → Type
  | .data _ => Block
  | .iget _ _ => InodeNo
  | .ident _ => ℕ × ℕ
  | .ref _ => ℤ
  | .holdingsleep _ | .valid _ | .iputTest _ | .copyout _ _ => Bool
  | .fields _ => Dinode
  | .filealloc => Option FileNo
  | .file _ => File
  | .fileunref _ => Option File
  | .argfd _ _ => Option (Fd × FileNo)
  | .fdalloc _ _ => Option Fd
  | .ofile _ _ => Option FileNo
  | .cwd _ => Option InodeNo
  | .copyin _ _ => List UInt8 × Bool
  | _ => Unit

/-- Code of the file system. -/
abbrev Code := Prog Cmd.Res

/-! ### Commands -/

/-- A panic: nothing comes after it. -/
def panic {α : Type} [Inhabited α] (e : Fault) : Code α := do
  Prog.call (Cmd.panic e)
  return default

def bread (b : ℕ) : Code Unit := Prog.call (Cmd.bread b)

def data (b : ℕ) : Code Block := Prog.call (Cmd.data b)

def setData (b : ℕ) (d : Block) : Code Unit := Prog.call (Cmd.setData b d)

def logWrite (b : ℕ) : Code Unit := Prog.call (Cmd.logWrite b)

def brelse (b : ℕ) : Code Unit := Prog.call (Cmd.brelse b)

def beginOp : Code Unit := Prog.call Cmd.beginOp

def endOp : Code Unit := Prog.call Cmd.endOp

/-- `iget`. -/
def iget (dev inum : ℕ) : Code InodeNo := Prog.call (Cmd.iget dev inum)

/-- `idup`. -/
def idup (ip : InodeNo) : Code Unit := Prog.call (Cmd.idup ip)

def ident (ip : InodeNo) : Code (ℕ × ℕ) := Prog.call (Cmd.ident ip)

def ref (ip : InodeNo) : Code ℤ := Prog.call (Cmd.ref ip)

def acquiresleep (ip : InodeNo) : Code Unit := Prog.call (Cmd.acquiresleep ip)

def holdingsleep (ip : InodeNo) : Code Bool := Prog.call (Cmd.holdingsleep ip)

def releasesleep (ip : InodeNo) : Code Unit := Prog.call (Cmd.releasesleep ip)

def valid (ip : InodeNo) : Code Bool := Prog.call (Cmd.valid ip)

def setValid (ip : InodeNo) (v : Bool) : Code Unit := Prog.call (Cmd.setValid ip v)

def fields (ip : InodeNo) : Code Dinode := Prog.call (Cmd.fields ip)

def setFields (ip : InodeNo) (x : Dinode) : Code Unit := Prog.call (Cmd.setFields ip x)

def iputTest (ip : InodeNo) : Code Bool := Prog.call (Cmd.iputTest ip)

def unref (ip : InodeNo) : Code Unit := Prog.call (Cmd.unref ip)

def filealloc : Code (Option FileNo) := Prog.call Cmd.filealloc

def file (f : FileNo) : Code File := Prog.call (Cmd.file f)

def setFile (f : FileNo) (x : File) : Code Unit := Prog.call (Cmd.setFile f x)

def filedup (f : FileNo) : Code Unit := Prog.call (Cmd.filedup f)

def fileunref (f : FileNo) : Code (Option File) := Prog.call (Cmd.fileunref f)

def pipeclose (pi : ℕ) (writable : Bool) : Code Unit := Prog.call (Cmd.pipeclose pi writable)

def pipeinit (pi : ℕ) : Code Unit := Prog.call (Cmd.pipeinit pi)

def argfd (p : Slot) (fd : ℤ) : Code (Option (Fd × FileNo)) := Prog.call (Cmd.argfd p fd)

def fdalloc (p : Slot) (f : FileNo) : Code (Option Fd) := Prog.call (Cmd.fdalloc p f)

def ofile (p : Slot) (fd : Fd) : Code (Option FileNo) := Prog.call (Cmd.ofile p fd)

def setOfile (p : Slot) (fd : Fd) (o : Option FileNo) : Code Unit := Prog.call (Cmd.setOfile p fd o)

def cwd (p : Slot) : Code (Option InodeNo) := Prog.call (Cmd.cwd p)

def setCwd (p : Slot) (o : Option InodeNo) : Code Unit := Prog.call (Cmd.setCwd p o)

def setLife (p : Slot) (l : Life) : Code Unit := Prog.call (Cmd.setLife p l)

def copyin (src n : ℕ) : Code (List UInt8 × Bool) := Prog.call (Cmd.copyin src n)

def copyout (dst : ℕ) (bs : List UInt8) : Code Bool := Prog.call (Cmd.copyout dst bs)

/-! ### What they do -/

/-- Change an inode in memory. -/
def FsState.setInode (s : FsState) (ip : InodeNo) (x : Inode) : FsState := { s with inode := update s.inode ip x }

/-- Is the inode already in the table? -/
def FsState.findInode (s : FsState) (dev inum : ℕ) : Option InodeNo :=
  (List.finRange NINODE).find? fun ip => 0 < (s.inode ip).ref ∧ (s.inode ip).dev = dev ∧ (s.inode ip).inum = inum

/-- An empty slot of the table. -/
def FsState.findEmpty (s : FsState) : Option InodeNo := (List.finRange NINODE).find? fun ip => (s.inode ip).ref = 0

/-- The bytes that are mapped from `a` on, `n` at most. -/
def mapped (user : ℕ → Option UInt8) (a : ℕ) : ℕ → List UInt8
  | 0 => []
  | n + 1 =>
    match user a with
    | some x => x :: mapped user (a + 1) n
    | none => []

/-- Store bytes from `a` on, up to where user memory is not mapped. -/
def stores (user : ℕ → Option UInt8) (a : ℕ) : List UInt8 → ℕ → Option UInt8
  | [] => user
  | x :: bs =>
    match user a with
    | some _ => stores (update user a (some x)) (a + 1) bs
    | none => user

/-- A commit: what is logged goes to the disk. -/
def FsState.commit (s : FsState) : FsState :=
  { s with home := fun b => if b ∈ s.logged then s.cache b else s.home b, logged := [] }

/-- The part of `fileclose` under `ftable.lock`. -/
def fileUnref (s : FileState) (f : FileNo) : Except Fault (Option File × FileState) :=
  let ff := s.file f
  if ff.ref < 1 then .error (.files .fileclose)
  else if 0 < ff.ref - 1 then .ok (none, s.setFile f { ff with ref := ff.ref - 1 })
  else .ok (some ff, s.setFile f { ff with ref := 0, type := .none })

/-- Answer `r` of a function of the table of files, and the new table. -/
def FsState.withFiles {α : Type} (s : FsState) (x : α × FileState) : α × FsState := (x.1, { s with files := x.2 })

section Exec

variable (sb : Superblock) (p : Slot)

/-- What a command of process `p` does. -/
def execCmd : Prog.Exec Cmd.Res FsState Fault := fun c s =>
  match c with
  | .panic e => .error e
  | .bread b => if b ∈ s.held then .error .blocked else .ok ((), { s with held := b :: s.held })
  | .data b => .ok (s.cache b, s)
  | .setData b d => .ok ((), { s with cache := update s.cache b d })
  | .logWrite b =>
    if LOGSIZE ≤ s.logged.length ∨ sb.nlog - 1 ≤ s.logged.length then .error .tooBig
    else if s.outstanding < 1 then .error .outsideOfTrans
    else .ok ((), { s with logged := s.logged.insert b })
  | .brelse b => if b ∈ s.held then .ok ((), { s with held := s.held.erase b }) else .error .brelse
  | .beginOp =>
    if LOGSIZE < s.logged.length + (s.outstanding + 1) * MAXOPBLOCKS then .error .blocked
    else .ok ((), { s with outstanding := s.outstanding + 1 })
  | .endOp =>
    let s := { s with outstanding := s.outstanding - 1 }
    .ok ((), if s.outstanding = 0 then s.commit else s)
  | .iget dev inum =>
    match s.findInode dev inum with
    | some ip => .ok (ip, s.setInode ip { s.inode ip with ref := (s.inode ip).ref + 1 })
    | none =>
      match s.findEmpty with
      | some ip => .ok (ip, s.setInode ip { s.inode ip with dev := dev, inum := inum, ref := 1, valid := false })
      | none => .error .igetNoInodes
  | .idup ip => .ok ((), s.setInode ip { s.inode ip with ref := (s.inode ip).ref + 1 })
  | .ident ip => .ok (((s.inode ip).dev, (s.inode ip).inum), s)
  | .ref ip => .ok ((s.inode ip).ref, s)
  | .acquiresleep ip =>
    if (s.inode ip).lock = none then .ok ((), s.setInode ip { s.inode ip with lock := some p }) else .error .blocked
  | .holdingsleep ip => .ok (decide ((s.inode ip).lock = some p), s)
  | .releasesleep ip => .ok ((), s.setInode ip { s.inode ip with lock := none })
  | .valid ip => .ok ((s.inode ip).valid, s)
  | .setValid ip v => .ok ((), s.setInode ip { s.inode ip with valid := v })
  | .fields ip => .ok ((s.inode ip).d, s)
  | .setFields ip x => .ok ((), s.setInode ip { s.inode ip with d := x })
  | .iputTest ip =>
    if (s.inode ip).ref = 1 ∧ (s.inode ip).valid = true ∧ (s.inode ip).d.nlink = 0 then
      if (s.inode ip).lock = none then .ok (true, s.setInode ip { s.inode ip with lock := some p }) else .error .blocked
    else .ok (false, s)
  | .unref ip => .ok ((), s.setInode ip { s.inode ip with ref := (s.inode ip).ref - 1 })
  | .filealloc =>
    match Files.filealloc s.files with
    | some (f, t) => .ok (some f, { s with files := t })
    | none => .ok (none, s)
  | .file f => .ok (s.files.file f, s)
  | .setFile f x => .ok ((), { s with files := s.files.setFile f x })
  | .filedup f =>
    match Files.filedup s.files f with
    | .ok t => .ok ((), { s with files := t })
    | .error e => .error (.files e)
  | .fileunref f => (fileUnref s.files f).map s.withFiles
  | .pipeclose pi w =>
    match Files.pipeclose s.files pi w with
    | .ok t => .ok ((), { s with files := t })
    | .error e => .error (.files e)
  | .pipeinit pi => .ok ((), { s with files := s.files.kalloc pi })
  | .argfd p fd => .ok (Files.argfd s.files p fd, s)
  | .fdalloc p f =>
    match Files.fdalloc s.files p f with
    | some (fd, t) => .ok (some fd, { s with files := t })
    | none => .ok (none, s)
  | .ofile p fd => .ok (s.files.ofile p fd, s)
  | .setOfile p fd o => .ok ((), { s with files := s.files.setOfile p fd o })
  | .cwd p => .ok (s.cwd p, s)
  | .setCwd p o => .ok ((), { s with cwd := update s.cwd p o })
  | .setLife p l => .ok ((), { s with files := s.files.setLife p l })
  | .copyin src n => .ok ((mapped s.user src n, decide ((mapped s.user src n).length = n)), s)
  | .copyout dst bs =>
    .ok (decide ((mapped s.user dst bs.length).length = bs.length), { s with user := stores s.user dst bs })

end Exec

end Xv6Shmem.Fs
