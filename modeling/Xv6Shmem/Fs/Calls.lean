import Xv6Shmem.Fs.Code

/-!
# System calls of the file system

`kernel/sysfile.c`, with what it needs of `kernel/file.c` and `kernel/pipe.c`, the parts of
`kernel/exec.c` that read the file, and what `fork` and `exit` of `kernel/proc.c` do to files and
directories.

## The model

The arguments of a call are given as they arrive in the kernel; a path is `none` if `argstr` fails.
What other parts of the kernel answer is given as well: the page that `kalloc` hands out for a pipe,
whether `copyout` to the array of `pipe` succeeds, the slot that `allocproc` finds, which steps of
building an address space succeed in `exec`, and what a device or a pipe returns to `read` and
`write`.

Calls are made one after the other. Between two calls the cache may drop a block that is not logged,
and user memory may change.
-/

namespace Xv6Shmem.Fs

open Kernel Disk Files

/-! ### `file.c` -/

section Code

variable (sb : Superblock)

/-- The part of `fileclose` after the last reference is gone. -/
def filefree (ff : File) : Code Unit := do
  if ff.type = .pipe then pipeclose ff.pipe ff.writable
  else if ff.type = .inode ∨ ff.type = .device then
    beginOp
    iput sb ff.ip
    endOp

/-- `fileclose`. -/
def fileclose (f : FileNo) : Code Unit := do
  match ← fileunref f with
  | none => return ()
  | some ff => filefree sb ff

/-- `NDEV`: maximum major device number. -/
abbrev NDEV : Int16 := 10

/-- `f->off += r` if `r` is positive, where `y` is the file. -/
def advance (f : FileNo) (y : File) (r : ℤ) : Code Unit :=
  if 0 < r then setFile f { y with off := y.off + UInt32.ofNat r.toNat } else return ()

/-- `fileread`; `other` is what a pipe or the device returns, and `devread` whether the device has a `read` function. -/
def fileread (f : FileNo) (addr : ℕ) (n : Int32) (devread : Bool) (other : ℤ) : Code ℤ := do
  let x ← file f
  if x.readable = false then return -1
  else
    match x.type with
    | .pipe => return other
    | .device => if x.major < 0 ∨ NDEV ≤ x.major ∨ devread = false then return -1 else return other
    | .inode =>
      ilock sb x.ip
      let y ← file f
      let (r, _) ← readi sb x.ip (some addr) y.off.toNat n.toUInt32.toNat
      advance f y r
      iunlock x.ip
      return r
    | .none => panic .fileread

/-- The most bytes that `filewrite` writes in one transaction. -/
def writeMax : ℕ := (MAXOPBLOCKS - 1 - 1 - 2) / 2 * BSIZE

/-- How many bytes the next transaction writes, when `i` of `n` are written. -/
def chunk (n i : ℕ) : ℕ := if writeMax < n - i then writeMax else n - i

/-- The loop of `filewrite`, with `i` bytes written: whether all are written. -/
def filewriteFrom (f : FileNo) (addr n : ℕ) : ℕ → ℕ → Code Bool
  | 0, i => return i = n
  | fuel + 1, i => do
    if i < n then
      beginOp
      let x ← file f
      ilock sb x.ip
      let y ← file f
      let r ← writei sb x.ip (.user (addr + i)) y.off.toNat (chunk n i)
      advance f y r
      iunlock x.ip
      endOp
      if r ≠ chunk n i then return false
      else filewriteFrom f addr n fuel (i + chunk n i)
    else return true

/-- `filewrite`; a negative `n` makes no turn of the loop. -/
def filewrite (f : FileNo) (addr : ℕ) (n : Int32) (devwrite : Bool) (other : ℤ) : Code ℤ := do
  let x ← file f
  if x.writable = false then return -1
  else
    match x.type with
    | .pipe => return other
    | .device => if x.major < 0 ∨ NDEV ≤ x.major ∨ devwrite = false then return -1 else return other
    | .inode =>
      let all ← filewriteFrom sb f addr n.toInt.toNat n.toInt.toNat 0
      if all = true ∧ 0 ≤ n.toInt then return n.toInt else return -1
    | .none => panic .filewrite

/-! ### `pipe.c` -/

/-- `pipealloc`: `pg` is what `kalloc` returns. -/
def pipealloc (pg : Option ℕ) : Code (Option (FileNo × FileNo)) := do
  match ← filealloc with
  | none => return none
  | some f0 =>
    match ← filealloc with
    | none =>
      fileclose sb f0
      return none
    | some f1 =>
      match pg with
      | none =>
        fileclose sb f0
        fileclose sb f1
        return none
      | some pi =>
        pipeinit pi
        let x ← file f0
        setFile f0 { x with type := .pipe, readable := true, writable := false, pipe := pi }
        let y ← file f1
        setFile f1 { y with type := .pipe, readable := false, writable := true, pipe := pi }
        return some (f0, f1)

/-! ### `sysfile.c` -/

variable (p : Slot)

/-- `sys_dup`. -/
def sysDup (fd : ℤ) : Code ℤ := do
  match ← argfd p fd with
  | none => return -1
  | some (_, f) =>
    match ← fdalloc p f with
    | none => return -1
    | some fd =>
      filedup f
      return (fd.val : ℤ)

/-- `sys_read`. -/
def sysRead (fd : ℤ) (addr : ℕ) (n : Int32) (devread : Bool) (other : ℤ) : Code ℤ := do
  match ← argfd p fd with
  | none => return -1
  | some (_, f) => fileread sb f addr n devread other

/-- `sys_write`. -/
def sysWrite (fd : ℤ) (addr : ℕ) (n : Int32) (devwrite : Bool) (other : ℤ) : Code ℤ := do
  match ← argfd p fd with
  | none => return -1
  | some (_, f) => filewrite sb f addr n devwrite other

/-- `sys_close`. -/
def sysClose (fd : ℤ) : Code ℤ := do
  match ← argfd p fd with
  | none => return -1
  | some (fd, f) =>
    setOfile p fd none
    fileclose sb f
    return 0

/-- `sys_link` gives up: `bad`. -/
def linkBad (ip : InodeNo) : Code ℤ := do
  ilock sb ip
  let x ← fields ip
  setFields ip { x with nlink := x.nlink - 1 }
  iupdate sb ip
  iunlockput sb ip
  endOp
  return -1

/-- `sys_link` when it has raised the link count of `ip`. -/
def linkTo (ip : InodeNo) (new : List UInt8) : Code ℤ := do
  match ← nameiparent sb p new with
  | none => linkBad sb ip
  | some (dp, name) =>
    ilock sb dp
    let (ddev, _) ← ident dp
    let (idev, inum) ← ident ip
    if ddev ≠ idev then
      iunlockput sb dp
      linkBad sb ip
    else
      let r ← dirlink sb dp name inum
      if r < 0 then
        iunlockput sb dp
        linkBad sb ip
      else
        iunlockput sb dp
        iput sb ip
        endOp
        return 0

/-- `sys_link`, with its strings. -/
def linkPaths (old new : List UInt8) : Code ℤ := do
  beginOp
  match ← namei sb p old with
  | none =>
    endOp
    return -1
  | some ip =>
    ilock sb ip
    let x ← fields ip
    if x.type = T_DIR then
      iunlockput sb ip
      endOp
      return -1
    else
      setFields ip { x with nlink := x.nlink + 1 }
      iupdate sb ip
      iunlock ip
      linkTo sb p ip new

/-- `sys_link`. -/
def sysLink : Option (List UInt8) → Option (List UInt8) → Code ℤ
  | some old, some new => linkPaths sb p old new
  | _, _ => return -1

/-- The loop of `isdirempty`. -/
def isdiremptyFrom (dp : InodeNo) : List ℕ → Code Bool
  | [] => return true
  | off :: offs => do
    let de ← readDirent sb dp off .isdiremptyReadi
    if de.inum ≠ 0 then return false
    else isdiremptyFrom dp offs

/-- `isdirempty`: the first two entries are `.` and `..`. -/
def isdirempty (dp : InodeNo) : Code Bool := do
  let x ← fields dp
  isdiremptyFrom sb dp ((direntOffsets x.size.toNat).drop 2)

/-- The name of the directory itself. -/
def dot : List UInt8 := [46]

/-- The name of the parent directory. -/
def dotdot : List UInt8 := [46, 46]

/-- `sys_unlink` when it may remove the entry at `off` of `dp`, which refers to `ip`. -/
def unlinkEntry (dp ip : InodeNo) (off : ℕ) : Code ℤ := do
  let r ← writei sb dp (.kernel (List.replicate DESIZE 0)) off DESIZE
  if r ≠ (DESIZE : ℕ) then panic .unlinkWritei
  else
    let x ← fields ip
    if x.type = T_DIR then
      let y ← fields dp
      setFields dp { y with nlink := y.nlink - 1 }
      iupdate sb dp
    iunlockput sb dp
    let x ← fields ip
    setFields ip { x with nlink := x.nlink - 1 }
    iupdate sb ip
    iunlockput sb ip
    endOp
    return 0

/-- `sys_unlink` gives up: `bad`. -/
def unlinkBad (dp : InodeNo) : Code ℤ := do
  iunlockput sb dp
  endOp
  return -1

/-- `sys_unlink` when it has found `ip` at `off` of `dp`. -/
def unlinkFound (dp ip : InodeNo) (off : ℕ) : Code ℤ := do
  ilock sb ip
  let x ← fields ip
  if x.nlink < 1 then panic .unlinkNlink
  else if x.type = T_DIR then
    if ← isdirempty sb ip then unlinkEntry sb dp ip off
    else
      iunlockput sb ip
      unlinkBad sb dp
  else unlinkEntry sb dp ip off

/-- `sys_unlink`. -/
def sysUnlink : Option (List UInt8) → Code ℤ
  | none => return -1
  | some path => do
    beginOp
    match ← nameiparent sb p path with
    | none =>
      endOp
      return -1
    | some (dp, name) =>
      ilock sb dp
      if namecmp name dot = true ∨ namecmp name dotdot = true then unlinkBad sb dp
      else
        match ← dirlookup sb dp name with
        | none => unlinkBad sb dp
        | some (ip, off) => unlinkFound sb dp ip off

/-- `create` when the name is there: `ip`. -/
def createFound (dp ip : InodeNo) (type : Int16) : Code (Option InodeNo) := do
  iunlockput sb dp
  ilock sb ip
  let x ← fields ip
  if type = T_FILE ∧ (x.type = T_FILE ∨ x.type = T_DEVICE) then return some ip
  else
    iunlockput sb ip
    return none

/-- `create` gives up: `fail`. -/
def createFail (dp ip : InodeNo) : Code (Option InodeNo) := do
  let x ← fields ip
  setFields ip { x with nlink := 0 }
  iupdate sb ip
  iunlockput sb ip
  iunlockput sb dp
  return none

/-- The entries `.` and `..`: could they be made? -/
def createDots (dp ip : InodeNo) : Code Bool := do
  let (_, inum) ← ident ip
  let r ← dirlink sb ip dot inum
  if r < 0 then return false
  else
    let (_, pnum) ← ident dp
    let r ← dirlink sb ip dotdot pnum
    return decide (0 ≤ r)

/-- `create` when it has the inode, with its `.` and `..` if it is a directory. -/
def createLink (dp ip : InodeNo) (name : List UInt8) (type : Int16) : Code (Option InodeNo) := do
  let (_, inum) ← ident ip
  let r ← dirlink sb dp name inum
  if r < 0 then createFail sb dp ip
  else
    if type = T_DIR then
      let x ← fields dp
      setFields dp { x with nlink := x.nlink + 1 }
      iupdate sb dp
    iunlockput sb dp
    return some ip

/-- `create` when it has allocated an inode. -/
def createNew (dp ip : InodeNo) (name : List UInt8) (type major minor : Int16) : Code (Option InodeNo) := do
  ilock sb ip
  let x ← fields ip
  setFields ip { x with major := major, minor := minor, nlink := 1 }
  iupdate sb ip
  if type = T_DIR then
    if ← createDots sb dp ip then createLink sb dp ip name type
    else createFail sb dp ip
  else createLink sb dp ip name type

/-- `create`: an inode that is locked. -/
def create (path : List UInt8) (type major minor : Int16) : Code (Option InodeNo) := do
  match ← nameiparent sb p path with
  | none => return none
  | some (dp, name) =>
    ilock sb dp
    match ← dirlookup sb dp name with
    | some (ip, _) => createFound sb dp ip type
    | none =>
      let (dev, _) ← ident dp
      match ← ialloc sb dev type with
      | none =>
        iunlockput sb dp
        return none
      | some ip => createNew sb dp ip name type major minor

def O_WRONLY : UInt32 := 0x001

def O_RDWR : UInt32 := 0x002

def O_CREATE : UInt32 := 0x200

def O_TRUNC : UInt32 := 0x400

/-- `sys_open` fails when it has the inode. -/
def openFail (ip : InodeNo) : Code ℤ := do
  iunlockput sb ip
  endOp
  return -1

/-- `sys_open` fills in the file. -/
def openFile (ip : InodeNo) (f : FileNo) (fd : Fd) (omode : UInt32) : Code ℤ := do
  let x ← fields ip
  let y ← file f
  let y := if x.type = T_DEVICE then { y with type := .device, major := x.major } else { y with type := .inode, off := 0 }
  setFile f { y with
    ip := ip
    readable := decide (omode &&& O_WRONLY = 0)
    writable := decide (omode &&& O_WRONLY ≠ 0 ∨ omode &&& O_RDWR ≠ 0) }
  if omode &&& O_TRUNC ≠ 0 ∧ x.type = T_FILE then itrunc sb ip
  iunlock ip
  endOp
  return (fd.val : ℤ)

/-- `sys_open` when it has the inode. -/
def openInode (ip : InodeNo) (omode : UInt32) : Code ℤ := do
  let x ← fields ip
  if x.type = T_DEVICE ∧ (x.major < 0 ∨ NDEV ≤ x.major) then openFail sb ip
  else
    match ← filealloc with
    | none => openFail sb ip
    | some f =>
      match ← fdalloc p f with
      | none =>
        fileclose sb f
        openFail sb ip
      | some fd => openFile sb ip f fd omode

/-- The inode that `sys_open` opens, locked. -/
def openLookup (path : List UInt8) (omode : UInt32) : Code (Option InodeNo) := do
  if omode &&& O_CREATE ≠ 0 then create sb p path T_FILE 0 0
  else
    match ← namei sb p path with
    | none => return none
    | some ip =>
      ilock sb ip
      let x ← fields ip
      if x.type = T_DIR ∧ omode ≠ 0 then
        iunlockput sb ip
        return none
      else return some ip

/-- `sys_open`. -/
def sysOpen (path : Option (List UInt8)) (omode : UInt32) : Code ℤ :=
  match path with
  | none => return -1
  | some path => do
    beginOp
    match ← openLookup sb p path omode with
    | none =>
      endOp
      return -1
    | some ip => openInode sb p ip omode

/-- `sys_mkdir` and `sys_mknod`: create an inode and drop it. -/
def createCall (path : Option (List UInt8)) (type major minor : Int16) : Code ℤ := do
  beginOp
  match path with
  | none =>
    endOp
    return -1
  | some path =>
    match ← create sb p path type major minor with
    | none =>
      endOp
      return -1
    | some ip =>
      iunlockput sb ip
      endOp
      return 0

/-- `sys_mkdir`. -/
def sysMkdir (path : Option (List UInt8)) : Code ℤ := createCall sb p path T_DIR 0 0

/-- `sys_mknod`. -/
def sysMknod (path : Option (List UInt8)) (major minor : Int32) : Code ℤ :=
  createCall sb p path T_DEVICE major.toInt16 minor.toInt16

/-- `sys_chdir`, with its string. -/
def chdirPath (path : List UInt8) : Code ℤ := do
  match ← namei sb p path with
  | none =>
    endOp
    return -1
  | some ip =>
    ilock sb ip
    let x ← fields ip
    if x.type ≠ T_DIR then
      iunlockput sb ip
      endOp
      return -1
    else
      iunlock ip
      match ← cwd p with
      | none => panic .null
      | some old =>
        iput sb old
        endOp
        setCwd p (some ip)
        return 0

/-- `sys_chdir`. -/
def sysChdir (path : Option (List UInt8)) : Code ℤ := do
  beginOp
  match path with
  | none =>
    endOp
    return -1
  | some path => chdirPath sb p path

/-- `sys_pipe` gives up: the descriptors `fds` are cleared, and both ends closed. -/
def pipeFail (rf wf : FileNo) : List Fd → Code ℤ
  | [] => do
    fileclose sb rf
    fileclose sb wf
    return -1
  | fd :: fds => do
    setOfile p fd none
    pipeFail rf wf fds

/-- `sys_pipe`: `pg` is what `kalloc` returns, and `copied` whether the descriptors could be copied out. -/
def sysPipe (pg : Option ℕ) (copied : Bool) : Code ℤ := do
  match ← pipealloc sb pg with
  | none => return -1
  | some (rf, wf) =>
    match ← fdalloc p rf with
    | none => pipeFail sb p rf wf []
    | some fd0 =>
      match ← fdalloc p wf with
      | none => pipeFail sb p rf wf [fd0]
      | some fd1 => if copied then return 0 else pipeFail sb p rf wf [fd0, fd1]

/-! ### `exec.c` -/

/-- Which steps of `exec` outside the file system succeed. -/
structure Building where
  /-- `proc_pagetable`. -/
  pagetable : Bool
  /-- `uvmalloc` for the program header. -/
  uvmalloc : ℕ → Bool
  /-- What comes after the image is loaded: `argc`, or none if `exec` fails there. -/
  rest : Option ℕ

/-- The number in `n` bytes of a header at an offset. -/
def number (n off : ℕ) (bs : List UInt8) : ℕ :=
  match n with
  | 0 => 0
  | n + 1 => (bs.getD off 0).toNat + 256 * number n (off + 1) bs

/-- `loadseg` over the pages `is`: could they be read? -/
def loadsegFrom (ip : InodeNo) (offset sz : ℕ) : List ℕ → Code Bool
  | [] => return true
  | i :: is => do
    let n := if sz - i < 4096 then sz - i else 4096
    let (r, _) ← readi sb ip none ((offset + i) % 2 ^ 32) n
    if r ≠ n then return false
    else loadsegFrom ip offset sz is

/-- `loadseg`. -/
def loadseg (ip : InodeNo) (offset sz : ℕ) : Code Bool :=
  loadsegFrom sb ip offset sz ((List.range ((sz + 4095) / 4096)).map (· * 4096))

/-- The bytes of a `struct proghdr`. -/
abbrev PHSIZE : ℕ := 56

/-- The checks of a program header: `memsz`, `vaddr + memsz` and the alignment of `vaddr`. -/
def phdrOk (ph : List UInt8) : Bool :=
  decide (number 8 32 ph ≤ number 8 40 ph) && decide (number 8 16 ph ≤ (number 8 16 ph + number 8 40 ph) % 2 ^ 64) &&
    decide (number 8 16 ph % 4096 = 0)

/-- `exec` loads what a program header asks for: could it? -/
def execSegment (ip : InodeNo) (env : Building) (i : ℕ) (ph : List UInt8) : Code Bool :=
  if number 4 0 ph ≠ 1 then return true
  else if phdrOk ph = false then return false
  else if env.uvmalloc i = false then return false
  else loadseg sb ip (number 8 8 ph % 2 ^ 32) (number 8 32 ph % 2 ^ 32)

/-- The loop of `exec` over the program headers: is the image loaded? -/
def execFrom (ip : InodeNo) (env : Building) : List (ℕ × ℕ) → Code Bool
  | [] => return true
  | (i, off) :: is => do
    let (r, ph) ← readi sb ip none off PHSIZE
    if r ≠ (PHSIZE : ℕ) then return false
    else if ← execSegment sb ip env i ph then execFrom ip env is
    else return false

/-- The bytes of a `struct elfhdr`. -/
abbrev ELFSIZE : ℕ := 64

/-- `ELF_MAGIC`. -/
abbrev ELF_MAGIC : ℕ := 0x464C457F

/-- `exec` reads the file: is the image loaded? -/
def execLoad (ip : InodeNo) (env : Building) : Code Bool := do
  let (r, elf) ← readi sb ip none 0 ELFSIZE
  if r ≠ (ELFSIZE : ℕ) then return false
  else if number 4 0 elf ≠ ELF_MAGIC then return false
  else if env.pagetable = false then return false
  else
    execFrom sb ip env
      ((List.range (number 2 56 elf)).map fun i => (i, (number 8 32 elf + PHSIZE * i) % 2 ^ 32))

/-- `exec`. -/
def exec (path : List UInt8) (env : Building) : Code ℤ := do
  beginOp
  match ← namei sb p path with
  | none =>
    endOp
    return -1
  | some ip =>
    ilock sb ip
    let ok ← execLoad sb ip env
    iunlockput sb ip
    endOp
    if ok then
      match env.rest with
      | some argc => return (argc : ℤ)
      | none => return -1
    else return -1

/-- `sys_exec`, when its arguments could be fetched. -/
def sysExec (path : Option (List UInt8)) (env : Building) : Code ℤ :=
  match path with
  | none => return -1
  | some path => exec sb p path env

/-! ### `proc.c` -/

/-- The loop of `fork` over the descriptors. -/
def forkFds (np : Slot) : List Fd → Code Unit
  | [] => return ()
  | fd :: fds => do
    match ← ofile p fd with
    | none => forkFds np fds
    | some f =>
      filedup f
      setOfile np fd (some f)
      forkFds np fds

/-- `fork`, into the slot that `allocproc` has found. -/
def fork : Option Slot → Code ℤ
  | none => return -1
  | some np => do
    setLife np .live
    forkFds p np (List.finRange NOFILE)
    match ← cwd p with
    | none => panic .null
    | some ip =>
      idup ip
      setCwd np (some ip)
      return 0

/-- The loop of `exit` over the descriptors. -/
def exitFds : List Fd → Code Unit
  | [] => return ()
  | fd :: fds => do
    match ← ofile p fd with
    | none => exitFds fds
    | some f =>
      fileclose sb f
      setOfile p fd none
      exitFds fds

/-- `exit`. -/
def exit : Code ℤ := do
  exitFds sb p (List.finRange NOFILE)
  beginOp
  match ← cwd p with
  | none => panic .null
  | some ip =>
    iput sb ip
    endOp
    setCwd p none
    setLife p .zombie
    return 0

end Code

/-! ### The machine -/

/-- The calls. -/
inductive Call where
  | open (path : Option (List UInt8)) (omode : UInt32)
  | link (old new : Option (List UInt8))
  | unlink (path : Option (List UInt8))
  | mkdir (path : Option (List UInt8))
  | mknod (path : Option (List UInt8)) (major minor : Int32)
  | chdir (path : Option (List UInt8))
  | exec (path : Option (List UInt8)) (env : Building)
  | dup (fd : ℤ)
  | pipe (pg : Option ℕ) (copied : Bool)
  | close (fd : ℤ)
  | read (fd : ℤ) (addr : ℕ) (n : Int32) (dev : Bool) (other : ℤ)
  | write (fd : ℤ) (addr : ℕ) (n : Int32) (dev : Bool) (other : ℤ)
  | fork (np : Option Slot)
  | exit
  /-- `wait` finds that process `q` has exited, and frees its slot. -/
  | wait (q : Slot)

/-- The code of a call. -/
def Call.code (sb : Superblock) (p : Slot) : Call → Code ℤ
  | .open path omode => sysOpen sb p path omode
  | .link old new => sysLink sb p old new
  | .unlink path => sysUnlink sb p path
  | .mkdir path => sysMkdir sb p path
  | .mknod path major minor => sysMknod sb p path major minor
  | .chdir path => sysChdir sb p path
  | .exec path env => sysExec sb p path env
  | .dup fd => sysDup p fd
  | .pipe pg copied => sysPipe sb p pg copied
  | .close fd => sysClose sb p fd
  | .read fd addr n dev other => sysRead sb p fd addr n dev other
  | .write fd addr n dev other => sysWrite sb p fd addr n dev other
  | .fork np => Fs.fork p np
  | .exit => Fs.exit sb p
  | .wait q => do
    setLife q .unused
    return 0

/-- A call of process `p`. -/
def FsState.call (sb : Superblock) (s : FsState) (p : Slot) (c : Call) : Except Fault (ℤ × FsState) :=
  (c.code sb p).run (execCmd sb p) s

/-- What the rest of the kernel can answer to a call. -/
def FsState.Allows (s : FsState) (p : Slot) : Call → Prop
  | .pipe (some pg) _ => s.files.pipe pg = none
  | .fork (some np) => s.files.life np = .unused
  | .wait q => s.files.life q = .zombie
  | .exit => p ≠ 0
  | _ => True

instance (s : FsState) (p : Slot) : (c : Call) → Decidable (s.Allows p c)
  | .pipe (some pg) _ => inferInstanceAs (Decidable (s.files.pipe pg = none))
  | .fork (some np) => inferInstanceAs (Decidable (s.files.life np = .unused))
  | .wait q => inferInstanceAs (Decidable (s.files.life q = .zombie))
  | .exit => inferInstanceAs (Decidable (p ≠ 0))
  | .pipe none _ | .fork none | .open _ _ | .link _ _ | .unlink _ | .mkdir _ | .mknod _ _ _ | .chdir _ | .exec _ _ | .dup _
  | .close _ | .read _ _ _ _ _ | .write _ _ _ _ _ => inferInstanceAs (Decidable True)

/-- The start, on a disk: the first process has the root as its directory, which `userinit` has got with `namei`. -/
def FsState.boot (disk : ℕ → Block) : FsState where
  cache := disk
  home := disk
  held := []
  logged := []
  outstanding := 0
  inode := fun ip => ⟨ROOTDEV, ROOTINO, if ip = 0 then 1 else 0, none, false, .blank 0⟩
  files := .boot
  cwd := fun p => if p = 0 then some 0 else none
  user := fun _ => none

/-- The steps. -/
inductive Act where
  /-- A process makes a call. -/
  | call (p : Slot) (c : Call)
  /-- The cache drops a block. -/
  | evict (b : ℕ)
  /-- User memory changes. -/
  | user (u : ℕ → Option UInt8)

/-- A step. -/
inductive FsState.Step (sb : Superblock) (s : FsState) : Act → FsState → Prop where
  | call {p : Slot} {c : Call} {r : ℤ} {t : FsState} (hp : s.files.life p = .live) (ha : s.Allows p c)
      (hc : s.call sb p c = .ok (r, t)) : Step sb s (.call p c) t
  | evict {b : ℕ} (hb : b ∉ s.logged) : Step sb s (.evict b) { s with cache := Function.update s.cache b (s.home b) }
  | user (u : ℕ → Option UInt8) : Step sb s (.user u) { s with user := u }

/-- **The machine**, on a disk of which `P` holds. -/
def fsMachine (sb : Superblock) (P : (ℕ → Block) → Prop) : LTS FsState Act where
  init s := ∃ disk, P disk ∧ s = .boot disk
  step := FsState.Step sb

end Xv6Shmem.Fs
