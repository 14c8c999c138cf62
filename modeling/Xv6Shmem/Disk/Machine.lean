import Xv6Shmem.Disk.Header
import Xv6Shmem.Kernel.Table
import Xv6Shmem.Theory.Program
import Xv6Shmem.Theory.Runs

/-!
# The buffer cache and the log

`kernel/bio.c` and `kernel/log.c`: the cache of disk blocks, the log through which file-system
operations write, commit, and recovery after a crash.

## The model

The store is the disk, the buffers with the order in which they were used, and the log. A
command is what a process does to it between two points at which another process may come in:
what stands under `bcache.lock` or `log.lock`, to take or give back the sleep-lock of a
buffer, a transfer of a block between disk and buffer, or an access to the data of a buffer.
The functions of the source are programs over the commands, and run step by step, interleaved
with those of other processes. The disk writes one block at a time, in the order in which the
writes are made.

Between two calls a process may do whatever a file-system operation does: begin and end, get
a buffer, change its data, log it, and release it. It changes a buffer only within an
operation, only one that it holds, and only of a block outside the log. A `Client` is what the
process has in hand.

A crash may come at any point. What is not on the disk is lost, and the first process runs
`recover_from_log` before anything else.

A panic is no step. Three parts of the state are not in the source and no command looks at
them: the buffers that each process has a reference to, the number of calls of `bpin` less
those of `bunpin` for each buffer, and whether the process that commits is in `install_trans`.
-/

namespace Xv6Shmem.Disk

open Function Kernel

/-- A buffer, as a pointer to it. -/
abbrev BufNo := Fin NBUF

instance : NeZero NBUF := ⟨by decide⟩

/-- Where the log is on the disk, `log.start` and `log.size`. -/
structure LogArea where
  /-- The header block. -/
  start : ℕ
  /-- The number of blocks, with the header. -/
  size : ℕ

/-- A block outside the log. -/
def LogArea.Home (L : LogArea) (b : ℕ) : Prop := b < 2 ^ 32 ∧ b ≠ L.start ∧ (b < L.start ∨ L.start + L.size ≤ b)

instance (L : LogArea) (b : ℕ) : Decidable (L.Home b) := inferInstanceAs (Decidable (_ ∧ _))

/-- `struct buf`. -/
structure Buf where
  /-- `dev` and `blockno`: the block, or `none` if the buffer was never used. -/
  block : Option ℕ
  /-- Has the data been read from disk? -/
  valid : Bool
  /-- The number of references. -/
  refcnt : ℕ
  /-- Who holds the sleep-lock. -/
  lock : Option Slot
  /-- The data. -/
  data : Block

/-- The disk, the buffer cache and the log. -/
structure Store where
  /-- The disk. -/
  disk : ℕ → Block
  /-- The buffers. -/
  buf : BufNo → Buf
  /-- The buffers, the most recently used first. -/
  lru : List BufNo
  /-- `log.lh`: the numbers of the logged blocks. -/
  lh : List ℕ
  /-- `log.outstanding`. -/
  outstanding : ℕ
  /-- `log.committing`. -/
  committing : Bool
  /-- `initlog` has returned. -/
  ready : Bool
  /-- The process that commits, or recovers, is in `install_trans`, or about to set `log.lh.n` to `0`. -/
  installing : Bool
  /-- The buffers that a process has a reference to. -/
  ptrs : Slot → List BufNo
  /-- Calls of `bpin` less calls of `bunpin`. -/
  pins : BufNo → ℤ

/-- What a process does to the store. -/
inductive Cmd where
  /-- `bget`, up to where it takes the sleep-lock. -/
  | bget (b : ℕ)
  /-- `acquiresleep`. -/
  | acquiresleep (k : BufNo)
  /-- `b->valid`. -/
  | valid (k : BufNo)
  /-- `virtio_disk_rw` from the disk, and the buffer is valid. -/
  | readDisk (k : BufNo)
  /-- `virtio_disk_rw` to the disk, in `bwrite`. -/
  | writeDisk (k : BufNo)
  /-- The data of a buffer. -/
  | data (k : BufNo)
  /-- Change the data of a buffer. -/
  | setData (k : BufNo) (d : Block)
  /-- `releasesleep`, in `brelse`. -/
  | releasesleep (k : BufNo)
  /-- The part of `brelse` under `bcache.lock`. -/
  | unref (k : BufNo)
  /-- `bunpin`. -/
  | bunpin (k : BufNo)
  /-- `begin_op`. -/
  | beginOp
  /-- `end_op` up to where it commits: does it? -/
  | endOp
  /-- `log_write`, with its call of `bpin`. -/
  | logWrite (k : BufNo)
  /-- `log.lh`. -/
  | lh
  /-- Set `log.lh`. -/
  | setLh (l : List ℕ)
  /-- `log.committing` becomes `0`. -/
  | endCommit
  /-- `install_trans` starts, or is over and `log.lh.n` is `0`. -/
  | installing (b : Bool)
  /-- `initlog` returns. -/
  | ready

/-- What a command answers. -/
def Cmd.Res : Cmd → Type
  | .bget _ => BufNo
  | .valid _ | .endOp => Bool
  | .data _ => Block
  | .lh => List ℕ
  | _ => Unit

/-- Code over the store. -/
abbrev Code := Prog Cmd.Res

/-! ### Commands -/

def bget (b : ℕ) : Code BufNo := Prog.call (Cmd.bget b)

def acquiresleep (k : BufNo) : Code Unit := Prog.call (Cmd.acquiresleep k)

def valid (k : BufNo) : Code Bool := Prog.call (Cmd.valid k)

def readDisk (k : BufNo) : Code Unit := Prog.call (Cmd.readDisk k)

def writeDisk (k : BufNo) : Code Unit := Prog.call (Cmd.writeDisk k)

def data (k : BufNo) : Code Block := Prog.call (Cmd.data k)

def setData (k : BufNo) (d : Block) : Code Unit := Prog.call (Cmd.setData k d)

def releasesleep (k : BufNo) : Code Unit := Prog.call (Cmd.releasesleep k)

def unref (k : BufNo) : Code Unit := Prog.call (Cmd.unref k)

def bunpin (k : BufNo) : Code Unit := Prog.call (Cmd.bunpin k)

def beginOp : Code Unit := Prog.call Cmd.beginOp

def endOp : Code Bool := Prog.call Cmd.endOp

def logWrite (k : BufNo) : Code Unit := Prog.call (Cmd.logWrite k)

def lh : Code (List ℕ) := Prog.call Cmd.lh

def setLh (l : List ℕ) : Code Unit := Prog.call (Cmd.setLh l)

def endCommit : Code Unit := Prog.call Cmd.endCommit

def installing (b : Bool) : Code Unit := Prog.call (Cmd.installing b)

def ready : Code Unit := Prog.call Cmd.ready

/-! ### `bio.c` -/

/-- `bread`. -/
def bread (b : ℕ) : Code BufNo := do
  let k ← bget b
  acquiresleep k
  if ← valid k then return k
  else
    readDisk k
    return k

/-- `bwrite`. -/
def bwrite (k : BufNo) : Code Unit := writeDisk k

/-- `brelse`. -/
def brelse (k : BufNo) : Code Unit := do
  releasesleep k
  unref k

/-! ### `log.c` -/

section Log

variable (L : LogArea)

/-- The loop of `write_log`, from block `tail` of the log on. -/
def writeLogFrom : ℕ → List ℕ → Code Unit
  | _, [] => return ()
  | tail, b :: l => do
    let dst ← bread (L.start + tail + 1)
    let src ← bread b
    let d ← data src
    setData dst d
    bwrite dst
    brelse src
    brelse dst
    writeLogFrom (tail + 1) l

/-- `write_log`. -/
def writeLog : Code Unit := do
  let l ← lh
  writeLogFrom L 0 l

/-- The loop of `install_trans`, from block `tail` of the log on. -/
def installFrom (recovering : Bool) : ℕ → List ℕ → Code Unit
  | _, [] => return ()
  | tail, b :: l => do
    let lbuf ← bread (L.start + tail + 1)
    let dbuf ← bread b
    let d ← data lbuf
    setData dbuf d
    bwrite dbuf
    if recovering = false then bunpin dbuf
    brelse lbuf
    brelse dbuf
    installFrom recovering (tail + 1) l

/-- `install_trans`, and the assignment of `0` to `log.lh.n` that follows each call of it. -/
def installTrans (recovering : Bool) : Code Unit := do
  installing true
  let l ← lh
  installFrom L recovering 0 l
  setLh []
  installing false

/-- `read_head`. -/
def readHead : Code Unit := do
  let k ← bread L.start
  let d ← data k
  setLh (header d)
  brelse k

/-- `write_head`. -/
def writeHead : Code Unit := do
  let k ← bread L.start
  let d ← data k
  let l ← lh
  setData k (putHeader l d)
  bwrite k
  brelse k

/-- `commit`. -/
def commit : Code Unit := do
  let l ← lh
  if l ≠ [] then
    writeLog L
    writeHead L
    installTrans L false
    writeHead L

/-- `recover_from_log`, in `initlog`. -/
def recoverFromLog : Code Unit := do
  readHead L
  installTrans L true
  writeHead L
  ready

/-! ### Operations -/

/-- What a process that uses the file system has in hand. -/
structure Client where
  /-- It is within an operation. -/
  inOp : Bool
  /-- The buffers that it holds, with their blocks. -/
  own : BufNo → Option ℕ
  /-- It has changed the data of the buffer since it last logged it. -/
  dirty : BufNo → Bool
  /-- The blocks that the operation has logged. -/
  logged : List ℕ

/-- A process with nothing in hand. -/
def Client.idle : Client := ⟨false, fun _ => none, fun _ => false, []⟩

/-- What a process can do next. -/
inductive Call where
  | beginOp
  | endOp
  | bread (b : ℕ)
  | modify (k : BufNo) (d : Block)
  | logWrite (k : BufNo)
  | brelse (k : BufNo)

/-- It has what it needs for the call. What it changes it has to log before the operation ends. -/
def Client.Allows (c : Client) : Call → Prop
  | .beginOp => c.inOp = false
  | .endOp => c.inOp = true ∧ ∀ k, c.own k ≠ none → c.dirty k = false
  | .bread _ => True
  | .modify k _ | .logWrite k => c.inOp = true ∧ ∃ b, c.own k = some b ∧ L.Home b
  | .brelse k => c.own k ≠ none

instance (o : Option ℕ) : Decidable (∃ b, o = some b ∧ L.Home b) :=
  decidable_of_iff (∃ b ∈ o, L.Home b) Iff.rfl

instance (c : Client) : DecidablePred (c.Allows L)
  | .beginOp => inferInstanceAs (Decidable (_ = _))
  | .endOp => inferInstanceAs (Decidable (_ ∧ _))
  | .bread _ => inferInstanceAs (Decidable True)
  | .modify _ _ | .logWrite _ => inferInstanceAs (Decidable (_ ∧ _))
  | .brelse _ => inferInstanceAs (Decidable (_ ≠ _))

/-- The code of a call; it ends with what the process has in hand. -/
def Call.code (c : Client) : Call → Code Client
  | .beginOp => do
    Disk.beginOp
    return { c with inOp := true, logged := [] }
  | .endOp => do
    if ← Disk.endOp then
      commit L
      endCommit
    return { c with inOp := false }
  | .bread b => do
    let k ← Disk.bread b
    return { c with own := update c.own k (some b), dirty := update c.dirty k false }
  | .modify k d => do
    setData k d
    return { c with dirty := update c.dirty k true }
  | .logWrite k => do
    Disk.logWrite k
    return { c with
      dirty := update c.dirty k false
      logged := (c.own k).toList.foldl (fun l b => l.insert b) c.logged }
  | .brelse k => do
    Disk.brelse k
    return { c with own := update c.own k none, dirty := update c.dirty k false }

/-! ### The machine -/

/-- Change a buffer. -/
def Store.setBuf (s : Store) (k : BufNo) (x : Buf) : Store := { s with buf := update s.buf k x }

/-- Write a block of the disk. -/
def Store.setDisk (s : Store) (b : ℕ) (d : Block) : Store := { s with disk := update s.disk b d }

/-- The process has one more reference to the buffer. -/
def Store.addPtr (s : Store) (a : Slot) (k : BufNo) : Store :=
  { s with ptrs := update s.ptrs a (k :: s.ptrs a) }

/-- Is the block already cached? -/
def Store.findCached (s : Store) (b : ℕ) : Option BufNo := s.lru.find? fun k => (s.buf k).block = some b

/-- The least recently used buffer that nobody refers to. -/
def Store.findFree (s : Store) : Option BufNo := s.lru.reverse.find? fun k => (s.buf k).refcnt = 0

/-- What a command of process `a` does. -/
def Store.exec (s : Store) (a : Slot) : (c : Cmd) → Option (c.Res × Store)
  | .bget b =>
    match s.findCached b with
    | some k => some (k, (s.setBuf k { s.buf k with refcnt := (s.buf k).refcnt + 1 }).addPtr a k)
    | none =>
      -- not cached: recycle a buffer; if there is none, panic
      match s.findFree with
      | some k => some (k, (s.setBuf k { s.buf k with block := some b, valid := false, refcnt := 1 }).addPtr a k)
      | none => none
  | .acquiresleep k =>
    if (s.buf k).lock = none then some ((), s.setBuf k { s.buf k with lock := some a }) else none
  | .valid k => some ((s.buf k).valid, s)
  | .readDisk k =>
    (s.buf k).block.map fun b => ((), s.setBuf k { s.buf k with valid := true, data := s.disk b })
  | .writeDisk k =>
    if (s.buf k).lock = some a then
      (s.buf k).block.map fun b => ((), s.setDisk b (s.buf k).data)
    else none
  | .data k => some ((s.buf k).data, s)
  | .setData k d => some ((), s.setBuf k { s.buf k with data := d })
  | .releasesleep k =>
    if (s.buf k).lock = some a then some ((), s.setBuf k { s.buf k with lock := none }) else none
  | .unref k =>
    let n := (s.buf k).refcnt - 1
    some ((), { s.setBuf k { s.buf k with refcnt := n } with
      lru := if n = 0 then k :: s.lru.erase k else s.lru
      ptrs := update s.ptrs a ((s.ptrs a).erase k) })
  | .bunpin k =>
    some ((), { s.setBuf k { s.buf k with refcnt := (s.buf k).refcnt - 1 } with
      pins := update s.pins k (s.pins k - 1) })
  | .beginOp =>
    if s.committing = false ∧ s.lh.length + (s.outstanding + 1) * MAXOPBLOCKS ≤ LOGSIZE then
      some ((), { s with outstanding := s.outstanding + 1 })
    else none
  | .endOp =>
    if s.committing then none
    else if s.outstanding - 1 = 0 then some (true, { s with outstanding := s.outstanding - 1, committing := true })
    else some (false, { s with outstanding := s.outstanding - 1 })
  | .logWrite k =>
    if s.lh.length < LOGSIZE ∧ s.lh.length + 1 < L.size ∧ 1 ≤ s.outstanding then
      (s.buf k).block.map fun b =>
        if b ∈ s.lh then ((), s)
        else
          ((), { s.setBuf k { s.buf k with refcnt := (s.buf k).refcnt + 1 } with
            lh := s.lh ++ [b]
            pins := update s.pins k (s.pins k + 1) })
    else none
  | .lh => some (s.lh, s)
  | .setLh l => some ((), { s with lh := l })
  | .endCommit => some ((), { s with committing := false })
  | .installing b => some ((), { s with installing := b })
  | .ready => some ((), { s with ready := true })

/-- The state of the machine: the store, and what each process has to do. -/
structure DiskState where
  /-- The store. -/
  store : Store
  /-- What the process has to do, and what it has in hand then. -/
  code : Slot → Code Client

/-- The steps. -/
inductive Act where
  /-- The process does what is next. -/
  | run (a : Slot)
  /-- The process makes a call. -/
  | begin (a : Slot) (call : Call)
  /-- The machine stops and starts again. -/
  | crash

/-- The store when the machine starts: `binit` has put every buffer at the front of the list. -/
def Store.cold (disk : ℕ → Block) : Store where
  disk := disk
  buf := fun _ => ⟨none, false, 0, none, fun _ => 0⟩
  lru := (List.finRange NBUF).reverse
  lh := []
  outstanding := 0
  committing := false
  ready := false
  installing := false
  ptrs := fun _ => []
  pins := fun _ => 0

/-- The machine starts: the first process recovers. -/
def DiskState.boot (disk : ℕ → Block) : DiskState where
  store := .cold disk
  code := fun a => if a = 0 then recoverFromLog L >>= fun _ => .ret .idle else .ret .idle

/-- Process `a` goes on with `x`. -/
def DiskState.go (s : DiskState) (a : Slot) (x : Code Client) : DiskState :=
  { s with code := update s.code a x }

/-- A step. -/
def DiskState.step (s : DiskState) : Act → Option DiskState
  | .run a =>
    match s.code a with
    | .ret _ => none
    | .op c k => (s.store.exec L a c).map fun x => DiskState.go { s with store := x.2 } a (k x.1)
  | .begin a call =>
    match s.code a with
    | .ret c => if s.store.ready = true ∧ c.Allows L call then some (s.go a (call.code L c)) else none
    | .op _ _ => none
  | .crash => some (.boot L s.store.disk)

/-- The blocks of a transaction: outside the log, each once, and there is room for them. -/
def LogOk (l : List ℕ) : Prop :=
  l.Nodup ∧ (∀ b ∈ l, L.Home b) ∧ l.length ≤ LOGSIZE ∧ l.length ≤ L.size - 1

/-- The header on the disk is that of a transaction. -/
def HeaderOk (disk : ℕ → Block) : Prop := LogOk L (header (disk L.start))

/-- The machine, on a disk with a log. -/
def diskMachine : LTS DiskState Act where
  init := fun s => ∃ disk, HeaderOk L disk ∧ s = .boot L disk
  step := fun s act t => s.step L act = some t

end Log

end Xv6Shmem.Disk
