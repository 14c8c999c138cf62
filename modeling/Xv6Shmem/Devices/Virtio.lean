import Mathlib.Data.List.FinRange
import Mathlib.Data.Nat.ModEq
import Mathlib.Logic.Function.Basic
import Xv6Shmem.Theory.Runs

/-!
# The virtio disk

The driver of `kernel/virtio_disk.c` and the device on the other side of the queue. They share a table of
`NUM` descriptors and two rings with counters of 16 bits: the driver puts the head of a chain of three
descriptors into the `avail` ring, and the device puts it into the `used` ring when the chain is done.

## The model

Processes and buffers are those of any types `P` and `B`. A process calls `virtio_disk_rw` for a buffer whose
sleep-lock it holds, as `bread` and `bwrite` do, and keeps it until the call returns; `bget` here stands for taking
that lock, of a buffer for any block.

A step of a process is a part of `virtio_disk_rw` that it runs with `vdisk_lock`; between the steps the
device goes on. `free_chain` is one step for each descriptor. A process that sleeps may go on at any time,
when the lock is free, and then looks at its condition again. `virtio_disk_intr` is one step for each turn of
its loop; it holds `vdisk_lock` in between.

The device takes the next entry of the `avail` ring, reads the chain, and works on it for as long as it
likes. It completes the chains that it works on in any order: it writes status 0 where the chain says, and
appends the head to the `used` ring.

A panic, and an access outside of a table, is a `Fault`; then nothing goes on.
-/

namespace Xv6Shmem.Virtio

open Function LTS

/-! ### Descriptors and rings -/

/-- `NUM`: the number of descriptors. -/
def NUM : ℕ := 8

instance : NeZero NUM := ⟨by decide⟩

/-- `VRING_DESC_F_NEXT`: chained with another descriptor. -/
def VRING_DESC_F_NEXT : UInt16 := 1

/-- `VRING_DESC_F_WRITE`: the device writes. -/
def VRING_DESC_F_WRITE : UInt16 := 2

/-- `VIRTIO_BLK_T_IN`: read the disk. -/
def VIRTIO_BLK_T_IN : UInt32 := 0

/-- `VIRTIO_BLK_T_OUT`: write the disk. -/
def VIRTIO_BLK_T_OUT : UInt32 := 1

/-- `BSIZE`: the bytes in a block. -/
def BSIZE : UInt32 := 1024

/-- What a descriptor points to. -/
inductive Addr (B : Type) where
  | null
  /-- `&disk.ops[i]`. -/
  | op (i : Fin NUM)
  /-- `b->data`. -/
  | data (b : B)
  /-- `&disk.info[i].status`. -/
  | status (i : Fin NUM)

/-- `struct virtq_desc`. -/
structure Desc (B : Type) where
  addr : Addr B
  len : UInt32
  flags : UInt16
  next : UInt16

/-- `struct virtio_blk_req`. -/
structure BlkReq where
  type : UInt32
  reserved : UInt32
  sector : UInt64
deriving DecidableEq

/-- `struct virtq_avail`. -/
structure Avail where
  idx : UInt16
  ring : Fin NUM → UInt16

/-- `struct virtq_used`, without the lengths, which nobody looks at. -/
structure Used where
  idx : UInt16
  ring : Fin NUM → UInt32

/-- What `disk.info` has for a request. -/
structure Info (B : Type) where
  b : Option B
  status : UInt8

/-- `struct disk`, without its lock. -/
structure Disk (B : Type) where
  desc : Fin NUM → Desc B
  avail : Avail
  used : Used
  free : Fin NUM → Bool
  usedIdx : UInt16
  info : Fin NUM → Info B
  ops : Fin NUM → BlkReq

/-- The panics of the driver, and what it must not do. -/
inductive Fault where
  /-- `panic("free_desc 1")`. -/
  | freeDesc1
  /-- `panic("free_desc 2")`. -/
  | freeDesc2
  /-- `panic("virtio_disk_intr status")`. -/
  | intrStatus
  /-- `disk.info[id]` outside of the table. -/
  | outside
  /-- `b->disk` where `b` is `0`. -/
  | noBuf
deriving DecidableEq

/-- The descriptor of a number. -/
def slot (i : ℕ) : Option (Fin NUM) := if h : i < NUM then some ⟨i, h⟩ else none

/-- The number of a descriptor, as it is kept in a ring. -/
def index (i : Fin NUM) : UInt16 := UInt16.ofNat i

/-- `idx % NUM`. -/
def cell (idx : UInt16) : Fin NUM := Fin.ofNat NUM idx.toNat

section Driver

variable {B : Type}

/-- `alloc_desc`. -/
def allocDesc (d : Disk B) : Option (Fin NUM) × Disk B :=
  match (List.finRange NUM).find? d.free with
  | some i => (some i, { d with free := update d.free i false })
  | none => (none, d)

/-- `free_desc`. -/
def freeDesc (i : ℕ) (d : Disk B) : Except Fault (Disk B) :=
  match slot i with
  | none => .error .freeDesc1
  | some j =>
    if d.free j then .error .freeDesc2
    else .ok { d with desc := update d.desc j ⟨.null, 0, 0, 0⟩, free := update d.free j true }

/-- `idx`: the descriptors of a request. -/
structure Idx where
  i0 : Fin NUM
  i1 : Fin NUM
  i2 : Fin NUM

/-- `alloc3_desc`, with its loops unrolled. -/
def alloc3Desc (d : Disk B) : Except Fault (Option Idx × Disk B) :=
  match allocDesc d with
  | (none, d) => .ok (none, d)
  | (some i0, d) =>
    match allocDesc d with
    | (none, d) => do
      let d ← freeDesc i0 d
      return (none, d)
    | (some i1, d) =>
      match allocDesc d with
      | (none, d) => do
        let d ← freeDesc i0 d
        let d ← freeDesc i1 d
        return (none, d)
      | (some i2, d) => .ok (some ⟨i0, i1, i2⟩, d)

/-- The arguments of `virtio_disk_rw`. -/
structure Call (B : Type) where
  b : B
  write : Bool

/-- The request of a call, where `blockno` is `b->blockno`. -/
def blkReq (blockno : UInt32) (c : Call B) : BlkReq :=
  ⟨bif c.write then VIRTIO_BLK_T_OUT else VIRTIO_BLK_T_IN, 0, (blockno * (BSIZE / 512)).toUInt64⟩

/-- The first descriptor of a chain: the request. -/
def opDesc (x : Idx) : Desc B := ⟨.op x.i0, 16, VRING_DESC_F_NEXT, index x.i1⟩

/-- The second: the data. -/
def dataDesc (c : Call B) (x : Idx) : Desc B :=
  ⟨.data c.b, BSIZE, (bif c.write then 0 else VRING_DESC_F_WRITE) ||| VRING_DESC_F_NEXT, index x.i2⟩

/-- The third: the status. -/
def statusDesc (x : Idx) : Desc B := ⟨.status x.i0, 1, VRING_DESC_F_WRITE, 0⟩

/-- `virtio_disk_rw` formats the three descriptors and records the buffer. -/
def format (blockno : UInt32) (c : Call B) (x : Idx) (d : Disk B) : Disk B :=
  { d with
    ops := update d.ops x.i0 (blkReq blockno c)
    desc := update (update (update d.desc x.i0 (opDesc x)) x.i1 (dataDesc c x)) x.i2
      (statusDesc x)
    info := update d.info x.i0 ⟨some c.b, 0xff⟩ }

/-- `disk.avail->ring[disk.avail->idx % NUM] = idx[0]`. -/
def putAvail (x : Idx) (d : Disk B) : Disk B :=
  { d with avail := { d.avail with ring := update d.avail.ring (cell d.avail.idx) (index x.i0) } }

/-- `disk.avail->idx += 1`. -/
def incAvail (d : Disk B) : Disk B := { d with avail := { d.avail with idx := d.avail.idx + 1 } }

/-- `disk.info[idx[0]].b = 0`. -/
def clearBuf (x : Idx) (d : Disk B) : Disk B :=
  { d with info := update d.info x.i0 { d.info x.i0 with b := none } }

/-- A turn of the loop of `free_chain`: the next descriptor of the chain, if there is one. -/
def freeChain (i : UInt16) (d : Disk B) : Except Fault (Option UInt16 × Disk B) :=
  match slot i.toNat with
  | none => .error .freeDesc1
  | some j => do
    let flag := (d.desc j).flags
    let nxt := (d.desc j).next
    let d ← freeDesc i.toNat d
    return (if flag &&& VRING_DESC_F_NEXT ≠ 0 then some nxt else none, d)

/-- A turn of the loop of `virtio_disk_intr`: the buffer the device is done with. -/
def intr (d : Disk B) : Except Fault (B × Disk B) :=
  match slot (d.used.ring (cell d.usedIdx)).toNat with
  | none => .error .outside
  | some id =>
    if (d.info id).status ≠ 0 then .error .intrStatus
    else
      match (d.info id).b with
      | none => .error .noBuf
      | some b => .ok (b, { d with usedIdx := d.usedIdx + 1 })

/-! ### The device -/

/-- What the device works on: a chain that it has read. -/
structure Item (B : Type) where
  head : Fin NUM
  req : BlkReq
  /-- The buffer. -/
  buf : B
  /-- Where the status is written. -/
  status : Fin NUM

/-- The next descriptor of a chain. -/
def follow (x : Desc B) : Option (Fin NUM) := if x.flags &&& VRING_DESC_F_NEXT ≠ 0 then slot x.next.toNat else none

/-- The device reads a chain. -/
def readChain (d : Disk B) (h : UInt16) : Option (Item B) :=
  (slot h.toNat).bind fun i0 => (follow (d.desc i0)).bind fun i1 => (follow (d.desc i1)).bind fun i2 =>
    match (d.desc i0).addr, (d.desc i1).addr, (d.desc i2).addr with
    | .op j, .data b, .status k => some ⟨i0, d.ops j, b, k⟩
    | _, _, _ => none

/-- The device completes a chain. -/
def complete (x : Item B) (d : Disk B) : Disk B :=
  { d with
    info := update d.info x.status { d.info x.status with status := 0 }
    used := ⟨d.used.idx + 1, update d.used.ring (cell d.used.idx) (UInt32.ofNat x.head)⟩ }

end Driver

/-! ### The system -/

/-- Where a process is in `virtio_disk_rw`. -/
inductive Pc (B : Type) where
  | idle
  /-- Before `acquire(&disk.vdisk_lock)`. -/
  | start (c : Call B)
  /-- Before `alloc3_desc`. -/
  | alloc (c : Call B)
  /-- In `sleep(&disk.free[0], &disk.vdisk_lock)`. -/
  | noDesc (c : Call B)
  /-- Has the descriptors `x`. -/
  | format (c : Call B) (x : Idx)
  /-- Before the entry is put into the `avail` ring. -/
  | ring (c : Call B) (x : Idx)
  /-- Before `disk.avail->idx += 1`. -/
  | publish (c : Call B) (x : Idx)
  /-- Before the test of `b->disk`. -/
  | wait (c : Call B) (x : Idx)
  /-- In `sleep(b, &disk.vdisk_lock)`. -/
  | asleep (c : Call B) (x : Idx)
  /-- In `free_chain`, at descriptor `i`. -/
  | freeing (c : Call B) (x : Idx) (i : UInt16)
  /-- Before `release(&disk.vdisk_lock)`. -/
  | release (c : Call B)

/-- Who has `vdisk_lock`. -/
inductive Holder (P : Type) where
  | proc (p : P)
  /-- `virtio_disk_intr`. -/
  | handler
deriving DecidableEq

/-- The driver, the device, the processes and the buffers. -/
structure VState (P B : Type) where
  disk : Disk B
  lock : Option (Holder P)
  pc : P → Pc B
  /-- `b->disk`. -/
  owned : B → Bool
  /-- `b->blockno`. -/
  blockno : B → UInt32
  /-- Who has `b->lock`. -/
  locked : B → Option P
  /-- How far the device has looked in the `avail` ring. -/
  seen : UInt16
  /-- What the device works on. -/
  working : List (Item B)
  fault : Option Fault

/-- The steps. -/
inductive Act (P B : Type) where
  /-- A process takes the lock of a buffer, which is for block `n`. -/
  | bget (p : P) (b : B) (n : UInt32)
  /-- It gives it back. -/
  | brelse (p : P) (b : B)
  /-- A process calls `virtio_disk_rw`. -/
  | rw (p : P) (c : Call B)
  /-- It goes on. -/
  | run (p : P)
  /-- `virtio_disk_intr` takes `vdisk_lock`. -/
  | intr
  /-- It does a turn of its loop, or it gives the lock back. -/
  | turn
  /-- The device takes the next chain. -/
  | fetch
  /-- The device completes one of the chains that it works on. -/
  | complete (k : ℕ)

section System

variable {P B : Type} [DecidableEq P] [DecidableEq B]

/-- The process goes on at `x`. -/
def VState.goto (s : VState P B) (p : P) (x : Pc B) : VState P B := { s with pc := update s.pc p x }

/-- A process takes `vdisk_lock`. -/
def VState.take (s : VState P B) (p : P) (x : Pc B) : Option (VState P B) :=
  if s.lock = none then some { s.goto p x with lock := some (.proc p) } else none

/-- What was computed, or the fault. -/
def VState.with (s : VState P B) {α : Type} (x : Except Fault α) (f : α → VState P B) : VState P B :=
  match x with
  | .error e => { s with fault := some e }
  | .ok a => f a

/-- A process goes on. -/
def VState.run (s : VState P B) (p : P) : Option (VState P B) :=
  match s.pc p with
  | .idle => none
  | .start c => s.take p (.alloc c)
  | .alloc c => some <| s.with (alloc3Desc s.disk) fun y =>
    match y.1 with
    | none => { s.goto p (.noDesc c) with disk := y.2, lock := none }
    | some x => { s.goto p (.format c x) with disk := y.2 }
  | .noDesc c => s.take p (.alloc c)
  | .format c x => some { s.goto p (.ring c x) with
      disk := format (s.blockno c.b) c x s.disk, owned := update s.owned c.b true }
  | .ring c x => some { s.goto p (.publish c x) with disk := putAvail x s.disk }
  | .publish c x => some { s.goto p (.wait c x) with disk := incAvail s.disk }
  | .wait c x =>
    if s.owned c.b then some { s.goto p (.asleep c x) with lock := none }
    else some { s.goto p (.freeing c x (index x.i0)) with disk := clearBuf x s.disk }
  | .asleep c x => s.take p (.wait c x)
  | .freeing c x i => some <| s.with (freeChain i s.disk) fun y =>
    match y.1 with
    | some nxt => { s.goto p (.freeing c x nxt) with disk := y.2 }
    | none => { s.goto p (.release c) with disk := y.2 }
  | .release _ => some { s.goto p .idle with lock := none }

/-- A step, if it can be taken. -/
def VState.step (s : VState P B) (a : Act P B) : Option (VState P B) :=
  if s.fault ≠ none then none
  else
    match a with
    | .bget p b n =>
      if s.locked b = none then
        some { s with locked := update s.locked b (some p), blockno := update s.blockno b n }
      else none
    | .brelse p b =>
      match s.pc p with
      | .idle => if s.locked b = some p then some { s with locked := update s.locked b none } else none
      | _ => none
    | .rw p c =>
      match s.pc p with
      | .idle => if s.locked c.b = some p then some (s.goto p (.start c)) else none
      | _ => none
    | .run p => s.run p
    | .intr => if s.lock = none then some { s with lock := some .handler } else none
    | .turn =>
      if s.lock = some .handler then
        if s.disk.usedIdx ≠ s.disk.used.idx then
          some <| s.with (intr s.disk) fun y => { s with disk := y.2, owned := update s.owned y.1 false }
        else some { s with lock := none }
      else none
    | .fetch =>
      if s.seen ≠ s.disk.avail.idx then
        (readChain s.disk (s.disk.avail.ring (cell s.seen))).map fun x =>
          { s with seen := s.seen + 1, working := s.working ++ [x] }
      else none
    | .complete k => s.working[k]?.map fun x => { s with disk := complete x s.disk, working := s.working.eraseIdx k }

/-- After `virtio_disk_init`: the queue is zero and all descriptors are free. -/
def VState.init : VState P B where
  disk := ⟨fun _ => ⟨.null, 0, 0, 0⟩, ⟨0, fun _ => 0⟩, ⟨0, fun _ => 0⟩, fun _ => true, 0, fun _ => ⟨none, 0⟩,
    fun _ => ⟨0, 0, 0⟩⟩
  lock := none
  pc := fun _ => .idle
  owned := fun _ => false
  blockno := fun _ => 0
  locked := fun _ => none
  seen := 0
  working := []
  fault := none

/-- The driver and the device. -/
def virtioMachine (P B : Type) [DecidableEq P] [DecidableEq B] : LTS (VState P B) (Act P B) :=
  ⟨fun s => s = .init, fun s a t => s.step a = some t⟩

end System

end Xv6Shmem.Virtio
