import Xv6Shmem.Fs.State

/-!
# `fs.c`

The functions of `kernel/fs.c` as programs over the commands of the state: block allocation,
inodes, the blocks and the contents of a file, directories and paths.

A loop of the source is a recursion: over the blocks of the bitmap, over the offsets of the entries of
a directory, over the elements of a path, or, for the loops of `readi` and `writei`, with as much
fuel as there are bytes, since each turn transfers at least one.
-/

namespace Xv6Shmem.Fs

open Kernel Disk Files ByteArea

variable (sb : Superblock)

/-! ### Blocks -/

/-- `bzero`. -/
def bzero (b : ℕ) : Code Unit := do
  bread b
  setData b fun _ => 0
  logWrite b
  brelse b

/-- The inner loop of `balloc`: the first bit that is `0` among `n` from bit `bi` on. -/
def freeBit (d : Block) : ℕ → ℕ → Option ℕ
  | 0, _ => none
  | n + 1, bi => if getBit d bi = false then some bi else freeBit d n (bi + 1)

/-- The outer loop of `balloc`, over blocks of the bitmap, each given by the first block that it has a bit for. -/
def ballocFrom : List ℕ → Code ℕ
  | [] => return 0
  | b :: bs => do
    bread (sb.bblock b)
    let d ← data (sb.bblock b)
    match freeBit d (min BPB (sb.size - b)) 0 with
    | some bi =>
      setData (sb.bblock b) (setBit bi true d)
      logWrite (sb.bblock b)
      brelse (sb.bblock b)
      bzero (b + bi)
      return b + bi
    | none =>
      brelse (sb.bblock b)
      ballocFrom bs

/-- `balloc`: `0` if there is no free block. -/
def balloc : Code ℕ := ballocFrom sb ((List.range ((sb.size + BPB - 1) / BPB)).map (· * BPB))

/-- `bfree`. -/
def bfree (b : ℕ) : Code Unit := do
  bread (sb.bblock b)
  let d ← data (sb.bblock b)
  if getBit d (b % BPB) = false then panic .freeingFreeBlock
  else
    setData (sb.bblock b) (setBit (b % BPB) false d)
    logWrite (sb.bblock b)
    brelse (sb.bblock b)

/-! ### Inodes -/

/-- The loop of `ialloc`, over inode numbers. -/
def iallocFrom (dev : ℕ) (type : Int16) : List ℕ → Code (Option InodeNo)
  | [] => return none
  | inum :: is => do
    bread (sb.iblock inum)
    let d ← data (sb.iblock inum)
    if (getDinode d (inum % IPB)).type = 0 then
      setData (sb.iblock inum) (setDinode (.blank type) (inum % IPB) d)
      logWrite (sb.iblock inum)
      brelse (sb.iblock inum)
      let ip ← iget dev inum
      return some ip
    else
      brelse (sb.iblock inum)
      iallocFrom dev type is

/-- `ialloc`. -/
def ialloc (dev : ℕ) (type : Int16) : Code (Option InodeNo) := iallocFrom sb dev type ((List.range sb.ninodes).drop 1)

/-- `iupdate`. -/
def iupdate (ip : InodeNo) : Code Unit := do
  let (_, inum) ← ident ip
  bread (sb.iblock inum)
  let d ← data (sb.iblock inum)
  let x ← fields ip
  setData (sb.iblock inum) (setDinode x (inum % IPB) d)
  logWrite (sb.iblock inum)
  brelse (sb.iblock inum)

/-- `ilock` when the inode has to be read. -/
def iread (ip : InodeNo) : Code Unit := do
  let (_, inum) ← ident ip
  bread (sb.iblock inum)
  let d ← data (sb.iblock inum)
  setFields ip (getDinode d (inum % IPB))
  brelse (sb.iblock inum)
  setValid ip true
  if (getDinode d (inum % IPB)).type = 0 then panic .ilockNoType

/-- `ilock`. -/
def ilock (ip : InodeNo) : Code Unit := do
  if (← ref ip) < 1 then panic .ilock
  else
    acquiresleep ip
    if (← valid ip) = false then iread sb ip

/-- `iunlock`. -/
def iunlock (ip : InodeNo) : Code Unit := do
  let h ← holdingsleep ip
  let r ← ref ip
  if h = false ∨ r < 1 then panic .iunlock
  else releasesleep ip

/-- The loop of `itrunc` over direct blocks, from `n` on. -/
def itruncDirect (ip : InodeNo) : List ℕ → Code Unit
  | [] => return ()
  | i :: is => do
    let x ← fields ip
    if x.addr i ≠ 0 then
      bfree sb (x.addr i)
      let x ← fields ip
      setFields ip (x.setAddr i 0)
    itruncDirect ip is

/-- The loop of `itrunc` over the entries of the indirect block. -/
def itruncEntries (a : Block) : List ℕ → Code Unit
  | [] => return ()
  | j :: js => do
    if getEntry a j ≠ 0 then bfree sb (getEntry a j)
    itruncEntries a js

/-- `itrunc` of the indirect block. -/
def itruncIndirect (ip : InodeNo) : Code Unit := do
  let x ← fields ip
  if x.addr NDIRECT ≠ 0 then
    bread (x.addr NDIRECT)
    let a ← data (x.addr NDIRECT)
    itruncEntries sb a (List.range NINDIRECT)
    brelse (x.addr NDIRECT)
    bfree sb (x.addr NDIRECT)
    let x ← fields ip
    setFields ip (x.setAddr NDIRECT 0)

/-- `itrunc`. -/
def itrunc (ip : InodeNo) : Code Unit := do
  itruncDirect sb ip (List.range NDIRECT)
  itruncIndirect sb ip
  let x ← fields ip
  setFields ip { x with size := 0 }
  iupdate sb ip

/-- `iput`. -/
def iput (ip : InodeNo) : Code Unit := do
  if ← iputTest ip then
    itrunc sb ip
    let x ← fields ip
    setFields ip { x with type := 0 }
    iupdate sb ip
    setValid ip false
    releasesleep ip
  unref ip

/-- `iunlockput`. -/
def iunlockput (ip : InodeNo) : Code Unit := do
  iunlock ip
  iput sb ip

/-! ### Inode content -/

/-- `bmap` of a direct block. -/
def bmapDirect (ip : InodeNo) (bn : ℕ) : Code ℕ := do
  let x ← fields ip
  if x.addr bn = 0 then
    let addr ← balloc sb
    if addr = 0 then return 0
    else
      let x ← fields ip
      setFields ip (x.setAddr bn addr)
      return addr
  else return x.addr bn

/-- `bmap` of entry `bn` of the indirect block `ind`. -/
def bmapEntry (ind bn : ℕ) : Code ℕ := do
  bread ind
  let a ← data ind
  if getEntry a bn = 0 then
    let addr ← balloc sb
    if addr ≠ 0 then
      let a ← data ind
      setData ind (setEntry bn addr a)
      logWrite ind
    brelse ind
    return addr
  else
    brelse ind
    return getEntry a bn

/-- `bmap`: `0` if there is no free block. The address of the indirect block is mapped as a direct one is. -/
def bmap (ip : InodeNo) (bn : ℕ) : Code ℕ := do
  if bn < NDIRECT then bmapDirect sb ip bn
  else if bn - NDIRECT < NINDIRECT then
    let ind ← bmapDirect sb ip NDIRECT
    if ind = 0 then return 0
    else bmapEntry sb ind (bn - NDIRECT)
  else panic .bmapOutOfRange

/-- `either_copyout`, to user memory from address `a` on or to the kernel. -/
def eitherCopyout (dst : Option ℕ) (tot : ℕ) (bs : List UInt8) : Code Bool :=
  match dst with
  | some a => copyout (a + tot) bs
  | none => return true

/-- The loop of `readi`: it returns `tot` and what was read. -/
def readiFrom (ip : InodeNo) (dst : Option ℕ) (n : ℕ) : ℕ → ℕ → ℕ → List UInt8 → Code (ℤ × List UInt8)
  | 0, tot, _, acc => return (tot, acc)
  | fuel + 1, tot, off, acc => do
    if tot < n then
      let addr ← bmap sb ip (off / BSIZE)
      if addr = 0 then return (tot, acc)
      else
        bread addr
        let d ← data addr
        let m := min (n - tot) (BSIZE - off % BSIZE)
        let bs := d.slice m (off % BSIZE)
        if ← eitherCopyout dst tot bs then
          brelse addr
          readiFrom ip dst n fuel (tot + m) (off + m) (acc ++ bs)
        else
          brelse addr
          return (-1, acc)
    else return (tot, acc)

/-- `readi`: what it returns, and what it has read. -/
def readi (ip : InodeNo) (dst : Option ℕ) (off n : ℕ) : Code (ℤ × List UInt8) := do
  let x ← fields ip
  let size := x.size.toNat
  if size < off ∨ (off + n) % 2 ^ 32 < off then return (0, [])
  else
    let n := if size < off + n then size - off else n
    readiFrom sb ip dst n n 0 off []

/-- Where `writei` takes its data from. -/
inductive Src where
  /-- These bytes, in the kernel. -/
  | kernel (bs : List UInt8)
  /-- User memory, from this address on. -/
  | user (a : ℕ)

/-- `either_copyin` of `m` bytes, from the byte `tot` of the source on: the bytes that it copies, and whether it succeeds. -/
def eitherCopyin (src : Src) (tot m : ℕ) : Code (List UInt8 × Bool) :=
  match src with
  | .kernel bs => return ((bs.drop tot).take m, true)
  | .user a => copyin (a + tot) m

/-- The loop of `writei`: it returns `tot` and `off`. -/
def writeiFrom (ip : InodeNo) (src : Src) (n : ℕ) : ℕ → ℕ → ℕ → Code (ℕ × ℕ)
  | 0, tot, off => return (tot, off)
  | fuel + 1, tot, off => do
    if tot < n then
      let addr ← bmap sb ip (off / BSIZE)
      if addr = 0 then return (tot, off)
      else
        bread addr
        let m := min (n - tot) (BSIZE - off % BSIZE)
        let (bs, ok) ← eitherCopyin src tot m
        let d ← data addr
        setData addr (copy (off % BSIZE) bs d)
        if ok then
          logWrite addr
          brelse addr
          writeiFrom ip src n fuel (tot + m) (off + m)
        else
          brelse addr
          return (tot, off)
    else return (tot, off)

/-- `writei`. -/
def writei (ip : InodeNo) (src : Src) (off n : ℕ) : Code ℤ := do
  let x ← fields ip
  if x.size.toNat < off ∨ (off + n) % 2 ^ 32 < off then return -1
  else if MAXFILE * BSIZE < (off + n) % 2 ^ 32 then return -1
  else
    let (tot, off) ← writeiFrom sb ip src n n 0 off
    let x ← fields ip
    if x.size.toNat < off then setFields ip { x with size := UInt32.ofNat off }
    iupdate sb ip
    return (tot : ℤ)

/-! ### Directories -/

/-- The offsets of the entries of a directory. -/
def direntOffsets (size : ℕ) : List ℕ := (List.range ((size + DESIZE - 1) / DESIZE)).map (· * DESIZE)

/-- Read the entry at an offset, or panic. -/
def readDirent (dp : InodeNo) (off : ℕ) (e : Fault) : Code Dirent := do
  let (r, bs) ← readi sb dp none off DESIZE
  if r ≠ (DESIZE : ℕ) then
    Prog.call (Cmd.panic e)
    return .ofBytes bs
  else return .ofBytes bs

/-- The loop of `dirlookup`: the entry with the name, and its offset. -/
def dirlookupFrom (dp : InodeNo) (name : List UInt8) : List ℕ → Code (Option (InodeNo × ℕ))
  | [] => return none
  | off :: offs => do
    let de ← readDirent sb dp off .dirlookupRead
    if de.inum ≠ 0 ∧ namecmp name de.name = true then
      let (dev, _) ← ident dp
      let ip ← iget dev de.inum
      return some (ip, off)
    else dirlookupFrom dp name offs

/-- `dirlookup`. -/
def dirlookup (dp : InodeNo) (name : List UInt8) : Code (Option (InodeNo × ℕ)) := do
  let x ← fields dp
  if x.type ≠ T_DIR then panic .dirlookupNotDir
  else dirlookupFrom sb dp name (direntOffsets x.size.toNat)

/-- The loop of `dirlink`: the offset of an empty entry, or the offset after the last. -/
def dirlinkFrom (dp : InodeNo) (last : ℕ) : List ℕ → Code ℕ
  | [] => return last
  | off :: offs => do
    let de ← readDirent sb dp off .dirlinkRead
    if de.inum = 0 then return off
    else dirlinkFrom dp last offs

/-- `dirlink`. -/
def dirlink (dp : InodeNo) (name : List UInt8) (inum : ℕ) : Code ℤ := do
  match ← dirlookup sb dp name with
  | some (ip, _) =>
    iput sb ip
    return -1
  | none =>
    let x ← fields dp
    let offs := direntOffsets x.size.toNat
    let off ← dirlinkFrom sb dp (offs.length * DESIZE) offs
    let r ← writei sb dp (.kernel (Dirent.toBytes ⟨inum % 2 ^ 16, strncpy name⟩)) off DESIZE
    if r ≠ (DESIZE : ℕ) then return -1
    else return 0

/-! ### Paths -/

/-- The byte of `'/'`. -/
def slash : UInt8 := 47

/-- `skipelem`: the next element of a path, cut to `DIRSIZ` bytes, and what comes after it. -/
def skipelem (path : List UInt8) : Option (List UInt8 × List UInt8) :=
  let path := path.dropWhile (· = slash)
  if path = [] then none
  else some ((path.takeWhile (· ≠ slash)).take DIRSIZ, (path.dropWhile (· ≠ slash)).dropWhile (· = slash))

/-- The values that `name` and `path` take in the loop of `namex`. -/
def elemsFrom : ℕ → List UInt8 → List (List UInt8 × List UInt8)
  | 0, _ => []
  | n + 1, path =>
    match skipelem path with
    | none => []
    | some (name, path) => (name, path) :: elemsFrom n path

def elems (path : List UInt8) : List (List UInt8 × List UInt8) := elemsFrom path.length path

/-- The loop of `namex`. -/
def namexFrom (nameiparent : Bool) : List (List UInt8 × List UInt8) → InodeNo → List UInt8 → Code (Option (InodeNo × List UInt8))
  | [], ip, name =>
    if nameiparent then do
      iput sb ip
      return none
    else return some (ip, name)
  | (name, path) :: es, ip, _ => do
    ilock sb ip
    let x ← fields ip
    if x.type ≠ T_DIR then
      iunlockput sb ip
      return none
    else if nameiparent ∧ path = [] then
      iunlock ip
      return some (ip, name)
    else
      match ← dirlookup sb ip name with
      | none =>
        iunlockput sb ip
        return none
      | some (next, _) =>
        iunlockput sb ip
        namexFrom nameiparent es next name

/-- `namex`: the inode, and the value of `name`. -/
def namex (p : Slot) (path : List UInt8) (nameiparent : Bool) : Code (Option (InodeNo × List UInt8)) := do
  if path.head? = some slash then
    let ip ← iget ROOTDEV ROOTINO
    namexFrom sb nameiparent (elems path) ip []
  else
    match ← cwd p with
    | none => panic .null
    | some ip =>
      idup ip
      namexFrom sb nameiparent (elems path) ip []

/-- `namei`. -/
def namei (p : Slot) (path : List UInt8) : Code (Option InodeNo) := do
  let r ← namex sb p path false
  return r.map Prod.fst

/-- `nameiparent`. -/
def nameiparent (p : Slot) (path : List UInt8) : Code (Option (InodeNo × List UInt8)) := namex sb p path true

end Xv6Shmem.Fs
