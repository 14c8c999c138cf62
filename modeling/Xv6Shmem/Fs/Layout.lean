import Xv6Shmem.Disk.Header
import Mathlib.Data.Fintype.Pi

/-!
# The format of the file system

`kernel/fs.h`: the super block, inodes in the inode blocks, bits in the bitmap blocks, block
numbers in an indirect block, and directory entries. They stand in blocks of bytes at computed
offsets; this module reads and stores them.

## What is proved

* what was stored is read back, for inodes, bits and block numbers, and a store leaves its
  neighbours in the block alone.
* `strncmpEq_iff` — `namecmp` compares what stands before the first `NUL` of `DIRSIZ` bytes.
-/

namespace Xv6Shmem.Fs

open ByteArea Disk

/-- Direct block numbers of an inode. -/
abbrev NDIRECT : ℕ := 12

/-- Block numbers in an indirect block, `BSIZE / sizeof(uint)`. -/
abbrev NINDIRECT : ℕ := 256

/-- The most blocks of a file. -/
abbrev MAXFILE : ℕ := NDIRECT + NINDIRECT

/-- Inodes per block, `BSIZE / sizeof(struct dinode)`. -/
abbrev IPB : ℕ := 16

/-- Bitmap bits per block. -/
abbrev BPB : ℕ := BSIZE * 8

/-- Bytes of a name in a directory. -/
abbrev DIRSIZ : ℕ := 14

/-- Bytes of a directory entry, `sizeof(struct dirent)`. -/
abbrev DESIZE : ℕ := 16

/-- Root i-number. -/
abbrev ROOTINO : ℕ := 1

/-- Device number of the file system's disk. -/
abbrev ROOTDEV : ℕ := 1

/-- Directory. -/
def T_DIR : Int16 := 1

/-- File. -/
def T_FILE : Int16 := 2

/-- Device. -/
def T_DEVICE : Int16 := 3

/-- `struct superblock`. -/
structure Superblock where
  magic : ℕ
  /-- Size of the file system image, in blocks. -/
  size : ℕ
  /-- Number of data blocks. -/
  nblocks : ℕ
  /-- Number of inodes. -/
  ninodes : ℕ
  /-- Number of log blocks. -/
  nlog : ℕ
  /-- Block number of first log block. -/
  logstart : ℕ
  /-- Block number of first inode block. -/
  inodestart : ℕ
  /-- Block number of first free map block. -/
  bmapstart : ℕ
  deriving DecidableEq

/-- Block containing inode `i`. -/
def Superblock.iblock (sb : Superblock) (i : ℕ) : ℕ := i / IPB + sb.inodestart

/-- Block of free map containing bit for block `b`. -/
def Superblock.bblock (sb : Superblock) (b : ℕ) : ℕ := b / BPB + sb.bmapstart

/-- The first data block. -/
def Superblock.nmeta (sb : Superblock) : ℕ := sb.size - sb.nblocks

/-- The parts of the disk come one after the other, in the order of `fs.h`. -/
structure Superblock.Ok (sb : Superblock) : Prop where
  log : 2 ≤ sb.logstart
  inodes : sb.logstart + sb.nlog ≤ sb.inodestart
  bitmap : sb.inodestart + sb.ninodes / IPB + 1 ≤ sb.bmapstart
  data : sb.bmapstart + sb.size / BPB + 1 ≤ sb.nmeta
  nmeta_le : sb.nmeta ≤ sb.size
  size_lt : sb.size < 2 ^ 32
  /-- An inode number fits the `ushort` of a directory entry. -/
  ninodes_le : sb.ninodes ≤ 2 ^ 16
  root : ROOTINO < sb.ninodes

/-! ### Inodes -/

/-- `struct dinode`: what of an inode is on the disk. -/
@[ext]
structure Dinode where
  type : Int16
  /-- Major device number (`T_DEVICE` only). -/
  major : Int16
  /-- Minor device number (`T_DEVICE` only). -/
  minor : Int16
  /-- Number of links to inode in file system. -/
  nlink : Int16
  /-- Size of file (bytes). -/
  size : UInt32
  /-- Data block addresses. -/
  addrs : Fin (NDIRECT + 1) → UInt32
  deriving DecidableEq

/-- `addrs[n]`. -/
def Dinode.addr (x : Dinode) (n : ℕ) : ℕ := if h : n < NDIRECT + 1 then (x.addrs ⟨n, h⟩).toNat else 0

/-- `addrs[n] = b`. -/
def Dinode.setAddr (x : Dinode) (n b : ℕ) : Dinode :=
  { x with addrs := fun k => if k.val = n then UInt32.ofNat b else x.addrs k }

/-- An inode that was cleared, with its type. -/
def Dinode.blank (type : Int16) : Dinode := ⟨type, 0, 0, 0, 0, fun _ => 0⟩

/-- A `short` at an offset. -/
def short (off : ℕ) (d : Block) : Int16 := Int16.ofNat (word 2 off d)

def setShort (off : ℕ) (v : Int16) (d : Block) : Block := setWord 2 off v.toUInt16.toNat d

/-- Inode `k` of an inode block. -/
def getDinode (d : Block) (k : ℕ) : Dinode where
  type := short (64 * k) d
  major := short (64 * k + 2) d
  minor := short (64 * k + 4) d
  nlink := short (64 * k + 6) d
  size := UInt32.ofNat (word 4 (64 * k + 8) d)
  addrs := fun j => UInt32.ofNat (word 4 (64 * k + 12 + 4 * j) d)

/-- Copy the first `n` block addresses to inode `k` of a block. -/
def setAddrs (x : Dinode) (k : ℕ) : ℕ → Block → Block
  | 0, d => d
  | n + 1, d => setWord 4 (64 * k + 12 + 4 * n) (x.addr n) (setAddrs x k n d)

/-- Store inode `k` of an inode block. -/
def setDinode (x : Dinode) (k : ℕ) (d : Block) : Block :=
  setAddrs x k (NDIRECT + 1) <| setWord 4 (64 * k + 8) x.size.toNat <| setShort (64 * k + 6) x.nlink <|
    setShort (64 * k + 4) x.minor <| setShort (64 * k + 2) x.major <| setShort (64 * k) x.type d

section Dinode

variable {x : Dinode} {k n b : ℕ} {d : Block}

theorem Dinode.addr_lt (x : Dinode) (n : ℕ) : x.addr n < 2 ^ 32 := by
  rw [Dinode.addr]
  split
  · exact (x.addrs _).toNat_lt
  · exact Nat.two_pow_pos 32

theorem Dinode.addr_setAddr (hn : n < NDIRECT + 1) (hb : b < 2 ^ 32) (m : ℕ) :
    (x.setAddr n b).addr m = if m = n then b else x.addr m := by
  by_cases hm : m = n
  · subst hm
    simp [Dinode.addr, Dinode.setAddr, hn, UInt32.toNat_ofNat_of_lt' hb]
  · simp [Dinode.addr, Dinode.setAddr, hm]

@[simp] theorem Dinode.size_setAddr : (x.setAddr n b).size = x.size := rfl

theorem short_setShort {off : ℕ} {v : Int16} (h : off + 2 ≤ BSIZE) : short off (setShort off v d) = v := by
  have hlt : v.toUInt16.toNat < 256 ^ 2 := v.toUInt16.toNat_lt
  rw [short, setShort, word_setWord h, Nat.mod_eq_of_lt hlt]
  exact Int16.toBitVec.inj (by simp)

theorem short_setShort_of_disjoint {off off' : ℕ} {v : Int16} (h : off' + 2 ≤ off ∨ off + 2 ≤ off') :
    short off' (setShort off v d) = short off' d := by
  rw [short, setShort, word_setWord_of_disjoint h, short]

theorem word_setAddrs_of_le {m off : ℕ} (h : off + m ≤ 64 * k + 12) : word m off (setAddrs x k n d) = word m off d := by
  induction n with
  | zero => rfl
  | succ n ih => rw [setAddrs, word_setWord_of_disjoint (by omega), ih]

theorem word_setAddrs {j : ℕ} (hk : k < IPB) (hn : n ≤ NDIRECT + 1) (hj : j < n) :
    word 4 (64 * k + 12 + 4 * j) (setAddrs x k n d) = x.addr j := by
  replace hk : k < 16 := hk
  replace hn : n ≤ 13 := hn
  induction n with
  | zero => omega
  | succ n ih =>
    by_cases hjn : j = n
    · subst hjn
      have hlt : x.addr j < 256 ^ 4 := x.addr_lt j
      have hin : 64 * k + 12 + 4 * j + 4 ≤ BSIZE := by simp only [BSIZE]; omega
      rw [setAddrs, word_setWord hin, Nat.mod_eq_of_lt hlt]
    · rw [setAddrs, word_setWord_of_disjoint (by omega), ih (by omega) (by omega)]

theorem byte_setAddrs_of_not {i : ℕ} (h : i < 64 * k ∨ 64 * k + 12 + 4 * n ≤ i) :
    (setAddrs x k n d).byte i = d.byte i := by
  induction n with
  | zero => rfl
  | succ n ih => rw [setAddrs, byte_setWord_of_not (by omega), ih (by omega)]

theorem byte_setDinode_of_not {i : ℕ} (h : i < 64 * k ∨ 64 * k + 64 ≤ i) : (setDinode x k d).byte i = d.byte i := by
  rw [setDinode, byte_setAddrs_of_not (by omega)]
  simp only [setShort]
  rw [byte_setWord_of_not (by omega), byte_setWord_of_not (by omega), byte_setWord_of_not (by omega),
    byte_setWord_of_not (by omega), byte_setWord_of_not (by omega)]

/-- **An inode that was stored is read back**. -/
theorem getDinode_setDinode (hk : k < IPB) : getDinode (setDinode x k d) k = x := by
  have hk' : k < 16 := hk
  have hshort : ∀ off (d' : Block), off + 2 ≤ 64 * k + 12 → short off (setAddrs x k (NDIRECT + 1) d') = short off d' := by
    intro off d' hoff
    rw [short, word_setAddrs_of_le hoff, short]
  have hsize : ∀ off v (d' : Block), off + 2 ≤ 64 * k + 8 → short off (setWord 4 (64 * k + 8) v d') = short off d' := by
    intro off v d' hoff
    rw [short, word_setWord_of_disjoint (.inl hoff), short]
  refine Dinode.ext ?_ ?_ ?_ ?_ ?_ (funext fun j => ?_) <;> simp only [getDinode, setDinode]
  · rw [hshort _ _ (by omega), hsize _ _ _ (by omega), short_setShort_of_disjoint (by omega),
      short_setShort_of_disjoint (by omega), short_setShort_of_disjoint (by omega), short_setShort (by simp only [BSIZE]; omega)]
  · rw [hshort _ _ (by omega), hsize _ _ _ (by omega), short_setShort_of_disjoint (by omega),
      short_setShort_of_disjoint (by omega), short_setShort (by simp only [BSIZE]; omega)]
  · rw [hshort _ _ (by omega), hsize _ _ _ (by omega), short_setShort_of_disjoint (by omega),
      short_setShort (by simp only [BSIZE]; omega)]
  · rw [hshort _ _ (by omega), hsize _ _ _ (by omega), short_setShort (by simp only [BSIZE]; omega)]
  · have hlt : x.size.toNat < 256 ^ 4 := x.size.toNat_lt
    rw [word_setAddrs_of_le (by omega), word_setWord (by simp only [BSIZE]; omega), Nat.mod_eq_of_lt hlt,
      UInt32.ofNat_toNat]
  · rw [word_setAddrs hk le_rfl j.isLt, Dinode.addr, dif_pos j.isLt, UInt32.ofNat_toNat]

theorem getDinode_congr {d' : Block} (h : ∀ i, 64 * k ≤ i → i < 64 * k + 64 → d.byte i = d'.byte i) :
    getDinode d k = getDinode d' k := by
  have hword : ∀ m off, 64 * k ≤ off → off + m ≤ 64 * k + 64 → word m off d = word m off d' := fun m off h1 h2 =>
    word_congr fun i hi hi' => h i (by omega) (by omega)
  simp only [getDinode, short]
  rw [hword 2 _ (by omega) (by omega), hword 2 _ (by omega) (by omega), hword 2 _ (by omega) (by omega),
    hword 2 _ (by omega) (by omega), hword 4 _ (by omega) (by omega)]
  refine congrArg _ (funext fun j => ?_)
  have hj : j.val < 13 := j.isLt
  rw [hword 4 _ (by omega) (by omega)]

/-- **A store leaves the other inodes** of the block alone. -/
theorem getDinode_setDinode_of_ne {k' : ℕ} (h : k' ≠ k) : getDinode (setDinode x k d) k' = getDinode d k' :=
  getDinode_congr fun i h1 h2 => byte_setDinode_of_not (by omega)

end Dinode

/-! ### The bitmap -/

/-- The bit of a bitmap block: `data[bi/8] & m`, with `m = 1 << (bi % 8)`. -/
def getBit (d : Block) (bi : ℕ) : Bool := (d.byte (bi / 8)).toBitVec.getLsbD (bi % 8)

/-- `data[bi/8] |= m`, or `data[bi/8] &= ~m`. -/
def setBit (bi : ℕ) (v : Bool) (d : Block) : Block := fun i =>
  if i.val = bi / 8 then
    let m : UInt8 := ⟨1#8 <<< (bi % 8)⟩
    if v then d i ||| m else d i &&& ~~~m
  else d i

section Bitmap

variable {d : Block} {bi bj : ℕ} {v : Bool}

theorem getBit_setBit (h : bi < BPB) : getBit (setBit bi v d) bj = if bj = bi then v else getBit d bj := by
  have hin : bi / 8 < BSIZE := by simp only [BPB, BSIZE] at h ⊢; omega
  have hmod := Nat.mod_lt bj (show 0 < 8 by decide)
  by_cases hbyte : bj / 8 = bi / 8
  · have hset : ((setBit bi v d).byte (bj / 8)).toBitVec =
        if v then (d.byte (bi / 8)).toBitVec ||| 1#8 <<< (bi % 8) else (d.byte (bi / 8)).toBitVec &&& ~~~(1#8 <<< (bi % 8)) := by
      rw [hbyte]
      cases v <;> simp [byte, setBit, hin]
    have heq : bj = bi ↔ bj % 8 = bi % 8 := by omega
    rw [getBit, hset, getBit, hbyte]
    cases v <;> by_cases hbit : bj % 8 = bi % 8
    · simp [heq, hbit, Nat.mod_lt]
    · have : bj % 8 < bi % 8 ∨ bj % 8 - bi % 8 ≠ 0 := by omega
      simp [heq, hbit, hmod]
      omega
    · simp [heq, hbit, Nat.mod_lt]
    · simp [heq, hbit, hmod]
      omega
  · have hne : bj ≠ bi := fun h => hbyte (by rw [h])
    rw [getBit, getBit, if_neg hne]
    congr 2
    simp [byte, setBit, hbyte]

end Bitmap

/-! ### Indirect blocks -/

/-- Entry `j` of an indirect block. -/
def getEntry (d : Block) (j : ℕ) : ℕ := word 4 (4 * j) d

def setEntry (j b : ℕ) (d : Block) : Block := setWord 4 (4 * j) b d

theorem getEntry_setEntry {d : Block} {j b : ℕ} (hj : j < NINDIRECT) (hb : b < 2 ^ 32) (j' : ℕ) :
    getEntry (setEntry j b d) j' = if j' = j then b else getEntry d j' := by
  by_cases h : j' = j
  · subst h
    have hb' : b < 256 ^ 4 := hb
    have hin : 4 * j' + 4 ≤ BSIZE := by simp only [BSIZE, NINDIRECT] at hj ⊢; omega
    rw [if_pos rfl, getEntry, setEntry, word_setWord hin, Nat.mod_eq_of_lt hb']
  · rw [if_neg h, getEntry, setEntry, word_setWord_of_disjoint (by omega), getEntry]

/-! ### Directories -/

/-- A string of the kernel: what stands before the first `NUL` of at most `n` bytes. -/
def cstr (n : ℕ) (l : List UInt8) : List UInt8 := (l.take n).takeWhile (· ≠ 0)

/-- `strncmp(p, q, n) == 0`; after the end of a list there is a `NUL`. -/
def strncmpEq : ℕ → List UInt8 → List UInt8 → Bool
  | 0, _, _ => true
  | n + 1, p, q =>
    if p.headD 0 ≠ 0 ∧ p.headD 0 = q.headD 0 then strncmpEq n p.tail q.tail else p.headD 0 == q.headD 0

theorem strncmpEq_iff {n : ℕ} {p q : List UInt8} : strncmpEq n p q = true ↔ cstr n p = cstr n q := by
  induction n generalizing p q with
  | zero => simp [strncmpEq, cstr]
  | succ n ih =>
    have hcons : ∀ (a : UInt8) (l : List UInt8), cstr (n + 1) (a :: l) = if a = 0 then [] else a :: cstr n l := by
      intro a l
      by_cases ha : a = 0 <;> simp [cstr, ha]
    have hnil : cstr (n + 1) [] = [] := rfl
    rw [strncmpEq]
    cases p with
    | nil =>
      cases q with
      | nil => simp [hnil]
      | cons b q =>
        rw [hcons, hnil]
        by_cases hb : b = 0 <;> simp [hb, Ne.symm]
    | cons a p =>
      cases q with
      | nil =>
        rw [hcons, hnil]
        by_cases ha : a = 0 <;> simp [ha]
      | cons b q =>
        rw [hcons, hcons]
        by_cases ha : a = 0
        · subst ha
          by_cases hb : b = 0
          · simp [hb]
          · simp [hb, Ne.symm hb]
        · by_cases hab : a = b
          · subst hab
            simp [ha, ih]
          · by_cases hb : b = 0 <;> simp [ha, hab, hb]

/-- `namecmp(s, t) == 0`. -/
def namecmp (s t : List UInt8) : Bool := strncmpEq DIRSIZ s t

/-- `struct dirent`. -/
structure Dirent where
  inum : ℕ
  /-- The `DIRSIZ` bytes of the name. -/
  name : List UInt8
  deriving DecidableEq

/-- A directory entry from its bytes. -/
def Dirent.ofBytes (bs : List UInt8) : Dirent where
  inum := (bs.getD 0 0).toNat + 256 * (bs.getD 1 0).toNat
  name := (bs.drop 2).take DIRSIZ

/-- The bytes of a directory entry. -/
def Dirent.toBytes (de : Dirent) : List UInt8 := UInt8.ofNat de.inum :: UInt8.ofNat (de.inum / 256) :: de.name

/-- `strncpy(de.name, name, DIRSIZ)`, for a string: what is left is filled with `NUL`. -/
def strncpy (name : List UInt8) : List UInt8 := name.take DIRSIZ ++ List.replicate (DIRSIZ - name.length) 0

end Xv6Shmem.Fs
