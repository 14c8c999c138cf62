import Mathlib.Data.List.GetD
import Xv6Shmem.Fs.Layout

/-!
# Volumes

A volume is what the blocks of the disk and the inodes in memory mean together: the inodes by their
numbers, the blocks that are in use, and the data of the blocks behind the meta data. A file is what its
users see of an inode: its type, its link count and its bytes.

A volume is in order if every block that belongs to a file is a data block in use and belongs to nothing
else, and if no file has a hole. `OkOn` says so of a set of inodes, since code that takes a file apart has
a file that is not in order.

## What is proved

* `OkOn.alloc`, `OkOn.setAddr`, `OkOn.setEntry`, `OkOn.setData`, `OkOn.free` — the changes that code
  makes keep a volume in order, and what they do to the blocks of a file.
* `file_eq` — what changes neither the fields nor the bytes of a file does not change the file.
-/

namespace Xv6Shmem.Fs

open Function ByteArea Disk

/-- A volume. -/
@[ext]
structure Vol where
  inode : ℕ → Dinode
  /-- The bitmap. -/
  used : ℕ → Bool
  /-- The data blocks. -/
  blk : ℕ → Block

/-- Where an inode keeps a block number. -/
inductive Place where
  /-- In `addrs`. -/
  | addr (n : ℕ)
  /-- In the indirect block. -/
  | entry (j : ℕ)
  deriving DecidableEq

/-- Where the number of block `n` of a file is kept. -/
def filePlace (n : ℕ) : Place := if n < NDIRECT then .addr n else .entry (n - NDIRECT)

/-- What the users of a file see. -/
structure FileData where
  type : Int16
  major : Int16
  minor : Int16
  nlink : Int16
  bytes : List UInt8
  deriving DecidableEq

/-- No file. -/
def FileData.free : FileData := ⟨0, 0, 0, 0, []⟩

namespace Vol

variable {sb : Superblock} {V V' : Vol} {A : ℕ → Prop} {i j n b : ℕ} {pl : Place} {x : Dinode}

/-- The block number at a place of inode `i`; `0` if there is none. -/
def loc (V : Vol) (i : ℕ) : Place → ℕ
  | .addr n => (V.inode i).addr n
  | .entry j => if (V.inode i).addr NDIRECT = 0 then 0 else getEntry (V.blk ((V.inode i).addr NDIRECT)) j

/-- The block number of block `n` of file `i`. -/
def block (V : Vol) (i n : ℕ) : ℕ := V.loc i (filePlace n)

/-- The size of file `i`. -/
def size (V : Vol) (i : ℕ) : ℕ := (V.inode i).size.toNat

/-- Byte `k` of file `i`. -/
def byte (V : Vol) (i k : ℕ) : UInt8 := (V.blk (V.block i (k / BSIZE))).byte (k % BSIZE)

/-- The contents of file `i`. -/
def bytes (V : Vol) (i : ℕ) : List UInt8 := (List.range (V.size i)).map (V.byte i)

/-- The inode is allocated. -/
def Alloc (V : Vol) (i : ℕ) : Prop := (V.inode i).type ≠ 0

/-- File `i`. -/
def file (V : Vol) (i : ℕ) : FileData :=
  if (V.inode i).type = 0 then .free
  else ⟨(V.inode i).type, (V.inode i).major, (V.inode i).minor, (V.inode i).nlink, V.bytes i⟩

/-- A volume whose inodes in `A` are in order. -/
structure OkOn (sb : Superblock) (A : ℕ → Prop) (V : Vol) : Prop where
  /-- The meta data is in use. -/
  meta_used : ∀ b < sb.nmeta, V.used b = true
  /-- A block of a file is a data block in use. -/
  own : ∀ i pl, A i → V.loc i pl ≠ 0 → sb.nmeta ≤ V.loc i pl ∧ V.used (V.loc i pl) = true
  /-- It belongs to nothing else. -/
  inj : ∀ i j pl pl', A i → A j → V.loc i pl ≠ 0 → V.loc i pl = V.loc j pl' → i = j ∧ pl = pl'
  /-- A file is not too large. -/
  size_le : ∀ i, A i → V.size i ≤ MAXFILE * BSIZE
  /-- A file has no holes. -/
  full : ∀ i n, A i → n * BSIZE < V.size i → V.block i n ≠ 0

/-- A volume in order. -/
abbrev Ok (sb : Superblock) (V : Vol) : Prop := V.OkOn sb V.Alloc

/-- No inode in `A` has block `b`. -/
def Unowned (V : Vol) (A : ℕ → Prop) (b : ℕ) : Prop := ∀ j pl, A j → V.loc j pl ≠ b

/-! ### Places -/

theorem filePlace_inj {m n : ℕ} (h : filePlace m = filePlace n) : m = n := by
  unfold filePlace at h
  split_ifs at h
  · exact Place.addr.inj h
  · have := Place.entry.inj h
    omega

theorem filePlace_ne (n : ℕ) : filePlace n ≠ .addr NDIRECT := by
  unfold filePlace
  split_ifs with h
  · intro he
    have := Place.addr.inj he
    omega
  · nofun

theorem loc_congr (haddr : (V'.inode j).addrs = (V.inode i).addrs)
    (hind : (V.inode i).addr NDIRECT ≠ 0 → V'.blk ((V.inode i).addr NDIRECT) = V.blk ((V.inode i).addr NDIRECT)) (pl : Place) :
    V'.loc j pl = V.loc i pl := by
  have ha : ∀ n, (V'.inode j).addr n = (V.inode i).addr n := by
    intro n
    simp only [Dinode.addr, haddr]
  cases pl with
  | addr n => exact ha n
  | entry k =>
    simp only [loc, ha]
    split_ifs with h
    · rfl
    · rw [hind h]

/-- **A file stays** if its fields and its bytes do. -/
theorem file_eq (htype : (V'.inode i).type = (V.inode i).type) (hmajor : (V'.inode i).major = (V.inode i).major)
    (hminor : (V'.inode i).minor = (V.inode i).minor) (hnlink : (V'.inode i).nlink = (V.inode i).nlink)
    (hsize : (V'.inode i).size = (V.inode i).size)
    (hbytes : (V.inode i).type ≠ 0 → ∀ k < V.size i, V'.byte i k = V.byte i k) : V'.file i = V.file i := by
  unfold file
  rw [htype]
  split_ifs with h
  · rfl
  · have hb : V'.bytes i = V.bytes i := by
      unfold bytes size
      rw [hsize]
      exact List.map_congr_left fun k hk => hbytes h k (List.mem_range.mp hk)
    rw [hmajor, hminor, hnlink, hb]

theorem byte_congr {k : ℕ} (hblock : V'.block i (k / BSIZE) = V.block i (k / BSIZE))
    (hblk : V'.blk (V.block i (k / BSIZE)) = V.blk (V.block i (k / BSIZE))) : V'.byte i k = V.byte i k := by
  rw [byte, hblock, hblk, byte]

theorem OkOn.block_ne_zero (h : V.OkOn sb A) (hi : A i) {k : ℕ} (hk : k < V.size i) : V.block i (k / BSIZE) ≠ 0 := by
  apply h.full i _ hi
  have := Nat.div_mul_le_self k BSIZE
  omega

theorem OkOn.used_of_loc (h : V.OkOn sb A) (hi : A i) (hl : V.loc i pl ≠ 0) : V.used (V.loc i pl) = true := (h.own i pl hi hl).2

theorem OkOn.unowned (h : V.OkOn sb A) (hb : V.used b = false) (h0 : b ≠ 0) : V.Unowned A b := by
  rintro j pl hj rfl
  rw [h.used_of_loc hj h0] at hb
  cases hb

theorem OkOn.mono {B : ℕ → Prop} (h : V.OkOn sb A) (hBA : ∀ i, B i → A i) : V.OkOn sb B where
  meta_used := h.meta_used
  own i pl hi := h.own i pl (hBA i hi)
  inj i j pl pl' hi hj := h.inj i j pl pl' (hBA i hi) (hBA j hj)
  size_le i hi := h.size_le i (hBA i hi)
  full i n hi := h.full i n (hBA i hi)

/-- The rule for changes that leave the places of the inodes alone. -/
theorem OkOn.of_loc (h : V.OkOn sb A) (hused : ∀ b, V.used b = true → (b < sb.nmeta ∨ ∃ j pl, A j ∧ V.loc j pl = b) → V'.used b = true)
    (hloc : ∀ j pl, A j → V'.loc j pl = V.loc j pl) (hsize : ∀ j, A j → V'.size j ≤ MAXFILE * BSIZE)
    (hfull : ∀ j n, A j → n * BSIZE < V'.size j → V.block j n ≠ 0) : V'.OkOn sb A where
  meta_used b hb := hused b (h.meta_used b hb) (.inl hb)
  own j pl hj hl := by
    rw [hloc j pl hj] at hl ⊢
    obtain ⟨hge, hu⟩ := h.own j pl hj hl
    exact ⟨hge, hused _ hu (.inr ⟨j, pl, hj, rfl⟩)⟩
  inj j k pl pl' hj hk hl he := by
    rw [hloc j pl hj] at hl he
    rw [hloc k pl' hk] at he
    exact h.inj j k pl pl' hj hk hl he
  size_le := hsize
  full j n hj hn := by
    rw [block, hloc j _ hj]
    exact hfull j n hj hn

/-! ### Allocation -/

/-- Block `b` is allocated, and zeroed. -/
def alloc (V : Vol) (b : ℕ) : Vol := { V with used := update V.used b true, blk := update V.blk b fun _ => 0 }

/-- Inode `i` changes. -/
def setInode (V : Vol) (i : ℕ) (x : Dinode) : Vol := { V with inode := update V.inode i x }

/-- The data of block `b` changes. -/
def setBlk (V : Vol) (b : ℕ) (d : Block) : Vol := { V with blk := update V.blk b d }

/-- Block `b` is freed. -/
def freeBlk (V : Vol) (b : ℕ) : Vol := { V with used := update V.used b false }

@[simp] theorem inode_alloc : (V.alloc b).inode = V.inode := rfl

@[simp] theorem inode_setBlk {d : Block} : (V.setBlk b d).inode = V.inode := rfl

@[simp] theorem inode_freeBlk : (V.freeBlk b).inode = V.inode := rfl

@[simp] theorem blk_setInode : (V.setInode i x).blk = V.blk := rfl

@[simp] theorem blk_freeBlk : (V.freeBlk b).blk = V.blk := rfl

@[simp] theorem used_alloc_self : (V.alloc b).used b = true := by simp [alloc]

@[simp] theorem blk_alloc_self : (V.alloc b).blk b = fun _ => 0 := by simp [alloc]

theorem blk_alloc_of_ne (h : j ≠ b) : (V.alloc b).blk j = V.blk j := by simp [alloc, h]

theorem blk_setBlk_of_ne {d : Block} (h : j ≠ b) : (V.setBlk b d).blk j = V.blk j := by simp [setBlk, h]

@[simp] theorem inode_setInode_self : (V.setInode i x).inode i = x := by simp [setInode]

theorem inode_setInode_of_ne (h : j ≠ i) : (V.setInode i x).inode j = V.inode j := by simp [setInode, h]

theorem loc_setInode_of_ne (h : j ≠ i) : (V.setInode i x).loc j pl = V.loc j pl := by
  apply loc_congr
  · rw [inode_setInode_of_ne h]
  · exact fun _ => rfl

theorem loc_alloc (hun : V.Unowned A b) (hi : A i) : (V.alloc b).loc i pl = V.loc i pl := by
  apply loc_congr
  · rfl
  · exact fun _ => blk_alloc_of_ne (hun i (.addr NDIRECT) hi)

/-- **A block is allocated**. -/
theorem OkOn.alloc (h : V.OkOn sb A) (hun : V.Unowned A b) : (V.alloc b).OkOn sb A := by
  apply h.of_loc
  · intro c hc _
    by_cases hcb : c = b
    · rw [hcb, used_alloc_self]
    · simpa [Vol.alloc, hcb] using hc
  · exact fun j pl hj => loc_alloc hun hj
  · exact h.size_le
  · exact h.full

/-! ### A new block of a file -/

section SetAddr

variable (hn : n < NDIRECT + 1) (hb32 : b < 2 ^ 32)

include hn hb32

theorem loc_setAddr (h0 : (V.inode i).addr n = 0) (hz : n = NDIRECT → V.blk b = fun _ => 0) (pl : Place) :
    (V.setInode i ((V.inode i).setAddr n b)).loc i pl = if pl = .addr n then b else V.loc i pl := by
  have haddr : ∀ m, ((V.inode i).setAddr n b).addr m = if m = n then b else (V.inode i).addr m :=
    Dinode.addr_setAddr hn hb32
  cases pl with
  | addr m => simp only [loc, inode_setInode_self, haddr, Place.addr.injEq]
  | entry k =>
    simp only [loc, inode_setInode_self, haddr, blk_setInode, reduceCtorEq, if_false]
    by_cases hnd : NDIRECT = n
    · rw [if_pos hnd, hz hnd.symm, hnd, h0]
      simp only [if_true]
      split_ifs
      · rfl
      · have hzero : ∀ m off, word m off (fun _ => 0 : Block) = 0 := by
          intro m
          induction m with
          | zero => exact fun _ => rfl
          | succ m ih =>
            intro off
            simp [word, ih, ByteArea.byte]
        exact hzero 4 (4 * k)
    · rw [if_neg hnd]

/-- **A direct block, or the indirect block, is put into an inode**. -/
theorem OkOn.setAddr (h : V.OkOn sb A) (hi : A i) (h0 : (V.inode i).addr n = 0) (hun : V.Unowned A b) (hge : sb.nmeta ≤ b)
    (hu : V.used b = true) (hz : n = NDIRECT → V.blk b = fun _ => 0) :
    (V.setInode i ((V.inode i).setAddr n b)).OkOn sb A := by
  have hloc := loc_setAddr (i := i) hn hb32 h0 hz
  have hother : ∀ j pl, j ≠ i → (V.setInode i ((V.inode i).setAddr n b)).loc j pl = V.loc j pl := fun j pl hj =>
    loc_setInode_of_ne hj
  have hsize : ∀ j, (V.setInode i ((V.inode i).setAddr n b)).size j = V.size j := by
    intro j
    by_cases hj : j = i
    · subst hj
      simp [size]
    · simp [size, inode_setInode_of_ne hj]
  constructor
  case meta_used => exact h.meta_used
  case own =>
    intro j pl hj hl
    by_cases hji : j = i
    · subst hji
      rw [hloc] at hl ⊢
      split_ifs at hl ⊢
      · exact ⟨hge, hu⟩
      · exact h.own j pl hj hl
    · rw [hother j pl hji] at hl ⊢
      exact h.own j pl hj hl
  case inj =>
    intro j k pl pl' hj hk hl he
    have hcase : ∀ j pl, A j → (j = i ∧ pl = .addr n ∧ (V.setInode i ((V.inode i).setAddr n b)).loc j pl = b) ∨
        (¬(j = i ∧ pl = .addr n) ∧ (V.setInode i ((V.inode i).setAddr n b)).loc j pl = V.loc j pl) := by
      intro j pl _
      by_cases hji : j = i
      · subst hji
        by_cases hpl : pl = .addr n
        · exact .inl ⟨rfl, hpl, by rw [hloc, if_pos hpl]⟩
        · exact .inr ⟨fun h => hpl h.2, by rw [hloc, if_neg hpl]⟩
      · exact .inr ⟨fun h => hji h.1, hother j pl hji⟩
    rcases hcase j pl hj with ⟨hji, hpl, hb⟩ | ⟨-, hb⟩ <;> rcases hcase k pl' hk with ⟨hki, hpl', hb'⟩ | ⟨-, hb'⟩
    · exact ⟨hji.trans hki.symm, hpl.trans hpl'.symm⟩
    · rw [hb, hb'] at he
      exact absurd he.symm (hun k pl' hk)
    · rw [hb, hb'] at he
      exact absurd he (hun j pl hj)
    · rw [hb] at hl he
      rw [hb'] at he
      exact h.inj j k pl pl' hj hk hl he
  case size_le =>
    intro j hj
    rw [hsize]
    exact h.size_le j hj
  case full =>
    intro j m hj hm
    rw [hsize] at hm
    have hold := h.full j m hj hm
    by_cases hji : j = i
    · subst hji
      rw [block, hloc]
      split_ifs with hpl
      · rw [block, hpl] at hold
        exact absurd h0 hold
      · exact hold
    · rw [block, hother j _ hji]
      exact hold

end SetAddr

section SetEntry

variable {ind k : ℕ} (hk : k < NINDIRECT) (hb32 : b < 2 ^ 32)

include hk hb32

theorem loc_setEntry (h : V.OkOn sb A) (hi : A i) (hind : (V.inode i).addr NDIRECT = ind) (hne : ind ≠ 0) (hj : A j)
    (pl : Place) : (V.setBlk ind (setEntry k b (V.blk ind))).loc j pl = if j = i ∧ pl = .entry k then b else V.loc j pl := by
  by_cases hji : j = i
  · subst hji
    cases pl with
    | addr m => simp [loc]
    | entry k' =>
      simp only [loc, hind, hne, if_false, setBlk, update_self, getEntry_setEntry hk hb32,
        Place.entry.injEq, true_and]
  · rw [if_neg (fun hc => hji hc.1)]
    apply loc_congr
    · rfl
    intro hj0
    apply blk_setBlk_of_ne
    intro he
    exact hji (h.inj j i (.addr NDIRECT) (.addr NDIRECT) hj hi hj0 (he.trans hind.symm)).1

/-- **A block is put into the indirect block** of an inode. -/
theorem OkOn.setEntry (h : V.OkOn sb A) (hi : A i) (hind : (V.inode i).addr NDIRECT = ind) (hne : ind ≠ 0)
    (h0 : V.loc i (.entry k) = 0) (hun : V.Unowned A b) (hge : sb.nmeta ≤ b) (hu : V.used b = true) :
    (V.setBlk ind (Fs.setEntry k b (V.blk ind))).OkOn sb A := by
  have hloc : ∀ j pl, A j → (V.setBlk ind (Fs.setEntry k b (V.blk ind))).loc j pl =
      if j = i ∧ pl = .entry k then b else V.loc j pl := fun j pl hj => loc_setEntry hk hb32 h hi hind hne hj pl
  constructor
  case meta_used => exact h.meta_used
  case own =>
    intro j pl hj hl
    rw [hloc j pl hj] at hl ⊢
    split_ifs at hl ⊢
    · exact ⟨hge, hu⟩
    · exact h.own j pl hj hl
  case inj =>
    intro j m pl pl' hj hm hl he
    rw [hloc j pl hj] at hl he
    rw [hloc m pl' hm] at he
    split_ifs at hl he with h1 h2 h2
    · exact ⟨h1.1.trans h2.1.symm, h1.2.trans h2.2.symm⟩
    · exact absurd he.symm (hun m pl' hm)
    · exact absurd he (hun j pl hj)
    · exact h.inj j m pl pl' hj hm hl he
  case size_le => exact h.size_le
  case full =>
    intro j m hj hm
    have hold := h.full j m hj hm
    rw [block, hloc j _ hj]
    split_ifs with hc
    · rw [block, hc.1, hc.2] at hold
      exact absurd h0 hold
    · exact hold

end SetEntry

/-! ### A file that has got blocks -/

/-- Inode `i` has got blocks, and its file and all others are as they were. -/
structure Grown (sb : Superblock) (A : ℕ → Prop) (i : ℕ) (V V' : Vol) : Prop where
  ok : V'.OkOn sb A
  self : V'.inode i = { V.inode i with addrs := (V'.inode i).addrs }
  other : ∀ j, j ≠ i → V'.inode j = V.inode j
  loc : ∀ j pl, A j → V.loc j pl ≠ 0 → V'.loc j pl = V.loc j pl
  blk : ∀ j n, A j → V.block j n ≠ 0 → V'.blk (V.block j n) = V.blk (V.block j n)

theorem Grown.refl (h : V.OkOn sb A) : Grown sb A i V V := ⟨h, rfl, fun _ _ => rfl, fun _ _ _ _ => rfl, fun _ _ _ _ => rfl⟩

theorem Grown.block (h : Grown sb A i V V') (hj : A j) (hb : V.block j n ≠ 0) : V'.block j n = V.block j n := h.loc j _ hj hb

theorem Grown.trans {V'' : Vol} (h : Grown sb A i V V') (h' : Grown sb A i V' V'') : Grown sb A i V V'' where
  ok := h'.ok
  self := by rw [h'.self, h.self]
  other j hj := by rw [h'.other j hj, h.other j hj]
  loc j pl hj hl := by
    have hl' := h.loc j pl hj hl
    rw [h'.loc j pl hj (by rw [hl']; exact hl), hl']
  blk j n hj hb := by
    have hb' := h.block hj hb
    have := h'.blk j n hj (by rw [hb']; exact hb)
    rw [hb'] at this
    rw [this, h.blk j n hj hb]

theorem Grown.size (h : Grown sb A i V V') (j : ℕ) : V'.size j = V.size j := by
  by_cases hj : j = i
  · subst hj
    rw [Vol.size, h.self, Vol.size]
  · rw [Vol.size, h.other j hj, Vol.size]

theorem Grown.type (h : Grown sb A i V V') (j : ℕ) : (V'.inode j).type = (V.inode j).type := by
  by_cases hj : j = i
  · subst hj
    rw [h.self]
  · rw [h.other j hj]

theorem Grown.alloc_eq (h : Grown sb A i V V') : V'.Alloc = V.Alloc := by
  funext j
  rw [Alloc, h.type, Alloc]

theorem Grown.byte (h : Grown sb A i V V') (hj : A j) {k : ℕ} (hk : V.block j (k / BSIZE) ≠ 0) : V'.byte j k = V.byte j k :=
  byte_congr (h.block hj hk) (h.blk j _ hj hk)

theorem Grown.setAddr (h : V.OkOn sb A) (hi : A i) (hun : V.Unowned A b) (hge : sb.nmeta ≤ b) (hn : n < NDIRECT + 1)
    (hb32 : b < 2 ^ 32) (h0 : (V.inode i).addr n = 0) :
    Grown sb A i V ((V.alloc b).setInode i ((V.inode i).setAddr n b)) := by
  have hloc : ∀ j pl, A j → (V.alloc b).loc j pl = V.loc j pl := fun j pl hj => loc_alloc hun hj
  have hun' : (V.alloc b).Unowned A b := fun j pl hj => by
    rw [hloc j pl hj]
    exact hun j pl hj
  have hz : n = NDIRECT → (V.alloc b).blk b = fun _ => 0 := fun _ => blk_alloc_self
  constructor
  case ok => exact (h.alloc hun).setAddr hn hb32 hi h0 hun' hge used_alloc_self hz
  case self =>
    rw [inode_setInode_self]
    rfl
  case other =>
    intro j hj
    rw [inode_setInode_of_ne hj]
    rfl
  case loc =>
    intro j pl hj hl
    by_cases hji : j = i
    · subst hji
      rw [← inode_alloc (V := V) (b := b), loc_setAddr (V := V.alloc b) hn hb32 h0 hz, if_neg, hloc _ _ hj]
      rintro rfl
      exact hl h0
    · rw [loc_setInode_of_ne hji, hloc _ _ hj]
  case blk =>
    intro j m hj _
    rw [blk_setInode]
    exact blk_alloc_of_ne (hun j (filePlace m) hj)

theorem Grown.setEntry {ind k : ℕ} (h : V.OkOn sb A) (hi : A i) (hun : V.Unowned A b) (hge : sb.nmeta ≤ b) (hk : k < NINDIRECT)
    (hb32 : b < 2 ^ 32) (hind : (V.inode i).addr NDIRECT = ind) (hne : ind ≠ 0) (h0 : V.loc i (.entry k) = 0) :
    Grown sb A i V ((V.alloc b).setBlk ind (Fs.setEntry k b ((V.alloc b).blk ind))) := by
  have hloc : ∀ j pl, A j → (V.alloc b).loc j pl = V.loc j pl := fun j pl hj => loc_alloc hun hj
  have hun' : (V.alloc b).Unowned A b := fun j pl hj => by
    rw [hloc j pl hj]
    exact hun j pl hj
  have hok := h.alloc hun
  have h0' : (V.alloc b).loc i (.entry k) = 0 := by rw [hloc _ _ hi, h0]
  constructor
  case ok => exact hok.setEntry hk hb32 hi hind hne h0' hun' hge used_alloc_self
  case self => rfl
  case other => exact fun _ _ => rfl
  case loc =>
    intro j pl hj hl
    rw [loc_setEntry hk hb32 hok hi hind hne hj, if_neg, hloc _ _ hj]
    rintro ⟨rfl, rfl⟩
    exact hl h0
  case blk =>
    intro j m hj hm
    have hne' : V.block j m ≠ ind := fun he =>
      filePlace_ne _ (h.inj j i _ (.addr NDIRECT) hj hi hm (he.trans hind.symm)).2
    rw [blk_setBlk_of_ne hne']
    exact blk_alloc_of_ne (hun j (filePlace m) hj)

/-! ### The data of a file -/

section SetData

variable {d : Block} (h : V.OkOn sb A) (hi : A i)

include h hi

theorem loc_setData (hj : A j) : (V.setBlk (V.block i n) d).loc j pl = V.loc j pl := by
  apply loc_congr
  · rfl
  intro hj0
  apply blk_setBlk_of_ne
  intro he
  exact filePlace_ne n (h.inj j i (.addr NDIRECT) (filePlace n) hj hi hj0 he).2.symm

/-- **Data is written to a block of a file**. -/
theorem OkOn.setData : (V.setBlk (V.block i n) d).OkOn sb A :=
  h.of_loc (fun _ hu _ => hu) (fun _ _ hj => loc_setData h hi hj) h.size_le h.full

theorem byte_setData (hj : A j) {k : ℕ} (hk : V.block j (k / BSIZE) ≠ 0) : (V.setBlk (V.block i n) d).byte j k =
    if j = i ∧ k / BSIZE = n then d.byte (k % BSIZE) else V.byte j k := by
  have hb : (V.setBlk (V.block i n) d).block j (k / BSIZE) = V.block j (k / BSIZE) := loc_setData h hi hj
  split_ifs with hc
  · obtain ⟨rfl, rfl⟩ := hc
    rw [byte, hb]
    simp [setBlk]
  · refine byte_congr hb (blk_setBlk_of_ne fun he => hc ?_)
    obtain ⟨hji, hpl⟩ := h.inj j i _ _ hj hi hk he
    exact ⟨hji, filePlace_inj hpl⟩

end SetData

/-- **A block of no file is freed**. -/
theorem OkOn.free (h : V.OkOn sb A) (hge : sb.nmeta ≤ b) (hun : V.Unowned A b) : (V.freeBlk b).OkOn sb A := by
  refine h.of_loc (fun c hu hc => ?_) (fun _ _ _ => rfl) h.size_le h.full
  have hcb : c ≠ b := by
    rintro rfl
    rcases hc with hc | ⟨j, pl, hj, hl⟩
    · omega
    · exact hun j pl hj hl
  simpa [freeBlk, hcb] using hu

/-! ### The fields of an inode -/

theorem loc_setFields (haddr : x.addrs = (V.inode i).addrs) : (V.setInode i x).loc j pl = V.loc j pl := by
  apply loc_congr
  · by_cases hji : j = i
    · rw [hji, inode_setInode_self, haddr]
    · rw [inode_setInode_of_ne hji]
  · exact fun _ => rfl

theorem byte_setFields (haddr : x.addrs = (V.inode i).addrs) {k : ℕ} : (V.setInode i x).byte j k = V.byte j k :=
  byte_congr (loc_setFields haddr) rfl

theorem size_setInode : (V.setInode i x).size j = if j = i then x.size.toNat else V.size j := by
  split_ifs with h
  · rw [h, size, inode_setInode_self]
  · rw [size, inode_setInode_of_ne h, size]

/-- **The fields of an inode change**, but not its addresses. -/
theorem OkOn.setFields (h : V.OkOn sb A) (haddr : x.addrs = (V.inode i).addrs) (hsize : A i → x.size.toNat ≤ MAXFILE * BSIZE)
    (hfull : A i → ∀ n, n * BSIZE < x.size.toNat → V.block i n ≠ 0) : (V.setInode i x).OkOn sb A := by
  refine h.of_loc (fun _ hu _ => hu) (fun _ _ _ => loc_setFields haddr) (fun j hj => ?_) (fun j n hj hn => ?_)
  · rw [size_setInode]
    split_ifs with hji
    · exact hsize (hji ▸ hj)
    · exact h.size_le j hj
  · rw [size_setInode] at hn
    split_ifs at hn with hji
    · rw [hji]
      exact hfull (hji ▸ hj) n hn
    · exact h.full j n hj hn

theorem file_setInode_of_ne (h : j ≠ i) : (V.setInode i x).file j = V.file j := by
  have hi := inode_setInode_of_ne (V := V) (x := x) h
  refine file_eq (by rw [hi]) (by rw [hi]) (by rw [hi]) (by rw [hi]) (by rw [hi]) fun _ k _ => ?_
  exact byte_congr (loc_setInode_of_ne h) rfl

/-! ### A file that is written -/

/-- The bytes `f` stand in file `i` from `off` on, `w` of them, and its size is `z`; everything else is as before. -/
structure Stored (sb : Superblock) (A : ℕ → Prop) (i off w z : ℕ) (f : ℕ → UInt8) (V V' : Vol) : Prop where
  ok : V'.OkOn sb A
  self : V'.inode i = { V.inode i with addrs := (V'.inode i).addrs, size := (V'.inode i).size }
  size : V'.size i = z
  other : ∀ j, j ≠ i → V'.inode j = V.inode j
  loc : ∀ j pl, A j → V.loc j pl ≠ 0 → V'.loc j pl = V.loc j pl
  byte : ∀ j k, A j → V.block j (k / BSIZE) ≠ 0 → ¬(j = i ∧ off ≤ k ∧ k < off + w) → V'.byte j k = V.byte j k
  stored : ∀ k, off ≤ k → k < off + w → V'.block i (k / BSIZE) ≠ 0 ∧ V'.byte i k = f (k - off)

section Stored

variable {off w z : ℕ} {f : ℕ → UInt8} {V'' : Vol}

theorem Stored.refl (h : V.OkOn sb A) : Stored sb A i off 0 (V.size i) f V V where
  ok := h
  self := rfl
  size := rfl
  other _ _ := rfl
  loc _ _ _ _ := rfl
  byte _ _ _ _ _ := rfl
  stored _ h1 h2 := absurd h2 (not_lt.mpr h1)

variable (h : Stored sb A i off w z f V V')

include h

theorem Stored.grow (hi : A i) (hg : Grown sb A i V' V'') :
    Stored sb A i off w z f V V'' where
  ok := hg.ok
  self := by rw [hg.self, h.self]
  size := by rw [hg.size, h.size]
  other j hj := by rw [hg.other j hj, h.other j hj]
  loc j pl hj hl := by
    have hl' := h.loc j pl hj hl
    rw [hg.loc j pl hj (by rw [hl']; exact hl), hl']
  byte j k hj hb hk := by
    have hb' : V'.block j (k / BSIZE) ≠ 0 := by
      rw [Vol.block, h.loc j _ hj hb]
      exact hb
    rw [hg.byte hj hb', h.byte j k hj hb hk]
  stored k h1 h2 := by
    obtain ⟨hb, hk⟩ := h.stored k h1 h2
    rw [hg.block hi hb, hg.byte hi hb]
    exact ⟨hb, hk⟩

theorem Stored.setData {bs : List UInt8} (hi : A i) (hb : V'.block i ((off + w) / BSIZE) ≠ 0)
    (hm : (off + w) % BSIZE + bs.length ≤ BSIZE) (hbs : ∀ q < bs.length, bs.getD q 0 = f (w + q)) :
    Stored sb A i off (w + bs.length) z f V (V'.setBlk (V'.block i ((off + w) / BSIZE))
      (copy ((off + w) % BSIZE) bs (V'.blk (V'.block i ((off + w) / BSIZE))))) := by
  have hbyte : ∀ j k, A j → V'.block j (k / BSIZE) ≠ 0 → ¬(j = i ∧ off + w ≤ k ∧ k < off + w + bs.length) →
      (V'.setBlk (V'.block i ((off + w) / BSIZE))
        (copy ((off + w) % BSIZE) bs (V'.blk (V'.block i ((off + w) / BSIZE))))).byte j k = V'.byte j k := by
    intro j k hj hk hno
    rw [byte_setData h.ok hi hj hk]
    split_ifs with hc
    · obtain ⟨rfl, hdiv⟩ := hc
      rw [byte_copy_of_not, Vol.byte, hdiv]
      have : ¬(off + w ≤ k ∧ k < off + w + bs.length) := fun hr => hno ⟨rfl, hr⟩
      unfold BSIZE at *
      omega
    · rfl
  constructor
  case ok => exact h.ok.setData hi
  case self => exact h.self
  case size => exact h.size
  case other => exact h.other
  case loc =>
    intro j pl hj hl
    rw [loc_setData h.ok hi hj, h.loc j pl hj hl]
  case byte =>
    intro j k hj hk hno
    have hk' : V'.block j (k / BSIZE) ≠ 0 := by
      rw [Vol.block, h.loc j _ hj hk]
      exact hk
    rw [hbyte j k hj hk' fun hr => hno ⟨hr.1, by omega, by omega⟩]
    exact h.byte j k hj hk fun hr => hno ⟨hr.1, by omega, by omega⟩
  case stored =>
    intro k h1 h2
    have hblock : ∀ n, (V'.setBlk (V'.block i ((off + w) / BSIZE))
        (copy ((off + w) % BSIZE) bs (V'.blk (V'.block i ((off + w) / BSIZE))))).block i n = V'.block i n := fun n =>
      loc_setData h.ok hi hi
    rw [hblock]
    by_cases hw : k < off + w
    · obtain ⟨hk, hf⟩ := h.stored k h1 hw
      refine ⟨hk, ?_⟩
      rw [hbyte i k hi hk fun hr => absurd hr.2.1 (not_le.mpr hw), hf]
    · have hdiv : k / BSIZE = (off + w) / BSIZE := by
        unfold BSIZE at *
        omega
      have hk : V'.block i (k / BSIZE) ≠ 0 := hdiv ▸ hb
      refine ⟨hk, ?_⟩
      have hlt : k % BSIZE < BSIZE := Nat.mod_lt _ (by decide)
      have hpos : k - off = w + (k % BSIZE - (off + w) % BSIZE) ∧ k % BSIZE - (off + w) % BSIZE < bs.length ∧
          (off + w) % BSIZE ≤ k % BSIZE ∧ k % BSIZE < (off + w) % BSIZE + bs.length := by
        unfold BSIZE at *
        omega
      rw [byte_setData h.ok hi hi hk, if_pos ⟨rfl, hdiv⟩, byte_copy_of_mem hpos.2.2.1 hpos.2.2.2 hlt, hbs _ hpos.2.1, hpos.1]

theorem Stored.setSize {r : ℕ} (hV : V.OkOn sb A) (hi : A i) (hoff : off ≤ V.size i)
    (hr : r ≤ w) (hmax : off + r ≤ MAXFILE * BSIZE) :
    Stored sb A i off w (off + r) f V (V'.setInode i { V'.inode i with size := UInt32.ofNat (off + r) }) := by
  have hsize : (UInt32.ofNat (off + r)).toNat = off + r := by
    rw [UInt32.toNat_ofNat_of_lt']
    exact hmax.trans_lt (by decide)
  have haddr : ({ V'.inode i with size := UInt32.ofNat (off + r) } : Dinode).addrs = (V'.inode i).addrs := rfl
  have hblock : ∀ j n, (V'.setInode i { V'.inode i with size := UInt32.ofNat (off + r) }).block j n = V'.block j n := fun _ _ =>
    loc_setFields haddr
  constructor
  case ok =>
    refine h.ok.setFields haddr (fun _ => hsize.trans_le hmax) fun _ n hn => ?_
    have hn' : n * BSIZE < off + r := hsize ▸ hn
    by_cases hlt : n * BSIZE < V.size i
    · rw [Vol.block, h.loc i _ hi (hV.full i n hi hlt)]
      exact hV.full i n hi hlt
    · have := (h.stored (n * BSIZE) (by omega) (by omega)).1
      rwa [Nat.mul_div_cancel _ (by decide)] at this
  case self =>
    rw [inode_setInode_self, h.self]
  case size => rw [size_setInode, if_pos rfl, hsize]
  case other =>
    intro j hj
    rw [inode_setInode_of_ne hj, h.other j hj]
  case loc =>
    intro j pl hj hl
    rw [loc_setFields haddr, h.loc j pl hj hl]
  case byte =>
    intro j k hj hb hk
    rw [byte_setFields haddr, h.byte j k hj hb hk]
  case stored =>
    intro k h1 h2
    rw [hblock, byte_setFields haddr]
    exact h.stored k h1 h2

theorem Stored.type (j : ℕ) : (V'.inode j).type = (V.inode j).type := by
  by_cases hj : j = i
  · subst hj
    rw [h.self]
  · rw [h.other j hj]

theorem Stored.alloc_eq : V'.Alloc = V.Alloc := by
  funext j
  rw [Alloc, h.type, Alloc]

omit h

/-- The bytes `bs` replace those from `off` on. -/
def splice (off : ℕ) (bs l : List UInt8) : List UInt8 := l.take off ++ bs ++ l.drop (off + bs.length)

theorem splice_nil (off : ℕ) (l : List UInt8) : splice off [] l = l := by
  rw [splice, List.append_nil, List.length_nil, Nat.add_zero, List.take_append_drop]

theorem length_splice {bs l : List UInt8} (h : off ≤ l.length) : (splice off bs l).length = max l.length (off + bs.length) := by
  simp only [splice, List.length_append, List.length_take, List.length_drop]
  omega

theorem getElem_splice {bs l : List UInt8} {k : ℕ} (hoff : off ≤ l.length) (hk : k < (splice off bs l).length) :
    (splice off bs l)[k] = if off ≤ k ∧ k < off + bs.length then bs.getD (k - off) 0 else l.getD k 0 := by
  have hlen : (l.take off).length = off := by rw [List.length_take, min_eq_left hoff]
  rw [length_splice hoff] at hk
  simp only [splice]
  split_ifs with h
  · rw [List.getElem_append_left (by rw [List.length_append, hlen]; omega), List.getElem_append_right (by omega)]
    simp only [hlen]
    rw [List.getD_eq_getElem _ _ (by omega)]
  · by_cases hlt : k < off
    · rw [List.getElem_append_left (by rw [List.length_append, hlen]; omega), List.getElem_append_left (by omega),
        List.getElem_take, List.getD_eq_getElem]
    · have hge : off + bs.length ≤ k := by omega
      rw [List.getElem_append_right (by rw [List.length_append, hlen]; omega), List.getElem_drop, List.getD_eq_getElem _ _ (by omega)]
      congr 1
      rw [List.length_append, hlen]
      omega

/-- **The contents of the file** after it has been written. -/
theorem Stored.bytes (h : Stored sb A i off w (max (V.size i) (off + w)) f V V') (hV : V.OkOn sb A) (hi : A i)
    (hoff : off ≤ V.size i) : V'.bytes i = splice off ((List.range w).map f) (V.bytes i) := by
  have hlen : (V.bytes i).length = V.size i := by simp [Vol.bytes]
  apply List.ext_getElem
  · rw [length_splice (by rw [hlen]; exact hoff)]
    simp [Vol.bytes, h.size]
  · intro k hk _
    have hk' : k < max (V.size i) (off + w) := by simpa [Vol.bytes, h.size] using hk
    rw [getElem_splice (by rw [hlen]; exact hoff)]
    simp only [Vol.bytes, List.getElem_map, List.getElem_range, List.length_map, List.length_range]
    split_ifs with hin
    · rw [(h.stored k hin.1 hin.2).2, List.getD_eq_getElem _ _ (by simp; omega)]
      simp
    · have hlt : k < V.size i := by omega
      rw [h.byte i k hi (hV.block_ne_zero hi hlt) fun hc => hin hc.2, List.getD_eq_getElem _ _ (by simpa using hlt)]
      simp

theorem Stored.file_of_ne {j : ℕ} (h : Stored sb V.Alloc i off w z f V V') (hV : V.Ok sb) (hj : j ≠ i) : V'.file j = V.file j := by
  have hs := h.other j hj
  exact file_eq (by rw [hs]) (by rw [hs]) (by rw [hs]) (by rw [hs]) (by rw [hs]) fun hal k hk =>
    h.byte j k hal (hV.block_ne_zero hal hk) fun hc => hj hc.1

/-- **The files** after one has been written. -/
theorem Stored.file (h : Stored sb V.Alloc i off w (max (V.size i) (off + w)) f V V') (hV : V.Ok sb) (hi : V.Alloc i)
    (hoff : off ≤ V.size i) :
    V'.file = update V.file i { V.file i with bytes := splice off ((List.range w).map f) (V.file i).bytes } := by
  funext j
  by_cases hj : j = i
  · subst hj
    have hself := h.self
    rw [update_self, Vol.file, if_neg (by rw [h.type]; exact hi), h.bytes hV hi hoff, Vol.file, if_neg hi, hself]
  · rw [update_of_ne hj]
    exact h.file_of_ne hV hj

end Stored

theorem OkOn.insert (h : V.OkOn sb A) (h0 : ∀ pl, V.loc i pl = 0) (hsize : V.size i = 0) :
    V.OkOn sb fun j => A j ∨ j = i where
  meta_used := h.meta_used
  own j pl hj hl := by
    rcases hj with hj | rfl
    · exact h.own j pl hj hl
    · exact absurd (h0 pl) hl
  inj j k pl pl' hj hk hl he := by
    rcases hj with hj | rfl
    · rcases hk with hk | rfl
      · exact h.inj j k pl pl' hj hk hl he
      · rw [h0 pl'] at he
        exact absurd he hl
    · exact absurd (h0 pl) hl
  size_le j hj := by
    rcases hj with hj | rfl
    · exact h.size_le j hj
    · rw [hsize]
      exact Nat.zero_le _
  full j n hj hn := by
    rcases hj with hj | rfl
    · exact h.full j n hj hn
    · rw [hsize] at hn
      exact absurd hn (Nat.not_lt_zero _)

end Vol

end Xv6Shmem.Fs
