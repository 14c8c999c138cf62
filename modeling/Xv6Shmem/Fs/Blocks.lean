import Xv6Shmem.Fs.Rules
import Xv6Shmem.Fs.Volume

/-!
# The volume of a state, and the code that allocates blocks

The volume of a state has the inodes as the kernel sees them: the copy in memory, where there is one that is
valid, and else what is on the disk. This module says what the code of `kernel/fs.c` that works on blocks
does to the volume.

## What is proved

* `vol_write_bit`, `vol_write_data`, `vol_write_inode` — what a write to each part of the disk does to the volume.
* `balloc_spec`, `bfree_spec` — blocks.
* `bmap_spec` — `bmap` finds the block of a file, or makes the file grow by one, and leaves the files as they are.
-/

namespace Xv6Shmem.Fs

open Function ByteArea Kernel Disk Files Prog

/-! ### The volume of a state -/

/-- Inode `i` on the disk. -/
def FsState.disk (sb : Superblock) (s : FsState) (i : ℕ) : Dinode := getDinode (s.cache (sb.iblock i)) (i % IPB)

/-- Inode `i`: in memory, or else on the disk. -/
def FsState.node (sb : Superblock) (s : FsState) (i : ℕ) : Dinode :=
  match s.findInode ROOTDEV i with
  | some ip => if (s.inode ip).valid then (s.inode ip).d else s.disk sb i
  | none => s.disk sb i

/-- An inode number. -/
def Superblock.IsInum (sb : Superblock) (i : ℕ) : Prop := 0 < i ∧ i < sb.ninodes

instance (sb : Superblock) (i : ℕ) : Decidable (sb.IsInum i) := inferInstanceAs (Decidable (_ ∧ _))

/-- The volume of a state. -/
def FsState.vol (sb : Superblock) (s : FsState) : Vol where
  inode i := if sb.IsInum i then s.node sb i else .blank 0
  used b := decide (b < sb.size) && getBit (s.cache (sb.bblock b)) (b % BPB)
  blk b := if sb.nmeta ≤ b then s.cache b else fun _ => 0

/-- The table of inodes is in order. -/
structure Table (sb : Superblock) (s : FsState) : Prop where
  nonneg : ∀ ip, 0 ≤ (s.inode ip).ref
  dev : ∀ ip, 0 < (s.inode ip).ref → (s.inode ip).dev = ROOTDEV
  inum : ∀ ip, 0 < (s.inode ip).ref → sb.IsInum (s.inode ip).inum
  uniq : ∀ ip jp, 0 < (s.inode ip).ref → 0 < (s.inode jp).ref → (s.inode ip).inum = (s.inode jp).inum → ip = jp

section Volume

variable {sb : Superblock} {s t : FsState} {ip : InodeNo} {i b c : ℕ} {d : Block}

theorem vol_congr (hcache : t.cache = s.cache) (hinode : t.inode = s.inode) : t.vol sb = s.vol sb := by
  simp only [FsState.vol, FsState.node, FsState.findInode, FsState.disk, hcache, hinode]

theorem Table.congr (h : Table sb s) (hinode : t.inode = s.inode) : Table sb t := by
  constructor
  all_goals rw [hinode]
  · exact h.nonneg
  · exact h.dev
  · exact h.inum
  · exact h.uniq

theorem findInode_some {dev : ℕ} (h : s.findInode dev i = some ip) :
    0 < (s.inode ip).ref ∧ (s.inode ip).dev = dev ∧ (s.inode ip).inum = i := by
  have := List.find?_some h
  simpa using this

theorem findInode_none {dev : ℕ} (h : s.findInode dev i = none) (ip : InodeNo) (href : 0 < (s.inode ip).ref)
    (hdev : (s.inode ip).dev = dev) : (s.inode ip).inum ≠ i := by
  have := List.find?_eq_none.mp h ip (List.mem_finRange ip)
  simp only [decide_eq_true_eq, not_and] at this
  exact this href hdev

variable (h : Table sb s) (href : 0 < (s.inode ip).ref)

include h href

theorem Table.find : s.findInode ROOTDEV (s.inode ip).inum = some ip := by
  cases hf : s.findInode ROOTDEV (s.inode ip).inum with
  | none => exact absurd rfl (findInode_none hf ip href (h.dev ip href))
  | some jp =>
    obtain ⟨hjp, -, hinum⟩ := findInode_some hf
    rw [h.uniq jp ip hjp href hinum]

theorem Table.inode_vol : (s.vol sb).inode (s.inode ip).inum =
    if (s.inode ip).valid then (s.inode ip).d else s.disk sb (s.inode ip).inum := by
  simp only [FsState.vol, if_pos (h.inum ip href), FsState.node, h.find href]

theorem Table.inode_valid (hv : (s.inode ip).valid = true) :
    (s.vol sb).inode (s.inode ip).inum = (s.inode ip).d := by
  rw [h.inode_vol href, if_pos hv]

omit h href

section Regions

variable (hsb : sb.Ok)

include hsb

theorem iblock_lt (hi : sb.IsInum i) : sb.iblock i < sb.bmapstart := by
  have h := hsb.bitmap
  have := Nat.div_le_div_right (c := IPB) hi.2.le
  unfold Superblock.iblock
  omega

theorem bblock_lt (hb : b < sb.size) : sb.bblock b < sb.nmeta := by
  have h := hsb.data
  have := Nat.div_le_div_right (c := BPB) hb.le
  unfold Superblock.bblock
  omega

omit hsb in
theorem le_bblock (b : ℕ) : sb.bmapstart ≤ sb.bblock b := Nat.le_add_left _ _

theorem iblock_lt_nmeta (hi : sb.IsInum i) : sb.iblock i < sb.nmeta := by
  have h := hsb.data
  have := iblock_lt hsb hi
  have := Nat.zero_le (sb.size / BPB)
  omega

theorem nmeta_pos : 0 < sb.nmeta := by
  have h := hsb.data
  have := Nat.zero_le (sb.size / BPB)
  omega

theorem iblock_ne_bblock (hi : sb.IsInum i) : sb.iblock i ≠ sb.bblock b := by
  have h1 := iblock_lt hsb hi
  have h2 : sb.bmapstart ≤ sb.bblock b := le_bblock b
  omega

omit hsb in
theorem inode_vol_write (hne : ∀ i, sb.IsInum i → sb.iblock i ≠ b) : ((s.write b d).vol sb).inode = (s.vol sb).inode := by
  funext i
  simp only [FsState.vol]
  by_cases hi : sb.IsInum i
  · rw [if_pos hi, if_pos hi]
    have hdisk : (s.write b d).disk sb i = s.disk sb i := by
      simp only [FsState.disk, FsState.cache_write, update_of_ne (hne i hi)]
    simp only [FsState.node, hdisk]
    rfl
  · rw [if_neg hi, if_neg hi]

/-- **A bit of the bitmap is written**. -/
theorem vol_write_bit {v : Bool} (hb : b < sb.size) :
    (s.write (sb.bblock b) (setBit (b % BPB) v (s.cache (sb.bblock b)))).vol sb =
      ⟨(s.vol sb).inode, update (s.vol sb).used b v, (s.vol sb).blk⟩ := by
  have hin := inode_vol_write (s := s) (b := sb.bblock b) (d := setBit (b % BPB) v (s.cache (sb.bblock b)))
    fun i hi => iblock_ne_bblock hsb hi
  have hused : ((s.write (sb.bblock b) (setBit (b % BPB) v (s.cache (sb.bblock b)))).vol sb).used =
      update (s.vol sb).used b v := by
    funext c
    have hmod : b % BPB < BPB := Nat.mod_lt _ (by decide)
    simp only [FsState.vol, FsState.cache_write]
    by_cases hcb : c = b
    · subst hcb
      rw [update_self, update_self, getBit_setBit hmod, if_pos rfl, decide_eq_true hb, Bool.true_and]
    · rw [update_of_ne hcb]
      by_cases hblock : sb.bblock c = sb.bblock b
      · have hdiv : c / BPB = b / BPB := Nat.add_right_cancel hblock
        have hne : c % BPB ≠ b % BPB := by
          intro hm
          exact hcb (by rw [← Nat.div_add_mod c BPB, ← Nat.div_add_mod b BPB, hdiv, hm])
        rw [hblock, update_self, getBit_setBit hmod, if_neg hne]
      · rw [update_of_ne hblock]
  have hblk : ((s.write (sb.bblock b) (setBit (b % BPB) v (s.cache (sb.bblock b)))).vol sb).blk = (s.vol sb).blk := by
    funext c
    simp only [FsState.vol, FsState.cache_write]
    split_ifs with hc
    · have hne : c ≠ sb.bblock b := by
        have := bblock_lt hsb hb
        omega
      rw [update_of_ne hne]
    · rfl
  exact Vol.ext hin hused hblk

/-- **A data block is written**. -/
theorem vol_write_data (hb : sb.nmeta ≤ b) : (s.write b d).vol sb = (s.vol sb).setBlk b d := by
  have hin := inode_vol_write (s := s) (b := b) (d := d) fun i hi => by
    have := iblock_lt_nmeta hsb hi
    omega
  have hused : ((s.write b d).vol sb).used = (s.vol sb).used := by
    funext c
    simp only [FsState.vol, FsState.cache_write]
    by_cases hc : c < sb.size
    · have hne : sb.bblock c ≠ b := by
        have := bblock_lt hsb hc
        omega
      rw [update_of_ne hne]
    · rw [decide_eq_false hc, Bool.false_and, Bool.false_and]
  have hblk : ((s.write b d).vol sb).blk = update (s.vol sb).blk b d := by
    funext c
    simp only [FsState.vol, FsState.cache_write]
    by_cases hcb : c = b
    · subst hcb
      rw [update_self, if_pos hb, update_self]
    · rw [update_of_ne hcb, update_of_ne hcb]
  exact Vol.ext hin hused hblk

theorem vol_write_iblock (hi : sb.IsInum i) {x : Dinode} :
    (s.write (sb.iblock i) (setDinode x (i % IPB) (s.cache (sb.iblock i)))).vol sb =
      ⟨((s.write (sb.iblock i) (setDinode x (i % IPB) (s.cache (sb.iblock i)))).vol sb).inode, (s.vol sb).used,
        (s.vol sb).blk⟩ := by
  have hlt := iblock_lt_nmeta hsb hi
  have hused : ((s.write (sb.iblock i) (setDinode x (i % IPB) (s.cache (sb.iblock i)))).vol sb).used = (s.vol sb).used := by
    funext c
    simp only [FsState.vol, FsState.cache_write]
    rw [update_of_ne (iblock_ne_bblock hsb hi).symm]
  have hblk : ((s.write (sb.iblock i) (setDinode x (i % IPB) (s.cache (sb.iblock i)))).vol sb).blk = (s.vol sb).blk := by
    funext c
    simp only [FsState.vol, FsState.cache_write]
    split_ifs with hc
    · rw [update_of_ne (by omega)]
    · rfl
  exact Vol.ext rfl hused hblk

omit hsb in
theorem disk_write_iblock {x : Dinode} {j : ℕ} :
    (s.write (sb.iblock i) (setDinode x (i % IPB) (s.cache (sb.iblock i)))).disk sb j = if j = i then x else s.disk sb j := by
  have hmod : i % IPB < IPB := Nat.mod_lt _ (by decide)
  simp only [FsState.disk, FsState.cache_write]
  by_cases hji : j = i
  · rw [hji, update_self, getDinode_setDinode hmod, if_pos rfl]
  · rw [if_neg hji]
    by_cases hblock : sb.iblock j = sb.iblock i
    · have hdiv : j / IPB = i / IPB := Nat.add_right_cancel hblock
      have hne : j % IPB ≠ i % IPB := by
        intro hm
        exact hji (by rw [← Nat.div_add_mod j IPB, ← Nat.div_add_mod i IPB, hdiv, hm])
      rw [hblock, update_self, getDinode_setDinode_of_ne hne]
    · rw [update_of_ne hblock]

/-- **The copy in memory is written to the disk**. -/
theorem vol_write_inode (hT : Table sb s) (href : 0 < (s.inode ip).ref) (hv : (s.inode ip).valid = true) :
    (s.write (sb.iblock (s.inode ip).inum)
      (setDinode (s.inode ip).d ((s.inode ip).inum % IPB) (s.cache (sb.iblock (s.inode ip).inum)))).vol sb = s.vol sb := by
  rw [vol_write_iblock hsb (hT.inum ip href)]
  have hin : ((s.write (sb.iblock (s.inode ip).inum)
      (setDinode (s.inode ip).d ((s.inode ip).inum % IPB) (s.cache (sb.iblock (s.inode ip).inum)))).vol sb).inode =
      (s.vol sb).inode := by
    funext j
    simp only [FsState.vol]
    by_cases hj : sb.IsInum j
    · rw [if_pos hj, if_pos hj]
      simp only [FsState.node]
      have hfind : (s.write (sb.iblock (s.inode ip).inum)
          (setDinode (s.inode ip).d ((s.inode ip).inum % IPB) (s.cache (sb.iblock (s.inode ip).inum)))).findInode ROOTDEV j =
          s.findInode ROOTDEV j := rfl
      rw [hfind, disk_write_iblock]
      cases hf : s.findInode ROOTDEV j with
      | none =>
        have hne : j ≠ (s.inode ip).inum := fun he => findInode_none hf ip href (hT.dev ip href) he.symm
        simp only [if_neg hne]
      | some jp =>
        change (if (s.inode jp).valid then (s.inode jp).d else if j = (s.inode ip).inum then (s.inode ip).d else s.disk sb j) =
          if (s.inode jp).valid then (s.inode jp).d else s.disk sb j
        by_cases hjv : (s.inode jp).valid = true
        · rw [if_pos hjv, if_pos hjv]
        · obtain ⟨hjp, -, hinum⟩ := findInode_some hf
          have hji : j ≠ (s.inode ip).inum := by
            intro hji
            rw [hT.uniq jp ip hjp href (hinum.trans hji), hv] at hjv
            exact hjv rfl
          rw [if_neg hjv, if_neg hjv, if_neg hji]
    · rw [if_neg hj, if_neg hj]
  rw [hin]

end Regions

/-- **The copy in memory changes**. -/
theorem vol_setFields (hT : Table sb s) (href : 0 < (s.inode ip).ref) (hv : (s.inode ip).valid = true) {x : Dinode} :
    (s.setInode ip { s.inode ip with d := x }).vol sb = (s.vol sb).setInode (s.inode ip).inum x := by
  have hfind : ∀ j, (s.setInode ip { s.inode ip with d := x }).findInode ROOTDEV j = s.findInode ROOTDEV j := by
    intro j
    simp only [FsState.findInode, FsState.setInode]
    congr 1
    funext jp
    by_cases hjp : jp = ip
    · subst hjp
      simp
    · simp [hjp]
  have hin : ((s.setInode ip { s.inode ip with d := x }).vol sb).inode = update (s.vol sb).inode (s.inode ip).inum x := by
    funext j
    by_cases hji : j = (s.inode ip).inum
    · subst hji
      rw [update_self]
      simp only [FsState.vol, if_pos (hT.inum ip href), FsState.node, hfind, hT.find href]
      simp [FsState.setInode, hv]
    · rw [update_of_ne hji]
      simp only [FsState.vol, FsState.node, hfind]
      cases hf : s.findInode ROOTDEV j with
      | none => rfl
      | some jp =>
        obtain ⟨-, -, hinum⟩ := findInode_some hf
        have hjp : jp ≠ ip := by
          rintro rfl
          exact hji hinum.symm
        simp only [FsState.setInode, update_of_ne hjp]
        rfl
  rw [Vol.setInode, ← hin]
  rfl

end Volume

/-! ### Code that touches one inode -/

/-- What changes is blocks, the log, and the copy of inode `ip`. -/
structure Changes (ip : InodeNo) (s t : FsState) : Prop where
  eq : t = { s with
    cache := t.cache
    logged := t.logged
    inode := update s.inode ip { s.inode ip with d := (t.inode ip).d } }
  logged : s.logged ⊆ t.logged

/-- What changes is blocks that are logged, and the copy of inode `ip`. -/
structure Touches (ip : InodeNo) (s t : FsState) : Prop extends Changes ip s t where
  cache : ∀ b, b ∉ t.logged → t.cache b = s.cache b

section Touches

variable {s t u : FsState} {ip jp : InodeNo}

variable (h : Changes ip s t)

include h

theorem Changes.inode_of_ne (hne : jp ≠ ip) : t.inode jp = s.inode jp := by
  rw [h.eq]
  simp [hne]

theorem Changes.inode_self : t.inode ip = { s.inode ip with d := (t.inode ip).d } := by
  have := congrArg (fun u : FsState => u.inode ip) h.eq
  simpa using this

theorem Changes.ref (jp : InodeNo) : (t.inode jp).ref = (s.inode jp).ref := by
  by_cases hjp : jp = ip
  · rw [hjp, h.inode_self]
  · rw [h.inode_of_ne hjp]

theorem Changes.inum (jp : InodeNo) : (t.inode jp).inum = (s.inode jp).inum := by
  by_cases hjp : jp = ip
  · rw [hjp, h.inode_self]
  · rw [h.inode_of_ne hjp]

theorem Changes.dev (jp : InodeNo) : (t.inode jp).dev = (s.inode jp).dev := by
  by_cases hjp : jp = ip
  · rw [hjp, h.inode_self]
  · rw [h.inode_of_ne hjp]

theorem Changes.valid (jp : InodeNo) : (t.inode jp).valid = (s.inode jp).valid := by
  by_cases hjp : jp = ip
  · rw [hjp, h.inode_self]
  · rw [h.inode_of_ne hjp]

theorem Changes.held : t.held = s.held := by rw [h.eq]

theorem Changes.home : t.home = s.home := by rw [h.eq]

theorem Changes.user : t.user = s.user := by rw [h.eq]

theorem Changes.files : t.files = s.files := by rw [h.eq]

theorem Changes.cwd : t.cwd = s.cwd := by rw [h.eq]

theorem Changes.outstanding : t.outstanding = s.outstanding := by rw [h.eq]

theorem Changes.trans (h' : Changes ip t u) : Changes ip s u where
  eq := by
    conv_lhs => rw [h'.eq, h.eq]
    simp
  logged := List.Subset.trans h.logged h'.logged

theorem Changes.write (b : ℕ) (d : Block) : Changes ip s (t.write b d) where
  eq := by
    conv_lhs => rw [h.eq]
    simp [FsState.write]
  logged := List.Subset.trans h.logged fun _ hc => List.mem_insert_of_mem hc

theorem Changes.setFields (x : Dinode) : Changes ip s (t.setInode ip { t.inode ip with d := x }) where
  eq := by
    have hself := h.inode_self
    conv_lhs => rw [h.eq]
    simp [FsState.setInode]
  logged := h.logged

theorem Changes.table {sb : Superblock} (hT : Table sb s) : Table sb t where
  nonneg jp := by
    rw [h.ref]
    exact hT.nonneg jp
  dev jp hjp := by
    rw [h.ref] at hjp
    rw [h.dev]
    exact hT.dev jp hjp
  inum jp hjp := by
    rw [h.ref] at hjp
    rw [h.inum]
    exact hT.inum jp hjp
  uniq jp kp hjp hkp he := by
    rw [h.ref] at hjp hkp
    rw [h.inum, h.inum] at he
    exact hT.uniq jp kp hjp hkp he

omit h

theorem Touches.refl (ip : InodeNo) (s : FsState) : Touches ip s s where
  eq := by simp
  logged := List.Subset.refl _
  cache _ _ := rfl

theorem Touches.trans (h : Touches ip s t) (h' : Touches ip t u) : Touches ip s u where
  toChanges := h.toChanges.trans h'.toChanges
  cache b hb := by
    rw [h'.cache b hb, h.cache b fun hmem => hb (h'.logged hmem)]

theorem Touches.write (h : Touches ip s t) (b : ℕ) (d : Block) : Touches ip s (t.write b d) where
  toChanges := h.toChanges.write b d
  cache c hc := by
    simp only [FsState.logged_write, List.mem_insert_iff, not_or] at hc
    rw [FsState.cache_write, update_of_ne hc.1, h.cache c hc.2]

theorem Touches.setFields (h : Touches ip s t) (x : Dinode) : Touches ip s (t.setInode ip { t.inode ip with d := x }) where
  toChanges := h.toChanges.setFields x
  cache := h.cache

end Touches

/-! ### `balloc` and `bfree` -/

theorem freeBit_some {d : Block} {n bi r : ℕ} (h : freeBit d n bi = some r) : bi ≤ r ∧ r < bi + n ∧ getBit d r = false := by
  induction n generalizing bi with
  | zero => cases h
  | succ n ih =>
    rw [freeBit] at h
    split_ifs at h with hbit
    · cases h
      exact ⟨le_rfl, by omega, hbit⟩
    · obtain ⟨h1, h2, h3⟩ := ih h
      exact ⟨by omega, by omega, h3⟩

theorem freeBit_none {d : Block} {n bi r : ℕ} (h : freeBit d n bi = none) (hr : bi ≤ r) (hr' : r < bi + n) : getBit d r = true := by
  induction n generalizing bi with
  | zero => omega
  | succ n ih =>
    rw [freeBit] at h
    split_ifs at h with hbit
    rw [Bool.not_eq_false] at hbit
    by_cases hrb : r = bi
    · rw [hrb, hbit]
    · exact ih h (by omega) (by omega)

/-- Block `b` is allocated. -/
def FsState.allocated (sb : Superblock) (s : FsState) (b : ℕ) : FsState :=
  (s.write (sb.bblock b) (setBit (b % BPB) true (s.cache (sb.bblock b)))).write b fun _ => 0

section Code

variable {sb : Superblock} {p : Slot} {E : Fault → Prop} {fits : List ℕ → Prop} {s : FsState} {ip : InodeNo} {i b : ℕ}

theorem vol_allocated (hsb : sb.Ok) (hb : b < sb.size) (hge : sb.nmeta ≤ b) :
    (s.allocated sb b).vol sb = (s.vol sb).alloc b := by
  rw [FsState.allocated, vol_write_data hsb hge, vol_write_bit hsb hb]
  rfl

/-- A block that is not in use can be allocated. -/
structure Free (sb : Superblock) (s : FsState) (b : ℕ) : Prop where
  lt : b < sb.size
  unused : (s.vol sb).used b = false

/-- There is no free block. -/
def Full (sb : Superblock) (s : FsState) : Prop := ∀ b < sb.size, (s.vol sb).used b = true

variable {A : ℕ → Prop} {Q : ℕ → FsState → Prop} {ind : ℕ} {t : FsState}

theorem Free.nmeta_le (h : Free sb s b) (hV : (s.vol sb).OkOn sb A) : sb.nmeta ≤ b := by
  by_contra hlt
  have := hV.meta_used b (not_le.mp hlt)
  rw [h.unused] at this
  cases this

theorem Free.ne_zero (h : Free sb s b) (hsb : sb.Ok) (hV : (s.vol sb).OkOn sb A) : b ≠ 0 := by
  have := h.nmeta_le hV
  have := nmeta_pos hsb
  omega

theorem Free.lt_two_pow (h : Free sb s b) (hsb : sb.Ok) : b < 2 ^ 32 := h.lt.trans hsb.size_lt

theorem Free.unowned (h : Free sb s b) (hsb : sb.Ok) (hV : (s.vol sb).OkOn sb A) : (s.vol sb).Unowned A b :=
  hV.unowned h.unused (h.ne_zero hsb hV)

/-- The log with the blocks that an allocation writes. -/
def allocLog (sb : Superblock) (L : List ℕ) (b : ℕ) : List ℕ := (L.insert (sb.bblock b)).insert b

/-- `fits` holds of a part of a log of which it holds. -/
def Shrinks (fits : List ℕ → Prop) : Prop := ∀ L L' : List ℕ, L ⊆ L' → fits L' → fits L

theorem Touches.allocated (ip : InodeNo) (s : FsState) (b : ℕ) : Touches ip s (s.allocated sb b) :=
  ((Touches.refl ip s).write _ _).write _ _

variable (hE : ∀ e, E e) (hsh : Shrinks fits)

include hE hsh

theorem ballocFrom_spec {bs : List ℕ} (hbs : ∀ b ∈ bs, b % BPB = 0) (hfit : ∀ b, Free sb s b → fits (allocLog sb s.logged b))
    (h0 : (∀ b < sb.size, (∃ c ∈ bs, c ≤ b ∧ b < c + BPB) → (s.vol sb).used b = true) → Q 0 s)
    (h1 : ∀ b, Free sb s b → Q b (s.allocated sb b)) : (ballocFrom sb bs).wp (fsRules sb p E fits) Q s := by
  induction bs with
  | nil =>
    refine h0 fun _ _ hmem => ?_
    obtain ⟨c, hc, -⟩ := hmem
    cases hc
  | cons b bs ih =>
    have hmod := hbs b List.mem_cons_self
    -- the bits of the blocks from `b` on are in the block of `b`
    have hbits : ∀ bi < BPB, sb.bblock (b + bi) = sb.bblock b ∧ (b + bi) % BPB = bi := by
      intro bi hbi
      have hdiv : (b + bi) / BPB = b / BPB := by
        rw [Nat.add_div (by decide), hmod, Nat.div_eq_of_lt hbi, Nat.zero_add, Nat.mod_eq_of_lt hbi, if_neg (not_le.mpr hbi)]
        simp
      exact ⟨by rw [Superblock.bblock, hdiv, Superblock.bblock],
        by rw [Nat.add_mod, hmod, Nat.zero_add, Nat.mod_mod, Nat.mod_eq_of_lt hbi]⟩
    rw [ballocFrom, wp_bind]
    refine bread_spec (fun _ => hE _) fun _ => ?_
    rw [wp_bind]
    refine data_spec ?_
    cases hf : freeBit (s.cache (sb.bblock b)) (min BPB (sb.size - b)) 0 with
    | none =>
      dsimp only
      rw [wp_bind]
      refine brelse_spec rfl (ih (fun c hc => hbs c (List.mem_cons_of_mem _ hc)) fun hrest => h0 fun c hc hmem => ?_)
      obtain ⟨c', hc', hle, hlt⟩ := hmem
      rcases List.mem_cons.mp hc' with rfl | hc'
      · obtain ⟨bi, rfl⟩ := Nat.exists_eq_add_of_le hle
        obtain ⟨hblock, hrem⟩ := hbits bi (by omega)
        have hbit := freeBit_none hf (Nat.zero_le bi) (by omega)
        simp only [FsState.vol, hblock, hrem, hbit, decide_eq_true hc, Bool.and_true]
      · exact hrest c hc ⟨c', hc', hle, hlt⟩
    | some bi =>
      dsimp only
      obtain ⟨-, hlt, hbit⟩ := freeBit_some hf
      obtain ⟨hblock, hrem⟩ := hbits bi (by omega)
      have hfree : Free sb s (b + bi) := by
        refine ⟨by omega, ?_⟩
        simp only [FsState.vol, hblock, hrem, hbit, Bool.and_false]
      have hlog := hfit (b + bi) hfree
      rw [allocLog, hblock] at hlog
      have hres := h1 (b + bi) hfree
      rw [FsState.allocated, hblock, hrem] at hres
      rw [wp_bind]
      refine setData_spec ?_
      rw [wp_bind]
      refine logWrite_spec hE (hsh _ _ (fun c hc => List.mem_insert_of_mem hc) hlog) ?_
      rw [wp_bind]
      refine brelse_spec rfl ?_
      rw [wp_bind]
      exact bzero_spec hE hlog hres

/-- **`balloc`** finds no free block, or allocates one. -/
theorem balloc_spec (hfit : ∀ b, Free sb s b → fits (allocLog sb s.logged b)) (h0 : Full sb s → Q 0 s)
    (h1 : ∀ b, Free sb s b → Q b (s.allocated sb b)) : (balloc sb).wp (fsRules sb p E fits) Q s := by
  refine ballocFrom_spec hE hsh (fun b hb => ?_) hfit (fun hfull => h0 fun b hb => hfull b hb ?_) h1
  · obtain ⟨k, -, rfl⟩ := List.mem_map.mp hb
    exact Nat.mul_mod_left k BPB
  · refine ⟨b / BPB * BPB, List.mem_map.mpr ⟨b / BPB, List.mem_range.mpr ?_, rfl⟩, Nat.div_mul_le_self b BPB, ?_⟩
    · rw [Nat.div_lt_iff_lt_mul (by decide)]
      have := Nat.lt_div_mul_add (a := sb.size + BPB - 1) (b := BPB) (by decide)
      omega
    · have := Nat.lt_div_mul_add (a := b) (b := BPB) (by decide)
      omega

omit hsh in
/-- **`bfree`**. -/
theorem bfree_spec {Q : Unit → FsState → Prop} (hfit : fits (s.logged.insert (sb.bblock b)))
    (h : Q () (s.write (sb.bblock b) (setBit (b % BPB) false (s.cache (sb.bblock b))))) :
    (bfree sb b).wp (fsRules sb p E fits) Q s := by
  rw [bfree, wp_bind]
  refine bread_spec (fun _ => hE _) fun _ => ?_
  rw [wp_bind]
  refine data_spec ?_
  split_ifs
  · exact panic_spec (hE _)
  · exact update_spec hE hfit h

/-! ### `bmap` -/

/-- `bmap` of a direct block, or of the indirect block. -/
theorem bmapDirect_spec {n : ℕ} (hne : ∀ b, Free sb s b → b ≠ 0)
    (hfit : (s.inode ip).d.addr n = 0 → ∀ b, Free sb s b → fits (allocLog sb s.logged b))
    (hsome : (s.inode ip).d.addr n ≠ 0 → Q ((s.inode ip).d.addr n) s) (h0 : (s.inode ip).d.addr n = 0 → Full sb s → Q 0 s)
    (h1 : (s.inode ip).d.addr n = 0 → ∀ b, Free sb s b →
      Q b ((s.allocated sb b).setInode ip { s.inode ip with d := (s.inode ip).d.setAddr n b })) :
    (bmapDirect sb ip n).wp (fsRules sb p E fits) Q s := by
  rw [bmapDirect, wp_bind]
  refine fields_spec ?_
  split_ifs with hn
  · rw [wp_bind]
    refine balloc_spec hE hsh (hfit hn) (h0 hn) fun b hb => ?_
    rw [if_neg (hne b hb), wp_bind]
    refine fields_spec ?_
    rw [wp_bind]
    exact setFields_spec (h1 hn b hb)
  · exact hsome hn

theorem bmapEntry_spec {k : ℕ} (hne : ∀ b, Free sb s b → b ≠ 0)
    (hfit : getEntry (s.cache ind) k = 0 → ∀ b, Free sb s b → fits ((allocLog sb s.logged b).insert ind))
    (hsome : getEntry (s.cache ind) k ≠ 0 → Q (getEntry (s.cache ind) k) s) (h0 : getEntry (s.cache ind) k = 0 → Full sb s → Q 0 s)
    (h1 : getEntry (s.cache ind) k = 0 → ∀ b, Free sb s b →
      Q b ((s.allocated sb b).write ind (setEntry k b ((s.allocated sb b).cache ind)))) :
    (bmapEntry sb ind k).wp (fsRules sb p E fits) Q s := by
  rw [bmapEntry, wp_bind]
  refine bread_spec (fun _ => hE _) fun _ => ?_
  rw [wp_bind]
  refine data_spec ?_
  split_ifs with hk
  · rw [wp_bind]
    refine balloc_spec hE hsh (fun b hb => ?_) (fun hfull => ?_) fun b hb => ?_
    · exact hsh _ _ (fun c hc => List.mem_insert_of_mem hc) (hfit hk b ⟨hb.lt, hb.unused⟩)
    · rw [if_neg (not_not_intro rfl), wp_bind]
      exact brelse_spec rfl (h0 hk hfull)
    · have hb' : Free sb s b := ⟨hb.lt, hb.unused⟩
      rw [if_pos (hne b hb'), wp_bind]
      refine data_spec ?_
      rw [wp_bind]
      refine setData_spec ?_
      rw [wp_bind]
      refine logWrite_spec hE (hfit hk b hb') ?_
      rw [wp_bind]
      exact brelse_spec rfl (h1 hk b hb')
  · rw [wp_bind]
    exact brelse_spec rfl (hsome hk)

omit hE hsh

/-- The inode `ip` is referenced and has been read, and the volume is in order. -/
structure Opened (sb : Superblock) (ip : InodeNo) (s : FsState) : Prop where
  table : Table sb s
  ref : 0 < (s.inode ip).ref
  valid : (s.inode ip).valid = true
  ok : (s.vol sb).Ok sb
  alloc : (s.vol sb).Alloc (s.inode ip).inum

theorem Opened.inode (h : Opened sb ip s) : (s.vol sb).inode (s.inode ip).inum = (s.inode ip).d := h.table.inode_valid h.ref h.valid

theorem lt_of_used (h : (s.vol sb).used b = true) : b < sb.size := by
  simp only [FsState.vol, Bool.and_eq_true, decide_eq_true_eq] at h
  exact h.1

theorem size_pos (hsb : sb.Ok) : 0 < sb.size := (nmeta_pos hsb).trans_le hsb.nmeta_le

theorem loc_lt_size (hsb : sb.Ok) (hok : (s.vol sb).Ok sb) (hi : (s.vol sb).Alloc i) (pl : Place) : (s.vol sb).loc i pl < sb.size := by
  by_cases h0 : (s.vol sb).loc i pl = 0
  · rw [h0]
    exact size_pos hsb
  · exact lt_of_used (hok.used_of_loc hi h0)

theorem Opened.congr (h : Opened sb ip s) (hcache : t.cache = s.cache) (hinode : t.inode = s.inode) : Opened sb ip t where
  table := h.table.congr hinode
  ref := by
    rw [hinode]
    exact h.ref
  valid := by
    rw [hinode]
    exact h.valid
  ok := by
    rw [vol_congr hcache hinode]
    exact h.ok
  alloc := by
    rw [vol_congr hcache hinode, hinode]
    exact h.alloc

theorem Opened.loc_addr (h : Opened sb ip s) (n : ℕ) : (s.vol sb).loc (s.inode ip).inum (.addr n) = (s.inode ip).d.addr n := by
  rw [Vol.loc, h.inode]

theorem Opened.addr_lt_size (h : Opened sb ip s) (hsb : sb.Ok) (n : ℕ) : (s.inode ip).d.addr n < sb.size := by
  rw [← h.loc_addr]
  exact loc_lt_size hsb h.ok h.alloc _

theorem Opened.loc_entry (h : Opened sb ip s) (hind : (s.inode ip).d.addr NDIRECT = ind) (hne : ind ≠ 0) (k : ℕ) :
    (s.vol sb).loc (s.inode ip).inum (.entry k) = getEntry (s.cache ind) k := by
  have hge := (h.ok.own _ (.addr NDIRECT) h.alloc (by rw [h.loc_addr, hind]; exact hne)).1
  rw [h.loc_addr, hind] at hge
  rw [Vol.loc, h.inode, hind, if_neg hne]
  simp only [FsState.vol, if_pos hge]

theorem Opened.loc_entry_zero (h : Opened sb ip s) (hind : (s.inode ip).d.addr NDIRECT = 0) (k : ℕ) :
    (s.vol sb).loc (s.inode ip).inum (.entry k) = 0 := by
  rw [Vol.loc, h.inode, if_pos hind]

/-- The inode `ip` has got blocks. -/
structure Extends (sb : Superblock) (ip : InodeNo) (s t : FsState) : Prop where
  touches : Touches ip s t
  grown : Vol.Grown sb (s.vol sb).Alloc (s.inode ip).inum (s.vol sb) (t.vol sb)
  /-- They are logged. -/
  fresh : ∀ j pl, (s.vol sb).Alloc j → (t.vol sb).loc j pl = (s.vol sb).loc j pl ∨ (t.vol sb).loc j pl ∈ t.logged
  /-- The inodes on the disk stay. -/
  disk : ∀ j, sb.IsInum j → t.disk sb j = s.disk sb j

theorem Extends.refl (hok : (s.vol sb).Ok sb) : Extends sb ip s s :=
  ⟨.refl ip s, .refl hok, fun _ _ _ => .inl rfl, fun _ _ => rfl⟩

theorem Extends.trans {u : FsState} (h : Extends sb ip s t) (h' : Extends sb ip t u) : Extends sb ip s u where
  touches := h.touches.trans h'.touches
  grown := by
    have hg := h'.grown
    rw [h.grown.alloc_eq, h.touches.inum] at hg
    exact h.grown.trans hg
  fresh j pl hj := by
    rcases h'.fresh j pl (by rw [h.grown.alloc_eq]; exact hj) with he' | hmem
    · rcases h.fresh j pl hj with he | hmem
      · exact .inl (he'.trans he)
      · exact .inr (he' ▸ h'.touches.logged hmem)
    · exact .inr hmem
  disk j hj := (h'.disk j hj).trans (h.disk j hj)

theorem Extends.opened (h : Extends sb ip s t) (ho : Opened sb ip s) : Opened sb ip t where
  table := h.touches.table ho.table
  ref := by
    rw [h.touches.ref]
    exact ho.ref
  valid := by
    rw [h.touches.valid]
    exact ho.valid
  ok := by
    rw [Vol.Ok, h.grown.alloc_eq]
    exact h.grown.ok
  alloc := by
    rw [h.grown.alloc_eq, h.touches.inum]
    exact ho.alloc

theorem Extends.addr (h : Extends sb ip s t) (ho : Opened sb ip s) (hne : (s.inode ip).d.addr NDIRECT ≠ 0) :
    (t.inode ip).d.addr NDIRECT = (s.inode ip).d.addr NDIRECT := by
  have hl := h.grown.loc _ (.addr NDIRECT) ho.alloc (by rw [ho.loc_addr]; exact hne)
  have hl' := (h.opened ho).loc_addr NDIRECT
  rw [h.touches.inum] at hl'
  rwa [hl', ho.loc_addr] at hl

/-- The blocks that `bmap` may log for block `bn` of a file: the file has the indirect block `ind`, and `b` is new. -/
def mapLog (sb : Superblock) (bn ind b : ℕ) : List ℕ :=
  if bn < NDIRECT then [sb.bblock b, b] else [sb.bblock ind, ind, sb.bblock b, b]

/-- What `bmap` of block `bn` of the inode `ip` does. -/
structure Mapped (sb : Superblock) (ip : InodeNo) (bn : ℕ) (s : FsState) (r : ℕ) (t : FsState) : Prop
    extends Extends sb ip s t where
  /-- It answers the block of the file, or `0`. -/
  block : r ≠ 0 → (t.vol sb).block (s.inode ip).inum bn = r
  lt : r < sb.size
  full : r = 0 → Full sb t
  logged : t = s ∨ (s.vol sb).block (s.inode ip).inum bn = 0 ∧
    t.logged ⊆ s.logged ++ mapLog sb bn ((t.inode ip).d.addr NDIRECT) r

section Disk

variable (hsb : sb.Ok)

include hsb

theorem disk_write_bblock {d : Block} (hi : sb.IsInum i) : (s.write (sb.bblock b) d).disk sb i = s.disk sb i := by
  rw [FsState.disk, FsState.cache_write, update_of_ne (iblock_ne_bblock hsb hi), FsState.disk]

theorem disk_write_data {d : Block} (hb : sb.nmeta ≤ b) (hi : sb.IsInum i) : (s.write b d).disk sb i = s.disk sb i := by
  have hne : sb.iblock i ≠ b := by
    have := iblock_lt_nmeta hsb hi
    omega
  rw [FsState.disk, FsState.cache_write, update_of_ne hne, FsState.disk]

theorem disk_allocated (hb : sb.nmeta ≤ b) (hi : sb.IsInum i) : (s.allocated sb b).disk sb i = s.disk sb i := by
  rw [FsState.allocated, disk_write_data hsb hb hi, disk_write_bblock hsb hi]

end Disk

variable (hsb : sb.Ok) (ho : Opened sb ip s)

include hsb ho

theorem Extends.setAddr {n : ℕ} (hn : n < NDIRECT + 1) (h0 : (s.inode ip).d.addr n = 0) (hb : Free sb s b) :
    Extends sb ip s ((s.allocated sb b).setInode ip { s.inode ip with d := (s.inode ip).d.setAddr n b }) := by
  have hge := hb.nmeta_le ho.ok
  have hun := hb.unowned hsb ho.ok
  have hvol : ((s.allocated sb b).setInode ip { s.inode ip with d := (s.inode ip).d.setAddr n b }).vol sb =
      ((s.vol sb).alloc b).setInode (s.inode ip).inum (((s.vol sb).inode (s.inode ip).inum).setAddr n b) := by
    rw [ho.inode, ← vol_allocated hsb hb.lt hge]
    exact vol_setFields (s := s.allocated sb b) ((Touches.allocated ip s b).table ho.table) ho.ref ho.valid
  have h0' : ((s.vol sb).inode (s.inode ip).inum).addr n = 0 := by rw [ho.inode, h0]
  constructor
  case touches => exact (Touches.allocated ip s b).setFields _
  case grown =>
    rw [hvol]
    exact .setAddr ho.ok ho.alloc hun hge hn (hb.lt_two_pow hsb) h0'
  case fresh =>
    intro j pl hj
    rw [hvol]
    by_cases hji : j = (s.inode ip).inum
    · subst hji
      have hl := Vol.loc_setAddr (V := (s.vol sb).alloc b) (i := (s.inode ip).inum) hn (hb.lt_two_pow hsb) h0'
        (fun _ => Vol.blk_alloc_self) pl
      rw [Vol.inode_alloc] at hl
      rw [hl]
      split_ifs
      · exact .inr List.mem_insert_self
      · exact .inl (Vol.loc_alloc hun hj)
    · rw [Vol.loc_setInode_of_ne hji]
      exact .inl (Vol.loc_alloc hun hj)
  case disk => exact fun j hj => disk_allocated hsb hge hj

theorem Extends.setEntry {k : ℕ} (hk : k < NINDIRECT) (hind : (s.inode ip).d.addr NDIRECT = ind) (hne : ind ≠ 0)
    (h0 : getEntry (s.cache ind) k = 0) (hb : Free sb s b) :
    Extends sb ip s ((s.allocated sb b).write ind (Fs.setEntry k b ((s.allocated sb b).cache ind))) := by
  have hun := hb.unowned hsb ho.ok
  have hind' : ((s.vol sb).inode (s.inode ip).inum).addr NDIRECT = ind := by rw [ho.inode, hind]
  have hge : sb.nmeta ≤ ind := by
    have := (ho.ok.own _ (.addr NDIRECT) ho.alloc (by rw [ho.loc_addr, hind]; exact hne)).1
    rwa [ho.loc_addr, hind] at this
  have hvol : ((s.allocated sb b).write ind (Fs.setEntry k b ((s.allocated sb b).cache ind))).vol sb =
      ((s.vol sb).alloc b).setBlk ind (Fs.setEntry k b (((s.vol sb).alloc b).blk ind)) := by
    rw [vol_write_data hsb hge, ← vol_allocated hsb hb.lt (hb.nmeta_le ho.ok)]
    simp only [FsState.vol, if_pos hge]
  have h0' : (s.vol sb).loc (s.inode ip).inum (.entry k) = 0 := by rw [ho.loc_entry hind hne, h0]
  constructor
  case touches => exact (Touches.allocated ip s b).write _ _
  case grown =>
    rw [hvol]
    exact .setEntry ho.ok ho.alloc hun (hb.nmeta_le ho.ok) hk (hb.lt_two_pow hsb) hind' hne h0'
  case fresh =>
    intro j pl hj
    rw [hvol, Vol.loc_setEntry hk (hb.lt_two_pow hsb) (ho.ok.alloc hun) ho.alloc hind' hne hj]
    split_ifs
    · exact .inr (List.mem_insert_of_mem List.mem_insert_self)
    · exact .inl (Vol.loc_alloc hun hj)
  case disk =>
    intro j hj
    rw [disk_write_data hsb hge hj, disk_allocated hsb (hb.nmeta_le ho.ok) hj]

include hE hsh

/-- `bmap` with the indirect block at hand, which may be new. -/
theorem bmapEntry_mapped {bn : ℕ} (hbn : ¬bn < NDIRECT) (hk : bn - NDIRECT < NINDIRECT)
    (ht : Extends sb ip s t) (hind : (t.inode ip).d.addr NDIRECT = ind) (hne : ind ≠ 0)
    (hnew : t = s ∨ (s.vol sb).block (s.inode ip).inum bn = 0 ∧ t.logged ⊆ s.logged ++ [sb.bblock ind, ind])
    (hfit : (s.vol sb).block (s.inode ip).inum bn = 0 → ∀ b < sb.size, fits (s.logged ++ mapLog sb bn ind b)) :
    (bmapEntry sb ind (bn - NDIRECT)).wp (fsRules sb p E fits) (Mapped sb ip bn s) t := by
  have ho' := ht.opened ho
  have hloc : ∀ k, (t.vol sb).loc (s.inode ip).inum (.entry k) = getEntry (t.cache ind) k := by
    intro k
    rw [← ht.touches.inum ip]
    exact ho'.loc_entry hind hne k
  have hlog : mapLog sb bn ind = fun b => [sb.bblock ind, ind, sb.bblock b, b] := by
    funext b
    rw [mapLog, if_neg hbn]
  have hsub : ∀ b, t.logged ⊆ s.logged ++ mapLog sb bn ind b := by
    intro b
    rw [hlog]
    rcases hnew with rfl | ⟨-, hsub⟩
    · exact List.subset_append_left _ _
    · refine List.Subset.trans hsub (List.append_subset.mpr ⟨List.subset_append_left _ _, ?_⟩)
      exact List.Subset.trans (by simp) (List.subset_append_right _ _)
  -- an entry that is empty was so before
  have hzero : getEntry (t.cache ind) (bn - NDIRECT) = 0 → (s.vol sb).block (s.inode ip).inum bn = 0 := by
    intro h0
    rcases hnew with rfl | ⟨h, -⟩
    · rw [Vol.block, filePlace, if_neg hbn, hloc, h0]
    · exact h
  have hlogged : t = s ∨ (s.vol sb).block (s.inode ip).inum bn = 0 ∧
      ∀ r, t.logged ⊆ s.logged ++ mapLog sb bn ((t.inode ip).d.addr NDIRECT) r := by
    rw [hind]
    exact hnew.imp id fun h => ⟨h.1, hsub⟩
  have hbig : ∀ b, (allocLog sb t.logged b).insert ind ⊆ s.logged ++ mapLog sb bn ind b := by
    intro b c hc
    simp only [allocLog, List.mem_insert_iff] at hc
    rcases hc with rfl | rfl | rfl | hc
    · simp [hlog]
    · simp [hlog]
    · simp [hlog]
    · exact hsub b hc
  apply bmapEntry_spec hE hsh
  case hne => exact fun b hb => hb.ne_zero hsb ho'.ok
  case hfit => exact fun h0 b hb => hsh _ _ (hbig b) (hfit (hzero h0) b hb.lt)
  case hsome =>
    intro h1
    have hlt := loc_lt_size hsb ho'.ok ho'.alloc (.entry (bn - NDIRECT))
    rw [ht.touches.inum, hloc] at hlt
    refine ⟨ht, fun _ => ?_, hlt, fun h => absurd h h1, hlogged.imp id fun h => ⟨h.1, h.2 _⟩⟩
    rw [Vol.block, filePlace, if_neg hbn, hloc]
  case h0 => exact fun _ hfull => ⟨ht, fun h => absurd rfl h, size_pos hsb, fun _ => hfull, hlogged.imp id fun h => ⟨h.1, h.2 _⟩⟩
  case h1 =>
    intro h0 b hb
    have hext := Extends.setEntry hsb ho' hk hind hne h0 hb
    refine ⟨ht.trans hext, fun _ => ?_, hb.lt, fun h => absurd h (hb.ne_zero hsb ho'.ok), .inr ⟨hzero h0, ?_⟩⟩
    · rw [Vol.block, filePlace, if_neg hbn, ← ht.touches.inum ip, ← hext.touches.inum ip,
        (hext.opened ho').loc_entry hind hne, FsState.cache_write, update_self,
        getEntry_setEntry hk (hb.lt_two_pow hsb), if_pos rfl]
    · change (allocLog sb t.logged b).insert ind ⊆ s.logged ++ mapLog sb bn ((t.inode ip).d.addr NDIRECT) b
      rw [hind]
      exact hbig b

/-- **`bmap`** finds the block of a file, or makes the file grow by it. -/
theorem bmap_spec {bn : ℕ} (hfit : (s.vol sb).block (s.inode ip).inum bn = 0 → ∀ ind < sb.size, ∀ b < sb.size,
      ((s.inode ip).d.addr NDIRECT ≠ 0 → ind = (s.inode ip).d.addr NDIRECT) → fits (s.logged ++ mapLog sb bn ind b))
    (h : ∀ r t, Mapped sb ip bn s r t → Q r t) : (bmap sb ip bn).wp (fsRules sb p E fits) Q s := by
  apply wp_rules_mono (Q := Mapped sb ip bn s) ?_ h
  have hne : ∀ b, Free sb s b → b ≠ 0 := fun b hb => hb.ne_zero hsb ho.ok
  have hrefl : Extends sb ip s s := .refl ho.ok
  rw [bmap]
  split_ifs with hbn hk
  · have hloc : (s.vol sb).block (s.inode ip).inum bn = (s.inode ip).d.addr bn := by
      rw [Vol.block, filePlace, if_pos hbn, ho.loc_addr]
    have hbig : ∀ ind b, allocLog sb s.logged b ⊆ s.logged ++ mapLog sb bn ind b := by
      intro ind b c hc
      simp only [allocLog, List.mem_insert_iff] at hc
      rcases hc with rfl | rfl | hc
      · simp [mapLog, hbn]
      · simp [mapLog, hbn]
      · exact List.mem_append_left _ hc
    apply bmapDirect_spec hE hsh hne
    case hfit => exact fun h0 b hb => hsh _ _ (hbig _ b) (hfit (hloc.trans h0) _ (ho.addr_lt_size hsb _) b hb.lt fun _ => rfl)
    case hsome => exact fun h1 => ⟨hrefl, fun _ => hloc, ho.addr_lt_size hsb _, fun h => absurd h h1, .inl rfl⟩
    case h0 => exact fun _ hfull => ⟨hrefl, fun h => absurd rfl h, size_pos hsb, fun _ => hfull, .inl rfl⟩
    case h1 =>
      intro h0 b hb
      have hext := Extends.setAddr hsb ho (hbn.trans (Nat.lt_succ_self _)) h0 hb
      refine ⟨hext, fun _ => ?_, hb.lt, fun h => absurd h (hne b hb), .inr ⟨hloc.trans h0, hbig _ b⟩⟩
      rw [Vol.block, filePlace, if_pos hbn, ← hext.touches.inum ip, (hext.opened ho).loc_addr]
      simp [FsState.setInode, Dinode.addr_setAddr (hbn.trans (Nat.lt_succ_self _)) (hb.lt_two_pow hsb)]
  · have hmap : ∀ ind b, s.logged ++ [sb.bblock ind, ind] ⊆ s.logged ++ mapLog sb bn ind b := by
      intro ind b
      refine List.append_subset.mpr ⟨List.subset_append_left _ _, ?_⟩
      exact List.Subset.trans (by simp [mapLog, hbn]) (List.subset_append_right _ _)
    -- without an indirect block the entry is not there
    have hzero : (s.inode ip).d.addr NDIRECT = 0 → (s.vol sb).block (s.inode ip).inum bn = 0 := by
      intro h0
      rw [Vol.block, filePlace, if_neg hbn, ho.loc_entry_zero h0]
    have hbig : ∀ b, allocLog sb s.logged b ⊆ s.logged ++ [sb.bblock b, b] := by
      intro b c hc
      simp only [allocLog, List.mem_insert_iff] at hc
      rcases hc with rfl | rfl | hc
      · simp
      · simp
      · exact List.mem_append_left _ hc
    rw [wp_bind]
    apply bmapDirect_spec hE hsh hne
    case hfit =>
      intro h0 b hb
      exact hsh _ _ (List.Subset.trans (hbig b) (hmap b b)) (hfit (hzero h0) b hb.lt b hb.lt fun h => absurd h0 h)
    case hsome =>
      intro h1
      rw [if_neg h1]
      exact bmapEntry_mapped hE hsh hsb ho hbn hk hrefl rfl h1 (.inl rfl) fun h0 b hb =>
        hfit h0 _ (ho.addr_lt_size hsb _) b hb fun _ => rfl
    case h0 => exact fun _ hfull => ⟨hrefl, fun h => absurd rfl h, size_pos hsb, fun _ => hfull, .inl rfl⟩
    case h1 =>
      intro h0 b hb
      rw [if_neg (hne b hb)]
      have hext := Extends.setAddr hsb ho (Nat.lt_succ_self _) h0 hb
      have hind : (((s.allocated sb b).setInode ip { s.inode ip with d := (s.inode ip).d.setAddr NDIRECT b }).inode ip).d.addr
          NDIRECT = b := by
        simp [FsState.setInode, Dinode.addr_setAddr (Nat.lt_succ_self NDIRECT) (hb.lt_two_pow hsb)]
      exact bmapEntry_mapped hE hsh hsb ho hbn hk hext hind (hne b hb) (.inr ⟨hzero h0, hbig b⟩)
        fun h1 c hc => hfit h1 b hb.lt c hc fun h => absurd h0 h
  · exact panic_spec (hE _)

end Code

end Xv6Shmem.Fs
