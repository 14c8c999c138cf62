import Xv6Shmem.Fs.Content

/-!
# Inodes in order

The invariant of the file system between the functions of `kernel/fs.c`, and what the functions that get, lock
and drop inodes in memory do.

While code of a call runs, it has references to inodes of its own, the list `l`, beside those that are kept in
open files and current directories, `base`. An inode that a directory names has links, or is kept by such a
reference; `X` are the inodes for which this is not known.

## What is proved

* `InOrder.setInode` — what a change of an entry of the table has to respect.
* `iget_spec`, `ilock_spec`, `iunlock_spec`, `iput_keep_spec` — code that only changes the table leaves the volume as it is.
-/

namespace Xv6Shmem.Fs

open Function ByteArea Kernel Disk Files Prog

/-! ### The invariant -/

/-- The entries of a directory. -/
def FileData.entries (x : FileData) : List Dirent :=
  (List.range (x.bytes.length / DESIZE)).map fun k => Dirent.ofBytes ((x.bytes.drop (DESIZE * k)).take DESIZE)

theorem FileData.entries_nil {x : FileData} (h : x.bytes = []) : x.entries = [] := by simp [FileData.entries, h]

/-- The copies in memory are what is on the disk. -/
def Clean (sb : Superblock) (s : FsState) : Prop :=
  ∀ ip, 0 < (s.inode ip).ref → (s.inode ip).valid = true → (s.inode ip).d = s.disk sb (s.inode ip).inum

/-- Neither code of the file system nor a directory depends on the block. -/
def Loose (sb : Superblock) (V : Vol) (b : ℕ) : Prop :=
  sb.nmeta ≤ b ∧ ∀ i pl, V.Alloc i → V.loc i pl = b → pl ≠ .addr NDIRECT ∧ (V.inode i).type ≠ T_DIR

/-- A block that is changed is logged, but for the data of a file. -/
def Synced (sb : Superblock) (s : FsState) : Prop := ∀ b, b ∉ s.logged → s.cache b = s.home b ∨ Loose sb (s.vol sb) b

/-- The files of a state. -/
abbrev FsState.tree (sb : Superblock) (s : FsState) : ℕ → FileData := (s.vol sb).file

/-- The inode is the root, or a directory has an entry for it. -/
def Named (F : ℕ → FileData) (i : ℕ) : Prop := i = ROOTINO ∨ ∃ d, (F d).type = T_DIR ∧ ∃ e ∈ (F d).entries, e.inum = i

/-- **The invariant**. -/
structure InOrder (sb : Superblock) (base : InodeNo → ℤ) (l : List InodeNo) (X : ℕ → Prop) (s : FsState) : Prop where
  table : Table sb s
  clean : Clean sb s
  /-- An inode that has been read is allocated. -/
  typed : ∀ ip, 0 < (s.inode ip).ref → (s.inode ip).valid = true → (s.inode ip).d.type ≠ 0
  ok : (s.vol sb).Ok sb
  /-- The entries of directories are inode numbers. -/
  dirs : ∀ i, (s.tree sb i).type = T_DIR → ∀ e ∈ (s.tree sb i).entries, e.inum ≠ 0 → sb.IsInum e.inum
  synced : Synced sb s
  held : s.held = []
  nonneg : ∀ ip, 0 ≤ base ip
  refs : ∀ ip, (s.inode ip).ref = base ip + (l.count ip : ℤ)
  /-- The inodes of open files and current directories are allocated. -/
  live : ∀ ip, 0 < base ip → (s.tree sb (s.inode ip).inum).type ≠ 0
  /-- An inode that has a name has a link, or is referenced. -/
  linked : ∀ i, ¬X i → Named (s.tree sb) i → (s.tree sb i).type ≠ 0 → (s.tree sb i).nlink = 0 →
    ∃ ip, 0 < base ip ∧ (s.inode ip).inum = i

/-- A file that changes names nothing that it has not named. -/
theorem Named.of_update {F : ℕ → FileData} {i j : ℕ} {x : FileData} (h : Named (update F i x) j)
    (hx : x.type = T_DIR → (F i).type = T_DIR ∧ ∀ e ∈ x.entries, e ∈ (F i).entries) : Named F j := by
  refine h.imp id fun ⟨d, htype, e, he, hj⟩ => ?_
  by_cases hd : d = i
  · rw [hd, update_self] at htype he
    exact ⟨i, (hx htype).1, e, (hx htype).2 e he, hj⟩
  · rw [update_of_ne hd] at htype he
    exact ⟨d, htype, e, he, hj⟩

section Volume

variable {sb : Superblock} {s t : FsState} {i : ℕ} {ip jp : InodeNo}

theorem Clean.inode_vol (h : Clean sb s) (hi : sb.IsInum i) : (s.vol sb).inode i = s.disk sb i := by
  simp only [FsState.vol, if_pos hi, FsState.node]
  cases hf : s.findInode ROOTDEV i with
  | none => rfl
  | some ip =>
    obtain ⟨href, -, rfl⟩ := findInode_some hf
    dsimp only
    split_ifs with hv
    · exact h ip href hv
    · rfl

/-- **A clean table does not matter** for the volume. -/
theorem Clean.vol_eq (hs : Clean sb s) (ht : Clean sb t) (hcache : t.cache = s.cache) : t.vol sb = s.vol sb := by
  have hin : (t.vol sb).inode = (s.vol sb).inode := by
    funext i
    by_cases hi : sb.IsInum i
    · rw [hs.inode_vol hi, ht.inode_vol hi, FsState.disk, hcache, FsState.disk]
    · simp only [FsState.vol, if_neg hi]
  have hused : (t.vol sb).used = (s.vol sb).used := by simp only [FsState.vol, hcache]
  have hblk : (t.vol sb).blk = (s.vol sb).blk := by simp only [FsState.vol, hcache]
  exact Vol.ext hin hused hblk

theorem Vol.type_file (V : Vol) (i : ℕ) : (V.file i).type = (V.inode i).type := by
  unfold Vol.file
  split_ifs with h
  · exact h.symm
  · rfl

variable {V : Vol}

theorem Vol.nlink_file (h : V.Alloc i) : (V.file i).nlink = (V.inode i).nlink := by
  unfold Vol.file
  rw [if_neg h]

theorem Vol.bytes_file (h : V.Alloc i) : (V.file i).bytes = V.bytes i := by
  unfold Vol.file
  rw [if_neg h]

theorem Vol.alloc_iff : V.Alloc i ↔ (V.file i).type ≠ 0 := by rw [Vol.Alloc, Vol.type_file]

@[simp] theorem Vol.length_bytes (V : Vol) (i : ℕ) : (V.bytes i).length = V.size i := by simp [Vol.bytes]

end Volume

/-! ### Code that changes the table -/

/-- What changes is the table of inodes, and the volume stays. -/
structure Loads (sb : Superblock) (s t : FsState) : Prop where
  eq : t = { s with inode := t.inode }
  vol : t.vol sb = s.vol sb

section Loads

variable {sb : Superblock} {s t u : FsState}

theorem Loads.refl (s : FsState) : Loads sb s s := ⟨rfl, rfl⟩

theorem Loads.trans (h : Loads sb s t) (h' : Loads sb t u) : Loads sb s u := by
  refine ⟨?_, h'.vol.trans h.vol⟩
  rw [h'.eq, h.eq]

theorem Loads.tree (h : Loads sb s t) : t.tree sb = s.tree sb := by rw [FsState.tree, h.vol]

theorem Loads.cache (h : Loads sb s t) : t.cache = s.cache := by rw [h.eq]

theorem Loads.logged (h : Loads sb s t) : t.logged = s.logged := by rw [h.eq]

end Loads

section Table

variable {sb : Superblock} {p : Slot} {E : Fault → Prop} {fits : List ℕ → Prop} {s : FsState} {ip : InodeNo} {i : ℕ}
  {base : InodeNo → ℤ} {l : List InodeNo} {X : ℕ → Prop}

variable (h : InOrder sb base l X s)

include h

theorem InOrder.opened (href : 0 < (s.inode ip).ref) (hv : (s.inode ip).valid = true) : Opened sb ip s where
  table := h.table
  ref := href
  valid := hv
  ok := h.ok
  alloc := by
    rw [Vol.Alloc, h.table.inode_valid href hv]
    exact h.typed ip href hv

theorem InOrder.ref_pos (hip : ip ∈ l) : 0 < (s.inode ip).ref := by
  have h1 := h.refs ip
  have h2 := h.nonneg ip
  have h3 := List.count_pos_iff.mpr hip
  omega

theorem InOrder.pos (hip : 0 < base ip ∨ ip ∈ l) : 0 < (s.inode ip).ref := by
  rcases hip with hb | hmem
  · have := h.refs ip
    omega
  · exact h.ref_pos hmem

theorem InOrder.perm {l' : List InodeNo} (hl : l.Perm l') : InOrder sb base l' X s :=
  { h with refs := fun ip => by rw [h.refs ip, hl.count_eq] }

omit h

variable {t : FsState} {x : Inode} {K : InodeNo → Prop} {Q : Unit → FsState → Prop}

include h

/-- Files, current directories and user memory do not matter, nor does the log while it has what was changed. -/
theorem InOrder.of_synced (hcache : t.cache = s.cache) (hinode : t.inode = s.inode)
    (hheld : t.held = s.held) (hsync : Synced sb t) : InOrder sb base l X t := by
  have hvol : t.vol sb = s.vol sb := vol_congr hcache hinode
  have hdisk : t.disk sb = s.disk sb := by
    funext j
    rw [FsState.disk, hcache, FsState.disk]
  constructor
  case table => exact h.table.congr hinode
  case clean =>
    rw [Clean, hinode, hdisk]
    exact h.clean
  case typed =>
    rw [hinode]
    exact h.typed
  case ok =>
    rw [hvol]
    exact h.ok
  case dirs =>
    rw [FsState.tree, hvol]
    exact h.dirs
  case synced => exact hsync
  case held => exact hheld.trans h.held
  case nonneg => exact h.nonneg
  case refs =>
    rw [hinode]
    exact h.refs
  case live =>
    rw [FsState.tree, hvol, hinode]
    exact h.live
  case linked =>
    rw [FsState.tree, hvol, hinode]
    exact h.linked

theorem InOrder.congr (hcache : t.cache = s.cache) (hinode : t.inode = s.inode)
    (hhome : t.home = s.home) (hlogged : t.logged = s.logged) (hheld : t.held = s.held) : InOrder sb base l X t := by
  refine h.of_synced hcache hinode hheld ?_
  rw [Synced, vol_congr hcache hinode, hcache, hhome, hlogged]
  exact h.synced

/-- **An entry of the table changes**. -/
theorem InOrder.setInode (l' : List InodeNo) (hdev : 0 < x.ref → x.dev = ROOTDEV)
    (hinum : 0 < x.ref → sb.IsInum x.inum)
    (huniq : 0 < x.ref → ∀ jp, jp ≠ ip → 0 < (s.inode jp).ref → (s.inode jp).inum ≠ x.inum)
    (hclean : 0 < x.ref → x.valid = true → x.d = s.disk sb x.inum ∧ x.d.type ≠ 0)
    (hself : x.ref = base ip + (l'.count ip : ℤ)) (hother : ∀ jp, jp ≠ ip → l'.count jp = l.count jp)
    (hbase : 0 < base ip → x.inum = (s.inode ip).inum) :
    InOrder sb base l' X (s.setInode ip x) ∧ Loads sb s (s.setInode ip x) := by
  have hip : (s.setInode ip x).inode ip = x := by simp [FsState.setInode]
  have hjp : ∀ jp, jp ≠ ip → (s.setInode ip x).inode jp = s.inode jp := fun jp hne => by simp [FsState.setInode, hne]
  have hdisk : ∀ j, (s.setInode ip x).disk sb j = s.disk sb j := fun _ => rfl
  have hclean' : Clean sb (s.setInode ip x) := by
    intro jp href hv
    rw [hdisk]
    by_cases hne : jp = ip
    · rw [hne, hip] at href hv ⊢
      exact (hclean href hv).1
    · rw [hjp jp hne] at href hv ⊢
      exact h.clean jp href hv
  have hvol := Clean.vol_eq h.clean hclean' rfl
  refine ⟨?_, ⟨rfl, hvol⟩⟩
  constructor
  case table =>
    constructor
    case nonneg =>
      intro jp
      by_cases hne : jp = ip
      · rw [hne, hip, hself]
        have := h.nonneg ip
        omega
      · rw [hjp jp hne]
        exact h.table.nonneg jp
    case dev =>
      intro jp href
      by_cases hne : jp = ip
      · rw [hne, hip] at href ⊢
        exact hdev href
      · rw [hjp jp hne] at href ⊢
        exact h.table.dev jp href
    case inum =>
      intro jp href
      by_cases hne : jp = ip
      · rw [hne, hip] at href ⊢
        exact hinum href
      · rw [hjp jp hne] at href ⊢
        exact h.table.inum jp href
    case uniq =>
      intro jp kp hj hk he
      by_cases hjn : jp = ip <;> by_cases hkn : kp = ip
      · rw [hjn, hkn]
      · rw [hjn, hip] at hj he
        rw [hjp kp hkn] at hk he
        exact absurd he.symm (huniq hj kp hkn hk)
      · rw [hkn, hip] at hk he
        rw [hjp jp hjn] at hj he
        exact absurd he (huniq hk jp hjn hj)
      · rw [hjp jp hjn] at hj he
        rw [hjp kp hkn] at hk he
        exact h.table.uniq jp kp hj hk he
  case clean => exact hclean'
  case typed =>
    intro jp href hv
    by_cases hne : jp = ip
    · rw [hne, hip] at href hv ⊢
      exact (hclean href hv).2
    · rw [hjp jp hne] at href hv ⊢
      exact h.typed jp href hv
  case ok =>
    rw [hvol]
    exact h.ok
  case dirs =>
    rw [FsState.tree, hvol]
    exact h.dirs
  case synced =>
    intro b hb
    rw [hvol]
    exact h.synced b hb
  case held => exact h.held
  case nonneg => exact h.nonneg
  case refs =>
    intro jp
    by_cases hne : jp = ip
    · rw [hne, hip, hself]
    · rw [hjp jp hne, hother jp hne]
      exact h.refs jp
  case live =>
    rw [FsState.tree, hvol]
    intro jp hb
    by_cases hne : jp = ip
    · rw [hne, hip, hbase (hne ▸ hb)]
      exact h.live ip (hne ▸ hb)
    · rw [hjp jp hne]
      exact h.live jp hb
  case linked =>
    rw [FsState.tree, hvol]
    intro j hX hname htype hlink
    obtain ⟨jp, hb, hj⟩ := h.linked j hX hname htype hlink
    refine ⟨jp, hb, ?_⟩
    by_cases hne : jp = ip
    · rw [hne, hip, hbase (hne ▸ hb), ← hne, hj]
    · rw [hjp jp hne, hj]

theorem InOrder.setEntry (href : 0 < (s.inode ip).ref) (r : ℤ) (lk : Option Slot) (l' : List InodeNo)
    (hself : r = base ip + (l'.count ip : ℤ)) (hother : ∀ jp, jp ≠ ip → l'.count jp = l.count jp) :
    InOrder sb base l' X (s.setInode ip { s.inode ip with ref := r, lock := lk }) ∧
      Loads sb s (s.setInode ip { s.inode ip with ref := r, lock := lk }) := by
  apply h.setInode
  case hdev => exact fun _ => h.table.dev ip href
  case hinum => exact fun _ => h.table.inum ip href
  case huniq => exact fun _ jp hne hjp he => hne (h.table.uniq jp ip hjp href he)
  case hclean => exact fun _ hv => ⟨h.clean ip href hv, h.typed ip href hv⟩
  case hself => exact hself
  case hother => exact hother
  case hbase => exact fun _ => rfl

omit h

/-- The inodes in `K` stay in their places, and those that have been read stay so. -/
def Stays (K : InodeNo → Prop) (s t : FsState) : Prop :=
  ∀ jp, K jp → (t.inode jp).inum = (s.inode jp).inum ∧ ((s.inode jp).valid = true → (t.inode jp).valid = true)

theorem Stays.refl (s : FsState) : Stays K s s := fun _ _ => ⟨rfl, id⟩

theorem Stays.trans {u : FsState} (h : Stays K s t) (h' : Stays K t u) : Stays K s u := fun jp hjp =>
  ⟨(h' jp hjp).1.trans (h jp hjp).1, fun hv => (h' jp hjp).2 ((h jp hjp).2 hv)⟩

theorem Stays.mono {K' : InodeNo → Prop} (h : Stays K s t) (hK : ∀ jp, K' jp → K jp) : Stays K' s t := fun jp hjp =>
  h jp (hK jp hjp)

theorem stays_setInode (h : K ip → x.inum = (s.inode ip).inum ∧ ((s.inode ip).valid = true → x.valid = true)) :
    Stays K s (s.setInode ip x) := by
  intro jp hjp
  by_cases hne : jp = ip
  · subst hne
    simpa [FsState.setInode] using h hjp
  · simp [FsState.setInode, hne]

theorem lock_setInode (h : x.lock = (s.inode ip).lock) (jp : InodeNo) :
    ((s.setInode ip x).inode jp).lock = (s.inode jp).lock := by
  by_cases hne : jp = ip
  · subst hne
    simpa [FsState.setInode] using h
  · simp [FsState.setInode, hne]

/-- **`iget`** gets a reference to an inode. -/
theorem iget_spec {Q : InodeNo → FsState → Prop} (h : InOrder sb base l X s) (hi : sb.IsInum i)
    (hE : (∀ jp, 0 < base jp ∨ jp ∈ l) → E .igetNoInodes)
    (hQ : ∀ ip t, InOrder sb base (ip :: l) X t → Loads sb s t → (t.inode ip).inum = i →
      Stays (fun jp => 0 < (s.inode jp).ref) s t → (∀ jp, (t.inode jp).lock = (s.inode jp).lock) → Q ip t) :
    (iget ROOTDEV i).wp (fsRules sb p E fits) Q s := by
  refine wp_command nofun ?_
  simp only [execCmd]
  have hcount : ∀ ip : InodeNo, (∀ jp, jp ≠ ip → (ip :: l).count jp = l.count jp) ∧ (ip :: l).count ip = l.count ip + 1 := by
    intro ip
    exact ⟨fun jp hne => List.count_cons_of_ne (Ne.symm hne), List.count_cons_self⟩
  cases hf : s.findInode ROOTDEV i with
  | some ip =>
    obtain ⟨href, -, rfl⟩ := findInode_some hf
    obtain ⟨hin, hl⟩ := h.setEntry href ((s.inode ip).ref + 1) (s.inode ip).lock (ip :: l)
      (by rw [h.refs ip, (hcount ip).2]; push_cast; ring) (hcount ip).1
    exact hQ ip _ hin hl (by simp [FsState.setInode]) (stays_setInode fun _ => ⟨rfl, id⟩) (lock_setInode rfl)
  | none =>
    cases he : s.findEmpty with
    | none =>
      refine hE fun jp => ?_
      have hne := List.find?_eq_none.mp he jp (List.mem_finRange jp)
      simp only [decide_eq_true_eq] at hne
      have h1 := h.refs jp
      have h2 := h.nonneg jp
      by_cases hjp : jp ∈ l
      · exact .inr hjp
      · rw [List.count_eq_zero_of_not_mem hjp] at h1
        left
        omega
    | some ip =>
      have hz : (s.inode ip).ref = 0 := by
        have := List.find?_some he
        simpa using this
      have hb : base ip = 0 ∧ l.count ip = 0 := by
        have h1 := h.refs ip
        have h2 := h.nonneg ip
        omega
      obtain ⟨hin, hl⟩ := h.setInode (ip :: l)
        (x := { s.inode ip with dev := ROOTDEV, inum := i, ref := 1, valid := false }) (fun _ => rfl) (fun _ => hi)
        (fun _ jp _ hjp => findInode_none hf jp hjp (h.table.dev jp hjp)) (fun _ hv => by cases hv)
        (by rw [(hcount ip).2, hb.1, hb.2]; rfl) (hcount ip).1 (fun hpos => by omega)
      refine hQ ip _ hin hl (by simp [FsState.setInode]) (stays_setInode fun hpos => ?_) (lock_setInode rfl)
      rw [hz] at hpos
      exact absurd hpos (lt_irrefl 0)

/-- **`idup`**. -/
theorem idup_inOrder (h : InOrder sb base l X s) (href : 0 < (s.inode ip).ref)
    (hQ : ∀ t, InOrder sb base (ip :: l) X t → Loads sb s t → Stays (fun jp => 0 < (s.inode jp).ref) s t →
      (∀ jp, (t.inode jp).lock = (s.inode jp).lock) → Q () t) : (idup ip).wp (fsRules sb p E fits) Q s := by
  obtain ⟨hin, hl⟩ := h.setEntry href ((s.inode ip).ref + 1) (s.inode ip).lock (ip :: l)
    (by rw [h.refs ip, List.count_cons_self]; push_cast; ring) fun jp hne => List.count_cons_of_ne (Ne.symm hne)
  exact idup_spec (hQ _ hin hl (stays_setInode fun _ => ⟨rfl, id⟩) (lock_setInode rfl))

/-- The state after `ilock`. -/
def FsState.locked (sb : Superblock) (p : Slot) (s : FsState) (ip : InodeNo) : FsState :=
  s.setInode ip { s.inode ip with lock := some p, valid := true, d := s.disk sb (s.inode ip).inum }

include h

theorem InOrder.locked (href : 0 < (s.inode ip).ref)
    (htype : (s.tree sb (s.inode ip).inum).type ≠ 0) :
    InOrder sb base l X (s.locked sb p ip) ∧ Loads sb s (s.locked sb p ip) := by
  have hdisk : (s.vol sb).inode (s.inode ip).inum = s.disk sb (s.inode ip).inum := h.clean.inode_vol (h.table.inum ip href)
  rw [Vol.type_file, hdisk] at htype
  apply h.setInode
  case hdev => exact fun _ => h.table.dev ip href
  case hinum => exact fun _ => h.table.inum ip href
  case huniq => exact fun _ jp hne hjp he => hne (h.table.uniq jp ip hjp href he)
  case hclean => exact fun _ _ => ⟨rfl, htype⟩
  case hself => exact h.refs ip
  case hother => exact fun _ _ => rfl
  case hbase => exact fun _ => rfl

/-- **`ilock`** locks an inode and reads it. -/
theorem ilock_spec (href : 0 < (s.inode ip).ref)
    (hlk : (s.inode ip).lock ≠ none → E .blocked) (htype : (s.tree sb (s.inode ip).inum).type = 0 → E .ilockNoType)
    (hQ : (s.inode ip).lock = none → InOrder sb base l X (s.locked sb p ip) → Loads sb s (s.locked sb p ip) →
      Stays (fun jp => 0 < (s.inode jp).ref) s (s.locked sb p ip) → Q () (s.locked sb p ip)) :
    (ilock sb ip).wp (fsRules sb p E fits) Q s := by
  have hdisk : (s.vol sb).inode (s.inode ip).inum = s.disk sb (s.inode ip).inum := h.clean.inode_vol (h.table.inum ip href)
  have hgo : (s.inode ip).lock = none → (s.disk sb (s.inode ip).inum).type ≠ 0 → Q () (s.locked sb p ip) := by
    intro h0 hne
    rw [← hdisk, ← Vol.type_file] at hne
    obtain ⟨hin, hl⟩ := h.locked href hne
    exact hQ h0 hin hl (stays_setInode fun _ => ⟨rfl, fun _ => rfl⟩)
  rw [ilock, wp_bind]
  refine ref_spec ?_
  rw [if_neg (by omega), wp_bind]
  refine acquiresleep_spec hlk fun hfree => ?_
  rw [wp_bind]
  refine valid_spec ?_
  have hvalid : ((s.setInode ip { s.inode ip with lock := some p }).inode ip).valid = (s.inode ip).valid := by
    simp [FsState.setInode]
  rw [hvalid]
  split_ifs with hv
  · rw [iread, wp_bind]
    refine ident_spec ?_
    rw [wp_bind]
    refine bread_spec (fun hmem => ?_) fun _ => ?_
    · change _ ∈ s.held at hmem
      rw [h.held] at hmem
      cases hmem
    rw [wp_bind]
    refine data_spec ?_
    rw [wp_bind]
    refine setFields_spec ?_
    rw [wp_bind]
    refine brelse_spec rfl ?_
    rw [wp_bind]
    refine setValid_spec ?_
    have hinum : ((s.setInode ip { s.inode ip with lock := some p }).inode ip).inum = (s.inode ip).inum := by simp [FsState.setInode]
    dsimp only
    rw [hinum]
    split_ifs with h0
    · refine panic_spec (htype ?_)
      rw [Vol.type_file, hdisk]
      exact h0
    · have := hgo hfree h0
      simp only [FsState.locked, FsState.setInode] at this ⊢
      simp only [update_self, update_idem]
      exact this
  · have hv' := Bool.eq_true_of_not_eq_false hv
    have hd := h.clean ip href hv'
    have := hgo hfree (hd ▸ h.typed ip href hv')
    rw [FsState.locked, ← hd] at this
    have he : { s.inode ip with lock := some p, valid := true, d := (s.inode ip).d } = { s.inode ip with lock := some p } := by
      rw [← hv']
    rw [he] at this
    exact this

/-- **`iunlock`**. -/
theorem iunlock_spec (href : 0 < (s.inode ip).ref)
    (hlk : (s.inode ip).lock ≠ some p → E .iunlock)
    (hQ : InOrder sb base l X (s.setInode ip { s.inode ip with lock := none }) →
      Loads sb s (s.setInode ip { s.inode ip with lock := none }) →
      Stays (fun jp => 0 < (s.inode jp).ref) s (s.setInode ip { s.inode ip with lock := none }) →
      Q () (s.setInode ip { s.inode ip with lock := none })) : (iunlock ip).wp (fsRules sb p E fits) Q s := by
  obtain ⟨hin, hl⟩ := h.setEntry href (s.inode ip).ref none l (h.refs ip) fun _ _ => rfl
  rw [iunlock, wp_bind]
  refine holdingsleep_spec ?_
  rw [wp_bind]
  refine ref_spec ?_
  split_ifs with hbad
  · rcases hbad with hbad | hbad
    · exact panic_spec (hlk (of_decide_eq_false hbad))
    · omega
  · exact releasesleep_spec (hQ hin hl (stays_setInode fun _ => ⟨rfl, id⟩))

omit h

/-- The inode stays when a reference to it is dropped: it has links, has not been read, or there are other references. -/
def Firm (sb : Superblock) (base : InodeNo → ℤ) (l : List InodeNo) (s : FsState) (ip : InodeNo) : Prop :=
  (s.tree sb (s.inode ip).inum).nlink ≠ 0 ∨ (s.inode ip).valid = false ∨ 0 < base ip ∨ ip ∈ l

/-- **`iput`** of an inode that stays. -/
theorem iput_keep_spec (h : InOrder sb base (ip :: l) X s) (hstay : Firm sb base l s ip)
    (hQ : ∀ t, InOrder sb base l X t → Loads sb s t → Stays (fun jp => 0 < (s.inode jp).ref) s t →
      (∀ jp, (t.inode jp).lock = (s.inode jp).lock) → Q () t) : (iput sb ip).wp (fsRules sb p E fits) Q s := by
  have href := h.ref_pos List.mem_cons_self
  have hrefs := h.refs ip
  rw [List.count_cons_self] at hrefs
  have hno : ¬((s.inode ip).ref = 1 ∧ (s.inode ip).valid = true ∧ (s.inode ip).d.nlink = 0) := by
    rintro ⟨h1, hv, hlink⟩
    rcases hstay with hne | hno | hpos | hmem
    · have ho := h.opened href hv
      rw [Vol.nlink_file ho.alloc, ho.inode] at hne
      exact hne hlink
    · rw [hv] at hno
      cases hno
    · push_cast at hrefs
      omega
    · have := List.count_pos_iff.mpr hmem
      have := h.nonneg ip
      push_cast at hrefs
      omega
  obtain ⟨hin, hl⟩ := h.setEntry href ((s.inode ip).ref - 1) (s.inode ip).lock l
    (by rw [hrefs]; push_cast; ring) fun jp hne => (List.count_cons_of_ne (Ne.symm hne)).symm
  rw [iput, wp_bind]
  refine wp_command nofun ?_
  simp only [execCmd]
  rw [if_neg hno]
  exact unref_spec (hQ _ hin hl (stays_setInode fun _ => ⟨rfl, id⟩) (lock_setInode rfl))

end Table

/-! ### Disks -/

/-- A disk in order: its files have no holes and no block belongs to two, and the entries of directories are inode
numbers. -/
structure DiskOk (sb : Superblock) (disk : ℕ → Block) : Prop where
  ok : ((FsState.boot disk).vol sb).Ok sb
  dirs : ∀ i, ((FsState.boot disk).tree sb i).type = T_DIR → ∀ e ∈ ((FsState.boot disk).tree sb i).entries, e.inum ≠ 0 → sb.IsInum e.inum
  root : ((FsState.boot disk).tree sb ROOTINO).type = T_DIR

/-- **The start** is in order, with the reference that the first process has to the root. -/
theorem DiskOk.inOrder {sb : Superblock} {disk : ℕ → Block} {X : ℕ → Prop} (hsb : sb.Ok) (h : DiskOk sb disk)
    (hX : ∀ i, ¬X i → Named ((FsState.boot disk).tree sb) i → ((FsState.boot disk).tree sb i).type ≠ 0 →
      ((FsState.boot disk).tree sb i).nlink ≠ 0) :
    InOrder sb (fun ip => if ip = 0 then 1 else 0) [] X (.boot disk) := by
  have href : ∀ ip, 0 < ((FsState.boot disk).inode ip).ref → ip = 0 := by
    intro ip hip
    by_contra hne
    simp [FsState.boot, hne] at hip
  constructor
  case table =>
    constructor
    case nonneg =>
      intro ip
      simp only [FsState.boot]
      split_ifs <;> decide
    case dev => exact fun _ _ => rfl
    case inum => exact fun _ _ => ⟨Nat.zero_lt_one, hsb.root⟩
    case uniq => exact fun ip jp hip hjp _ => by rw [href ip hip, href jp hjp]
  case clean => exact fun _ _ hv => by cases hv
  case typed => exact fun _ _ hv => by cases hv
  case ok => exact h.ok
  case dirs => exact h.dirs
  case synced => exact fun _ _ => .inl rfl
  case held => rfl
  case nonneg =>
    intro ip
    split_ifs <;> decide
  case refs =>
    intro ip
    simp [FsState.boot]
  case live =>
    intro ip _
    change ((FsState.boot disk).tree sb ROOTINO).type ≠ 0
    rw [h.root]
    decide
  case linked => exact fun i hi hname htype hz => absurd hz (hX i hi hname htype)

theorem diskOk_tinyDisk : DiskOk tinySuper tinyDisk where
  ok := by
    apply Vol.ok_of_direct (N := 16) fun b => if b = 37 then (1, 0) else (2, 0)
    · intro i hi
      have hno : ¬tinySuper.IsInum i := fun h => absurd h.2 (not_lt.mpr hi)
      simp only [FsState.vol, if_neg hno]
      rfl
    · decide +kernel
    · decide +kernel
    · decide +kernel
    · decide +kernel
    · decide +kernel
  dirs := by
    have hsmall : ∀ i < 16, ((FsState.boot tinyDisk).tree tinySuper i).type = T_DIR →
        ∀ e ∈ ((FsState.boot tinyDisk).tree tinySuper i).entries, e.inum ≠ 0 → tinySuper.IsInum e.inum := by decide +kernel
    intro i hi
    by_cases hlt : i < 16
    · exact hsmall i hlt hi
    · have hno : ¬tinySuper.IsInum i := fun h => hlt h.2
      rw [Vol.type_file] at hi
      simp only [FsState.vol, if_neg hno] at hi
      cases hi
  root := by decide +kernel

theorem linked_tinyDisk (i : ℕ) (hi : ((FsState.boot tinyDisk).tree tinySuper i).type ≠ 0) :
    ((FsState.boot tinyDisk).tree tinySuper i).nlink ≠ 0 := by
  have hsmall : ∀ i < 16, ((FsState.boot tinyDisk).tree tinySuper i).type ≠ 0 →
      ((FsState.boot tinyDisk).tree tinySuper i).nlink ≠ 0 := by decide +kernel
  by_cases hlt : i < 16
  · exact hsmall i hlt hi
  · have hno : ¬tinySuper.IsInum i := fun h => hlt h.2
    rw [Vol.type_file] at hi
    simp only [FsState.vol, if_neg hno] at hi
    exact absurd rfl hi

end Xv6Shmem.Fs
