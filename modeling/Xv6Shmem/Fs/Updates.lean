import Xv6Shmem.Fs.Inodes

/-!
# Inodes that change

What the functions of `kernel/fs.c` that write inodes do to the files, and which blocks they log. A file changes
as a whole: code that has changed one leaves all others as they were.

The blocks that code logs are counted on a disk with one bitmap block: blocks that are known before, `G`, and a
number of others.

## What is proved

* `itrunc_spec`, `iput_spec` — a file loses its contents, and an inode without links and references is freed.
* `InOrder.written` — a file is written.
* `iput_firm_spec`, `iunlockput_firm_spec` — a reference that code has got on its way through a path is dropped.
-/

namespace Xv6Shmem.Fs

open Function ByteArea Kernel Disk Files Prog

/-! ### Code that changes an inode -/

/-- What is structural stays so, if the places of the allocated inodes stay, or their blocks are logged. -/
theorem Synced.step {sb : Superblock} {s t : FsState} (h : Synced sb s) (hhome : t.home = s.home) (hlog : s.logged ⊆ t.logged)
    (hcache : ∀ b, b ∉ t.logged → t.cache b = s.cache b ∨ Loose sb (t.vol sb) b)
    (hloc : ∀ i pl, (t.vol sb).Alloc i → (t.vol sb).loc i pl ∈ t.logged ∨ (t.vol sb).loc i pl = 0 ∨
      (s.vol sb).Alloc i ∧ (t.vol sb).loc i pl = (s.vol sb).loc i pl ∧ ((t.vol sb).inode i).type = ((s.vol sb).inode i).type)
    (hpos : 0 < sb.nmeta) : Synced sb t := by
  intro b hb
  rcases hcache b hb with he | hloose
  · rw [he, hhome]
    refine (h b fun hmem => hb (hlog hmem)).imp id fun ⟨hge, hs⟩ => ⟨hge, fun i pl hi hl => ?_⟩
    rcases hloc i pl hi with hmem | h0 | ⟨hi', hl', ht⟩
    · exact absurd (hl ▸ hmem) hb
    · omega
    · rw [ht]
      exact hs i pl hi' (hl' ▸ hl)
  · exact .inr hloose

section Change

variable {sb : Superblock} {p : Slot} {E : Fault → Prop} {fits : List ℕ → Prop} {s t : FsState} {ip : InodeNo} {i b : ℕ}
  {base : InodeNo → ℤ} {l : List InodeNo} {X X' : ℕ → Prop}

/-- **An inode and the disk change**, and the copy of the inode is written to the disk. -/
theorem InOrder.change (h : InOrder sb base l X s) (hip : 0 < (s.inode ip).ref) (hch : Changes ip s t) (hok : (t.vol sb).Ok sb)
    (htype : (t.inode ip).d.type ≠ 0)
    (hdisk : ∀ j, sb.IsInum j → t.disk sb j = if j = (s.inode ip).inum then (t.inode ip).d else s.disk sb j)
    (hdirs : ∀ i, (t.tree sb i).type = T_DIR → ∀ e ∈ (t.tree sb i).entries, e.inum ≠ 0 → sb.IsInum e.inum)
    (hsync : Synced sb t) (hlive : ∀ i, (s.tree sb i).type ≠ 0 → (t.tree sb i).type ≠ 0)
    (hlinked : ∀ i, ¬X' i → Named (t.tree sb) i → (t.tree sb i).type ≠ 0 → (t.tree sb i).nlink = 0 →
      ∃ ip, 0 < base ip ∧ (s.inode ip).inum = i) :
    InOrder sb base l X' t where
  table := hch.table h.table
  clean jp href hv := by
    rw [hch.ref] at href
    rw [hch.inum, hdisk _ (h.table.inum jp href)]
    by_cases hne : jp = ip
    · rw [hne, if_pos rfl]
    · rw [hch.valid] at hv
      rw [if_neg fun he => hne (h.table.uniq jp ip href hip he), hch.inode_of_ne hne]
      exact h.clean jp href hv
  typed jp href hv := by
    rw [hch.ref] at href
    by_cases hne : jp = ip
    · rw [hne]
      exact htype
    · rw [hch.valid] at hv
      rw [hch.inode_of_ne hne]
      exact h.typed jp href hv
  ok := hok
  dirs := hdirs
  synced := hsync
  held := hch.held.trans h.held
  nonneg := h.nonneg
  refs jp := by
    rw [hch.ref]
    exact h.refs jp
  live jp hb := by
    rw [hch.inum]
    exact hlive _ (h.live jp hb)
  linked i hX hname htype hlink := by
    obtain ⟨jp, hb, hj⟩ := hlinked i hX hname htype hlink
    exact ⟨jp, hb, by rw [hch.inum, hj]⟩

/-- The copy of an inode is changed and written to the disk. -/
def FsState.updated (sb : Superblock) (s : FsState) (ip : InodeNo) (x : Dinode) : FsState :=
  (s.setInode ip { s.inode ip with d := x }).write (sb.iblock (s.inode ip).inum)
    (setDinode x ((s.inode ip).inum % IPB) (s.cache (sb.iblock (s.inode ip).inum)))

theorem changes_updated (x : Dinode) : Changes ip s (s.updated sb ip x) := ((Touches.refl ip s).setFields x).toChanges.write _ _

theorem inode_updated (x : Dinode) : (s.updated sb ip x).inode ip = { s.inode ip with d := x } := by
  simp [FsState.updated, FsState.setInode]

theorem disk_updated (x : Dinode) (j : ℕ) :
    (s.updated sb ip x).disk sb j = if j = (s.inode ip).inum then ((s.updated sb ip x).inode ip).d else s.disk sb j := by
  rw [inode_updated]
  exact disk_write_iblock (s := s.setInode ip { s.inode ip with d := x })

theorem vol_updated (hsb : sb.Ok) (hT : Table sb s) (href : 0 < (s.inode ip).ref) (hv : (s.inode ip).valid = true) (x : Dinode) :
    (s.updated sb ip x).vol sb = (s.vol sb).setInode (s.inode ip).inum x := by
  have ht := ((Touches.refl ip s).setFields x).toChanges
  have hself : (s.setInode ip { s.inode ip with d := x }).inode ip = { s.inode ip with d := x } := by simp [FsState.setInode]
  have h1 := vol_write_inode hsb (ht.table hT) (hself.symm ▸ href : 0 < ((s.setInode ip { s.inode ip with d := x }).inode ip).ref)
    (by rw [hself]; exact hv)
  rw [hself] at h1
  rw [← vol_setFields hT href hv]
  exact h1

theorem iupdate_fields {x : Dinode} {Q : Unit → FsState → Prop} (hE : ∀ e, E e)
    (hfit : fits (s.logged.insert (sb.iblock (s.inode ip).inum))) (h : Q () (s.updated sb ip x)) :
    (iupdate sb ip).wp (fsRules sb p E fits) Q (s.setInode ip { s.inode ip with d := x }) := by
  have hself : (s.setInode ip { s.inode ip with d := x }).inode ip = { s.inode ip with d := x } := by simp [FsState.setInode]
  refine iupdate_spec hE ?_ ?_
  · rw [hself]
    exact hfit
  · rw [hself]
    exact h

end Change

/-! ### `itrunc` -/

/-- The blocks of the inode `ip` are being freed, and the rest of the volume is as it was. -/
structure Cut (sb : Superblock) (ip : InodeNo) (s t : FsState) : Prop where
  touches : Touches ip s t
  ok : (t.vol sb).OkOn sb fun j => (s.vol sb).Alloc j ∧ j ≠ (s.inode ip).inum
  blk : (t.vol sb).blk = (s.vol sb).blk
  other : ∀ j, j ≠ (s.inode ip).inum → (t.vol sb).inode j = (s.vol sb).inode j
  self : (t.inode ip).d = { (s.inode ip).d with addrs := (t.inode ip).d.addrs }
  disk : ∀ j, sb.IsInum j → t.disk sb j = s.disk sb j

section Trunc

variable {sb : Superblock} {p : Slot} {E : Fault → Prop} {fits : List ℕ → Prop} {s t : FsState} {ip : InodeNo} {b : ℕ}
  {pl : Place} (hsb : sb.Ok) (ho : Opened sb ip s)

include hsb ho

omit hsb in
theorem Cut.refl : Cut sb ip s s where
  touches := .refl ip s
  ok := ho.ok.mono fun _ h => h.1
  blk := rfl
  other _ _ := rfl
  self := rfl
  disk _ _ := rfl

omit hsb ho in
theorem Cut.withHeld (h : Cut sb ip s t) (H : List ℕ) : Cut sb ip { s with held := H } { t with held := H } where
  touches :=
    { eq := by
        conv_lhs => rw [h.touches.eq]
      logged := h.touches.logged
      cache := h.touches.cache }
  ok := h.ok
  blk := h.blk
  other := h.other
  self := h.self
  disk := h.disk

omit hsb ho in
theorem Cut.loc (h : Cut sb ip s t) {j : ℕ} (hj : j ≠ (s.inode ip).inum) : (t.vol sb).loc j pl = (s.vol sb).loc j pl :=
  Vol.loc_congr (by rw [h.other j hj]) (fun _ => by rw [h.blk]) pl

theorem Cut.free (h : Cut sb ip s t) (hb : (s.vol sb).loc (s.inode ip).inum pl = b) (h0 : b ≠ 0) :
    Cut sb ip s (t.write (sb.bblock b) (setBit (b % BPB) false (t.cache (sb.bblock b)))) := by
  have hown := ho.ok.own _ pl ho.alloc (by rw [hb]; exact h0)
  rw [hb] at hown
  have hlt : b < sb.size := lt_of_used hown.2
  have hvol : (t.write (sb.bblock b) (setBit (b % BPB) false (t.cache (sb.bblock b)))).vol sb = (t.vol sb).freeBlk b :=
    vol_write_bit hsb hlt
  constructor
  case touches => exact h.touches.write _ _
  case ok =>
    rw [hvol]
    refine h.ok.free hown.1 fun j pl' hj he => hj.2 ?_
    rw [h.loc hj.2] at he
    exact (ho.ok.inj j _ pl' pl hj.1 ho.alloc (by rw [he]; exact h0) (he.trans hb.symm)).1
  case blk => rw [hvol, Vol.blk_freeBlk, h.blk]
  case other =>
    intro j hj
    rw [hvol, Vol.inode_freeBlk, h.other j hj]
  case self => exact h.self
  case disk =>
    intro j hj
    rw [disk_write_bblock hsb hj, h.disk j hj]

omit hsb in
theorem Cut.setAddr (h : Cut sb ip s t) (n : ℕ) :
    Cut sb ip s (t.setInode ip { t.inode ip with d := (t.inode ip).d.setAddr n 0 }) := by
  have hT := h.touches.table ho.table
  have href : 0 < (t.inode ip).ref := by
    rw [h.touches.ref]
    exact ho.ref
  have hv : (t.inode ip).valid = true := by
    rw [h.touches.valid]
    exact ho.valid
  have hvol := vol_setFields (x := (t.inode ip).d.setAddr n 0) hT href hv
  rw [h.touches.inum] at hvol
  constructor
  case touches => exact h.touches.setFields _
  case ok =>
    rw [hvol]
    refine h.ok.of_loc (fun _ hu _ => hu) (fun j pl hj => Vol.loc_setInode_of_ne hj.2) (fun j hj => ?_) fun j n hj hn => ?_
    · rw [Vol.size_setInode, if_neg hj.2]
      exact h.ok.size_le j hj
    · rw [Vol.size_setInode, if_neg hj.2] at hn
      exact h.ok.full j n hj hn
  case blk => rw [hvol, Vol.blk_setInode, h.blk]
  case other =>
    intro j hj
    rw [hvol, Vol.inode_setInode_of_ne hj, h.other j hj]
  case self =>
    have hself := h.self
    simp only [FsState.setInode, update_self, Dinode.setAddr]
    rw [hself]
  case disk => exact h.disk

variable (hE : ∀ e, E e) (hfit : ∀ L, fits L)

include hE hfit

variable {Q : Unit → FsState → Prop}

theorem bfree_cut (h : Cut sb ip s t) (hb : (s.vol sb).loc (s.inode ip).inum pl = b) (h0 : b ≠ 0)
    (hQ : ∀ u, Cut sb ip s u → u.inode = t.inode → u.held = t.held → Q () u) : (bfree sb b).wp (fsRules sb p E fits) Q t := by
  exact bfree_spec hE (hfit _) (hQ _ (h.free hsb ho hb h0) rfl rfl)

theorem itruncDirect_spec {ns : List ℕ} (hns : ∀ n ∈ ns, n < NDIRECT + 1) (h : Cut sb ip s t)
    (haddr : ∀ n, (t.inode ip).d.addr n = 0 ∨ (t.inode ip).d.addr n = (s.inode ip).d.addr n)
    (hQ : ∀ u, Cut sb ip s u → (∀ n, (u.inode ip).d.addr n = if n ∈ ns then 0 else (t.inode ip).d.addr n) → Q () u) :
    (itruncDirect sb ip ns).wp (fsRules sb p E fits) Q t := by
  induction ns generalizing t with
  | nil => exact hQ t h fun n => by simp
  | cons n ns ih =>
    have hns' : ∀ m ∈ ns, m < NDIRECT + 1 := fun m hm => hns m (List.mem_cons_of_mem _ hm)
    rw [itruncDirect, wp_bind]
    refine fields_spec ?_
    split_ifs with hn
    · rw [wp_bind]
      have hloc : (s.vol sb).loc (s.inode ip).inum (.addr n) = (t.inode ip).d.addr n := by
        rw [ho.loc_addr, (haddr n).resolve_left hn]
      refine bfree_cut hsb ho hE hfit h hloc hn fun u hu hinode _ => ?_
      rw [wp_bind]
      refine fields_spec ?_
      rw [wp_bind]
      refine setFields_spec ?_
      have hset : ∀ m, ((u.setInode ip { u.inode ip with d := (u.inode ip).d.setAddr n 0 }).inode ip).d.addr m =
          if m = n then 0 else (t.inode ip).d.addr m := by
        intro m
        simp only [FsState.setInode, update_self]
        rw [Dinode.addr_setAddr (hns n List.mem_cons_self) (by decide), hinode]
      refine ih hns' (hu.setAddr ho n) (fun m => ?_) fun v hv hm => hQ v hv fun m => ?_
      · rw [hset]
        split_ifs
        · exact .inl rfl
        · exact haddr m
      · rw [hm, hset]
        by_cases h1 : m = n <;> by_cases h2 : m ∈ ns <;> simp [h1, h2]
    · rw [not_not] at hn
      refine ih hns' h haddr fun u hu hm => hQ u hu fun m => ?_
      rw [hm]
      by_cases h1 : m = n <;> by_cases h2 : m ∈ ns <;> simp [h1, h2, hn]

theorem itruncEntries_spec {a : Block} {js : List ℕ} (h : Cut sb ip s t)
    (ha : ∀ j, (s.vol sb).loc (s.inode ip).inum (.entry j) = getEntry a j)
    (hQ : ∀ u, Cut sb ip s u → u.inode = t.inode → u.held = t.held → Q () u) :
    (itruncEntries sb a js).wp (fsRules sb p E fits) Q t := by
  induction js generalizing t with
  | nil => exact hQ t h rfl rfl
  | cons j js ih =>
    rw [itruncEntries]
    split_ifs with hj
    · rw [wp_bind]
      refine bfree_cut hsb ho hE hfit h (ha j) hj fun u hu hinode hheld => ?_
      exact ih hu fun v hv hi hh => hQ v hv (hi.trans hinode) (hh.trans hheld)
    · exact ih h hQ

theorem itruncIndirect_spec (h : Cut sb ip s t) (haddr : (t.inode ip).d.addr NDIRECT = (s.inode ip).d.addr NDIRECT)
    (hQ : ∀ u, Cut sb ip s u → (∀ n, (u.inode ip).d.addr n = if n = NDIRECT then 0 else (t.inode ip).d.addr n) → Q () u) :
    (itruncIndirect sb ip).wp (fsRules sb p E fits) Q t := by
  rw [itruncIndirect, wp_bind]
  refine fields_spec ?_
  split_ifs with hind
  · rw [wp_bind]
    refine bread_spec (fun _ => hE _) fun _ => ?_
    rw [wp_bind]
    refine data_spec ?_
    rw [wp_bind]
    -- the indirect block has what it had
    have hge : sb.nmeta ≤ (s.inode ip).d.addr NDIRECT := by
      have := (ho.ok.own _ (.addr NDIRECT) ho.alloc (by rw [ho.loc_addr, ← haddr]; exact hind)).1
      rwa [ho.loc_addr] at this
    have hblk : t.cache ((t.inode ip).d.addr NDIRECT) = s.cache ((t.inode ip).d.addr NDIRECT) := by
      have := congrFun h.blk ((t.inode ip).d.addr NDIRECT)
      rw [haddr] at this ⊢
      simpa only [FsState.vol, if_pos hge] using this
    have ho' : Opened sb ip { s with held := (t.inode ip).d.addr NDIRECT :: t.held } := ho.congr rfl rfl
    refine itruncEntries_spec hsb ho' hE hfit (h.withHeld ((t.inode ip).d.addr NDIRECT :: t.held)) (fun j => ?_)
      fun u hu hinode hheld => ?_
    · change _ = getEntry (t.cache ((t.inode ip).d.addr NDIRECT)) j
      rw [hblk]
      exact ho.loc_entry haddr.symm hind j
    · rw [wp_bind]
      refine brelse_spec hheld ?_
      have hu' := hu.withHeld s.held
      have hheld' : t.held = s.held := h.touches.held
      rw [wp_bind, hheld']
      have hloc : (s.vol sb).loc (s.inode ip).inum (.addr NDIRECT) = (t.inode ip).d.addr NDIRECT := by rw [ho.loc_addr, haddr]
      refine bfree_cut hsb ho hE hfit hu' hloc hind fun v hv hvin _ => ?_
      rw [wp_bind]
      refine fields_spec ?_
      refine setFields_spec (hQ _ (hv.setAddr ho NDIRECT) fun n => ?_)
      simp only [FsState.setInode, update_self]
      rw [Dinode.addr_setAddr (by decide) (by decide), hvin]
      change (if n = NDIRECT then 0 else (u.inode ip).d.addr n) = _
      rw [hinode]
  · rw [not_not] at hind
    refine hQ t h fun n => ?_
    split_ifs with hn
    · rw [hn, hind]
    · rfl

end Trunc

/-! ### Inodes that lose their contents, and inodes that are freed -/

/-- The inodes in `K` keep their places and their contents. -/
structure Passes (sb : Superblock) (K : InodeNo → Prop) (s t : FsState) : Prop where
  stays : Stays K s t
  tree : ∀ jp, K jp → t.tree sb (s.inode jp).inum = s.tree sb (s.inode jp).inum

section Passes

variable {sb : Superblock} {K : InodeNo → Prop} {s t u : FsState} {ip : InodeNo}

theorem Passes.trans (h : Passes sb K s t) (h' : Passes sb K t u) : Passes sb K s u where
  stays := h.stays.trans h'.stays
  tree jp hjp := by
    rw [← (h.stays jp hjp).1, h'.tree jp hjp, (h.stays jp hjp).1, h.tree jp hjp]

theorem Loads.passes (h : Loads sb s t) (hk : Stays K s t) : Passes sb K s t := ⟨hk, fun _ _ => by rw [h.tree]⟩

theorem Changes.stays (h : Changes ip s t) : Stays K s t := fun jp _ => ⟨h.inum jp, fun hv => by rw [h.valid, hv]⟩

end Passes

section Free

variable {sb : Superblock} {p : Slot} {E : Fault → Prop} {fits : List ℕ → Prop} {s t : FsState} {ip : InodeNo} {i b : ℕ}
  {base : InodeNo → ℤ} {l : List InodeNo} {X : ℕ → Prop} {x : Dinode} {Q : Unit → FsState → Prop}

/-- **`itrunc`**. -/
theorem itrunc_spec (hsb : sb.Ok) (hE : ∀ e, E e) (hfit : ∀ L, fits L) (h : InOrder sb base l X s)
    (href : 0 < (s.inode ip).ref) (hv : (s.inode ip).valid = true)
    (hQ : ∀ t, InOrder sb base l X t → Changes ip s t → (t.inode ip).d.nlink = (s.inode ip).d.nlink →
      t.tree sb = update (s.tree sb) (s.inode ip).inum { s.tree sb (s.inode ip).inum with bytes := [] } → Q () t) :
    (itrunc sb ip).wp (fsRules sb p E fits) Q s := by
  have ho := h.opened href hv
  rw [itrunc, wp_bind]
  refine itruncDirect_spec hsb ho hE hfit (fun n hn => ?_) (.refl ho) (fun _ => .inr rfl) fun t ht haddr => ?_
  · have := List.mem_range.mp hn
    omega
  rw [wp_bind]
  refine itruncIndirect_spec hsb ho hE hfit ht (by rw [haddr]; simp) fun u hu haddr' => ?_
  rw [wp_bind]
  refine fields_spec ?_
  rw [wp_bind]
  refine setFields_spec ?_
  -- no address is left
  have hzero : ∀ n, (u.inode ip).d.addr n = 0 := by
    intro n
    rw [haddr', haddr]
    split_ifs with h1 h2
    · rfl
    · rfl
    · have hn : ¬n < NDIRECT := fun hlt => h2 (List.mem_range.mpr hlt)
      rw [Dinode.addr, dif_neg (by omega)]
  have hinum := hu.touches.inum ip
  have href' : 0 < (u.inode ip).ref := by
    rw [hu.touches.ref]
    exact href
  have hv' : (u.inode ip).valid = true := by
    rw [hu.touches.valid]
    exact hv
  obtain ⟨x, hx⟩ : ∃ x, x = { (u.inode ip).d with size := 0 } := ⟨_, rfl⟩
  rw [← hx]
  have hxself : x = { (s.inode ip).d with size := 0, addrs := x.addrs } := by rw [hx, hu.self]
  have hch : Changes ip s (u.updated sb ip x) := hu.touches.toChanges.trans (changes_updated x)
  have hvol : (u.updated sb ip x).vol sb = (u.vol sb).setInode (s.inode ip).inum x := by
    rw [vol_updated hsb (hu.touches.table h.table) href' hv', hinum]
  refine iupdate_fields hE (hfit _) ?_
  have hself : ((u.updated sb ip x).vol sb).inode (s.inode ip).inum = x := by rw [hvol, Vol.inode_setInode_self]
  have hother : ∀ j, j ≠ (s.inode ip).inum → ((u.updated sb ip x).vol sb).inode j = (s.vol sb).inode j := by
    intro j hj
    rw [hvol, Vol.inode_setInode_of_ne hj, hu.other j hj]
  have htype : ∀ j, (((u.updated sb ip x).vol sb).inode j).type = ((s.vol sb).inode j).type := by
    intro j
    by_cases hj : j = (s.inode ip).inum
    · rw [hj, hself, ho.inode, hxself]
    · rw [hother j hj]
  have halloc : ((u.updated sb ip x).vol sb).Alloc = (s.vol sb).Alloc := by
    funext j
    rw [Vol.Alloc, htype, Vol.Alloc]
  have hloc : ∀ j pl, ((u.updated sb ip x).vol sb).loc j pl = if j = (s.inode ip).inum then 0 else (s.vol sb).loc j pl := by
    intro j pl
    split_ifs with hj
    · have hz : ∀ n, x.addr n = 0 := fun n => by rw [hx]; exact hzero n
      rw [hj]
      cases pl with
      | addr n => rw [Vol.loc, hself, hz]
      | entry k => rw [Vol.loc, hself, if_pos (hz _)]
    · rw [hvol, Vol.loc_setInode_of_ne hj, hu.loc hj]
  have hsize : ((u.updated sb ip x).vol sb).size (s.inode ip).inum = 0 := by
    rw [Vol.size, hself, hx]
    rfl
  have htree : (u.updated sb ip x).tree sb =
      update (s.tree sb) (s.inode ip).inum { s.tree sb (s.inode ip).inum with bytes := [] } := by
    funext j
    by_cases hj : j = (s.inode ip).inum
    · have hbytes : ((u.updated sb ip x).vol sb).bytes (s.inode ip).inum = [] := by
        rw [Vol.bytes, hsize]
        rfl
      rw [hj, update_self]
      simp only [FsState.tree]
      rw [Vol.file, if_neg (by rw [htype]; exact ho.alloc), hbytes, hself, Vol.file, if_neg ho.alloc, ho.inode, hxself]
    · have hi := hother j hj
      rw [update_of_ne hj]
      refine Vol.file_eq (by rw [hi]) (by rw [hi]) (by rw [hi]) (by rw [hi]) (by rw [hi]) fun _ k _ => ?_
      refine Vol.byte_congr ?_ (by rw [hvol, Vol.blk_setInode, hu.blk])
      rw [Vol.block, hloc, if_neg hj, Vol.block]
  refine hQ _ ?_ hch (by rw [inode_updated, hxself]) htree
  apply h.change href hch
  case hok =>
    have hok : ((u.updated sb ip x).vol sb).OkOn sb fun j => (s.vol sb).Alloc j ∧ j ≠ (s.inode ip).inum := by
      rw [hvol]
      refine hu.ok.of_loc (fun _ hu _ => hu) (fun j pl hj => Vol.loc_setInode_of_ne hj.2) (fun j hj => ?_) fun j n hj hn => ?_
      · rw [Vol.size_setInode, if_neg hj.2]
        exact hu.ok.size_le j hj
      · rw [Vol.size_setInode, if_neg hj.2] at hn
        exact hu.ok.full j n hj hn
    refine (hok.insert (i := (s.inode ip).inum) (fun pl => by rw [hloc, if_pos rfl]) hsize).mono fun j hj => ?_
    rw [halloc] at hj
    by_cases hji : j = (s.inode ip).inum
    · exact .inr hji
    · exact .inl ⟨hj, hji⟩
  case htype =>
    rw [inode_updated]
    have := h.typed ip href hv
    rw [hxself]
    exact this
  case hdisk =>
    intro j hj
    rw [disk_updated, hinum, hu.disk j hj]
  case hdirs =>
    intro j
    rw [htree]
    by_cases hj : j = (s.inode ip).inum
    · rw [hj, update_self, FileData.entries_nil rfl]
      intro _ _ he
      cases he
    · rw [update_of_ne hj]
      exact h.dirs j
  case hsync =>
    refine h.synced.step hch.home hch.logged (fun b hb => .inl ?_) (fun j pl hj => .inr ?_) (nmeta_pos hsb)
    · exact ((hu.touches.setFields x).write _ _).cache b hb
    · rw [hloc]
      split_ifs
      · exact .inl rfl
      · exact .inr ⟨by rwa [halloc] at hj, rfl, htype j⟩
  case hlive =>
    intro j
    rw [Vol.type_file, Vol.type_file, htype]
    exact id
  case hlinked =>
    intro j hj hname
    rw [htree] at hname ⊢
    have hname' : Named (s.tree sb) j := hname.of_update fun ht =>
      ⟨ht, by rw [FileData.entries_nil rfl]; intro _ he; cases he⟩
    by_cases hji : j = (s.inode ip).inum
    · rw [hji, update_self]
      rw [hji] at hname' hj
      exact h.linked _ hj hname'
    · rw [update_of_ne hji]
      exact h.linked j hj hname'

theorem vol_write_clean (hsb : sb.Ok) (hs : Clean sb s) (ht : Clean sb t) (hi : sb.IsInum i)
    (hcache : t.cache = update s.cache (sb.iblock i) (setDinode x (i % IPB) (s.cache (sb.iblock i)))) :
    t.vol sb = (s.vol sb).setInode i x := by
  obtain ⟨w, hw⟩ : ∃ w, w = s.write (sb.iblock i) (setDinode x (i % IPB) (s.cache (sb.iblock i))) := ⟨_, rfl⟩
  have hwc : t.cache = w.cache := by rw [hcache, hw, FsState.cache_write]
  have hwv := vol_write_iblock (s := s) hsb hi (x := x)
  rw [← hw] at hwv
  have hin : (t.vol sb).inode = update (s.vol sb).inode i x := by
    funext j
    by_cases hj : sb.IsInum j
    · have hd : t.disk sb j = w.disk sb j := by rw [FsState.disk, hwc, FsState.disk]
      rw [ht.inode_vol hj, hd, hw, disk_write_iblock]
      split_ifs with hji
      · rw [hji, update_self]
      · rw [update_of_ne hji, hs.inode_vol hj]
    · have hji : j ≠ i := fun he => hj (he ▸ hi)
      rw [update_of_ne hji]
      simp only [FsState.vol, if_neg hj]
  have hused : (t.vol sb).used = (s.vol sb).used := by
    have h1 : (t.vol sb).used = (w.vol sb).used := by simp only [FsState.vol, hwc]
    rw [h1, hwv]
  have hblk : (t.vol sb).blk = (s.vol sb).blk := by
    have h1 : (t.vol sb).blk = (w.vol sb).blk := by simp only [FsState.vol, hwc]
    rw [h1, hwv]
  exact Vol.ext hin hused hblk

/-- **An inode without references is freed**. -/
theorem InOrder.drop {y : Inode} {u : FsState} (hsb : sb.Ok) (h : InOrder sb base (ip :: l) X t) (href : (t.inode ip).ref = 1)
    (hx : x.type = 0) (hy : y.ref = 0)
    (hu : u = { t with
      cache := update t.cache (sb.iblock (t.inode ip).inum)
        (setDinode x ((t.inode ip).inum % IPB) (t.cache (sb.iblock (t.inode ip).inum)))
      logged := t.logged.insert (sb.iblock (t.inode ip).inum)
      inode := update t.inode ip y }) :
    InOrder sb base l X u ∧ u.tree sb = update (t.tree sb) (t.inode ip).inum .free := by
  have hpos : 0 < (t.inode ip).ref := by omega
  have hbase : base ip = 0 ∧ l.count ip = 0 := by
    have h1 := h.refs ip
    have h2 := h.nonneg ip
    rw [List.count_cons_self] at h1
    push_cast at h1
    omega
  have hi := h.table.inum ip hpos
  have hip : u.inode ip = y := by rw [hu]; simp
  have hjp : ∀ jp, jp ≠ ip → u.inode jp = t.inode jp := fun jp hne => by rw [hu]; simp [hne]
  -- an entry that is in use is another one
  have hne : ∀ jp, 0 < (u.inode jp).ref → jp ≠ ip := by
    rintro jp hjpos rfl
    rw [hip, hy] at hjpos
    exact absurd hjpos (lt_irrefl 0)
  have hcache : u.cache = update t.cache (sb.iblock (t.inode ip).inum)
      (setDinode x ((t.inode ip).inum % IPB) (t.cache (sb.iblock (t.inode ip).inum))) := by rw [hu]
  have hdisk : ∀ j, u.disk sb j = if j = (t.inode ip).inum then x else t.disk sb j := by
    intro j
    rw [FsState.disk, hcache]
    exact disk_write_iblock
  have hclean : Clean sb u := by
    intro jp hjpos hjv
    have hn := hne jp hjpos
    rw [hjp jp hn] at hjpos hjv ⊢
    rw [hdisk, if_neg fun he => hn (h.table.uniq jp ip hjpos hpos he)]
    exact h.clean jp hjpos hjv
  have hvol := vol_write_clean hsb h.clean hclean hi hcache
  have hself : (u.vol sb).inode (t.inode ip).inum = x := by rw [hvol, Vol.inode_setInode_self]
  have htree : u.tree sb = update (t.tree sb) (t.inode ip).inum .free := by
    funext j
    by_cases hj : j = (t.inode ip).inum
    · rw [hj, update_self]
      simp only [FsState.tree]
      rw [Vol.file, hself, if_pos hx]
    · rw [update_of_ne hj]
      simp only [FsState.tree]
      rw [hvol]
      exact Vol.file_setInode_of_ne hj
  have halloc : ∀ j, (u.vol sb).Alloc j → j ≠ (t.inode ip).inum ∧ (t.vol sb).Alloc j := by
    intro j hj
    have hji : j ≠ (t.inode ip).inum := by
      rintro rfl
      rw [Vol.Alloc, hself] at hj
      exact hj hx
    rw [Vol.Alloc, hvol, Vol.inode_setInode_of_ne hji] at hj
    exact ⟨hji, hj⟩
  refine ⟨?_, htree⟩
  constructor
  case table =>
    constructor
    case nonneg =>
      intro jp
      by_cases hn : jp = ip
      · rw [hn, hip, hy]
      · rw [hjp jp hn]
        exact h.table.nonneg jp
    case dev =>
      intro jp hjpos
      have hn := hne jp hjpos
      rw [hjp jp hn] at hjpos ⊢
      exact h.table.dev jp hjpos
    case inum =>
      intro jp hjpos
      have hn := hne jp hjpos
      rw [hjp jp hn] at hjpos ⊢
      exact h.table.inum jp hjpos
    case uniq =>
      intro jp kp hj hk he
      have hjn := hne jp hj
      have hkn := hne kp hk
      rw [hjp jp hjn] at hj he
      rw [hjp kp hkn] at hk he
      exact h.table.uniq jp kp hj hk he
  case clean => exact hclean
  case typed =>
    intro jp hjpos hjv
    have hn := hne jp hjpos
    rw [hjp jp hn] at hjpos hjv ⊢
    exact h.typed jp hjpos hjv
  case ok =>
    have hok := h.ok.mono fun j (hj : (u.vol sb).Alloc j) => (halloc j hj).2
    rw [Vol.Ok, hvol]
    rw [hvol] at halloc hok
    refine hok.of_loc (fun _ hu _ => hu) (fun j pl hj => Vol.loc_setInode_of_ne (halloc j hj).1) (fun j hj => ?_) fun j n hj hn => ?_
    · rw [Vol.size_setInode, if_neg (halloc j hj).1]
      exact hok.size_le j hj
    · rw [Vol.size_setInode, if_neg (halloc j hj).1] at hn
      exact hok.full j n hj hn
  case dirs =>
    intro j
    rw [htree]
    by_cases hj : j = (t.inode ip).inum
    · rw [hj, update_self]
      intro ht
      cases ht
    · rw [update_of_ne hj]
      exact h.dirs j
  case synced =>
    have hhome : u.home = t.home := by rw [hu]
    have hlog : u.logged = t.logged.insert (sb.iblock (t.inode ip).inum) := by rw [hu]
    refine h.synced.step hhome (fun b hb => by rw [hlog]; exact List.mem_insert_of_mem hb) (fun b hb => .inl ?_)
      (fun j pl hj => .inr (.inr ⟨(halloc j hj).2, ?_, ?_⟩)) (nmeta_pos hsb)
    · rw [hlog, List.mem_insert_iff, not_or] at hb
      rw [hcache, update_of_ne hb.1]
    · rw [hvol, Vol.loc_setInode_of_ne (halloc j hj).1]
    · rw [hvol, Vol.inode_setInode_of_ne (halloc j hj).1]
  case held =>
    rw [hu]
    exact h.held
  case nonneg => exact h.nonneg
  case refs =>
    intro jp
    by_cases hn : jp = ip
    · rw [hn, hip, hy, hbase.1, hbase.2]
      rfl
    · rw [hjp jp hn, h.refs jp, List.count_cons_of_ne (Ne.symm hn)]
  case live =>
    intro jp hb
    have hn : jp ≠ ip := by
      rintro rfl
      omega
    have hjpos : 0 < (t.inode jp).ref := by
      have := h.refs jp
      omega
    have hinum : (t.inode jp).inum ≠ (t.inode ip).inum := fun he => hn (h.table.uniq jp ip hjpos hpos he)
    rw [hjp jp hn, htree, update_of_ne hinum]
    exact h.live jp hb
  case linked =>
    intro j hj hname
    rw [htree] at hname ⊢
    have hname' : Named (t.tree sb) j := hname.of_update fun ht => by cases ht
    by_cases hji : j = (t.inode ip).inum
    · rw [hji, update_self]
      exact fun ht => absurd rfl ht
    · rw [update_of_ne hji]
      intro ht hz
      obtain ⟨jp, hb, hjn⟩ := h.linked j hj hname' ht hz
      have hn : jp ≠ ip := by
        rintro rfl
        omega
      exact ⟨jp, hb, by rw [hjp jp hn, hjn]⟩

/-- **`iput`** drops a reference, and frees an inode of which it was the last if it has no links. -/
theorem iput_spec (hsb : sb.Ok) (hE : ∀ e, E e) (hfit : ∀ L, fits L) (h : InOrder sb base (ip :: l) X s)
    (hkeep : Firm sb base l s ip → ∀ t, InOrder sb base l X t → Loads sb s t → Stays (fun jp => 0 < (s.inode jp).ref) s t → Q () t)
    (hfree : (s.tree sb (s.inode ip).inum).nlink = 0 → base ip = 0 → ip ∉ l → ∀ t, InOrder sb base l X t →
      Stays (· ≠ ip) s t → t.tree sb = update (s.tree sb) (s.inode ip).inum .free → Q () t) :
    (iput sb ip).wp (fsRules sb p E fits) Q s := by
  have href := h.ref_pos List.mem_cons_self
  have hrefs := h.refs ip
  rw [List.count_cons_self] at hrefs
  push_cast at hrefs
  have hnn := h.nonneg ip
  rw [iput, wp_bind]
  refine wp_command (fun b he => by cases he) ?_
  simp only [execCmd]
  by_cases hdrop : (s.inode ip).ref = 1 ∧ (s.inode ip).valid = true ∧ (s.inode ip).d.nlink = 0
  · rw [if_pos hdrop]
    obtain ⟨h1, hv, hlink⟩ := hdrop
    have ho := h.opened href hv
    have hlink' : (s.tree sb (s.inode ip).inum).nlink = 0 := by
      rw [Vol.nlink_file ho.alloc, ho.inode]
      exact hlink
    have hb0 : base ip = 0 := by omega
    have hnl : ip ∉ l := fun hmem => by
      have := List.count_pos_iff.mpr hmem
      omega
    by_cases hlk : (s.inode ip).lock = none
    · rw [if_pos hlk]
      dsimp only [Post]
      -- the inode is locked, and loses its contents
      obtain ⟨hin, hload⟩ := h.setEntry href (s.inode ip).ref (some p) (ip :: l) (h.refs ip) fun _ _ => rfl
      obtain ⟨s1, hs1⟩ : ∃ s1, s1 = s.setInode ip { s.inode ip with lock := some p } := ⟨_, rfl⟩
      change InOrder sb base (ip :: l) X (s.setInode ip { s.inode ip with lock := some p }) at hin
      change Loads sb s (s.setInode ip { s.inode ip with lock := some p }) at hload
      rw [← hs1] at hin hload ⊢
      have hself : s1.inode ip = { s.inode ip with lock := some p } := by rw [hs1]; simp [FsState.setInode]
      have hinum : (s1.inode ip).inum = (s.inode ip).inum := by rw [hself]
      rw [if_pos rfl, wp_bind]
      refine itrunc_spec hsb hE hfit hin (by rw [hself]; exact href) (by rw [hself]; exact hv) fun t ht hch hnlink htree => ?_
      have hti : (t.inode ip).inum = (s.inode ip).inum := by rw [hch.inum, hinum]
      have htref : (t.inode ip).ref = 1 := by
        rw [hch.ref, hself]
        exact h1
      rw [wp_bind]
      refine fields_spec ?_
      rw [wp_bind]
      refine setFields_spec ?_
      rw [wp_bind]
      refine iupdate_fields hE (hfit _) ?_
      rw [wp_bind]
      refine setValid_spec ?_
      rw [wp_bind]
      refine releasesleep_spec ?_
      refine unref_spec ?_
      obtain ⟨y, hy⟩ : ∃ y : Inode, y = { t.inode ip with
        ref := (t.inode ip).ref - 1, lock := none, valid := false, d := { (t.inode ip).d with type := 0 } } := ⟨_, rfl⟩
      have hgo : ∀ w : FsState, w = { t with
          cache := update t.cache (sb.iblock (t.inode ip).inum)
            (setDinode { (t.inode ip).d with type := 0 } ((t.inode ip).inum % IPB) (t.cache (sb.iblock (t.inode ip).inum)))
          logged := t.logged.insert (sb.iblock (t.inode ip).inum)
          inode := update t.inode ip y } → Q () w := by
        intro w hw
        obtain ⟨hfin, hftree⟩ := ht.drop hsb htref rfl (by rw [hy, htref]; rfl) hw
        have hother : Stays (· ≠ ip) t w := by
          intro jp hjp
          have : w.inode jp = t.inode jp := by rw [hw]; simp [hjp]
          rw [this]
          exact ⟨rfl, id⟩
        have hfirst : Stays (· ≠ ip) s s1 := fun jp hjp => by
          have : s1.inode jp = s.inode jp := by rw [hs1]; simp [FsState.setInode, hjp]
          rw [this]
          exact ⟨rfl, id⟩
        refine hfree hlink' hb0 hnl w hfin ((hfirst.trans hch.stays).trans hother) ?_
        have hs₁tree : s1.tree sb = s.tree sb := hload.tree
        rw [hftree, htree, hti, hinum, update_idem, hs₁tree]
      refine hgo _ ?_
      simp [FsState.updated, FsState.setInode, FsState.write, hy]
    · rw [if_neg hlk]
      exact hE _
  · rw [if_neg hdrop]
    dsimp only [Post]
    obtain ⟨hin, hl⟩ := h.setEntry href ((s.inode ip).ref - 1) (s.inode ip).lock l
      (by rw [h.refs ip, List.count_cons_self]; push_cast; ring) fun jp hne => (List.count_cons_of_ne (Ne.symm hne)).symm
    refine unref_spec (hkeep ?_ _ hin hl (stays_setInode fun _ => ⟨rfl, id⟩))
    by_cases hv : (s.inode ip).valid = true
    · have ho := h.opened href hv
      by_cases hlink : (s.inode ip).d.nlink = 0
      · have hne : (s.inode ip).ref ≠ 1 := fun h1 => hdrop ⟨h1, hv, hlink⟩
        by_cases hmem : ip ∈ l
        · exact .inr (.inr (.inr hmem))
        · rw [List.count_eq_zero_of_not_mem hmem] at hrefs
          exact .inr (.inr (.inl (by omega)))
      · left
        rw [Vol.nlink_file ho.alloc, ho.inode]
        exact hlink
    · exact .inr (.inl (Bool.eq_false_of_not_eq_true hv))

end Free

/-! ### Files that are written -/

section Write

variable {sb : Superblock} {s t : FsState} {ip : InodeNo} {src : Src} {off n z tot w : ℕ} {base : InodeNo → ℤ} {l : List InodeNo}
  {X X' : ℕ → Prop}

/-- **A file is written**. Data that is not logged is not that of a directory. -/
theorem InOrder.written (hsb : sb.Ok) (h : InOrder sb base l X s) (href : 0 < (s.inode ip).ref) (hv : (s.inode ip).valid = true)
    (hw : Written sb ip src off n z s tot w t)
    (hdisk : ∀ j, sb.IsInum j → t.disk sb j = if j = (s.inode ip).inum then (t.inode ip).d else s.disk sb j)
    (htorn : w ≠ tot → (s.inode ip).d.type ≠ T_DIR)
    (hdirs : ∀ i, (t.tree sb i).type = T_DIR → ∀ e ∈ (t.tree sb i).entries, e.inum ≠ 0 → sb.IsInum e.inum)
    (hlinked : ∀ i, ¬X' i → Named (t.tree sb) i → (t.tree sb i).type ≠ 0 → (t.tree sb i).nlink = 0 →
      ∃ ip, 0 < base ip ∧ (s.inode ip).inum = i) : InOrder sb base l X' t := by
  have ho := h.opened href hv
  have ho' := hw.opened ho
  have hin : (t.vol sb).inode (s.inode ip).inum = (t.inode ip).d := by
    rw [← hw.inum]
    exact ho'.inode
  apply h.change href hw.toChanges
  case hok => exact ho'.ok
  case htype =>
    rw [← hin, hw.stored.type, ho.inode]
    exact h.typed ip href hv
  case hdisk => exact hdisk
  case hdirs => exact hdirs
  case hsync =>
    refine h.synced.step hw.home hw.logged (fun b hb => (hw.cache b hb).imp id ?_) (fun j pl hj => ?_) (nmeta_pos hsb)
    · rintro ⟨hne, m, hm, hb0⟩
      have hal : (t.vol sb).Alloc (s.inode ip).inum := by
        rw [← hw.inum]
        exact ho'.alloc
      refine ⟨?_, fun j pl hj hl => ?_⟩
      · rw [← hm]
        exact (ho'.ok.own _ _ hal (by rw [← Vol.block, hm]; exact hb0)).1
      · obtain ⟨rfl, rfl⟩ := ho'.ok.inj j _ pl _ hj hal (by rw [hl]; exact hb0) (hl.trans hm.symm)
        refine ⟨Vol.filePlace_ne m, ?_⟩
        rw [hw.stored.type, ho.inode]
        exact htorn hne
    · rw [hw.stored.alloc_eq] at hj
      rcases hw.fresh j pl hj with he | hmem
      · exact .inr (.inr ⟨hj, he, hw.stored.type j⟩)
      · exact .inl hmem
  case hlive =>
    intro j
    rw [Vol.type_file, Vol.type_file, hw.stored.type]
    exact id
  case hlinked => exact hlinked

end Write

/-! ### References that are dropped on the way -/

/-- The inode has a name, or is kept by an open file or a current directory. -/
def Rooted (sb : Superblock) (base : InodeNo → ℤ) (s : FsState) (ip : InodeNo) : Prop :=
  Named (s.tree sb) (s.inode ip).inum ∨ 0 < base ip

/-- The code itself has references to the inodes in `X`. -/
def Kept (X : ℕ → Prop) (l : List InodeNo) (s : FsState) : Prop := ∀ i, X i → ∃ jp ∈ l, (s.inode jp).inum = i

section Rooted

variable {sb : Superblock} {p : Slot} {E : Fault → Prop} {fits : List ℕ → Prop} {s : FsState} {ip : InodeNo} {base : InodeNo → ℤ}
  {l : List InodeNo} {X : ℕ → Prop}

/-- An inode that is rooted has links, or there are other references to it. -/
theorem InOrder.rooted (h : InOrder sb base (ip :: l) X s) (hroot : Rooted sb base s ip) (hkept : Kept X l s)
    (htype : (s.tree sb (s.inode ip).inum).type ≠ 0) : (s.tree sb (s.inode ip).inum).nlink ≠ 0 ∨ 0 < base ip ∨ ip ∈ l := by
  have href := h.ref_pos List.mem_cons_self
  by_cases hlink : (s.tree sb (s.inode ip).inum).nlink = 0
  · right
    rcases hroot with hname | hb
    · by_cases hX : X (s.inode ip).inum
      · obtain ⟨jp, hjp, hinum⟩ := hkept _ hX
        right
        rwa [← h.table.uniq jp ip (h.ref_pos (List.mem_cons_of_mem _ hjp)) href hinum]
      · obtain ⟨jp, hb, hinum⟩ := h.linked _ hX hname htype hlink
        left
        rwa [← h.table.uniq jp ip (h.pos (.inl hb)) href hinum]
    · exact .inl hb
  · exact .inl hlink

/-- An inode that is rooted stays when a reference to it is dropped. -/
theorem InOrder.stay (h : InOrder sb base (ip :: l) X s) (hroot : Rooted sb base s ip) (hkept : Kept X l s) :
    Firm sb base l s ip := by
  by_cases hv : (s.inode ip).valid = true
  · have htype := Vol.alloc_iff.mp (h.opened (h.ref_pos List.mem_cons_self) hv).alloc
    exact (h.rooted hroot hkept htype).imp_right .inr
  · exact .inr (.inl (Bool.eq_false_of_not_eq_true hv))

theorem Kept.stays {t : FsState} (h : Kept X l s) (hs : ∀ jp ∈ l, (t.inode jp).inum = (s.inode jp).inum) : Kept X l t := by
  intro i hi
  obtain ⟨jp, hjp, hinum⟩ := h i hi
  exact ⟨jp, hjp, by rw [hs jp hjp, hinum]⟩

theorem Kept.mono {l' : List InodeNo} (h : Kept X l s) (hl : l ⊆ l') : Kept X l' s := fun i hi =>
  let ⟨jp, hjp, hinum⟩ := h i hi
  ⟨jp, hl hjp, hinum⟩

/-- **`iput`**, as the inodes see it that have other references. -/
theorem iput_passes_spec {Q : Unit → FsState → Prop} (hsb : sb.Ok) (hE : ∀ e, E e) (hfit : ∀ L, fits L)
    (h : InOrder sb base (ip :: l) X s)
    (hQ : ∀ t, InOrder sb base l X t → Passes sb (fun jp => 0 < base jp ∨ jp ∈ l) s t → Q () t) :
    (iput sb ip).wp (fsRules sb p E fits) Q s := by
  have hpos : ∀ jp, 0 < base jp ∨ jp ∈ l → 0 < (s.inode jp).ref := fun jp hjp => h.pos (hjp.imp_right (List.mem_cons_of_mem _))
  refine iput_spec hsb hE hfit h (fun _ t ht hload hstay => ?_) fun _ hb hnl t ht hst htree => ?_
  · exact hQ t ht (hload.passes (hstay.mono hpos))
  · have hne : ∀ jp, 0 < base jp ∨ jp ∈ l → jp ≠ ip := by
      rintro jp hjp rfl
      rcases hjp with hpos | hmem
      · omega
      · exact hnl hmem
    refine hQ t ht ⟨hst.mono hne, fun jp hjp => ?_⟩
    have hinum : (s.inode jp).inum ≠ (s.inode ip).inum := fun he =>
      hne jp hjp (h.table.uniq jp ip (hpos jp hjp) (h.ref_pos List.mem_cons_self) he)
    rw [htree, update_of_ne hinum]

/-- **`iunlockput`** of an inode that stays. -/
theorem iunlockput_keep_spec {Q : Unit → FsState → Prop} (h : InOrder sb base (ip :: l) X s)
    (hlk : (s.inode ip).lock ≠ some p → E .iunlock) (hfirm : Firm sb base l s ip)
    (hQ : ∀ t, InOrder sb base l X t → Loads sb s t → Stays (fun jp => 0 < base jp ∨ jp ∈ l) s t →
      (∀ jp, (t.inode jp).lock = if jp = ip then none else (s.inode jp).lock) → Q () t) :
    (iunlockput sb ip).wp (fsRules sb p E fits) Q s := by
  rw [iunlockput, wp_bind]
  refine iunlock_spec h (h.ref_pos List.mem_cons_self) hlk fun hin hload hstay => ?_
  obtain ⟨u, hu⟩ : ∃ u, u = s.setInode ip { s.inode ip with lock := none } := ⟨_, rfl⟩
  rw [← hu] at hin hload hstay ⊢
  have htree : u.tree sb = s.tree sb := hload.tree
  have hfirm' : Firm sb base l u ip := by
    have hself : u.inode ip = { s.inode ip with lock := none } := by rw [hu]; simp [FsState.setInode]
    rw [Firm, htree, hself]
    exact hfirm
  have hmem : ∀ jp, 0 < base jp ∨ jp ∈ l → 0 < base jp ∨ jp ∈ ip :: l := fun jp hjp => hjp.imp_right (List.mem_cons_of_mem _)
  refine iput_keep_spec hin hfirm' fun t ht hl hst hlock => hQ t ht (hload.trans hl) ?_ fun jp => ?_
  · exact (hstay.mono fun jp hjp => h.pos (hmem jp hjp)).trans (hst.mono fun jp hjp => hin.pos (hmem jp hjp))
  · rw [hlock, hu]
    by_cases hjp : jp = ip
    · subst hjp
      simp [FsState.setInode]
    · simp [FsState.setInode, hjp]

end Rooted

end Xv6Shmem.Fs
