import Xv6Shmem.Fs.Blocks

/-!
# The contents of files

`readi` and `writei` over the volume: a file is an array of bytes, and the loops over blocks read and
replace a range of it.

## What is proved

* `readi_spec` — `readi` delivers the bytes of the file from the offset on.
* `writei_spec` — `writei` replaces bytes of the file by those of its source, and what it logs.
* `chunk_fits` — what `filewrite` logs in a transaction.
-/

namespace Xv6Shmem.Fs

open Function ByteArea Kernel Disk Files Prog

/-- What a turn of a loop over the blocks of a file transfers. -/
theorem exists_turn (off : ℕ) {tot n : ℕ} (h : tot < n) : ∃ m, m = min (n - tot) (BSIZE - (off + tot) % BSIZE) ∧
    tot + m ≤ n ∧ (off + tot) % BSIZE + m ≤ BSIZE ∧ 0 < m := by
  have hmod : (off + tot) % BSIZE < BSIZE := Nat.mod_lt _ (by decide)
  exact ⟨_, rfl, by omega, by omega, by omega⟩

/-! ### User memory -/

section User

variable {u : ℕ → Option UInt8} {a n : ℕ} {bs : List UInt8}

theorem length_mapped_le (u : ℕ → Option UInt8) (a n : ℕ) : (mapped u a n).length ≤ n := by
  induction n generalizing a with
  | zero => exact le_rfl
  | succ n ih =>
    rw [mapped]
    split
    · exact Nat.succ_le_succ (ih (a + 1))
    · exact Nat.zero_le _

theorem getD_mapped {k : ℕ} (hk : k < (mapped u a n).length) : u (a + k) = some ((mapped u a n).getD k 0) := by
  induction n generalizing a k with
  | zero => exact absurd hk (Nat.not_lt_zero k)
  | succ n ih =>
    rw [mapped] at hk ⊢
    cases ha : u a with
    | none =>
      rw [ha] at hk
      exact absurd hk (Nat.not_lt_zero k)
    | some x =>
      rw [ha] at hk
      cases k with
      | zero => exact ha
      | succ k =>
        have := ih (a := a + 1) (k := k) (Nat.lt_of_succ_lt_succ hk)
        rw [← Nat.add_right_comm, Nat.add_assoc] at this
        exact this

theorem length_mapped_eq_iff : (mapped u a n).length = n ↔ ∀ k < n, (u (a + k)).isSome := by
  induction n generalizing a with
  | zero => simp [mapped]
  | succ n ih =>
    rw [mapped]
    cases ha : u a with
    | none =>
      constructor
      · exact fun h => absurd h (Nat.succ_ne_zero n).symm
      · intro h
        have := h 0 (Nat.succ_pos n)
        rw [Nat.add_zero, ha] at this
        cases this
    | some x =>
      simp only [List.length_cons, Nat.add_right_cancel_iff]
      rw [ih]
      constructor
      · intro h k hk
        cases k with
        | zero => rw [Nat.add_zero, ha, Option.isSome_some]
        | succ k =>
          rw [Nat.add_comm k 1, ← Nat.add_assoc]
          exact h k (Nat.lt_of_succ_lt_succ hk)
      · intro h k hk
        have := h (k + 1) (Nat.succ_lt_succ hk)
        rwa [Nat.add_comm k 1, ← Nat.add_assoc] at this

theorem stores_of_not {k : ℕ} (hk : k < a ∨ a + bs.length ≤ k) : stores u a bs k = u k := by
  induction bs generalizing u a with
  | nil => rfl
  | cons x bs ih =>
    rw [List.length_cons] at hk
    rw [stores]
    cases ha : u a with
    | none => rfl
    | some y =>
      dsimp only
      rw [ih (by omega), update_of_ne (by omega)]

theorem isSome_stores (k : ℕ) : (stores u a bs k).isSome = (u k).isSome := by
  induction bs generalizing u a with
  | nil => rfl
  | cons x bs ih =>
    rw [stores]
    cases ha : u a with
    | none => rfl
    | some y =>
      rw [ih]
      by_cases hk : k = a
      · rw [hk, update_self, ha, Option.isSome_some, Option.isSome_some]
      · rw [update_of_ne hk]

theorem stores_append {bs' : List UInt8} (h : ∀ k < bs.length, (u (a + k)).isSome) :
    stores u a (bs ++ bs') = stores (stores u a bs) (a + bs.length) bs' := by
  induction bs generalizing u a with
  | nil => rfl
  | cons x bs ih =>
    obtain ⟨y, hy⟩ := Option.isSome_iff_exists.mp (h 0 (Nat.succ_pos _))
    rw [Nat.add_zero] at hy
    rw [List.cons_append, stores, stores, hy, List.length_cons, Nat.add_comm bs.length 1, ← Nat.add_assoc]
    refine ih fun k hk => ?_
    have := h (k + 1) (Nat.succ_lt_succ hk)
    rw [Nat.add_comm k 1, ← Nat.add_assoc] at this
    by_cases hka : a + 1 + k = a
    · omega
    · rwa [update_of_ne hka]

end User

/-! ### `readi` -/

/-- `n` bytes of file `i` from `off` on. -/
def Vol.range (V : Vol) (i off n : ℕ) : List UInt8 := (List.range n).map fun k => V.byte i (off + k)

theorem Vol.range_append (V : Vol) (i off m n : ℕ) : V.range i off (m + n) = V.range i off m ++ V.range i (off + m) n := by
  simp only [Vol.range, List.range_add, List.map_append, List.map_map]
  congr 2
  funext k
  simp only [Function.comp, Nat.add_assoc]

@[simp] theorem Vol.length_range (V : Vol) (i off n : ℕ) : (V.range i off n).length = n := by simp [Vol.range]

theorem Vol.range_eq (V : Vol) {i off n : ℕ} (h : off + n ≤ V.size i) : V.range i off n = ((V.bytes i).drop off).take n := by
  apply List.ext_getElem
  · simp [Vol.bytes]
    omega
  · intro k _ _
    simp [Vol.range, Vol.bytes]

/-- What is asked of a destination of `n` bytes: that it is mapped. -/
def Takes (u : ℕ → Option UInt8) (dst : Option ℕ) (n : ℕ) : Prop := ∀ a ∈ dst, ∀ k < n, (u (a + k)).isSome

/-- User memory after bytes are delivered. -/
def delivered (u : ℕ → Option UInt8) (dst : Option ℕ) (bs : List UInt8) : ℕ → Option UInt8 :=
  match dst with
  | some a => stores u a bs
  | none => u

/-- What a read of `n` bytes from `off` on does. -/
structure Delivers (sb : Superblock) (i : ℕ) (dst : Option ℕ) (off n : ℕ) (s : FsState) (r : ℤ × List UInt8) (t : FsState) : Prop where
  eq : t = { s with user := t.user }
  /-- Nothing outside the destination is stored to. -/
  frame : ∀ a ∈ dst, ∀ k, k < a ∨ a + n ≤ k → t.user k = s.user k
  res : r.1 = n ∨ r.1 = -1
  /-- If the destination is mapped, then it has got the contents. -/
  exact : Takes s.user dst n → r = ((n : ℤ), (s.vol sb).range i off n) ∧
    t.user = delivered s.user dst ((s.vol sb).range i off n)

section Read

variable {sb : Superblock} {p : Slot} {E : Fault → Prop} {fits : List ℕ → Prop} {s : FsState} {ip : InodeNo}

theorem bmap_found {bn : ℕ} {Q : ℕ → FsState → Prop} (ho : Opened sb ip s) (hheld : s.held = []) (hbn : bn < MAXFILE)
    (hb : (s.vol sb).block (s.inode ip).inum bn ≠ 0) (h : Q ((s.vol sb).block (s.inode ip).inum bn) s) :
    (bmap sb ip bn).wp (fsRules sb p E fits) Q s := by
  rw [Vol.block, filePlace] at hb h
  rw [bmap]
  split_ifs at hb h ⊢ with hd hk
  · rw [ho.loc_addr] at hb h
    rw [bmapDirect, wp_bind]
    refine fields_spec ?_
    rw [if_neg hb]
    exact h
  · have hne : (s.inode ip).d.addr NDIRECT ≠ 0 := fun h0 => hb (ho.loc_entry_zero h0 _)
    rw [ho.loc_entry rfl hne] at hb h
    rw [wp_bind, bmapDirect, wp_bind]
    refine fields_spec ?_
    rw [if_neg hne]
    change Prog.wp _ (if (s.inode ip).d.addr NDIRECT = 0 then _ else _) _ _
    rw [if_neg hne, bmapEntry, wp_bind]
    refine bread_spec (fun hmem => ?_) fun _ => ?_
    · rw [hheld] at hmem
      cases hmem
    rw [wp_bind]
    refine data_spec ?_
    rw [if_neg hb, wp_bind]
    exact brelse_spec rfl h
  · exact absurd hbn (by unfold MAXFILE; omega)

theorem slice_cache {i o m : ℕ} (hok : (s.vol sb).Ok sb) (hi : (s.vol sb).Alloc i) (hb : (s.vol sb).block i (o / BSIZE) ≠ 0)
    (hm : o % BSIZE + m ≤ BSIZE) :
    (s.cache ((s.vol sb).block i (o / BSIZE))).slice m (o % BSIZE) = (s.vol sb).range i o m := by
  have hge := (hok.own i _ hi hb).1
  have hcache : s.cache ((s.vol sb).block i (o / BSIZE)) = (s.vol sb).blk ((s.vol sb).block i (o / BSIZE)) := by
    simp only [FsState.vol]
    exact (if_pos hge).symm
  refine List.map_congr_left fun k hk => ?_
  have hk' := List.mem_range.mp hk
  have hdiv : (o + k) / BSIZE = o / BSIZE := by
    unfold BSIZE at *
    omega
  have hmod : (o + k) % BSIZE = o % BSIZE + k := by
    unfold BSIZE at *
    omega
  rw [Vol.byte, hdiv, hmod, hcache]

theorem eitherCopyout_spec {dst : Option ℕ} {tot : ℕ} {bs : List UInt8} {Q : Bool → FsState → Prop}
    (h : ∀ r u, (∀ a ∈ dst, ∀ k, k < a + tot ∨ a + tot + bs.length ≤ k → u k = s.user k) →
      ((∀ a ∈ dst, ∀ k < bs.length, (s.user (a + tot + k)).isSome) → r = true ∧ u = delivered s.user (dst.map (· + tot)) bs) →
      Q r { s with user := u }) : (eitherCopyout dst tot bs).wp (fsRules sb p E fits) Q s := by
  cases dst with
  | none => exact h true s.user (fun _ ha => by cases ha) fun _ => ⟨rfl, rfl⟩
  | some a =>
    refine wp_command nofun (h _ _ (fun a' ha' k hk => ?_) fun hm => ⟨?_, rfl⟩)
    · cases ha'
      exact stores_of_not hk
    · exact decide_eq_true (length_mapped_eq_iff.mpr (hm a rfl))

variable (ho : Opened sb ip s) (hheld : s.held = [])

include ho hheld

theorem readiFrom_spec {dst : Option ℕ} {off n fuel tot : ℕ} {acc : List UInt8} {u : ℕ → Option UInt8}
    {Q : ℤ × List UInt8 → FsState → Prop} (hn : off + n ≤ (s.vol sb).size (s.inode ip).inum) (htot : tot ≤ n) (hfuel : n ≤ tot + fuel)
    (hframe : ∀ a ∈ dst, ∀ k, k < a ∨ a + n ≤ k → u k = s.user k)
    (hacc : Takes s.user dst n → acc = (s.vol sb).range (s.inode ip).inum off tot ∧
      u = delivered s.user dst ((s.vol sb).range (s.inode ip).inum off tot))
    (h : ∀ r t, Delivers sb (s.inode ip).inum dst off n s r t → Q r t) :
    (readiFrom sb ip dst n fuel tot (off + tot) acc).wp (fsRules sb p E fits) Q { s with user := u } := by
  have hdone : ∀ {tot : ℕ} {acc : List UInt8} {u : ℕ → Option UInt8}, tot = n →
      (∀ a ∈ dst, ∀ k, k < a ∨ a + n ≤ k → u k = s.user k) →
      (Takes s.user dst n → acc = (s.vol sb).range (s.inode ip).inum off tot ∧
        u = delivered s.user dst ((s.vol sb).range (s.inode ip).inum off tot)) →
      Q ((tot : ℤ), acc) { s with user := u } := by
    rintro tot acc u rfl hframe hacc
    exact h _ _ ⟨rfl, hframe, .inl rfl, fun hv => ⟨by rw [(hacc hv).1], (hacc hv).2⟩⟩
  induction fuel generalizing tot acc u with
  | zero => exact hdone (by omega) hframe hacc
  | succ fuel ih =>
    rw [readiFrom]
    split_ifs with hlt
    · have hsize := ho.ok.size_le _ ho.alloc
      have hblock : (s.vol sb).block (s.inode ip).inum ((off + tot) / BSIZE) ≠ 0 := ho.ok.block_ne_zero ho.alloc (by omega)
      have ho' : Opened sb ip { s with user := u } := ho.congr rfl rfl
      rw [wp_bind]
      refine bmap_found ho' hheld ?_ hblock ?_
      · unfold BSIZE at *
        omega
      change Prog.wp _ (if (s.vol sb).block (s.inode ip).inum ((off + tot) / BSIZE) = 0 then _ else _) _ _
      rw [if_neg hblock, wp_bind]
      refine bread_spec (fun hmem => ?_) fun _ => ?_
      · rw [hheld] at hmem
        cases hmem
      rw [wp_bind]
      refine data_spec ?_
      -- the chunk that this turn transfers
      obtain ⟨m, hm, hm1, hm2, hm3⟩ := exists_turn off hlt
      have hslice := slice_cache ho.ok ho.alloc hblock hm2
      dsimp only
      rw [← hm]
      change Prog.wp _ (do
        let ok ← eitherCopyout dst tot ((s.cache ((s.vol sb).block (s.inode ip).inum ((off + tot) / BSIZE))).slice m ((off + tot) % BSIZE))
        _) _ _
      rw [hslice, wp_bind]
      refine eitherCopyout_spec fun r u' hu' hr => ?_
      rw [Vol.length_range] at hu' hr
      have hframe' : ∀ a ∈ dst, ∀ k, k < a ∨ a + n ≤ k → u' k = s.user k := by
        intro a ha k hk
        rw [hu' a ha k (by omega)]
        exact hframe a ha k hk
      have hacc' : Takes s.user dst n → r = true ∧ acc ++ (s.vol sb).range (s.inode ip).inum (off + tot) m =
          (s.vol sb).range (s.inode ip).inum off (tot + m) ∧
          u' = delivered s.user dst ((s.vol sb).range (s.inode ip).inum off (tot + m)) := by
        intro hv
        obtain ⟨rfl, rfl⟩ := hacc hv
        rw [Vol.range_append]
        cases dst with
        | none => exact ⟨(hr fun _ ha => by cases ha).1, rfl, (hr fun _ ha => by cases ha).2⟩
        | some a =>
          obtain ⟨hr1, hr2⟩ := hr fun a' ha' k hk => by
            cases ha'
            simp only [delivered, isSome_stores]
            rw [Nat.add_assoc]
            exact hv a rfl (tot + k) (by omega)
          refine ⟨hr1, rfl, ?_⟩
          rw [hr2]
          simp only [delivered, Option.map_some]
          rw [stores_append (by rw [Vol.length_range]; exact fun k hk => hv a rfl k (by omega)), Vol.length_range]
      split_ifs with hr'
      · rw [wp_bind]
        refine brelse_spec rfl ?_
        rw [Nat.add_assoc]
        refine ih hm1 (by omega) hframe' fun hv => ⟨?_, (hacc' hv).2.2⟩
        rw [← (hacc' hv).2.1, ← hslice]
        rfl
      · rw [wp_bind]
        refine brelse_spec rfl (h _ _ ⟨rfl, hframe', .inr rfl, fun hv => absurd (hacc' hv).1 hr'⟩)
    · exact hdone (by omega) hframe hacc

/-- **`readi`** delivers the bytes of a file from `off` on, up to its end. -/
theorem readi_spec {dst : Option ℕ} {off n : ℕ} {Q : ℤ × List UInt8 → FsState → Prop}
    (hbad : (s.vol sb).size (s.inode ip).inum < off ∨ (off + n) % 2 ^ 32 < off → Q (0, []) s)
    (h : off ≤ (s.vol sb).size (s.inode ip).inum → ∀ r t,
      Delivers sb (s.inode ip).inum dst off (min n ((s.vol sb).size (s.inode ip).inum - off)) s r t → Q r t) :
    (readi sb ip dst off n).wp (fsRules sb p E fits) Q s := by
  have hsize : (s.inode ip).d.size.toNat = (s.vol sb).size (s.inode ip).inum := by rw [Vol.size, ho.inode]
  rw [readi, wp_bind]
  refine fields_spec ?_
  dsimp only
  rw [hsize]
  split_ifs with hb hn
  · exact hbad hb
  · have hmin : (s.vol sb).size (s.inode ip).inum - off = min n ((s.vol sb).size (s.inode ip).inum - off) := by omega
    rw [hmin]
    refine readiFrom_spec ho hheld (by omega) (Nat.zero_le _) (by omega) (fun _ _ _ _ => rfl)
      (fun _ => ⟨rfl, by cases dst <;> rfl⟩) (h (by omega))
  · have hmin : min n ((s.vol sb).size (s.inode ip).inum - off) = n := by omega
    rw [hmin] at h
    refine readiFrom_spec ho hheld (by omega) (Nat.zero_le _) (by omega) (fun _ _ _ _ => rfl)
      (fun _ => ⟨rfl, by cases dst <;> rfl⟩) (h (by omega))

end Read

/-! ### `writei` -/

/-- Byte `k` of a source. -/
def Src.byte (src : Src) (u : ℕ → Option UInt8) (k : ℕ) : UInt8 :=
  match src with
  | .kernel bs => bs.getD k 0
  | .user a => (u (a + k)).getD 0

/-- A source in the kernel has its `n` bytes. -/
def Src.Has (src : Src) (n : ℕ) : Prop := ∀ bs, src = .kernel bs → n ≤ bs.length

/-- Byte `k` of the source is not mapped. -/
def Src.Ends (src : Src) (u : ℕ → Option UInt8) (k : ℕ) : Prop := ∃ a, src = .user a ∧ u (a + k) = none

/-- The blocks of a file that `tot` bytes from `off` on are in. -/
def spans (off tot : ℕ) : ℕ := if tot = 0 then 0 else (off + tot + (BSIZE - 1)) / BSIZE - off / BSIZE

theorem spans_mono {m n : ℕ} (off : ℕ) (h : m ≤ n) : spans off m ≤ spans off n := by
  unfold spans BSIZE
  split_ifs <;> omega

/-- A turn of the loop of `writei` is for one block. -/
theorem spans_turn {off tot m : ℕ} (h : tot = 0 ∨ (off + tot) % BSIZE = 0) (hm : 0 < m) (hm' : (off + tot) % BSIZE + m ≤ BSIZE) :
    spans off (tot + m) = spans off tot + 1 := by
  unfold spans BSIZE at *
  split_ifs <;> omega

/-- The blocks that a write logs for blocks of the file: `news` are allocated for it, and `olds` were there. -/
def bodyLog (sb : Superblock) (news olds : List ℕ) : List ℕ := (news.flatMap fun b => [sb.bblock b, b]) ++ olds

/-- **What a write logs**: the indirect block and the blocks of the file, with the parts of the bitmap. A first block that
is not written from its beginning on was there. -/
def Budget (sb : Superblock) (ip : InodeNo) (off n : ℕ) (s : FsState) (L : List ℕ) : Prop :=
  ∃ ind news olds, ((s.inode ip).d.addr NDIRECT ≠ 0 → ind = (s.inode ip).d.addr NDIRECT) ∧ (∀ b ∈ ind :: news, b < sb.size) ∧
    news.length + olds.length ≤ spans off n ∧ (off % BSIZE ≠ 0 → news.length ≤ spans off n - 1) ∧
    L ⊆ s.logged ++ ([sb.bblock ind, ind] ++ bodyLog sb news olds)

/-- What has been logged when `tot` bytes are written. -/
def Spent (sb : Superblock) (ip : InodeNo) (off tot : ℕ) (s t : FsState) : Prop :=
  ∃ news olds, (∀ b ∈ news, b < sb.size) ∧ news.length + olds.length ≤ spans off tot ∧ (off % BSIZE ≠ 0 → news.length ≤ spans off tot - 1) ∧
    t.logged ⊆ s.logged ++ ((if (t.inode ip).d.addr NDIRECT = 0 then []
      else [sb.bblock ((t.inode ip).d.addr NDIRECT), (t.inode ip).d.addr NDIRECT]) ++ bodyLog sb news olds)

/-- What has been done when `tot` bytes are written. -/
structure Writing (sb : Superblock) (ip : InodeNo) (src : Src) (off : ℕ) (s : FsState) (tot : ℕ) (t : FsState) : Prop
    extends Touches ip s t where
  stored : Vol.Stored sb (s.vol sb).Alloc (s.inode ip).inum off tot ((s.vol sb).size (s.inode ip).inum) (src.byte s.user)
    (s.vol sb) (t.vol sb)
  fresh : ∀ j pl, (s.vol sb).Alloc j → (t.vol sb).loc j pl = (s.vol sb).loc j pl ∨ (t.vol sb).loc j pl ∈ t.logged
  disk : ∀ j, sb.IsInum j → t.disk sb j = s.disk sb j

/-- What `writei` has done when its loop ends: `tot` bytes count as written, and `w` are in the file. -/
structure Written (sb : Superblock) (ip : InodeNo) (src : Src) (off n z : ℕ) (s : FsState) (tot w : ℕ) (t : FsState) : Prop
    extends Changes ip s t where
  stored : Vol.Stored sb (s.vol sb).Alloc (s.inode ip).inum off w z (src.byte s.user) (s.vol sb) (t.vol sb)
  fresh : ∀ j pl, (s.vol sb).Alloc j → (t.vol sb).loc j pl = (s.vol sb).loc j pl ∨ (t.vol sb).loc j pl ∈ t.logged
  /-- What is changed and not logged is data of the file. -/
  cache : ∀ b, b ∉ t.logged → t.cache b = s.cache b ∨ w ≠ tot ∧ ∃ m, (t.vol sb).block (s.inode ip).inum m = b ∧ b ≠ 0
  le : tot ≤ w ∧ w ≤ n
  /-- It stops between blocks. -/
  turn : tot < n → tot = 0 ∨ (off + tot) % BSIZE = 0
  /-- It goes on to the end, or there are no more blocks, or no more bytes. -/
  stop : w = n ∧ tot = n ∨ w = tot ∧ Full sb t ∨ src.Ends s.user w
  /-- The bytes that do not count are in one block, and are mapped. -/
  chunk : w ≠ tot → w < tot + min (n - tot) (BSIZE - (off + tot) % BSIZE) ∧ ∀ q, tot ≤ q → q < w → ¬src.Ends s.user q

section Write

variable {sb : Superblock} {p : Slot} {E : Fault → Prop} {fits : List ℕ → Prop} {s t : FsState} {ip : InodeNo} {src : Src}
  {off n tot : ℕ}

theorem mapped_stops {u : ℕ → Option UInt8} {a m : ℕ} (h : (mapped u a m).length < m) : u (a + (mapped u a m).length) = none := by
  induction m generalizing a with
  | zero => omega
  | succ m ih =>
    rw [mapped] at h ⊢
    cases ha : u a with
    | none => simpa using ha
    | some x =>
      rw [ha] at h
      dsimp only at h ⊢
      rw [List.length_cons] at h ⊢
      rw [Nat.add_comm _ 1, ← Nat.add_assoc]
      exact ih (by omega)

theorem eitherCopyin_spec {m : ℕ} {Q : List UInt8 × Bool → FsState → Prop} (hhas : src.Has n) (hm : tot + m ≤ n)
    (h : ∀ bs ok, (∀ q < bs.length, bs.getD q 0 = src.byte s.user (tot + q)) → (ok = true → bs.length = m) →
      (ok = false → bs.length < m ∧ src.Ends s.user (tot + bs.length) ∧ ∀ q < bs.length, ¬src.Ends s.user (tot + q)) →
      Q (bs, ok) s) :
    (eitherCopyin src tot m).wp (fsRules sb p E fits) Q s := by
  cases src with
  | kernel bs =>
    have hlen := hhas bs rfl
    refine h _ _ (fun q hq => ?_) (fun _ => ?_) nofun
    · rw [List.length_take, List.length_drop] at hq
      rw [List.getD_eq_getElem _ _ (by rw [List.length_take, List.length_drop]; omega), List.getElem_take, List.getElem_drop,
        Src.byte, List.getD_eq_getElem]
    · rw [List.length_take, List.length_drop]
      omega
  | user a =>
    refine wp_command nofun (h _ _ (fun q hq => ?_) of_decide_eq_true fun hno => ?_)
    · have := getD_mapped hq
      rw [Src.byte, ← Nat.add_assoc, this, Option.getD_some]
    · have hlt := lt_of_le_of_ne (length_mapped_le s.user (a + tot) m) (of_decide_eq_false hno)
      refine ⟨hlt, ⟨a, rfl, ?_⟩, ?_⟩
      · rw [← Nat.add_assoc]
        exact mapped_stops hlt
      · rintro q hq ⟨a', ha', hnone⟩
        cases ha'
        rw [← Nat.add_assoc, getD_mapped hq] at hnone
        cases hnone

theorem Writing.refl (hok : (s.vol sb).Ok sb) : Writing sb ip src off s 0 s :=
  ⟨.refl ip s, .refl hok, fun _ _ _ => .inl rfl, fun _ _ => rfl⟩

theorem Changes.opened {w z : ℕ} {f : ℕ → UInt8} (h : Changes ip s t)
    (hst : Vol.Stored sb (s.vol sb).Alloc (s.inode ip).inum off w z f (s.vol sb) (t.vol sb)) (ho : Opened sb ip s) :
    Opened sb ip t where
  table := h.table ho.table
  ref := by
    rw [h.ref]
    exact ho.ref
  valid := by
    rw [h.valid]
    exact ho.valid
  ok := by
    rw [Vol.Ok, hst.alloc_eq]
    exact hst.ok
  alloc := by
    rw [hst.alloc_eq, h.inum]
    exact ho.alloc

theorem Writing.opened (h : Writing sb ip src off s tot t) (ho : Opened sb ip s) : Opened sb ip t := h.toChanges.opened h.stored ho

theorem Written.opened {w z : ℕ} (h : Written sb ip src off n z s tot w t) (ho : Opened sb ip s) : Opened sb ip t :=
  h.toChanges.opened h.stored ho

theorem Writing.extend {u : FsState} (h : Writing sb ip src off s tot t) (ho : Opened sb ip s) (he : Extends sb ip t u) :
    Writing sb ip src off s tot u where
  toTouches := h.toTouches.trans he.touches
  stored := by
    have hg := he.grown
    rw [h.stored.alloc_eq, h.inum] at hg
    exact h.stored.grow ho.alloc hg
  fresh j pl hj := by
    rcases he.fresh j pl (by rw [h.stored.alloc_eq]; exact hj) with he' | hmem
    · rcases h.fresh j pl hj with hs | hmem
      · exact .inl (he'.trans hs)
      · exact .inr (he' ▸ he.touches.logged hmem)
    · exact .inr hmem
  disk j hj := (he.disk j hj).trans (h.disk j hj)

section Turn

variable {r : ℕ} {bs : List UInt8} (hsb : sb.Ok) (ho : Opened sb ip s) (h : Writing sb ip src off s tot t)
  (hr : r ≠ 0) (hblock : (t.vol sb).block (s.inode ip).inum ((off + tot) / BSIZE) = r)
  (hm : (off + tot) % BSIZE + bs.length ≤ BSIZE) (hbs : ∀ q < bs.length, bs.getD q 0 = src.byte s.user (tot + q))

include hsb ho h hr hblock

omit hsb in
theorem Writing.nmeta_le : sb.nmeta ≤ r := by
  have := (h.stored.ok.own _ (filePlace ((off + tot) / BSIZE)) ho.alloc (by rw [← Vol.block, hblock]; exact hr)).1
  rwa [← Vol.block, hblock] at this

include hm hbs

theorem Writing.stored_copy : Vol.Stored sb (s.vol sb).Alloc (s.inode ip).inum off (tot + bs.length)
    ((s.vol sb).size (s.inode ip).inum) (src.byte s.user) (s.vol sb)
    ((t.write r (copy ((off + tot) % BSIZE) bs (t.cache r))).vol sb) := by
  have hge := h.nmeta_le ho hr hblock
  have hcache : t.cache r = (t.vol sb).blk r := by simp only [FsState.vol, if_pos hge]
  rw [vol_write_data hsb hge, hcache, ← hblock]
  exact h.stored.setData ho.alloc (by rw [hblock]; exact hr) hm hbs

theorem Writing.write : Writing sb ip src off s (tot + bs.length) (t.write r (copy ((off + tot) % BSIZE) bs (t.cache r))) where
  toTouches := h.toTouches.write _ _
  stored := h.stored_copy hsb ho hr hblock hm hbs
  fresh j pl hj := by
    have hge := h.nmeta_le ho hr hblock
    have hloc : ((t.write r (copy ((off + tot) % BSIZE) bs (t.cache r))).vol sb).loc j pl = (t.vol sb).loc j pl := by
      rw [vol_write_data hsb hge, ← hblock]
      exact Vol.loc_setData h.stored.ok ho.alloc hj
    rw [hloc]
    exact (h.fresh j pl hj).imp id fun hmem => List.mem_insert_of_mem hmem
  disk j hj := by
    rw [disk_write_data hsb (h.nmeta_le ho hr hblock) hj, h.disk j hj]

omit hm hbs in
theorem Writing.disk_torn {d : Block} {j : ℕ} (hj : sb.IsInum j) :
    ({ t with cache := update t.cache r d } : FsState).disk sb j = t.disk sb j :=
  disk_write_data hsb (h.nmeta_le ho hr hblock) hj

omit hm in
/-- The turn that fails in the middle of its bytes: they are in the block, which is not logged. -/
theorem Writing.torn (htot : tot ≤ n) (hturn : tot < n → tot = 0 ∨ (off + tot) % BSIZE = 0) (hlen : bs.length < min (n - tot) (BSIZE - (off + tot) % BSIZE))
    (hends : src.Ends s.user (tot + bs.length)) (hin : ∀ q < bs.length, ¬src.Ends s.user (tot + q)) :
    Written sb ip src off n ((s.vol sb).size (s.inode ip).inum) s tot (tot + bs.length)
      { t with cache := update t.cache r (copy ((off + tot) % BSIZE) bs (t.cache r)) } := by
  have hge := h.nmeta_le ho hr hblock
  -- the volume is that of a state with the block logged
  have hvol : ({ t with cache := update t.cache r (copy ((off + tot) % BSIZE) bs (t.cache r)) } : FsState).vol sb =
      (t.write r (copy ((off + tot) % BSIZE) bs (t.cache r))).vol sb := vol_congr rfl rfl
  have hloc : ∀ j pl, (s.vol sb).Alloc j →
      ((t.write r (copy ((off + tot) % BSIZE) bs (t.cache r))).vol sb).loc j pl = (t.vol sb).loc j pl := by
    intro j pl hj
    rw [vol_write_data hsb hge, ← hblock]
    exact Vol.loc_setData h.stored.ok ho.alloc hj
  constructor
  case toChanges =>
    constructor
    · conv_lhs => rw [h.eq]
    · exact h.logged
  case stored =>
    rw [hvol]
    exact h.stored_copy hsb ho hr hblock (by omega) hbs
  case fresh =>
    intro j pl hj
    rw [hvol, hloc j pl hj]
    exact h.fresh j pl hj
  case cache =>
    intro b hb
    by_cases hbr : b = r
    · by_cases hz : bs.length = 0
      · left
        have hcopy : copy ((off + tot) % BSIZE) bs (t.cache r) = t.cache r := by
          funext k
          rw [copy, if_neg (by omega)]
        change update t.cache r (copy ((off + tot) % BSIZE) bs (t.cache r)) b = s.cache b
        rw [hcopy, update_eq_self]
        exact h.cache b hb
      · refine .inr ⟨by omega, (off + tot) / BSIZE, ?_, hbr ▸ hr⟩
        rw [hvol, Vol.block, hloc _ _ ho.alloc, ← Vol.block, hblock, hbr]
    · refine .inl (Eq.trans ?_ (h.cache b hb))
      exact update_of_ne hbr _ _
  case le => omega
  case turn => exact hturn
  case stop => exact .inr (.inr hends)
  case chunk =>
    intro _
    refine ⟨by omega, fun q h1 h2 => ?_⟩
    obtain ⟨q', rfl⟩ := Nat.exists_eq_add_of_le h1
    exact hin q' (by omega)

end Turn

/-! ### What `writei` logs -/

theorem mem_bodyLog {news olds : List ℕ} {c : ℕ} :
    c ∈ bodyLog sb news olds ↔ (∃ b ∈ news, c = sb.bblock b ∨ c = b) ∨ c ∈ olds := by
  simp [bodyLog, List.mem_flatMap]

theorem bodyLog_mono {news news' olds olds' : List ℕ} (hn : news ⊆ news') (ho : olds ⊆ olds') :
    bodyLog sb news olds ⊆ bodyLog sb news' olds' := by
  intro c hc
  rw [mem_bodyLog] at hc ⊢
  exact hc.imp (fun ⟨b, hb, hc⟩ => ⟨b, hn hb, hc⟩) (@ho c)

theorem subset_parts {l a i i' d d' : List ℕ} (h : l ⊆ a ++ (i ++ d)) (hi : i ⊆ i') (hd : d ⊆ d') : l ⊆ a ++ (i' ++ d') := by
  intro c hc
  have hc := h hc
  simp only [List.mem_append] at hc ⊢
  exact hc.imp id (Or.imp (@hi c) (@hd c))

theorem Spent.refl : Spent sb ip off 0 s s := ⟨[], [], nofun, Nat.zero_le _, fun _ => Nat.zero_le _, List.subset_append_left _ _⟩

section Spent

variable {m r : ℕ} {t' : FsState} (ho : Opened sb ip s) (hoff : off ≤ (s.vol sb).size (s.inode ip).inum)
  (hw : Writing sb ip src off s tot t) (hs : Spent sb ip off tot s t)
  (hturn : tot = 0 ∨ (off + tot) % BSIZE = 0) (hm : 0 < m) (hm1 : tot + m ≤ n) (hm2 : (off + tot) % BSIZE + m ≤ BSIZE)

include ho hw

theorem Writing.addr (h : (s.inode ip).d.addr NDIRECT ≠ 0) : (t.inode ip).d.addr NDIRECT = (s.inode ip).d.addr NDIRECT := by
  have hl := hw.stored.loc _ (.addr NDIRECT) ho.alloc (by rw [ho.loc_addr]; exact h)
  have hl' := (hw.opened ho).loc_addr NDIRECT
  rw [hw.inum] at hl'
  rwa [hl', ho.loc_addr] at hl

include hoff

/-- The first block was there, if it is not written from its beginning on. -/
theorem Writing.new_block (h0 : (t.vol sb).block (s.inode ip).inum ((off + tot) / BSIZE) = 0) : tot ≠ 0 ∨ off % BSIZE = 0 := by
  by_contra hno
  push Not at hno
  obtain ⟨rfl, hmod⟩ := hno
  rw [Nat.add_zero] at h0
  have hfull := ho.ok.full _ (off / BSIZE) ho.alloc (by unfold BSIZE at *; omega)
  rw [Vol.block, hw.stored.loc _ _ ho.alloc hfull] at h0
  exact hfull h0

include hs hturn hm hm2

include hm1 in
theorem Spent.budget_map (h0 : (t.vol sb).block (s.inode ip).inum ((off + tot) / BSIZE) = 0) {ind b bn : ℕ}
    (hi : ind < sb.size) (hb : b < sb.size) (hind : (t.inode ip).d.addr NDIRECT ≠ 0 → ind = (t.inode ip).d.addr NDIRECT) :
    Budget sb ip off n s (t.logged ++ mapLog sb bn ind b) := by
  obtain ⟨news, olds, hnews, hlen, hfirst, hsub⟩ := hs
  have hnew := hw.new_block ho hoff h0
  have hspan := spans_turn hturn hm hm2
  have hmono := spans_mono off hm1
  have hpos : tot ≠ 0 → 0 < spans off tot := fun htot => by
    unfold spans BSIZE
    rw [if_neg htot]
    omega
  refine ⟨ind, b :: news, olds, fun h => ?_, ?_, ?_, fun h => ?_, ?_⟩
  · have := hw.addr ho h
    rw [← this]
    exact hind (this.trans_ne h)
  · simp only [List.forall_mem_cons]
    exact ⟨hi, hb, hnews⟩
  · rw [List.length_cons]
    omega
  · have := hfirst h
    rcases hnew with htot | hz
    · have := hpos htot
      rw [List.length_cons]
      omega
    · exact absurd hz h
  · refine List.append_subset.mpr ⟨subset_parts hsub ?_ (bodyLog_mono (List.subset_cons_self _ _) fun _ => id), ?_⟩
    · split_ifs with h
      · exact List.nil_subset _
      · rw [hind h]
        exact fun _ => id
    · refine fun c hc => List.mem_append_right _ ?_
      have hb : ∀ c, c = sb.bblock b ∨ c = b → c ∈ bodyLog sb (b :: news) olds := fun c hc =>
        mem_bodyLog.mpr (.inl ⟨b, List.mem_cons_self, hc⟩)
      unfold mapLog at hc
      split_ifs at hc
      · simp only [List.mem_cons, List.not_mem_nil, or_false] at hc
        exact List.mem_append_right _ (hb c hc)
      · simp only [List.mem_cons, List.not_mem_nil, or_false] at hc
        rcases hc with rfl | rfl | hc
        · simp
        · simp
        · exact List.mem_append_right _ (hb c hc)

/-- What has been logged after a turn. -/
theorem Spent.turn (hmap : Mapped sb ip ((off + tot) / BSIZE) t r t') (hr : r ≠ 0) {d : Block} :
    Spent sb ip off (tot + m) s (t'.write r d) := by
  obtain ⟨news, olds, hnews, hlen, hfirst, hsub⟩ := hs
  have hspan := spans_turn hturn hm hm2
  have hpos : tot ≠ 0 → 0 < spans off tot := fun htot => by
    unfold spans BSIZE
    rw [if_neg htot]
    omega
  rcases hmap.logged with rfl | ⟨h0, hlog⟩
  · refine ⟨news, r :: olds, hnews, ?_, fun h => ?_, ?_⟩
    · rw [List.length_cons]
      omega
    · have := hfirst h
      omega
    · intro c hc
      rcases List.mem_insert_iff.mp hc with rfl | hc
      · exact List.mem_append_right _ (List.mem_append_right _ (mem_bodyLog.mpr (.inr List.mem_cons_self)))
      · exact subset_parts hsub (fun _ => id) (bodyLog_mono (fun _ => id) (List.subset_cons_self _ _)) hc
  · have hinum := hw.inum ip
    rw [hinum] at h0
    have hnew := hw.new_block ho hoff h0
    have ho' := hw.opened ho
    have ho'' := hmap.toExtends.opened ho'
    -- the indirect block stays, and there is one if the block is found through it
    have haddr := hmap.toExtends.addr ho'
    have hind : ¬(off + tot) / BSIZE < NDIRECT → (t'.inode ip).d.addr NDIRECT ≠ 0 := by
      intro hbn h
      have hb := hmap.block hr
      rw [Vol.block, filePlace, if_neg hbn, ← hmap.touches.inum, ho''.loc_entry_zero h] at hb
      exact hr hb.symm
    refine ⟨r :: news, olds, List.forall_mem_cons.mpr ⟨hmap.lt, hnews⟩, ?_, fun h => ?_, ?_⟩
    · rw [List.length_cons]
      omega
    · have := hfirst h
      rcases hnew with htot | hz
      · have := hpos htot
        rw [List.length_cons]
        omega
      · exact absurd hz h
    · have hb : ∀ c, c = sb.bblock r ∨ c = r → c ∈ bodyLog sb (r :: news) olds := fun c hc =>
        mem_bodyLog.mpr (.inl ⟨r, List.mem_cons_self, hc⟩)
      intro c hc
      rcases List.mem_insert_iff.mp hc with rfl | hc
      · exact List.mem_append_right _ (List.mem_append_right _ (hb c (.inr rfl)))
      · rcases List.mem_append.mp (hlog hc) with hc | hc
        · refine subset_parts hsub (fun c hc => ?_) (bodyLog_mono (List.subset_cons_self _ _) fun _ => id) hc
          split_ifs at hc with h
          · cases hc
          · change c ∈ if (t'.inode ip).d.addr NDIRECT = 0 then []
              else [sb.bblock ((t'.inode ip).d.addr NDIRECT), (t'.inode ip).d.addr NDIRECT]
            rwa [haddr h, if_neg h]
        · refine List.mem_append_right _ ?_
          unfold mapLog at hc
          split_ifs at hc with hbn
          · simp only [List.mem_cons, List.not_mem_nil, or_false] at hc
            exact List.mem_append_right _ (hb c hc)
          · simp only [List.mem_cons, List.not_mem_nil, or_false] at hc
            change c ∈ (if (t'.inode ip).d.addr NDIRECT = 0 then [] else _) ++ _
            rw [if_neg (hind hbn)]
            rcases hc with rfl | rfl | hc
            · simp
            · simp
            · exact List.mem_append_right _ (hb c hc)

end Spent

/-- What has been logged is within what a write may log. -/
theorem Spent.budget (hsb : sb.Ok) (ho : Opened sb ip s) (hw : Writing sb ip src off s tot t) (hs : Spent sb ip off tot s t) (htot : tot ≤ n) :
    Budget sb ip off n s t.logged := by
  obtain ⟨news, olds, hnews, hlen, hfirst, hsub⟩ := hs
  have hmono := spans_mono off htot
  refine ⟨(t.inode ip).d.addr NDIRECT, news, olds, hw.addr ho,
    List.forall_mem_cons.mpr ⟨(hw.opened ho).addr_lt_size hsb _, hnews⟩, by omega, fun h => ?_, subset_parts hsub ?_ fun _ => id⟩
  · have := hfirst h
    omega
  · split_ifs
    · exact List.nil_subset _
    · exact fun _ => id

theorem Writing.written (h : Writing sb ip src off s tot t) (htot : tot ≤ n) (hturn : tot < n → tot = 0 ∨ (off + tot) % BSIZE = 0)
    (hstop : tot = n ∨ Full sb t ∨ src.Ends s.user tot) :
    Written sb ip src off n ((s.vol sb).size (s.inode ip).inum) s tot tot t where
  toChanges := h.toChanges
  stored := h.stored
  fresh := h.fresh
  cache b hb := .inl (h.cache b hb)
  le := ⟨le_rfl, htot⟩
  turn := hturn
  stop := by
    rcases hstop with h | h | h
    · exact .inl ⟨h, h⟩
    · exact .inr (.inl ⟨rfl, h⟩)
    · exact .inr (.inr h)
  chunk h := absurd rfl h

section Loop

variable (hsb : sb.Ok) (ho : Opened sb ip s) (hE : ∀ e, E e) (hsh : Shrinks fits) (hhas : src.Has n)
  (hoff : off ≤ (s.vol sb).size (s.inode ip).inum) (hfit : ∀ L, Budget sb ip off n s L → fits L)

include hsb ho hE hsh hhas hoff hfit

/-- **The loop of `writei`**. -/
theorem writeiFrom_spec {fuel : ℕ} {Q : ℕ × ℕ → FsState → Prop} (hw : Writing sb ip src off s tot t) (hs : Spent sb ip off tot s t)
    (htot : tot ≤ n) (hfuel : n ≤ tot + fuel) (hturn : tot < n → tot = 0 ∨ (off + tot) % BSIZE = 0)
    (h : ∀ tot w t, Written sb ip src off n ((s.vol sb).size (s.inode ip).inum) s tot w t →
      (∀ j, sb.IsInum j → t.disk sb j = s.disk sb j) → Budget sb ip off n s t.logged → Q (tot, off + tot) t) :
    (writeiFrom sb ip src n fuel tot (off + tot)).wp (fsRules sb p E fits) Q t := by
  induction fuel generalizing tot t with
  | zero =>
    have hdone : tot = n := by omega
    exact h tot tot t (hw.written htot hturn (.inl hdone)) hw.disk (hs.budget hsb ho hw htot)
  | succ fuel ih =>
    rw [writeiFrom]
    split_ifs with hlt
    · have hturn' := hturn hlt
      have ho' := hw.opened ho
      have hinum := hw.inum ip
      -- the chunk of this turn
      obtain ⟨m, hm, hm1, hm2, hm3⟩ := exists_turn off hlt
      rw [wp_bind]
      refine bmap_spec hE hsh hsb ho' (fun h0 ind hi b hb hind => ?_) fun r t' hmap => ?_
      · rw [hinum] at h0
        exact hfit _ (Spent.budget_map ho hoff hw hs hturn' hm3 hm1 hm2 h0 hi hb hind)
      have hw' := hw.extend ho hmap.toExtends
      have hbudget : Budget sb ip off n s t'.logged := by
        rcases hmap.logged with rfl | ⟨h0, hlog⟩
        · exact hs.budget hsb ho hw htot
        · rw [hinum] at h0
          obtain ⟨ind, news, olds, h1, h2, h3, h4, h5⟩ := Spent.budget_map ho hoff hw hs hturn' hm3 hm1 hm2 h0
            ((hmap.toExtends.opened ho').addr_lt_size hsb NDIRECT) hmap.lt (hmap.toExtends.addr ho')
          exact ⟨ind, news, olds, h1, h2, h3, h4, List.Subset.trans hlog h5⟩
      dsimp only
      split_ifs with hr
      · exact h tot tot t' (hw'.written htot hturn (.inr (.inl (hmap.full hr)))) hw'.disk hbudget
      have hblock := hmap.block hr
      rw [hinum] at hblock
      rw [wp_bind]
      refine bread_spec (fun _ => hE _) fun _ => ?_
      rw [wp_bind, ← hm]
      refine eitherCopyin_spec hhas hm1 fun bs ok hbs hok hno => ?_
      have huser : t'.user = s.user := hw'.user
      dsimp only at hbs hno ⊢
      rw [huser] at hbs hno
      rw [wp_bind]
      refine data_spec ?_
      rw [wp_bind]
      refine setData_spec ?_
      split_ifs with hok'
      · have hlen := hok hok'
        have hfits : (off + tot) % BSIZE + bs.length ≤ BSIZE := by omega
        have hnext := hw'.write hsb ho hr hblock hfits hbs
        have hspent : Spent sb ip off (tot + m) s (t'.write r (copy ((off + tot) % BSIZE) bs (t'.cache r))) :=
          hs.turn ho hoff hw hturn' hm3 hm2 hmap hr
        rw [hlen] at hnext
        rw [wp_bind]
        refine logWrite_spec hE (hfit _ (hspent.budget hsb ho hnext hm1)) ?_
        rw [wp_bind]
        refine brelse_spec rfl ?_
        rw [Nat.add_assoc]
        refine ih hnext hspent hm1 (by omega) fun hlt' => .inr ?_
        have : m = BSIZE - (off + tot) % BSIZE := by omega
        unfold BSIZE at *
        omega
      · obtain ⟨hlen, hends, hin⟩ := hno (Bool.eq_false_of_not_eq_true hok')
        rw [wp_bind]
        refine brelse_spec rfl (h tot (tot + bs.length) _ ?_ ?_ hbudget)
        · exact hw'.torn hsb ho hr hblock hbs htot hturn (hm ▸ hlen) hends hin
        · exact fun j hj => (hw'.disk_torn hsb ho hr hblock hj).trans (hw'.disk j hj)
    · exact h tot tot t (hw.written htot hturn (.inl (by omega))) hw.disk (hs.budget hsb ho hw htot)

end Loop

section End

variable {w : ℕ} (hsb : sb.Ok) (ho : Opened sb ip s)

include ho

theorem Written.setSize (h : Written sb ip src off n ((s.vol sb).size (s.inode ip).inum) s tot w t)
    (hoff : off ≤ (s.vol sb).size (s.inode ip).inum) (hmax : off + n ≤ MAXFILE * BSIZE)
    (hlt : (s.vol sb).size (s.inode ip).inum < off + tot) :
    Written sb ip src off n (max ((s.vol sb).size (s.inode ip).inum) (off + tot)) s tot w
      (t.setInode ip { t.inode ip with d := { (t.inode ip).d with size := UInt32.ofNat (off + tot) } }) := by
  have ho' := h.opened ho
  have hin : (t.vol sb).inode (s.inode ip).inum = (t.inode ip).d := by
    rw [← h.inum ip]
    exact ho'.inode
  have hvol : (t.setInode ip { t.inode ip with d := { (t.inode ip).d with size := UInt32.ofNat (off + tot) } }).vol sb =
      (t.vol sb).setInode (s.inode ip).inum { (t.vol sb).inode (s.inode ip).inum with size := UInt32.ofNat (off + tot) } := by
    rw [vol_setFields ho'.table ho'.ref ho'.valid, h.inum, hin]
  have haddr : ({ (t.vol sb).inode (s.inode ip).inum with size := UInt32.ofNat (off + tot) } : Dinode).addrs =
    ((t.vol sb).inode (s.inode ip).inum).addrs := rfl
  have hle := h.le
  constructor
  case toChanges => exact h.toChanges.setFields _
  case stored =>
    rw [hvol, max_eq_right hlt.le]
    exact h.stored.setSize ho.ok ho.alloc hoff hle.1 (by omega)
  case fresh =>
    intro j pl hj
    rw [hvol, Vol.loc_setFields haddr]
    exact h.fresh j pl hj
  case cache =>
    intro b hb
    refine (h.cache b hb).imp id ?_
    rintro ⟨hne, m, hm⟩
    refine ⟨hne, m, ?_⟩
    rw [hvol, Vol.block, Vol.loc_setFields haddr]
    exact hm
  case le => exact h.le
  case turn => exact h.turn
  case stop =>
    refine h.stop.imp id fun hstop => hstop.imp ?_ id
    rintro ⟨he, hfull⟩
    refine ⟨he, fun b hb => ?_⟩
    rw [hvol]
    exact hfull b hb
  case chunk => exact h.chunk

include hsb

theorem Written.iupdate {z : ℕ} (h : Written sb ip src off n z s tot w t) :
    Written sb ip src off n z s tot w (t.write (sb.iblock (t.inode ip).inum)
      (setDinode (t.inode ip).d ((t.inode ip).inum % IPB) (t.cache (sb.iblock (t.inode ip).inum)))) := by
  have ho' := h.opened ho
  have hvol := vol_write_inode hsb ho'.table ho'.ref ho'.valid
  constructor
  case toChanges => exact h.toChanges.write _ _
  case stored =>
    rw [hvol]
    exact h.stored
  case fresh =>
    intro j pl hj
    rw [hvol]
    exact (h.fresh j pl hj).imp id fun hmem => List.mem_insert_of_mem hmem
  case cache =>
    intro b hb
    simp only [FsState.logged_write, List.mem_insert_iff, not_or] at hb
    rw [hvol, FsState.cache_write, update_of_ne hb.1]
    exact h.cache b hb.2
  case le => exact h.le
  case turn => exact h.turn
  case stop =>
    refine h.stop.imp id fun hstop => hstop.imp ?_ id
    rintro ⟨he, hfull⟩
    refine ⟨he, fun b hb => ?_⟩
    rw [hvol]
    exact hfull b hb
  case chunk => exact h.chunk

end End

/-- **`writei`** refuses, or stores bytes of its source in the file, raises its size to what counts, and writes the inode. -/
theorem writei_spec {Q : ℤ → FsState → Prop} (hsb : sb.Ok) (ho : Opened sb ip s) (hE : ∀ e, E e) (hsh : Shrinks fits)
    (hhas : src.Has n) (hn : n < 2 ^ 32)
    (hfit : off ≤ (s.vol sb).size (s.inode ip).inum → ∀ L, Budget sb ip off n s L → fits (L.insert (sb.iblock (s.inode ip).inum)))
    (hbad : Q (-1) s)
    (h : off ≤ (s.vol sb).size (s.inode ip).inum → off + n ≤ MAXFILE * BSIZE → ∀ (tot w : ℕ) t L,
      Written sb ip src off n (max ((s.vol sb).size (s.inode ip).inum) (off + tot)) s tot w t →
      (∀ j, sb.IsInum j → t.disk sb j = if j = (s.inode ip).inum then (t.inode ip).d else s.disk sb j) →
      Budget sb ip off n s L → t.logged = L.insert (sb.iblock (s.inode ip).inum) → Q tot t) :
    (writei sb ip src off n).wp (fsRules sb p E fits) Q s := by
  have hsize : (s.inode ip).d.size.toNat = (s.vol sb).size (s.inode ip).inum := by rw [Vol.size, ho.inode]
  have hle := ho.ok.size_le _ ho.alloc
  rw [writei, wp_bind]
  refine fields_spec ?_
  rw [hsize]
  split_ifs with hb hb'
  · exact hbad
  · exact hbad
  rw [not_or, not_lt, not_lt] at hb
  have hmax : off + n ≤ MAXFILE * BSIZE := by
    have hsmall : MAXFILE * BSIZE < 2 ^ 32 := by decide
    omega
  rw [wp_bind]
  refine writeiFrom_spec hsb ho hE hsh hhas hb.1 (fun L hL => hsh _ _ (fun c hc => List.mem_insert_of_mem hc) (hfit hb.1 L hL))
    (Writing.refl ho.ok) Spent.refl (Nat.zero_le n) (by omega) (fun _ => .inl rfl) fun tot w t hw hdisk hbudget => ?_
  have ho' := hw.opened ho
  have hinum := hw.inum ip
  have hsize' : (t.inode ip).d.size.toNat = (s.vol sb).size (s.inode ip).inum := by
    rw [← hw.stored.size, Vol.size, ← hinum, ho'.inode]
  -- the end of `writei`, from the state with the new size
  have hend : ∀ t', Written sb ip src off n (max ((s.vol sb).size (s.inode ip).inum) (off + tot)) s tot w t' →
      t'.logged = t.logged → (∀ j, t'.disk sb j = t.disk sb j) →
      (do iupdate sb ip; return (tot : ℤ) : Code ℤ).wp (fsRules sb p E fits) Q t' := by
    intro t' hw' hlogged hdisk'
    have hinum' := hw'.inum ip
    rw [wp_bind]
    refine iupdate_spec hE ?_ (h hb.1 hmax tot w _ t.logged (hw'.iupdate hsb ho) (fun j hj => ?_) hbudget ?_)
    · rw [hinum', hlogged]
      exact hfit hb.1 _ hbudget
    · rw [disk_write_iblock, hinum', hdisk', hdisk j hj]
      rfl
    · rw [FsState.logged_write, hinum', hlogged]
  rw [wp_bind]
  refine fields_spec ?_
  dsimp only
  rw [hsize']
  split_ifs with hlt
  · rw [wp_bind]
    exact setFields_spec (hend _ (hw.setSize ho hb.1 hmax hlt) rfl fun _ => rfl)
  · refine hend t ?_ rfl fun _ => rfl
    rw [max_eq_left (not_lt.mp hlt)]
    exact hw

/-! ### Files as arrays of bytes -/

/-- Where the source goes from mapped to unmapped memory, a block of the file begins. -/
def Src.Whole (src : Src) (u : ℕ → Option UInt8) (off n : ℕ) : Prop :=
  ∀ k < n, src.Ends u k → k ≠ 0 → ¬src.Ends u (k - 1) → (off + k) % BSIZE = 0

theorem Written.whole {z w : ℕ} (h : Written sb ip src off n z s tot w t) (hwhole : src.Whole s.user off n) : w = tot := by
  by_contra hne
  obtain ⟨hlt, hin⟩ := h.chunk hne
  have hle := h.le
  have hends : src.Ends s.user w := by
    rcases h.stop with ⟨h1, h2⟩ | ⟨h1, -⟩ | h1
    · exact absurd (h1.trans h2.symm) hne
    · exact absurd h1 hne
    · exact h1
  have hmod := hwhole w (by omega) hends (by omega) (hin (w - 1) (by omega) (by omega))
  unfold BSIZE at *
  omega

/-- **A chunk of `filewrite` fits its reservation**, at any offset, and if each block is allocated from another part of the
bitmap: `writei` of it logs no more blocks than `begin_op` has set aside. -/
theorem chunk_fits (hsb : sb.Ok) (ho : Opened sb ip s) (src : Src) (off n i : ℕ) (hhas : src.Has (chunk n i)) :
    Post (fun _ => True) (fun _ t => ∃ L : List ℕ, L.length ≤ MAXOPBLOCKS ∧ t.logged ⊆ s.logged ++ L)
      ((writei sb ip src off (chunk n i)).run (execCmd sb p) s) := by
  have hmax : chunk n i ≤ 3072 := by
    unfold chunk writeMax MAXOPBLOCKS BSIZE
    split_ifs <;> omega
  refine post_of_any (writei_spec hsb ho (fun _ => trivial) (fun _ _ _ _ => trivial) hhas (by omega) (fun _ _ _ => trivial)
    ⟨[], Nat.zero_le _, by simp⟩ fun _ _ tot w t M _ _ hM hlog => ?_)
  obtain ⟨ind, news, olds, -, -, hlen, hfirst, hsub⟩ := hM
  refine ⟨sb.iblock (s.inode ip).inum :: ([sb.bblock ind, ind] ++ bodyLog sb news olds), ?_, ?_⟩
  · -- four blocks of the file only if the first one is written from its middle on, and then that one was there
    have hbody : (bodyLog sb news olds).length = 2 * news.length + olds.length := by
      simp [bodyLog, List.length_flatMap, Nat.mul_comm]
    have hspan : spans off (chunk n i) ≤ 3 ∨ off % BSIZE ≠ 0 ∧ spans off (chunk n i) ≤ 4 := by
      unfold spans BSIZE
      split_ifs <;> omega
    rw [List.length_cons, List.length_append, hbody]
    unfold MAXOPBLOCKS
    simp only [List.length_cons, List.length_nil]
    rcases hspan with h | ⟨h, h'⟩
    · omega
    · have := hfirst h
      omega
  · intro c hc
    rw [hlog, List.mem_insert_iff] at hc
    rcases hc with rfl | hc
    · simp
    · have := hsub hc
      simp only [List.mem_append, List.mem_cons] at this ⊢
      tauto

end Write

/-! ### A small disk -/

/-- A volume whose files have direct blocks only is in order if a search over its inodes says so. -/
theorem Vol.ok_of_direct {sb : Superblock} {V : Vol} {N : ℕ} (owner : ℕ → ℕ × ℕ) (hN : ∀ i, N ≤ i → (V.inode i).type = 0)
    (hmeta : ∀ b < sb.nmeta, V.used b = true)
    (hdir : ∀ i < N, (V.inode i).type ≠ 0 → (V.inode i).addr NDIRECT = 0 ∧ V.size i ≤ NDIRECT * BSIZE)
    (hown : ∀ i < N, ∀ n < NDIRECT, (V.inode i).type ≠ 0 → (V.inode i).addr n ≠ 0 →
      sb.nmeta ≤ (V.inode i).addr n ∧ V.used ((V.inode i).addr n) = true)
    (howner : ∀ i < N, ∀ n < NDIRECT, (V.inode i).type ≠ 0 → (V.inode i).addr n ≠ 0 → owner ((V.inode i).addr n) = (i, n))
    (hfull : ∀ i < N, ∀ n < NDIRECT, (V.inode i).type ≠ 0 → n * BSIZE < V.size i → (V.inode i).addr n ≠ 0) : V.Ok sb := by
  have hlt : ∀ i, V.Alloc i → i < N := fun i hi => by
    by_contra hge
    exact hi (hN i (not_lt.mp hge))
  -- only the direct addresses are there
  have hloc : ∀ i pl, V.Alloc i → V.loc i pl ≠ 0 → ∃ n < NDIRECT, pl = .addr n ∧ V.loc i pl = (V.inode i).addr n := by
    intro i pl hi hl
    have hind := (hdir i (hlt i hi) hi).1
    cases pl with
    | addr n =>
      refine ⟨n, ?_, rfl, rfl⟩
      by_contra hn
      rcases Nat.eq_or_lt_of_le (not_lt.mp hn) with rfl | hn
      · exact hl hind
      · exact hl (dif_neg (by omega))
    | entry k => exact absurd (if_pos hind) hl
  constructor
  case meta_used => exact hmeta
  case own =>
    intro i pl hi hl
    obtain ⟨n, hn, -, he⟩ := hloc i pl hi hl
    rw [he] at hl ⊢
    exact hown i (hlt i hi) n hn hi hl
  case inj =>
    intro i j pl pl' hi hj hl he
    obtain ⟨n, hn, rfl, h1⟩ := hloc i pl hi hl
    obtain ⟨m, hm, rfl, h2⟩ := hloc j pl' hj (he ▸ hl)
    rw [h1] at hl he
    rw [h2] at he
    have hi' := howner i (hlt i hi) n hn hi hl
    rw [he] at hl hi'
    have hij := hi'.symm.trans (howner j (hlt j hj) m hm hj hl)
    exact ⟨congrArg Prod.fst hij, congrArg (fun x => Place.addr x.2) hij⟩
  case size_le =>
    intro i hi
    exact (hdir i (hlt i hi) hi).2.trans (by decide)
  case full =>
    intro i n hi hn
    have hsize := (hdir i (hlt i hi) hi).2
    have hn' : n < NDIRECT := by
      unfold BSIZE at *
      omega
    rw [Vol.block, filePlace, if_pos hn']
    exact hfull i (hlt i hi) n hn' hi hn

def tinySuper : Superblock := ⟨0x10203040, 60, 23, 16, 31, 2, 33, 36⟩

/-- A disk with a root directory and the file `a` in it, of two bytes. -/
def tinyDisk (b : ℕ) : Block :=
  if b = 33 then
    setDinode ⟨T_FILE, 0, 0, 1, 2, fun k => if k = 0 then 38 else 0⟩ 2
      (setDinode ⟨T_DIR, 0, 0, 1, 48, fun k => if k = 0 then 37 else 0⟩ 1 fun _ => 0)
  else if b = 36 then copy 0 [255, 255, 255, 255, 127] fun _ => 0
  else if b = 37 then
    copy 0 (Dirent.toBytes ⟨1, strncpy [46]⟩ ++ Dirent.toBytes ⟨1, strncpy [46, 46]⟩ ++ Dirent.toBytes ⟨2, strncpy [97]⟩) fun _ => 0
  else if b = 38 then copy 0 [5, 6] fun _ => 0
  else fun _ => 0

/-- The first process has the file open in a transaction, and its memory ends after address 4095. -/
def tinyState : FsState :=
  { FsState.boot tinyDisk with
    outstanding := 1
    inode := fun ip => if ip = 1 then ⟨ROOTDEV, 2, 1, some 0, true, getDinode (tinyDisk 33) 2⟩ else (FsState.boot tinyDisk).inode ip
    user := fun a => if a ≤ 4095 then some 7 else none }

theorem tinySuper_ok : tinySuper.Ok := by
  constructor <;> decide

theorem opened_tinyState : Opened tinySuper 1 tinyState where
  table := by
    constructor
    · decide +kernel
    · decide +kernel
    · decide +kernel
    · decide +kernel
  ref := by decide
  valid := rfl
  ok := by
    apply Vol.ok_of_direct (N := 16) fun b => if b = 37 then (1, 0) else (2, 0)
    · intro i hi
      have hno : ¬tinySuper.IsInum i := fun h => absurd h.2 (not_lt.mpr hi)
      simp only [FsState.vol, if_neg hno]
      rfl
    · decide +kernel
    · decide +kernel
    · decide +kernel
    · decide +kernel
    · decide +kernel
  alloc := by
    unfold Vol.Alloc
    decide +kernel

theorem chunk_fits_of_write :
    Post (fun _ => True) (fun _ t => ∃ L : List ℕ, L.length ≤ MAXOPBLOCKS ∧ t.logged ⊆ tinyState.logged ++ L)
      ((writei tinySuper 1 (.user 4094) 1 2).run (execCmd tinySuper 0) tinyState) :=
  chunk_fits tinySuper_ok opened_tinyState (.user 4094) 1 2 0 nofun

end Xv6Shmem.Fs
