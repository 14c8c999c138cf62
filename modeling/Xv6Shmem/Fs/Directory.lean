import Xv6Shmem.Fs.Updates

/-!
# Directories

A directory is a file that is an array of entries. This module says what `dirlookup`, `dirlink` and the clearing of
an entry in `sys_unlink` do to the array, and that the array is a finite map from names to inode numbers: a name is
what stands before the first `NUL` of `DIRSIZ` bytes.

## What is proved

* `lookup_link`, `lookup_clear` — what a new entry, and an entry that is cleared, do to the lookups.
* `dirlookup_spec`, `dirlink_spec`, `writeEntry_spec` — the code does that to the array.
* `directory_is_map` — a directory is a finite map, over whole runs.
* `volume_in_order` — files have no holes, and no block is in two places, over whole runs.
-/

namespace Xv6Shmem.Fs

open Function ByteArea Kernel Disk Files Prog

/-! ### The array of entries -/

/-- Entry `k` of a directory. -/
def FileData.entry (x : FileData) (k : ℕ) : Dirent := Dirent.ofBytes ((x.bytes.drop (DESIZE * k)).take DESIZE)

/-- How many entries there are. -/
def FileData.slots (x : FileData) : ℕ := x.bytes.length / DESIZE

/-- The entry is in use, for this name. -/
def Dirent.Is (de : Dirent) (name : List UInt8) : Prop := de.inum ≠ 0 ∧ namecmp name de.name = true

instance (de : Dirent) (name : List UInt8) : Decidable (de.Is name) := inferInstanceAs (Decidable (_ ∧ _))

/-- Where the entry for a name is. -/
def FileData.find (x : FileData) (name : List UInt8) : Option ℕ := (List.range x.slots).find? fun k => (x.entry k).Is name

/-- The inode number for a name. -/
def FileData.lookup (x : FileData) (name : List UInt8) : Option ℕ := (x.find name).map fun k => (x.entry k).inum

/-- **A directory in order**: whole entries, and no name twice. -/
structure FileData.IsMap (x : FileData) : Prop where
  whole : x.bytes.length % DESIZE = 0
  unique : ∀ j k, j < x.slots → k < x.slots → (x.entry j).inum ≠ 0 → (x.entry k).inum ≠ 0 →
    cstr DIRSIZ (x.entry j).name = cstr DIRSIZ (x.entry k).name → j = k

/-- Entry `k` is replaced by the bytes of another. -/
def FileData.put (x : FileData) (k : ℕ) (bs : List UInt8) : FileData := { x with bytes := Vol.splice (DESIZE * k) bs x.bytes }

section Entries

variable {x : FileData} {k j inum : ℕ} {bs name other : List UInt8}

theorem FileData.entries_eq (x : FileData) : x.entries = (List.range x.slots).map x.entry := rfl

theorem FileData.mem_entries (h : k < x.slots) : x.entry k ∈ x.entries := List.mem_map.mpr ⟨k, List.mem_range.mpr h, rfl⟩

theorem FileData.find_some (h : x.find name = some k) : k < x.slots ∧ (x.entry k).Is name := by
  have hmem := List.mem_of_find?_eq_some h
  have hp := List.find?_some h
  exact ⟨List.mem_range.mp hmem, of_decide_eq_true hp⟩

theorem FileData.find_none (h : x.find name = none) (hk : k < x.slots) : ¬(x.entry k).Is name := by
  have := List.find?_eq_none.mp h k (List.mem_range.mpr hk)
  exact of_decide_eq_false (Bool.eq_false_of_not_eq_true this)

theorem Dirent.is_iff {de : Dirent} : de.Is name ↔ de.inum ≠ 0 ∧ cstr DIRSIZ name = cstr DIRSIZ de.name := by
  rw [Dirent.Is, namecmp, strncmpEq_iff]

section Put

variable (hbs : bs.length = DESIZE) (hk : DESIZE * k ≤ x.bytes.length)

include hbs hk

theorem FileData.entry_put (j : ℕ) : (x.put k bs).entry j = if j = k then Dirent.ofBytes bs else x.entry j := by
  have hlen : (x.bytes.take (DESIZE * k)).length = DESIZE * k := by rw [List.length_take, min_eq_left hk]
  have hput : (x.put k bs).bytes = x.bytes.take (DESIZE * k) ++ (bs ++ x.bytes.drop (DESIZE * k + DESIZE)) := by
    rw [FileData.put, Vol.splice, hbs, List.append_assoc]
  unfold FileData.entry
  rw [hput]
  unfold DESIZE at *
  rcases lt_trichotomy j k with hlt | rfl | hgt
  · rw [if_neg hlt.ne, List.drop_append_of_le_length (by omega), List.take_append_of_le_length (by rw [List.length_drop]; omega),
      List.drop_take, List.take_take, min_eq_left (by omega)]
  · rw [if_pos rfl, List.drop_append_of_le_length hlen.ge, List.drop_eq_nil_of_le hlen.le, List.nil_append,
      List.take_append_of_le_length hbs.ge, List.take_of_length_le hbs.le]
  · obtain ⟨d, rfl⟩ := Nat.exists_eq_add_of_lt hgt
    rw [if_neg hgt.ne']
    congr 2
    have h1 : 16 * (k + d + 1) = (x.bytes.take (16 * k)).length + (bs.length + 16 * d) := by
      rw [hlen, hbs]
      omega
    rw [h1, List.drop_length_add_append, List.drop_length_add_append, List.drop_drop, hlen, hbs]
    congr 1
    omega

omit hbs hk in
theorem FileData.length_put (hbs : bs.length = DESIZE) (hk : DESIZE * k ≤ x.bytes.length) :
    (x.put k bs).bytes.length = max x.bytes.length (DESIZE * k + DESIZE) := by
  rw [FileData.put, Vol.length_splice hk, hbs]

theorem FileData.slots_put : (x.put k bs).slots = max x.slots (k + 1) := by
  rw [FileData.slots, FileData.length_put hbs hk, FileData.slots]
  unfold DESIZE at *
  omega

end Put

theorem Dirent.ofBytes_toBytes (hi : inum < 2 ^ 16) (hname : name.length = DIRSIZ) :
    Dirent.ofBytes (Dirent.toBytes ⟨inum, name⟩) = ⟨inum, name⟩ := by
  have hnum : (UInt8.ofNat inum).toNat + 256 * (UInt8.ofNat (inum / 256)).toNat = inum := by
    simp only [UInt8.toNat_ofNat']
    omega
  have htake : name.take DIRSIZ = name := List.take_of_length_le hname.le
  simp only [Dirent.toBytes, Dirent.ofBytes, List.getD_cons_zero, List.getD_cons_succ, List.drop_succ_cons, List.drop_zero, hnum, htake]

theorem length_strncpy (name : List UInt8) : (strncpy name).length = DIRSIZ := by
  rw [strncpy, List.length_append, List.length_take, List.length_replicate]
  omega

theorem length_toBytes (inum : ℕ) (name : List UInt8) : (Dirent.toBytes ⟨inum, strncpy name⟩).length = DESIZE := by
  simp only [Dirent.toBytes, List.length_cons, length_strncpy]

theorem cstr_strncpy (name : List UInt8) : cstr DIRSIZ (strncpy name) = cstr DIRSIZ name := by
  have htake : (strncpy name).take DIRSIZ = strncpy name := List.take_of_length_le (length_strncpy name).le
  have hzero : ∀ n, (List.replicate n (0 : UInt8)).takeWhile (· ≠ 0) = [] := by
    intro n
    cases n with
    | zero => rfl
    | succ n => rw [List.replicate_succ, List.takeWhile_cons_of_neg (by decide)]
  rw [cstr, cstr, htake, strncpy, List.takeWhile_append, hzero, List.append_nil]
  split_ifs with h
  · exact ((List.takeWhile_prefix _).eq_of_length h).symm
  · rfl

/-! ### A directory as a map -/

theorem FileData.entry_of_ge (hw : x.bytes.length % DESIZE = 0) (hk : x.slots ≤ k) : (x.entry k).inum = 0 := by
  have hdrop : x.bytes.drop (DESIZE * k) = [] := by
    apply List.drop_eq_nil_of_le
    unfold FileData.slots DESIZE at *
    omega
  rw [FileData.entry, hdrop]
  rfl

theorem find_range_of_le {n m : ℕ} {P : ℕ → Bool} (hnm : n ≤ m) (hP : ∀ j, n ≤ j → P j = false) :
    (List.range m).find? P = (List.range n).find? P := by
  induction m, hnm using Nat.le_induction with
  | base => rfl
  | succ m hm ih =>
    have hlast : [m].find? P = none := List.find?_eq_none.mpr fun j hj => by
      rw [List.mem_singleton.mp hj, hP m hm]
      exact Bool.false_ne_true
    rw [List.range_succ, List.find?_append, hlast, Option.or_none, ih]

section Map

variable (hw : x.bytes.length % DESIZE = 0) (hk : k ≤ x.slots) (hbs : bs.length = DESIZE)

include hw hk hbs

omit hw hbs in
theorem FileData.le_length : DESIZE * k ≤ x.bytes.length := by
  unfold FileData.slots DESIZE at *
  omega

theorem FileData.whole_put : (x.put k bs).bytes.length % DESIZE = 0 := by
  rw [FileData.length_put hbs (FileData.le_length hk)]
  unfold FileData.slots DESIZE at *
  omega

theorem FileData.find_put (hold : ¬(x.entry k).Is other) (hnew : ¬(Dirent.ofBytes bs).Is other) :
    (x.put k bs).find other = x.find other := by
  have hP : (fun j => decide (((x.put k bs).entry j).Is other)) = fun j => decide ((x.entry j).Is other) := by
    funext j
    rw [FileData.entry_put hbs (FileData.le_length hk)]
    split_ifs with hj
    · rw [hj, decide_eq_false hold, decide_eq_false hnew]
    · rfl
  rw [FileData.find, hP, FileData.slots_put hbs (FileData.le_length hk)]
  refine find_range_of_le (le_max_left _ _) fun j hj => decide_eq_false fun his => his.1 (FileData.entry_of_ge hw hj)

theorem FileData.lookup_put (hold : ¬(x.entry k).Is other) (hnew : ¬(Dirent.ofBytes bs).Is other) :
    (x.put k bs).lookup other = x.lookup other := by
  rw [FileData.lookup, FileData.find_put hw hk hbs hold hnew, FileData.lookup]
  cases hf : x.find other with
  | none => rfl
  | some j =>
    have hj : j ≠ k := by
      rintro rfl
      exact hold (FileData.find_some hf).2
    rw [Option.map_some, Option.map_some, FileData.entry_put hbs (FileData.le_length hk), if_neg hj]

end Map

section Link

variable (hw : x.bytes.length % DESIZE = 0) (hk : k ≤ x.slots) (hfree : (x.entry k).inum = 0) (hnone : x.find name = none)
  (hi : 0 < inum) (hi' : inum < 2 ^ 16)

include hw hk hfree hnone hi hi'

/-- **A new entry** is found under its name, and no other lookup changes. -/
theorem FileData.lookup_link (other : List UInt8) : (x.put k (Dirent.toBytes ⟨inum, strncpy name⟩)).lookup other =
    if cstr DIRSIZ other = cstr DIRSIZ name then some inum else x.lookup other := by
  have hbs := length_toBytes inum name
  have hle := FileData.le_length hk
  have hde := Dirent.ofBytes_toBytes hi' (length_strncpy name)
  split_ifs with hc
  · have hfind : (x.put k (Dirent.toBytes ⟨inum, strncpy name⟩)).find other = some k := by
      rw [FileData.find, List.find?_range_eq_some]
      refine ⟨decide_eq_true ?_, List.mem_range.mpr ?_, fun j hj => ?_⟩
      · rw [FileData.entry_put hbs hle, if_pos rfl, hde, Dirent.is_iff, cstr_strncpy]
        exact ⟨hi.ne', hc⟩
      · rw [FileData.slots_put hbs hle]
        omega
      · have hno : ¬(x.entry j).Is other := by
          rw [Dirent.is_iff, hc, ← Dirent.is_iff]
          exact FileData.find_none hnone (by omega)
        rw [FileData.entry_put hbs hle, if_neg hj.ne, decide_eq_false hno]
        rfl
    rw [FileData.lookup, hfind, Option.map_some, FileData.entry_put hbs hle, if_pos rfl, hde]
  · refine FileData.lookup_put hw hk hbs (fun his => his.1 hfree) ?_
    rw [hde, Dirent.is_iff, cstr_strncpy]
    exact fun his => hc his.2

omit hi hfree in
theorem FileData.IsMap.link (h : x.IsMap) : (x.put k (Dirent.toBytes ⟨inum, strncpy name⟩)).IsMap := by
  have hbs := length_toBytes inum name
  have hle := FileData.le_length hk
  have hde := Dirent.ofBytes_toBytes hi' (length_strncpy name)
  -- no other entry has the name
  have hother : ∀ j, (x.entry j).inum ≠ 0 → cstr DIRSIZ (x.entry j).name ≠ cstr DIRSIZ name := by
    intro j hj hc
    have hlt : j < x.slots := not_le.mp fun hge => hj (FileData.entry_of_ge hw hge)
    exact FileData.find_none hnone hlt (Dirent.is_iff.mpr ⟨hj, hc.symm⟩)
  refine ⟨FileData.whole_put hw hk hbs, fun a b _ _ hla hlb hc => ?_⟩
  rw [FileData.entry_put hbs hle] at hla hc
  rw [FileData.entry_put hbs hle] at hlb hc
  by_cases ha : a = k <;> by_cases hb : b = k
  · rw [ha, hb]
  · rw [if_pos ha, if_neg hb, hde, cstr_strncpy] at hc
    rw [if_neg hb] at hlb
    exact absurd hc.symm (hother b hlb)
  · rw [if_neg ha, if_pos hb, hde, cstr_strncpy] at hc
    rw [if_neg ha] at hla
    exact absurd hc (hother a hla)
  · rw [if_neg ha] at hla hc
    rw [if_neg hb] at hlb hc
    have halt : a < x.slots := not_le.mp fun hge => hla (FileData.entry_of_ge hw hge)
    have hblt : b < x.slots := not_le.mp fun hge => hlb (FileData.entry_of_ge hw hge)
    exact h.unique a b halt hblt hla hlb hc

end Link

section Clear

variable (h : x.IsMap) (hf : x.find name = some k)

include h hf

/-- **An entry that is cleared** is not found any more, and no other lookup changes. -/
theorem FileData.lookup_clear (other : List UInt8) : (x.put k (List.replicate DESIZE 0)).lookup other =
    if cstr DIRSIZ other = cstr DIRSIZ name then none else x.lookup other := by
  obtain ⟨hk, his⟩ := FileData.find_some hf
  have hbs : (List.replicate DESIZE (0 : UInt8)).length = DESIZE := List.length_replicate
  have hle := FileData.le_length hk.le
  have hgone : ∀ other, ¬(Dirent.ofBytes (List.replicate DESIZE 0)).Is other := fun other his => his.1 rfl
  rw [Dirent.is_iff] at his
  split_ifs with hc
  · have hfind : (x.put k (List.replicate DESIZE 0)).find other = none := by
      refine List.find?_eq_none.mpr fun j _ hj => ?_
      have hj := of_decide_eq_true hj
      rw [FileData.entry_put hbs hle] at hj
      split_ifs at hj with hjk
      · exact hgone other hj
      · rw [Dirent.is_iff] at hj
        have hlt : j < x.slots := not_le.mp fun hge => hj.1 (FileData.entry_of_ge h.whole hge)
        exact hjk (h.unique j k hlt hk hj.1 his.1 (by rw [← hj.2, hc, his.2]))
    rw [FileData.lookup, hfind, Option.map_none]
  · refine FileData.lookup_put h.whole hk.le hbs ?_ (hgone other)
    rw [Dirent.is_iff]
    exact fun his' => hc (his'.2.trans his.2.symm)

theorem FileData.IsMap.clear : (x.put k (List.replicate DESIZE 0)).IsMap := by
  obtain ⟨hk, -⟩ := FileData.find_some hf
  have hbs : (List.replicate DESIZE (0 : UInt8)).length = DESIZE := List.length_replicate
  have hle := FileData.le_length hk.le
  -- an entry that is left is one of before
  have hlive : ∀ j, ((x.put k (List.replicate DESIZE 0)).entry j).inum ≠ 0 →
      j < x.slots ∧ (x.entry j).inum ≠ 0 ∧ (x.put k (List.replicate DESIZE 0)).entry j = x.entry j := by
    intro j hj
    rw [FileData.entry_put hbs hle] at hj ⊢
    split_ifs at hj with hjk
    · exact absurd rfl hj
    · rw [if_neg hjk]
      exact ⟨not_le.mp fun hge => hj (FileData.entry_of_ge h.whole hge), hj, rfl⟩
  refine ⟨FileData.whole_put h.whole hk.le hbs, fun a b _ _ hla hlb hc => ?_⟩
  obtain ⟨ha, ha', hae⟩ := hlive a hla
  obtain ⟨hb, hb', hbe⟩ := hlive b hlb
  rw [hae, hbe] at hc
  exact h.unique a b ha hb ha' hb' hc

end Clear

end Entries

/-! ### `dirlookup` -/

section Code

variable {sb : Superblock} {p : Slot} {E : Fault → Prop} {fits : List ℕ → Prop} {s : FsState} {dp : InodeNo} {base : InodeNo → ℤ}
  {l : List InodeNo} {X : ℕ → Prop} {name : List UInt8}

/-- The contents of the directory `dp`. -/
def FsState.dir (sb : Superblock) (dp : InodeNo) (s : FsState) : FileData := s.tree sb (s.inode dp).inum

theorem length_dir (ho : Opened sb dp s) : (s.dir sb dp).bytes.length = (s.vol sb).size (s.inode dp).inum := by
  rw [FsState.dir, FsState.tree, Vol.bytes_file ho.alloc, Vol.length_bytes]

theorem readDirent_spec {k : ℕ} {e : Fault} {Q : Dirent → FsState → Prop} (ho : Opened sb dp s) (hheld : s.held = [])
    (hk : DESIZE * k < (s.dir sb dp).bytes.length)
    (hE : (s.dir sb dp).bytes.length < DESIZE * k + DESIZE → E e)
    (hQ : k < (s.dir sb dp).slots → Q ((s.dir sb dp).entry k) s) :
    (readDirent sb dp (k * DESIZE) e).wp (fsRules sb p E fits) Q s := by
  have hlen := length_dir ho
  have hsize := ho.ok.size_le _ ho.alloc
  rw [Nat.mul_comm k, readDirent, wp_bind]
  refine readi_spec ho hheld (fun hbad => ?_) fun hoff r t hd => ?_
  · have hsmall : MAXFILE * BSIZE < 2 ^ 32 - DESIZE := by decide
    rw [hlen] at hk
    omega
  · obtain ⟨hr, huser⟩ := hd.exact fun _ ha => by cases ha
    have hts : t = s := by
      rw [hd.eq, huser]
      rfl
    rw [hr, hts]
    dsimp only
    by_cases hfull : DESIZE * k + DESIZE ≤ (s.vol sb).size (s.inode dp).inum
    · have hmin : min DESIZE ((s.vol sb).size (s.inode dp).inum - DESIZE * k) = DESIZE := by omega
      rw [hmin, if_neg (not_not_intro rfl), Vol.range_eq _ hfull, ← Vol.bytes_file ho.alloc]
      refine hQ ?_
      rw [FileData.slots, hlen]
      unfold DESIZE at *
      omega
    · rw [if_pos (by rw [hlen] at hk; omega)]
      exact wp_bind.mpr (wp_command nofun (hE (by rw [hlen]; omega)))

variable (h : InOrder sb base l X s) (href : 0 < (s.inode dp).ref) (hv : (s.inode dp).valid = true)

include h href hv

theorem dirlookupFrom_spec {ks : List ℕ} {Q : Option (InodeNo × ℕ) → FsState → Prop}
    (hdir : (s.dir sb dp).type = T_DIR)
    (hks : ∀ k ∈ ks, DESIZE * k < (s.dir sb dp).bytes.length)
    (hread : (s.dir sb dp).bytes.length % DESIZE ≠ 0 → E .dirlookupRead)
    (hfull : (∀ jp, 0 < base jp ∨ jp ∈ l) → E .igetNoInodes)
    (hnone : (∀ k ∈ ks, k < (s.dir sb dp).slots) →
      ks.find? (fun k => ((s.dir sb dp).entry k).Is name) = none → Q none s)
    (hsome : ∀ k ip t, k < (s.dir sb dp).slots →
      ks.find? (fun k => ((s.dir sb dp).entry k).Is name) = some k → InOrder sb base (ip :: l) X t → Loads sb s t →
      (t.inode ip).inum = ((s.dir sb dp).entry k).inum → Stays (fun jp => 0 < (s.inode jp).ref) s t →
      (∀ jp, (t.inode jp).lock = (s.inode jp).lock) → Q (some (ip, k * DESIZE)) t) :
    (dirlookupFrom sb dp name (ks.map (· * DESIZE))).wp (fsRules sb p E fits) Q s := by
  induction ks with
  | nil => exact hnone nofun rfl
  | cons k ks ih =>
    have ho := h.opened href hv
    rw [List.map_cons, dirlookupFrom, wp_bind]
    refine readDirent_spec ho h.held (hks k List.mem_cons_self) (fun hpart => hread ?_) fun hslot => ?_
    · have := hks k List.mem_cons_self
      unfold DESIZE at *
      omega
    by_cases his : ((s.dir sb dp).entry k).Is name
    · have hfind : (k :: ks).find? (fun k => ((s.dir sb dp).entry k).Is name) = some k :=
        List.find?_cons_of_pos (decide_eq_true his)
      have hinum := h.dirs _ hdir _ (FileData.mem_entries hslot) his.1
      have his' : ((s.dir sb dp).entry k).inum ≠ 0 ∧
        namecmp name ((s.dir sb dp).entry k).name = true := his
      rw [if_pos his', wp_bind]
      refine ident_spec ?_
      dsimp only
      rw [h.table.dev dp href, wp_bind]
      exact iget_spec h hinum hfull fun ip t ht hload hi hstay hlock => hsome k ip t hslot hfind ht hload hi hstay hlock
    · have hfind : (k :: ks).find? (fun k => ((s.dir sb dp).entry k).Is name) =
          ks.find? fun k => ((s.dir sb dp).entry k).Is name :=
        List.find?_cons_of_neg (fun hc => his (of_decide_eq_true hc))
      have his' : ¬(((s.dir sb dp).entry k).inum ≠ 0 ∧
        namecmp name ((s.dir sb dp).entry k).name = true) := his
      rw [hfind] at hnone hsome
      rw [if_neg his']
      exact ih (fun j hj => hks j (List.mem_cons_of_mem _ hj))
        (fun hall => hnone (List.forall_mem_cons.mpr ⟨hslot, hall⟩)) hsome

theorem direntOffsets_eq : direntOffsets (s.inode dp).d.size.toNat =
    (List.range (((s.dir sb dp).bytes.length + DESIZE - 1) / DESIZE)).map (· * DESIZE) := by
  have ho := h.opened href hv
  rw [direntOffsets, length_dir ho, Vol.size, ho.inode]

/-- **`dirlookup`** finds what the array has for a name. -/
theorem dirlookup_spec {Q : Option (InodeNo × ℕ) → FsState → Prop}
    (hdir : (s.dir sb dp).type ≠ T_DIR → E .dirlookupNotDir)
    (hread : (s.dir sb dp).bytes.length % DESIZE ≠ 0 → E .dirlookupRead)
    (hfull : (∀ jp, 0 < base jp ∨ jp ∈ l) → E .igetNoInodes)
    (hnone : (s.dir sb dp).type = T_DIR → (s.dir sb dp).bytes.length % DESIZE = 0 →
      (s.dir sb dp).find name = none → Q none s)
    (hsome : ∀ k ip t, (s.dir sb dp).type = T_DIR → (s.dir sb dp).find name = some k →
      InOrder sb base (ip :: l) X t → Loads sb s t → (t.inode ip).inum = ((s.dir sb dp).entry k).inum →
      Stays (fun jp => 0 < (s.inode jp).ref) s t → (∀ jp, (t.inode jp).lock = (s.inode jp).lock) → Q (some (ip, k * DESIZE)) t) :
    (dirlookup sb dp name).wp (fsRules sb p E fits) Q s := by
  have ho := h.opened href hv
  have htype : (s.inode dp).d.type = (s.dir sb dp).type := by rw [FsState.dir, Vol.type_file, ho.inode]
  rw [dirlookup, wp_bind]
  refine fields_spec ?_
  rw [htype]
  split_ifs with hne
  · exact panic_spec (hdir hne)
  rw [not_not] at hne
  rw [direntOffsets_eq h href hv]
  -- the entries that are searched are the whole ones, and one that is not whole
  have hceil : ∀ k ∈ List.range (((s.dir sb dp).bytes.length + DESIZE - 1) / DESIZE),
      DESIZE * k < (s.dir sb dp).bytes.length := by
    intro k hk
    have := List.mem_range.mp hk
    unfold DESIZE at *
    omega
  have hge : (s.dir sb dp).slots ≤ ((s.dir sb dp).bytes.length + DESIZE - 1) / DESIZE := by
    unfold FileData.slots DESIZE
    omega
  obtain ⟨m, hm⟩ := Nat.exists_eq_add_of_le hge
  refine dirlookupFrom_spec h href hv hne hceil hread hfull (fun hall hf => hnone hne ?_ ?_) fun k ip t hslot hf => hsome k ip t hne ?_
  · by_contra hpart
    have hmem : (s.dir sb dp).slots ∈
        List.range (((s.dir sb dp).bytes.length + DESIZE - 1) / DESIZE) := by
      rw [List.mem_range]
      unfold FileData.slots DESIZE at *
      omega
    exact absurd (hall _ hmem) (lt_irrefl _)
  · rw [hm, List.range_add, List.find?_append, Option.or_eq_none_iff] at hf
    exact hf.1
  · rw [hm, List.range_add, List.find?_append, Option.or_eq_some_iff] at hf
    rcases hf with hf | ⟨-, hf⟩
    · exact hf
    · obtain ⟨d, -, rfl⟩ := List.mem_map.mp (List.mem_of_find?_eq_some hf)
      omega

/-! ### `dirlink` and the clearing of an entry -/

omit h href hv in
theorem tree_zero (sb : Superblock) (s : FsState) : (s.tree sb 0).type = 0 := by
  rw [Vol.type_file]
  simp only [FsState.vol]
  rw [if_neg fun hi : sb.IsInum 0 => absurd hi.1 (lt_irrefl 0)]
  rfl

omit h href hv in
theorem FileData.mem_entries_put {x : FileData} {k : ℕ} {bs : List UInt8} {e : Dirent} (hk : k ≤ x.slots) (hbs : bs.length = DESIZE)
    (he : e ∈ (x.put k bs).entries) : e = Dirent.ofBytes bs ∨ e ∈ x.entries := by
  rw [FileData.entries_eq, FileData.slots_put hbs (FileData.le_length hk)] at he
  obtain ⟨j, hj, rfl⟩ := List.mem_map.mp he
  rw [List.mem_range] at hj
  rw [FileData.entry_put hbs (FileData.le_length hk)]
  split_ifs with hjk
  · exact .inl rfl
  · exact .inr (FileData.mem_entries (by omega))

variable (hsb : sb.Ok) (hE : ∀ e, E e) (hfit : ∀ L, fits L)

include hsb hE hfit

/-- **An entry is written**, or there is no room for it, and then the files are as they were. -/
theorem writeEntry_spec {k : ℕ} {bs : List UInt8} {Q : ℤ → FsState → Prop} (hdir : (s.dir sb dp).type = T_DIR)
    (hk : k ≤ (s.dir sb dp).slots) (hbs : bs.length = DESIZE)
    (hnum : (Dirent.ofBytes bs).inum ≠ 0 → sb.IsInum (Dirent.ofBytes bs).inum)
    (hlink : (s.tree sb (Dirent.ofBytes bs).inum).type ≠ 0 → (s.tree sb (Dirent.ofBytes bs).inum).nlink = 0 →
      X (Dirent.ofBytes bs).inum ∨ ∃ ip, 0 < base ip ∧ (s.inode ip).inum = (Dirent.ofBytes bs).inum)
    (hfail : ∀ (r : ℤ) t, r ≠ (DESIZE : ℕ) → InOrder sb base l X t → (∀ K, Stays K s t) → t.tree sb = s.tree sb → Q r t)
    (hdone : ∀ t, InOrder sb base l X t → (∀ K, Stays K s t) →
      t.tree sb = update (s.tree sb) (s.inode dp).inum ((s.dir sb dp).put k bs) → Q (DESIZE : ℕ) t) :
    (writei sb dp (.kernel bs) (k * DESIZE) DESIZE).wp (fsRules sb p E fits) Q s := by
  have ho := h.opened href hv
  have hlen := length_dir ho
  rw [Nat.mul_comm k]
  refine writei_spec hsb ho hE (fun _ _ _ _ => hfit _) (fun bs' he => ?_) (by decide) (fun _ _ _ => hfit _) ?_
    fun hoff _ tot w t _ hwr hdisk _ _ => ?_
  · cases he
    exact hbs.ge
  · exact hfail (-1) s (by decide) h (fun _ => .refl s) rfl
  -- the source is in the kernel, so that what is written counts
  have hends : ∀ q, ¬Src.Ends (.kernel bs) s.user q := fun q ⟨a, ha, _⟩ => by cases ha
  have hwt : w = tot := by
    rcases hwr.stop with ⟨h1, h2⟩ | ⟨h1, -⟩ | h1
    · rw [h1, h2]
    · exact h1
    · exact absurd h1 (hends w)
  have htree : t.tree sb = update (s.tree sb) (s.inode dp).inum { s.dir sb dp with
      bytes := Vol.splice (DESIZE * k) ((List.range w).map (Src.byte (.kernel bs) s.user)) (s.dir sb dp).bytes } := by
    have hst := hwr.stored
    rw [← hwt] at hst
    exact hst.file h.ok ho.alloc hoff
  have hle := hwr.le
  by_cases htot : tot = DESIZE
  · rw [htot]
    have hall : (List.range w).map (Src.byte (.kernel bs) s.user) = bs := by
      rw [hwt, htot, ← hbs]
      apply List.ext_getElem
      · simp
      · intro q h1 h2
        simp only [List.getElem_map, List.getElem_range, Src.byte]
        rw [List.getD_eq_getElem]
    rw [hall] at htree
    refine hdone t ?_ (fun _ => hwr.toChanges.stays) htree
    refine h.written hsb href hv hwr hdisk (fun hne => absurd hwt hne) ?_ ?_
    · intro j
      rw [htree]
      by_cases hj : j = (s.inode dp).inum
      · rw [hj, update_self]
        intro _ e he h0
        rcases FileData.mem_entries_put hk hbs he with rfl | hold
        · exact hnum h0
        · exact h.dirs _ hdir e hold h0
      · rw [update_of_ne hj]
        exact h.dirs j
    · intro j hX hname ht hz
      -- the new entry does not matter for the fields
      have hsame : (t.tree sb j).type = (s.tree sb j).type ∧ (t.tree sb j).nlink = (s.tree sb j).nlink := by
        rw [htree]
        by_cases hj : j = (s.inode dp).inum
        · rw [hj, update_self]
          exact ⟨rfl, rfl⟩
        · rw [update_of_ne hj]
          exact ⟨rfl, rfl⟩
      rw [hsame.1] at ht
      rw [hsame.2] at hz
      by_cases hold : Named (s.tree sb) j
      · exact h.linked j hX hold ht hz
      · rcases hname with hroot | ⟨d, hd, e, he, rfl⟩
        · exact absurd (.inl hroot) hold
        · have h0 : e.inum ≠ 0 := fun h0 => by
            rw [h0, tree_zero] at ht
            exact ht rfl
          rw [htree] at hd he
          by_cases hdd : d = (s.inode dp).inum
          · rw [hdd, update_self] at he
            rcases FileData.mem_entries_put hk hbs he with rfl | hold'
            · exact (hlink ht hz).resolve_left hX
            · exact absurd (.inr ⟨_, hdir, e, hold', rfl⟩) hold
          · rw [update_of_ne hdd] at hd he
            exact absurd (.inr ⟨d, hd, e, he, rfl⟩) hold
  · have hzero : tot = 0 := by
      have hturn := hwr.turn (by omega)
      unfold BSIZE DESIZE at *
      omega
    rw [hwt, hzero, List.range_zero, List.map_nil, Vol.splice_nil, FsState.dir, update_eq_self] at htree
    refine hfail tot t (fun he => htot (by exact_mod_cast he)) ?_ (fun _ => hwr.toChanges.stays) htree
    refine h.written hsb href hv hwr hdisk (fun hne => absurd hwt hne) ?_ ?_
    · rw [htree]
      exact h.dirs
    · rw [htree]
      exact h.linked

omit hsb hfit in
/-- The loop of `dirlink`: an entry that is not in use, or the place after the last. -/
theorem dirlinkFrom_spec {last : ℕ} {ks : List ℕ} {Q : ℕ → FsState → Prop}
    (hks : ∀ k ∈ ks, DESIZE * k < (s.dir sb dp).bytes.length)
    (hQ : ∀ k, k = last ∨ k ∈ ks ∧ k < (s.dir sb dp).slots ∧ ((s.dir sb dp).entry k).inum = 0 →
      Q (k * DESIZE) s) : (dirlinkFrom sb dp (last * DESIZE) (ks.map (· * DESIZE))).wp (fsRules sb p E fits) Q s := by
  induction ks with
  | nil => exact hQ last (.inl rfl)
  | cons k ks ih =>
    rw [List.map_cons, dirlinkFrom, wp_bind]
    refine readDirent_spec (h.opened href hv) h.held (hks k List.mem_cons_self) (fun _ => hE _) fun hslot => ?_
    split_ifs with h0
    · exact hQ k (.inr ⟨List.mem_cons_self, hslot, h0⟩)
    · exact ih (fun j hj => hks j (List.mem_cons_of_mem _ hj)) fun j hj =>
        hQ j (hj.imp id fun ⟨hm, hr⟩ => ⟨List.mem_cons_of_mem _ hm, hr⟩)

/-- **`dirlink`** adds an entry for a name that is not there; or it fails, and the directory is as it was. -/
theorem dirlink_spec {inum : ℕ} {Q : ℤ → FsState → Prop} (hi : sb.IsInum inum)
    (hlink : (s.tree sb inum).type ≠ 0 → (s.tree sb inum).nlink = 0 → X inum ∨ ∃ ip, 0 < base ip ∧ (s.inode ip).inum = inum)
    (hfail : ∀ t, InOrder sb base l X t → Passes sb (fun jp => 0 < base jp ∨ jp ∈ l) s t → Q (-1) t)
    (hdone : ∀ k t, (s.dir sb dp).type = T_DIR → (s.dir sb dp).bytes.length % DESIZE = 0 →
      (s.dir sb dp).find name = none → k ≤ (s.dir sb dp).slots →
      ((s.dir sb dp).entry k).inum = 0 → InOrder sb base l X t → Stays (fun jp => 0 < base jp ∨ jp ∈ l) s t →
      t.tree sb = update (s.tree sb) (s.inode dp).inum
        ((s.dir sb dp).put k (Dirent.toBytes ⟨inum, strncpy name⟩)) → Q 0 t) :
    (dirlink sb dp name inum).wp (fsRules sb p E fits) Q s := by
  have hi16 : inum < 2 ^ 16 := hi.2.trans_le hsb.ninodes_le
  rw [dirlink, wp_bind]
  refine dirlookup_spec h href hv (fun _ => hE _) (fun _ => hE _) (fun _ => hE _) (fun hdir hw hf => ?_)
    fun k ip t hdir hf ht hload hinum hstay hlock => ?_
  · -- the name is not there
    have hceil : ((s.dir sb dp).bytes.length + DESIZE - 1) / DESIZE = (s.dir sb dp).slots := by
      unfold FileData.slots DESIZE at *
      omega
    dsimp only
    rw [wp_bind]
    refine fields_spec ?_
    rw [direntOffsets_eq h href hv, hceil, List.length_map, List.length_range, wp_bind]
    refine dirlinkFrom_spec h href hv hE (fun k hk => ?_) fun k hk => ?_
    · have := List.mem_range.mp hk
      unfold FileData.slots DESIZE at *
      omega
    have hk' : k ≤ (s.dir sb dp).slots ∧ ((s.dir sb dp).entry k).inum = 0 := by
      rcases hk with rfl | ⟨-, hlt, h0⟩
      · exact ⟨le_rfl, FileData.entry_of_ge hw le_rfl⟩
      · exact ⟨hlt.le, h0⟩
    have hbs := length_toBytes inum name
    have hde := Dirent.ofBytes_toBytes hi16 (length_strncpy name)
    rw [Nat.mod_eq_of_lt hi16, wp_bind]
    refine writeEntry_spec h href hv hsb hE hfit hdir hk'.1 hbs (fun _ => ?_) ?_ (fun r t hr ht hstay' htree => ?_)
      fun t ht hstay' htree => ?_
    · rw [hde]
      exact hi
    · rw [hde]
      exact hlink
    · rw [if_pos hr]
      exact hfail t ht ⟨hstay' _, fun _ _ => by rw [htree]⟩
    · rw [if_neg (not_not_intro rfl)]
      exact hdone k t hdir hw hf hk'.1 hk'.2 ht (hstay' _) htree
  · -- the name is there
    dsimp only
    rw [wp_bind]
    refine iput_passes_spec hsb hE hfit ht fun u hu hpass => hfail u hu ((hload.passes (hstay.mono fun _ hjp => h.pos hjp)).trans hpass)

end Code

/-! ### A directory over time -/

/-- The clearing of an entry in `sys_unlink`: was it there? -/
def clearEntry (sb : Superblock) (dp : InodeNo) (name : List UInt8) : Code Bool := do
  match ← dirlookup sb dp name with
  | none => return false
  | some (_, off) =>
    let r ← writei sb dp (.kernel (List.replicate DESIZE 0)) off DESIZE
    if r ≠ (DESIZE : ℕ) then panic .unlinkWritei
    else return true

/-- What is done to a directory. -/
inductive DirOp where
  | link (name : List UInt8) (inum : ℕ)
  | unlink (name : List UInt8)
  /-- Anything else that happens in the file system. -/
  | other

/-- The file system is in order, and the directory `dp` is referenced and has been read. -/
def OpenDir (sb : Superblock) (dp : InodeNo) (s : FsState) : Prop :=
  ∃ base l, InOrder sb base l (fun _ => True) s ∧ (0 < base dp ∨ dp ∈ l) ∧ (s.inode dp).valid = true ∧
    (s.tree sb (s.inode dp).inum).type = T_DIR

/-- The steps of process `p`, which holds the lock of the directory. -/
inductive DirStep (sb : Superblock) (p : Slot) (dp : InodeNo) (s : FsState) : DirOp → FsState → Prop where
  | link {name : List UInt8} {inum : ℕ} {r : ℤ} {t : FsState} (hi : sb.IsInum inum)
      (hc : (dirlink sb dp name inum).run (execCmd sb p) s = .ok (r, t)) : DirStep sb p dp s (.link name inum) t
  | unlink {name : List UInt8} {r : Bool} {t : FsState} (hc : (clearEntry sb dp name).run (execCmd sb p) s = .ok (r, t)) :
      DirStep sb p dp s (.unlink name) t
  | other {t : FsState} (ht : OpenDir sb dp t) (hsame : t.dir sb dp = s.dir sb dp) : DirStep sb p dp s .other t

/-- **The machine**, from a directory in order, such as one that has just been made and is empty. -/
def dirMachine (sb : Superblock) (p : Slot) (dp : InodeNo) : LTS FsState DirOp where
  init s := OpenDir sb dp s ∧ (s.dir sb dp).IsMap
  step := DirStep sb p dp

section Run

variable {sb : Superblock} {p : Slot} {dp : InodeNo} {s t : FsState}

theorem FileData.lookup_congr {x : FileData} {a b : List UInt8} (h : cstr DIRSIZ a = cstr DIRSIZ b) : x.lookup a = x.lookup b := by
  have hP : (fun k => decide ((x.entry k).Is a)) = fun k => decide ((x.entry k).Is b) := by
    funext k
    simp only [Dirent.is_iff, h]
  rw [FileData.lookup, FileData.lookup, FileData.find, FileData.find, hP]

theorem OpenDir.dirlink {name : List UInt8} {inum : ℕ} {r : ℤ} (hsb : sb.Ok) (h : OpenDir sb dp s) (hi : sb.IsInum inum)
    (hc : (dirlink sb dp name inum).run (execCmd sb p) s = .ok (r, t)) :
    OpenDir sb dp t ∧ (r = -1 ∧ t.dir sb dp = s.dir sb dp ∨
      r = 0 ∧ (s.dir sb dp).bytes.length % DESIZE = 0 ∧ (s.dir sb dp).find name = none ∧
        ∃ k ≤ (s.dir sb dp).slots, ((s.dir sb dp).entry k).inum = 0 ∧
          t.dir sb dp = (s.dir sb dp).put k (Dirent.toBytes ⟨inum, strncpy name⟩)) := by
  obtain ⟨base, l, hin, hdp, hv, hdir⟩ := h
  have href := hin.pos hdp
  refine of_ok hc (dirlink_spec hin href hv hsb (fun _ => trivial) (fun _ => trivial) hi (fun _ _ => .inl trivial)
    (fun t ht hpass => ?_) fun k t _ hw hf hk h0 ht hstay' htree => ?_)
  · obtain ⟨hinum, hval⟩ := hpass.stays dp hdp
    have hd : t.dir sb dp = s.dir sb dp := by rw [FsState.dir, hinum, hpass.tree dp hdp, FsState.dir]
    exact ⟨⟨base, l, ht, hdp, hval hv, by rw [← FsState.dir, hd]; exact hdir⟩, .inl ⟨rfl, hd⟩⟩
  · obtain ⟨hinum, hval⟩ := hstay' dp hdp
    have hd : t.dir sb dp = (s.dir sb dp).put k (Dirent.toBytes ⟨inum, strncpy name⟩) := by
      rw [FsState.dir, hinum, htree, update_self, FsState.dir]
    exact ⟨⟨base, l, ht, hdp, hval hv, by rw [← FsState.dir, hd]; exact hdir⟩, .inr ⟨rfl, hw, hf, k, hk, h0, hd⟩⟩

/-- What a run of `dirlookup` does: it fails only if there is no entry of the table of inodes left. -/
theorem OpenDir.dirlookup (name : List UInt8) (h : OpenDir sb dp s) (hw : (s.dir sb dp).bytes.length % DESIZE = 0) :
    Post (fun e => e = .igetNoInodes ∧ ∀ jp, 0 < (s.inode jp).ref)
      (fun r t => r.map (fun x => (t.inode x.1).inum) = (s.dir sb dp).lookup name ∧ t.tree sb = s.tree sb)
      ((dirlookup sb dp name).run (execCmd sb p) s) := by
  obtain ⟨base, l, hin, hdp, hv, hdir⟩ := h
  have href := hin.pos hdp
  refine post_of_any (dirlookup_spec hin href hv (fun hne => absurd hdir hne) (fun hne => absurd hw hne)
    (fun hall => ⟨rfl, fun jp => hin.pos (hall jp)⟩) (fun _ _ hf => ⟨?_, rfl⟩)
    fun k ip t _ hf _ hload hinum _ _ => ⟨?_, hload.tree⟩)
  · rw [FileData.lookup, hf]
    rfl
  · rw [FileData.lookup, hf, Option.map_some, Option.map_some, hinum]

theorem OpenDir.clearEntry {name : List UInt8} {r : Bool} (hsb : sb.Ok) (h : OpenDir sb dp s)
    (hc : (clearEntry sb dp name).run (execCmd sb p) s = .ok (r, t)) :
    OpenDir sb dp t ∧ (t.dir sb dp = s.dir sb dp ∧ (s.dir sb dp).find name = none ∨
      ∃ k, (s.dir sb dp).find name = some k ∧ t.dir sb dp = (s.dir sb dp).put k (List.replicate DESIZE 0)) := by
  obtain ⟨base, l, hin, hdp, hv, hdir⟩ := h
  have href := hin.pos hdp
  refine of_ok hc ?_
  rw [Fs.clearEntry, wp_bind]
  refine dirlookup_spec hin href hv (fun _ => trivial) (fun _ => trivial) (fun _ => trivial) (fun _ _ hf => ?_)
    fun k ip t _ hf ht hload _ hstay _ => ?_
  · exact ⟨⟨base, l, hin, hdp, hv, hdir⟩, .inl ⟨rfl, hf⟩⟩
  · obtain ⟨hinum, hval⟩ := hstay dp href
    have hdp' : 0 < base dp ∨ dp ∈ ip :: l := hdp.imp id fun hmem => List.mem_cons_of_mem _ hmem
    have hd : t.dir sb dp = s.dir sb dp := by rw [FsState.dir, hinum, FsState.tree, hload.vol, FsState.dir]
    have hk := (FileData.find_some hf).1.le
    rw [← hd] at hk
    dsimp only
    rw [wp_bind]
    refine writeEntry_spec ht (ht.pos hdp') (hval hv) hsb (fun _ => trivial) (fun _ => trivial) (by rw [hd]; exact hdir) hk
      List.length_replicate (fun hne => absurd rfl hne) (fun hne => absurd (tree_zero sb t) hne)
      (fun r u hr _ _ _ => ?_) fun u hu hstay' htree => ?_
    · rw [if_pos hr]
      exact panic_spec trivial
    · rw [if_neg (not_not_intro rfl)]
      obtain ⟨hinum', hval'⟩ := hstay' (fun _ => True) dp trivial
      have hd' : u.dir sb dp = (s.dir sb dp).put k (List.replicate DESIZE 0) := by
        rw [FsState.dir, hinum', htree, update_self, hd]
      exact ⟨⟨base, ip :: l, hu, hdp', hval' (hval hv), by rw [← FsState.dir, hd']; exact hdir⟩, .inr ⟨k, hf, hd'⟩⟩

/-- Every directory that is reached is in order. -/
theorem isMap_of_reachable (hsb : sb.Ok) (h : (dirMachine sb p dp).Reachable s) : OpenDir sb dp s ∧ (s.dir sb dp).IsMap := by
  refine h.invariant (I := fun s => OpenDir sb dp s ∧ (s.dir sb dp).IsMap) (fun _ h0 => h0) fun s op t _ hs hstep => ?_
  obtain ⟨hopen, hmap⟩ := hs
  cases hstep with
  | link hi hc =>
    obtain ⟨hopen', hr⟩ := hopen.dirlink hsb hi hc
    refine ⟨hopen', ?_⟩
    rcases hr with ⟨-, hd⟩ | ⟨-, hw, hf, k, hk, -, hd⟩
    · rw [hd]
      exact hmap
    · rw [hd]
      exact FileData.IsMap.link hw hk hf (hi.2.trans_le hsb.ninodes_le) hmap
  | unlink hc =>
    obtain ⟨hopen', hr⟩ := hopen.clearEntry hsb hc
    refine ⟨hopen', ?_⟩
    rcases hr with ⟨hd, -⟩ | ⟨k, hf, hd⟩
    · rw [hd]
      exact hmap
    · rw [hd]
      exact FileData.IsMap.clear hmap hf
  | other ht hsame => exact ⟨ht, by rw [hsame]; exact hmap⟩

/-- **A directory is a finite map from names**. In every directory that is reached by `dirlink` and the clearing of
entries, no two entries in use have one name, and an entry is within a block. `dirlookup` answers what the map has, and
fails only when the table of inodes is full. When `dirlink` returns `0` its name is looked up to its inode number and all
other names as before, and when it returns `-1` all are as before. After the entry of a name is cleared, the name is not
found, and the others are as before. -/
theorem directory_is_map (hsb : sb.Ok) (h : (dirMachine sb p dp).Reachable s) :
    ((s.dir sb dp).bytes.length % DESIZE = 0 ∧
      (∀ j k, j < (s.dir sb dp).slots → k < (s.dir sb dp).slots → ((s.dir sb dp).entry j).inum ≠ 0 →
        ((s.dir sb dp).entry k).inum ≠ 0 → cstr DIRSIZ ((s.dir sb dp).entry j).name = cstr DIRSIZ ((s.dir sb dp).entry k).name → j = k) ∧
      ∀ k, (DESIZE * k) / BSIZE = (DESIZE * k + DESIZE - 1) / BSIZE) ∧
    (∀ name, Post (fun e => e = .igetNoInodes ∧ ∀ jp, 0 < (s.inode jp).ref)
      (fun r t => r.map (fun x => (t.inode x.1).inum) = (s.dir sb dp).lookup name ∧ t.tree sb = s.tree sb)
      ((dirlookup sb dp name).run (execCmd sb p) s)) ∧
    (∀ name inum r t, sb.IsInum inum → (dirlink sb dp name inum).run (execCmd sb p) s = .ok (r, t) →
      r = 0 ∧ (∀ other, (t.dir sb dp).lookup other =
          if cstr DIRSIZ other = cstr DIRSIZ name then some inum else (s.dir sb dp).lookup other) ∨
        r = -1 ∧ ∀ other, (t.dir sb dp).lookup other = (s.dir sb dp).lookup other) ∧
    ∀ name r t, (clearEntry sb dp name).run (execCmd sb p) s = .ok (r, t) → ∀ other, (t.dir sb dp).lookup other =
      if cstr DIRSIZ other = cstr DIRSIZ name then none else (s.dir sb dp).lookup other := by
  obtain ⟨hopen, hmap⟩ := isMap_of_reachable hsb h
  refine ⟨⟨hmap.whole, hmap.unique, fun k => ?_⟩, fun name => hopen.dirlookup name hmap.whole, fun name inum r t hi hc => ?_,
    fun name r t hc other => ?_⟩
  · unfold BSIZE DESIZE
    omega
  · obtain ⟨-, hr⟩ := hopen.dirlink hsb hi hc
    rcases hr with ⟨rfl, hd⟩ | ⟨rfl, hw, hf, k, hk, h0, hd⟩
    · exact .inr ⟨rfl, fun other => by rw [hd]⟩
    · refine .inl ⟨rfl, fun other => ?_⟩
      rw [hd]
      exact FileData.lookup_link hw hk h0 hf hi.1 (hi.2.trans_le hsb.ninodes_le) other
  · obtain ⟨-, hr⟩ := hopen.clearEntry hsb hc
    rcases hr with ⟨hd, hf⟩ | ⟨k, hf, hd⟩
    · rw [hd]
      split_ifs with hsame
      · rw [FileData.lookup_congr hsame, FileData.lookup, hf, Option.map_none]
      · rfl
    · rw [hd]
      exact FileData.lookup_clear hmap hf other

end Run

/-- The first process holds the root directory in a transaction. -/
def tinyRoot : FsState := { (FsState.boot tinyDisk).locked tinySuper 0 0 with outstanding := 1 }

theorem openDir_tinyRoot : OpenDir tinySuper 0 tinyRoot := by
  have h := diskOk_tinyDisk.inOrder (X := fun _ => True) tinySuper_ok fun i hi => absurd trivial hi
  have href : 0 < ((FsState.boot tinyDisk).inode 0).ref := by decide
  obtain ⟨hin, -⟩ := h.locked (p := 0) href (by decide +kernel)
  exact ⟨_, _, hin.congr rfl rfl rfl rfl rfl, .inl (by decide), rfl, by decide +kernel⟩

/-- A link to the file, with another name. -/
theorem directory_is_map_of_link :
    ∃ t, (dirlink tinySuper 0 [98] 2).run (execCmd tinySuper 0) tinyRoot = .ok (0, t) ∧
      (t.dir tinySuper 0).lookup [98] = some 2 ∧ (t.dir tinySuper 0).lookup [97] = some 2 ∧ (t.dir tinySuper 0).lookup [99] = none := by
  have hmap : (tinyRoot.dir tinySuper 0).IsMap := by
    constructor
    · decide +kernel
    · have hsmall : ∀ j < 3, ∀ k < 3, cstr DIRSIZ ((tinyRoot.dir tinySuper 0).entry j).name =
          cstr DIRSIZ ((tinyRoot.dir tinySuper 0).entry k).name → j = k := by decide +kernel
      have hslots : (tinyRoot.dir tinySuper 0).slots = 3 := by decide +kernel
      intro j k hj hk _ _
      exact hsmall j (hslots ▸ hj) k (hslots ▸ hk)
  have hold : (tinyRoot.dir tinySuper 0).lookup [97] = some 2 ∧ (tinyRoot.dir tinySuper 0).lookup [99] = none := by decide +kernel
  have hreach : (dirMachine tinySuper 0 0).Reachable tinyRoot := .start ⟨openDir_tinyRoot, hmap⟩
  have hrun : (match (dirlink tinySuper 0 [98] 2).run (execCmd tinySuper 0) tinyRoot with
      | .ok (r, _) => decide (r = 0)
      | .error _ => false) = true := by decide +kernel
  split at hrun
  case h_2 => cases hrun
  case h_1 r t hc =>
    obtain rfl := of_decide_eq_true hrun
    obtain ⟨-, -, hlink, -⟩ := directory_is_map tinySuper_ok hreach
    rcases hlink [98] 2 0 t (by decide) hc with ⟨-, hl⟩ | ⟨h0, -⟩
    · refine ⟨t, hc, ?_, ?_, ?_⟩
      · rw [hl, if_pos rfl]
      · rw [hl, if_neg (by decide)]
        exact hold.1
      · rw [hl, if_neg (by decide)]
        exact hold.2
    · cases h0

/-! ### The volume over time -/

/-- The file system is in order. -/
def Orderly (sb : Superblock) (s : FsState) : Prop := ∃ base l, InOrder sb base l (fun _ => True) s

/-- What process `p` does to the file or directory `ip`. -/
inductive VolStep (sb : Superblock) (p : Slot) (ip : InodeNo) (s t : FsState) : Prop where
  | write {src : Src} {off n : ℕ} {r : ℤ} (htype : (s.inode ip).d.type ≠ T_DIR) (hhas : src.Has n) (hn : n < 2 ^ 32)
      (hc : (writei sb ip src off n).run (execCmd sb p) s = .ok (r, t))
  | trunc (hc : (itrunc sb ip).run (execCmd sb p) s = .ok ((), t))
  | link {name : List UInt8} {inum : ℕ} {r : ℤ} (htype : (s.dir sb ip).type = T_DIR) (hi : sb.IsInum inum)
      (hc : (dirlink sb ip name inum).run (execCmd sb p) s = .ok (r, t))
  | unlink {name : List UInt8} {r : Bool} (htype : (s.dir sb ip).type = T_DIR)
      (hc : (clearEntry sb ip name).run (execCmd sb p) s = .ok (r, t))

/-- Any process does any of this, to inodes that are referenced and have been read. -/
def volMachine (sb : Superblock) : LTS FsState (Slot × InodeNo) where
  init := Orderly sb
  step s a t := 0 < (s.inode a.2).ref ∧ (s.inode a.2).valid = true ∧ VolStep sb a.1 a.2 s t

section Volume

variable {sb : Superblock} {p : Slot} {ip : InodeNo} {s t : FsState}

/-- A step keeps the order. -/
theorem Orderly.step (hsb : sb.Ok) (h : Orderly sb s) (href : 0 < (s.inode ip).ref) (hv : (s.inode ip).valid = true)
    (hs : VolStep sb p ip s t) : Orderly sb t := by
  obtain ⟨base, l, h⟩ := h
  have ho := h.opened href hv
  have hdp : 0 < base ip ∨ ip ∈ l := by
    by_contra hno
    rw [not_or, not_lt] at hno
    rw [h.refs, List.count_eq_zero_of_not_mem hno.2] at href
    omega
  cases hs with
  | write htype hhas hn hc =>
    refine ⟨base, l, of_ok hc (writei_spec hsb ho (fun _ => trivial) (fun _ _ _ _ => trivial) hhas hn (fun _ _ _ => trivial) h
      fun _ _ tot w t _ hw hdisk _ _ => ?_)⟩
    refine h.written hsb href hv hw hdisk (fun _ => htype) (fun i hi e he => ?_) fun _ hX => absurd trivial hX
    -- the file that is written is no directory, and the others are as they were
    have hne : i ≠ (s.inode ip).inum := by
      rintro rfl
      rw [Vol.type_file, hw.stored.type, ho.inode] at hi
      exact htype hi
    have hsame : t.tree sb i = s.tree sb i := hw.stored.file_of_ne ho.ok hne
    rw [hsame] at hi he
    exact h.dirs i hi e he
  | trunc hc =>
    exact ⟨base, l, of_ok hc (itrunc_spec hsb (fun _ => trivial) (fun _ => trivial) h href hv fun t ht _ _ _ => ht)⟩
  | link htype hi hc =>
    obtain ⟨⟨base', l', hin, -⟩, -⟩ := OpenDir.dirlink hsb ⟨base, l, h, hdp, hv, htype⟩ hi hc
    exact ⟨base', l', hin⟩
  | unlink htype hc =>
    obtain ⟨⟨base', l', hin, -⟩, -⟩ := OpenDir.clearEntry hsb ⟨base, l, h, hdp, hv, htype⟩ hc
    exact ⟨base', l', hin⟩

/-- **The volume stays in order**, whatever is written, truncated, linked and unlinked, and wherever a write stops for want
of blocks or of bytes: no file has a hole, no block is in two places, the blocks of files are marked as used, what is in
memory of an inode is on the disk, and directories name inodes. -/
theorem volume_in_order (hsb : sb.Ok) (h : (volMachine sb).Reachable s) :
    (∀ i, (s.vol sb).Alloc i → (∀ n, n * BSIZE < (s.vol sb).size i → (s.vol sb).block i n ≠ 0) ∧
      ∀ pl, (s.vol sb).loc i pl ≠ 0 → (sb.nmeta ≤ (s.vol sb).loc i pl ∧ (s.vol sb).used ((s.vol sb).loc i pl) = true) ∧
        ∀ j pl', (s.vol sb).Alloc j → (s.vol sb).loc i pl = (s.vol sb).loc j pl' → i = j ∧ pl = pl') ∧
    Clean sb s ∧ ∀ i, (s.tree sb i).type = T_DIR → ∀ e ∈ (s.tree sb i).entries, e.inum ≠ 0 → sb.IsInum e.inum := by
  obtain ⟨base, l, hin⟩ := h.invariant (I := Orderly sb) (fun _ h0 => h0) fun s a t _ hs hstep => by
    obtain ⟨href, hv, hstep⟩ := hstep
    exact hs.step hsb href hv hstep
  refine ⟨fun i hi => ⟨fun n => hin.ok.full i n hi, fun pl hl => ?_⟩, hin.clean, hin.dirs⟩
  exact ⟨hin.ok.own i pl hi hl, fun j pl' hj => hin.ok.inj i j pl pl' hi hj hl⟩

end Volume

/-- The root directory is truncated. -/
theorem volume_in_order_of_trunc : ∃ t, (volMachine tinySuper).Reachable t ∧ (t.vol tinySuper).size 1 = 0 ∧ Clean tinySuper t := by
  have hrun : ((itrunc tinySuper 0).run (execCmd tinySuper 0) tinyRoot).toOption.map (fun x => (x.2.vol tinySuper).size 1) =
      some 0 := by decide +kernel
  cases hc : (itrunc tinySuper 0).run (execCmd tinySuper 0) tinyRoot with
  | error e =>
    rw [hc] at hrun
    cases hrun
  | ok x =>
    rw [hc] at hrun
    obtain ⟨base, l, hin, -⟩ := openDir_tinyRoot
    have ht : (volMachine tinySuper).Reachable x.2 := .snoc (a := (0, 0)) (.start ⟨base, l, hin⟩) ⟨by decide, rfl, .trunc hc⟩
    exact ⟨x.2, ht, Option.some.inj hrun, (volume_in_order tinySuper_ok ht).2.1⟩

end Xv6Shmem.Fs
