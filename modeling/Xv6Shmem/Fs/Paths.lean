import Mathlib.Data.List.TakeWhile
import Xv6Shmem.Fs.Directory

/-!
# Paths

A path is a string of components between slashes. This module compares the scanner `skipelem` with the split of the
string, and the loop of `namex` with the fold of the lookups in directories over the components.

## What is proved

* `map_fst_elems` — `skipelem` yields the components that are not empty, cut to `DIRSIZ` bytes.
* `namex_spec` — `namex` goes from directory to directory as the files say, and leaves them as they are.
* `path_resolution` — what `namei` and `nameiparent` find.
-/

namespace Xv6Shmem.Fs

open ByteArea Kernel Disk Files Prog

/-! ### Components -/

/-- The components of a path that are not empty, each cut to `DIRSIZ` bytes. -/
def components (path : List UInt8) : List (List UInt8) := ((path.splitOn slash).filter (· ≠ [])).map (·.take DIRSIZ)

section Components

variable {path name rest : List UInt8}

theorem components_nil : components [] = [] := rfl

theorem components_slash : components (slash :: path) = components path := by
  have hs : (slash :: path).splitOn slash = [] :: path.splitOn slash := List.splitOn_append_cons_self_of_not_mem List.not_mem_nil path
  rw [components, hs, List.filter_cons_of_neg (by simp), components]

theorem components_dropWhile (path : List UInt8) : components (path.dropWhile (· = slash)) = components path := by
  induction path with
  | nil => rfl
  | cons a l ih =>
    by_cases ha : a = slash
    · rw [List.dropWhile_cons_of_pos (by simpa using ha), ih, ha, components_slash]
    · rw [List.dropWhile_cons_of_neg (by simpa using ha)]

/-- The first component of a path that does not begin with a slash. -/
theorem components_cons {a : UInt8} {l : List UInt8} (ha : a ≠ slash) :
    components (a :: l) = ((a :: l).takeWhile (· ≠ slash)).take DIRSIZ :: components ((a :: l).dropWhile (· ≠ slash)) := by
  have hno : slash ∉ (a :: l).takeWhile (· ≠ slash) := fun hmem => by
    have := List.mem_takeWhile_imp hmem
    simp at this
  have hne : (a :: l).takeWhile (· ≠ slash) ≠ [] := by
    rw [List.takeWhile_cons_of_pos (by simpa using ha)]
    exact List.cons_ne_nil _ _
  have hsplit := List.takeWhile_append_dropWhile (p := fun a => decide (a ≠ slash)) (l := a :: l)
  cases hd : (a :: l).dropWhile (· ≠ slash) with
  | nil =>
    rw [hd, List.append_nil] at hsplit
    conv_lhs => rw [← hsplit]
    rw [components, List.splitOn_eq_singleton hno, List.filter_cons_of_pos (by simpa using hne)]
    rfl
  | cons b r =>
    have hb : b = slash := by
      have := List.head?_dropWhile_not (fun a => decide (a ≠ slash)) (a :: l)
      rw [hd] at this
      simpa using this
    rw [hd, hb] at hsplit
    conv_lhs => rw [← hsplit]
    rw [hb, components_slash, components, List.splitOn_append_cons_self_of_not_mem hno,
      List.filter_cons_of_pos (by simpa using hne), List.map_cons, components]

/-- A path is empty after its leading slashes, or begins with a component. -/
theorem dropWhile_slash (path : List UInt8) :
    path.dropWhile (· = slash) = [] ∨ ∃ a l, path.dropWhile (· = slash) = a :: l ∧ a ≠ slash := by
  cases h : path.dropWhile (· = slash) with
  | nil => exact .inl rfl
  | cons a l =>
    have := List.head?_dropWhile_not (fun x => decide (x = slash)) path
    rw [h] at this
    exact .inr ⟨a, l, rfl, by simpa using this⟩

theorem skipelem_none (h : skipelem path = none) : components path = [] := by
  simp only [skipelem] at h
  split_ifs at h with hnil
  rw [← components_dropWhile, hnil, components_nil]

/-- **`skipelem`** splits off the first component. -/
theorem skipelem_some (h : skipelem path = some (name, rest)) :
    components path = name :: components rest ∧ rest.length < path.length ∧ (rest = [] ↔ components rest = []) := by
  simp only [skipelem] at h
  split_ifs at h with hnil
  obtain ⟨a, l, hq, ha⟩ := (dropWhile_slash path).resolve_left hnil
  simp only [Option.some.injEq, Prod.mk.injEq] at h
  obtain ⟨rfl, rfl⟩ := h
  have hlen : (a :: l).length ≤ path.length := by
    rw [← hq]
    exact (List.dropWhile_sublist _).length_le
  refine ⟨?_, ?_, ?_⟩
  · rw [components_dropWhile, ← components_dropWhile path, hq, components_cons ha]
  · have h1 := (List.dropWhile_sublist (l := (a :: l).dropWhile (· ≠ slash)) fun a => decide (a = slash)).length_le
    have h2 := (List.dropWhile_sublist (l := l) fun a => decide (a ≠ slash)).length_le
    rw [hq]
    rw [List.dropWhile_cons_of_pos (by simpa using ha)] at h1 ⊢
    rw [List.length_cons] at hlen
    omega
  · rcases dropWhile_slash ((path.dropWhile (· = slash)).dropWhile (· ≠ slash)) with hr | ⟨b, r, hr, hb⟩
    · rw [hr]
      exact ⟨fun _ => rfl, fun _ => rfl⟩
    · rw [hr, components_cons hb]
      simp

theorem elemsFrom_spec {n : ℕ} (hn : path.length ≤ n) : (elemsFrom n path).map Prod.fst = components path := by
  induction n generalizing path with
  | zero =>
    rw [List.eq_nil_of_length_eq_zero (Nat.le_zero.mp hn)]
    rfl
  | succ n ih =>
    rw [elemsFrom]
    cases hs : skipelem path with
    | none => rw [List.map_nil, skipelem_none hs]
    | some x =>
      obtain ⟨hc, hlt, -⟩ := skipelem_some hs
      rw [List.map_cons, ih (by omega), hc]

/-- **The elements of a path** are its components. -/
theorem map_fst_elems (path : List UInt8) : (elems path).map Prod.fst = components path := elemsFrom_spec le_rfl

theorem elemsFrom_rest {n : ℕ} {es es' : List (List UInt8 × List UInt8)} (hn : path.length ≤ n)
    (h : elemsFrom n path = es ++ (name, rest) :: es') : rest = [] ↔ es' = [] := by
  induction n generalizing path es with
  | zero => simp [elemsFrom] at h
  | succ n ih =>
    rw [elemsFrom] at h
    cases hs : skipelem path with
    | none =>
      rw [hs] at h
      simp at h
    | some x =>
      obtain ⟨-, hlt, hrest⟩ := skipelem_some hs
      rw [hs] at h
      dsimp only at h
      cases es with
      | nil =>
        rw [List.nil_append, List.cons.injEq] at h
        obtain ⟨hx, rfl⟩ := h
        have hlast : x.2 = rest := congrArg Prod.snd hx
        have hmap : (elemsFrom n x.2).map Prod.fst = components x.2 := elemsFrom_spec (by omega)
        rw [← hlast, hrest, ← hmap, List.map_eq_nil_iff]
      | cons y es =>
        rw [List.cons_append, List.cons.injEq] at h
        exact ih (by omega) h.2

end Components

/-! ### The walk over the components -/

/-- The lookup of a name in a file, which has to be a directory. -/
def lookupIn (F : ℕ → FileData) (i : ℕ) (name : List UInt8) : Option ℕ := if (F i).type = T_DIR then (F i).lookup name else none

/-- **The fold of the lookups** over components, from file `i` on. -/
def walk (F : ℕ → FileData) (i : ℕ) (names : List (List UInt8)) : Option ℕ := names.foldlM (lookupIn F) i

/-- The directory of the last component, and that component. -/
def parentOf (F : ℕ → FileData) (i : ℕ) (names : List (List UInt8)) : Option (ℕ × List UInt8) :=
  names.getLast?.bind fun name => (walk F i names.dropLast).bind fun d => if (F d).type = T_DIR then some (d, name) else none

/-- What the loop of `namex` finds: the inode number, and the value of `name`. -/
def walkTo (F : ℕ → FileData) (parent : Bool) : List (List UInt8 × List UInt8) → ℕ → List UInt8 → Option (ℕ × List UInt8)
  | [], i, name => if parent then none else some (i, name)
  | (name, path) :: es, i, _ =>
    if (F i).type ≠ T_DIR then none
    else if parent = true ∧ path = [] then some (i, name)
    else
      match (F i).lookup name with
      | none => none
      | some j => walkTo F parent es j name

section Walk

variable {F : ℕ → FileData} {i d : ℕ} {name : List UInt8} {names : List (List UInt8)}

theorem walk_cons : walk F i (name :: names) = (lookupIn F i name).bind fun j => walk F j names := rfl

theorem walk_append {pre : List (List UInt8)} : walk F i (pre ++ names) = (walk F i pre).bind fun j => walk F j names := by
  induction pre generalizing i with
  | nil => rfl
  | cons a pre ih =>
    rw [List.cons_append, walk_cons, walk_cons, Option.bind_assoc]
    simp only [ih]

/-- **The walk fails** exactly when a component is missing, or comes after a file that is not a directory. -/
theorem walk_eq_none_iff : walk F i names = none ↔
    ∃ pre name post d, names = pre ++ name :: post ∧ walk F i pre = some d ∧ ((F d).type ≠ T_DIR ∨ (F d).lookup name = none) := by
  constructor
  · intro h
    induction names generalizing i with
    | nil => cases h
    | cons a names ih =>
      rw [walk_cons] at h
      cases hl : lookupIn F i a with
      | none =>
        refine ⟨[], a, names, i, rfl, rfl, ?_⟩
        by_cases hdir : (F i).type = T_DIR
        · rw [lookupIn, if_pos hdir] at hl
          exact .inr hl
        · exact .inl hdir
      | some j =>
        rw [hl] at h
        obtain ⟨pre, name, post, d, rfl, hw, hd⟩ := ih h
        refine ⟨a :: pre, name, post, d, rfl, ?_, hd⟩
        rw [walk_cons, hl]
        exact hw
  · rintro ⟨pre, name, post, d, rfl, hw, hd⟩
    have hl : lookupIn F d name = none := by
      rw [lookupIn]
      split_ifs with hdir
      · exact hd.resolve_left (not_not_intro hdir)
      · rfl
    rw [walk_append, hw, Option.bind_some, walk_cons, hl, Option.bind_none]

/-- The directory of the last component is one, and the walk ends with the lookup in it. -/
theorem parentOf_some (h : parentOf F i names = some (d, name)) : (F d).type = T_DIR ∧ walk F i names = (F d).lookup name := by
  cases hlast : names.getLast? with
  | none =>
    rw [parentOf, hlast] at h
    cases h
  | some a =>
    cases hw : walk F i names.dropLast with
    | none =>
      rw [parentOf, hlast, Option.bind_some, hw] at h
      cases h
    | some j =>
      rw [parentOf, hlast, Option.bind_some, hw, Option.bind_some] at h
      split_ifs at h with hdir
      simp only [Option.some.injEq, Prod.mk.injEq] at h
      obtain ⟨rfl, rfl⟩ := h
      have hne : names ≠ [] := by
        rintro rfl
        cases hlast
      have hsplit : names = names.dropLast ++ [a] := by
        rw [List.getLast?_eq_some_getLast hne, Option.some.injEq] at hlast
        rw [← hlast, List.dropLast_append_getLast]
      refine ⟨hdir, ?_⟩
      rw [hsplit, walk_append, hw, Option.bind_some, walk_cons, lookupIn, if_pos hdir]
      cases (F j).lookup a <;> rfl

/-- The loop in the mode of `namei` makes the walk. -/
theorem walkTo_false (es : List (List UInt8 × List UInt8)) (i : ℕ) (name : List UInt8) :
    (walkTo F false es i name).map Prod.fst = walk F i (es.map Prod.fst) := by
  induction es generalizing i name with
  | nil => rfl
  | cons e es ih =>
    rw [walkTo, List.map_cons, walk_cons, lookupIn, if_neg fun h : false = true ∧ e.2 = [] => Bool.false_ne_true h.1]
    by_cases hdir : (F i).type = T_DIR
    · rw [if_neg (not_not_intro hdir), if_pos hdir]
      cases (F i).lookup e.1 with
      | none => rfl
      | some j => exact ih j e.1
    · rw [if_pos hdir, if_neg hdir]
      rfl

/-- The loop in the mode of `nameiparent` stops before the last component. -/
theorem walkTo_true {es : List (List UInt8 × List UInt8)}
    (hes : ∀ pre name rest post, es = pre ++ (name, rest) :: post → (rest = [] ↔ post = [])) (i : ℕ) (name : List UInt8) :
    walkTo F true es i name = parentOf F i (es.map Prod.fst) := by
  induction es generalizing i name with
  | nil => rfl
  | cons e es ih =>
    obtain ⟨a, rest⟩ := e
    have hrest := hes [] a rest es rfl
    have ih' := ih fun pre name rest post he => hes ((a, _) :: pre) name rest post (by rw [he, List.cons_append])
    rw [walkTo]
    cases es with
    | nil =>
      rw [hrest.mpr rfl]
      by_cases hdir : (F i).type = T_DIR
      · simp [parentOf, walk, hdir]
      · simp [parentOf, walk, hdir]
    | cons e' es =>
      rw [if_neg fun h : true = true ∧ rest = [] => List.cons_ne_nil _ _ (hrest.mp h.2)]
      have hparent : parentOf F i (((a, rest) :: e' :: es).map Prod.fst) =
          (lookupIn F i a).bind fun j => parentOf F j ((e' :: es).map Prod.fst) := by
        rw [List.map_cons, List.map_cons, parentOf, List.getLast?_cons_cons, List.dropLast_cons_cons, walk_cons]
        cases lookupIn F i a with
        | none => simp
        | some j => rfl
      rw [hparent, lookupIn]
      by_cases hdir : (F i).type = T_DIR
      · rw [if_neg (not_not_intro hdir), if_pos hdir]
        cases (F i).lookup a with
        | none => rfl
        | some j => exact ih' j a
      · rw [if_pos hdir, if_neg hdir]
        rfl

theorem walkTo_elems (i : ℕ) (path name : List UInt8) : walkTo F true (elems path) i name = parentOf F i (components path) := by
  rw [elems, walkTo_true fun _ _ _ _ => elemsFrom_rest le_rfl, ← elems, map_fst_elems]

end Walk

/-- The faults that the loop of `namex` may meet, where it does not free inodes: there is no entry of the table of inodes
left, an inode is locked, a name is that of an inode that is not allocated, or a directory ends in the middle of an entry. -/
structure Walks (sb : Superblock) (E : Fault → Prop) (base : InodeNo → ℤ) (l : List InodeNo) (X : ℕ → Prop) (s : FsState) : Prop where
  kept : Kept X l s
  full : (∃ ip, ∀ jp, 0 < base jp ∨ jp ∈ ip :: l) → E .igetNoInodes
  locked : (∃ jp, (s.inode jp).lock ≠ none) → E .blocked
  typed : (∃ i, Named (s.tree sb) i ∧ (s.tree sb i).type = 0) → E .ilockNoType
  whole : (∃ i, (s.tree sb i).type = T_DIR ∧ (s.tree sb i).bytes.length % DESIZE ≠ 0) → E .dirlookupRead

section Namex

variable {sb : Superblock} {p : Slot} {E : Fault → Prop} {fits : List ℕ → Prop} {s t : FsState} {ip : InodeNo} {base : InodeNo → ℤ}
  {l : List InodeNo} {X : ℕ → Prop}

theorem Walks.loads (h : Walks sb E base l X s) (hl : Loads sb s t) (hs : Stays (fun jp => 0 < base jp ∨ jp ∈ l) s t)
    (hlock : ∀ jp, (t.inode jp).lock = (s.inode jp).lock) : Walks sb E base l X t where
  kept := h.kept.stays fun jp hjp => (hs jp (.inr hjp)).1
  full := h.full
  locked := by
    simp only [hlock]
    exact h.locked
  typed := by
    rw [FsState.tree, hl.vol]
    exact h.typed
  whole := by
    rw [FsState.tree, hl.vol]
    exact h.whole

/-- The state after `ilock` and then `iunlock`, or an `iput`, differs in the table only. -/
theorem lock_locked (jp : InodeNo) : ((s.locked sb p ip).inode jp).lock = if jp = ip then some p else (s.inode jp).lock := by
  by_cases h : jp = ip
  · subst h
    simp [FsState.locked, FsState.setInode]
  · simp [FsState.locked, FsState.setInode, h]

/-- **The loop of `namex`**. -/
theorem namexFrom_spec {parent : Bool} {es : List (List UInt8 × List UInt8)} {name : List UInt8}
    {Q : Option (InodeNo × List UInt8) → FsState → Prop} (h : InOrder sb base (ip :: l) X s)
    (hW : Walks sb E base l X s) (hroot : Rooted sb base s ip)
    (hnone : ∀ t, InOrder sb base l X t → Loads sb s t → walkTo (s.tree sb) parent es (s.inode ip).inum name = none → Q none t)
    (hsome : ∀ dp last t, InOrder sb base (dp :: l) X t → Loads sb s t →
      walkTo (s.tree sb) parent es (s.inode ip).inum name = some ((t.inode dp).inum, last) → Q (some (dp, last)) t) :
    (namexFrom sb parent es ip name).wp (fsRules sb p E fits) Q s := by
  induction es generalizing ip name s with
  | nil =>
    rw [namexFrom]
    split_ifs with hpar
    · rw [wp_bind]
      exact iput_keep_spec h (h.stay hroot hW.kept) fun t ht hl _ _ => hnone t ht hl (by rw [walkTo, if_pos hpar])
    · exact hsome ip name s h (.refl s) (by rw [walkTo, if_neg hpar])
  | cons e es ih =>
    obtain ⟨name', path⟩ := e
    have href := h.ref_pos List.mem_cons_self
    have hpos : ∀ jp, 0 < base jp ∨ jp ∈ l → 0 < (s.inode jp).ref := fun jp hjp => h.pos (hjp.imp_right (List.mem_cons_of_mem _))
    rw [namexFrom, wp_bind]
    refine ilock_spec h href (fun hlk => hW.locked ⟨ip, hlk⟩) (fun h0 => ?_) fun hfree hin hload hstay => ?_
    · rcases hroot with hname | hb
      · exact hW.typed ⟨_, hname, h0⟩
      · exact absurd h0 (h.live ip hb)
    have hlock := @lock_locked sb p s ip
    have hvalid : ((s.locked sb p ip).inode ip).valid = true := by simp [FsState.locked, FsState.setInode]
    obtain ⟨u, hu⟩ : ∃ u, u = s.locked sb p ip := ⟨_, rfl⟩
    rw [← hu] at hin hload hstay hlock hvalid ⊢
    have hinum : (u.inode ip).inum = (s.inode ip).inum := (hstay ip href).1
    have htree : u.tree sb = s.tree sb := hload.tree
    have href' := hin.ref_pos List.mem_cons_self
    have htype : (u.inode ip).d.type = (s.tree sb (s.inode ip).inum).type := by
      rw [← htree, ← hinum, Vol.type_file, (hin.opened href' hvalid).inode]
    have hlkp : ∀ {t : FsState}, (t.inode ip).lock = (u.inode ip).lock → (t.inode ip).lock ≠ some p → E .iunlock := by
      intro t ht hne
      rw [ht, hlock, if_pos rfl] at hne
      exact absurd rfl hne
    -- what is known of the inode is still known
    have hroot' : Rooted sb base u ip := by
      rw [Rooted, htree, hinum]
      exact hroot
    have hkept : Kept X l u := hW.kept.stays fun jp hjp => (hstay jp (hpos jp (.inr hjp))).1
    have hfirm : Firm sb base l u ip := hin.stay hroot' hkept
    rw [wp_bind]
    refine fields_spec ?_
    rw [htype]
    by_cases hdir : (s.tree sb (s.inode ip).inum).type = T_DIR
    · rw [if_neg (not_not_intro hdir)]
      by_cases hlast : parent = true ∧ path = []
      · rw [if_pos hlast, wp_bind]
        refine iunlock_spec hin href' (hlkp rfl) fun hin' hload' hstay' => hsome ip name' _ hin' (hload.trans hload') ?_
        rw [walkTo, if_neg (not_not_intro hdir), if_pos hlast, (hstay' ip href').1, hinum]
      · rw [if_neg hlast, wp_bind]
        have hwalk : walkTo (s.tree sb) parent ((name', path) :: es) (s.inode ip).inum name =
            match (s.tree sb (s.inode ip).inum).lookup name' with
            | none => none
            | some j => walkTo (s.tree sb) parent es j name' := by
          rw [walkTo, if_neg (not_not_intro hdir), if_neg hlast]
        have hsame : u.dir sb ip = s.tree sb (s.inode ip).inum := by rw [FsState.dir, htree, hinum]
        refine dirlookup_spec hin href' hvalid (fun hne => ?_) (fun hne => ?_) (fun hall => hW.full ⟨ip, hall⟩) (fun _ _ hf => ?_)
          fun k next t _ hf ht hload' hnum hstay' hlock' => ?_
        · rw [hsame] at hne
          exact absurd hdir hne
        · rw [hsame] at hne
          exact hW.whole ⟨_, hdir, hne⟩
        · rw [wp_bind]
          refine iunlockput_keep_spec hin (hlkp rfl) hfirm fun t ht hl _ _ => hnone t ht (hload.trans hl) ?_
          rw [hsame] at hf
          rw [hwalk, FileData.lookup, hf]
          rfl
        · -- on to the directory that was found
          rw [hsame] at hf hnum
          have hlook : (s.tree sb (s.inode ip).inum).lookup name' = some (t.inode next).inum := by
            rw [FileData.lookup, hf, hnum]
            rfl
          have htree' : t.tree sb = s.tree sb := by rw [FsState.tree, hload'.vol, hload.vol]
          have hpos' : ∀ jp, 0 < base jp ∨ jp ∈ l → 0 < (u.inode jp).ref := fun jp hjp => hin.pos (hjp.imp_right (List.mem_cons_of_mem _))
          have ht' := ht.perm (List.Perm.swap ip next l)
          rw [wp_bind]
          refine iunlockput_keep_spec ht' (hlkp (hlock' ip)) (ht'.stay ?_ ?_) fun w hw hl hst hlk => ?_
          · rw [Rooted, htree', (hstay' ip href').1, hinum]
            exact hroot
          · exact (hkept.stays fun jp hjp => (hstay' jp (hpos' jp (.inr hjp))).1).mono (List.subset_cons_self _ _)
          have hnext : (w.inode next).inum = (t.inode next).inum := (hst next (.inr List.mem_cons_self)).1
          have hloadw : Loads sb s w := (hload.trans hload').trans hl
          have hstayw : Stays (fun jp => 0 < base jp ∨ jp ∈ l) s w :=
            ((hstay.mono hpos).trans (hstay'.mono hpos')).trans (hst.mono fun jp hjp => hjp.imp_right (List.mem_cons_of_mem _))
          have hlockw : ∀ jp, (w.inode jp).lock = (s.inode jp).lock := by
            intro jp
            rw [hlk, hlock', hlock]
            split_ifs with hjp
            · rw [hjp, hfree]
            · rfl
          refine ih hw (hW.loads hloadw hstayw hlockw) (.inl ?_) (fun v hv hn hnone' => ?_) fun dp last v hv hn hsome' => ?_
          · rw [FsState.tree, hloadw.vol, hnext, hnum]
            exact .inr ⟨_, hdir, _, FileData.mem_entries (FileData.find_some hf).1, rfl⟩
          · refine hnone v hv (hloadw.trans hn) ?_
            rw [hwalk, hlook, ← hnext, ← hloadw.tree]
            exact hnone'
          · refine hsome dp last v hv (hloadw.trans hn) ?_
            rw [hwalk, hlook, ← hnext, ← hloadw.tree]
            exact hsome'
    · rw [if_pos hdir, wp_bind]
      refine iunlockput_keep_spec hin (hlkp rfl) hfirm fun t ht hl _ _ => hnone t ht (hload.trans hl) ?_
      rw [walkTo, if_pos hdir]

/-- The inode that a path starts from. -/
def FsState.start (s : FsState) (p : Slot) (path : List UInt8) : Option ℕ :=
  if path.head? = some slash then some ROOTINO else (s.cwd p).map fun ip => (s.inode ip).inum

/-- **`namex`** walks from the root or from the current directory. -/
theorem namex_spec {parent : Bool} {path : List UInt8} {Q : Option (InodeNo × List UInt8) → FsState → Prop} (hsb : sb.Ok)
    (h : InOrder sb base l X s) (hcwd : ∀ ip, s.cwd p = some ip → 0 < base ip) (hW : Walks sb E base l X s)
    (hnull : s.start p path = none → E .null)
    (hnone : ∀ t, InOrder sb base l X t → Loads sb s t →
      (s.start p path).bind (walkTo (s.tree sb) parent (elems path) · []) = none → Q none t)
    (hsome : ∀ dp last t, InOrder sb base (dp :: l) X t → Loads sb s t →
      (s.start p path).bind (walkTo (s.tree sb) parent (elems path) · []) = some ((t.inode dp).inum, last) → Q (some (dp, last)) t) :
    (namex sb p path parent).wp (fsRules sb p E fits) Q s := by
  have hpos : ∀ jp, 0 < base jp ∨ jp ∈ l → 0 < (s.inode jp).ref := fun jp hjp => h.pos hjp
  -- the loop, when there is a reference to the first inode
  have hloop : ∀ ip t, InOrder sb base (ip :: l) X t → Loads sb s t → Stays (fun jp => 0 < (s.inode jp).ref) s t →
      (∀ jp, (t.inode jp).lock = (s.inode jp).lock) → Rooted sb base t ip → s.start p path = some (t.inode ip).inum →
      (namexFrom sb parent (elems path) ip []).wp (fsRules sb p E fits) Q t := by
    intro ip t ht hload hstay hlock hroot hstart
    rw [hstart, ← hload.tree] at hnone hsome
    exact namexFrom_spec ht (hW.loads hload (hstay.mono hpos) hlock) hroot (fun u hu hn => hnone u hu (hload.trans hn))
      fun dp last u hu hn => hsome dp last u hu (hload.trans hn)
  rw [namex]
  by_cases habs : path.head? = some slash
  · rw [if_pos habs, wp_bind]
    refine iget_spec h ⟨Nat.zero_lt_one, hsb.root⟩ (fun hall => ?_) fun ip t ht hload hinum hstay hlock => ?_
    · exact hW.full ⟨0, fun jp => (hall jp).imp_right (List.mem_cons_of_mem _)⟩
    · exact hloop ip t ht hload hstay hlock (.inl (.inl hinum)) (by rw [FsState.start, if_pos habs, hinum])
  · rw [if_neg habs, wp_bind]
    refine wp_command nofun ?_
    change Prog.wp _ _ _ s
    cases hc : s.cwd p with
    | none => exact panic_spec (hnull (by rw [FsState.start, if_neg habs, hc, Option.map_none]))
    | some ip =>
      dsimp only
      rw [wp_bind]
      refine idup_inOrder h (hpos ip (.inl (hcwd ip hc))) fun t ht hload hstay hlock => ?_
      refine hloop ip t ht hload hstay hlock (.inr (hcwd ip hc)) ?_
      rw [FsState.start, if_neg habs, hc, Option.map_some, (hstay ip (hpos ip (.inl (hcwd ip hc)))).1]

end Namex

/-! ### Between two calls -/

/-- No call runs: all references are those of open files and current directories. -/
structure Resting (sb : Superblock) (X : ℕ → Prop) (s : FsState) : Prop where
  order : InOrder sb (fun ip => (s.inode ip).ref) [] X s
  unlocked : ∀ ip, (s.inode ip).lock = none
  cwd : ∀ q ip, s.cwd q = some ip → 0 < (s.inode ip).ref
  logged : s.logged = []
  outstanding : s.outstanding = 0

theorem DiskOk.resting {sb : Superblock} {disk : ℕ → Block} {X : ℕ → Prop} (hsb : sb.Ok) (h : DiskOk sb disk)
    (hX : ∀ i, ¬X i → Named ((FsState.boot disk).tree sb) i → ((FsState.boot disk).tree sb i).type ≠ 0 →
      ((FsState.boot disk).tree sb i).nlink ≠ 0) : Resting sb X (.boot disk) where
  order := h.inOrder hsb hX
  unlocked _ := rfl
  cwd q ip hq := by
    simp only [FsState.boot] at hq
    split_ifs at hq
    cases hq
    exact Int.one_pos
  logged := rfl
  outstanding := rfl

/-- How a path may fail to be resolved: there is at most one free entry in the table of inodes, a name is that of an
inode that is not allocated, or a directory ends in the middle of an entry. -/
def Unresolved (sb : Superblock) (s : FsState) : Fault → Prop
  | .igetNoInodes => ∃ ip, ∀ jp, jp ≠ ip → 0 < (s.inode jp).ref
  | .ilockNoType => ∃ i, Named (s.tree sb) i ∧ (s.tree sb i).type = 0
  | .dirlookupRead => ∃ i, (s.tree sb i).type = T_DIR ∧ (s.tree sb i).bytes.length % DESIZE ≠ 0
  | _ => False

section Resolution

variable {sb : Superblock} {p : Slot} {s : FsState} {i : ℕ} {path : List UInt8}

theorem Resting.walks (h : Resting sb (fun _ => False) s) :
    Walks sb (Unresolved sb s) (fun ip => (s.inode ip).ref) [] (fun _ => False) s where
  kept _ hi := hi.elim
  full := fun ⟨ip, hall⟩ => ⟨ip, fun jp hne => (hall jp).resolve_right (by simpa using hne)⟩
  locked := fun ⟨jp, hjp⟩ => absurd (h.unlocked jp) hjp
  typed := id
  whole := id

/-- What `namex` finds, with the path from inode `i`. -/
theorem Resting.namex (hsb : sb.Ok) (h : Resting sb (fun _ => False) s) (hstart : s.start p path = some i) (parent : Bool) :
    Post (Unresolved sb s) (fun r t => r.map (fun x => ((t.inode x.1).inum, x.2)) = walkTo (s.tree sb) parent (elems path) i [] ∧
      t.tree sb = s.tree sb) ((namex sb p path parent).run (execCmd sb p) s) := by
  refine post_of_any (namex_spec hsb h.order (h.cwd p) h.walks (fun hnone => ?_) (fun t _ hload hw => ?_)
    fun dp last t _ hload hw => ?_)
  · rw [hstart] at hnone
    cases hnone
  · rw [hstart, Option.bind_some] at hw
    exact ⟨hw.symm, hload.tree⟩
  · rw [hstart, Option.bind_some] at hw
    exact ⟨hw.symm, hload.tree⟩

/-- **Path resolution follows the component list**: the elements that `skipelem` finds are the components of the path;
`namei` is the fold of the lookups over them, from the root or the current directory; and `nameiparent` is the directory in
which the last component is looked up. -/
theorem path_resolution (hsb : sb.Ok) (h : Resting sb (fun _ => False) s) (hstart : s.start p path = some i) :
    (elems path).map Prod.fst = components path ∧
    Post (Unresolved sb s) (fun r t => r.map (fun ip => (t.inode ip).inum) = walk (s.tree sb) i (components path) ∧
      t.tree sb = s.tree sb) ((namei sb p path).run (execCmd sb p) s) ∧
    (walk (s.tree sb) i (components path) = none ↔ ∃ pre name post d, components path = pre ++ name :: post ∧
      walk (s.tree sb) i pre = some d ∧ ((s.tree sb d).type ≠ T_DIR ∨ (s.tree sb d).lookup name = none)) ∧
    Post (Unresolved sb s) (fun r t => r.map (fun x => ((t.inode x.1).inum, x.2)) = parentOf (s.tree sb) i (components path) ∧
      t.tree sb = s.tree sb ∧ (components path = [] → r = none) ∧
      ∀ dp name, r = some (dp, name) → (t.tree sb (t.inode dp).inum).type = T_DIR ∧
        walk (s.tree sb) i (components path) = (t.tree sb (t.inode dp).inum).lookup name)
      ((nameiparent sb p path).run (execCmd sb p) s) := by
  refine ⟨map_fst_elems path, ?_, walk_eq_none_iff, ?_⟩
  · have hx := wp_exact_iff.mpr (h.namex hsb hstart false)
    refine wp_exact_iff.mp (wp_bind_of hx fun r t ⟨hr, ht⟩ => ⟨?_, ht⟩)
    rw [← map_fst_elems, ← walkTo_false, ← hr, Option.map_map, Option.map_map]
    rfl
  · refine (h.namex hsb hstart true).mono fun r t ⟨hr, ht⟩ => ?_
    rw [walkTo_elems] at hr
    refine ⟨hr, ht, fun hnil => ?_, fun dp name hsome => ?_⟩
    · rw [hnil] at hr
      exact Option.map_eq_none_iff.mp hr
    · rw [hsome, Option.map_some] at hr
      rw [ht]
      exact parentOf_some hr.symm

end Resolution

/-- `namei("/a")` on the small disk. -/
theorem path_resolution_of_file : ∃ ip t, (namei tinySuper 0 [47, 97]).run (execCmd tinySuper 0) (.boot tinyDisk) = .ok (some ip, t) ∧
    (t.inode ip).inum = 2 ∧ walk ((FsState.boot tinyDisk).tree tinySuper) 1 [[97]] = some 2 := by
  have hrest := diskOk_tinyDisk.resting (X := fun _ => False) tinySuper_ok fun i _ _ => linked_tinyDisk i
  have hwalk : walk ((FsState.boot tinyDisk).tree tinySuper) 1 (components [47, 97]) = some 2 := by decide +kernel
  have hok : (match (namei tinySuper 0 [47, 97]).run (execCmd tinySuper 0) (.boot tinyDisk) with
      | .ok (r, _) => r.isSome
      | .error _ => false) = true := by decide +kernel
  have hstart : (FsState.boot tinyDisk).start 0 [47, 97] = some 1 := rfl
  have hpost := (path_resolution tinySuper_ok hrest hstart).2.1
  cases hrun : (namei tinySuper 0 [47, 97]).run (execCmd tinySuper 0) (.boot tinyDisk) with
  | error e =>
    rw [hrun] at hok
    cases hok
  | ok x =>
    obtain ⟨r, t⟩ := x
    rw [hrun] at hok hpost
    obtain ⟨ip, rfl⟩ := Option.isSome_iff_exists.mp hok
    have hnum := hpost.1
    rw [hwalk, Option.map_some, Option.some.injEq] at hnum
    exact ⟨ip, t, rfl, hnum, hwalk⟩

end Xv6Shmem.Fs
