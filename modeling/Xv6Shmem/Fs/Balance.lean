import Xv6Shmem.Fs.Book
import Xv6Shmem.Files.Counts
import Mathlib.Algebra.BigOperators.Ring.Finset
import Mathlib.Tactic.Linarith

/-!
# References, locks and operations are given back

Every path through the code of a call gives back what it has taken: references to inodes in memory,
but for those that it leaves in an open file or in a current directory, sleep-locks of inodes, and
`log.outstanding`.

## What is proved

* a spec for each call, and `call_balanced` from them — a call leaves the book balanced.
* `settled_of_reachable` — between calls the count of an inode in memory is the number of open files
  and current directories that refer to it, no inode is locked and no operation is under way.
* `calls_balanced` — the same for the sum over the table, with the locks and the operations.
-/

namespace Xv6Shmem.Fs

open Function Kernel Disk Files Prog LTS Tally

section Specs

variable {sb : Superblock} {p : Slot} {g : Book} {ip dp : InodeNo}

/-! ### Calls that leave the book alone -/

/-- One more operation. -/
def Book.inOp (g : Book) : Book := { g with outstanding := g.outstanding + 1 }

theorem wp_beginOp {Q : Unit → Book → Prop} (h : Q () g.inOp) : beginOp.wp (booking p).rules Q g := ⟨trivial, fun _ _ => h⟩

theorem wp_endOp {Q : Unit → Book → Prop} (h : Q () g) : endOp.wp (booking p).rules Q g.inOp := ⟨trivial, fun _ _ => h⟩

variable {Q : ℤ → Book → Prop} {type : Int16}

theorem wp_endOp_ret {r : ℤ} (h : Q r g) : (do endOp; return r : Code ℤ).wp (booking p).rules Q g.inOp :=
  wp_bind.mpr (wp_endOp h)

theorem wp_setFields {β : Type} {y : Dinode → Dinode} {k : Code β} {Q : β → Book → Prop} (h : k.wp (booking p).rules Q g) :
    (do let x ← fields ip; setFields ip (y x); iupdate sb ip; k : Code β).wp (booking p).rules Q g :=
  wp_keeps (keeps_fields ip) fun _ => wp_keeps (keeps_setFields ip _) fun _ => wp_keeps (keeps_iupdate ip) fun _ => h

theorem wp_linkBad (h : ∀ r, Q r g) : (linkBad sb ip).wp (booking p).rules Q (g.addRef ip 1).inOp := by
  refine wp_bind.mpr (wp_ilock fun hlock => wp_setFields (wp_bind.mpr ?_))
  exact wp_iunlockput_got (g := g.inOp) hlock (wp_endOp_ret (h _))

theorem wp_linkTo {new : List UInt8} (h : ∀ r, Q r g) :
    (linkTo sb p ip new).wp (booking p).rules Q (g.addRef ip 1).inOp := by
  refine wp_bind.mpr (wp_namex (wp_linkBad h) fun dp name => wp_bind.mpr (wp_ilock fun hlock => ?_))
  refine wp_keeps (keeps_ident dp) fun ⟨ddev, _⟩ => wp_keeps (keeps_ident ip) fun ⟨idev, inum⟩ => ?_
  dsimp only
  split
  · exact wp_bind.mpr (wp_iunlockput_got hlock (wp_linkBad h))
  · refine wp_keeps (keeps_dirlink dp name inum) fun r => ?_
    split
    · exact wp_bind.mpr (wp_iunlockput_got hlock (wp_linkBad h))
    · refine wp_bind.mpr (wp_iunlockput_got hlock (wp_bind.mpr (wp_iput ?_)))
      change (do endOp; return 0 : Code ℤ).wp (booking p).rules Q ((g.addRef ip 1).addRef ip (-1)).inOp
      rw [Book.addRef_drop]
      exact wp_endOp_ret (h _)

theorem keeps_sysLink (p : Slot) (old new : Option (List UInt8)) {Q : ℤ → Book → Prop} (h : ∀ r, Q r g) :
    (sysLink sb p old new).wp (booking p).rules Q g := by
  cases old with
  | none => exact h _
  | some old =>
    cases new with
    | none => exact h _
    | some new =>
      refine wp_bind.mpr (wp_beginOp (wp_bind.mpr (wp_namei (wp_endOp_ret (h _)) fun ip => ?_)))
      refine wp_bind.mpr (wp_ilock fun hlock => wp_keeps (keeps_fields ip) fun x => ?_)
      split
      · exact wp_bind.mpr (wp_iunlockput_got hlock (wp_endOp_ret (h _)))
      · refine wp_keeps (keeps_setFields ip _) fun _ => wp_keeps (keeps_iupdate ip) fun _ => ?_
        exact wp_bind.mpr (wp_iunlock_of hlock (wp_linkTo h))

theorem wp_unlinkBad (h : ∀ r, Q r g) (hlock : g.lock dp = none) :
    (unlinkBad sb dp).wp (booking p).rules Q ((g.addRef dp 1).inOp.setLock dp (some p)) :=
  wp_bind.mpr (wp_iunlockput_got (g := g.inOp) hlock (wp_endOp_ret (h _)))

theorem wp_unlinkEntry {off : ℕ} (h : ∀ r, Q r g) (hne : ip ≠ dp) (hdp : g.lock dp = none)
    (hip : g.lock ip = none) : (unlinkEntry sb dp ip off).wp (booking p).rules Q
      ((((g.addRef dp 1).addRef ip 1).inOp.setLock dp (some p)).setLock ip (some p)) := by
  refine wp_keeps (keeps_writei dp _ _ _) fun r => ?_
  split
  · exact wp_panic _
  have hrest : (do
      iunlockput sb dp
      let x ← fields ip
      setFields ip { x with nlink := x.nlink - 1 }
      iupdate sb ip
      iunlockput sb ip
      endOp
      return 0 : Code ℤ).wp (booking p).rules Q
        ((((g.addRef dp 1).addRef ip 1).inOp.setLock dp (some p)).setLock ip (some p)) := by
    rw [Book.setLock_comm hne.symm]
    refine wp_bind.mpr (wp_iunlockput_of (by rwa [Book.lock_setLock_of_ne hne.symm]) (wp_setFields (wp_bind.mpr ?_)))
    change (iunlockput sb ip).wp (booking p).rules _
      ((((g.addRef dp 1).addRef ip 1).addRef dp (-1)).inOp.setLock ip (some p))
    rw [Book.addRef_comm dp, Book.addRef_drop]
    exact wp_iunlockput_got (g := g.inOp) hip (wp_endOp_ret (h _))
  refine wp_keeps (keeps_fields ip) fun x => ?_
  split
  · exact wp_setFields hrest
  · exact hrest

theorem keeps_sysUnlink (p : Slot) (path : Option (List UInt8)) {Q : ℤ → Book → Prop} (h : ∀ r, Q r g) :
    (sysUnlink sb p path).wp (booking p).rules Q g := by
  cases path with
  | none => exact h _
  | some path =>
    refine wp_bind.mpr (wp_beginOp (wp_bind.mpr (wp_namex (wp_endOp_ret (h _)) fun dp name => ?_)))
    refine wp_bind.mpr (wp_ilock fun hdp => ?_)
    replace hdp : g.lock dp = none := hdp
    split
    · exact wp_unlinkBad h hdp
    refine wp_bind.mpr (wp_dirlookup (wp_unlinkBad h hdp) fun ip off => wp_bind.mpr (wp_ilock fun hip => ?_))
    have hne : ip ≠ dp := by
      rintro rfl
      simp at hip
    replace hip : g.lock ip = none := by
      rw [Book.lock_addRef, Book.lock_setLock_of_ne hne] at hip
      exact hip
    have hentry : (unlinkEntry sb dp ip off).wp (booking p).rules Q _ := wp_unlinkEntry h hne hdp hip
    refine wp_keeps (keeps_fields ip) fun x => ?_
    split
    · exact wp_panic _
    split
    · refine wp_keeps (keeps_isdirempty ip) fun empty => ?_
      split
      · exact hentry
      · exact wp_bind.mpr (wp_iunlockput_got (by rwa [Book.lock_setLock_of_ne hne]) (wp_unlinkBad h hdp))
    · exact hentry

theorem wp_createFail {Q : Option InodeNo → Book → Prop} (h0 : Q none g) (hne : ip ≠ dp) (hdp : g.lock dp = none)
    (hip : g.lock ip = none) : (createFail sb dp ip).wp (booking p).rules Q
      ((((g.addRef dp 1).addRef ip 1).setLock dp (some p)).setLock ip (some p)) := by
  refine wp_setFields (wp_bind.mpr (wp_iunlockput_of (by rwa [Book.lock_setLock_of_ne hne]) (wp_bind.mpr ?_)))
  rw [Book.addRef_setLock, Book.addRef_drop]
  exact wp_iunlockput_got hdp h0

theorem wp_createLink {name : List UInt8} {Q : Option InodeNo → Book → Prop} (h0 : Q none g)
    (h1 : Q (some ip) ((g.addRef ip 1).setLock ip (some p))) (hne : ip ≠ dp) (hdp : g.lock dp = none)
    (hip : g.lock ip = none) : (createLink sb dp ip name type).wp (booking p).rules Q
      ((((g.addRef dp 1).addRef ip 1).setLock dp (some p)).setLock ip (some p)) := by
  refine wp_keeps (keeps_ident ip) fun ⟨_, inum⟩ => wp_keeps (keeps_dirlink dp name inum) fun r => ?_
  split
  · exact wp_createFail h0 hne hdp hip
  have hput : (do iunlockput sb dp; return some ip : Code (Option InodeNo)).wp (booking p).rules Q
      ((((g.addRef dp 1).addRef ip 1).setLock dp (some p)).setLock ip (some p)) := by
    rw [Book.setLock_comm hne.symm]
    refine wp_bind.mpr (wp_iunlockput_of (by rwa [Book.lock_setLock_of_ne hne.symm]) ?_)
    rw [Book.addRef_setLock, Book.addRef_comm dp, Book.addRef_drop]
    exact h1
  split
  · exact wp_setFields hput
  · exact hput

theorem wp_createNew {name : List UInt8} {major minor : Int16} {Q : Option InodeNo → Book → Prop} (h0 : Q none g)
    (h1 : ∀ ip, g.lock ip = none → Q (some ip) ((g.addRef ip 1).setLock ip (some p))) (hdp : g.lock dp = none) :
    (createNew sb dp ip name type major minor).wp (booking p).rules Q (((g.addRef dp 1).setLock dp (some p)).addRef ip 1) := by
  refine wp_bind.mpr (wp_ilock fun hip => wp_setFields ?_)
  have hne : ip ≠ dp := by
    rintro rfl
    simp at hip
  replace hip : g.lock ip = none := by
    rw [Book.lock_addRef, Book.lock_setLock_of_ne hne] at hip
    exact hip
  have hdots : Keeps (createDots sb dp ip) := by
    refine (keeps_ident ip).bind fun ⟨_, inum⟩ => (keeps_dirlink ip dot inum).bind fun r => ?_
    split
    · exact .pure _
    · exact (keeps_ident dp).bind fun ⟨_, pnum⟩ => (keeps_dirlink ip dotdot pnum).bind fun r => .pure _
  split
  · refine wp_keeps hdots fun ok => ?_
    split
    · exact wp_createLink h0 (h1 ip hip) hne hdp hip
    · exact wp_createFail h0 hne hdp hip
  · exact wp_createLink h0 (h1 ip hip) hne hdp hip

theorem wp_create {path : List UInt8} {major minor : Int16} {Q : Option InodeNo → Book → Prop} (h0 : Q none g)
    (h1 : ∀ ip, g.lock ip = none → Q (some ip) ((g.addRef ip 1).setLock ip (some p))) :
    (create sb p path type major minor).wp (booking p).rules Q g := by
  refine wp_bind.mpr (wp_namex h0 fun dp name => wp_bind.mpr (wp_ilock fun hdp => ?_))
  replace hdp : g.lock dp = none := hdp
  refine wp_bind.mpr (wp_dirlookup ?_ fun ip off => ?_)
  · refine wp_keeps (keeps_ident dp) fun ⟨dev, _⟩ => wp_bind.mpr (wp_ialloc ?_ fun ip => wp_createNew h0 h1 hdp)
    exact wp_bind.mpr (wp_iunlockput_got hdp h0)
  · rw [Book.addRef_setLock, Book.addRef_comm]
    refine wp_bind.mpr (wp_iunlockput_got hdp (wp_bind.mpr (wp_ilock fun hip => wp_keeps (keeps_fields ip) fun x => ?_)))
    split
    · exact h1 ip hip
    · exact wp_bind.mpr (wp_iunlockput_got hip h0)

theorem keeps_createCall (p : Slot) (path : Option (List UInt8)) (type major minor : Int16) {Q : ℤ → Book → Prop}
    (h : ∀ r, Q r g) : (createCall sb p path type major minor).wp (booking p).rules Q g := by
  refine wp_bind.mpr (wp_beginOp ?_)
  cases path with
  | none => exact wp_endOp_ret (h _)
  | some path =>
    refine wp_bind.mpr (wp_create (wp_endOp_ret (h _)) fun ip hip => ?_)
    exact wp_bind.mpr (wp_iunlockput_got hip (wp_endOp_ret (h _)))

theorem keeps_sysExec (p : Slot) (path : Option (List UInt8)) (env : Building) {Q : ℤ → Book → Prop} (h : ∀ r, Q r g) :
    (sysExec sb p path env).wp (booking p).rules Q g := by
  cases path with
  | none => exact h _
  | some path =>
    refine wp_bind.mpr (wp_beginOp (wp_bind.mpr (wp_namei (wp_endOp_ret (h _)) fun ip => ?_)))
    refine wp_bind.mpr (wp_ilock fun hip => wp_keeps (keeps_execLoad ip env) fun ok => ?_)
    refine wp_bind.mpr (wp_iunlockput_got hip (wp_bind.mpr (wp_endOp ?_)))
    split
    · split
      · exact h _
      · exact h _
    · exact h _

end Specs

/-! ### References that are kept -/

/-- The file refers to inode `ip`. -/
def RefersTo (x : File) (ip : InodeNo) : Prop := (x.type = .inode ∨ x.type = .device) ∧ x.ip = ip

instance (x : File) (ip : InodeNo) : Decidable (RefersTo x ip) := inferInstanceAs (Decidable (_ ∧ _))

namespace Book

/-- The number of files and current directories that refer to inode `ip`. -/
def stored (g : Book) (ip : InodeNo) : ℕ :=
  tally (fun f => decide (RefersTo (g.files.file f) ip)) + tally fun q => decide (g.cwd q = some ip)

end Book

/-- A file that is not in use has no type, and only a process has a current directory. -/
structure Book.Ok (g : Book) : Prop where
  idle : ∀ f, (g.files.file f).ref = 0 → (g.files.file f).type = .none
  cwd : ∀ q, g.files.life q ≠ .live → g.cwd q = none

/-- What was taken has been given back or is kept: the books `g` after `g₀`. -/
structure Balanced (g₀ g : Book) : Prop where
  refs : ∀ ip, g.refs ip - g.stored ip = g₀.refs ip - g₀.stored ip
  lock : g.lock = g₀.lock
  outstanding : g.outstanding = g₀.outstanding
  ok : g.Ok

section Balance

variable {sb : Superblock} {p : Slot} {g g₀ : Book} {ip : InodeNo} {f : FileNo} {t : FileState} {x : File}
  {Q : Unit → Book → Prop}

theorem Book.Ok.balanced (h : g.Ok) : Balanced g g := ⟨fun _ => rfl, rfl, rfl, h⟩

theorem not_refersTo (h : x.type = .none) : ¬ RefersTo x ip := by
  simp [RefersTo, h]

theorem Balanced.setFiles (h : Balanced g₀ g) (hidle : ∀ k, (t.file k).ref = 0 → (t.file k).type = .none)
    (hrefs : ∀ k ip, RefersTo (t.file k) ip ↔ RefersTo (g.files.file k) ip) (hlife : t.life = g.files.life) :
    Balanced g₀ (g.setFiles t) := by
  have hst : ∀ ip, (g.setFiles t).stored ip = g.stored ip := by
    intro ip
    have ht : (tally fun k => decide (RefersTo (t.file k) ip)) = tally fun k => decide (RefersTo (g.files.file k) ip) :=
      tally_congr fun k => decide_eq_decide.mpr (hrefs k ip)
    exact congrArg (· + tally fun q => decide (g.cwd q = some ip)) ht
  refine ⟨fun ip => ?_, h.lock, h.outstanding, hidle, fun q hq => ?_⟩
  · rw [hst]
    exact h.refs ip
  · refine h.ok.cwd q ?_
    rw [← hlife]
    exact hq

theorem Balanced.idle (h : Balanced g₀ g) (hidle : x.ref = 0 → x.type = .none) (k : FileNo)
    (hk : ((g.files.setFile f x).file k).ref = 0) : ((g.files.setFile f x).file k).type = .none := by
  by_cases hkf : k = f
  · subst hkf
    simp only [FileState.setFile, update_self] at hk ⊢
    exact hidle hk
  · simp only [FileState.setFile, update_of_ne hkf] at hk ⊢
    exact h.ok.idle k hk

theorem Balanced.setFile (h : Balanced g₀ g) (hidle : x.ref = 0 → x.type = .none)
    (hrefs : ∀ ip, RefersTo x ip ↔ RefersTo (g.files.file f) ip) : Balanced g₀ (g.setFiles (g.files.setFile f x)) := by
  refine h.setFiles (h.idle hidle) (fun k ip => ?_) rfl
  by_cases hkf : k = f
  · subst hkf
    simpa [FileState.setFile] using hrefs ip
  · simp [FileState.setFile, hkf]

theorem Balanced.of_file (h : Balanced g₀ g) (hfile : t.file = g.files.file) (hlife : t.life = g.files.life) :
    Balanced g₀ (g.setFiles t) :=
  h.setFiles (fun k hk => by rw [hfile] at hk ⊢; exact h.ok.idle k hk) (fun k ip => by rw [hfile]) hlife

theorem stored_setFile (x : File) (k : InodeNo) :
    (g.setFiles (g.files.setFile f x)).stored k + (decide (RefersTo (g.files.file f) k)).toNat =
      g.stored k + (decide (RefersTo x k)).toNat := by
  have h := tally_change (f := fun j => decide (RefersTo (g.files.file j) k))
    (g := fun j => decide (RefersTo ((g.files.setFile f x).file j) k)) (p := f) fun j hj => by simp [FileState.setFile, hj]
  have hx : (g.files.setFile f x).file f = x := by simp [FileState.setFile]
  simp only [hx] at h
  change (tally fun j => decide (RefersTo ((g.files.setFile f x).file j) k)) + (tally fun q => decide (g.cwd q = some k)) + _ =
    (tally fun j => decide (RefersTo (g.files.file j) k)) + (tally fun q => decide (g.cwd q = some k)) + _
  omega

theorem stored_setCwd (q : Slot) (o : Option InodeNo) (k : InodeNo) :
    Book.stored { g with cwd := update g.cwd q o } k + (decide (g.cwd q = some k)).toNat =
      g.stored k + (decide (o = some k)).toNat := by
  have h := tally_change (f := fun j => decide (g.cwd j = some k))
    (g := fun j => decide (update g.cwd q o j = some k)) (p := q) fun j hj => by simp [hj]
  simp only [update_self] at h
  change (tally fun j => decide (RefersTo (g.files.file j) k)) + (tally fun j => decide (update g.cwd q o j = some k)) + _ =
    (tally fun j => decide (RefersTo (g.files.file j) k)) + (tally fun j => decide (g.cwd j = some k)) + _
  omega

theorem refs_addRef (n : ℤ) (k : InodeNo) : (g.addRef ip n).refs k = g.refs k + if k = ip then n else 0 := by
  by_cases h : k = ip
  · subst h
    simp [Book.addRef]
  · simp [Book.addRef, h]

theorem refs_get (k : InodeNo) : (g.addRef ip 1).refs k = g.refs k + (decide (some ip = some k)).toNat := by
  rw [refs_addRef]
  by_cases h : k = ip
  · simp [h]
  · simp [h, Ne.symm h]

theorem refs_drop (k : InodeNo) : (g.addRef ip (-1)).refs k = g.refs k - (decide (some ip = some k)).toNat := by
  rw [refs_addRef]
  by_cases h : k = ip
  · simp [h, sub_eq_add_neg]
  · simp [h, Ne.symm h]

/-- A file changes as the references do. -/
theorem Balanced.refile {n : ℤ} (h : Balanced g₀ g) (hidle : x.ref = 0 → x.type = .none)
    (hx : ∀ k, ((decide (RefersTo x k)).toNat : ℤ) = (decide (RefersTo (g.files.file f) k)).toNat + if k = ip then n else 0) :
    Balanced g₀ ((g.addRef ip n).setFiles (g.files.setFile f x)) := by
  refine ⟨fun k => ?_, h.lock, h.outstanding, h.idle hidle, h.ok.cwd⟩
  have hst := stored_setFile (g := g) (f := f) x k
  have hk := hx k
  change (g.addRef ip n).refs k - ((g.setFiles (g.files.setFile f x)).stored k : ℤ) = _
  rw [refs_addRef, ← h.refs k]
  omega

theorem toNat_refersTo (h : RefersTo x ip) (k : InodeNo) : ((decide (RefersTo x k)).toNat : ℤ) = if k = ip then 1 else 0 := by
  by_cases hk : k = ip
  · simp [hk, h]
  · have hno : ¬ RefersTo x k := fun hx => hk (hx.2.symm.trans h.2)
    simp [hk, hno]

/-- **A file keeps the reference** that was got. -/
theorem Balanced.keep (h : Balanced g₀ g) (hold : (g.files.file f).type = .none) (hnew : RefersTo x ip)
    (href : x.ref ≠ 0) : Balanced g₀ ((g.addRef ip 1).setFiles (g.files.setFile f x)) :=
  h.refile (fun hr => absurd hr href) fun k => by simp [toNat_refersTo hnew, not_refersTo hold]

/-- **A file drops its reference**, which is given back. -/
theorem Balanced.drop (h : Balanced g₀ g) (hold : RefersTo (g.files.file f) ip) (hnew : x.type = .none) :
    Balanced g₀ ((g.addRef ip (-1)).setFiles (g.files.setFile f x)) :=
  h.refile (fun _ => hnew) fun k => by
    rw [toNat_refersTo hold, decide_eq_false (not_refersTo hnew)]
    split_ifs <;> rfl

theorem Balanced.setCwd (h : Balanced g₀ g) {q : Slot} {o : Option InodeNo} (hq : g.files.life q ≠ .live → o = none) {g' : Book}
    (hg' : g' = { g with cwd := update g.cwd q o, refs := g'.refs })
    (hrefs : ∀ k, g'.refs k = g.refs k + (decide (o = some k)).toNat - (decide (g.cwd q = some k)).toNat) : Balanced g₀ g' := by
  refine ⟨fun k => ?_, ?_, ?_, fun j hj => ?_, fun r hr => ?_⟩
  · have hst := stored_setCwd (g := g) q o k
    have hst' : g'.stored k = Book.stored { g with cwd := update g.cwd q o } k := by
      rw [hg']
      rfl
    rw [hrefs, hst', ← h.refs k]
    omega
  · rw [hg']
    exact h.lock
  · rw [hg']
    exact h.outstanding
  · rw [hg'] at hj ⊢
    exact h.ok.idle j hj
  · rw [hg'] at hr ⊢
    by_cases hrq : r = q
    · subst hrq
      simpa using hq hr
    · simpa [hrq] using h.ok.cwd r hr

/-! ### Files -/

theorem wp_file {Q : File → Book → Prop} (h : Q (g.files.file f) g) : (file f).wp (booking p).rules Q g := by
  refine ⟨trivial, fun (r : File) hr => ?_⟩
  change r = g.files.file f at hr
  subst hr
  exact h

theorem wp_setFile (h : Q () (g.setFiles (g.files.setFile f x))) :
    (setFile f x).wp (booking p).rules Q g := ⟨trivial, fun _ _ => h⟩

theorem wp_filealloc {Q : Option FileNo → Book → Prop} (h0 : Q none g)
    (h1 : ∀ f, (g.files.file f).ref = 0 → Q (some f) (g.setFiles (g.files.setFile f { g.files.file f with ref := 1 }))) :
    filealloc.wp (booking p).rules Q g := by
  refine ⟨trivial, fun (r : Option FileNo) hr => ?_⟩
  change r = (Files.filealloc g.files).map Prod.fst at hr
  change Q r (g.setFiles (((Files.filealloc g.files).map Prod.snd).getD g.files))
  cases ha : Files.filealloc g.files with
  | none =>
    rw [ha] at hr
    subst hr
    exact h0
  | some y =>
    rw [ha] at hr
    subst hr
    obtain ⟨k, hk, rfl⟩ := Option.map_eq_some_iff.mp ha
    exact h1 k (by simpa using List.find?_some hk)

theorem wp_fdalloc {Q : Option Fd → Book → Prop} (h0 : Q none g)
    (h1 : ∀ fd, Q (some fd) (g.setFiles (g.files.setOfile p fd (some f)))) : (fdalloc p f).wp (booking p).rules Q g := by
  refine ⟨trivial, fun (r : Option Fd) hr => ?_⟩
  change r = (Files.fdalloc g.files p f).map Prod.fst at hr
  change Q r (g.setFiles (((Files.fdalloc g.files p f).map Prod.snd).getD g.files))
  cases ha : Files.fdalloc g.files p f with
  | none =>
    rw [ha] at hr
    subst hr
    exact h0
  | some y =>
    rw [ha] at hr
    subst hr
    obtain ⟨fd, hfd, rfl⟩ := Option.map_eq_some_iff.mp ha
    exact h1 fd

theorem fileUnref_cases {s : FileState} {r : Option File} (h : fileUnref s f = .ok (r, t)) :
    (r = none ∧ 1 < (s.file f).ref ∧ t = s.setFile f { s.file f with ref := (s.file f).ref - 1 }) ∨
    (r = some (s.file f) ∧ t = s.setFile f { s.file f with ref := 0, type := .none }) := by
  unfold fileUnref at h
  dsimp only at h
  split_ifs at h with h1 h2
  · cases h
    exact .inl ⟨rfl, by omega, rfl⟩
  · cases h
    exact .inr ⟨rfl, rfl⟩

theorem pipeclose_file {s : FileState} {pi : ℕ} {w : Bool} (h : Files.pipeclose s pi w = .ok t) :
    t.file = s.file ∧ t.life = s.life := by
  unfold Files.pipeclose at h
  split at h
  · cases h
  · dsimp only at h
    split_ifs at h <;> cases h <;> exact ⟨rfl, rfl⟩

theorem wp_pipeclose {pi : ℕ} {w : Bool}
    (h : ∀ t, Files.pipeclose g.files pi w = .ok t → Q () (g.setFiles t)) : (Fs.pipeclose pi w).wp (booking p).rules Q g := by
  refine ⟨trivial, fun _ ⟨t, ht⟩ => ?_⟩
  have hafter : filesAfter (.pipeclose pi w) g.files = t := by simp [filesAfter, ht]
  change Q () (g.setFiles (filesAfter (.pipeclose pi w) g.files))
  rw [hafter]
  exact h t ht

theorem wp_fileunref {Q : Option File → Book → Prop}
    (h0 : 1 < (g.files.file f).ref → Q none (g.setFiles (g.files.setFile f { g.files.file f with ref := (g.files.file f).ref - 1 })))
    (h1 : Q (some (g.files.file f)) (g.setFiles (g.files.setFile f { g.files.file f with ref := 0, type := .none }))) :
    (fileunref f).wp (booking p).rules Q g := by
  refine ⟨trivial, fun (r : Option File) ⟨t, ht⟩ => ?_⟩
  have hafter : filesAfter (.fileunref f) g.files = t := by simp [filesAfter, ht]
  change Q r (g.setFiles (filesAfter (.fileunref f) g.files))
  rw [hafter]
  rcases fileUnref_cases ht with ⟨rfl, href, rfl⟩ | ⟨rfl, rfl⟩
  · exact h0 href
  · exact h1

theorem wp_fileclose (hB : Balanced g₀ g)
    (h : ∀ g', Balanced g₀ g' → g'.cwd = g.cwd → g'.files.life = g.files.life → Q () g') :
    (fileclose sb f).wp (booking p).rules Q g := by
  refine wp_bind.mpr (wp_fileunref (fun href => ?_) ?_)
  · refine h _ (hB.setFile (fun h0 => ?_) fun ip => Iff.rfl) rfl rfl
    change (g.files.file f).ref - 1 = 0 at h0
    omega
  · have hnone : ¬ ((g.files.file f).type = .inode ∨ (g.files.file f).type = .device) →
        Balanced g₀ (g.setFiles (g.files.setFile f { g.files.file f with ref := 0, type := .none })) :=
      fun hn => hB.setFile (fun _ => rfl) fun ip => iff_of_false (not_refersTo rfl) fun hr => hn hr.1
    dsimp only [filefree]
    split
    · rename_i htype
      refine wp_pipeclose fun u hu => ?_
      obtain ⟨hfile, hlife⟩ := pipeclose_file hu
      exact h _ ((hnone (by simp [htype])).of_file hfile hlife) rfl hlife
    · split
      · rename_i htype
        refine wp_bind.mpr (wp_beginOp (wp_bind.mpr (wp_iput ?_)))
        exact wp_endOp (h _ (hB.drop ⟨htype, rfl⟩ rfl) rfl rfl)
      · rename_i htype
        exact h _ (hnone htype) rfl rfl

theorem wp_advance {r : ℤ} (h0 : Q () g)
    (h1 : ∀ off, Q () (g.setFiles (g.files.setFile f { g.files.file f with off := off }))) :
    (advance f (g.files.file f) r).wp (booking p).rules Q g := by
  unfold advance
  split
  · exact wp_setFile (h1 _)
  · exact h0

theorem Balanced.setOff (hB : Balanced g₀ g) (off : UInt32) :
    Balanced g₀ (g.setFiles (g.files.setFile f { g.files.file f with off := off })) :=
  hB.setFile (x := { g.files.file f with off := off }) (hB.ok.idle f) fun _ => Iff.rfl

variable {Q : ℤ → Book → Prop} {addr : ℕ} {fd : ℤ} {fds : List Fd} {omode : UInt32}

theorem wp_filewriteFrom {n fuel i : ℕ} {Q : Bool → Book → Prop} (hB : Balanced g₀ g)
    (h : ∀ r g', Balanced g₀ g' → Q r g') : (filewriteFrom sb f addr n fuel i).wp (booking p).rules Q g := by
  induction fuel generalizing g i with
  | zero => exact h _ _ hB
  | succ fuel ih =>
    unfold filewriteFrom
    split
    · refine wp_bind.mpr (wp_beginOp (wp_bind.mpr (wp_file (wp_bind.mpr (wp_ilock fun hlock => wp_bind.mpr (wp_file ?_))))))
      refine wp_keeps (keeps_writei _ _ _ _) fun r => ?_
      have hrest : ∀ g', Balanced g₀ g' →
          (if r ≠ chunk n i then return false else filewriteFrom sb f addr n fuel (i + chunk n i) : Code Bool).wp
            (booking p).rules Q g' := by
        intro g' hB'
        split
        · exact h _ _ hB'
        · exact ih hB'
      refine wp_bind.mpr (wp_advance ?_ fun off => ?_)
      · exact wp_bind.mpr (wp_iunlock_of (g := g.inOp) hlock (wp_bind.mpr (wp_endOp (hrest g hB))))
      · exact wp_bind.mpr (wp_iunlock_of (g := (g.setFiles (g.files.setFile f { g.files.file f with off := off })).inOp) hlock
          (wp_bind.mpr (wp_endOp (hrest _ (hB.setOff off)))))
    · exact h _ _ hB

theorem wp_argfd {Q : Option (Fd × FileNo) → Book → Prop} (h : ∀ o, Q o g) : (argfd p fd).wp (booking p).rules Q g :=
  ⟨trivial, fun o _ => h o⟩

theorem Balanced.setOfile (hB : Balanced g₀ g) (q : Slot) (fd : Fd) (o : Option FileNo) :
    Balanced g₀ (g.setFiles (g.files.setOfile q fd o)) := hB.of_file rfl rfl

theorem wp_filedup {Q : Unit → Book → Prop} (hB : Balanced g₀ g)
    (h : ∀ g', Balanced g₀ g' → g'.cwd = g.cwd → g'.files.life = g.files.life → Q () g') :
    (filedup f).wp (booking p).rules Q g :=
  ⟨trivial, fun _ _ => h _ (hB.setFile (by simp) fun _ => Iff.rfl) rfl rfl⟩

theorem Balanced.filealloc (hB : Balanced g₀ g) (f : FileNo) :
    Balanced g₀ (g.setFiles (g.files.setFile f { g.files.file f with ref := 1 })) :=
  hB.setFile (by simp) fun _ => Iff.rfl

theorem Balanced.setPipe (hB : Balanced g₀ g) (hf : (g.files.file f).type = .none) (hx : x.type = .pipe)
    (href : x.ref ≠ 0) : Balanced g₀ (g.setFiles (g.files.setFile f x)) :=
  hB.setFile (fun h0 => absurd h0 href) fun _ => iff_of_false (by simp [RefersTo, hx]) (not_refersTo hf)

theorem wp_pipealloc {pg : Option ℕ} {Q : Option (FileNo × FileNo) → Book → Prop} (hB : Balanced g₀ g)
    (h : ∀ r g', Balanced g₀ g' → Q r g') : (pipealloc sb pg).wp (booking p).rules Q g := by
  refine wp_bind.mpr (wp_filealloc (h _ _ hB) fun f0 h0 => ?_)
  have hB0 := hB.filealloc f0
  refine wp_bind.mpr (wp_filealloc ?_ fun f1 h1 => ?_)
  · exact wp_bind.mpr (wp_fileclose hB0 fun g' hB' _ _ => h _ _ hB')
  have hB1 := hB0.filealloc f1
  cases pg with
  | none => exact wp_bind.mpr (wp_fileclose hB1 fun g' hB' _ _ => wp_bind.mpr (wp_fileclose hB' fun g'' hB'' _ _ => h _ _ hB''))
  | some pi =>
    -- neither file had a type, and they differ
    have hne : f1 ≠ f0 := by
      rintro rfl
      simp [Book.setFiles, FileState.setFile] at h1
    have ht0 : (g.files.file f0).type = .none := hB.ok.idle f0 h0
    have ht1 : (g.files.file f1).type = .none := by
      have := hB0.ok.idle f1 h1
      simpa [Book.setFiles, FileState.setFile, hne] using this
    refine wp_bind.mpr ⟨trivial, fun _ _ => wp_bind.mpr (wp_file (wp_bind.mpr (wp_setFile (wp_bind.mpr (wp_file
      (wp_bind.mpr (wp_setFile (h _ _ ?_))))))))⟩
    simp only [booking, bookAfter]
    -- the files at this point
    generalize hF : filesAfter (.pipeinit pi) _ = F
    have hF0 : (F.file f0).type = .none ∧ (F.file f0).ref = 1 := by
      rw [← hF]
      simp [filesAfter, Book.setFiles, FileState.setFile, FileState.kalloc, FileState.setPipe, hne.symm, ht0]
    have hF1 : (F.file f1).type = .none ∧ (F.file f1).ref = 1 := by
      rw [← hF]
      simp [filesAfter, Book.setFiles, FileState.setFile, FileState.kalloc, FileState.setPipe, hne, ht1]
    have hB2 : Balanced g₀ (g.setFiles F) := by
      rw [← hF]
      exact hB1.of_file rfl rfl
    have hp0 := hB2.setPipe (x := { F.file f0 with type := .pipe, readable := true, writable := false, pipe := pi }) hF0.1 rfl
      (by rw [hF0.2]; decide)
    refine hp0.setPipe ?_ rfl ?_
    · simpa [Book.setFiles, FileState.setFile, hne] using hF1.1
    · simp [Book.setFiles, FileState.setFile, hne, hF1.2]

theorem wp_cwd {q : Slot} {β : Type} [Inhabited β] {e : Fault} {k : InodeNo → Code β} {Q : β → Book → Prop}
    (h : ∀ ip, g.cwd q = some ip → (k ip).wp (booking p).rules Q g) :
    (do match ← Fs.cwd q with
        | none => panic e
        | some ip => k ip : Code β).wp (booking p).rules Q g := by
  refine wp_bind.mpr ⟨trivial, fun (o : Option InodeNo) ho => ?_⟩
  cases o with
  | none => exact wp_panic _
  | some ip => exact h ip (Eq.symm ho)

theorem wp_openLookup {path : List UInt8} {Q : Option InodeNo → Book → Prop} (h0 : Q none g)
    (h1 : ∀ ip, g.lock ip = none → Q (some ip) ((g.addRef ip 1).setLock ip (some p))) :
    (openLookup sb p path omode).wp (booking p).rules Q g := by
  unfold openLookup
  split
  · exact wp_create h0 h1
  · refine wp_bind.mpr (wp_namei h0 fun ip => wp_bind.mpr (wp_ilock fun hlock => wp_keeps (keeps_fields ip) fun x => ?_))
    split
    · exact wp_bind.mpr (wp_iunlockput_got hlock h0)
    · exact h1 ip hlock

theorem wp_openFail (h : Q (-1) g) (hlock : g.lock ip = none) :
    (openFail sb ip).wp (booking p).rules Q ((g.addRef ip 1).inOp.setLock ip (some p)) :=
  wp_bind.mpr (wp_iunlockput_got (g := g.inOp) hlock (wp_endOp_ret h))

theorem wp_fileclose_fresh {Q : Unit → Book → Prop} (href : (g.files.file f).ref = 1) (htype : (g.files.file f).type = .none)
    (h : Q () (g.setFiles (g.files.setFile f { g.files.file f with ref := 0, type := .none }))) :
    (fileclose sb f).wp (booking p).rules Q g := by
  refine wp_bind.mpr (wp_fileunref (fun hlt => absurd hlt (by omega)) ?_)
  dsimp only [filefree]
  rw [if_neg (by simp [htype]), if_neg (by simp [htype])]
  exact h

theorem Balanced.setLife (hB : Balanced g₀ g) {q : Slot} {l : Life} (hl : l ≠ .live → g.cwd q = none) :
    Balanced g₀ (g.setFiles (g.files.setLife q l)) := by
  refine ⟨hB.refs, hB.lock, hB.outstanding, hB.ok.idle, fun r hr => ?_⟩
  by_cases hrq : r = q
  · subst hrq
    refine hl ?_
    simpa [Book.setFiles, FileState.setLife] using hr
  · exact hB.ok.cwd r (by simpa [Book.setFiles, FileState.setLife, hrq] using hr)

theorem wp_ofile {q : Slot} {fd : Fd} {Q : Option FileNo → Book → Prop} (h : ∀ o, Q o g) :
    (ofile q fd).wp (booking p).rules Q g := ⟨trivial, fun o _ => h o⟩

theorem wp_forkFds {np : Slot} {Q : Unit → Book → Prop} (hB : Balanced g₀ g)
    (h : ∀ g', Balanced g₀ g' → g'.cwd = g.cwd → g'.files.life = g.files.life → Q () g') :
    (forkFds p np fds).wp (booking p).rules Q g := by
  induction fds generalizing g with
  | nil => exact h g hB rfl rfl
  | cons fd fds ih =>
    refine wp_bind.mpr (wp_ofile fun o => ?_)
    cases o with
    | none => exact ih hB h
    | some f =>
      refine wp_bind.mpr (wp_filedup hB fun g' hB' hc hl => wp_bind.mpr ⟨trivial, fun _ _ => ?_⟩)
      refine ih (hB'.setOfile np fd (some f)) fun g'' hB'' hc' hl' => h g'' hB'' ?_ ?_
      · exact hc'.trans hc
      · exact hl'.trans hl

theorem wp_exitFds {Q : Unit → Book → Prop} (hB : Balanced g₀ g)
    (h : ∀ g', Balanced g₀ g' → g'.cwd = g.cwd → g'.files.life = g.files.life → Q () g') :
    (exitFds sb p fds).wp (booking p).rules Q g := by
  induction fds generalizing g with
  | nil => exact h g hB rfl rfl
  | cons fd fds ih =>
    refine wp_bind.mpr (wp_ofile fun o => ?_)
    cases o with
    | none => exact ih hB h
    | some f =>
      refine wp_bind.mpr (wp_fileclose hB fun g' hB' hc hl => wp_bind.mpr ⟨trivial, fun _ _ => ?_⟩)
      refine ih (hB'.setOfile p fd none) fun g'' hB'' hc' hl' => h g'' hB'' ?_ ?_
      · exact hc'.trans hc
      · exact hl'.trans hl

/-! ### Calls -/

variable (hB : Balanced g₀ g) (h : ∀ r g', Balanced g₀ g' → Q r g')

include hB h

theorem wp_fileread {n : Int32} {dev : Bool} {other : ℤ} : (fileread sb f addr n dev other).wp (booking p).rules Q g := by
  refine wp_bind.mpr (wp_file ?_)
  split
  · exact h _ _ hB
  split
  · exact h _ _ hB
  · split
    · exact h _ _ hB
    · exact h _ _ hB
  · refine wp_bind.mpr (wp_ilock fun hlock => wp_bind.mpr (wp_file ?_))
    refine wp_keeps (keeps_readi _ _ _ _) fun ⟨r, _⟩ => wp_bind.mpr (wp_advance ?_ fun off => ?_)
    · exact wp_bind.mpr (wp_iunlock_of hlock (h _ _ hB))
    · exact wp_bind.mpr (wp_iunlock_of (g := g.setFiles (g.files.setFile f { g.files.file f with off := off })) hlock
        (h _ _ (hB.setOff off)))
  · exact wp_panic _

theorem wp_filewrite {n : Int32} {dev : Bool} {other : ℤ} : (filewrite sb f addr n dev other).wp (booking p).rules Q g := by
  refine wp_bind.mpr (wp_file ?_)
  split
  · exact h _ _ hB
  split
  · exact h _ _ hB
  · split
    · exact h _ _ hB
    · exact h _ _ hB
  · refine wp_bind.mpr (wp_filewriteFrom hB fun all g' hB' => ?_)
    split
    · exact h _ _ hB'
    · exact h _ _ hB'
  · exact wp_panic _

theorem wp_sysDup :
    (sysDup p fd).wp (booking p).rules Q g := by
  refine wp_bind.mpr (wp_argfd fun o => ?_)
  cases o with
  | none => exact h _ _ hB
  | some x =>
    refine wp_bind.mpr (wp_fdalloc (h _ _ hB) fun fd => wp_bind.mpr (wp_filedup (hB.setOfile p fd _) fun g' hB' _ _ => ?_))
    exact h _ _ hB'

theorem wp_sysClose :
    (sysClose sb p fd).wp (booking p).rules Q g := by
  refine wp_bind.mpr (wp_argfd fun o => ?_)
  cases o with
  | none => exact h _ _ hB
  | some x =>
    refine wp_bind.mpr ⟨trivial, fun _ _ => wp_bind.mpr (wp_fileclose (hB.setOfile p x.1 none) fun g' hB' _ _ => ?_)⟩
    exact h _ _ hB'

theorem wp_pipeFail {rf wf : FileNo} : (pipeFail sb p rf wf fds).wp (booking p).rules Q g := by
  induction fds generalizing g with
  | nil => exact wp_bind.mpr (wp_fileclose hB fun g' hB' _ _ => wp_bind.mpr (wp_fileclose hB' fun g'' hB'' _ _ => h _ _ hB''))
  | cons fd fds ih => exact wp_bind.mpr ⟨trivial, fun _ _ => ih (hB.setOfile p fd none)⟩

theorem wp_sysPipe {pg : Option ℕ} {copied : Bool} : (sysPipe sb p pg copied).wp (booking p).rules Q g := by
  refine wp_bind.mpr (wp_pipealloc hB fun o g' hB' => ?_)
  cases o with
  | none => exact h _ _ hB'
  | some x =>
    obtain ⟨rf, wf⟩ := x
    refine wp_bind.mpr (wp_fdalloc (wp_pipeFail hB' h) fun fd0 => ?_)
    have hB0 := hB'.setOfile p fd0 (some rf)
    refine wp_bind.mpr (wp_fdalloc (wp_pipeFail hB0 h) fun fd1 => ?_)
    have hB1 := hB0.setOfile p fd1 (some wf)
    cases copied with
    | true => exact h _ _ hB1
    | false => exact wp_pipeFail hB1 h

theorem wp_sysChdir {path : Option (List UInt8)} : (sysChdir sb p path).wp (booking p).rules Q g := by
  refine wp_bind.mpr (wp_beginOp ?_)
  cases path with
  | none => exact wp_endOp_ret (h _ _ hB)
  | some path =>
    refine wp_bind.mpr (wp_namei (wp_endOp_ret (h _ _ hB)) fun ip => ?_)
    refine wp_bind.mpr (wp_ilock fun hlock => wp_keeps (keeps_fields ip) fun x => ?_)
    split
    · exact wp_bind.mpr (wp_iunlockput_got hlock (wp_endOp_ret (h _ _ hB)))
    · refine wp_bind.mpr (wp_iunlock_of hlock (wp_cwd fun old hold => wp_bind.mpr (wp_iput (wp_bind.mpr ?_))))
      replace hold : g.cwd p = some old := hold
      refine wp_endOp (g := (g.addRef ip 1).addRef old (-1)) (wp_bind.mpr ⟨trivial, fun _ _ => h _ _ ?_⟩)
      refine hB.setCwd (q := p) (o := some ip) (fun hp => ?_) rfl fun k => ?_
      · rw [hB.ok.cwd p hp] at hold
        cases hold
      · change ((g.addRef ip 1).addRef old (-1)).refs k = _
        rw [refs_drop, refs_get, hold]

theorem wp_openFile {fd : Fd}
    (hlock : g.lock ip = none) (href : (g.files.file f).ref = 1) (htype : (g.files.file f).type = .none) :
    (openFile sb ip f fd omode).wp (booking p).rules Q ((g.addRef ip 1).inOp.setLock ip (some p)) := by
  refine wp_keeps (keeps_fields ip) fun x => wp_bind.mpr (wp_file ?_)
  have hdone : ∀ F, Balanced g₀ ((g.addRef ip 1).setFiles F) → (do iunlock ip; endOp; return (fd.val : ℤ) : Code ℤ).wp
      (booking p).rules Q (((g.addRef ip 1).setFiles F).inOp.setLock ip (some p)) := by
    intro F hF
    exact wp_bind.mpr (wp_iunlock_of (g := ((g.addRef ip 1).setFiles F).inOp) hlock (wp_endOp_ret (h _ _ hF)))
  refine wp_bind.mpr (wp_setFile ?_)
  generalize hF : FileState.setFile _ f _ = F
  have hBF : Balanced g₀ ((g.addRef ip 1).setFiles F) := by
    rw [← hF]
    by_cases hdev : x.type = T_DEVICE
    · refine hB.keep htype ⟨?_, rfl⟩ ?_ <;> simp [hdev]
      exact fun h0 => by simp [Book.setLock, Book.inOp, Book.addRef, href] at h0
    · refine hB.keep htype ⟨?_, rfl⟩ ?_ <;> simp [hdev]
      exact fun h0 => by simp [Book.setLock, Book.inOp, Book.addRef, href] at h0
  split
  · exact wp_keeps (keeps_itrunc ip) fun _ => hdone F hBF
  · exact hdone F hBF

theorem wp_sysOpen {path : Option (List UInt8)} : (sysOpen sb p path omode).wp (booking p).rules Q g := by
  cases path with
  | none => exact h _ _ hB
  | some path =>
    refine wp_bind.mpr (wp_beginOp (wp_bind.mpr (wp_openLookup (wp_endOp_ret (h _ _ hB)) fun ip hlock => ?_)))
    replace hlock : g.lock ip = none := hlock
    refine wp_keeps (keeps_fields ip) fun x => ?_
    split
    · exact wp_openFail (h _ _ hB) hlock
    refine wp_bind.mpr (wp_filealloc (wp_openFail (h _ _ hB) hlock) fun f hf => ?_)
    have hB1 := hB.filealloc f
    have hnew : ∀ F : FileState, F = g.files.setFile f { g.files.file f with ref := 1 } →
        (F.file f).ref = 1 ∧ (F.file f).type = .none := by
      rintro F rfl
      have htype : (g.files.file f).type = .none := hB.ok.idle f hf
      simp [FileState.setFile, htype]
    obtain ⟨href, htype⟩ := hnew _ rfl
    refine wp_bind.mpr (wp_fdalloc (wp_bind.mpr (wp_fileclose_fresh href htype ?_)) fun fd => ?_)
    · exact wp_openFail (h _ _ (hB1.setFile (fun _ => rfl) fun k => iff_of_false (not_refersTo rfl) (not_refersTo htype))) hlock
    · exact wp_openFile (hB1.setOfile p fd (some f)) h hlock href htype

theorem wp_fork {o : Option Slot} (ho : ∀ np, o = some np → g.files.life np = .unused) : (Fs.fork p o).wp (booking p).rules Q g := by
  cases o with
  | none => exact h _ _ hB
  | some np =>
    have hnone : g.cwd np = none := hB.ok.cwd np (by simp [ho np rfl])
    refine wp_bind.mpr ⟨trivial, fun _ _ => wp_bind.mpr (wp_forkFds (hB.setLife fun hl => absurd rfl hl) fun g' hB' hc hl => ?_)⟩
    refine wp_cwd fun ip hip => wp_bind.mpr (wp_idup (wp_bind.mpr ⟨trivial, fun _ _ => h _ _ ?_⟩))
    refine hB'.setCwd (q := np) (o := some ip) (fun hn => ?_) rfl fun k => ?_
    · rw [hl] at hn
      simp [Book.setFiles, FileState.setLife, booking, bookAfter, filesAfter] at hn
    · have hnone' : g'.cwd np = none := by rw [hc]; exact hnone
      change (g'.addRef ip 1).refs k = _
      rw [refs_get, hnone']
      simp

theorem wp_exit :
    (Fs.exit sb p).wp (booking p).rules Q g := by
  refine wp_bind.mpr (wp_exitFds hB fun g' hB' hc hl => wp_bind.mpr (wp_beginOp (wp_cwd fun ip hip => ?_)))
  replace hip : g'.cwd p = some ip := hip
  refine wp_bind.mpr (wp_iput (wp_bind.mpr (wp_endOp (g := g'.addRef ip (-1)) (wp_bind.mpr ⟨trivial, fun _ _ => ?_⟩))))
  refine wp_bind.mpr ⟨trivial, fun _ _ => h _ _ ?_⟩
  have hB'' : Balanced g₀ { g'.addRef ip (-1) with cwd := update g'.cwd p none } := by
    refine hB'.setCwd (q := p) (o := none) (fun _ => rfl) rfl fun k => ?_
    change (g'.addRef ip (-1)).refs k = _
    rw [refs_drop, hip]
    simp
  exact hB''.setLife fun _ => by simp

omit hB h

/-- **Every call** leaves the book balanced. -/
theorem call_balanced (sb : Superblock) (hB : Balanced g₀ g) {s : FsState} (hs : s.book = g) {c : Call} (ha : s.Allows p c) :
    (c.code sb p).wp (booking p).rules (fun _ g' => Balanced g₀ g') g := by
  cases c with
  | «open» path omode => exact wp_sysOpen hB fun _ _ h => h
  | link old new => exact keeps_sysLink p old new fun _ => hB
  | unlink path => exact keeps_sysUnlink p path fun _ => hB
  | mkdir path => exact keeps_createCall p path _ _ _ fun _ => hB
  | mknod path major minor => exact keeps_createCall p path _ _ _ fun _ => hB
  | chdir path => exact wp_sysChdir hB fun _ _ h => h
  | exec path env => exact keeps_sysExec p path env fun _ => hB
  | dup fd => exact wp_sysDup hB fun _ _ h => h
  | pipe pg copied => exact wp_sysPipe hB fun _ _ h => h
  | close fd => exact wp_sysClose hB fun _ _ h => h
  | read fd addr n dev other =>
    refine wp_bind.mpr (wp_argfd fun o => ?_)
    cases o with
    | none => exact hB
    | some x => exact wp_fileread hB fun _ _ h => h
  | write fd addr n dev other =>
    refine wp_bind.mpr (wp_argfd fun o => ?_)
    cases o with
    | none => exact hB
    | some x => exact wp_filewrite hB fun _ _ h => h
  | fork np =>
    refine wp_fork hB (fun _ _ h => h) fun q hq => ?_
    subst hq hs
    exact ha
  | exit => exact wp_exit hB fun _ _ h => h
  | wait q =>
    refine wp_bind.mpr ⟨trivial, fun _ _ => hB.setLife fun _ => hB.ok.cwd q ?_⟩
    subst hs
    have hz : s.files.life q = .zombie := ha
    change s.files.life q ≠ .live
    simp [hz]

end Balance

/-! ### Runs -/

section Runs

variable {sb : Superblock} {P : (ℕ → Block) → Prop} {s t : FsState} {p : Slot} {c : Call} {r : ℤ}

theorem balanced_of_call (hok : s.book.Ok) (ha : s.Allows p c) (hc : s.call sb p c = .ok (r, t)) : Balanced s.book t.book := by
  have hwp := wp_of_account (booking_sound sb p) (call_balanced sb hok.balanced rfl ha) (rfl : s.book = s.book)
  rw [wp_exact_iff] at hwp
  change Post _ _ (s.call sb p c) at hwp
  rw [hc] at hwp
  obtain ⟨g', hg', hB⟩ := hwp
  rw [hg']
  exact hB

theorem book_boot (disk : ℕ → Block) : (FsState.boot disk).book.Ok where
  idle _ _ := rfl
  cwd q hq := by
    have hq0 : q ≠ 0 := by
      rintro rfl
      exact hq rfl
    simp [FsState.book, FsState.boot, hq0]

/-- The count of each inode in memory is the number of references to it, no lock is held and no operation is under way. -/
structure Settled (g : Book) : Prop where
  ok : g.Ok
  refs : ∀ ip, g.refs ip = g.stored ip
  lock : ∀ ip, g.lock ip = none
  outstanding : g.outstanding = 0

theorem Settled.of_balanced {g₀ g : Book} (h : Settled g₀) (hB : Balanced g₀ g) : Settled g where
  ok := hB.ok
  refs ip := by
    have h1 := hB.refs ip
    have h2 := h.refs ip
    omega
  lock ip := by rw [hB.lock, h.lock]
  outstanding := by rw [hB.outstanding, h.outstanding]

theorem settled_boot (disk : ℕ → Block) : Settled (FsState.boot disk).book where
  ok := book_boot disk
  refs ip := by
    have hfiles : (tally fun f => decide (RefersTo ((FsState.boot disk).book.files.file f) ip)) = 0 :=
      tally_eq_zero_iff.mpr fun f => decide_eq_false (not_refersTo rfl)
    have hcwd := tally_change (f := fun _ : Slot => false) (g := fun q : Slot => decide ((FsState.boot disk).cwd q = some ip))
      (p := 0) fun q hq => by simp [FsState.boot, hq]
    have hzero : tally (fun _ : Slot => false) = 0 := tally_eq_zero_iff.mpr fun _ => rfl
    rw [Book.stored, hfiles, zero_add]
    change _ = ((tally fun q : Slot => decide ((FsState.boot disk).cwd q = some ip) : ℕ) : ℤ)
    rw [hzero] at hcwd
    simp only [Bool.toNat_false, add_zero, zero_add] at hcwd
    rw [hcwd]
    by_cases hip : ip = 0
    · simp [FsState.book, FsState.boot, hip]
    · simp [FsState.book, FsState.boot, hip, Ne.symm hip]
  lock _ := rfl
  outstanding := rfl

/-- **Between calls** everything has been given back. -/
theorem settled_of_reachable (h : (fsMachine sb P).Reachable s) : Settled s.book := by
  apply Reachable.invariant (I := fun s => Settled s.book) _ _ h
  · rintro s ⟨disk, -, rfl⟩
    exact settled_boot disk
  · rintro s act t - hI hstep
    cases hstep with
    | call hp ha hc => exact hI.of_balanced (balanced_of_call hI.ok ha hc)
    | evict hb => exact hI
    | user u => exact hI

/-- The inode a file refers to. -/
def refers (x : File) : Option InodeNo := if x.type = .inode ∨ x.type = .device then some x.ip else none

theorem refersTo_iff {x : File} {ip : InodeNo} : RefersTo x ip ↔ refers x = some ip := by
  unfold RefersTo refers
  split <;> simp [*]

/-- The number of references to inodes in open files and current directories. -/
def FsState.stored (s : FsState) : ℕ :=
  tally (fun f => (refers (s.files.file f)).isSome) + tally fun q => (s.cwd q).isSome

theorem sum_stored (s : FsState) : ∑ ip, s.book.stored ip = s.stored := by
  have hfiles : ∀ ip, (tally fun f => decide (RefersTo (s.files.file f) ip)) =
      tally fun f => decide (refers (s.files.file f) = some ip) :=
    fun ip => tally_congr fun f => decide_eq_decide.mpr refersTo_iff
  change ∑ ip, ((tally fun f => decide (RefersTo (s.files.file f) ip)) + tally fun q => decide (s.cwd q = some ip)) = _
  simp only [Finset.sum_add_distrib, hfiles, sum_tally_eq_some]
  rfl

/-- **Every call is balanced**: whatever process makes it, with whatever arguments, and however it ends, the sum of the
counts in the inode table changes by the number of references put into or taken out of open files and current
directories, every inode is locked or not as it was, and as many operations are under way. -/
theorem calls_balanced (h : (fsMachine sb P).Reachable s) (ha : s.Allows p c)
    (hc : s.call sb p c = .ok (r, t)) :
    (∑ ip, (t.inode ip).ref) - (∑ ip, (s.inode ip).ref) = (t.stored : ℤ) - s.stored ∧
      (∀ ip, (t.inode ip).lock = (s.inode ip).lock) ∧ t.outstanding = s.outstanding := by
  have hB := balanced_of_call (settled_of_reachable h).ok ha hc
  refine ⟨?_, fun ip => congrFun hB.lock ip, hB.outstanding⟩
  have hsum : ∑ ip, (t.book.refs ip - t.book.stored ip) = ∑ ip, (s.book.refs ip - s.book.stored ip) :=
    Finset.sum_congr rfl fun ip _ => hB.refs ip
  simp only [Finset.sum_sub_distrib, ← Nat.cast_sum, sum_stored] at hsum
  have hrefs : ∀ u : FsState, ∑ ip, u.book.refs ip = ∑ ip, (u.inode ip).ref := fun u => rfl
  rw [hrefs, hrefs] at hsum
  linarith

/-- A small disk, with a root directory and nothing in it. -/
def smallSuper : Superblock := ⟨0x10203040, 20, 14, 16, 3, 2, 5, 8⟩

def smallDisk (b : ℕ) : Block :=
  if b = 5 then setDinode ⟨T_DIR, 0, 0, 1, 0, fun _ => 0⟩ 1 fun _ => 0 else fun _ => 0

/-- Opening the root directory leaves one more reference, in the file. -/
theorem calls_balanced_of_open : ∃ t, (FsState.boot smallDisk).call smallSuper 0 (.open (some [47]) 0) = .ok (0, t) ∧
    t.stored = (FsState.boot smallDisk).stored + 1 ∧
    (∑ ip, (t.inode ip).ref) - (∑ ip, ((FsState.boot smallDisk).inode ip).ref) = (t.stored : ℤ) - (FsState.boot smallDisk).stored ∧
      (∀ ip, (t.inode ip).lock = ((FsState.boot smallDisk).inode ip).lock) ∧ t.outstanding = 0 := by
  have hrun : (match (FsState.boot smallDisk).call smallSuper 0 (.open (some [47]) 0) with
      | .ok (r, t) => decide (r = 0 ∧ t.stored = (FsState.boot smallDisk).stored + 1)
      | .error _ => false) = true := by decide +kernel
  split at hrun
  case h_2 => cases hrun
  case h_1 r t hc =>
    obtain ⟨rfl, hst⟩ := of_decide_eq_true hrun
    have ha : (FsState.boot smallDisk).Allows 0 (.open (some [47]) 0) := trivial
    exact ⟨t, hc, hst, calls_balanced (P := fun _ => True) (.start ⟨smallDisk, trivial, rfl⟩) ha hc⟩

end Runs

end Xv6Shmem.Fs
