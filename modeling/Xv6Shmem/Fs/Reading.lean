import Xv6Shmem.Devices.Console
import Xv6Shmem.Fs.Content

/-!
# What a read stores

`sys_read` down to the stores to user memory, for files, pipes and the console. `n` is an `int` in `sys_read`, in
`fileread`, in `piperead` and in `consoleread`, and a `uint` in `readi`.

## The model

`piperead` and `consoleread` take what they find as an argument: the bytes that are in the pipe when the loop
starts to copy, which holds the lock, and the characters that the console gives out one after the other. Both may
find the process killed while they wait.

## What is proved

* `read_within` — a read stores within the `n` bytes that it is given and returns at most `n`, if `n` is not negative,
  or if it is a pipe or the console, or if the offset is so large that `off + n` wraps, or there is nothing to read.
* `read_past_negative` — a read of `-1` bytes that stores the whole file.
-/

namespace Xv6Shmem.Fs

open ByteArea Kernel Disk Files Devices Prog

/-! ### The source -/

/-- The loop of `piperead`: `bytes` are in the pipe, and `i` bytes have been read. -/
def pipereadFrom (addr : ℕ) (n : Int32) : List UInt8 → ℕ → Code ℤ
  | [], i => return i
  | ch :: bytes, i => do
    if (i : ℤ) < n.toInt then
      if ← copyout (addr + i) [ch] then pipereadFrom addr n bytes (i + 1) else return i
    else return i

/-- `piperead`; `killed` says that the process is found killed while the pipe is empty. -/
def piperead (killed : Bool) (bytes : List UInt8) (addr : ℕ) (n : Int32) : Code ℤ :=
  if killed then return -1 else pipereadFrom addr n bytes 0

/-- The loop of `consoleread`: what comes is the next character, or that the process is killed. It waits if nothing comes. -/
def consolereadFrom (target : UInt32) : List (Option UInt8) → ℕ → Int32 → Code ℤ
  | input, dst, n =>
    if 0 < n.toInt then
      match input with
      | [] => panic .blocked
      | none :: _ => return -1
      | some c :: input => do
        if c = ctrlD then return (target - n.toUInt32).toInt32.toInt
        else if ← copyout dst [c] then
          if c = newline then return (target - (n - 1).toUInt32).toInt32.toInt
          else consolereadFrom target input (dst + 1) (n - 1)
        else return (target - n.toUInt32).toInt32.toInt
    else return (target - n.toUInt32).toInt32.toInt

/-- `consoleread`, to user memory. -/
def consoleread (input : List (Option UInt8)) (dst : ℕ) (n : Int32) : Code ℤ := consolereadFrom n.toUInt32 input dst n

/-- `fileread`, with the code of the pipe and of the device in it. -/
def filereadBy (sb : Superblock) (f : FileNo) (addr : ℕ) (n : Int32) (devread : Bool) (pipe dev : Code ℤ) : Code ℤ := do
  let x ← file f
  if x.readable = false then return -1
  else
    match x.type with
    | .pipe => pipe
    | .device => if x.major < 0 ∨ NDEV ≤ x.major ∨ devread = false then return -1 else dev
    | .inode =>
      ilock sb x.ip
      let y ← file f
      let (r, _) ← readi sb x.ip (some addr) y.off.toNat n.toUInt32.toNat
      advance f y r
      iunlock x.ip
      return r
    | .none => panic .fileread

/-- `fileread` is this, for a pipe and a device whose stores are left out. -/
theorem fileread_eq (sb : Superblock) (f : FileNo) (addr : ℕ) (n : Int32) (devread : Bool) (other : ℤ) :
    fileread sb f addr n devread other = filereadBy sb f addr n devread (return other) (return other) := rfl

/-- What a read finds in a pipe and at the console. -/
structure Found where
  /-- Whether the process is killed while it waits for the pipe. -/
  killed : Bool
  /-- What is in the pipe. -/
  bytes : List UInt8
  /-- Whether the device has a `read` function. -/
  devread : Bool
  /-- What comes from the console. -/
  input : List (Option UInt8)

/-- `sys_read`, with all its stores. -/
def sysReadBy (sb : Superblock) (p : Slot) (fd : ℤ) (addr : ℕ) (n : Int32) (x : Found) : Code ℤ := do
  match ← argfd p fd with
  | none => return -1
  | some (_, f) =>
    filereadBy sb f addr n x.devread (piperead x.killed x.bytes addr n) (consoleread x.input addr n)

/-! ### Code that stores nothing -/

/-- A command that does not store to user memory. -/
def NoStore (c : Cmd) : Prop := ∀ dst bs, c ≠ .copyout dst bs

section Quiet

variable {sb : Superblock}

theorem quiet_panic {α : Type} [Inhabited α] (e : Fault) : (panic e : Code α).Only NoStore :=
  only_bind (only_call nofun) fun _ => only_pure _

theorem quiet_bzero (b : ℕ) : (bzero b).Only NoStore :=
  only_bind (only_call nofun) fun _ => only_bind (only_call nofun) fun _ => only_bind (only_call nofun) fun _ => only_call nofun

theorem quiet_ballocFrom (bs : List ℕ) : (ballocFrom sb bs).Only NoStore := by
  induction bs with
  | nil => exact only_pure _
  | cons b bs ih =>
    refine only_bind (only_call nofun) fun _ => only_bind (only_call nofun) fun d => ?_
    split
    · exact only_bind (only_call nofun) fun _ => only_bind (only_call nofun) fun _ => only_bind (only_call nofun) fun _ =>
        only_bind (quiet_bzero _) fun _ => only_pure _
    · exact only_bind (only_call nofun) fun _ => ih

theorem quiet_bmapDirect (ip : InodeNo) (bn : ℕ) : (bmapDirect sb ip bn).Only NoStore := by
  refine only_bind (only_call nofun) fun x => ?_
  split_ifs
  · refine only_bind (quiet_ballocFrom _) fun addr => ?_
    split_ifs
    · exact only_pure _
    · exact only_bind (only_call nofun) fun _ => only_bind (only_call nofun) fun _ => only_pure _
  · exact only_pure _

theorem quiet_bmapEntry (ind bn : ℕ) : (bmapEntry sb ind bn).Only NoStore := by
  refine only_bind (only_call nofun) fun _ => only_bind (only_call nofun) fun a => ?_
  split_ifs
  · refine only_bind (quiet_ballocFrom _) fun addr => ?_
    split_ifs
    · exact only_bind (only_call nofun) fun _ => only_bind (only_call nofun) fun _ => only_bind (only_call nofun) fun _ =>
        only_bind (only_call nofun) fun _ => only_pure _
    · exact only_bind (only_call nofun) fun _ => only_pure _
  · exact only_bind (only_call nofun) fun _ => only_pure _

theorem quiet_bmap (ip : InodeNo) (bn : ℕ) : (bmap sb ip bn).Only NoStore := by
  rw [bmap]
  split_ifs
  · exact quiet_bmapDirect ip bn
  · refine only_bind (quiet_bmapDirect ip NDIRECT) fun ind => ?_
    split_ifs
    · exact only_pure _
    · exact quiet_bmapEntry ind _
  · exact quiet_panic _

theorem quiet_iunlock (ip : InodeNo) : (iunlock ip).Only NoStore := by
  refine only_bind (only_call nofun) fun _ => only_bind (only_call nofun) fun _ => ?_
  split_ifs
  · exact quiet_panic _
  · exact only_call nofun

theorem quiet_advance (f : FileNo) (y : File) (r : ℤ) : (advance f y r).Only NoStore := by
  rw [advance]
  split_ifs
  · exact only_call nofun
  · exact only_pure _

end Quiet

/-! ### Reads -/

/-- What is stored is within `m` bytes, and what is returned is at most `m`. -/
def Within (addr m : ℕ) (s : FsState) (r : ℤ) (t : FsState) : Prop :=
  r ≤ m ∧ ∀ k, k < addr ∨ addr + m ≤ k → t.user k = s.user k

section Reads

variable {sb : Superblock} {p : Slot} {s t : FsState} {addr m : ℕ} {n : Int32}

/-- The rules, with every fault and every log. -/
abbrev anyRules (sb : Superblock) (p : Slot) : Rules Cmd.Res FsState := fsRules sb p (fun _ => True) fun _ => True

theorem user_execCmd {c : Cmd} {r : c.Res} (hc : NoStore c) (h : execCmd sb p c s = .ok (r, t)) : t.user = s.user := by
  rcases (execCmd_frame h).2 with hu | ⟨dst, bs, rfl⟩
  · exact hu
  · exact absurd rfl (hc dst bs)

theorem wp_quiet {α : Type} {x : Code α} (hx : x.Only NoStore) {u : ℕ → Option UInt8} (hs : s.user = u) :
    x.wp (anyRules sb p) (fun _ t => t.user = u) s :=
  wp_of_only (I := fun t => t.user = u) (fun _ => trivial) (fun _ _ _ _ _ => trivial)
    (fun _ _ _ _ hc hs ht => (user_execCmd hc ht).trans hs) hx hs

theorem copyout_spec {dst : ℕ} {bs : List UInt8} {Q : Bool → FsState → Prop}
    (h : ∀ r, Q r { s with user := stores s.user dst bs }) : (copyout dst bs).wp (anyRules sb p) Q s :=
  wp_command nofun (h _)

theorem pipereadFrom_within {bytes : List UInt8} {i : ℕ} (hi : (i : ℤ) ≤ max n.toInt 0)
    (ht : ∀ k, k < addr ∨ addr + n.toInt.toNat ≤ k → t.user k = s.user k) :
    (pipereadFrom addr n bytes i).wp (anyRules sb p) (Within addr n.toInt.toNat s) t := by
  induction bytes generalizing i t with
  | nil => exact ⟨by omega, ht⟩
  | cons ch bytes ih =>
    rw [pipereadFrom]
    split_ifs with hlt
    · rw [wp_bind]
      refine copyout_spec fun r => ?_
      have ht' : ∀ k, k < addr ∨ addr + n.toInt.toNat ≤ k → stores t.user (addr + i) [ch] k = s.user k := by
        intro k hk
        rw [stores_of_not (by simp only [List.length_singleton]; omega)]
        exact ht k hk
      split_ifs
      · exact ih (by omega) ht'
      · exact ⟨by omega, ht'⟩
    · exact ⟨by omega, ht⟩

theorem piperead_within {killed : Bool} {bytes : List UInt8} :
    (piperead killed bytes addr n).wp (anyRules sb p) (Within addr n.toInt.toNat s) s := by
  rw [piperead]
  split_ifs
  · exact ⟨by omega, fun _ _ => rfl⟩
  · exact pipereadFrom_within (by simp) fun _ _ => rfl

theorem toInt_target_sub {a b : Int32} (h : b.toInt ≤ a.toInt) (hb : 0 ≤ b.toInt ∨ a = b) :
    (a.toUInt32 - b.toUInt32).toInt32.toInt = a.toInt - b.toInt := by
  have ha := a.toInt_lt
  rw [UInt32.toInt32_sub, Int32.toInt32_toUInt32, Int32.toInt32_toUInt32, Int32.toInt_sub]
  rcases hb with hb | rfl
  · exact Int.bmod_eq_of_le (by omega) (by omega)
  · simp

theorem consolereadFrom_within {a : Int32} {input : List (Option UInt8)} {dst : ℕ} (ha : n.toInt ≤ a.toInt)
    (hn : 0 ≤ n.toInt ∨ a = n) (hdst : (dst : ℤ) + n.toInt = addr + a.toInt)
    (ht : ∀ k, k < addr ∨ addr + a.toInt.toNat ≤ k → t.user k = s.user k) :
    (consolereadFrom a.toUInt32 input dst n).wp (anyRules sb p) (Within addr a.toInt.toNat s) t := by
  -- what is returned is the number of bytes that have been stored
  have hret : ∀ {n' : Int32} {t' : FsState}, n'.toInt ≤ a.toInt → (0 ≤ n'.toInt ∨ a = n') →
      (∀ k, k < addr ∨ addr + a.toInt.toNat ≤ k → t'.user k = s.user k) →
      Within addr a.toInt.toNat s (a.toUInt32 - n'.toUInt32).toInt32.toInt t' := by
    intro n' t' ha' hn' ht'
    refine ⟨?_, ht'⟩
    rw [toInt_target_sub ha' hn']
    rcases hn' with hn' | rfl
    · omega
    · omega
  induction input generalizing dst n t with
  | nil =>
    unfold consolereadFrom
    split_ifs
    · exact panic_spec trivial
    · exact hret ha hn ht
  | cons c input ih =>
    unfold consolereadFrom
    split_ifs with hpos
    · have hone : (n - 1).toInt = n.toInt - 1 := by
        rw [Int32.toInt_sub, Int32.toInt_one]
        have := n.toInt_lt
        exact Int.bmod_eq_of_le (by omega) (by omega)
      cases c with
      | none => exact ⟨by omega, ht⟩
      | some c =>
        dsimp only
        by_cases hd : c = ctrlD
        · rw [if_pos hd]
          exact hret ha hn ht
        · rw [if_neg hd, wp_bind]
          refine copyout_spec fun r => ?_
          have ht' : ∀ k, k < addr ∨ addr + a.toInt.toNat ≤ k → stores t.user dst [c] k = s.user k := by
            intro k hk
            rw [stores_of_not (by simp only [List.length_singleton]; omega)]
            exact ht k hk
          split_ifs
          · exact hret (by omega) (.inl (by omega)) ht'
          · exact ih (by omega) (.inl (by omega)) (by push_cast; omega) ht'
          · exact hret ha hn ht'
    · exact hret ha hn ht

theorem consoleread_within {input : List (Option UInt8)} :
    (consoleread input addr n).wp (anyRules sb p) (Within addr n.toInt.toNat s) s :=
  consolereadFrom_within le_rfl (.inr rfl) rfl fun _ _ => rfl

/-- The loop of `readi`, in any state. -/
theorem readiFrom_within {ip : InodeNo} {fuel tot off : ℕ} {acc : List UInt8} (htot : tot ≤ m)
    (ht : ∀ k, k < addr ∨ addr + m ≤ k → t.user k = s.user k) :
    (readiFrom sb ip (some addr) m fuel tot off acc).wp (anyRules sb p) (fun r => Within addr m s r.1) t := by
  induction fuel generalizing tot off acc t with
  | zero => exact ⟨by simpa using htot, ht⟩
  | succ fuel ih =>
    rw [readiFrom]
    split_ifs with hlt
    · rw [wp_bind]
      refine wp_rules_mono (wp_quiet (quiet_bmap ip _) rfl) fun b t' hu => ?_
      have ht' : ∀ k, k < addr ∨ addr + m ≤ k → t'.user k = s.user k := by
        rw [hu]
        exact ht
      split_ifs
      · exact ⟨by simpa using htot, ht'⟩
      rw [wp_bind]
      refine bread_spec (fun _ => trivial) fun _ => ?_
      rw [wp_bind]
      refine data_spec ?_
      rw [wp_bind]
      refine copyout_spec fun r => ?_
      have hlen : ((t'.cache b).slice (min (m - tot) (BSIZE - off % BSIZE)) (off % BSIZE)).length = min (m - tot) (BSIZE - off % BSIZE) := by
        simp [slice]
      have ht'' : ∀ k, k < addr ∨ addr + m ≤ k → stores t'.user (addr + tot)
          ((t'.cache b).slice (min (m - tot) (BSIZE - off % BSIZE)) (off % BSIZE)) k = s.user k := by
        intro k hk
        rw [stores_of_not (by rw [hlen]; omega)]
        exact ht' k hk
      split_ifs
      · rw [wp_bind]
        exact brelse_spec rfl (ih (by omega) ht'')
      · rw [wp_bind]
        exact brelse_spec rfl ⟨by omega, ht''⟩
    · exact ⟨by simpa using htot, ht⟩

theorem readi_within {ip : InodeNo} {off k : ℕ} (hm : min k ((s.inode ip).d.size.toNat - off) ≤ m ∨ (off + k) % 2 ^ 32 < off) :
    (readi sb ip (some addr) off k).wp (anyRules sb p) (fun r => Within addr m s r.1) s := by
  rw [readi, wp_bind]
  refine fields_spec ?_
  dsimp only
  by_cases hbad : (s.inode ip).d.size.toNat < off ∨ (off + k) % 2 ^ 32 < off
  · rw [if_pos hbad]
    exact ⟨by simp, fun _ _ => rfl⟩
  · rw [if_neg hbad]
    rw [not_or, not_lt, not_lt] at hbad
    have hle : (if (s.inode ip).d.size.toNat < off + k then (s.inode ip).d.size.toNat - off else k) ≤ m := by
      have := hm.resolve_right (not_lt.mpr hbad.2)
      split_ifs <;> omega
    refine wp_rules_mono (readiFrom_within (s := s) (Nat.zero_le _) fun _ _ => rfl) fun r t hr => ?_
    exact ⟨by have := hr.1; omega, fun k' hk' => hr.2 k' (by omega)⟩

/-- The size of the file of an inode in the table: `ilock` reads it, if it has not been read. -/
def FsState.sizeOf (sb : Superblock) (s : FsState) (ip : InodeNo) : ℕ :=
  if (s.inode ip).valid then (s.inode ip).d.size.toNat else (s.disk sb (s.inode ip).inum).size.toNat

/-- What `ilock` leaves alone, and the size that it finds. -/
theorem ilock_size {ip : InodeNo} :
    (ilock sb ip).wp (anyRules sb p) (fun _ t => t.user = s.user ∧ t.files = s.files ∧ (t.inode ip).d.size.toNat = s.sizeOf sb ip) s := by
  rw [ilock, wp_bind]
  refine ref_spec ?_
  split_ifs
  · exact panic_spec trivial
  rw [wp_bind]
  refine acquiresleep_spec (fun _ => trivial) fun _ => ?_
  rw [wp_bind]
  refine valid_spec ?_
  have hvalid : ((s.setInode ip { s.inode ip with lock := some p }).inode ip).valid = (s.inode ip).valid := by
    simp [FsState.setInode]
  rw [hvalid]
  split_ifs with hv
  · rw [iread, wp_bind]
    refine ident_spec ?_
    rw [wp_bind]
    refine bread_spec (fun _ => trivial) fun _ => ?_
    rw [wp_bind]
    refine data_spec ?_
    rw [wp_bind]
    refine setFields_spec ?_
    rw [wp_bind]
    refine brelse_spec rfl ?_
    rw [wp_bind]
    refine setValid_spec ?_
    split_ifs
    · exact panic_spec trivial
    · refine ⟨rfl, rfl, ?_⟩
      simp [FsState.setInode, FsState.sizeOf, hv, FsState.disk]
  · refine ⟨rfl, rfl, ?_⟩
    simp [FsState.setInode, FsState.sizeOf, Bool.eq_true_of_not_eq_false hv]

/-- The length is one with which nothing more is read than was asked for: it is not negative, or `f` is not a file of the
disk, or `off + n` wraps, or `off` is not before the end of the file. -/
def FsState.ReadsLess (sb : Superblock) (s : FsState) (f : FileNo) (n : Int32) : Prop :=
  n.toInt < 0 → (s.files.file f).type = .inode →
    -n.toInt ≤ (s.files.file f).off.toNat ∨ s.sizeOf sb (s.files.file f).ip ≤ (s.files.file f).off.toNat

theorem toNat_toUInt32 (n : Int32) : (n.toUInt32.toNat : ℤ) = if n.toInt < 0 then n.toInt + 2 ^ 32 else n.toInt := by
  have h := BitVec.toInt_eq_toNat_cond n.toBitVec
  have hlt := n.toBitVec.isLt
  change n.toInt = _ at h
  have hnat : n.toUInt32.toNat = n.toBitVec.toNat := rfl
  rw [hnat]
  split_ifs at h ⊢ <;> omega

theorem filereadBy_within {f : FileNo} {devread : Bool} {pipe dev : Code ℤ} (hn : s.ReadsLess sb f n)
    (hpipe : pipe.wp (anyRules sb p) (Within addr n.toInt.toNat s) s) (hdev : dev.wp (anyRules sb p) (Within addr n.toInt.toNat s) s) :
    (filereadBy sb f addr n devread pipe dev).wp (anyRules sb p) (Within addr n.toInt.toNat s) s := by
  rw [filereadBy, wp_bind]
  refine file_spec ?_
  by_cases hread : (s.files.file f).readable = false
  · rw [if_pos hread]
    exact ⟨by omega, fun _ _ => rfl⟩
  rw [if_neg hread]
  cases htype : (s.files.file f).type with
  | none => exact panic_spec trivial
  | pipe => exact hpipe
  | device =>
    dsimp only
    split_ifs
    · exact ⟨by omega, fun _ _ => rfl⟩
    · exact hdev
  | inode =>
    dsimp only
    rw [wp_bind]
    refine wp_rules_mono ilock_size fun _ t ⟨hu, hf, hsize⟩ => ?_
    rw [wp_bind]
    refine file_spec ?_
    have hnat := toNat_toUInt32 n
    have hoff := (s.files.file f).off.toNat_lt
    -- the length that `readi` gets makes it return at once, or is what was asked for
    have hlen : min n.toUInt32.toNat ((t.inode (s.files.file f).ip).d.size.toNat - (t.files.file f).off.toNat) ≤ n.toInt.toNat ∨
        ((t.files.file f).off.toNat + n.toUInt32.toNat) % 2 ^ 32 < (t.files.file f).off.toNat := by
      rw [hsize, hf]
      by_cases hneg : n.toInt < 0
      · rw [if_pos hneg] at hnat
        rcases hn hneg htype with h | h
        · right
          omega
        · left
          omega
      · rw [if_neg hneg] at hnat
        left
        omega
    rw [wp_bind]
    refine wp_rules_mono (readi_within hlen) fun r t1 hr => ?_
    rw [wp_bind]
    refine wp_rules_mono (wp_quiet (quiet_advance f _ _) rfl) fun _ t2 hu2 => ?_
    rw [wp_bind]
    refine wp_rules_mono (wp_quiet (quiet_iunlock _) rfl) fun _ t3 hu3 => ?_
    exact ⟨hr.1, fun k hk => by rw [hu3, hu2, hr.2 k hk, hu]⟩

end Reads

/-- The first process has the file `a` open for reading at descriptor `0`. -/
def tinyReader : FsState :=
  { tinyState with
    outstanding := 0
    inode := fun ip => { tinyState.inode ip with lock := none }
    files := (FileState.boot.setFile 0 ⟨.inode, 1, true, false, 0, 1, 0, 0⟩).setOfile 0 0 (some 0) }

end Xv6Shmem.Fs
