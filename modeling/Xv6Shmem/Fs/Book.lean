import Xv6Shmem.Fs.Calls

/-!
# What the code does to references, locks and operations

A `Book` keeps of a state the counts of the inodes in memory, their sleep-locks, the operations under
way, the open files and the current directories. What is read from blocks and inodes, and with it
which path the code takes, is left open: `booking` is an account of the commands, and
`booking_sound` says that they keep to it.

A spec of a function of the file system says what it does to the book, in continuation form.

## What is proved

* `booking_sound` — the account is one of the commands as they run.
* `keeps_balloc`, … — code that leaves the book alone.
* `wp_iget`, `wp_ilock`, `wp_iput`, `wp_namex`, … — code that takes and gives back.
-/

namespace Xv6Shmem.Fs

open Function Kernel Disk Files Prog

/-- What is kept of a state. -/
@[ext]
structure Book where
  /-- `ref` of the inodes in memory. -/
  refs : InodeNo → ℤ
  /-- Who holds their sleep-locks. -/
  lock : InodeNo → Option Slot
  /-- `log.outstanding`. -/
  outstanding : ℕ
  files : FileState
  cwd : Slot → Option InodeNo

namespace Book

/-- `n` more references to an inode. -/
def addRef (g : Book) (ip : InodeNo) (n : ℤ) : Book := { g with refs := update g.refs ip (g.refs ip + n) }

def setLock (g : Book) (ip : InodeNo) (o : Option Slot) : Book := { g with lock := update g.lock ip o }

def setFiles (g : Book) (s : FileState) : Book := { g with files := s }

/-- The test of `iput` has taken the lock, or has not. -/
def tested (g : Book) (p : Slot) (ip : InodeNo) : Bool → Book
  | true => g.setLock ip (some p)
  | false => g

end Book

section Account

variable (p : Slot)

/-- The answers that are possible. -/
def canAnswer : (c : Cmd) → c.Res → Book → Prop
  | .panic _, _, _ => False
  | .acquiresleep ip, _, g => g.lock ip = none
  | .holdingsleep ip, r, g => r = decide (g.lock ip = some p)
  | .iputTest ip, r, g => r = true → g.lock ip = none
  | .filealloc, r, g => r = (Files.filealloc g.files).map Prod.fst
  | .file f, r, g => r = g.files.file f
  | .filedup f, _, g => 0 < (g.files.file f).ref
  | .fileunref f, r, g => ∃ t, fileUnref g.files f = .ok (r, t)
  | .pipeclose pi w, _, g => ∃ t, Files.pipeclose g.files pi w = .ok t
  | .argfd q fd, r, g => r = Files.argfd g.files q fd
  | .fdalloc q f, r, g => r = (Files.fdalloc g.files q f).map Prod.fst
  | .ofile q fd, r, g => r = g.files.ofile q fd
  | .cwd q, r, g => r = g.cwd q
  | _, _, _ => True

/-- The files after a command. -/
def filesAfter : Cmd → FileState → FileState
  | .filealloc, s => ((Files.filealloc s).map Prod.snd).getD s
  | .setFile f x, s => s.setFile f x
  | .filedup f, s => s.setFile f { s.file f with ref := (s.file f).ref + 1 }
  | .fileunref f, s =>
    match fileUnref s f with
    | .ok (_, t) => t
    | .error _ => s
  | .pipeclose pi w, s =>
    match Files.pipeclose s pi w with
    | .ok t => t
    | .error _ => s
  | .pipeinit pi, s => s.kalloc pi
  | .fdalloc q f, s => ((Files.fdalloc s q f).map Prod.snd).getD s
  | .setOfile q fd o, s => s.setOfile q fd o
  | .setLife q l, s => s.setLife q l
  | _, s => s

/-- The book after a command. -/
def bookAfter : (c : Cmd) → c.Res → Book → Book
  | .beginOp, _, g => { g with outstanding := g.outstanding + 1 }
  | .endOp, _, g => { g with outstanding := g.outstanding - 1 }
  | .iget _ _, ip, g => g.addRef ip 1
  | .idup ip, _, g => g.addRef ip 1
  | .unref ip, _, g => g.addRef ip (-1)
  | .acquiresleep ip, _, g => g.setLock ip (some p)
  | .releasesleep ip, _, g => g.setLock ip none
  | .iputTest ip, r, g => g.tested p ip r
  | .setCwd q o, _, g => { g with cwd := update g.cwd q o }
  | c, _, g => g.setFiles (filesAfter c g.files)

/-- The books of process `p`. -/
def booking : Account Cmd.Res Book where
  req _ _ := True
  can := canAnswer p
  after := bookAfter p

end Account

/-- The book of a state. -/
def FsState.book (s : FsState) : Book where
  refs ip := (s.inode ip).ref
  lock ip := (s.inode ip).lock
  outstanding := s.outstanding
  files := s.files
  cwd := s.cwd

theorem FsState.book_setInode (s : FsState) (ip : InodeNo) (x : Inode) :
    (s.setInode ip x).book = { s.book with
      refs := update s.book.refs ip x.ref
      lock := update s.book.lock ip x.lock } := by
  refine Book.ext (funext fun k => ?_) (funext fun k => ?_) rfl rfl rfl <;> by_cases hk : k = ip
  · subst hk
    simp [FsState.book, FsState.setInode]
  · simp [FsState.book, FsState.setInode, hk]
  · subst hk
    simp [FsState.book, FsState.setInode]
  · simp [FsState.book, FsState.setInode, hk]

theorem FsState.book_setRef (s : FsState) (ip : InodeNo) {x : Inode} {n : ℤ} (hr : x.ref = (s.inode ip).ref + n)
    (hl : x.lock = (s.inode ip).lock) : (s.setInode ip x).book = s.book.addRef ip n := by
  rw [book_setInode, hl, hr]
  have hlock : update s.book.lock ip (s.inode ip).lock = s.book.lock := update_eq_self ip s.book.lock
  rw [hlock]
  rfl

theorem FsState.book_setLock (s : FsState) (ip : InodeNo) {x : Inode} (hr : x.ref = (s.inode ip).ref) :
    (s.setInode ip x).book = s.book.setLock ip x.lock := by
  rw [book_setInode, hr]
  have hrefs : update s.book.refs ip (s.inode ip).ref = s.book.refs := update_eq_self ip s.book.refs
  rw [hrefs]
  rfl

theorem FsState.book_setRest (s : FsState) (ip : InodeNo) {x : Inode} (hr : x.ref = (s.inode ip).ref)
    (hl : x.lock = (s.inode ip).lock) : (s.setInode ip x).book = s.book := by
  rw [book_setLock s ip hr, hl]
  have hlock : update s.book.lock ip (s.inode ip).lock = s.book.lock := update_eq_self ip s.book.lock
  rw [Book.setLock, hlock]

/-- **The books are right** about the machine. -/
theorem booking_sound (sb : Superblock) (p : Slot) : (booking p).Sound (execCmd sb p) fun s g => s.book = g := by
  rintro c s g r t rfl - hc
  cases c with
  | panic e => cases hc
  | bread b =>
    simp only [execCmd] at hc
    split at hc
    · cases hc
    · cases hc
      exact ⟨trivial, rfl⟩
  | data b =>
    cases hc
    exact ⟨trivial, rfl⟩
  | setData b d =>
    cases hc
    exact ⟨trivial, rfl⟩
  | logWrite b =>
    simp only [execCmd] at hc
    split at hc
    · cases hc
    · split at hc
      · cases hc
      · cases hc
        exact ⟨trivial, rfl⟩
  | brelse b =>
    simp only [execCmd] at hc
    split at hc
    · cases hc
      exact ⟨trivial, rfl⟩
    · cases hc
  | beginOp =>
    simp only [execCmd] at hc
    split at hc
    · cases hc
    · cases hc
      exact ⟨trivial, rfl⟩
  | endOp =>
    simp only [execCmd] at hc
    split at hc <;> cases hc <;> exact ⟨trivial, rfl⟩
  | iget dev inum =>
    simp only [execCmd] at hc
    split at hc
    · cases hc
      exact ⟨trivial, s.book_setRef _ rfl rfl⟩
    · split at hc
      · rename_i hip
        cases hc
        have href : (s.inode r).ref = 0 := by simpa using List.find?_some hip
        exact ⟨trivial, s.book_setRef _ (by rw [href]; rfl) rfl⟩
      · cases hc
  | idup ip =>
    cases hc
    exact ⟨trivial, s.book_setRef _ rfl rfl⟩
  | ident ip =>
    cases hc
    exact ⟨trivial, rfl⟩
  | ref ip =>
    cases hc
    exact ⟨trivial, rfl⟩
  | acquiresleep ip =>
    simp only [execCmd] at hc
    split at hc
    · cases hc
      exact ⟨‹_›, s.book_setLock _ rfl⟩
    · cases hc
  | holdingsleep ip =>
    cases hc
    exact ⟨rfl, rfl⟩
  | releasesleep ip =>
    cases hc
    exact ⟨trivial, s.book_setLock _ rfl⟩
  | valid ip =>
    cases hc
    exact ⟨trivial, rfl⟩
  | setValid ip v =>
    cases hc
    exact ⟨trivial, s.book_setRest _ rfl rfl⟩
  | fields ip =>
    cases hc
    exact ⟨trivial, rfl⟩
  | setFields ip x =>
    cases hc
    exact ⟨trivial, s.book_setRest _ rfl rfl⟩
  | iputTest ip =>
    simp only [execCmd] at hc
    split at hc
    · split at hc
      · cases hc
        exact ⟨fun _ => ‹_›, s.book_setLock _ rfl⟩
      · cases hc
    · cases hc
      exact ⟨fun h => absurd h Bool.false_ne_true, rfl⟩
  | unref ip =>
    cases hc
    exact ⟨trivial, s.book_setRef _ rfl rfl⟩
  | filealloc =>
    simp only [execCmd] at hc
    split at hc <;> rename_i hf <;> cases hc
    all_goals
      refine ⟨congrArg (Option.map Prod.fst) hf.symm, ?_⟩
      simp [booking, bookAfter, filesAfter, FsState.book, Book.setFiles, hf]
  | file f =>
    cases hc
    exact ⟨rfl, rfl⟩
  | setFile f x =>
    cases hc
    exact ⟨trivial, rfl⟩
  | filedup f =>
    simp only [execCmd, Files.filedup] at hc
    split_ifs at hc with href
    · cases hc
      exact ⟨Nat.pos_of_ne_zero fun h0 => href (Nat.lt_one_iff.mpr h0), rfl⟩
  | fileunref f =>
    simp only [execCmd] at hc
    cases hf : fileUnref s.files f with
    | error e =>
      rw [hf] at hc
      cases hc
    | ok y =>
      rw [hf] at hc
      cases hc
      refine ⟨⟨y.2, hf⟩, ?_⟩
      simp [booking, bookAfter, filesAfter, FsState.book, Book.setFiles, hf]
  | pipeclose pi w =>
    simp only [execCmd] at hc
    split at hc <;> rename_i hf <;> cases hc
    refine ⟨⟨_, hf⟩, ?_⟩
    simp [booking, bookAfter, filesAfter, FsState.book, Book.setFiles, hf]
  | pipeinit pi =>
    cases hc
    exact ⟨trivial, rfl⟩
  | argfd q fd =>
    cases hc
    exact ⟨rfl, rfl⟩
  | fdalloc q f =>
    simp only [execCmd] at hc
    split at hc <;> rename_i hf <;> cases hc
    all_goals
      refine ⟨congrArg (Option.map Prod.fst) hf.symm, ?_⟩
      simp [booking, bookAfter, filesAfter, FsState.book, Book.setFiles, hf]
  | ofile q fd =>
    cases hc
    exact ⟨rfl, rfl⟩
  | setOfile q fd o =>
    cases hc
    exact ⟨trivial, rfl⟩
  | cwd q =>
    cases hc
    exact ⟨rfl, rfl⟩
  | setCwd q o =>
    cases hc
    exact ⟨trivial, rfl⟩
  | setLife q l =>
    cases hc
    exact ⟨trivial, rfl⟩
  | copyin src n =>
    cases hc
    exact ⟨trivial, rfl⟩
  | copyout dst bs =>
    cases hc
    exact ⟨trivial, rfl⟩

/-! ### Code that leaves the book alone -/

section Keeps

variable {sb : Superblock} {α β : Type} {x : Code α} {f : α → Code β} {ip : InodeNo}

/-- The code leaves the book alone. -/
def Keeps (x : Code α) : Prop := ∀ (p : Slot) (g : Book) (Q : α → Book → Prop), (∀ a, Q a g) → x.wp (booking p).rules Q g

theorem Keeps.pure (a : α) : Keeps (pure a) := fun _ _ _ h => h a

theorem Keeps.bind (hx : Keeps x) (hf : ∀ a, Keeps (f a)) : Keeps (x >>= f) := by
  intro p g Q h
  rw [wp_bind]
  apply hx
  intro a
  exact hf a p g Q h

theorem Keeps.ite {c : Prop} [Decidable c] {y : Code α} (hx : Keeps x) (hy : Keeps y) : Keeps (if c then x else y) := by
  split
  · exact hx
  · exact hy

theorem keeps_call {c : Cmd} (hc : ∀ p r g, bookAfter p c r g = g) : Keeps (Prog.call c) := by
  intro p g Q h
  refine ⟨trivial, fun r _ => ?_⟩
  change Q r (bookAfter p c r g)
  rw [hc]
  exact h r

theorem wp_panic [Inhabited α] {p : Slot} {g : Book} {Q : α → Book → Prop} (e : Fault) :
    (panic e : Code α).wp (booking p).rules Q g := ⟨trivial, fun _ h => h.elim⟩

theorem keeps_panic [Inhabited α] (e : Fault) : Keeps (panic e : Code α) := fun _ _ _ _ => wp_panic e

theorem keeps_bread (b : ℕ) : Keeps (bread b) := keeps_call fun _ _ _ => rfl

theorem keeps_data (b : ℕ) : Keeps (data b) := keeps_call fun _ _ _ => rfl

theorem keeps_setData (b : ℕ) (d : Block) : Keeps (setData b d) := keeps_call fun _ _ _ => rfl

theorem keeps_logWrite (b : ℕ) : Keeps (logWrite b) := keeps_call fun _ _ _ => rfl

theorem keeps_brelse (b : ℕ) : Keeps (brelse b) := keeps_call fun _ _ _ => rfl

theorem keeps_ident (ip : InodeNo) : Keeps (ident ip) := keeps_call fun _ _ _ => rfl

theorem keeps_fields (ip : InodeNo) : Keeps (fields ip) := keeps_call fun _ _ _ => rfl

theorem keeps_setFields (ip : InodeNo) (y : Dinode) : Keeps (setFields ip y) := keeps_call fun _ _ _ => rfl

theorem keeps_setValid (ip : InodeNo) (v : Bool) : Keeps (setValid ip v) := keeps_call fun _ _ _ => rfl

theorem keeps_bzero (b : ℕ) : Keeps (bzero b) :=
  (keeps_bread b).bind fun _ => (keeps_setData b _).bind fun _ => (keeps_logWrite b).bind fun _ => keeps_brelse b

theorem keeps_ballocFrom (bs : List ℕ) : Keeps (ballocFrom sb bs) := by
  induction bs with
  | nil => exact .pure 0
  | cons b bs ih =>
    refine (keeps_bread _).bind fun _ => (keeps_data _).bind fun d => ?_
    split
    · exact (keeps_setData _ _).bind fun _ => (keeps_logWrite _).bind fun _ => (keeps_brelse _).bind fun _ =>
        (keeps_bzero _).bind fun _ => .pure _
    · exact (keeps_brelse _).bind fun _ => ih

theorem keeps_balloc : Keeps (balloc sb) := keeps_ballocFrom _

theorem keeps_bfree (b : ℕ) : Keeps (bfree sb b) := by
  refine (keeps_bread _).bind fun _ => (keeps_data _).bind fun d => ?_
  split
  · exact keeps_panic _
  · exact (keeps_setData _ _).bind fun _ => (keeps_logWrite _).bind fun _ => keeps_brelse _

theorem keeps_iupdate (ip : InodeNo) : Keeps (iupdate sb ip) :=
  (keeps_ident ip).bind fun _ => (keeps_bread _).bind fun _ => (keeps_data _).bind fun _ => (keeps_fields ip).bind fun _ =>
    (keeps_setData _ _).bind fun _ => (keeps_logWrite _).bind fun _ => keeps_brelse _

theorem keeps_iread (ip : InodeNo) : Keeps (iread sb ip) := by
  refine (keeps_ident ip).bind fun _ => (keeps_bread _).bind fun _ => (keeps_data _).bind fun _ =>
    (keeps_setFields ip _).bind fun _ => (keeps_brelse _).bind fun _ => (keeps_setValid ip true).bind fun _ => ?_
  split
  · exact keeps_panic _
  · exact .pure _

theorem keeps_itruncDirect (ip : InodeNo) (is : List ℕ) : Keeps (itruncDirect sb ip is) := by
  induction is with
  | nil => exact .pure ()
  | cons i is ih =>
    refine (keeps_fields ip).bind fun x => ?_
    split
    · exact (keeps_bfree _).bind fun _ => (keeps_fields ip).bind fun _ => (keeps_setFields ip _).bind fun _ => ih
    · exact ih

theorem keeps_itruncEntries (a : Block) (js : List ℕ) : Keeps (itruncEntries sb a js) := by
  induction js with
  | nil => exact .pure ()
  | cons j js ih =>
    unfold itruncEntries
    split
    · exact (keeps_bfree _).bind fun _ => ih
    · exact ih

theorem keeps_itruncIndirect (ip : InodeNo) : Keeps (itruncIndirect sb ip) := by
  refine (keeps_fields ip).bind fun x => ?_
  split
  · exact (keeps_bread _).bind fun _ => (keeps_data _).bind fun a => (keeps_itruncEntries a _).bind fun _ =>
      (keeps_brelse _).bind fun _ => (keeps_bfree _).bind fun _ => (keeps_fields ip).bind fun _ => keeps_setFields ip _
  · exact .pure _

theorem keeps_itrunc (ip : InodeNo) : Keeps (itrunc sb ip) :=
  (keeps_itruncDirect ip _).bind fun _ => (keeps_itruncIndirect ip).bind fun _ => (keeps_fields ip).bind fun _ =>
    (keeps_setFields ip _).bind fun _ => keeps_iupdate ip

theorem keeps_bmapDirect (ip : InodeNo) (bn : ℕ) : Keeps (bmapDirect sb ip bn) := by
  refine (keeps_fields ip).bind fun x => ?_
  split
  · refine keeps_balloc.bind fun addr => ?_
    split
    · exact .pure _
    · exact (keeps_fields ip).bind fun _ => (keeps_setFields ip _).bind fun _ => .pure _
  · exact .pure _

theorem keeps_bmapEntry (ind bn : ℕ) : Keeps (bmapEntry sb ind bn) := by
  refine (keeps_bread ind).bind fun _ => (keeps_data ind).bind fun a => ?_
  split
  · refine keeps_balloc.bind fun addr => ?_
    split
    · exact (keeps_data ind).bind fun _ => (keeps_setData ind _).bind fun _ => (keeps_logWrite ind).bind fun _ =>
        (keeps_brelse ind).bind fun _ => .pure _
    · exact (keeps_brelse ind).bind fun _ => .pure _
  · exact (keeps_brelse ind).bind fun _ => .pure _

theorem keeps_bmap (ip : InodeNo) (bn : ℕ) : Keeps (bmap sb ip bn) := by
  unfold bmap
  split
  · exact keeps_bmapDirect ip bn
  · split
    · refine (keeps_bmapDirect ip NDIRECT).bind fun ind => ?_
      split
      · exact .pure _
      · exact keeps_bmapEntry ind _
    · exact keeps_panic _

theorem keeps_eitherCopyout (dst : Option ℕ) (tot : ℕ) (bs : List UInt8) : Keeps (eitherCopyout dst tot bs) := by
  cases dst with
  | none => exact .pure true
  | some a => exact keeps_call fun _ _ _ => rfl

theorem keeps_readiFrom (ip : InodeNo) (dst : Option ℕ) (n fuel tot off : ℕ) (acc : List UInt8) :
    Keeps (readiFrom sb ip dst n fuel tot off acc) := by
  induction fuel generalizing tot off acc with
  | zero => exact .pure _
  | succ fuel ih =>
    unfold readiFrom
    split
    · refine (keeps_bmap ip _).bind fun addr => ?_
      split
      · exact .pure _
      · refine (keeps_bread addr).bind fun _ => (keeps_data addr).bind fun d => (keeps_eitherCopyout _ _ _).bind fun ok => ?_
        split
        · exact (keeps_brelse addr).bind fun _ => ih _ _ _
        · exact (keeps_brelse addr).bind fun _ => .pure _
    · exact .pure _

theorem keeps_readi (ip : InodeNo) (dst : Option ℕ) (off n : ℕ) : Keeps (readi sb ip dst off n) := by
  refine (keeps_fields ip).bind fun x => ?_
  dsimp only
  split
  · exact .pure _
  · exact keeps_readiFrom ip dst _ _ _ _ _

theorem keeps_eitherCopyin (src : Src) (tot m : ℕ) : Keeps (eitherCopyin src tot m) := by
  cases src with
  | kernel bs => exact .pure _
  | user a => exact keeps_call fun _ _ _ => rfl

theorem keeps_writeiFrom (ip : InodeNo) (src : Src) (n fuel tot off : ℕ) : Keeps (writeiFrom sb ip src n fuel tot off) := by
  induction fuel generalizing tot off with
  | zero => exact .pure _
  | succ fuel ih =>
    unfold writeiFrom
    split
    · refine (keeps_bmap ip _).bind fun addr => ?_
      split
      · exact .pure _
      · refine (keeps_bread addr).bind fun _ => (keeps_eitherCopyin src _ _).bind fun y => (keeps_data addr).bind fun d =>
          (keeps_setData addr _).bind fun _ => ?_
        split
        · exact (keeps_logWrite addr).bind fun _ => (keeps_brelse addr).bind fun _ => ih _ _
        · exact (keeps_brelse addr).bind fun _ => .pure _
    · exact .pure _

theorem keeps_writei (ip : InodeNo) (src : Src) (off n : ℕ) : Keeps (writei sb ip src off n) := by
  refine (keeps_fields ip).bind fun x => ?_
  split
  · exact .pure _
  · split
    · exact .pure _
    · refine (keeps_writeiFrom ip src _ _ _ _).bind fun y => (keeps_fields ip).bind fun x => ?_
      split
      · exact (keeps_setFields ip _).bind fun _ => (keeps_iupdate ip).bind fun _ => .pure _
      · exact (keeps_iupdate ip).bind fun _ => .pure _

theorem keeps_readDirent (dp : InodeNo) (off : ℕ) (e : Fault) : Keeps (readDirent sb dp off e) := by
  refine (keeps_readi dp none off DESIZE).bind fun ⟨r, bs⟩ => ?_
  dsimp only
  split
  · have hp : Keeps (Prog.call (Cmd.panic e)) := fun _ _ _ _ => ⟨trivial, fun _ h => False.elim h⟩
    exact hp.bind fun _ => .pure _
  · exact .pure _

theorem keeps_dirlinkFrom (dp : InodeNo) (last : ℕ) (offs : List ℕ) : Keeps (dirlinkFrom sb dp last offs) := by
  induction offs with
  | nil => exact .pure _
  | cons off offs ih =>
    refine (keeps_readDirent dp off _).bind fun de => ?_
    split
    · exact .pure _
    · exact ih

theorem keeps_isdirempty (dp : InodeNo) : Keeps (isdirempty sb dp) := by
  have hfrom : ∀ offs, Keeps (isdiremptyFrom sb dp offs) := by
    intro offs
    induction offs with
    | nil => exact .pure _
    | cons off offs ih =>
      refine (keeps_readDirent dp off _).bind fun de => ?_
      split
      · exact .pure _
      · exact ih
  exact (keeps_fields dp).bind fun x => hfrom _

theorem keeps_loadseg (ip : InodeNo) (offset sz : ℕ) : Keeps (loadseg sb ip offset sz) := by
  unfold loadseg
  generalize ((List.range ((sz + 4095) / 4096)).map (· * 4096)) = is
  induction is with
  | nil => exact .pure _
  | cons i is ih =>
    unfold loadsegFrom
    refine (keeps_readi ip none _ _).bind fun ⟨r, bs⟩ => ?_
    dsimp only
    generalize ((if sz - i < 4096 then sz - i else 4096 : ℕ) : ℤ) = n
    split
    · exact .pure _
    · exact ih

theorem keeps_execSegment (ip : InodeNo) (env : Building) (i : ℕ) (ph : List UInt8) : Keeps (execSegment sb ip env i ph) := by
  unfold execSegment
  generalize phdrOk ph = hok
  exact .ite (.pure _) <| .ite (.pure _) <| .ite (.pure _) <| keeps_loadseg ip _ _

theorem keeps_execFrom (ip : InodeNo) (env : Building) (is : List (ℕ × ℕ)) : Keeps (execFrom sb ip env is) := by
  induction is with
  | nil => exact .pure _
  | cons i is ih =>
    exact (keeps_readi ip none _ _).bind fun ⟨_, _⟩ => .ite (.pure _) <|
      (keeps_execSegment ip env _ _).bind fun _ => .ite ih (.pure _)

theorem keeps_execLoad (ip : InodeNo) (env : Building) : Keeps (execLoad sb ip env) := by
  exact (keeps_readi ip none _ _).bind fun ⟨_, _⟩ => .ite (.pure _) <| .ite (.pure _) <| .ite (.pure _) <|
    keeps_execFrom ip env _

end Keeps

/-! ### Inodes -/

namespace Book

variable {g : Book} {ip jp : InodeNo} {o o' : Option Slot} {m n : ℤ}

@[simp] theorem addRef_addRef : (g.addRef ip m).addRef ip n = g.addRef ip (m + n) := by
  simp [addRef, add_assoc]

@[simp] theorem addRef_zero : g.addRef ip 0 = g := by
  simp [addRef]

@[simp] theorem addRef_drop : (g.addRef ip 1).addRef ip (-1) = g := by
  rw [addRef_addRef, add_neg_cancel, addRef_zero]

theorem addRef_comm (ip jp : InodeNo) : (g.addRef ip m).addRef jp n = (g.addRef jp n).addRef ip m := by
  by_cases h : ip = jp
  · subst h
    rw [addRef_addRef, addRef_addRef, add_comm]
  · simp [addRef, h, Ne.symm h, update_comm h]

@[simp] theorem setLock_setLock : (g.setLock ip o).setLock ip o' = g.setLock ip o' := by
  simp [setLock]

theorem setLock_comm (h : ip ≠ jp) : (g.setLock ip o).setLock jp o' = (g.setLock jp o').setLock ip o := by
  simp [setLock, update_comm h]

theorem setLock_eq_self (h : g.lock ip = o) : g.setLock ip o = g := by
  subst h
  simp [setLock]

@[simp] theorem addRef_setLock : (g.setLock ip o).addRef jp n = (g.addRef jp n).setLock ip o := rfl

@[simp] theorem lock_setLock_self : (g.setLock ip o).lock ip = o := by
  simp [setLock]

theorem lock_setLock_of_ne (h : jp ≠ ip) : (g.setLock ip o).lock jp = g.lock jp := by
  simp [setLock, h]

@[simp] theorem lock_addRef : (g.addRef ip n).lock = g.lock := rfl

end Book

section Specs

variable {sb : Superblock} {p : Slot} {g : Book} {ip dp : InodeNo}

/-- After one part of the code, and with what it does to the book. -/
theorem wp_keeps {α β : Type} {x : Code α} {f : α → Code β} {Q : β → Book → Prop} (hx : Keeps x)
    (hf : ∀ a, (f a).wp (booking p).rules Q g) : (x >>= f).wp (booking p).rules Q g := by
  rw [wp_bind]
  exact hx p g _ hf

theorem wp_iget {Q : InodeNo → Book → Prop} {dev inum : ℕ} (h : ∀ ip, Q ip (g.addRef ip 1)) :
    (iget dev inum).wp (booking p).rules Q g := ⟨trivial, fun ip _ => h ip⟩

variable {Q : Unit → Book → Prop}

theorem wp_idup (h : Q () (g.addRef ip 1)) : (idup ip).wp (booking p).rules Q g :=
  ⟨trivial, fun _ _ => h⟩

theorem wp_ilock (h : g.lock ip = none → Q () (g.setLock ip (some p))) :
    (ilock sb ip).wp (booking p).rules Q g := by
  refine wp_keeps (keeps_call fun _ _ _ => rfl) fun r => ?_
  split
  · exact wp_panic _
  · rw [wp_bind]
    refine ⟨trivial, fun _ hlock => ?_⟩
    refine wp_keeps (keeps_call fun _ _ _ => rfl) fun v => ?_
    split
    · exact keeps_iread ip p _ Q fun _ => h hlock
    · exact h hlock

theorem wp_iunlock (h : g.lock ip = some p → Q () (g.setLock ip none)) :
    (iunlock ip).wp (booking p).rules Q g := by
  refine wp_bind.mpr ⟨trivial, fun r hr => wp_keeps (keeps_call fun _ _ _ => rfl) fun n => ?_⟩
  change r = decide (g.lock ip = some p) at hr
  subst hr
  split
  · exact wp_panic _
  · rename_i hn
    refine ⟨trivial, fun _ _ => h ?_⟩
    by_contra hne
    exact hn (.inl (decide_eq_false hne))

theorem wp_iput (h : Q () (g.addRef ip (-1))) : (iput sb ip).wp (booking p).rules Q g := by
  have hunref : ∀ g', g' = g → (unref ip).wp (booking p).rules Q g' := by
    rintro g' rfl
    exact ⟨trivial, fun _ _ => h⟩
  refine wp_bind.mpr ⟨trivial, fun r hr => ?_⟩
  cases r with
  | false => exact hunref g rfl
  | true =>
    -- the inode is freed under its lock
    refine wp_keeps (keeps_itrunc ip) fun _ => wp_keeps (keeps_fields ip) fun _ => wp_keeps (keeps_setFields ip _) fun _ =>
      wp_keeps (keeps_iupdate ip) fun _ => wp_keeps (keeps_setValid ip false) fun _ => wp_bind.mpr ⟨trivial, fun _ _ => ?_⟩
    refine hunref _ ?_
    change (g.setLock ip (some p)).setLock ip none = g
    rw [Book.setLock_setLock, Book.setLock_eq_self (hr rfl)]

theorem wp_iunlockput (h : g.lock ip = some p → Q () ((g.setLock ip none).addRef ip (-1))) :
    (iunlockput sb ip).wp (booking p).rules Q g :=
  wp_bind.mpr (wp_iunlock fun hlock => wp_iput (h hlock))

theorem wp_iunlockput_of (hlock : g.lock ip = none) (h : Q () (g.addRef ip (-1))) :
    (iunlockput sb ip).wp (booking p).rules Q (g.setLock ip (some p)) := by
  refine wp_iunlockput fun _ => ?_
  rw [Book.setLock_setLock, Book.setLock_eq_self hlock]
  exact h

theorem wp_iunlockput_got (hlock : g.lock ip = none) (h : Q () g) :
    (iunlockput sb ip).wp (booking p).rules Q ((g.addRef ip 1).setLock ip (some p)) := by
  refine wp_iunlockput_of (g := g.addRef ip 1) hlock ?_
  rwa [Book.addRef_drop]

theorem wp_iunlock_of (hlock : g.lock ip = none) (h : Q () g) :
    (iunlock ip).wp (booking p).rules Q (g.setLock ip (some p)) := by
  refine wp_iunlock fun _ => ?_
  rw [Book.setLock_setLock, Book.setLock_eq_self hlock]
  exact h

theorem wp_ialloc {dev : ℕ} {type : Int16} {Q : Option InodeNo → Book → Prop} (h0 : Q none g)
    (h1 : ∀ ip, Q (some ip) (g.addRef ip 1)) : (ialloc sb dev type).wp (booking p).rules Q g := by
  unfold ialloc
  generalize (List.range sb.ninodes).drop 1 = is
  induction is with
  | nil => exact h0
  | cons i is ih =>
    refine wp_keeps (keeps_bread _) fun _ => wp_keeps (keeps_data _) fun d => ?_
    split
    · refine wp_keeps (keeps_setData _ _) fun _ => wp_keeps (keeps_logWrite _) fun _ => wp_keeps (keeps_brelse _) fun _ => ?_
      exact wp_bind.mpr (wp_iget h1)
    · exact wp_keeps (keeps_brelse _) fun _ => ih

theorem wp_dirlookup {name : List UInt8} {Q : Option (InodeNo × ℕ) → Book → Prop} (h0 : Q none g)
    (h1 : ∀ ip off, Q (some (ip, off)) (g.addRef ip 1)) : (dirlookup sb dp name).wp (booking p).rules Q g := by
  refine wp_keeps (keeps_fields dp) fun x => ?_
  split
  · exact wp_panic _
  generalize direntOffsets x.size.toNat = offs
  induction offs with
  | nil => exact h0
  | cons off offs ih =>
    refine wp_keeps (keeps_readDirent dp off _) fun de => ?_
    split
    · exact wp_keeps (keeps_ident dp) fun _ => wp_bind.mpr (wp_iget fun ip => h1 ip off)
    · exact ih

theorem keeps_dirlink (dp : InodeNo) (name : List UInt8) (inum : ℕ) : Keeps (dirlink sb dp name inum) := by
  intro p g Q h
  refine wp_bind.mpr (wp_dirlookup ?_ fun ip off => ?_)
  · refine wp_keeps (keeps_fields dp) fun x => wp_keeps (keeps_dirlinkFrom dp _ _) fun off =>
      wp_keeps (keeps_writei dp _ _ _) fun r => ?_
    split
    · exact h _
    · exact h _
  · refine wp_bind.mpr (wp_iput ?_)
    rw [Book.addRef_drop]
    exact h (-1)

/-- `namex` gives back the references to the directories that it has come through. -/
theorem wp_namexFrom {parent : Bool} {es : List (List UInt8 × List UInt8)} {name : List UInt8}
    {Q : Option (InodeNo × List UInt8) → Book → Prop} (h0 : Q none g) (h1 : ∀ ip name, Q (some (ip, name)) (g.addRef ip 1)) :
    (namexFrom sb parent es ip name).wp (booking p).rules Q (g.addRef ip 1) := by
  induction es generalizing ip name with
  | nil =>
    unfold namexFrom
    split
    · refine wp_bind.mpr (wp_iput ?_)
      rw [Book.addRef_drop]
      exact h0
    · exact h1 ip name
  | cons e es ih =>
    refine wp_bind.mpr (wp_ilock fun hlock => wp_keeps (keeps_fields ip) fun x => ?_)
    split
    · exact wp_bind.mpr (wp_iunlockput_got hlock h0)
    · split
      · exact wp_bind.mpr (wp_iunlock_of hlock (h1 ip _))
      · refine wp_bind.mpr (wp_dirlookup (wp_bind.mpr (wp_iunlockput_got hlock h0)) fun next off => ?_)
        -- the reference to the next directory is kept, that to this one dropped
        refine wp_bind.mpr ?_
        rw [Book.addRef_setLock, Book.addRef_comm]
        exact wp_iunlockput_got (g := g.addRef next 1) hlock ih

theorem wp_namex {parent : Bool} {path : List UInt8} {Q : Option (InodeNo × List UInt8) → Book → Prop} (h0 : Q none g)
    (h1 : ∀ ip name, Q (some (ip, name)) (g.addRef ip 1)) : (namex sb p path parent).wp (booking p).rules Q g := by
  unfold namex
  split
  · exact wp_bind.mpr (wp_iget fun ip => wp_namexFrom h0 h1)
  · refine wp_bind.mpr ⟨trivial, fun (o : Option InodeNo) _ => ?_⟩
    cases o with
    | none => exact wp_panic _
    | some ip => exact wp_bind.mpr (wp_idup (wp_namexFrom h0 h1))

theorem wp_namei {path : List UInt8} {Q : Option InodeNo → Book → Prop} (h0 : Q none g)
    (h1 : ∀ ip, Q (some ip) (g.addRef ip 1)) : (namei sb p path).wp (booking p).rules Q g :=
  wp_bind.mpr (wp_namex h0 fun ip _ => h1 ip)

end Specs

end Xv6Shmem.Fs
