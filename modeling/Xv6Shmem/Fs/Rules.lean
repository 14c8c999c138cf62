import Xv6Shmem.Fs.Calls

/-!
# Rules for the code of the file system

The rules say what each command does to the state, which faults may happen, and that a block is logged only
if the log with it meets a condition. The condition is `True` where the log does not matter.

## What is proved

* a rule for each command.
* `post_of_rules` — what the rules say of code is so of its run.
-/

namespace Xv6Shmem.Fs

open Kernel Disk Files Prog

section Rules

variable (sb : Superblock) (p : Slot) (E : Fault → Prop) (fits : List ℕ → Prop)

/-- A command that logs a block leaves a log of which `fits` holds. -/
def logsIn (c : Cmd) (s : FsState) : Prop := ∀ b, c = .logWrite b → fits (s.logged.insert b)

/-- The rules: a fault in `E` may happen. -/
abbrev fsRules : Rules Cmd.Res FsState := guarded (execCmd sb p) E (logsIn fits)

end Rules

variable {sb : Superblock} {p : Slot} {E : Fault → Prop} {fits : List ℕ → Prop} {s : FsState} {α β : Type} {x : Code α}
  {Q : α → FsState → Prop}

/-- **What the rules say is so of the run**. -/
theorem post_of_rules (h : x.wp (fsRules sb p E fits) Q s) :
    Post E Q (x.run (execCmd sb p) s) :=
  post_of_guarded h

theorem post_of_any (h : x.wp (fsRules sb p E fun _ => True) Q s) :
    Post E Q (x.run (execCmd sb p) s) :=
  post_of_rules h

@[elab_as_elim]
theorem of_ok {a : α} {t : FsState} (hc : x.run (execCmd sb p) s = .ok (a, t))
    (h : x.wp (fsRules sb p (fun _ => True) fun _ => True) Q s) : Q a t := by
  have hpost := post_of_any h
  rw [hc] at hpost
  exact hpost

theorem wp_rules_mono {Q' : α → FsState → Prop} (h : x.wp (fsRules sb p E fits) Q s)
    (hQ : ∀ a t, Q a t → Q' a t) : x.wp (fsRules sb p E fits) Q' s :=
  wp_mono monotone_guarded hQ h

/-- What a command does to the log and to user memory: the log stays as it is, or a block is added, or it is emptied,
and user memory stays but for `copyout`. -/
theorem execCmd_frame {c : Cmd} {r : c.Res} {t : FsState} (h : execCmd sb p c s = .ok (r, t)) :
    (t.logged = s.logged ∨ (∃ b, c = .logWrite b ∧ t.logged = s.logged.insert b) ∨ t.logged = []) ∧
      (t.user = s.user ∨ ∃ dst bs, c = .copyout dst bs) := by
  cases c with
  | logWrite b =>
    simp only [execCmd] at h
    split_ifs at h
    cases h
    exact ⟨.inr (.inl ⟨b, rfl, rfl⟩), .inl rfl⟩
  | endOp =>
    simp only [execCmd] at h
    cases h
    split_ifs
    · exact ⟨.inr (.inr rfl), .inl rfl⟩
    · exact ⟨.inl rfl, .inl rfl⟩
  | iget dev inum =>
    simp only [execCmd] at h
    split at h
    · cases h
      exact ⟨.inl rfl, .inl rfl⟩
    · split at h
      · cases h
        exact ⟨.inl rfl, .inl rfl⟩
      · cases h
  | filealloc | filedup f | fdalloc q f | pipeclose pi w =>
    simp only [execCmd] at h
    split at h
    · cases h
      exact ⟨.inl rfl, .inl rfl⟩
    · cases h <;> exact ⟨.inl rfl, .inl rfl⟩
  | fileunref f =>
    simp only [execCmd] at h
    cases hf : fileUnref s.files f with
    | error e =>
      rw [hf] at h
      cases h
    | ok y =>
      rw [hf] at h
      cases h
      exact ⟨.inl rfl, .inl rfl⟩
  | panic e => cases h
  | copyout dst bs =>
    cases h
    exact ⟨.inl rfl, .inr ⟨dst, bs, rfl⟩⟩
  | bread b | brelse b | acquiresleep ip =>
    simp only [execCmd] at h
    split_ifs at h
    cases h
    exact ⟨.inl rfl, .inl rfl⟩
  | beginOp =>
    simp only [execCmd] at h
    split_ifs at h
    cases h
    exact ⟨.inl rfl, .inl rfl⟩
  | iputTest ip =>
    simp only [execCmd] at h
    split_ifs at h
    · cases h
      exact ⟨.inl rfl, .inl rfl⟩
    · cases h
      exact ⟨.inl rfl, .inl rfl⟩
  | _ =>
    cases h
    exact ⟨.inl rfl, .inl rfl⟩

/-! ### Commands -/

section Commands

theorem wp_command {c : Cmd} {Q : c.Res → FsState → Prop} (hc : ∀ b, c ≠ .logWrite b) (h : Post E Q (execCmd sb p c s)) :
    (Prog.call c).wp (fsRules sb p E fits) Q s :=
  ⟨fun b hb => absurd hb (hc b), h⟩

theorem panic_spec [Inhabited α] {e : Fault} {Q : α → FsState → Prop} (he : E e) :
    (panic e : Code α).wp (fsRules sb p E fits) Q s :=
  wp_bind.mpr (wp_command nofun he)

variable {Q : Unit → FsState → Prop} {b : ℕ} {ip : InodeNo}

theorem bread_spec (hE : b ∈ s.held → E .blocked)
    (h : b ∉ s.held → Q () { s with held := b :: s.held }) : (bread b).wp (fsRules sb p E fits) Q s := by
  refine wp_command nofun ?_
  simp only [execCmd]
  split_ifs with hb
  · exact hE hb
  · exact h hb

theorem data_spec {Q : Block → FsState → Prop} (h : Q (s.cache b) s) : (data b).wp (fsRules sb p E fits) Q s :=
  wp_command nofun h

theorem setData_spec {d : Block}
    (h : Q () { s with cache := Function.update s.cache b d }) : (setData b d).wp (fsRules sb p E fits) Q s :=
  wp_command nofun h

theorem logWrite_spec (hE : ∀ e, E e) (hfit : fits (s.logged.insert b))
    (h : Q () { s with logged := s.logged.insert b }) : (logWrite b).wp (fsRules sb p E fits) Q s := by
  refine ⟨fun b' hb => by cases hb; exact hfit, ?_⟩
  simp only [execCmd]
  split_ifs
  · exact hE _
  · exact hE _
  · exact h

theorem brelse_spec {H : List ℕ} (hH : s.held = b :: H) (h : Q () { s with held := H }) :
    (brelse b).wp (fsRules sb p E fits) Q s := by
  refine wp_command nofun ?_
  simp only [execCmd]
  rw [if_pos (by rw [hH]; exact List.mem_cons_self), hH, List.erase_cons_head]
  exact h

theorem ident_spec {Q : ℕ × ℕ → FsState → Prop} (h : Q ((s.inode ip).dev, (s.inode ip).inum) s) :
    (ident ip).wp (fsRules sb p E fits) Q s :=
  wp_command nofun h

theorem ref_spec {Q : ℤ → FsState → Prop} (h : Q (s.inode ip).ref s) : (ref ip).wp (fsRules sb p E fits) Q s :=
  wp_command nofun h

theorem fields_spec {Q : Dinode → FsState → Prop} (h : Q (s.inode ip).d s) :
    (fields ip).wp (fsRules sb p E fits) Q s :=
  wp_command nofun h

theorem setFields_spec {x : Dinode}
    (h : Q () (s.setInode ip { s.inode ip with d := x })) : (setFields ip x).wp (fsRules sb p E fits) Q s :=
  wp_command nofun h

theorem valid_spec {Q : Bool → FsState → Prop} (h : Q (s.inode ip).valid s) :
    (valid ip).wp (fsRules sb p E fits) Q s :=
  wp_command nofun h

theorem setValid_spec {v : Bool}
    (h : Q () (s.setInode ip { s.inode ip with valid := v })) : (setValid ip v).wp (fsRules sb p E fits) Q s :=
  wp_command nofun h

theorem acquiresleep_spec (hE : (s.inode ip).lock ≠ none → E .blocked)
    (h : (s.inode ip).lock = none → Q () (s.setInode ip { s.inode ip with lock := some p })) :
    (acquiresleep ip).wp (fsRules sb p E fits) Q s := by
  refine wp_command nofun ?_
  simp only [execCmd]
  split_ifs with hl
  · exact h hl
  · exact hE hl

theorem releasesleep_spec
    (h : Q () (s.setInode ip { s.inode ip with lock := none })) : (releasesleep ip).wp (fsRules sb p E fits) Q s :=
  wp_command nofun h

theorem idup_spec
    (h : Q () (s.setInode ip { s.inode ip with ref := (s.inode ip).ref + 1 })) : (idup ip).wp (fsRules sb p E fits) Q s :=
  wp_command nofun h

theorem unref_spec
    (h : Q () (s.setInode ip { s.inode ip with ref := (s.inode ip).ref - 1 })) : (unref ip).wp (fsRules sb p E fits) Q s :=
  wp_command nofun h

theorem holdingsleep_spec {Q : Bool → FsState → Prop} (h : Q (decide ((s.inode ip).lock = some p)) s) :
    (holdingsleep ip).wp (fsRules sb p E fits) Q s :=
  wp_command nofun h

theorem file_spec {f : FileNo} {Q : File → FsState → Prop} (h : Q (s.files.file f) s) : (file f).wp (fsRules sb p E fits) Q s :=
  wp_command nofun h

theorem argfd_spec {q : Slot} {fd : ℤ} {Q : Option (Fd × FileNo) → FsState → Prop} (h : Q (Files.argfd s.files q fd) s) :
    (argfd q fd).wp (fsRules sb p E fits) Q s :=
  wp_command nofun h

end Commands

/-! ### Blocks that are written -/

/-- Block `b` is written and logged. -/
def FsState.write (s : FsState) (b : ℕ) (d : Block) : FsState :=
  { s with cache := Function.update s.cache b d, logged := s.logged.insert b }

@[simp] theorem FsState.inode_write (b : ℕ) (d : Block) : (s.write b d).inode = s.inode := rfl

@[simp] theorem FsState.logged_write (b : ℕ) (d : Block) : (s.write b d).logged = s.logged.insert b := rfl

@[simp] theorem FsState.cache_write (b : ℕ) (d : Block) : (s.write b d).cache = Function.update s.cache b d := rfl

/-- Read a buffer, change it, log it and release it. -/
theorem update_spec {b : ℕ} {d : Block} {Q : Unit → FsState → Prop} (hE : ∀ e, E e) (hfit : fits (s.logged.insert b))
    (h : Q () (s.write b d)) :
    (do setData b d; logWrite b; brelse b : Code Unit).wp (fsRules sb p E fits) Q { s with held := b :: s.held } := by
  rw [wp_bind]
  refine setData_spec ?_
  rw [wp_bind]
  refine logWrite_spec hE hfit ?_
  exact brelse_spec rfl h

theorem bzero_spec {b : ℕ} {Q : Unit → FsState → Prop} (hE : ∀ e, E e) (hfit : fits (s.logged.insert b))
    (h : Q () (s.write b fun _ => 0)) : (bzero b).wp (fsRules sb p E fits) Q s := by
  rw [bzero, wp_bind]
  refine bread_spec (fun _ => hE _) fun _ => ?_
  exact update_spec hE hfit h

theorem iupdate_spec {ip : InodeNo} {Q : Unit → FsState → Prop} (hE : ∀ e, E e)
    (hfit : fits (s.logged.insert (sb.iblock (s.inode ip).inum)))
    (h : Q () (s.write (sb.iblock (s.inode ip).inum)
      (setDinode (s.inode ip).d ((s.inode ip).inum % IPB) (s.cache (sb.iblock (s.inode ip).inum))))) :
    (iupdate sb ip).wp (fsRules sb p E fits) Q s := by
  rw [iupdate, wp_bind]
  refine ident_spec ?_
  rw [wp_bind]
  refine bread_spec (fun _ => hE _) fun _ => ?_
  rw [wp_bind]
  refine data_spec ?_
  rw [wp_bind]
  refine fields_spec ?_
  exact update_spec hE hfit h

end Xv6Shmem.Fs
