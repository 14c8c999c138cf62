import Xv6Shmem.Disk.View

/-!
# Operations are atomic across crashes

The operations between two commits are a group. What they log is committed at once, when the
header that names it is written; before that a crash undoes all of it, and after that none.

The history of a run is kept beside it: the operations are numbered as they begin, each
`log_write` is recorded with its operation, the block and the data, and the group is closed
when its header is written, or, if nothing was logged, when the commit is over. A crash loses
the group that is open.

## What is proved

* `Recorded.run` — a step keeps the history and the disk together.
* `crash_atomicity` — after a crash at any point and recovery, with crashes in it, the disk is
  what the groups with a header make of it, and of each operation they have all or nothing.
-/

namespace Xv6Shmem.Disk

open Function Kernel Prog LTS

/-- A `log_write`. -/
structure Update where
  /-- The operation. -/
  op : ℕ
  /-- The block. -/
  block : ℕ
  /-- What it was then. -/
  data : Block

/-- The operations between two commits. -/
structure Group where
  ops : List ℕ
  updates : List Update

/-- What the updates make of a disk. -/
def applyUpdates (us : List Update) (disk : ℕ → Block) : ℕ → Block :=
  us.foldl (fun disk u => update disk u.block u.data) disk

/-- What the groups make of a disk. -/
def contents (disk : ℕ → Block) (gs : List Group) : ℕ → Block := gs.foldl (fun disk g => applyUpdates g.updates disk) disk

theorem applyUpdates_append (us : List Update) (u : Update) (disk : ℕ → Block) :
    applyUpdates (us ++ [u]) disk = update (applyUpdates us disk) u.block u.data := by
  simp [applyUpdates]

theorem contents_append (disk : ℕ → Block) (gs : List Group) (g : Group) :
    contents disk (gs ++ [g]) = applyUpdates g.updates (contents disk gs) := by
  simp [contents]

/-- The updates of one operation. -/
def updatesOf (i : ℕ) (us : List Update) : List Update := us.filter fun u => u.op = i

/-- The history of a run. -/
structure History where
  /-- The groups that were committed. -/
  groups : List Group
  /-- The group that is open. -/
  cur : Group
  /-- The operation that a process is in. -/
  running : Slot → Option ℕ
  /-- The number of operations so far. -/
  next : ℕ
  /-- All updates. -/
  updates : List Update

namespace History

/-- At the start. -/
def start : History := ⟨[], ⟨[], []⟩, fun _ => none, 0, []⟩

/-- The group is closed. -/
def close (h : History) : History := { h with groups := h.groups ++ [h.cur], cur := ⟨[], []⟩ }

/-- One more update. -/
def log (h : History) (u : Update) : History :=
  { h with cur := { h.cur with updates := h.cur.updates ++ [u] }, updates := h.updates ++ [u] }

/-- One more operation. -/
def begin (h : History) (a : Slot) : History :=
  { h with
    cur := { h.cur with ops := h.cur.ops ++ [h.next] }
    running := update h.running a (some h.next)
    next := h.next + 1 }

/-- What a command of process `a` adds. -/
def command (L : LogArea) (s : Store) (a : Slot) (h : History) : Cmd → History
  | .beginOp => h.begin a
  | .logWrite k =>
    match h.running a, (s.buf k).block with
    | some i, some b => h.log ⟨i, b, (s.buf k).data⟩
    | _, _ => h
  | .endOp => { h with running := update h.running a none }
  | .writeDisk k => if (s.buf k).block = some L.start ∧ header (s.buf k).data ≠ [] then h.close else h
  | .endCommit => if h.cur.ops = [] then h else h.close
  | _ => h

/-- What a step adds. -/
def record (L : LogArea) (s : DiskState) (act : Act) (h : History) : History :=
  match act with
  | .run a =>
    match s.code a with
    | .op c _ => h.command L s.store a c
    | .ret _ => h
  | .begin _ _ => h
  | .crash => { h with cur := ⟨[], []⟩, running := fun _ => none }

/-- The groups, with the open one. -/
def allGroups (h : History) : List Group := h.groups ++ [h.cur]

/-- The operations in a history have different numbers, and the updates of each are in its group. -/
structure Ok (h : History) : Prop where
  lt : ∀ g ∈ h.allGroups, ∀ i ∈ g.ops, i < h.next
  nodup : (h.allGroups.flatMap Group.ops).Nodup
  running : ∀ a i, h.running a = some i → i ∈ h.cur.ops
  op : ∀ g ∈ h.allGroups, ∀ u ∈ g.updates, u.op ∈ g.ops
  all : ∀ g ∈ h.allGroups, ∀ i ∈ g.ops, updatesOf i g.updates = updatesOf i h.updates
  old : ∀ u ∈ h.updates, u.op < h.next

variable {h : History} {a : Slot} {base : ℕ → Block}

theorem mem_allGroups {g : Group} : g ∈ h.allGroups ↔ g ∈ h.groups ∨ g = h.cur := by simp [allGroups]

theorem cur_mem_allGroups : h.cur ∈ h.allGroups := mem_allGroups.mpr (.inr rfl)

theorem ok_start : start.Ok where
  lt g hg i hi := by
    simp only [start, allGroups, List.nil_append, List.mem_singleton] at hg
    rw [hg] at hi
    cases hi
  nodup := by simp [start, allGroups]
  running a i hi := by cases hi
  op g hg u hu := by
    simp only [start, allGroups, List.nil_append, List.mem_singleton] at hg
    rw [hg] at hu
    cases hu
  all g hg i hi := by
    simp only [start, allGroups, List.nil_append, List.mem_singleton] at hg
    rw [hg] at hi
    cases hi
  old u hu := by cases hu

/-- No operation is open, and there are no new groups. -/
theorem Ok.of_groups {h' : History} (hh : h.Ok) (hgroups : h'.groups ⊆ h.allGroups) (hcur : h'.cur = ⟨[], []⟩)
    (hnext : h'.next = h.next) (hup : h'.updates = h.updates) (hrun : ∀ a, h'.running a = none)
    (hnodup : (h'.groups.flatMap Group.ops).Nodup) : h'.Ok := by
  have hmem : ∀ g ∈ h'.allGroups, g ∈ h.allGroups ∨ g = ⟨[], []⟩ := fun g hg =>
    (mem_allGroups.mp hg).imp (@hgroups g) (·.trans hcur)
  refine ⟨fun g hg i hi => ?_, by simpa [allGroups, hcur] using hnodup, fun a i hi => ?_, fun g hg u hu => ?_,
    fun g hg i hi => ?_, by simpa [hup, hnext] using hh.old⟩
  · rcases hmem g hg with hg | rfl
    · exact hnext ▸ hh.lt g hg i hi
    · cases hi
  · rw [hrun a] at hi
    cases hi
  · rcases hmem g hg with hg | rfl
    · exact hh.op g hg u hu
    · cases hu
  · rcases hmem g hg with hg | rfl
    · exact hup ▸ hh.all g hg i hi
    · cases hi

theorem Ok.drop (hh : h.Ok) : { h with cur := ⟨[], []⟩, running := fun _ => none : History }.Ok := by
  refine hh.of_groups (fun g hg => mem_allGroups.mpr (.inl hg)) rfl rfl rfl (fun _ => rfl) ?_
  have hnd := hh.nodup
  rw [allGroups, List.flatMap_append] at hnd
  exact hnd.of_append_left

theorem Ok.close (hh : h.Ok) (hr : ∀ a, h.running a = none) : h.close.Ok :=
  hh.of_groups (fun _ => id) rfl rfl rfl hr hh.nodup

theorem Ok.begin (hh : h.Ok) (a : Slot) : (h.begin a).Ok := by
  have hnew : updatesOf h.next h.updates = [] := by
    refine List.filter_eq_nil_iff.mpr fun u hu => ?_
    have := hh.old u hu
    simp only [decide_eq_true_eq]
    omega
  have hnone : updatesOf h.next h.cur.updates = [] := by
    refine List.filter_eq_nil_iff.mpr fun u hu => ?_
    have := hh.lt _ cur_mem_allGroups _ (hh.op _ cur_mem_allGroups u hu)
    simp only [decide_eq_true_eq]
    omega
  refine ⟨fun g hg i hi => ?_, ?_, fun b i hi => ?_, fun g hg u hu => ?_, fun g hg i hi => ?_, fun u hu => ?_⟩
  · rcases mem_allGroups.mp hg with hg | rfl
    · exact Nat.lt_succ_of_lt (hh.lt g (mem_allGroups.mpr (.inl hg)) i hi)
    · rcases List.mem_append.mp hi with hi | hi
      · exact Nat.lt_succ_of_lt (hh.lt _ cur_mem_allGroups i hi)
      · rw [List.mem_singleton.mp hi]
        exact Nat.lt_succ_self _
  · have heq : (h.begin a).allGroups.flatMap Group.ops = h.allGroups.flatMap Group.ops ++ [h.next] := by
      simp [allGroups, History.begin]
    rw [heq, List.nodup_append_comm]
    refine List.nodup_cons.mpr ⟨fun hn => ?_, hh.nodup⟩
    obtain ⟨g, hg, hi⟩ := List.mem_flatMap.mp hn
    exact Nat.lt_irrefl _ (hh.lt g hg _ hi)
  · change update h.running a (some h.next) b = some i at hi
    by_cases hb : b = a
    · rw [hb, update_self, Option.some.injEq] at hi
      exact List.mem_append_right _ (List.mem_singleton.mpr hi.symm)
    · rw [update_of_ne hb] at hi
      exact List.mem_append_left _ (hh.running b i hi)
  · rcases mem_allGroups.mp hg with hg | rfl
    · exact hh.op g (mem_allGroups.mpr (.inl hg)) u hu
    · exact List.mem_append_left _ (hh.op _ cur_mem_allGroups u hu)
  · rcases mem_allGroups.mp hg with hg | rfl
    · exact hh.all g (mem_allGroups.mpr (.inl hg)) i hi
    · rcases List.mem_append.mp hi with hi | hi
      · exact hh.all _ cur_mem_allGroups i hi
      · rw [List.mem_singleton.mp hi]
        exact hnone.trans hnew.symm
  · exact Nat.lt_succ_of_lt (hh.old u hu)

theorem Ok.log {i : ℕ} (hh : h.Ok) (hi : h.running a = some i) (b : ℕ) (d : Block) : (h.log ⟨i, b, d⟩).Ok := by
  have hcur := hh.running a i hi
  have hother : ∀ g ∈ h.groups, i ∉ g.ops := by
    intro g hg hgi
    have hnd := hh.nodup
    simp only [allGroups, List.flatMap_append, List.flatMap_singleton] at hnd
    exact (List.nodup_append.mp hnd).2.2 i (List.mem_flatMap.mpr ⟨g, hg, hgi⟩) i hcur rfl
  refine ⟨fun g hg x hx => ?_, ?_, hh.running, fun g hg u hu => ?_, fun g hg x hx => ?_, fun u hu => ?_⟩
  · rcases mem_allGroups.mp hg with hg | rfl
    · exact hh.lt g (mem_allGroups.mpr (.inl hg)) x hx
    · exact hh.lt _ cur_mem_allGroups x hx
  · have := hh.nodup
    simpa [allGroups, History.log] using this
  · rcases mem_allGroups.mp hg with hg | rfl
    · exact hh.op g (mem_allGroups.mpr (.inl hg)) u hu
    · rcases List.mem_append.mp hu with hu | hu
      · exact hh.op _ cur_mem_allGroups u hu
      · rw [List.mem_singleton.mp hu]
        exact hcur
  · change updatesOf x g.updates = updatesOf x (h.updates ++ [⟨i, b, d⟩])
    rcases mem_allGroups.mp hg with hg | rfl
    · have hne : ¬ i = x := by
        rintro rfl
        exact hother g hg hx
      rw [hh.all g (mem_allGroups.mpr (.inl hg)) x hx]
      simp [updatesOf, hne]
    · have := hh.all _ cur_mem_allGroups x hx
      simp only [updatesOf] at this
      simp [updatesOf, History.log, this]
  · rcases List.mem_append.mp hu with hu | hu
    · exact hh.old u hu
    · rw [List.mem_singleton.mp hu]
      exact hh.lt _ cur_mem_allGroups i hcur

theorem Ok.stop (hh : h.Ok) (a : Slot) : { h with running := update h.running a none : History }.Ok := by
  refine { hh with running := fun b i hi => ?_ }
  change update h.running a none b = some i at hi
  by_cases hb : b = a
  · rw [hb, update_self] at hi
    cases hi
  · rw [update_of_ne hb] at hi
    exact hh.running b i hi

/-- What an operation sees, with the open group. -/
def seen (base : ℕ → Block) (h : History) : View := fun b => some (applyUpdates h.cur.updates (contents base h.groups) b)

/-- What is left after a crash. -/
def saved (base : ℕ → Block) (h : History) : View := fun b => some (contents base h.groups b)

theorem seen_close : h.close.seen base = h.seen base := by
  funext b
  simp [seen, close, contents_append, applyUpdates]

theorem saved_close : h.close.saved base = h.seen base := by
  funext b
  simp [seen, saved, close, contents_append]

theorem seen_log {u : Update} :
    (h.log u).seen base = update (h.seen base) u.block (some u.data) := by
  funext b
  by_cases hb : b = u.block <;> simp [seen, History.log, applyUpdates_append, hb]

/-- When no operation was begun, nothing was logged. -/
theorem Ok.seen_eq_saved (hh : h.Ok) (hc : h.cur.ops = []) : h.seen base = h.saved base := by
  have hnil : h.cur.updates = [] := by
    refine List.eq_nil_iff_forall_not_mem.mpr fun u hu => ?_
    have := hh.op _ cur_mem_allGroups u hu
    rw [hc] at this
    cases this
  funext b
  simp [seen, saved, hnil, applyUpdates]

end History

/-- The history fits the state. -/
structure Recorded (L : LogArea) (base : ℕ → Block) (s : Store) (G : Slot → Ctx) (stale : BufNo → Prop) (j : Job)
    (h : History) : Prop where
  ok : h.Ok
  running : ∀ a, (h.running a).isSome = (G a).inOp
  views : Views L s G stale j (h.seen base) (h.saved base)

section Runs

variable {L : LogArea} {base : ℕ → Block} {s t : DiskState} {G : Slot → Ctx} {stale : BufNo → Prop} {w : Option Slot}
  {j : Job} {act : Act} {h : History} {a : Slot}

/-- While a process commits or recovers no operation is under way. -/
theorem Recorded.quiet {st : Store} (hh : Recorded L base st G stale j h) (hs : Sound L st G stale w j)
    (hj : (G a).job ≠ .none) (b : Slot) : h.running b = none := by
  obtain ⟨rfl, -⟩ := hs.ops.worker rfl hj
  have hq := hs.ops.quiet (by simp) b
  rw [← hh.running b, Option.isSome_eq_false_iff, Option.isNone_iff_eq_none] at hq
  exact hq

/-- **A command** is recorded. -/
theorem Recorded.command {c : Cmd} {r : c.Res} {st st' : Store} {Q : c.Res → Ctx → Prop} {g : Ctx} {stale' : BufNo → Prop}
    {w' : Option Slot} {j' : Job} {cap : Option ℕ} (hh : Recorded L base st G stale j h) (hs : Sound L st G stale w j)
    (hq : rules L true cap c Q (G a)) (he : st.exec L a c = some (r, st')) (hn : (G a).Next L c r g)
    (ha : After L true cap c st G stale w a g st' stale' w' j') :
    Recorded L base st' (update G a g) stale' j' (h.command L st a c) := by
  have hv := hh.views.exec hs hq he hn ha
  -- the processes that are in operations, when this one is as it was or the other way round
  have hrun : ∀ (x : Option ℕ), x.isSome = g.inOp → ∀ b, (update h.running a x b).isSome =
      (update G a g b).inOp := by
    intro x hx b
    by_cases hb : b = a
    · rw [hb, update_self, update_self, hx]
    · rw [update_of_ne hb, update_of_ne hb, hh.running b]
  have hkeep : g.inOp = (G a).inOp → ∀ b, (h.running b).isSome = (update G a g b).inOp := by
    intro hi b
    have := hrun (h.running a) (by rw [hh.running a, hi]) b
    rwa [update_eq_self] at this
  cases c with
  | beginOp =>
    cases hn
    exact ⟨hh.ok.begin a, hrun _ rfl, hv⟩
  | endOp =>
    refine ⟨hh.ok.stop a, hrun _ ?_, hv⟩
    rcases hn with rfl | ⟨l, rfl⟩ <;> rfl
  | logWrite k =>
    obtain ⟨o, ho, hin, -⟩ := hq
    obtain ⟨o', -, rfl⟩ := hn
    have hi := hh.running a
    rw [hin, Option.isSome_iff_exists] at hi
    obtain ⟨i, hi⟩ := hi
    have hb := (hs.threads.own a k o ho).block
    have hcmd : h.command L st a (.logWrite k) = h.log ⟨i, o.block, (st.buf k).data⟩ := by
      simp [History.command, hi, hb]
    rw [hcmd]
    refine ⟨hh.ok.log hi _ _, hkeep rfl, ?_⟩
    rw [History.seen_log]
    have hcur : curAfter st (G a) (h.seen base) (.logWrite k) = update (h.seen base) o.block (some (st.buf k).data) := by
      simp [curAfter, hb]
    rw [hcur] at hv
    exact hv
  | writeDisk k =>
    obtain ⟨o, d, j0, ho, hd, hm, rfl⟩ := hn
    have hj : (G a).job ≠ .none := by
      cases hm with
      | log hj => simp [hj]
      | head hj => simp [hj]
      | install hj => simp [hj]
      | clear hj => simp [hj]
    by_cases hc : (st.buf k).block = some L.start ∧ header (st.buf k).data ≠ []
    · rw [durAfter, if_pos hc] at hv
      rw [History.command, if_pos hc]
      refine ⟨hh.ok.close (hh.quiet hs hj), hkeep rfl, ?_⟩
      rw [History.seen_close, History.saved_close]
      exact hv
    · rw [durAfter, if_neg hc] at hv
      rw [History.command, if_neg hc]
      exact ⟨hh.ok, hkeep rfl, hv⟩
  | endCommit =>
    obtain ⟨hj, rfl⟩ := hn
    have hne : (G a).job ≠ .none := by
      rcases hj with hj | hj <;> simp [hj]
    by_cases hc : h.cur.ops = []
    · rw [History.command, if_pos hc]
      refine ⟨hh.ok, hkeep rfl, ?_⟩
      rw [← hh.ok.seen_eq_saved hc]
      exact hv
    · rw [History.command, if_neg hc]
      refine ⟨hh.ok.close (hh.quiet hs hne), hkeep rfl, ?_⟩
      rw [History.seen_close, History.saved_close]
      exact hv
  | releasesleep k =>
    obtain ⟨o, ho, -, hd, -⟩ := hq
    obtain ⟨o', -, -, rfl⟩ := hn
    refine ⟨hh.ok, hkeep rfl, ?_⟩
    have hcur : curAfter st (G a) (h.seen base) (.releasesleep k) = h.seen base := by
      simp [curAfter, ho, hd (.inr rfl)]
    rw [hcur] at hv
    exact hv
  | bget b =>
    cases hn
    exact ⟨hh.ok, hkeep rfl, hv⟩
  | unref k =>
    cases hn
    exact ⟨hh.ok, hkeep rfl, hv⟩
  | lh =>
    cases hn
    exact ⟨hh.ok, hkeep rfl, hv⟩
  | installing b =>
    cases hn
    exact ⟨hh.ok, hkeep rfl, hv⟩
  | acquiresleep k =>
    obtain ⟨b, -, rfl⟩ := hn
    exact ⟨hh.ok, hkeep rfl, hv⟩
  | valid k =>
    obtain ⟨o, -, rfl⟩ := hn
    exact ⟨hh.ok, hkeep rfl, hv⟩
  | readDisk k =>
    obtain ⟨o, -, -, rfl⟩ := hn
    exact ⟨hh.ok, hkeep rfl, hv⟩
  | data k =>
    obtain ⟨o, -, rfl⟩ := hn
    exact ⟨hh.ok, hkeep rfl, hv⟩
  | setData k d =>
    obtain ⟨o, -, rfl⟩ := hn
    exact ⟨hh.ok, hkeep rfl, hv⟩
  | bunpin k =>
    obtain ⟨l, n, u, -, rfl⟩ := hn
    exact ⟨hh.ok, hkeep rfl, hv⟩
  | setLh l =>
    rcases hn with ⟨-, rfl⟩ | ⟨l0, u, r, -, -, rfl⟩ <;> exact ⟨hh.ok, hkeep rfl, hv⟩
  | ready =>
    obtain ⟨-, rfl⟩ := hn
    exact ⟨hh.ok, hkeep rfl, hv⟩

/-- **A step** is recorded, if it gives back no buffer that was changed and not logged. -/
theorem Recorded.step (hh : Recorded L base s.store G stale j h) (hs : DiskSound L true none s G stale w j)
    (hstep : s.step L act = some t) (hrel : ReleasesLogged s act) :
    ∃ G' stale' w' j', DiskSound L true none t G' stale' w' j' ∧ Recorded L base t.store G' stale' j' (h.record L s act) := by
  obtain ⟨a, c, f, r, st, rfl, hcode, he, rfl⟩ | ⟨a, call, c, rfl, hcode, hready, hok, rfl⟩ | ⟨rfl, rfl⟩ := step_cases hstep
  · obtain ⟨g, stale', w', j', hn, ha, h'⟩ := hs.run hcode he
    have hwp := hs.code a
    rw [hcode, wp_op] at hwp
    refine ⟨_, stale', w', j', h', ?_⟩
    rw [show h.record L s (.run a) = h.command L s.store a c by simp [History.record, hcode]]
    exact hh.command hs.sound hwp he hn ha
  · refine ⟨G, stale, w, j, hs.call hcode hready hok (fun _ => hrel) fun n hn => ?_, hh⟩
    cases hn
  · refine ⟨_, _, _, _, diskSound_boot hs.sound.headerOk, hh.ok.drop, fun b => ?_, hh.views.crash⟩
    unfold Ctx.atBoot
    split <;> rfl

/-- The history of a run. -/
def history (L : LogArea) (tr : List (DiskState × Act)) : History :=
  ghostAfter (fun s act h => h.record L s act) .start tr

/-- **A run** is recorded. -/
theorem recorded_of_run {disk : ℕ → Block} {tr : List (DiskState × Act)} (hd : HeaderOk L disk)
    (hr : ((diskMachine L).restrict ReleasesLogged).Run (.boot L disk) tr s) :
    ∃ G stale w j, DiskSound L true none s G stale w j ∧
      Recorded L (recoverDisk L disk) s.store G stale j (history L tr) := by
  induction hr with
  | nil =>
    refine ⟨_, _, _, _, diskSound_boot hd, History.ok_start, fun b => ?_, ?_⟩
    · unfold Ctx.atBoot
      split <;> rfl
    · refine ⟨fun hr => ?_, fun b d _ _ hb => ?_, fun k b hk => hk.elim, fun b d _ hb => ?_⟩
      · cases hr
      · exact Option.some.inj hb
      · exact Option.some.inj hb
  | @snoc t u tr act hr hstep ih =>
    obtain ⟨G, stale, w, j, hs, hh⟩ := ih
    rw [history, ghostAfter, List.foldl_append]
    exact hh.step hs hstep.2 hstep.1

end Runs

/-- **Crash atomicity**. In any run of operations, of which each logs what it changes, let the machine crash. However
recovery goes, with crashes in it, the disk is the same when it is over; and it gets there when it is left alone. The
blocks outside the log are then what the groups make of them whose header was written before the crash, and of each
operation these have all that it logged or nothing. -/
theorem crash_atomicity {L : LogArea} {disk : ℕ → Block} {tr : List (DiskState × Act)} {s : DiskState} (hd : HeaderOk L disk)
    (hr : ((diskMachine L).restrict ReleasesLogged).Run (.boot L disk) tr s) :
    (∀ tr' t, (diskMachine L).Run (.boot L s.store.disk) tr' t → (∀ x ∈ tr', x.1.store.ready = false) →
      (t.store.ready = true → t.store.disk = recoverDisk L s.store.disk) ∧
      (t.store.ready = false → ∃ a tr₂ u, (diskMachine L).Run t tr₂ u ∧ (∀ x ∈ tr₂, x.2 = .run a ∧ x.1.store.ready = false) ∧
        u.store.ready = true)) ∧
    (∀ b, L.Home b → recoverDisk L s.store.disk b = contents (recoverDisk L disk) (history L tr).groups b) ∧
    ∀ i, (∃ g ∈ (history L tr).groups, i ∈ g.ops ∧ updatesOf i g.updates = updatesOf i (history L tr).updates) ∨
      ∀ g ∈ (history L tr).groups, updatesOf i g.updates = [] := by
  obtain ⟨G, stale, w, j, hs, hh⟩ := recorded_of_run hd hr
  have hhead := hs.sound.headerOk
  refine ⟨fun tr' t hrun hboot => ⟨?_, fun hnot => ?_⟩, fun b hb => hh.views.dur b _ hb rfl, fun i => ?_⟩
  · exact (recovering_run hhead hrun hboot).2
  · obtain ⟨G', stale', w', j', ht⟩ := sound_of_reachable (Run.reachable (.start ⟨_, hhead, rfl⟩) hrun)
    obtain ⟨a, rfl⟩ := Option.ne_none_iff_exists'.mp (ht.sound.ops.booting hnot).1
    exact ⟨a, ht.recovers hnot⟩
  · by_cases hi : ∃ g ∈ (history L tr).groups, i ∈ g.ops
    · obtain ⟨g, hg, hi⟩ := hi
      exact .inl ⟨g, hg, hi, hh.ok.all g (History.mem_allGroups.mpr (.inl hg)) i hi⟩
    · refine .inr fun g hg => List.filter_eq_nil_iff.mpr fun u hu hop => hi ⟨g, hg, ?_⟩
      rw [decide_eq_true_eq] at hop
      exact hop ▸ hh.ok.op g (History.mem_allGroups.mpr (.inl hg)) u hu

/-! ### A run -/

/-- The step gives back no buffer that was changed and not logged, as a test. -/
def releasesLogged (s : DiskState) : Act → Bool
  | .begin a (.brelse k) =>
    match s.code a with
    | .ret c => !c.dirty k
    | .op _ _ => true
  | _ => true

theorem releasesLogged_of {s : DiskState} {act : Act} (h : releasesLogged s act = true) : ReleasesLogged s act := by
  rintro a k c rfl hcode
  simpa [releasesLogged, hcode] using h

/-- A block of sevens. -/
def sevens : Block := fun _ => 7

/-- The first process recovers, changes block `40` in an operation, and commits up to the header; then the machine
crashes. -/
def commitAndCrash : List Act :=
  List.replicate 22 (.run 0) ++ [.begin 0 .beginOp, .run 0, .begin 0 (.bread 40)] ++ List.replicate 4 (.run 0) ++
    [.begin 0 (.modify 1 sevens), .run 0, .begin 0 (.logWrite 1), .run 0, .begin 0 (.brelse 1), .run 0, .run 0,
     .begin 0 .endOp] ++ List.replicate 24 (.run 0) ++ [.crash]

theorem crash_atomicity_of_commitAndCrash :
    ∃ tr s, ((diskMachine mkfsLog).restrict ReleasesLogged).Run (.boot mkfsLog blankDisk) tr s ∧
      (history mkfsLog tr).groups.map Group.ops = [[0]] ∧ s.store.disk 40 0 = 0 ∧ recoverDisk mkfsLog s.store.disk 40 0 = 7 ∧
      ∃ g ∈ (history mkfsLog tr).groups, 0 ∈ g.ops ∧ updatesOf 0 g.updates = updatesOf 0 (history mkfsLog tr).updates := by
  have hcheck : (traceOf (DiskState.step mkfsLog) releasesLogged (.boot mkfsLog blankDisk) commitAndCrash).map (fun x =>
      decide ((history mkfsLog x.1).groups.map Group.ops = [[0]]) && decide (x.2.store.disk 40 0 = 0) &&
        decide (contents (recoverDisk mkfsLog blankDisk) (history mkfsLog x.1).groups 40 0 = 7) &&
        (history mkfsLog x.1).groups.all fun g => !(updatesOf 0 g.updates).isEmpty) = some true := by decide +kernel
  obtain ⟨⟨tr, s⟩, hs, hf⟩ := Option.map_eq_some_iff.mp hcheck
  simp only [Bool.and_eq_true, decide_eq_true_eq, List.all_eq_true, Bool.not_eq_true'] at hf
  obtain ⟨⟨⟨hops, hdisk⟩, hseven⟩, hall⟩ := hf
  have hrun := run_of_traceOf (M := (diskMachine mkfsLog).restrict ReleasesLogged)
    (fun _ _ _ hok hstep => ⟨releasesLogged_of hok, hstep⟩) hs
  obtain ⟨-, hhome, hop⟩ := crash_atomicity headerOk_blankDisk hrun
  refine ⟨tr, s, hrun, hops, hdisk, ?_, (hop 0).resolve_right fun hno => ?_⟩
  · rw [hhome 40 (by decide)]
    exact hseven
  · -- there is a group, and it has an update of the operation
    cases hg : (history mkfsLog tr).groups with
    | nil =>
      rw [hg] at hops
      cases hops
    | cons g gs =>
      have hmem : g ∈ (history mkfsLog tr).groups := by simp [hg]
      have := hall g hmem
      rw [hno g hmem] at this
      cases this

end Xv6Shmem.Disk
