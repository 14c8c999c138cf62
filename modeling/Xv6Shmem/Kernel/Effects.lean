import Xv6Shmem.Kernel.Shmem

/-!
# What a call can do

Every property of the shared pages over whole runs rests on what one call can do to
one page and to the process groups. That is said here once: `proc_step` lists what a call can
do to the process table, `page_step` what it can do to the entry of a page and to the set of its
holders, and `group_step` what it can do to the set of processes that have not exited and to
their `top_pid`. The functions are not unfolded again after this module.
-/

namespace Xv6Shmem.Kernel

open Function

/-! ### Slots found by the scans -/

variable {s t : State} {np p p' : Slot} {q : Proc} {i : PageNo} {op : Op} {st : PageState} {index : Int32} {e : Panic}
  {r : Option Int32}

theorem findUnused_state (h : findUnused s = some np) :
    (s.proc np).state = .unused := by
  simpa using List.find?_some h

theorem findUnused_ne (h : findUnused s = some np) (hp : (s.proc p).live) :
    p ≠ np := by
  rintro rfl
  simp [Proc.live, findUnused_state h] at hp

theorem findZombie_state {pp : Slot} (h : findZombie p s = some pp) :
    (s.proc pp).parent = some p ∧ (s.proc pp).state = .zombie := by
  simpa using List.find?_some h

/-! ### The loop of `fork` -/

/-- The child after the loop has run over the pages in `l`. -/
def forkedProc (q c : Proc) (l : List PageNo) : Proc :=
  { c with shmemAccess := fun i => if i ∈ l then q.shmemAccess i else c.shmemAccess i }

/-- A page's entry after the loop has run over the pages in `l`. -/
def forkedShmem (q : Proc) (l : List PageNo) (i : PageNo) (g : Shmem) : Shmem :=
  if i ∈ l ∧ q.shmemAccess i then { g with numberofusers := g.numberofusers + 1 } else g

theorem foldl_forkPage (hne : p ≠ np) :
    ∀ (l : List PageNo) (s : State), l.Nodup →
      l.foldl (forkPage p np) s =
        { s with
          proc := update s.proc np (forkedProc (s.proc p) (s.proc np) l)
          shmem := fun i => forkedShmem (s.proc p) l i (s.shmem i) }
  | [], s, _ => by simp [forkedProc, forkedShmem]
  | j :: l, s, hl => by
    obtain ⟨hj, hl⟩ := List.nodup_cons.mp hl
    have hproc : (forkPage p np s j).proc = update s.proc np
        { s.proc np with shmemAccess := update (s.proc np).shmemAccess j ((s.proc p).shmemAccess j) } := by
      unfold forkPage
      simp only [setProc_proc, update_of_ne hne]
      split_ifs <;> simp
    have hshmem : (forkPage p np s j).shmem =
        update s.shmem j (forkedShmem (s.proc p) [j] j (s.shmem j)) := by
      unfold forkPage
      simp only [setProc_proc, update_of_ne hne, forkedShmem, List.mem_singleton, true_and]
      split_ifs <;> simp
    have hrest : (forkPage p np s j).initproc = s.initproc ∧ (forkPage p np s j).nextpid = s.nextpid ∧
        (forkPage p np s j).mem = s.mem := by
      unfold forkPage
      simp only [setProc_proc, update_of_ne hne]
      split_ifs <;> simp
    have hp : (forkPage p np s j).proc p = s.proc p := by rw [hproc, update_of_ne hne]
    rw [List.foldl_cons, foldl_forkPage hne l _ hl, hp, hrest.1, hrest.2.1, hrest.2.2, hproc, hshmem]
    congr 1
    · rw [update_idem, update_self]
      congr 1
      simp only [forkedProc, Proc.mk.injEq, true_and, and_true]
      funext i
      by_cases hi : i = j
      · subst hi; simp [hj]
      · simp [hi]
    · funext i
      by_cases hi : i = j
      · subst hi; simp [forkedShmem, hj]
      · simp [forkedShmem, hi]

/-- The child `fork` makes in slot `np`. -/
def forkChild (p np : Slot) (s : State) : Proc :=
  { s.proc np with
    state := .runnable
    pid := s.nextpid
    shmemAccessCount := (List.finRange SHMEM).foldl (fun c _ => c - 1) 0
    shmemAccess := (s.proc p).shmemAccess
    parent := some p
    topPid := (s.proc p).topPid }

/-- What `fork` does when there is a slot and memory. -/
theorem fork_some (h : findUnused s = some np) (hp : (s.proc p).live) :
    (fork true p s).2 =
      { s with
        nextpid := s.nextpid + 1
        proc := update s.proc np (forkChild p np s)
        shmem := fun i => forkedShmem (s.proc p) (List.finRange SHMEM) i (s.shmem i) } := by
  have hne := findUnused_ne h hp
  simp only [fork, h, if_true]
  rw [foldl_forkPage hne _ _ (List.nodup_finRange _)]
  simp only [State.setProc, allocproc, update_of_ne hne, update_self,
    update_idem, forkedProc, List.mem_finRange, if_true]
  rfl

/-! ### The loop of `exit` -/

theorem foldl_exitPage_proc (p : Slot) (l : List PageNo) (s : State) :
    (l.foldl (exitPage p) s).proc = s.proc ∧ (l.foldl (exitPage p) s).initproc = s.initproc ∧
      (l.foldl (exitPage p) s).nextpid = s.nextpid := by
  induction l generalizing s with
  | nil => exact ⟨rfl, rfl, rfl⟩
  | cons j l ih => exact ih (exitPage p s j)

theorem foldl_exitPage_shmem (p : Slot) {l : List PageNo} (hl : l.Nodup) (s : State) (i : PageNo) :
    (l.foldl (exitPage p) s).shmem i =
      if i ∈ l then exitShmem (s.proc p) i (s.shmem i) else s.shmem i := by
  induction l generalizing s with
  | nil => simp
  | cons j l ih =>
    obtain ⟨hj, hl⟩ := List.nodup_cons.mp hl
    rw [List.foldl_cons, ih hl]
    by_cases hi : i = j
    · subst hi
      simp [hj, exitPage]
    · simp [hi, exitPage]

theorem exitUsers_of_access (h : q.shmemAccess i = true) (g : Shmem) :
    exitUsers q i g = g.numberofusers - 1 := by
  rw [exitUsers, if_pos h]

theorem exitUsers_of_no_access (h : q.shmemAccess i = false) (g : Shmem) :
    exitUsers q i g = g.numberofusers := by
  rw [exitUsers, if_neg (by simp [h])]

/-- The entry of a page that has been reset. -/
def Shmem.cleared (g : Shmem) : Shmem := { g with numberofusers := 0, state := .notSet, usingTopPid := -1 }

theorem exitShmem_of_resets {g : Shmem} (h : ExitResets q i g) :
    exitShmem q i g = g.cleared := by
  rw [exitShmem, if_pos h, h.1, Shmem.cleared]

/-- Of the exiting process, the loop reads only its access and its group. -/
theorem exitShmem_congr {q' : Proc} (ha : q.shmemAccess = q'.shmemAccess) (ht : q.topPid = q'.topPid)
    (i : PageNo) (g : Shmem) : exitShmem q i g = exitShmem q' i g := by
  cases q; cases q'
  subst ha ht
  rfl

section Reparent

variable (p q : Slot) (s : State)

@[simp] theorem reparent_shmemAccess : ((reparent p s).proc q).shmemAccess = (s.proc q).shmemAccess := by
  simp only [reparent]; split_ifs <;> rfl

@[simp] theorem reparent_shmemAccessCount : ((reparent p s).proc q).shmemAccessCount = (s.proc q).shmemAccessCount := by
  simp only [reparent]; split_ifs <;> rfl

@[simp] theorem reparent_topPid : ((reparent p s).proc q).topPid = (s.proc q).topPid := by
  simp only [reparent]; split_ifs <;> rfl

@[simp] theorem reparent_state : ((reparent p s).proc q).state = (s.proc q).state := by
  simp only [reparent]; split_ifs <;> rfl

@[simp] theorem reparent_pid : ((reparent p s).proc q).pid = (s.proc q).pid := by
  simp only [reparent]; split_ifs <;> rfl

end Reparent

theorem exit_ok {status : Int32} (h : exit status p s = .ok t) :
    p ≠ s.initproc ∧
      t.proc = update (reparent p s).proc p
        { (reparent p s).proc p with xstate := status, state := .zombie } ∧
      (∀ i, t.shmem i = exitShmem (s.proc p) i (s.shmem i)) ∧
      t.mem = ((List.finRange SHMEM).foldl (exitPage p) (reparent p s)).mem ∧
      t.initproc = s.initproc ∧ t.nextpid = s.nextpid := by
  unfold exit at h
  split_ifs at h with hp
  cases h
  obtain ⟨hproc, hinit, hpid⟩ := foldl_exitPage_proc p (List.finRange SHMEM) (reparent p s)
  refine ⟨hp, ?_, fun i => ?_, rfl, hinit, hpid⟩
  · rw [setProc_proc, hproc]
  · rw [setProc_shmem, foldl_exitPage_shmem p (List.nodup_finRange _), if_pos (List.mem_finRange i)]
    exact exitShmem_congr (reparent_shmemAccess p p s) (reparent_topPid p p s) i _

/-! ### `wait` and `kill` -/

theorem wait_state (copied : Bool) (p : Slot) (s : State) :
    (wait copied p s).2 = s ∨ ∃ pp, findZombie p s = some pp ∧ (wait copied p s).2 = freeproc pp s := by
  unfold wait
  split
  · rename_i pp hz
    split_ifs
    · exact .inr ⟨pp, hz, rfl⟩
    · exact .inl rfl
  · split_ifs <;> exact .inl rfl

/-- `kill` marks one process, and wakes it if it sleeps. -/
theorem kill_state (pid : Int32) (s : State) :
    (kill pid s).2 = s ∨ ∃ p st, (s.proc p).pid = pid ∧
      (st = (s.proc p).state ∨ ((s.proc p).state = .sleeping ∧ st = .runnable)) ∧
      (kill pid s).2 = s.setProc p { s.proc p with killed := true, state := st } := by
  unfold kill
  split
  · rename_i p hfind
    refine .inr ⟨p, ?_⟩
    have hpid : (s.proc p).pid = pid := by simpa using List.find?_some hfind
    dsimp only
    split_ifs with hs
    · exact ⟨.runnable, hpid, .inr ⟨hs, rfl⟩, rfl⟩
    · exact ⟨_, hpid, .inl rfl, rfl⟩
  · exact .inl rfl

/-! ### The shared-memory calls -/

theorem Op.eq_exit_of_isExit (h : op.isExit) : ∃ status, op = .exit status := by
  cases op <;> simp_all [Op.isExit]

/-- A call that may panic and returned: the function it calls returned. -/
theorem map_ok_inv {α β : Type} {f : α → β} {x : Except Panic α} {y : β} (h : x.map f = .ok y) :
    ∃ a, x = .ok a ∧ f a = y := by
  cases x with
  | error e => cases h
  | ok a => exact ⟨a, rfl, by cases h; rfl⟩

theorem claimPage_ok (h : claimPage i p s = .ok t) :
    ((s.shmem i).usingTopPid = -1 ∨ (s.shmem i).usingTopPid = (s.proc p).topPid) ∧
      t = s.setShmem i { s.shmem i with usingTopPid := (s.proc p).topPid } := by
  unfold claimPage at h
  split_ifs at h with h1 h2
  · cases h
    exact ⟨.inl h1, rfl⟩
  · cases h
    rw [not_not] at h2
    refine ⟨.inr h2, ?_⟩
    rw [← h2, State.setShmem]
    simp

theorem shmemSet_ok (h : shmemSet st i p s = .ok t) :
    (s.shmem i).state = .notSet ∧
      ((s.shmem i).usingTopPid = -1 ∨ (s.shmem i).usingTopPid = (s.proc p).topPid) ∧
      t = (s.setProc p
        { s.proc p with
          shmemAccess := update (s.proc p).shmemAccess i true
          shmemAccessCount := (s.proc p).shmemAccessCount + 1 }).setShmem i
        { s.shmem i with
          usingTopPid := (s.proc p).topPid
          numberofusers := (s.shmem i).numberofusers + 1
          state := st } := by
  unfold shmemSet at h
  split_ifs at h with hs
  rw [not_not] at hs
  cases hc : claimPage i p s with
  | error e => rw [hc] at h; cases h
  | ok s1 =>
    rw [hc] at h
    obtain ⟨hu, rfl⟩ := claimPage_ok hc
    cases h
    refine ⟨hs, hu, ?_⟩
    simp [State.setProc, State.setShmem]

theorem shmemSetInitInt_ok {value : Int32} (h : shmemSetInitInt i index value p s = .ok t) :
    (s.shmem i).state = .notSet ∧
      ((s.shmem i).usingTopPid = -1 ∨ (s.shmem i).usingTopPid = (s.proc p).topPid) ∧
      t = { s.setShmem i { s.shmem i with usingTopPid := (s.proc p).topPid } with
        mem := s.mem.storeInt (s.wordAddr i index) value } := by
  unfold shmemSetInitInt at h
  split_ifs at h with hs
  rw [not_not] at hs
  cases hc : claimPage i p s with
  | error e => rw [hc] at h; cases h
  | ok s1 =>
    rw [hc] at h
    obtain ⟨hu, rfl⟩ := claimPage_ok hc
    cases h
    refine ⟨hs, hu, ?_⟩
    simp [State.setShmem, State.wordAddr]

theorem shmemWriteInt_ok {value : Int32} (h : shmemWriteInt i index value p s = .ok t) :
    (s.shmem i).state = .writable ∧ (s.proc p).shmemAccess i = true ∧
      t = { s with mem := s.mem.storeInt (s.wordAddr i index) value } := by
  unfold shmemWriteInt at h
  split_ifs at h with h1 h2
  cases h
  exact ⟨not_not.mp h1, by simpa using h2, rfl⟩

theorem shmemReadInt_ok {v : Int32} (h : shmemReadInt i index p s = .ok v) :
    (s.shmem i).state ≠ .notSet ∧ (s.proc p).shmemAccess i = true ∧
      v = s.mem.loadInt (s.wordAddr i index) := by
  unfold shmemReadInt at h
  split at h
  · cases h
  all_goals
    rename_i hs
    split_ifs at h with ha
    cases h
    exact ⟨by simp [hs], by simpa using ha, rfl⟩

theorem shmemAcquireAccess_ok {b : Bool} (h : shmemAcquireAccess i p s = .ok (b, t)) :
    (b = false ∧ (s.shmem i).state = .notSet ∧ t = s) ∨
      (b = true ∧ (s.shmem i).state ≠ .notSet ∧ (s.proc p).shmemAccess i = false ∧
        (s.shmem i).usingTopPid = (s.proc p).topPid ∧
        t = (s.setProc p
          { s.proc p with shmemAccess := update (s.proc p).shmemAccess i true }).setShmem i
          { s.shmem i with numberofusers := (s.shmem i).numberofusers + 1 }) := by
  unfold shmemAcquireAccess at h
  split_ifs at h with h1 h2 h3
  · cases h
    exact .inl ⟨rfl, h1, rfl⟩
  · cases h
    exact .inr ⟨rfl, h1, by simpa using h2, (not_not.mp h3).symm, rfl⟩

theorem shmemReleaseAccess_ok (h : shmemReleaseAccess i p s = .ok t) :
    (s.shmem i).state ≠ .notSet ∧ (s.shmem i).numberofusers ≠ 0 ∧ ¬ (s.shmem i).numberofusers < 0 ∧
      (s.proc p).shmemAccess i = true ∧
      t.proc = update s.proc p
        { s.proc p with shmemAccess := update (s.proc p).shmemAccess i false } ∧
      t.initproc = s.initproc ∧ t.nextpid = s.nextpid ∧
      ((s.shmem i).numberofusers - 1 = 0 ∧ t.shmem = update s.shmem i (s.shmem i).cleared ∧
          t.mem = s.mem.memset (s.shmem i).phaddr 0 PGSIZE ∨
        (s.shmem i).numberofusers - 1 ≠ 0 ∧
          t.shmem = update s.shmem i
            { s.shmem i with numberofusers := (s.shmem i).numberofusers - 1 } ∧
          t.mem = s.mem) := by
  unfold shmemReleaseAccess at h
  split_ifs at h with h1 h2 h3 h4
  dsimp only at h
  simp only [setShmem_shmem, setProc_shmem, update_self] at h
  split_ifs at h with h5
  · cases h
    refine ⟨h1, h2, h3, h4, rfl, rfl, rfl, .inl ⟨h5, ?_, rfl⟩⟩
    simp [Shmem.cleared, h5]
  · cases h
    exact ⟨h1, h2, h3, h4, rfl, rfl, rfl, .inr ⟨h5, rfl, rfl⟩⟩

theorem getShmemAccess_ok {mapped : Bool} (h : getShmemAccess i mapped p s = .ok t) :
    (s.proc p).shmemAccess i = true ∧
      t = if mapped then
          s.setProc p { s.proc p with shmemAccessCount := (s.proc p).shmemAccessCount + 1 }
        else s := by
  unfold getShmemAccess at h
  split_ifs at h with h1 h2 <;> cases h <;> simp_all

/-- The panics of the calls on the tables. -/
def Panic.ofTables : Panic → Bool
  | .initExiting | .alreadySet | .usedByOther | .pageLock _ | .noAccess | .otherProcess | .alreadyAccess | .notSet
  | .stateInvalid | .usersInvalid => true
  | _ => false

theorem map_error_inv {α β : Type} {f : α → β} {x : Except Panic α} (h : x.map f = .error e) :
    x = .error e := by
  cases x with
  | error e' => cases h; rfl
  | ok a => cases h

theorem claimPage_error (h : claimPage i p s = .error e) :
    e.ofTables = true := by
  unfold claimPage at h
  split_ifs at h
  cases h
  rfl

theorem shmemSet_error (h : shmemSet st i p s = .error e) : e.ofTables = true := by
  unfold shmemSet at h
  split_ifs at h
  · cases h
    rfl
  · cases hc : claimPage i p s with
    | error e' =>
      rw [hc] at h
      cases h
      exact claimPage_error hc
    | ok s1 => rw [hc] at h; cases h

theorem call_error (h : call p s op = .error e) :
    e.ofTables = true := by
  cases op with
  | fork | exec | wait | kill => cases h
  | exit status =>
    have he := map_error_inv h
    unfold exit at he
    split_ifs at he
    cases he
    rfl
  | shmemSetWritable j | shmemSetUnwritable j => exact shmemSet_error (map_error_inv h)
  | shmemSetInitInt j index value =>
    have he := map_error_inv h
    unfold shmemSetInitInt at he
    split_ifs at he
    · cases he
      rfl
    · cases hc : claimPage j p s with
      | error e' =>
        rw [hc] at he
        cases he
        exact claimPage_error hc
      | ok s1 => rw [hc] at he; cases he
  | shmemWriteInt j index value =>
    have he := map_error_inv h
    unfold shmemWriteInt at he
    split_ifs at he <;> cases he <;> rfl
  | shmemReadInt j index =>
    have he := map_error_inv h
    unfold shmemReadInt at he
    split at he
    · cases he
      rfl
    all_goals
      split_ifs at he
      cases he
      rfl
  | shmemAcquireAccess j =>
    have he := map_error_inv h
    unfold shmemAcquireAccess at he
    split_ifs at he <;> cases he <;> rfl
  | shmemReleaseAccess j =>
    have he := map_error_inv h
    unfold shmemReleaseAccess at he
    dsimp only at he
    split_ifs at he <;> cases he <;> rfl
  | shmemAccess j mapped =>
    have he := map_error_inv h
    unfold getShmemAccess at he
    split_ifs at he
    cases he
    rfl

/-! ### What a call can do to the process table -/

/-- How a call on a shared page changes which pages the calling process has access to, and the count of them. -/
inductive AccessStep (q : Proc) : Op → (PageNo → Bool) → Int32 → Prop where
  | setWritable (i : PageNo) : AccessStep q (.shmemSetWritable i) (update q.shmemAccess i true)
      (q.shmemAccessCount + 1)
  | setUnwritable (i : PageNo) : AccessStep q (.shmemSetUnwritable i) (update q.shmemAccess i true)
      (q.shmemAccessCount + 1)
  | acquire (i : PageNo) (ha : q.shmemAccess i = false) :
      AccessStep q (.shmemAcquireAccess i) (update q.shmemAccess i true) q.shmemAccessCount
  | release (i : PageNo) (ha : q.shmemAccess i = true) :
      AccessStep q (.shmemReleaseAccess i) (update q.shmemAccess i false) q.shmemAccessCount
  | map (i : PageNo) : AccessStep q (.shmemAccess i true) q.shmemAccess (q.shmemAccessCount + 1)

/-- A slot that `freeproc` has given back. -/
def Proc.freed (q : Proc) : Proc := { q with pid := 0, parent := none, killed := false, xstate := 0, state := .unused }

/-- What a call `op` of process `p`, going from `s` to `t`, can do to the process table and to the counter of pids. -/
inductive ProcStep (s : State) (p : Slot) (op : Op) (t : State) : Prop where
  /-- Nothing. -/
  | keep (hop : op.isExec = false) (hop' : op.isExit = false) (hf : ∀ mem, op = .fork mem → findUnused s = none)
      (hw : op = .wait true → findZombie p s = none) (hn : t.nextpid = s.nextpid) (h : t.proc = s.proc)
  /-- The access of the calling process changes. -/
  | access (acc : PageNo → Bool) (count : Int32) (ha : AccessStep (s.proc p) op acc count) (hn : t.nextpid = s.nextpid)
      (h : t.proc = update s.proc p { s.proc p with shmemAccess := acc, shmemAccessCount := count })
  /-- `kill` marks slot `q`, and wakes the process in it. -/
  | kill (q : Slot) (st : ProcState) (hop : op = .kill (s.proc q).pid)
      (hst : st = (s.proc q).state ∨ ((s.proc q).state = .sleeping ∧ st = .runnable)) (hn : t.nextpid = s.nextpid)
      (h : t.proc = update s.proc q { s.proc q with killed := true, state := st })
  /-- `exec`: `p` becomes the top of a group. -/
  | exec (argc : Option Int32) (hop : op = .exec argc) (hn : t.nextpid = s.nextpid) (hg : t.shmem = s.shmem)
      (h : t.proc = update s.proc p { s.proc p with topPid := (s.proc p).pid })
  /-- `fork` makes a process. -/
  | fork (np : Slot) (hop : op = .fork true) (hf : findUnused s = some np) (hn : t.nextpid = s.nextpid + 1)
      (h : t.proc = update s.proc np (forkChild p np s))
  /-- `fork` finds no memory, and gives the slot back. -/
  | forkFree (np : Slot) (hop : op = .fork false) (hf : findUnused s = some np) (hn : t.nextpid = s.nextpid + 1)
      (h : t.proc = update s.proc np ((allocproc np s).proc np).freed)
  /-- `exit`: `p` is a zombie, and its children have a new parent. -/
  | exit (status : Int32) (hop : op = .exit status) (hn : t.nextpid = s.nextpid)
      (h : t.proc = update (reparent p s).proc p
        { (reparent p s).proc p with xstate := status, state := .zombie })
  /-- `wait` gives the slot of a zombie back. -/
  | wait (pp : Slot) (hop : op = .wait true) (hz : findZombie p s = some pp) (hn : t.nextpid = s.nextpid)
      (h : t.proc = update s.proc pp (s.proc pp).freed)

section ProcStep

variable {acc : PageNo → Bool} {count : Int32}

theorem AccessStep.isExec (h : AccessStep q op acc count) : op.isExec = false := by
  cases h <;> rfl

theorem AccessStep.isExit (h : AccessStep q op acc count) : op.isExit = false := by
  cases h <;> rfl

/-- Only `shmem_release_access` takes access away. -/
theorem AccessStep.keeps {i : PageNo} (h : AccessStep q op acc count) (hi : q.shmemAccess i = true) :
    acc i = true ∨ op = .shmemReleaseAccess i := by
  cases h with
  | setWritable j | setUnwritable j | acquire j _ =>
    by_cases hij : i = j <;> simp [hij, hi]
  | release j _ =>
    by_cases hij : i = j
    · exact .inr (by rw [hij])
    · exact .inl (by simp [hij, hi])
  | map j => exact .inl hi

theorem ProcStep.same (hn : t.nextpid = s.nextpid) (h : t.proc = s.proc) (hop : op.isExec = false)
    (hop' : op.isExit = false) (hf : ∀ mem, op ≠ .fork mem) (hw : op ≠ .wait true) : ProcStep s p op t :=
  .keep hop hop' (fun mem hm => absurd hm (hf mem)) (fun hm => absurd hm hw) hn h

theorem fork_proc {mem : Bool} (hp : (s.proc p).live) : ProcStep s p (.fork mem) (fork mem p s).2 := by
  cases hf : findUnused s with
  | none =>
    simp only [fork, hf]
    exact .keep rfl rfl (fun _ _ => hf) (by simp) rfl rfl
  | some np =>
    cases mem with
    | false =>
      simp only [fork, hf]
      refine .forkFree np rfl hf rfl ?_
      simp [freeproc, allocproc, Proc.freed]
    | true =>
      rw [fork_some hf hp]
      exact .fork np rfl hf rfl rfl

theorem wait_proc (copied : Bool) (p : Slot) (s : State) : ProcStep s p (.wait copied) (wait copied p s).2 := by
  unfold wait
  split
  · rename_i pp hz
    cases copied with
    | false => exact .keep rfl rfl (by simp) (by simp) rfl rfl
    | true => exact .wait pp rfl hz rfl rfl
  · rename_i hz
    split_ifs <;> exact .keep rfl rfl (by simp) (fun _ => hz) rfl rfl

/-- **What a call can do to the process table**. -/
theorem proc_step (hp : (s.proc p).live) (h : call p s op = .ok (r, t)) : ProcStep s p op t := by
  cases op with
  | fork mem =>
    cases h
    exact fork_proc hp
  | exec argc =>
    cases h
    exact .exec argc rfl rfl rfl rfl
  | exit status =>
    obtain ⟨t', ht, hr⟩ := map_ok_inv h
    cases hr
    obtain ⟨-, hproc, -, -, -, hn⟩ := exit_ok ht
    exact .exit status rfl hn hproc
  | wait copied =>
    have ht : t = (wait copied p s).2 := by rw [Except.ok.inj h]
    rw [ht]
    exact wait_proc copied p s
  | kill pid =>
    cases h
    show ProcStep s p _ (kill pid s).2
    rcases kill_state pid s with hk | ⟨q, st, rfl, hst, hk⟩
    · rw [hk]
      exact .same rfl rfl rfl rfl (by simp) (by simp)
    · rw [hk]
      exact .kill q st rfl hst rfl rfl
  | shmemSetWritable j =>
    obtain ⟨t', ht, hr⟩ := map_ok_inv h
    cases hr
    obtain ⟨-, -, rfl⟩ := shmemSet_ok ht
    exact .access _ _ (.setWritable j) rfl rfl
  | shmemSetUnwritable j =>
    obtain ⟨t', ht, hr⟩ := map_ok_inv h
    cases hr
    obtain ⟨-, -, rfl⟩ := shmemSet_ok ht
    exact .access _ _ (.setUnwritable j) rfl rfl
  | shmemSetInitInt j index value =>
    obtain ⟨t', ht, hr⟩ := map_ok_inv h
    cases hr
    obtain ⟨-, -, rfl⟩ := shmemSetInitInt_ok ht
    exact .same rfl rfl rfl rfl (by simp) (by simp)
  | shmemWriteInt j index value =>
    obtain ⟨t', ht, hr⟩ := map_ok_inv h
    cases hr
    obtain ⟨-, -, rfl⟩ := shmemWriteInt_ok ht
    exact .same rfl rfl rfl rfl (by simp) (by simp)
  | shmemReadInt j index =>
    obtain ⟨v, -, hr⟩ := map_ok_inv h
    cases hr
    exact .same rfl rfl rfl rfl (by simp) (by simp)
  | shmemAcquireAccess j =>
    obtain ⟨⟨b, t'⟩, ht, hr⟩ := map_ok_inv h
    cases hr
    rcases shmemAcquireAccess_ok ht with ⟨-, -, rfl⟩ | ⟨-, -, ha, -, rfl⟩
    · exact .same rfl rfl rfl rfl (by simp) (by simp)
    · exact .access _ _ (.acquire j ha) rfl rfl
  | shmemReleaseAccess j =>
    obtain ⟨t', ht, hr⟩ := map_ok_inv h
    cases hr
    obtain ⟨-, -, -, ha, hproc, -, hn, -⟩ := shmemReleaseAccess_ok ht
    exact .access _ _ (.release j ha) hn hproc
  | shmemAccess j mapped =>
    obtain ⟨t', ht, hr⟩ := map_ok_inv h
    cases hr
    obtain ⟨-, rfl⟩ := getShmemAccess_ok ht
    cases mapped with
    | true => exact .access _ _ (.map j) rfl rfl
    | false => exact .same rfl rfl rfl rfl (by simp) (by simp)

/-- A process that `kill` marks has not exited if and only if it had not. -/
theorem live_of_kill {st : ProcState} (hst : st = q.state ∨ (q.state = .sleeping ∧ st = .runnable)) :
    Proc.live { q with killed := true, state := st } = q.live := by
  rcases hst with rfl | ⟨hs, rfl⟩
  · rfl
  · simp [Proc.live, hs]

end ProcStep

/-! ### What a call can do to a page -/

/-- What a call `op` of process `p`, going from `s` to `t`, can do to page `i`. -/
inductive PageStep (s : State) (p : Slot) (op : Op) (t : State) (i : PageNo) : Prop where
  /-- Its entry and its holders stay. -/
  | keep (hx : op.isExit → s.holds i p = false ∧
        ¬ ((s.shmem i).numberofusers = 0 ∧ (s.shmem i).usingTopPid = (s.proc p).topPid))
      (hg : t.shmem i = s.shmem i) (hh : ∀ q, t.holds i q = s.holds i q)
  /-- `shmem_set_init_int`: the page is taken for the group of `p`, without a holder. -/
  | reserve (hop : op.isExec = false) (hop' : op.isExit = false) (hs : (s.shmem i).state = .notSet)
      (hu : (s.shmem i).usingTopPid = -1 ∨ (s.shmem i).usingTopPid = (s.proc p).topPid)
      (hg : t.shmem i = { s.shmem i with usingTopPid := (s.proc p).topPid })
      (hh : ∀ q, t.holds i q = s.holds i q)
  /-- `shmem_set_writable` and `shmem_set_unwritable`: `p` sets the page and holds it. -/
  | set (hop : op.isExec = false) (hop' : op.isExit = false) (st : PageState) (hst : st ≠ .notSet)
      (hs : (s.shmem i).state = .notSet)
      (hu : (s.shmem i).usingTopPid = -1 ∨ (s.shmem i).usingTopPid = (s.proc p).topPid)
      (hg : t.shmem i =
        { s.shmem i with
          usingTopPid := (s.proc p).topPid
          numberofusers := (s.shmem i).numberofusers + 1
          state := st })
      (hp : t.holds i p = true) (hh : ∀ q, q ≠ p → t.holds i q = s.holds i q)
  /-- `fork` by a holder, or `shmem_acquire_access`: one more holder, `q`. -/
  | join (hop : op.isExec = false) (hop' : op.isExit = false) (q : Slot)
      (hs : s.holds i p = true ∨
        ((s.shmem i).state ≠ .notSet ∧ (s.shmem i).usingTopPid = (s.proc p).topPid))
      (hq : s.holds i q = false) (hq' : t.holds i q = true)
      (htop : (t.proc q).topPid = (s.proc p).topPid)
      (hg : t.shmem i = { s.shmem i with numberofusers := (s.shmem i).numberofusers + 1 })
      (hh : ∀ r, r ≠ q → t.holds i r = s.holds i r)
  /-- `p` gives the page up and it is not reset: another user is left, or `exit` finds the
  page in another group's use. -/
  | leave (hop : op.isExec = false) (hp : s.holds i p = true) (hp' : t.holds i p = false)
      (hn : (s.shmem i).numberofusers - 1 ≠ 0 ∨
        (op.isExit ∧ (s.shmem i).usingTopPid ≠ (s.proc p).topPid))
      (hg : t.shmem i = { s.shmem i with numberofusers := (s.shmem i).numberofusers - 1 })
      (hh : ∀ q, q ≠ p → t.holds i q = s.holds i q)
  /-- `p` gives the page up as its last user and it is reset. -/
  | leaveReset (hop : op.isExec = false) (hp : s.holds i p = true) (hp' : t.holds i p = false)
      (hn : (s.shmem i).numberofusers - 1 = 0)
      (hu : op.isExit → (s.shmem i).usingTopPid = (s.proc p).topPid)
      (hg : t.shmem i = (s.shmem i).cleared)
      (hh : ∀ q, q ≠ p → t.holds i q = s.holds i q)
  /-- `exit` of a process of the group, which does not hold the page and finds no user. -/
  | clear (hop : op.isExit) (hp : s.holds i p = false)
      (hn : (s.shmem i).numberofusers = 0) (hu : (s.shmem i).usingTopPid = (s.proc p).topPid)
      (hg : t.shmem i = (s.shmem i).cleared)
      (hh : ∀ q, t.holds i q = s.holds i q)

theorem PageStep.same (hop : op.isExit = false)
    (hg : t.shmem i = s.shmem i) (hh : ∀ q, t.holds i q = s.holds i q) : PageStep s p op t i :=
  .keep (by simp [hop]) hg hh

theorem PageStep.of_frame (hop : op.isExit = false)
    (hg : t.shmem i = s.shmem i) (hl : ∀ q, (t.proc q).live = (s.proc q).live)
    (ha : ∀ q, (t.proc q).shmemAccess i = (s.proc q).shmemAccess i) : PageStep s p op t i :=
  .same hop hg fun q => by rw [State.holds, State.holds, hl, ha]

theorem fork_page {mem : Bool} (hp : (s.proc p).live) (i : PageNo) :
    PageStep s p (.fork mem) (fork mem p s).2 i := by
  cases hf : findUnused s with
  | none => simp only [fork, hf]; exact .same rfl rfl fun _ => rfl
  | some np =>
    have hnp : s.holds i np = false := by simp [State.holds, Proc.live, findUnused_state hf]
    cases mem with
    | false =>
      simp only [fork, hf]
      refine .same rfl rfl fun q => ?_
      by_cases hq : q = np
      · subst hq
        rw [hnp]
        simp [State.holds, freeproc, Proc.live]
      · simp [State.holds, freeproc, allocproc, hq]
    | true =>
      rw [fork_some hf hp]
      cases ha : (s.proc p).shmemAccess i with
      | false =>
        refine .same rfl (by simp [forkedShmem, ha]) fun q => ?_
        by_cases hq : q = np
        · subst hq
          rw [hnp]
          simp [State.holds, forkChild, ha]
        · simp [State.holds, hq]
      | true =>
        refine .join rfl rfl np (.inl (by simp [State.holds, hp, ha])) hnp ?_ (by simp [forkChild])
          (by simp [forkedShmem, ha]) fun r hr => ?_
        · simp [State.holds, forkChild, Proc.live, ha]
        · simp [State.holds, hr]

theorem exit_page {status : Int32} (hp : (s.proc p).live)
    (h : exit status p s = .ok t) (i : PageNo) : PageStep s p (.exit status) t i := by
  obtain ⟨-, hproc, hshmem, -⟩ := exit_ok h
  have hp' : t.holds i p = false := by simp [State.holds, hproc, Proc.live]
  have hh : ∀ q, q ≠ p → t.holds i q = s.holds i q := by
    intro q hq
    simp [State.holds, hproc, hq, Proc.live]
  have hg := hshmem i
  cases ha : (s.proc p).shmemAccess i with
  | false =>
    have hs : s.holds i p = false := by simp [State.holds, ha]
    have hh' : ∀ q, t.holds i q = s.holds i q := by
      intro q
      by_cases hq : q = p
      · rw [hq, hs, hp']
      · exact hh q hq
    by_cases hr : ExitResets (s.proc p) i (s.shmem i)
    · refine .clear rfl hs ?_ hr.2 (hg.trans (exitShmem_of_resets hr)) hh'
      rw [← hr.1, exitUsers_of_no_access ha]
    · refine .keep (fun _ => ⟨hs, fun hn => hr ⟨?_, hn.2⟩⟩) ?_ hh'
      · rw [exitUsers_of_no_access ha, hn.1]
      · rw [hg, exitShmem, if_neg hr, exitUsers_of_no_access ha]
  | true =>
    have hs : s.holds i p = true := by simp [State.holds, hp, ha]
    by_cases hr : ExitResets (s.proc p) i (s.shmem i)
    · refine .leaveReset rfl hs hp' ?_ (fun _ => hr.2) (hg.trans (exitShmem_of_resets hr)) hh
      rw [← hr.1, exitUsers_of_access ha]
    · have hn := hr
      rw [ExitResets, exitUsers_of_access ha, not_and_or] at hn
      refine .leave rfl hs hp' (hn.imp id fun hu => ⟨rfl, hu⟩) ?_ hh
      rw [hg, exitShmem, if_neg hr, exitUsers_of_access ha]

theorem PageStep.of_setProc
    (hop : op.isExit = false) (hl : q.live = (s.proc p').live) (ha : q.shmemAccess i = (s.proc p').shmemAccess i) :
    PageStep s p op (s.setProc p' q) i := by
  refine .of_frame hop rfl (fun r => ?_) fun r => ?_ <;> by_cases hr : r = p'
  · rw [hr, setProc_proc, update_self, hl]
  · rw [setProc_proc, update_of_ne hr]
  · rw [hr, setProc_proc, update_self, ha]
  · rw [setProc_proc, update_of_ne hr]

theorem shmemSet_page {j : PageNo}
    (hop : op.isExec = false) (hop' : op.isExit = false) (hp : (s.proc p).live) (hst : st ≠ .notSet)
    (h : shmemSet st j p s = .ok t) (i : PageNo) : PageStep s p op t i := by
  obtain ⟨hs, hu, rfl⟩ := shmemSet_ok h
  by_cases hi : i = j
  · subst hi
    refine .set hop hop' st hst hs hu (by simp) ?_ fun q hq => ?_
    · simp only [State.holds, setShmem_proc, setProc_proc, update_self, Bool.and_true]
      exact hp
    · simp [State.holds, hq]
  · refine .of_frame hop' (by simp [hi]) (fun q => ?_) fun q => ?_ <;>
      by_cases hq : q = p <;> simp [hq, hi, Proc.live]

/-- **What a call can do to a page**. -/
theorem page_step (hp : (s.proc p).live) (h : call p s op = .ok (r, t)) (i : PageNo) : PageStep s p op t i := by
  cases op with
  | fork mem =>
    cases h
    exact fork_page hp i
  | exec argc =>
    cases h
    exact .of_setProc rfl rfl rfl
  | exit status =>
    obtain ⟨t', ht, hr⟩ := map_ok_inv h
    cases hr
    exact exit_page hp ht i
  | wait copied =>
    have ht : t = (wait copied p s).2 := by rw [Except.ok.inj h]
    rcases wait_state copied p s with hw | ⟨pp, hz, hw⟩
    · rw [ht, hw]
      exact .same rfl rfl fun _ => rfl
    · rw [ht, hw]
      refine .same rfl rfl fun q => ?_
      by_cases hq : q = pp
      · subst hq
        simp [State.holds, freeproc, Proc.live, (findZombie_state hz).2]
      · simp [State.holds, freeproc, hq]
  | kill pid =>
    cases h
    rcases kill_state pid s with hk | ⟨q, st, -, hst, hk⟩
    · exact .same rfl (congrFun (congrArg State.shmem hk) i) fun q => congrArg (State.holds · i q) hk
    · show PageStep s p _ (kill pid s).2 i
      rw [hk]
      exact .of_setProc rfl (live_of_kill hst) rfl
  | shmemSetWritable j =>
    obtain ⟨t', ht, hr⟩ := map_ok_inv h
    cases hr
    exact shmemSet_page rfl rfl hp (by decide) ht i
  | shmemSetUnwritable j =>
    obtain ⟨t', ht, hr⟩ := map_ok_inv h
    cases hr
    exact shmemSet_page rfl rfl hp (by decide) ht i
  | shmemSetInitInt j index value =>
    obtain ⟨t', ht, hr⟩ := map_ok_inv h
    cases hr
    obtain ⟨hs, hu, rfl⟩ := shmemSetInitInt_ok ht
    by_cases hi : i = j
    · subst hi
      exact .reserve rfl rfl hs hu (by simp) fun _ => rfl
    · exact .same rfl (by simp [hi]) fun _ => rfl
  | shmemWriteInt j index value =>
    obtain ⟨t', ht, hr⟩ := map_ok_inv h
    cases hr
    obtain ⟨-, -, rfl⟩ := shmemWriteInt_ok ht
    exact .same rfl rfl fun _ => rfl
  | shmemReadInt j index =>
    obtain ⟨v, -, hr⟩ := map_ok_inv h
    cases hr
    exact .same rfl rfl fun _ => rfl
  | shmemAcquireAccess j =>
    obtain ⟨⟨b, t'⟩, ht, hr⟩ := map_ok_inv h
    cases hr
    rcases shmemAcquireAccess_ok ht with ⟨-, -, rfl⟩ | ⟨-, hs, ha, hu, rfl⟩
    · exact .same rfl rfl fun _ => rfl
    · by_cases hi : i = j
      · subst hi
        refine .join rfl rfl p (.inr ⟨hs, hu⟩) (by simp [State.holds, ha]) ?_ (by simp) (by simp) fun q hq => ?_
        · simp only [State.holds, setShmem_proc, setProc_proc, update_self, Bool.and_true]
          exact hp
        · simp [State.holds, hq]
      · refine .of_frame rfl (by simp [hi]) (fun q => ?_) fun q => ?_ <;>
          by_cases hq : q = p <;> simp [hq, hi, Proc.live]
  | shmemReleaseAccess j =>
    obtain ⟨t', ht, hr⟩ := map_ok_inv h
    cases hr
    obtain ⟨-, -, -, ha, hproc, -, -, hg⟩ := shmemReleaseAccess_ok ht
    by_cases hi : i = j
    · subst hi
      have hs : s.holds i p = true := by simp [State.holds, hp, ha]
      have hp' : t.holds i p = false := by simp [State.holds, hproc]
      have hh : ∀ q, q ≠ p → t.holds i q = s.holds i q := by
        intro q hq
        simp [State.holds, hproc, hq]
      rcases hg with ⟨hn, hg, -⟩ | ⟨hn, hg, -⟩
      · exact .leaveReset rfl hs hp' hn (fun hx => by cases hx) (by simp [hg]) hh
      · exact .leave rfl hs hp' (.inl hn) (by simp [hg]) hh
    · refine .of_frame rfl ?_ (fun q => ?_) fun q => ?_
      · rcases hg with ⟨-, hg, -⟩ | ⟨-, hg, -⟩ <;> simp [hg, hi]
      all_goals by_cases hq : q = p <;> simp [hproc, hq, hi, Proc.live]
  | shmemAccess j mapped =>
    obtain ⟨t', ht, hr⟩ := map_ok_inv h
    cases hr
    obtain ⟨-, rfl⟩ := getShmemAccess_ok ht
    split_ifs
    · exact .of_setProc rfl rfl rfl
    · exact .same rfl rfl fun _ => rfl

/-! ### What a call can do to the groups -/

/-- What a call `op` of process `p`, going from `s` to `t`, can do to who has exited and to
the `top_pid` of the processes. -/
inductive GroupStep (s : State) (p : Slot) (op : Op) (t : State) : Prop where
  /-- Nothing. -/
  | keep (hop : op.isExec = false) (hop' : op.isExit = false)
      (hl : ∀ q, (t.proc q).live = (s.proc q).live) (ht : ∀ q, (t.proc q).topPid = (s.proc q).topPid)
  /-- `fork`: a new process in the group of `p`. -/
  | fork (np : Slot) (hop : op.isExec = false) (hop' : op.isExit = false) (hn : (s.proc np).live = false)
      (hn' : (t.proc np).live = true) (htop : (t.proc np).topPid = (s.proc p).topPid)
      (hl : ∀ q, q ≠ np → (t.proc q).live = (s.proc q).live)
      (ht : ∀ q, q ≠ np → (t.proc q).topPid = (s.proc q).topPid)
  /-- `exec`: `p` becomes the top of a group. -/
  | exec (hop : op.isExec) (htop : (t.proc p).topPid = (s.proc p).pid)
      (hg : t.shmem = s.shmem) (hl : ∀ q, (t.proc q).live = (s.proc q).live)
      (ht : ∀ q, q ≠ p → (t.proc q).topPid = (s.proc q).topPid)
      (ha : ∀ q, (t.proc q).shmemAccess = (s.proc q).shmemAccess)
  /-- `exit`: `p` is gone. -/
  | exit (hop : op.isExit) (hp : (t.proc p).live = false)
      (hl : ∀ q, q ≠ p → (t.proc q).live = (s.proc q).live)
      (ht : ∀ q, (t.proc q).topPid = (s.proc q).topPid)

theorem GroupStep.of_setProc (hop : op.isExec = false) (hop' : op.isExit = false)
    (hproc : t.proc = update s.proc p' q) (hl : q.live = (s.proc p').live)
    (ht : q.topPid = (s.proc p').topPid) : GroupStep s p op t := by
  refine .keep hop hop' (fun r => ?_) fun r => ?_ <;> by_cases hr : r = p'
  · rw [hr, hproc, update_self, hl]
  · rw [hproc, update_of_ne hr]
  · rw [hr, hproc, update_self, ht]
  · rw [hproc, update_of_ne hr]

/-- **What a call can do to the groups**. -/
theorem group_step (hp : (s.proc p).live) (h : call p s op = .ok (r, t)) : GroupStep s p op t := by
  cases proc_step hp h with
  | keep hop hop' _ _ _ hproc => exact .keep hop hop' (fun q => by rw [hproc]) fun q => by rw [hproc]
  | access acc count ha _ hproc => exact .of_setProc ha.isExec ha.isExit hproc rfl rfl
  | kill q st hop hst _ hproc =>
    subst hop
    exact .of_setProc rfl rfl hproc (live_of_kill hst) rfl
  | exec argc hop _ hg hproc =>
    subst hop
    refine .exec rfl (by simp [hproc]) hg (fun q => ?_) (fun q hq => by simp [hproc, hq]) fun q => ?_ <;>
      by_cases hq : q = p <;> simp [hproc, hq, Proc.live]
  | fork np hop hf _ hproc =>
    subst hop
    refine .fork np rfl rfl ?_ ?_ (by simp [hproc, forkChild]) (fun q hq => by simp [hproc, hq])
      fun q hq => by simp [hproc, hq]
    · simp [Proc.live, findUnused_state hf]
    · simp [hproc, Proc.live, forkChild]
  | forkFree np hop hf _ hproc =>
    subst hop
    exact .of_setProc rfl rfl hproc (by simp [Proc.freed, Proc.live, findUnused_state hf]) (by simp [Proc.freed, allocproc])
  | exit status hop _ hproc =>
    subst hop
    refine .exit rfl (by simp [hproc, Proc.live]) (fun q hq => by simp [hproc, hq, Proc.live]) fun q => ?_
    by_cases hq : q = p <;> simp [hproc, hq]
  | wait pp hop hz _ hproc =>
    subst hop
    exact .of_setProc rfl rfl hproc (by simp [Proc.freed, Proc.live, (findZombie_state hz).2]) rfl

/-- A process that has not exited and does not itself call `exec` keeps its group. -/
theorem GroupStep.topPid_eq {q : Slot} (h : GroupStep s p op t)
    (hq : (s.proc q).live) (hne : q ≠ p ∨ op.isExec = false) : (t.proc q).topPid = (s.proc q).topPid := by
  cases h with
  | keep _ _ _ ht => exact ht q
  | fork np _ _ hn _ _ _ ht =>
    refine ht q ?_
    rintro rfl
    rw [hn] at hq
    cases hq
  | exec hop _ _ _ ht _ => exact ht q (hne.resolve_right (by simp [hop]))
  | exit _ _ _ ht => exact ht q

/-- A process that has not exited and does not itself call `exit` stays. -/
theorem GroupStep.live_of_live {q : Slot} (h : GroupStep s p op t)
    (hq : (s.proc q).live) (hne : q ≠ p ∨ op.isExit = false) : (t.proc q).live := by
  cases h with
  | keep _ _ hl _ => rw [hl q, hq]
  | fork np _ _ _ hn' _ hl _ =>
    by_cases hqn : q = np
    · rw [hqn, hn']
    · rw [hl q hqn, hq]
  | exec _ _ _ hl _ _ => rw [hl q, hq]
  | exit hop _ hl _ => rw [hl q (hne.resolve_right (by simp [hop])), hq]

/-! ### What a call can do to a slot -/

/-- What a call `op` of process `p`, going from `s` to `t`, can do to slot `q`: whether it is in use, and which
access the process in it loses. -/
inductive SlotStep (s : State) (p : Slot) (op : Op) (t : State) (q : Slot) : Prop where
  /-- The slot stays in use or not; nobody comes back to life, and access is lost only by
  `shmem_release_access`. -/
  | keep (hf : op = .fork true → findUnused s ≠ some q) (hw : op = .wait true → findZombie p s ≠ some q)
      (hu : (t.proc q).state = .unused ↔ (s.proc q).state = .unused)
      (ha : (t.proc q).live → (s.proc q).live ∧ ∀ i, (s.proc q).shmemAccess i = true →
        (t.proc q).shmemAccess i = true ∨ q = p ∧ op = .shmemReleaseAccess i)
  /-- `fork` makes a process in it. -/
  | alloc (hop : op = .fork true) (hq : findUnused s = some q) (hq' : (t.proc q).state = .runnable)
  /-- `wait` gives it back. -/
  | free (hop : op = .wait true) (hq : findZombie p s = some q) (hq' : (t.proc q).state = .unused)

theorem SlotStep.of_eq {q : Slot} (hf : op = .fork true → findUnused s ≠ some q)
    (hw : op = .wait true → findZombie p s ≠ some q) (h : t.proc q = s.proc q) : SlotStep s p op t q :=
  .keep hf hw (by rw [h]) fun hl => ⟨by rwa [h] at hl, fun i hi => .inl (by rw [h, hi])⟩

theorem SlotStep.of_setProc {c : Proc} (hf : op ≠ .fork true) (hw : op ≠ .wait true) (hproc : t.proc = update s.proc p' c)
    (hu : c.state = .unused ↔ (s.proc p').state = .unused)
    (ha : c.live → (s.proc p').live ∧ ∀ i, (s.proc p').shmemAccess i = true →
      c.shmemAccess i = true ∨ p' = p ∧ op = .shmemReleaseAccess i) (q : Slot) : SlotStep s p op t q := by
  by_cases hq : q = p'
  · subst hq
    refine .keep (fun h => absurd h hf) (fun h => absurd h hw) ?_ ?_
    · rw [hproc, update_self, hu]
    · rw [hproc, update_self]
      exact ha
  · exact .of_eq (fun h => absurd h hf) (fun h => absurd h hw) (by rw [hproc, update_of_ne hq])

/-- **What a call can do to a slot**. -/
theorem slot_step (hp : (s.proc p).live) (h : call p s op = .ok (r, t)) (q : Slot) : SlotStep s p op t q := by
  cases proc_step hp h with
  | keep _ _ hf hw _ hproc =>
    exact .of_eq (fun hop => by simp [hf true hop]) (fun hop => by simp [hw hop]) (by rw [hproc])
  | access acc count ha _ hproc =>
    refine .of_setProc ?_ ?_ hproc Iff.rfl
      (fun hl => ⟨hl, fun i hi => (ha.keeps hi).imp_right fun hop => ⟨rfl, hop⟩⟩) q
    all_goals
      rintro rfl
      cases ha
  | kill p' st hop hst _ hproc =>
    subst hop
    refine .of_setProc (by simp) (by simp) hproc ?_ (fun hl => ⟨by rwa [live_of_kill hst] at hl, fun _ => .inl⟩) q
    rcases hst with rfl | ⟨hs, rfl⟩
    · rfl
    · simp [hs]
  | exec argc hop _ _ hproc =>
    subst hop
    exact .of_setProc (by simp) (by simp) hproc Iff.rfl (fun hl => ⟨hl, fun _ => .inl⟩) q
  | fork np hop hf _ hproc =>
    subst hop
    by_cases hq : q = np
    · subst hq
      exact .alloc rfl hf (by simp [hproc, forkChild])
    · exact .of_eq (fun _ => by simp [hf, Ne.symm hq]) (by simp) (by simp [hproc, hq])
  | forkFree np hop hf _ hproc =>
    subst hop
    exact .of_setProc (by simp) (by simp) hproc (by simp [Proc.freed, findUnused_state hf])
      (by simp [Proc.freed, Proc.live]) q
  | exit status hop _ hproc =>
    subst hop
    have hused : (s.proc p).state ≠ .unused := Proc.used_of_live hp
    by_cases hq : q = p
    · subst hq
      refine .keep (by simp) (by simp) (by simp [hproc, hused]) fun hl => ?_
      simp [hproc, Proc.live] at hl
    · refine .keep (by simp) (by simp) (by simp [hproc, hq]) fun hl => ⟨?_, fun i hi => .inl (by simp [hproc, hq, hi])⟩
      simpa [hproc, hq, Proc.live] using hl
  | wait pp hop hz _ hproc =>
    subst hop
    by_cases hq : q = pp
    · subst hq
      exact .free rfl hz (by simp [hproc, Proc.freed])
    · exact .of_eq (by simp) (fun _ => by simp [hz, Ne.symm hq]) (by simp [hproc, hq])

theorem phaddr_eq (hp : (s.proc p).live)
    (h : call p s op = .ok (r, t)) (i : PageNo) : (t.shmem i).phaddr = (s.shmem i).phaddr := by
  cases page_step hp h i with
  | keep _ hg _ | reserve _ _ _ _ hg _ | set _ _ _ _ _ _ hg _ _ | join _ _ _ _ _ _ _ hg _ | leave _ _ _ _ hg _ =>
    rw [hg]
  | leaveReset _ _ _ _ _ hg _ | clear _ _ _ _ hg _ => rw [hg, Shmem.cleared]

end Xv6Shmem.Kernel
