import Xv6Shmem.Sleeping.Invariant

/-!
# Nobody sleeps for too long

A process that sleeps on the pipe when the lock of the pipe is free waits for something that has
not happened; and a process that sleeps was not killed.

Both need that `kill` marks nobody who holds the lock of what is waited for.

* A writer that finds itself killed in the middle of a transfer returns without `wakeup`. If it has
  put bytes into the pipe since it took the lock, a reader stays asleep beside them
  (`reader_left_asleep`). The other ways out of the loop wake the reader: the end of the transfer, a
  full pipe and a bad buffer.
* `kill` takes only `p->lock`. A loop looks at `p->killed` and gives that lock back, and takes it
  again in `sleep`; a mark made in between finds the process awake, and it goes to sleep with it
  (`killed_asleep`).

## What is proved

* `sleeps_in_time` — who sleeps on the pipe waits for something that has not happened.
* `sleeps_unkilled` — who sleeps was not killed.
* `commands_guarded` — no call fails a check of `acquire` or `release`, or touches what another one has locked.
-/

namespace Xv6Shmem.Sleeping

open Kernel Prog LTS

variable {t : SleepState}

/-- **No reader or writer sleeps on what has happened**: when the lock of the pipe is free, who sleeps on `&pi->nread`
finds the pipe empty and a writer there, and who sleeps on `&pi->nwrite` finds it full and a reader there. -/
theorem sleeps_in_time (h : (sleepMachine.restrict (KillsOutside fun l => decide (l = .pipe))).Reachable t)
    (hfree : t.store.lock .pipe = none) (q : Slot) (hq : (t.store.proc q).state = .sleeping) :
    ((t.store.proc q).chan = some .nread →
      t.store.pipe.nread = t.store.pipe.nwrite ∧ t.store.pipe.writeopen = true) ∧
    ((t.store.proc q).chan = some .nwrite →
      t.store.pipe.nwrite = t.store.pipe.nread + UInt32.ofNat PIPESIZE ∧ t.store.pipe.readopen = true) := by
  obtain ⟨G, hG⟩ := sleepSound_of_reachable h
  have hwaits : ∀ c, (t.store.proc q).chan = some c → c.Waits t.store.pipe := by
    intro c hc
    rcases hG.watched.inTime rfl c q (.inl ⟨hq, hc⟩) with hw | ⟨a, ha, -⟩
    · exact hw
    · rw [hfree] at ha
      cases ha
  exact ⟨hwaits .nread, hwaits .nwrite⟩

/-- **Who sleeps was not killed**, if `kill` marks nobody who holds the lock of what it sleeps on. -/
theorem sleeps_unkilled (c : Chan) (h : (sleepMachine.restrict (KillsOutside fun l => decide (l = c.lock))).Reachable t)
    (q : Slot) (hq : (t.store.proc q).state = .sleeping) (hc : (t.store.proc q).chan = some c) :
    (t.store.proc q).killed = false := by
  obtain ⟨G, hG⟩ := sleepSound_of_reachable h
  exact hG.watched.unmarked q c hq hc (by simp)

/-! ### Runs -/

/-- The answer `no`. -/
def no : Answer := ⟨false, none⟩

/-- The answer `yes`. -/
def yes : Answer := ⟨true, none⟩

/-- The process does what is next, `n` times. -/
def runs (p : Slot) (n : ℕ) : List Act := List.replicate n (.run p no)

/-- A reader finds the pipe empty, looks whether it was killed, and goes to sleep. -/
def readerSleeps (p : Slot) : List Act := [.call p (.piperead 1)] ++ runs p 1 ++ [.loop p] ++ runs p 8

/-- A writer puts a byte into the pipe and goes on with the next one. -/
def writerPuts (p : Slot) : List Act :=
  [.call p (.pipewrite 2)] ++ runs p 1 ++ [.loop p] ++ runs p 5 ++ [.run p ⟨false, some 65⟩] ++ runs p 1 ++ [.loop p] ++ runs p 1

/-- Process `p` calls `kill` with the pid of process `1`. -/
def killsOne (p : Slot) : List Act := [.call p .kill] ++ runs p 4 ++ [.run p yes] ++ runs p 2

/-- A process calls `sys_sleep`, finds that it is early and that it was not killed. -/
def sleeperLooks (p : Slot) : List Act := [.call p .sleep] ++ runs p 1 ++ [.loop p] ++ runs p 2

/-- Whom the command marks. -/
def Cmd.victim : Cmd → Option Slot
  | .kill q => some q
  | _ => none

/-- Whether a process would be marked that holds a safe lock, as a test. -/
def marksHolder (safe : Lock → Bool) (s : SleepState) : Code Label → Bool
  | .ret _ => false
  | .op c _ =>
    c.victim.any fun q => [Lock.pipe, .ticks, .cons, .wait].any fun l => safe l && decide (s.store.lock l = some q)

/-- Whether the step keeps to `KillsOutside`, as a test. -/
def killsOutside (safe : Lock → Bool) (s : SleepState) : Act → Bool
  | .run p _ => !marksHolder safe s (s.code p)
  | _ => true

theorem killsOutside_of {safe : Lock → Bool} (hsafe : ∀ l, safe l = true → l.isCond = true) {s : SleepState} {act : Act}
    (h : killsOutside safe s act = true) : KillsOutside safe s act := by
  rintro p a q k rfl hc l hl hheld
  have hcond := hsafe l hl
  simp only [killsOutside, hc, marksHolder, Cmd.victim, Option.any_some, List.any_cons, List.any_nil, Bool.not_eq_true',
    Bool.or_eq_false_iff, Bool.and_eq_false_imp, decide_eq_false_iff_not] at h
  obtain ⟨h1, h2, h3, h4, -⟩ := h
  cases l with
  | pipe => exact h1 hl hheld
  | ticks => exact h2 hl hheld
  | cons => exact h3 hl hheld
  | wait => exact h4 hl hheld
  | proc q => cases hcond

/-- A run that was computed, and keeps to `KillsOutside`. -/
theorem reachable_of_traceOf {c : Chan} {acts : List Act} {f : List (SleepState × Act) × SleepState → Bool}
    (h : (traceOf SleepState.step (killsOutside fun l => decide (l = c.lock)) (.start fun _ => false) acts).map f =
      some true) :
    ∃ tr t, (sleepMachine.restrict (KillsOutside fun l => decide (l = c.lock))).Reachable t ∧ f (tr, t) = true := by
  have hsafe : ∀ l, decide (l = c.lock) = true → l.isCond = true := by
    intro l hl
    rw [of_decide_eq_true hl]
    exact c.isCond_lock
  obtain ⟨tr, t, hrun, hf⟩ := exists_run_of_traceOf
    (M := sleepMachine.restrict (KillsOutside fun l => decide (l = c.lock)))
    (fun s act t hp hs => ⟨killsOutside_of hsafe hp, hs⟩) h
  exact ⟨tr, t, ⟨_, tr, ⟨_, rfl⟩, hrun⟩, hf⟩

/-- **A reader beside bytes**: process `0` sleeps in `piperead` while the lock is free and a byte is there, which
process `1` has put before it found itself killed. -/
theorem reader_left_asleep : ∃ tr t, sleepMachine.Run (.start fun _ => false) tr t ∧ t.store.lock .pipe = none ∧
    (t.store.proc 0).state = .sleeping ∧ (t.store.proc 0).chan = some .nread ∧
    t.store.pipe.nread ≠ t.store.pipe.nwrite := by
  have htr : (traceOf SleepState.step (fun _ _ => true) (.start fun _ => false)
      (readerSleeps 0 ++ writerPuts 1 ++ killsOne 2 ++ runs 1 4)).map
      (fun x => decide (x.2.store.lock .pipe = none ∧ (x.2.store.proc 0).state = .sleeping ∧
        (x.2.store.proc 0).chan = some .nread ∧ x.2.store.pipe.nread ≠ x.2.store.pipe.nwrite)) = some true := by
    decide +kernel
  obtain ⟨tr, t, hrun, ht⟩ := exists_run_of_traceOf (M := sleepMachine) (fun _ _ _ _ hs => hs) htr
  exact ⟨tr, t, hrun, of_decide_eq_true ht⟩

/-- **A killed process goes to sleep**: process `1` looks whether it was killed; process `2` kills it, and `kill`
returns `0`; then process `1` goes to sleep. -/
theorem killed_asleep : ∃ tr t, sleepMachine.Run (.start fun _ => false) tr t ∧ t.code 2 = .ret (.user (some 0)) ∧
    (t.store.proc 1).state = .sleeping ∧ (t.store.proc 1).chan = some .ticks ∧ (t.store.proc 1).killed = true := by
  have htr : (traceOf SleepState.step (fun _ _ => true) (.start fun _ => false)
      (sleeperLooks 1 ++ killsOne 2 ++ runs 1 4)).map
      (fun x => decide (result (x.2.code 2) = some 0 ∧ (x.2.store.proc 1).state = .sleeping ∧
        (x.2.store.proc 1).chan = some .ticks ∧ (x.2.store.proc 1).killed = true)) = some true := by
    decide +kernel
  obtain ⟨tr, t, hrun, ht⟩ := exists_run_of_traceOf (M := sleepMachine) (fun _ _ _ _ hs => hs) htr
  obtain ⟨hr, ht⟩ := of_decide_eq_true ht
  exact ⟨tr, t, hrun, eq_of_result hr, ht⟩

theorem sleeps_in_time_of_reader : ∃ t, (sleepMachine.restrict (KillsOutside fun l => decide (l = .pipe))).Reachable t ∧
    t.store.lock .pipe = none ∧ (t.store.proc 0).state = .sleeping ∧ (t.store.proc 0).chan = some .nread ∧
    t.store.pipe.nread = t.store.pipe.nwrite ∧ t.store.pipe.writeopen = true := by
  have htr : (traceOf SleepState.step (killsOutside fun l => decide (l = Chan.nread.lock)) (.start fun _ => false)
      (readerSleeps 0 ++ killsOne 2)).map
      (fun x => decide (x.2.store.lock .pipe = none ∧ (x.2.store.proc 0).state = .sleeping ∧
        (x.2.store.proc 0).chan = some .nread)) = some true := by
    decide +kernel
  obtain ⟨tr, t, ht, hf⟩ := reachable_of_traceOf htr
  obtain ⟨hfree, hst, hc⟩ := of_decide_eq_true hf
  exact ⟨t, ht, hfree, hst, hc, (sleeps_in_time ht hfree 0 hst).1 hc⟩

theorem sleeps_unkilled_of_sleeper :
    ∃ t, (sleepMachine.restrict (KillsOutside fun l => decide (l = Chan.ticks.lock))).Reachable t ∧
      (t.store.proc 0).state = .sleeping ∧ (t.store.proc 0).chan = some .ticks ∧ (t.store.proc 0).killed = false ∧
      (t.store.proc 1).killed = true := by
  have htr : (traceOf SleepState.step (killsOutside fun l => decide (l = Chan.ticks.lock)) (.start fun _ => false)
      (sleeperLooks 0 ++ killsOne 2 ++ runs 0 4)).map
      (fun x => decide ((x.2.store.proc 0).state = .sleeping ∧ (x.2.store.proc 0).chan = some .ticks ∧
        (x.2.store.proc 1).killed = true)) = some true := by
    decide +kernel
  obtain ⟨tr, t, ht, hf⟩ := reachable_of_traceOf htr
  obtain ⟨hst, hc, hk⟩ := of_decide_eq_true hf
  exact ⟨t, ht, hst, hc, sleeps_unkilled .ticks ht 0 hst hc, hk⟩

/-! ### Locks -/

/-- What a command needs: `acquire` a lock that the process does not hold, `release` and `sched` one that it does, and
the others the lock of what they read or write. A byte is put into a pipe that is not full, and taken out of one that is
not empty. -/
def Cmd.Guarded (s : Store) (p : Slot) : Cmd → Prop
  | .acquire l => s.lock l ≠ some p
  | .release l => s.lock l = some p
  | .fallAsleep _ | .sched | .clearChan => s.lock (.proc p) = some p
  | .wake q _ | .kill q => s.lock (.proc q) = some p
  | .pipe | .close _ => s.lock .pipe = some p
  | .put _ => s.lock .pipe = some p ∧ (s.pipe.nwrite - s.pipe.nread).toNat < PIPESIZE
  | .take => s.lock .pipe = some p ∧ s.pipe.nread ≠ s.pipe.nwrite
  | _ => True

/-- **The locks are kept to**, however the calls are interleaved and whoever is killed: whatever a process does next, it
holds the lock for it, and no `acquire` or `release` panics. There are never more than `512` bytes in the pipe, also when
the counters have wrapped round. -/
theorem commands_guarded (h : sleepMachine.Reachable t) : (t.store.pipe.nwrite - t.store.pipe.nread).toNat ≤ PIPESIZE ∧
    ∀ p c k, t.code p = .op c k → c.Guarded t.store p := by
  obtain ⟨s, tr, hs, hr⟩ := h
  obtain ⟨G, hG⟩ : ∃ G, SleepSound (fun _ => false) t G :=
    sleepSound_of_reachable ⟨s, tr, hs, run_restrict_iff.mpr ⟨hr, fun _ _ _ _ _ _ _ _ _ hl => by cases hl⟩⟩
  have hB := hG.base
  refine ⟨hB.room, fun p c k hc => ?_⟩
  have hreq : (G p).Req p (fun _ => false) c := by
    have hcode := hG.code p
    rw [hc, wp_op] at hcode
    exact hcode.1
  cases c with
  | acquire l =>
    intro hl
    have hheld := (hB.locks l p).mp hl
    cases l with
    | proc q => cases hreq.1.symm.trans hheld
    | _ => cases (hreq.2.2 rfl).1.symm.trans hheld
  | release l => exact (hB.locks l p).mpr hreq.2.1
  | fallAsleep _ | sched | clearChan | wake _ _ => exact (hB.locks (.proc _) p).mpr hreq.1
  | kill q => exact (hB.locks (.proc q) p).mpr hreq
  | pipe => exact (hB.locks .pipe p).mpr hreq
  | close _ => exact (hB.locks .pipe p).mpr hreq.1
  | put _ =>
    obtain ⟨hl, ⟨pi, hk, hroom⟩, -⟩ := hreq
    exact ⟨(hB.locks .pipe p).mpr hl, hB.room_put ((hB.know p pi hk).2 ▸ hroom)⟩
  | take =>
    obtain ⟨hl, ⟨pi, hk, hne⟩, -⟩ := hreq
    exact ⟨(hB.locks .pipe p).mpr hl, (hB.know p pi hk).2 ▸ hne⟩
  | _ => trivial

/-- A writer has put a byte and holds the lock. -/
theorem commands_guarded_of_writer : ∃ t, sleepMachine.Reachable t ∧ t.store.lock .pipe = some 1 ∧
    t.store.pipe.nwrite = 1 ∧ ∀ c k, t.code 1 = .op c k → c.Guarded t.store 1 := by
  have htr : (traceOf SleepState.step (killsOutside fun l => decide (l = Chan.nread.lock)) (.start fun _ => false)
      (writerPuts 1)).map
      (fun x => decide (x.2.store.lock .pipe = some 1 ∧ x.2.store.pipe.nwrite = 1)) = some true := by decide +kernel
  obtain ⟨tr, t, ht, hf⟩ := reachable_of_traceOf htr
  obtain ⟨hl, hn⟩ := of_decide_eq_true hf
  exact ⟨t, ht.of_restrict, hl, hn, (commands_guarded ht.of_restrict).2 1⟩

end Xv6Shmem.Sleeping
