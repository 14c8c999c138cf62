import Xv6Shmem.Sleeping.Wakeups

/-!
# Pipes are queues

What writers have put into a pipe is, in order, what readers have been given and what is still in
the ring. The counters `nread` and `nwrite` count without end and wrap modulo `2 ^ 32`, which
`PIPESIZE` divides.

`piperead` counts a byte as read before it copies it out. If `copyout` fails the byte is gone:
nobody is given it, and it is not in the ring (`byte_lost`). `pipewrite` does it the other way
round: it counts a byte as written only when `copyin` has fetched it.

## The model

A `Stream` goes along with a run and records what has been written, what each call has copied out
so far, and what the calls of `piperead` that have returned have given to their callers: the first
`r` bytes of the buffer of a call that returns `r`. The calls are in the order in which they have
given back the lock of the pipe.

## What is proved

* `pipe_fifo` — the pipe is a queue, if no `copyout` fails.
-/

namespace Xv6Shmem.Sleeping

open Function Kernel Prog LTS

/-- What is in the pipe. -/
def Pipe.contents (pi : Pipe) : List UInt8 := Ring.window pi.data pi.nread pi.nwrite

/-- What has gone through the pipe. -/
structure Stream where
  /-- What writers have put into it. -/
  written : List UInt8
  /-- What the current call of a process has copied out. -/
  buf : Slot → List UInt8
  /-- What the calls that have returned have given to their callers. -/
  returned : List UInt8

/-- At the start. -/
def Stream.empty : Stream := ⟨[], fun _ => [], []⟩

/-- A command of process `p`, which goes on with `k`. The call is over when the lock of the pipe is given back, and the
call returns next. -/
def Stream.exec (x : Stream) (p : Slot) (a : Answer) : (c : Cmd) → (c.Res → Code Label) → Stream
  | .put ch, _ => { x with written := x.written ++ [ch] }
  | .copyout ch, _ => { x with buf := update x.buf p (bif a.yes then x.buf p ++ [ch] else x.buf p) }
  | .release l, k =>
    if l = .pipe then { x with returned := x.returned ++ (x.buf p).take ((result (k ())).getD 0).toNat } else x
  | _, _ => x

/-- The code of a process is run. -/
def Stream.run (x : Stream) (p : Slot) (a : Answer) : Code Label → Stream
  | .ret _ => x
  | .op c k => x.exec p a c k

/-- A step. -/
def Stream.after (s : SleepState) (act : Act) (x : Stream) : Stream :=
  match act with
  | .run p a => x.run p a (s.code p)
  | .loop _ => x
  | .call p _ => { x with buf := update x.buf p [] }

/-- No `copyout` fails. -/
def CopiesOut (s : SleepState) (act : Act) : Prop :=
  ∀ p a ch k, act = .run p a → s.code p = .op (.copyout ch) k → a.yes = true

/-- What the holder of the lock has taken out of the pipe, and is going to return. -/
def inHand (s : Store) (G : Slot → Ctx) : List UInt8 :=
  (s.lock .pipe).elim [] fun b => (G b).buf ++ (G b).hand.toList

/-- What has been written is what has been returned, what is on the way, and what is in the pipe. -/
structure Flow (s : Store) (G : Slot → Ctx) (x : Stream) : Prop where
  buf : ∀ q, (G q).buf = x.buf q
  fifo : x.written = x.returned ++ inHand s G ++ s.pipe.contents

section Commands

variable {s t : Store} {G : Slot → Ctx} {x : Stream} {p : Slot} {g : Ctx} {safe : Lock → Bool} {a : Answer}

theorem inHand_holder (hp : s.lock .pipe = some p) : inHand s (update G p g) = g.buf ++ g.hand.toList := by
  simp [inHand, hp]

theorem inHand_same (hlock : t.lock .pipe = s.lock .pipe) (hbuf : g.buf = (G p).buf) (hhand : g.hand = (G p).hand) :
    inHand t (update G p g) = inHand s G := by
  unfold inHand
  rw [hlock]
  cases s.lock .pipe with
  | none => rfl
  | some b =>
    by_cases hb : b = p
    · subst hb
      simp [hbuf, hhand]
    · simp [hb]

theorem Flow.update_same (h : Flow s G x) (hlock : t.lock .pipe = s.lock .pipe) (hpipe : t.pipe.contents = s.pipe.contents)
    (hbuf : g.buf = (G p).buf) (hhand : g.hand = (G p).hand) : Flow t (update G p g) x := by
  refine ⟨(forall_update_iff G fun q y => y.buf = x.buf q).mpr ⟨hbuf.trans (h.buf p), fun q _ => h.buf q⟩, ?_⟩
  rw [inHand_same hlock hbuf hhand, hpipe]
  exact h.fifo

/-- **The lock of the pipe is given back**: the call that had it is over and returns all that it has copied out, or it
has copied nothing and sleeps. -/
theorem Flow.release (h : Flow s G x) (hB : Base s G) {k : Unit → Code Label} (hreq : (G p).Req p safe (.release .pipe))
    (hk : (k ()).wp (rules p safe) (LabelOk p safe) ((G p).release p .pipe)) :
    Flow (s.setLock .pipe none) (update G p ((G p).release p .pipe))
      { x with returned := x.returned ++ (x.buf p).take ((result (k ())).getD 0).toNat } := by
  obtain ⟨hm, hlock, hcond⟩ := hreq
  obtain ⟨hh, -, hp⟩ := hcond rfl
  have hheld : s.lock .pipe = some p := (hB.lock_iff rfl).mpr hlock
  have hall : (x.buf p).take ((result (k ())).getD 0).toNat = x.buf p := by
    rw [← h.buf p]
    rcases hp with hp | ⟨-, hb⟩
    · cases hc : k () with
      | op c k' =>
        rw [hc] at hk
        have hover : ((G p).release p .pipe).mode = .over := by simp [Ctx.release, hp]
        exact absurd hk.1 (Ctx.not_req_over hover rfl hp hh c)
      | ret l =>
        rw [hc] at hk
        obtain ⟨-, -, -, hl⟩ := hk
        cases l with
        | user r => exact hl.2.2
        | _ =>
          have hmode := hl.1
          simp [Ctx.release, hp] at hmode
    · simp [hb]
  refine ⟨(forall_update_iff G fun q y => y.buf = x.buf q).mpr ⟨h.buf p, fun q _ => h.buf q⟩, ?_⟩
  have hbefore : inHand s G = x.buf p := by
    simp [inHand, hheld, hh, h.buf]
  have hafter : inHand (s.setLock .pipe none) (update G p ((G p).release p .pipe)) = [] := by
    simp [inHand, Store.setLock]
  rw [hafter, List.append_nil]
  change x.written = x.returned ++ _ ++ _
  rw [hall, ← hbefore]
  exact h.fifo

/-- **Each command** keeps the queue, if it is not a `copyout` that fails. -/
theorem Flow.exec (h : Flow s G x) (hB : Base s G) {c : Cmd} {k : c.Res → Code Label} {r : c.Res}
    (hreq : (G p).Req p safe c) (hk : (k r).wp (rules p safe) (LabelOk p safe) ((G p).after p safe c r))
    (hcopy : ∀ ch, c = .copyout ch → a.yes = true) (he : s.exec p a c = some (r, t)) :
    Flow t (update G p ((G p).after p safe c r)) (x.exec p a c k) := by
  cases c with
  | acquire l =>
    simp only [Store.exec, Option.ite_none_right_eq_some] at he
    obtain ⟨hfree, he⟩ := he
    cases he
    obtain ⟨-, -, hcond⟩ := hreq
    cases l with
    | proc q => exact h.update_same rfl rfl rfl rfl
    | pipe =>
      obtain ⟨-, hh, hb⟩ := hcond rfl
      refine ⟨(forall_update_iff G fun q y => y.buf = x.buf q).mpr ⟨hb.symm.trans (h.buf p), fun q _ => h.buf q⟩, ?_⟩
      have hfifo := h.fifo
      simp only [inHand, hfree, Option.elim_none] at hfifo
      simpa [inHand, Store.setLock, Ctx.after, Ctx.acquire, Ctx.locked, Ctx.idle, Stream.exec] using hfifo
    | _ =>
      obtain ⟨-, hh, hb⟩ := hcond rfl
      exact h.update_same rfl rfl hb.symm hh.symm
  | release l =>
    simp only [Store.exec, Option.ite_none_right_eq_some] at he
    obtain ⟨-, he⟩ := he
    cases he
    cases l with
    | pipe => exact h.release hB hreq hk
    | _ => exact h.update_same rfl rfl rfl rfl
  | fallAsleep c =>
    cases he
    exact h.update_same rfl rfl rfl rfl
  | sched =>
    simp only [Store.exec, Option.ite_none_right_eq_some] at he
    obtain ⟨-, he⟩ := he
    cases he
    exact h.update_same rfl rfl rfl rfl
  | resume =>
    simp only [Store.exec, Option.ite_none_right_eq_some] at he
    obtain ⟨-, he⟩ := he
    cases he
    exact h.update_same rfl rfl rfl rfl
  | clearChan =>
    cases he
    exact h.update_same rfl rfl rfl rfl
  | wake q c =>
    cases he
    exact h.update_same (by rw [lock_wake]) (by rw [pipe_wake]) rfl rfl
  | isKilled =>
    cases he
    exact h.update_same rfl rfl rfl rfl
  | kill q =>
    cases he
    exact h.update_same rfl rfl rfl rfl
  | pipe =>
    cases he
    exact h.update_same rfl rfl rfl rfl
  | put ch =>
    cases he
    obtain ⟨hlock, ⟨pi, hpi, hroom⟩, hh, hb⟩ := hreq
    rw [← (hB.know p pi hpi).2] at hroom
    have hheld : s.lock .pipe = some p := (hB.lock_iff rfl).mpr hlock
    refine ⟨(forall_update_iff G fun q y => y.buf = x.buf q).mpr ⟨h.buf p, fun q _ => h.buf q⟩, ?_⟩
    have hput : (s.pipe.put ch).contents = s.pipe.contents ++ [ch] :=
      Ring.window_put (by decide) (by decide) s.pipe.data ch (hB.room_put hroom)
    have hsame : inHand (s.setPipe (s.pipe.put ch)) (update G p ((G p).after p safe (.put ch) ())) = inHand s G :=
      inHand_same rfl rfl rfl
    rw [hsame]
    change x.written ++ [ch] = x.returned ++ _ ++ (s.pipe.put ch).contents
    rw [hput, ← List.append_assoc]
    exact congrArg (· ++ [ch]) h.fifo
  | take =>
    cases he
    obtain ⟨hlock, ⟨pi, hpi, hne⟩, hh⟩ := hreq
    rw [← (hB.know p pi hpi).2] at hne
    have hheld : s.lock .pipe = some p := (hB.lock_iff rfl).mpr hlock
    refine ⟨(forall_update_iff G fun q y => y.buf = x.buf q).mpr ⟨h.buf p, fun q _ => h.buf q⟩, ?_⟩
    have htake : s.pipe.contents = s.pipe.head :: s.pipe.take.contents := Ring.window_take s.pipe.data hne
    have hfifo := h.fifo
    rw [htake] at hfifo
    change x.written = x.returned ++ inHand s _ ++ s.pipe.take.contents
    rw [inHand_holder hheld]
    simpa [inHand, hheld, hh, Ctx.after] using hfifo
  | close w =>
    cases he
    refine h.update_same rfl ?_ rfl rfl
    cases w <;> rfl
  | copyin =>
    cases he
    exact h.update_same rfl rfl rfl rfl
  | copyout ch =>
    cases he
    have hh : (G p).hand = some ch := hreq
    have hheld : s.lock .pipe = some p := (hB.lock_iff rfl).mpr (hB.hand p (by simp [hh]))
    have hyes := hcopy ch rfl
    have hfifo := h.fifo
    refine ⟨fun q => ?_, ?_⟩
    · by_cases hq : q = p
      · subst hq
        simp [Ctx.after, Stream.exec, hyes, h.buf]
      · simp [Stream.exec, hq, h.buf]
    · rw [inHand_holder hheld]
      simpa [inHand, hheld, hh, Ctx.after, hyes, Stream.exec] using hfifo
  | ask =>
    cases he
    exact h.update_same rfl rfl rfl rfl

end Commands

/-! ### Runs -/

/-- **The stream along a run.** -/
theorem flow_of_run {killed : Slot → Bool} {tr : List (SleepState × Act)} {t : SleepState}
    (h : (sleepMachine.restrict CopiesOut).Run (.start killed) tr t) :
    ∃ G, SleepSound (fun _ => false) t G ∧ Flow t.store G (ghostAfter Stream.after .empty tr) := by
  induction h with
  | nil =>
    refine ⟨_, sleepSound_start killed, fun _ => rfl, ?_⟩
    exact (Ring.window_self _ _).symm
  | @snoc t u tr act _ hstep ih =>
    obtain ⟨G, hG, hF⟩ := ih
    obtain ⟨hcopy, hstep⟩ := hstep
    rw [ghostAfter, List.foldl_append]
    change ∃ G, _ ∧ Flow u.store G (Stream.after t act (ghostAfter Stream.after .empty tr))
    rcases step_cases hstep with ⟨p, a, c, k, r, st, rfl, hc, he, rfl⟩ | ⟨p, l, x, rfl, hc, hx, rfl⟩ | ⟨p, c, r, rfl, hc, rfl⟩
    · have hcode := hG.code p
      rw [hc] at hcode
      refine ⟨_, hG.run hc he (fun _ _ _ hl => by cases hl), ?_⟩
      rw [Stream.after, hc]
      refine hF.exec hG.base hcode.1 (hcode.2 r (hG.base.can hG.watched he)) (fun ch hch => ?_) he
      subst hch
      exact hcopy p a ch k rfl hc
    · exact ⟨G, hG.loop hc hx, hF⟩
    · have hl := hG.code p
      rw [hc] at hl
      obtain ⟨-, -, -, -, hlock, -⟩ := hl
      refine ⟨_, hG.call hc c, fun q => ?_, ?_⟩
      · by_cases hq : q = p
        · subst hq
          simp [Stream.after, Ctx.idle]
        · simp [Stream.after, hq, hF.buf]
      · have hne : ∀ b, t.store.lock .pipe = some b → b ≠ p := by
          rintro b hb rfl
          rw [hG.base.lock_iff rfl, hlock] at hb
          cases hb
        have hsame : inHand t.store (update G p .idle) = inHand t.store G := by
          unfold inHand
          cases hb : t.store.lock .pipe with
          | none => rfl
          | some b => simp [hne b hb]
        change _ = _ ++ inHand t.store (update G p .idle) ++ _
        rw [hsame]
        exact hF.fifo

/-- **A pipe is a queue**: at most `PIPESIZE` bytes are in it, and when its lock is free, what was written is what was
returned to readers and what is in it, in order. -/
theorem pipe_fifo {killed : Slot → Bool} {tr : List (SleepState × Act)} {t : SleepState}
    (h : (sleepMachine.restrict CopiesOut).Run (.start killed) tr t) :
    t.store.pipe.contents.length ≤ PIPESIZE ∧
      (t.store.lock .pipe = none →
        (ghostAfter Stream.after .empty tr).written =
          (ghostAfter Stream.after .empty tr).returned ++ t.store.pipe.contents) := by
  obtain ⟨G, hG, hF⟩ := flow_of_run h
  refine ⟨?_, fun hfree => ?_⟩
  · rw [Pipe.contents, Ring.length_window]
    exact hG.base.room
  · have hfifo := hF.fifo
    simpa [inHand, hfree] using hfifo

/-- Process `p` writes the byte `65`. -/
def writerEnds (p : Slot) : List Act :=
  [.call p (.pipewrite 1)] ++ runs p 1 ++ [.loop p] ++ runs p 5 ++ [.run p ⟨false, some 65⟩] ++ runs p 1 ++ [.loop p] ++
    runs p 190

/-- Process `p` reads a byte, and `copyout` answers `a`. -/
def readerEnds (p : Slot) (a : Answer) : List Act :=
  [.call p (.piperead 1)] ++ runs p 1 ++ [.loop p] ++ runs p 1 ++ [.loop p] ++ runs p 2 ++ [.run p a]

/-- **A byte is lost** when its reader has a bad buffer. -/
theorem byte_lost : ∃ tr t, sleepMachine.Run (.start fun _ => false) tr t ∧ t.store.lock .pipe = none ∧
    (ghostAfter Stream.after .empty tr).written ≠
      (ghostAfter Stream.after .empty tr).returned ++ t.store.pipe.contents := by
  have htr : (traceOf SleepState.step (fun _ _ => true) (.start fun _ => false)
      (writerEnds 0 ++ readerEnds 1 no ++ runs 1 190)).map
      (fun x => decide (x.2.store.lock .pipe = none ∧ (ghostAfter Stream.after .empty x.1).written ≠
        (ghostAfter Stream.after .empty x.1).returned ++ x.2.store.pipe.contents)) = some true := by
    decide +kernel
  obtain ⟨tr, t, hrun, ht⟩ := exists_run_of_traceOf (M := sleepMachine) (fun _ _ _ _ hs => hs) htr
  exact ⟨tr, t, hrun, of_decide_eq_true ht⟩

/-- Whether the command is a `copyout`. -/
def Cmd.isCopyout : Cmd → Bool
  | .copyout _ => true
  | _ => false

/-- Whether the code would do a `copyout` that fails, as a test. -/
def failsCopy (a : Answer) : Code Label → Bool
  | .ret _ => false
  | .op c _ => c.isCopyout && !a.yes

/-- Whether the step keeps to `CopiesOut`, as a test. -/
def copiesOut (s : SleepState) : Act → Bool
  | .run p a => !failsCopy a (s.code p)
  | _ => true

theorem copiesOut_of {s : SleepState} {act : Act} (h : copiesOut s act = true) : CopiesOut s act := by
  rintro p a ch k rfl hc
  simpa [copiesOut, hc, failsCopy, Cmd.isCopyout] using h

theorem pipe_fifo_of_byte : ∃ tr t, (sleepMachine.restrict CopiesOut).Run (.start fun _ => false) tr t ∧
    t.store.lock .pipe = none ∧ (ghostAfter Stream.after .empty tr).returned = [65] ∧
    t.store.pipe.contents.length ≤ PIPESIZE ∧
    (ghostAfter Stream.after .empty tr).written =
      (ghostAfter Stream.after .empty tr).returned ++ t.store.pipe.contents := by
  have htr : (traceOf SleepState.step copiesOut (.start fun _ => false)
      (writerEnds 0 ++ readerEnds 1 yes ++ [.loop 1] ++ runs 1 190)).map
      (fun x => decide (x.2.store.lock .pipe = none ∧ (ghostAfter Stream.after .empty x.1).returned = [65])) =
      some true := by
    decide +kernel
  obtain ⟨tr, t, hrun, ht⟩ := exists_run_of_traceOf (M := sleepMachine.restrict CopiesOut)
    (fun _ _ _ hp hs => ⟨copiesOut_of hp, hs⟩) htr
  obtain ⟨hfree, hret⟩ := of_decide_eq_true ht
  obtain ⟨hlen, hfifo⟩ := pipe_fifo hrun
  exact ⟨tr, t, hrun, hfree, hret, hlen, hfifo hfree⟩

end Xv6Shmem.Sleeping
