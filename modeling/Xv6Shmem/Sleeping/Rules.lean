import Xv6Shmem.Sleeping.Machine

/-!
# The discipline of sleeping

A process looks at a condition and goes to sleep under the lock of the condition, and gives that
back only when it has its own `p->lock`, which `wakeup` and `kill` need to wake it. Whoever
changes the condition does it under the lock, and wakes the sleepers before the lock is given
back.

The rules follow a process through its code with the locks that it holds and what it knows. A
lock is `safe` if `kill` marks nobody who holds it, so that a holder stays alive if it was when
it looked. Then it is also asked to be alive when it goes to sleep, and to wake everybody that it
has to before it gives the lock back.

## What is proved

* `wakeup_spec`, `sleep_spec`, `killed_spec` and the specifications of the loops — the functions
  keep to the rules.
-/

namespace Xv6Shmem.Sleeping

open Function Kernel Prog

/-- What a process that sleeps on the channel waits for has not happened. -/
def Chan.Waits (pi : Pipe) : Chan → Prop
  | .nread => pi.nread = pi.nwrite ∧ pi.writeopen = true
  | .nwrite => pi.nwrite = pi.nread + UInt32.ofNat PIPESIZE ∧ pi.readopen = true
  | _ => True

/-- Where a process is with its call. -/
inductive Mode where
  | awake
  /-- It has called `sched` in `sleep`, or is about to, and has not gone on. -/
  | down
  /-- It has given back the lock that it took, and returns. -/
  | over
  deriving DecidableEq

theorem Chan.waits_of_ne {c : Chan} (h : c.lock ≠ .pipe) (pi : Pipe) : c.Waits pi := by
  cases c with
  | nread => exact absurd rfl h
  | nwrite => exact absurd rfl h
  | _ => trivial

/-- What a process holds and knows. -/
structure Ctx where
  /-- The lock of a condition. -/
  lock : Option Lock
  /-- The process whose `p->lock` it holds. -/
  plock : Option Slot
  mode : Mode
  /-- The pipe, as it has seen it since it took the lock. -/
  know : Option Pipe
  /-- The pipe, as it was when it gave the lock back to go to sleep. -/
  saw : Option Pipe
  /-- It was not killed when it last looked, and has held a safe lock since. -/
  alive : Bool
  /-- Who may have to be woken. -/
  due : Chan → Slot → Bool
  /-- A byte that it has taken out of the pipe and not copied out. -/
  hand : Option UInt8
  /-- The bytes that the call has copied out. -/
  buf : List UInt8

/-- It holds the lock. -/
def Ctx.Holds (g : Ctx) : Lock → Prop
  | .proc q => g.plock = some q
  | l => g.lock = some l

/-- It has woken everybody that it has to. -/
def Ctx.Quiet (g : Ctx) (p : Slot) : Prop := ∀ c q, q ≠ p → g.due c q = false

/-- All who sleep on a channel may have to be woken. -/
def allDue (due : Chan → Slot → Bool) (c : Chan) : Chan → Slot → Bool := update due c fun _ => true

theorem allDue_of_ne {due : Chan → Slot → Bool} {c c' : Chan} (h : c' ≠ c) (q : Slot) : allDue due c c' q = due c' q := by
  simp [allDue, h]

/-- At the start of a call. -/
def Ctx.idle : Ctx := ⟨none, none, .awake, none, none, false, fun _ _ => false, none, []⟩

/-- It has just taken the lock of a condition. -/
def Ctx.locked (l : Lock) : Ctx := { Ctx.idle with lock := some l }

/-- A lock that is not one of a process. -/
def Lock.isCond : Lock → Bool
  | .proc _ => false
  | _ => true

theorem Chan.isCond_lock (c : Chan) : c.lock.isCond = true := by cases c <;> rfl

section Rules

variable (p : Slot) (safe : Lock → Bool)

/-- It has taken a lock. -/
def Ctx.acquire (g : Ctx) : Lock → Ctx
  | .proc q => { g with plock := some q }
  | l => .locked l

/-- It has given a lock back. -/
def Ctx.release (g : Ctx) : Lock → Ctx
  | .proc _ => { g with plock := none, saw := none, alive := g.alive && g.lock.isSome }
  | _ =>
    { g with
      lock := none
      mode := if g.plock = some p then .awake else .over
      know := none
      saw := if g.plock = some p then g.know else none
      alive := g.alive && decide (g.plock = some p) }

/-- What is needed for a command. -/
def Ctx.Req (g : Ctx) : Cmd → Prop
  | .acquire l =>
    g.plock = none ∧ g.mode = .awake ∧ (l.isCond = true → g.lock = none ∧ g.hand = none ∧ g.buf = [])
  | .release l =>
    g.mode = .awake ∧ g.Holds l ∧
      (l.isCond = true → g.hand = none ∧ (safe l = true → g.Quiet p) ∧
        (g.plock = none ∨ g.plock = some p ∧ g.buf = []))
  | .fallAsleep c =>
    g.plock = some p ∧ g.lock = none ∧ g.mode = .awake ∧ (safe c.lock = true → g.alive = true) ∧
      (c.lock = .pipe → ∃ pi, g.saw = some pi ∧ c.Waits pi)
  | .sched => g.plock = some p ∧ g.mode = .down ∧ g.saw = none ∧ g.alive = false
  | .resume => g.plock = none ∧ g.mode = .down
  | .clearChan => g.plock = some p ∧ g.mode = .awake
  | .wake q _ => g.plock = some q ∧ q ≠ p
  | .isKilled => g.mode = .awake
  | .kill q => g.plock = some q
  | .pipe => g.lock = some .pipe
  | .put _ =>
    g.lock = some .pipe ∧ (∃ pi, g.know = some pi ∧ pi.nwrite ≠ pi.nread + UInt32.ofNat PIPESIZE) ∧ g.hand = none ∧
      g.buf = []
  | .take => g.lock = some .pipe ∧ (∃ pi, g.know = some pi ∧ pi.nread ≠ pi.nwrite) ∧ g.hand = none
  | .close _ => g.lock = some .pipe ∧ g.hand = none
  | .copyin => g.mode = .awake
  | .copyout ch => g.hand = some ch
  | .ask => g.mode = .awake

/-- The answers that are possible. -/
def Ctx.Can (g : Ctx) : (c : Cmd) → c.Res → Prop
  | .isKilled, r => r = true → g.alive = false
  | .pipe, pi => ∀ pi', g.know = some pi' → pi = pi'
  | .take, ch => ∀ pi, g.know = some pi → ch = pi.head
  | _, _ => True

/-- What it holds and knows after a command. -/
def Ctx.after (g : Ctx) : (c : Cmd) → c.Res → Ctx
  | .acquire l, _ => g.acquire l
  | .release l, _ => g.release p l
  | .fallAsleep _, _ => { g with mode := .down, alive := false, saw := none }
  | .sched, _ => { g with plock := none }
  | .resume, _ => { g with plock := some p, mode := .awake }
  | .wake q c, _ => { g with due := update g.due c (update (g.due c) q false) }
  | .isKilled, r => { g with alive := !r && g.lock.any safe }
  | .kill q, _ => { g with alive := g.alive && decide (q ≠ p) }
  | .pipe, pi => { g with know := some pi }
  | .put ch, _ => { g with know := g.know.map (·.put ch), due := allDue g.due .nread }
  | .take, ch => { g with know := g.know.map Pipe.take, due := allDue g.due .nwrite, hand := some ch }
  | .close w, _ => { g with know := g.know.map (·.close w), due := allDue g.due (if w then .nread else .nwrite) }
  | .copyout ch, r => { g with hand := none, buf := bif r then g.buf ++ [ch] else g.buf }
  | .clearChan, _ | .copyin, _ | .ask, _ => g

/-- The account of process `p`. -/
def account : Account Cmd.Res Ctx where
  req c g := g.Req p safe c
  can c r g := g.Can c r
  after c r g := g.after p safe c r

/-- The rules for process `p`. -/
abbrev rules : Rules Cmd.Res Ctx := (account p safe).rules

end Rules

/-- A process that has given back its lock and returns does nothing more. -/
theorem Ctx.not_req_over {p : Slot} {safe : Lock → Bool} {g : Ctx} (hm : g.mode = .over) (hl : g.lock = none)
    (hp : g.plock = none) (hh : g.hand = none) (c : Cmd) : ¬ g.Req p safe c := by
  cases c <;> simp [Ctx.Req, hm, hl, hp, hh]

/-! ### Functions -/

section Functions

variable {p : Slot} {safe : Lock → Bool} {g : Ctx} {Q : Unit → Ctx → Prop} {l : Lock} {c : Chan}

theorem wp_acquire_proc {q : Slot} (hp : g.plock = none) (hm : g.mode = .awake) (h : Q () { g with plock := some q }) :
    (acquire (.proc q)).wp (rules p safe) Q g :=
  ⟨⟨hp, hm, fun hc => by cases hc⟩, fun _ _ => h⟩

theorem wp_release_proc {q : Slot} (hp : g.plock = some q) (hm : g.mode = .awake)
    (h : Q () { g with plock := none, saw := none, alive := g.alive && g.lock.isSome }) :
    (release (.proc q)).wp (rules p safe) Q g :=
  ⟨⟨hm, hp, fun hc => by cases hc⟩, fun _ _ => h⟩

theorem wp_acquire_cond (hl : l.isCond = true) (hlock : g.lock = none) (hp : g.plock = none) (hm : g.mode = .awake)
    (hh : g.hand = none) (hb : g.buf = []) (h : Q () (.locked l)) : (acquire l).wp (rules p safe) Q g := by
  refine ⟨⟨hp, hm, fun _ => ⟨hlock, hh, hb⟩⟩, fun _ _ => ?_⟩
  cases l with
  | proc q => cases hl
  | _ => exact h

theorem wp_release_cond (hl : l.isCond = true) (hlock : g.lock = some l) (hm : g.mode = .awake) (hh : g.hand = none)
    (hq : safe l = true → g.Quiet p) (hb : g.plock = none ∨ g.plock = some p ∧ g.buf = [])
    (h : Q () { g with
      lock := none
      mode := if g.plock = some p then .awake else .over
      know := none
      saw := if g.plock = some p then g.know else none
      alive := g.alive && decide (g.plock = some p) }) : (release l).wp (rules p safe) Q g := by
  cases l with
  | proc q => cases hl
  | _ => exact ⟨⟨hm, hlock, fun _ => ⟨hh, hq, hb⟩⟩, fun _ _ => h⟩

theorem wp_ask {Q : Bool → Ctx → Prop} (hm : g.mode = .awake) (h : ∀ r, Q r g) : ask.wp (rules p safe) Q g :=
  ⟨hm, fun r _ => h r⟩

theorem wp_wake {q : Slot} (hp : g.plock = some q) (hq : q ≠ p)
    (h : Q () { g with due := update g.due c (update (g.due c) q false) }) :
    (wake q c).wp (rules p safe) Q g :=
  ⟨⟨hp, hq⟩, fun _ _ => h⟩

theorem wp_isKilled {Q : Bool → Ctx → Prop} (hlock : g.lock = some l) (hm : g.mode = .awake)
    (h : ∀ r, (r = true → g.alive = false) → Q r { g with alive := !r && safe l }) : isKilled.wp (rules p safe) Q g := by
  refine ⟨hm, fun (r : Bool) hr => ?_⟩
  change Q r { g with alive := !r && g.lock.any safe }
  rw [hlock] at h ⊢
  exact h r hr

theorem wp_put {ch : UInt8} {pi : Pipe} (hlock : g.lock = some .pipe) (hk : g.know = some pi)
    (hroom : pi.nwrite ≠ pi.nread + UInt32.ofNat PIPESIZE) (hh : g.hand = none) (hb : g.buf = [])
    (h : Q () { g with know := some (pi.put ch), due := allDue g.due .nread }) : (put ch).wp (rules p safe) Q g := by
  refine ⟨⟨hlock, ⟨pi, hk, hroom⟩, hh, hb⟩, fun _ _ => ?_⟩
  change Q () { g with know := g.know.map (·.put ch), due := allDue g.due .nread }
  rw [hk]
  exact h

theorem wp_pipe {Q : Pipe → Ctx → Prop} (hlock : g.lock = some .pipe)
    (h : ∀ pi, (∀ pi', g.know = some pi' → pi = pi') → Q pi { g with know := some pi }) : pipe.wp (rules p safe) Q g :=
  ⟨hlock, fun pi hpi => h pi hpi⟩

/-- What `wakeup` leaves to be done when it has gone through the processes in `qs`. -/
def woken (due : Chan → Slot → Bool) (c : Chan) (qs : List Slot) : Chan → Slot → Bool :=
  fun c' q => if c' = c ∧ q ∈ qs then false else due c' q

/-- **The loop of `wakeup`**. -/
theorem wakeupFrom_spec {qs : List Slot} (hqs : ∀ q ∈ qs, q ≠ p) (hl : g.lock.isSome = true)
    (hp : g.plock = none) (hm : g.mode = .awake) (hs : g.saw = none) (h : Q () { g with due := woken g.due c qs }) :
    (forM qs (wakeupOne c) : Code Unit).wp (rules p safe) Q g := by
  induction qs generalizing g with
  | nil =>
    have hdue : woken g.due c [] = g.due := by
      funext c' q
      simp [woken]
    rwa [hdue] at h
  | cons q qs ih =>
    rw [List.forM_cons, wp_bind, wakeupOne, wp_bind]
    refine wp_acquire_proc hp hm ?_
    rw [wp_bind]
    refine wp_wake rfl (hqs q List.mem_cons_self) ?_
    refine wp_release_proc rfl hm ?_
    refine ih (fun x hx => hqs x (List.mem_cons_of_mem _ hx)) hl rfl hm rfl ?_
    convert h using 1
    simp only [hl, Bool.and_true, hp, hs, Ctx.mk.injEq, and_true, true_and]
    funext c' x
    by_cases hc : c' = c
    · subst hc
      by_cases hx : x = q <;> simp [woken, hx]
    · simp [woken, hc]

/-- **`wakeup`**: nobody who sleeps on the channel is left. -/
theorem wakeup_spec (hl : g.lock.isSome = true) (hp : g.plock = none) (hm : g.mode = .awake)
    (hs : g.saw = none) (h : ∀ due, (∀ q, q ≠ p → due c q = false) → (∀ c' q, c' ≠ c → due c' q = g.due c' q) →
      Q () { g with due := due }) : (wakeup p c).wp (rules p safe) Q g := by
  refine wakeupFrom_spec (fun q hq => by simpa using hq) hl hp hm hs (h _ (fun q hq => ?_) fun c' q hc => ?_)
  · simp [woken, hq]
  · simp [woken, hc]

/-- **`killed`**, under the lock of a condition. -/
theorem killed_spec {Q : Bool → Ctx → Prop} (hlock : g.lock = some l) (hp : g.plock = none) (hm : g.mode = .awake)
    (hs : g.saw = none) (h : ∀ r, (r = true → g.alive = false) → Q r { g with alive := !r && safe l }) :
    (killed p).wp (rules p safe) Q g := by
  rw [killed, wp_bind]
  refine wp_acquire_proc hp hm ?_
  rw [wp_bind]
  refine wp_isKilled hlock hm fun r hr => ?_
  rw [wp_bind]
  refine wp_release_proc rfl hm ?_
  rw [wp_pure]
  convert h r hr using 1
  simp [hlock, hp, hs]

/-- **`sleep`**: under the lock of the condition, which has not come true, and when it knows that it was not killed. -/
theorem sleep_spec (hlock : g.lock = some c.lock) (hp : g.plock = none) (hm : g.mode = .awake)
    (hh : g.hand = none) (hb : g.buf = []) (ha : safe c.lock = true → g.alive = true)
    (hq : safe c.lock = true → g.Quiet p) (hw : c.lock = .pipe → ∃ pi, g.know = some pi ∧ c.Waits pi)
    (h : Q () (.locked c.lock)) : (sleep p c c.lock).wp (rules p safe) Q g := by
  rw [sleep, wp_bind]
  refine wp_acquire_proc hp hm ?_
  rw [wp_bind]
  refine wp_release_cond c.isCond_lock hlock hm hh hq (.inr ⟨rfl, hb⟩) ?_
  refine ⟨⟨rfl, rfl, by simp, fun hs => by simp [ha hs], fun hc => ?_⟩, fun _ _ => ?_⟩
  · obtain ⟨pi, hk, hw⟩ := hw hc
    exact ⟨pi, by simp [hk], hw⟩
  · -- it is woken, and takes the lock again
    refine ⟨⟨rfl, rfl, rfl, rfl⟩, fun _ _ => ⟨⟨rfl, rfl⟩, fun _ _ => ⟨⟨rfl, rfl⟩, fun _ _ => ?_⟩⟩⟩
    change (release (.proc p) >>= fun _ => acquire c.lock).wp (rules p safe) Q _
    rw [wp_bind]
    refine wp_release_proc rfl rfl ?_
    exact wp_acquire_cond c.isCond_lock rfl rfl rfl hh hb h

end Functions

/-! ### Loops -/

/-- What a process holds and knows at a label. A call that returns `r` has copied out no more than `r` bytes. -/
def LabelOk (p : Slot) (safe : Lock → Bool) (l : Label) (g : Ctx) : Prop :=
  g.plock = none ∧ g.hand = none ∧ g.saw = none ∧
    match l with
    | .user r => g.mode ≠ .down ∧ g.lock = none ∧ g.buf.take (r.getD 0).toNat = g.buf
    | .pipewrite _ _ =>
      g.mode = .awake ∧ g.lock = some .pipe ∧ g.buf = [] ∧ (∀ c q, q ≠ p → c ≠ .nread → g.due c q = false) ∧
        (g.Quiet p ∨ (safe .pipe = true → g.alive = true) ∧ ∃ pi, g.know = some pi ∧ pi.readopen = true)
    | .pipereadWait _ => g.mode = .awake ∧ g.lock = some .pipe ∧ g.buf = [] ∧ g.Quiet p
    | .pipereadCopy i _ =>
      g.mode = .awake ∧ g.lock = some .pipe ∧ g.buf.length = i ∧ ∀ c q, q ≠ p → c ≠ .nwrite → g.due c q = false
    | .consoleread => g.mode = .awake ∧ g.lock = some .cons ∧ g.buf = [] ∧ g.Quiet p
    | .sleep => g.mode = .awake ∧ g.lock = some .ticks ∧ g.buf = [] ∧ g.Quiet p
    | .wait => g.mode = .awake ∧ g.lock = some .wait ∧ g.buf = [] ∧ g.Quiet p

section Loops

variable {p : Slot} {safe : Lock → Bool} {g : Ctx}

theorem quiet_locked (l : Lock) : (Ctx.locked l).Quiet p := fun _ _ _ => rfl

theorem wp_release_user {l : Lock} {r : Option ℤ} (hl : l.isCond = true) (hlock : g.lock = some l) (hp : g.plock = none)
    (hm : g.mode = .awake) (hh : g.hand = none) (hb : g.buf.take (r.getD 0).toNat = g.buf)
    (hq : safe l = true → g.Quiet p) :
    (do
      release l
      return Label.user r).wp (rules p safe) (LabelOk p safe) g := by
  rw [wp_bind]
  refine wp_release_cond hl hlock hm hh hq (.inl hp) ?_
  exact ⟨hp, hh, by simp [hp], by simp [hp], rfl, hb⟩

/-- The end of a loop that waits: the call fails if the process was killed, and else it sleeps. -/
theorem wp_killed_or_sleep {c : Chan} {x : Label} {k : Code Bool} (hlock : g.lock = some c.lock) (hp : g.plock = none)
    (hm : g.mode = .awake) (hh : g.hand = none) (hb : g.buf = []) (hq : g.Quiet p)
    (hk : ∀ Q, (∀ r, Q r { g with alive := !r && safe c.lock }) → k.wp (rules p safe) Q g)
    (hw : c.lock = .pipe → ∃ pi, g.know = some pi ∧ c.Waits pi) (hx : LabelOk p safe x (.locked c.lock)) :
    (do
      if ← k then
        release c.lock
        return Label.user (some (-1))
      else
        sleep p c c.lock
        return x).wp (rules p safe) (LabelOk p safe) g := by
  rw [wp_bind]
  refine hk _ fun r => ?_
  cases r with
  | true => exact wp_release_user c.isCond_lock hlock hp hm hh (by simp [hb]) fun _ => hq
  | false =>
    rw [if_neg (by simp), wp_bind]
    refine sleep_spec hlock hp hm hh hb (fun hsafe => ?_) (fun _ => hq) hw hx
    simpa using hsafe

theorem wakeup_end {c : Chan} {r : Option ℤ} (hc : c.lock = .pipe) (hlock : g.lock = some .pipe) (hp : g.plock = none)
    (hm : g.mode = .awake) (hh : g.hand = none) (hs : g.saw = none) (hb : g.buf.take (r.getD 0).toNat = g.buf)
    (hq : ∀ c' q, q ≠ p → c' ≠ c → g.due c' q = false) :
    (do
      wakeup p c
      release c.lock
      return Label.user r).wp (rules p safe) (LabelOk p safe) g := by
  rw [wp_bind]
  refine wakeup_spec (by simp [hlock]) hp hm hs fun due hdue hother => ?_
  refine wp_release_user c.isCond_lock (hc ▸ hlock) hp hm hh hb fun _ c' q hqp => ?_
  by_cases hcc : c' = c
  · rw [hcc]
    exact hdue q hqp
  · exact (hother c' q hcc).trans (hq c' q hqp hcc)

/-- **The loop of `pipewrite`**. -/
theorem pipewriteLoop_spec {i : ℕ} {n : ℤ} (h : LabelOk p safe (.pipewrite i n) g) :
    (pipewriteLoop p i n).wp (rules p safe) (LabelOk p safe) g := by
  obtain ⟨hp, hh, hs, hm, hlock, hb, hdue, hready⟩ := h
  have hend : ∀ g' : Ctx, g'.lock = g.lock → g'.plock = g.plock → g'.mode = g.mode → g'.hand = g.hand → g'.saw = g.saw →
      g'.due = g.due → g'.buf = g.buf → (pipewriteEnd p i).wp (rules p safe) (LabelOk p safe) g' := by
    intro g' h1 h2 h3 h4 h5 h6 h7
    refine wakeup_end (c := .nread) rfl (h1.trans hlock) (h2.trans hp) (h3.trans hm) (h4.trans hh) (h5.trans hs) ?_ ?_
    · simp [h7, hb]
    · rw [h6]
      exact hdue
  unfold pipewriteLoop
  split
  · rw [wp_bind]
    refine wp_pipe hlock fun pi hpi => ?_
    split
    · -- the reader has gone: nothing was written since the lock was taken
      rename_i hro
      refine wp_release_user rfl hlock hp hm hh (by simp [hb]) fun _ => ?_
      rcases hready with hq | ⟨-, pi', hk, hopen⟩
      · exact hq
      · rw [hpi pi' hk, hopen] at hro
        cases hro
    · rename_i hro
      rw [wp_bind]
      refine killed_spec hlock hp hm hs fun r hr => ?_
      cases r with
      | true =>
        -- killed: nothing was written since the lock was taken
        refine wp_release_user rfl hlock hp hm hh (by simp [hb]) fun hsafe => ?_
        rcases hready with hq | ⟨ha, -⟩
        · exact hq
        · have := hr rfl
          rw [ha hsafe] at this
          cases this
      | false =>
        rw [if_neg (by simp), wp_bind]
        refine wp_pipe hlock fun pi' hpi' => ?_
        obtain rfl : pi' = pi := hpi' pi rfl
        split
        · rename_i hfull
          rw [wp_bind]
          refine wakeup_spec (by simp [hlock]) hp hm hs fun due hdue' hother => ?_
          rw [wp_bind]
          refine sleep_spec (c := .nwrite) hlock hp hm hh hb (fun hsafe => ?_) (fun _ c q hq => ?_)
            (fun _ => ⟨pi', rfl, hfull, by simpa using hro⟩) ?_
          · simpa [Chan.lock] using hsafe
          · by_cases hc : c = .nread
            · rw [hc]
              exact hdue' q hq
            · exact (hother c q hc).trans (hdue c q hq hc)
          · exact ⟨rfl, rfl, rfl, rfl, rfl, rfl, fun _ _ _ _ => rfl, .inl (quiet_locked _)⟩
        · rename_i hroom
          rw [wp_bind]
          refine ⟨hm, fun (r : Option UInt8) _ => ?_⟩
          cases r with
          | none => exact hend _ rfl rfl rfl rfl rfl rfl rfl
          | some ch =>
            change (put ch >>= fun _ => _).wp (rules p safe) _ { g with know := some pi', alive := !false && safe .pipe }
            rw [wp_bind]
            refine wp_put hlock rfl hroom hh hb ?_
            refine ⟨hp, hh, hs, hm, hlock, hb, fun c q hq hc => ?_, .inr ⟨fun hsafe => ?_, _, rfl, ?_⟩⟩
            · exact (allDue_of_ne hc q).trans (hdue c q hq hc)
            · simpa using hsafe
            · simpa [Pipe.put] using hro
  · exact hend g rfl rfl rfl rfl rfl rfl rfl

/-- **The loop of `piperead` that waits**. -/
theorem pipereadWait_spec {n : ℤ} (h : LabelOk p safe (.pipereadWait n) g) :
    (pipereadWait p n).wp (rules p safe) (LabelOk p safe) g := by
  obtain ⟨hp, hh, hs, hm, hlock, hb, hq⟩ := h
  rw [pipereadWait, wp_bind]
  refine wp_pipe hlock fun pi hpi => ?_
  split
  · rename_i hempty
    exact wp_killed_or_sleep (c := .nread) hlock hp hm hh hb hq (fun Q h => killed_spec hlock hp hm hs fun r _ => h r)
      (fun _ => ⟨pi, rfl, hempty⟩) ⟨rfl, rfl, rfl, rfl, rfl, rfl, quiet_locked _⟩
  · exact ⟨hp, hh, hs, hm, hlock, by simp [hb], fun c q hqp _ => hq c q hqp⟩

/-- **The loop of `piperead` that copies**. -/
theorem pipereadCopy_spec {i : ℕ} {n : ℤ} (h : LabelOk p safe (.pipereadCopy i n) g) :
    (pipereadCopy p i n).wp (rules p safe) (LabelOk p safe) g := by
  obtain ⟨hp, hh, hs, hm, hlock, hb, hdue⟩ := h
  have hend : ∀ g' : Ctx, g'.lock = g.lock → g'.plock = g.plock → g'.mode = g.mode → g'.hand = g.hand → g'.saw = g.saw →
      g'.buf = g.buf → (∀ c q, q ≠ p → c ≠ .nwrite → g'.due c q = false) →
      (pipereadEnd p i).wp (rules p safe) (LabelOk p safe) g' := by
    intro g' h1 h2 h3 h4 h5 h6 h7
    refine wakeup_end (c := .nwrite) rfl (h1.trans hlock) (h2.trans hp) (h3.trans hm) (h4.trans hh) (h5.trans hs) ?_ h7
    rw [h6]
    exact List.take_of_length_le (by simp [hb])
  have hdue' : ∀ c q, q ≠ p → c ≠ .nwrite → allDue g.due .nwrite c q = false := by
    intro c q hq hc
    exact (allDue_of_ne hc q).trans (hdue c q hq hc)
  unfold pipereadCopy
  split
  · rw [wp_bind]
    refine wp_pipe hlock fun pi hpi => ?_
    split
    · exact hend _ rfl rfl rfl rfl rfl rfl hdue
    · rename_i hne
      rw [wp_bind]
      refine ⟨⟨hlock, ⟨pi, rfl, hne⟩, hh⟩, fun (ch : UInt8) _ => ?_⟩
      change (copyout ch >>= fun _ => _).wp (rules p safe) _ _
      rw [wp_bind]
      refine ⟨rfl, fun (r : Bool) _ => ?_⟩
      cases r with
      | true => exact ⟨hp, rfl, hs, hm, hlock, by simp [account, Ctx.after, hb], hdue'⟩
      | false => exact hend _ rfl rfl rfl hh.symm rfl rfl hdue'
  · exact hend g rfl rfl rfl rfl rfl rfl hdue

/-- **The loop of `consoleread`**. -/
theorem consolereadLoop_spec (h : LabelOk p safe .consoleread g) :
    (consolereadLoop p).wp (rules p safe) (LabelOk p safe) g := by
  obtain ⟨hp, hh, hs, hm, hlock, hb, hq⟩ := h
  rw [consolereadLoop, wp_bind]
  refine wp_ask hm fun r => ?_
  cases r with
  | true =>
    rw [if_pos rfl, wp_bind]
    refine wp_ask hm fun r => ?_
    cases r with
    | true => exact ⟨hp, hh, hs, hm, hlock, hb, hq⟩
    | false => exact wp_release_user rfl hlock hp hm hh (by simp [hb]) fun _ => hq
  | false =>
    exact wp_killed_or_sleep (c := .cons) hlock hp hm hh hb hq (fun Q h => killed_spec hlock hp hm hs fun r _ => h r)
      (fun hc => by cases hc) ⟨rfl, rfl, rfl, rfl, rfl, rfl, quiet_locked _⟩

/-- **The loop of `sys_sleep`**. -/
theorem sleepLoop_spec (h : LabelOk p safe .sleep g) : (sleepLoop p).wp (rules p safe) (LabelOk p safe) g := by
  obtain ⟨hp, hh, hs, hm, hlock, hb, hq⟩ := h
  rw [sleepLoop, wp_bind]
  refine wp_ask hm fun r => ?_
  cases r with
  | true => exact wp_release_user rfl hlock hp hm hh (by simp [hb]) fun _ => hq
  | false =>
    exact wp_killed_or_sleep (c := .ticks) hlock hp hm hh hb hq (fun Q h => wp_isKilled hlock hm fun r _ => h r)
      (fun hc => by cases hc) ⟨rfl, rfl, rfl, rfl, rfl, rfl, quiet_locked _⟩

/-- The scan of `wait`: the locks of the children are taken and given back. -/
theorem waitScan_spec {Q : Option Bool → Ctx → Prop} {pps : List Slot} {havekids : Bool} (h : LabelOk p safe .wait g)
    (hnone : ∀ g', LabelOk p safe (.user none) g' → Q none g') (hsome : ∀ b, Q (some b) g) :
    (waitScan pps havekids).wp (rules p safe) Q g := by
  obtain ⟨hp, hh, hs, hm, hlock, hb, hq⟩ := h
  have hg : { g with plock := none, saw := none, alive := g.alive && g.lock.isSome } = g := by
    obtain ⟨lock, plock, mode, know, saw, alive, due, hand, buf⟩ := g
    simp_all
  induction pps generalizing havekids with
  | nil => exact hsome havekids
  | cons pp pps ih =>
    rw [waitScan, wp_bind]
    refine wp_ask hm fun r => ?_
    cases r with
    | false => exact ih
    | true =>
      rw [if_pos rfl, wp_bind]
      refine wp_acquire_proc hp hm ?_
      rw [wp_bind]
      refine wp_ask hm fun r => ?_
      cases r with
      | true =>
        rw [if_pos rfl, wp_bind]
        refine wp_release_proc rfl hm ?_
        rw [wp_bind]
        refine wp_release_cond (l := .wait) rfl hlock hm hh (fun _ => hq) (.inl rfl) ?_
        exact hnone _ ⟨rfl, hh, by simp, by simp, rfl, by simp [hb]⟩
      | false =>
        rw [if_neg (by simp), wp_bind]
        refine wp_release_proc rfl hm ?_
        rw [hg]
        exact ih

/-- **The loop of `wait`**. -/
theorem waitLoop_spec (h : LabelOk p safe .wait g) : (waitLoop p).wp (rules p safe) (LabelOk p safe) g := by
  rw [waitLoop, wp_bind]
  refine waitScan_spec h (fun g' hg' => hg') fun b => ?_
  obtain ⟨hp, hh, hs, hm, hlock, hb, hq⟩ := h
  cases b with
  | false => exact wp_release_user rfl hlock hp hm hh (by simp [hb]) fun _ => hq
  | true =>
    exact wp_killed_or_sleep (c := .proc p) hlock hp hm hh hb hq (fun Q h => killed_spec hlock hp hm hs fun r _ => h r)
      (fun hc => by cases hc) ⟨rfl, rfl, rfl, rfl, rfl, rfl, quiet_locked _⟩

/-- **`kill`**. -/
theorem kill_spec {qs : List Slot} (hp : g.plock = none) (hm : g.mode = .awake) (hh : g.hand = none) (hs : g.saw = none)
    (hlock : g.lock = none) (hb : g.buf = []) : (kill qs).wp (rules p safe) (LabelOk p safe) g := by
  induction qs generalizing g with
  | nil => exact ⟨hp, hh, hs, by simp [hm], hlock, by simp [hb]⟩
  | cons q qs ih =>
    rw [kill, wp_bind]
    refine wp_acquire_proc hp hm ?_
    rw [wp_bind]
    refine wp_ask hm fun r => ?_
    cases r with
    | true =>
      rw [if_pos rfl, wp_bind]
      refine ⟨rfl, fun _ _ => ?_⟩
      change (release (.proc q) >>= fun _ => _).wp (rules p safe) _ _
      rw [wp_bind]
      refine wp_release_proc rfl hm ?_
      exact ⟨rfl, hh, rfl, by simp [account, Ctx.after, hm], hlock, by simp [account, Ctx.after, hb]⟩
    | false =>
      rw [if_neg (by simp), wp_bind]
      refine wp_release_proc rfl hm ?_
      exact ih rfl hm hh rfl hlock hb

/-- **Every loop** keeps to the rules. -/
theorem label_spec {l : Label} {x : Code Label} (hx : l.code p = some x) (h : LabelOk p safe l g) :
    x.wp (rules p safe) (LabelOk p safe) g := by
  cases l with
  | user r => cases hx
  | pipewrite i n =>
    cases hx
    exact pipewriteLoop_spec h
  | pipereadWait n =>
    cases hx
    exact pipereadWait_spec h
  | pipereadCopy i n =>
    cases hx
    exact pipereadCopy_spec h
  | consoleread =>
    cases hx
    exact consolereadLoop_spec h
  | sleep =>
    cases hx
    exact sleepLoop_spec h
  | wait =>
    cases hx
    exact waitLoop_spec h

theorem call_start {l : Lock} {lb : Label} (hl : l.isCond = true) (h : LabelOk p safe lb (.locked l)) :
    (do
      acquire l
      return lb).wp (rules p safe) (LabelOk p safe) .idle := by
  rw [wp_bind]
  exact wp_acquire_cond hl rfl rfl rfl rfl rfl h

/-- **Every call** keeps to the rules. -/
theorem call_spec (c : Call) : (c.code p).wp (rules p safe) (LabelOk p safe) .idle := by
  cases c with
  | pipewrite n => exact call_start rfl ⟨rfl, rfl, rfl, rfl, rfl, rfl, fun _ _ _ _ => rfl, .inl (quiet_locked _)⟩
  | piperead n => exact call_start rfl ⟨rfl, rfl, rfl, rfl, rfl, rfl, quiet_locked _⟩
  | wait => exact call_start rfl ⟨rfl, rfl, rfl, rfl, rfl, rfl, quiet_locked _⟩
  | consoleread => exact call_start rfl ⟨rfl, rfl, rfl, rfl, rfl, rfl, quiet_locked _⟩
  | sleep => exact call_start rfl ⟨rfl, rfl, rfl, rfl, rfl, rfl, quiet_locked _⟩
  | kill => exact kill_spec rfl rfl rfl rfl rfl rfl
  | pipeclose w =>
    change (acquire .pipe >>= fun _ => _).wp (rules p safe) _ _
    rw [wp_bind]
    refine wp_acquire_cond rfl rfl rfl rfl rfl rfl ?_
    rw [wp_bind]
    refine ⟨⟨rfl, rfl⟩, fun _ _ => ?_⟩
    have hc : (if w then Chan.nread else Chan.nwrite).lock = .pipe := by cases w <;> rfl
    have hend : (wakeup p (if w then .nread else .nwrite) >>= fun _ => release (if w then Chan.nread else .nwrite).lock >>=
        fun _ => pure (Label.user none)).wp (rules p safe) (LabelOk p safe)
        { Ctx.locked .pipe with due := allDue (Ctx.locked .pipe).due (if w then .nread else .nwrite) } :=
      wakeup_end hc rfl rfl rfl rfl rfl rfl fun _ q _ hne => allDue_of_ne hne q
    rw [hc] at hend
    exact hend
  | wakeupOn c =>
    change (acquire c.lock >>= fun _ => _).wp (rules p safe) _ _
    rw [wp_bind]
    refine wp_acquire_cond c.isCond_lock rfl rfl rfl rfl rfl ?_
    rw [wp_bind]
    refine wakeup_spec rfl rfl rfl rfl fun due hdue hother => ?_
    refine wp_release_user c.isCond_lock rfl rfl rfl rfl rfl fun _ c' q hq => ?_
    by_cases hc : c' = c
    · rw [hc]
      exact hdue q hq
    · exact hother c' q hc

end Loops

end Xv6Shmem.Sleeping
