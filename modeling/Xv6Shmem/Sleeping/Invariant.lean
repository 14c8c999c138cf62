import Xv6Shmem.Sleeping.Rules

/-!
# What the processes hold and know

In every reachable state each process has code that keeps to the rules, from what it really holds
and what really is the case.

Who sleeps on a channel of the pipe waits for something that has not happened, or is about to be
woken by the process that holds the lock of the pipe. That is so already when the process has
given the lock back and is going to sleep, since `wakeup` has to wait for its `p->lock`.

## What is proved

* `Base.exec`, `Watched.exec` — each command keeps what is known.
* `SleepSound.run`, `SleepSound.loop`, `SleepSound.call` — so does each step.
* `sleepSound_of_reachable` — the invariant.
-/

namespace Xv6Shmem.Sleeping

open Function Kernel Prog LTS

/-- What the processes hold and know is so. -/
structure Base (s : Store) (G : Slot → Ctx) : Prop where
  /-- Each process holds the locks that it thinks it holds, and no others. -/
  locks : ∀ l a, s.lock l = some a ↔ (G a).Holds l
  /-- The lock of a condition is not one of a process. -/
  cond : ∀ a l, (G a).lock = some l → l.isCond = true
  /-- Who knows the pipe holds its lock. -/
  know : ∀ a pi, (G a).know = some pi → (G a).lock = some .pipe ∧ s.pipe = pi
  /-- Who is not in `sleep` is `RUNNING`. -/
  running : ∀ a, (G a).mode ≠ .down → (s.proc a).state = .running
  /-- Who has a byte in hand holds the lock of the pipe. -/
  hand : ∀ a, (G a).hand ≠ none → (G a).lock = some .pipe
  /-- Who is going to sleep holds its own lock. -/
  saw : ∀ a, (G a).saw ≠ none → (G a).plock = some a
  /-- There is not more in the pipe than it can hold. -/
  room : (s.pipe.nwrite - s.pipe.nread).toNat ≤ PIPESIZE

/-- Process `q` sleeps on channel `c`, or is about to. -/
def Awaits (s : Store) (G : Slot → Ctx) (c : Chan) (q : Slot) : Prop :=
  (s.proc q).state = .sleeping ∧ (s.proc q).chan = some c ∨ ∃ pi, (G q).saw = some pi ∧ c.Waits pi

/-- What process `q` waits for on channel `c` has not happened, or the holder of the pipe's lock has to wake it. -/
def InTime (s : Store) (G : Slot → Ctx) (c : Chan) (q : Slot) : Prop :=
  c.Waits s.pipe ∨ ∃ a, s.lock .pipe = some a ∧ (G a).due c q = true

/-- What holds if `kill` marks no holder of a safe lock. -/
structure Watched (safe : Lock → Bool) (s : Store) (G : Slot → Ctx) : Prop where
  /-- Nobody sleeps on what has happened, for long. -/
  inTime : safe .pipe = true → ∀ c q, Awaits s G c q → InTime s G c q
  /-- Who has found that it was not killed is not, as long as it holds a safe lock, or its own. -/
  alive : ∀ a, (G a).alive = true →
    (s.proc a).killed = false ∧ (∀ l, (G a).lock = some l → safe l = true) ∧ ((G a).lock ≠ none ∨ (G a).plock = some a)
  /-- Who sleeps was not killed. -/
  unmarked : ∀ a c, (s.proc a).state = .sleeping → (s.proc a).chan = some c → safe c.lock = true → (s.proc a).killed = false

section Commands

variable {s t : Store} {G : Slot → Ctx} {p : Slot} {g : Ctx} {safe : Lock → Bool} {a : Answer} {q : Slot} {l : Lock}
  {c : Chan}

theorem holds_cond (hl : l.isCond = true) : g.Holds l ↔ g.lock = some l := by
  cases l with
  | proc q => cases hl
  | _ => rfl

theorem Base.lock_iff (h : Base s G) (hl : l.isCond = true) :
    s.lock l = some q ↔ (G q).lock = some l :=
  (h.locks l q).trans (holds_cond hl)

theorem Base.holder_unique (h : Base s G) {q q' : Slot} (hq : (G q).Holds l) (hq' : (G q').Holds l) : q = q' := by
  have h1 := (h.locks l q).mpr hq
  have h2 := (h.locks l q').mpr hq'
  rw [h1] at h2
  exact Option.some.inj h2

/-- **Process `p` comes to hold and know `g`**, and the others stay as they are. -/
theorem Base.move (h : Base s G) (hmine : ∀ l, t.lock l = some p ↔ g.Holds l)
    (hothers : ∀ l q, q ≠ p → (t.lock l = some q ↔ s.lock l = some q)) (hcond : ∀ l, g.lock = some l → l.isCond = true)
    (hknow : ∀ pi, g.know = some pi → g.lock = some .pipe ∧ t.pipe = pi)
    (hpipe : ∀ q, q ≠ p → (G q).lock = some .pipe → t.pipe = s.pipe)
    (hrun : g.mode ≠ .down → (t.proc p).state = .running)
    (hstates : ∀ q, q ≠ p → (s.proc q).state = .running → (t.proc q).state = .running)
    (hhand : g.hand ≠ none → g.lock = some .pipe) (hsaw : g.saw ≠ none → g.plock = some p)
    (hroom : (t.pipe.nwrite - t.pipe.nread).toNat ≤ PIPESIZE) : Base t (update G p g) := by
  constructor
  case locks =>
    intro l q
    by_cases hq : q = p
    · subst hq
      rw [update_self]
      exact hmine l
    · rw [update_of_ne hq]
      exact (hothers l q hq).trans (h.locks l q)
  case cond =>
    exact (forall_update_iff G fun _ x => ∀ l, x.lock = some l → l.isCond = true).mpr ⟨hcond, fun q _ => h.cond q⟩
  case know =>
    intro q pi hq
    by_cases hqp : q = p
    · subst hqp
      rw [update_self] at hq ⊢
      exact hknow pi hq
    · rw [update_of_ne hqp] at hq ⊢
      obtain ⟨hlock, hpi⟩ := h.know q pi hq
      exact ⟨hlock, (hpipe q hqp hlock).trans hpi⟩
  case running =>
    exact (forall_update_iff G fun q x => x.mode ≠ .down → (t.proc q).state = .running).mpr
      ⟨hrun, fun q hq hm => hstates q hq (h.running q hm)⟩
  case hand =>
    exact (forall_update_iff G fun _ x => x.hand ≠ none → x.lock = some .pipe).mpr ⟨hhand, fun q _ => h.hand q⟩
  case saw =>
    exact (forall_update_iff G fun q x => x.saw ≠ none → x.plock = some q).mpr ⟨hsaw, fun q _ => h.saw q⟩
  case room => exact hroom

theorem Base.update_same (h : Base s G) (hlock : t.lock = s.lock) (hpipe : t.pipe = s.pipe) (hg : g.lock = (G p).lock)
    (hg' : g.plock = (G p).plock) (hknow : ∀ pi, g.know = some pi → g.lock = some .pipe ∧ s.pipe = pi)
    (hrun : g.mode ≠ .down → (t.proc p).state = .running)
    (hstates : ∀ q, q ≠ p → (s.proc q).state = .running → (t.proc q).state = .running)
    (hhand : g.hand ≠ none → g.lock = some .pipe) (hsaw : g.saw ≠ none → g.plock = some p) :
    Base t (update G p g) := by
  refine h.move (fun l => ?_) (fun l q _ => by rw [hlock]) (fun l hl => h.cond p l (hg ▸ hl)) (fun pi hpi => ?_)
    (fun q _ _ => hpipe) hrun hstates hhand hsaw (by rw [hpipe]; exact h.room)
  · rw [hlock, h.locks]
    cases l with
    | proc q => simp only [Ctx.Holds, hg']
    | _ => simp only [Ctx.Holds, hg]
  · rw [hpipe]
    exact hknow pi hpi

theorem Base.room_put (h : Base s G) (hroom : s.pipe.nwrite ≠ s.pipe.nread + UInt32.ofNat PIPESIZE) :
    (s.pipe.nwrite - s.pipe.nread).toNat < PIPESIZE := by
  refine Nat.lt_of_le_of_ne h.room fun heq => hroom ?_
  have hsub := Ring.add_sub s.pipe.nread s.pipe.nwrite
  rw [heq] at hsub
  exact hsub.symm

theorem toNat_succ_sub {r w : UInt32} (h : (w - r).toNat < PIPESIZE) : (w + 1 - r).toNat ≤ PIPESIZE := by
  have hadd : w + 1 - r = (w - r) + 1 := by grind
  rw [hadd, UInt32.toNat_add]
  exact (Nat.mod_le _ _).trans h

theorem toNat_sub_succ {r w : UInt32} (h : r ≠ w) : (w - (r + 1)).toNat ≤ (w - r).toNat := by
  have hlen := congrArg List.length (Ring.window_take (fun _ : Fin PIPESIZE => ()) h)
  rw [Ring.length_window, List.length_cons, Ring.length_window] at hlen
  omega

theorem Base.pipe_sole (h : Base s G) (hp : (G p).lock = some .pipe) (hq : q ≠ p) : (G q).lock ≠ some .pipe :=
  fun hq' => hq (h.holder_unique (l := .pipe) hq' hp)

theorem Base.update_pipe (h : Base s G) (hp : (G p).lock = some .pipe) {f : Pipe → Pipe} (hg : g.lock = (G p).lock)
    (hg' : g.plock = (G p).plock) (hk : g.know = (G p).know.map f) (hmode : g.mode = (G p).mode)
    (hsaw : g.saw = (G p).saw) (hroom : ((f s.pipe).nwrite - (f s.pipe).nread).toNat ≤ PIPESIZE) :
    Base (s.setPipe (f s.pipe)) (update G p g) := by
  refine h.move (fun l => ?_) (fun _ _ _ => Iff.rfl) (fun l hl => h.cond p l (hg ▸ hl)) (fun pi hpi => ?_)
    (fun q hq hq' => absurd hq' (h.pipe_sole hp hq)) (fun hm => h.running p (hmode ▸ hm)) (fun _ _ => id)
    (fun _ => hg.trans hp) (fun hs => hg'.trans (h.saw p (hsaw ▸ hs))) hroom
  · change s.lock l = some p ↔ _
    rw [h.locks]
    cases l with
    | proc q => simp only [Ctx.Holds, hg']
    | _ => simp only [Ctx.Holds, hg]
  · rw [hk, Option.map_eq_some_iff] at hpi
    obtain ⟨pi', hpi', rfl⟩ := hpi
    refine ⟨hg.trans hp, ?_⟩
    rw [← (h.know p pi' hpi').2]
    rfl

theorem setLock_taken (hfree : s.lock l = none) (l' : Lock) (q : Slot) (hq : q ≠ p) :
    (s.setLock l (some p)).lock l' = some q ↔ s.lock l' = some q := by
  by_cases hl : l' = l
  · subst hl
    simp [Store.setLock, hfree, Ne.symm hq]
  · simp [Store.setLock, hl]

theorem setLock_given (hheld : s.lock l = some p) (l' : Lock) (q : Slot) (hq : q ≠ p) :
    (s.setLock l none).lock l' = some q ↔ s.lock l' = some q := by
  by_cases hl : l' = l
  · subst hl
    simp [Store.setLock, hheld, Ne.symm hq]
  · simp [Store.setLock, hl]

theorem Base.holds_taken (h : Base s G) (hp : (G p).plock = none) (hg : g.lock = (G p).lock)
    (hg' : g.plock = some q) (l : Lock) : update s.lock (.proc q) (some p) l = some p ↔ g.Holds l := by
  have hs := h.locks l p
  cases l with
  | proc q' =>
    simp only [Ctx.Holds, hp, reduceCtorEq, iff_false] at hs
    by_cases hq : q' = q
    · simp [Ctx.Holds, hg', hq]
    · simp [Ctx.Holds, hg', hq, hs, Ne.symm hq]
  | _ => simpa [Ctx.Holds, hg] using hs

theorem Base.holds_given (h : Base s G) (hp : (G p).plock = some q) (hg : g.lock = (G p).lock)
    (hg' : g.plock = none) (l : Lock) : update s.lock (.proc q) none l = some p ↔ g.Holds l := by
  have hs := h.locks l p
  cases l with
  | proc q' =>
    simp only [Ctx.Holds, hp] at hs
    by_cases hq : q' = q
    · simp [Ctx.Holds, hg', hq]
    · simp [Ctx.Holds, hg', hq, hs, Ne.symm hq]
  | _ => simpa [Ctx.Holds, hg] using hs

theorem lock_wake (s : Store) (q : Slot) (c : Chan) : (s.wake q c).lock = s.lock := by
  unfold Store.wake
  split <;> rfl

theorem pipe_wake (s : Store) (q : Slot) (c : Chan) : (s.wake q c).pipe = s.pipe := by
  unfold Store.wake
  split <;> rfl

theorem wake_running {q q' : Slot} (hr : (s.proc q').state = .running) :
    ((s.wake q c).proc q').state = .running := by
  unfold Store.wake
  split
  · rename_i hsl
    by_cases hq : q' = q
    · subst hq
      rw [hr] at hsl
      cases hsl.1
    · simpa [Store.setProc, hq] using hr
  · exact hr

theorem kill_running {q q' : Slot} (hr : (s.proc q').state = .running) : ((s.mark q).proc q').state = .running := by
  by_cases hq : q' = q
  · subst hq
    simp [Store.mark, Store.setProc, hr]
  · simpa [Store.mark, Store.setProc, hq] using hr

/-- **Each command** keeps what is held and known. -/
theorem Base.exec (h : Base s G) {c : Cmd} {r : c.Res} (hreq : (G p).Req p safe c)
    (he : s.exec p a c = some (r, t)) : Base t (update G p ((G p).after p safe c r)) := by
  have hsame : ∀ pi, (G p).know = some pi → (G p).lock = some .pipe ∧ s.pipe = pi := h.know p
  cases c with
  | acquire l =>
    simp only [Store.exec, Option.ite_none_right_eq_some] at he
    obtain ⟨hfree, he⟩ := he
    cases he
    obtain ⟨hp, hm, hcond⟩ := hreq
    have hrun : (s.proc p).state = .running := h.running p (by simp [hm])
    cases l with
    | proc q =>
      refine h.move (h.holds_taken (q := q) hp rfl rfl) (setLock_taken hfree) (h.cond p) hsame
        (fun _ _ _ => rfl) (fun _ => hrun) (fun _ _ => id) (h.hand p) (fun hs => ?_) h.room
      rw [h.saw p hs] at hp
      cases hp
    | _ =>
      obtain ⟨hlock, hh, hb⟩ := hcond rfl
      refine h.move (fun l' => ?_) (setLock_taken hfree) ?_ ?_ (fun _ _ _ => rfl) (fun _ => hrun) (fun _ _ => id) ?_ ?_ h.room
      · have := h.locks l' p
        cases l' <;> simp_all [Store.setLock, Ctx.after, Ctx.acquire, Ctx.Holds, Ctx.locked, Ctx.idle]
      all_goals simp [Ctx.after, Ctx.acquire, Ctx.locked, Ctx.idle, Lock.isCond]
  | release l =>
    simp only [Store.exec, Option.ite_none_right_eq_some] at he
    obtain ⟨hheld, he⟩ := he
    cases he
    obtain ⟨hm, hholds, hcond⟩ := hreq
    have hrun : (s.proc p).state = .running := h.running p (by simp [hm])
    cases l with
    | proc q =>
      have hp : (G p).plock = some q := hholds
      exact h.move (h.holds_given (q := q) hp rfl rfl) (setLock_given hheld) (h.cond p) hsame (fun _ _ _ => rfl)
        (fun _ => hrun) (fun _ _ => id) (h.hand p) (fun hs => by simp [Ctx.after, Ctx.release] at hs) h.room
    | _ =>
      have hl : (G p).lock = _ := hholds
      refine h.move (fun l' => ?_) (setLock_given hheld) ?_ ?_ (fun _ _ _ => rfl) (fun _ => hrun) (fun _ _ => id)
        (fun hh => absurd (hcond rfl).1 hh) (fun hs => ?_) h.room
      · have := h.locks l' p
        cases l' <;> simp_all [Store.setLock, Ctx.after, Ctx.release, Ctx.Holds]
      · simp [Ctx.after, Ctx.release]
      · simp [Ctx.after, Ctx.release]
      · simp only [Ctx.after, Ctx.release, ne_eq, ite_eq_right_iff, not_forall] at hs ⊢
        exact hs.1
  | fallAsleep c =>
    cases he
    refine h.update_same rfl rfl rfl rfl hsame (fun hm => by simp [Ctx.after] at hm) (fun q hq hr => ?_) (h.hand p)
      (fun hs => by simp [Ctx.after] at hs)
    simpa [Store.setProc, hq] using hr
  | sched =>
    simp only [Store.exec, Option.ite_none_right_eq_some] at he
    obtain ⟨hheld, he⟩ := he
    cases he
    obtain ⟨hp, hm, hs, -⟩ := hreq
    exact h.move (h.holds_given (q := p) hp rfl rfl) (setLock_given hheld) (h.cond p) hsame (fun _ _ _ => rfl)
      (fun hm' => absurd hm hm') (fun _ _ => id) (h.hand p) (fun hs' => absurd hs hs') h.room
  | resume =>
    simp only [Store.exec, Option.ite_none_right_eq_some] at he
    obtain ⟨⟨hst, hfree⟩, he⟩ := he
    cases he
    obtain ⟨hp, hm⟩ := hreq
    refine h.move (h.holds_taken (q := p) hp rfl rfl) (setLock_taken hfree) (h.cond p) hsame
      (fun _ _ _ => rfl) (fun _ => ?_) (fun q hq hr => ?_) (h.hand p) (fun _ => rfl) h.room
    · simp [Store.setLock, Store.setProc]
    · simpa [Store.setLock, Store.setProc, hq] using hr
  | clearChan =>
    cases he
    refine h.update_same rfl rfl rfl rfl hsame (fun hm => ?_) (fun q hq hr => ?_) (h.hand p) (h.saw p)
    · simpa [Store.setProc] using h.running p hm
    · simpa [Store.setProc, hq] using hr
  | wake q c =>
    cases he
    exact h.update_same (lock_wake s q c) (pipe_wake s q c) rfl rfl hsame (fun hm => wake_running (h.running p hm))
      (fun _ _ => wake_running) (h.hand p) (h.saw p)
  | isKilled =>
    cases he
    exact h.update_same rfl rfl rfl rfl hsame (h.running p) (fun _ _ => id) (h.hand p) (h.saw p)
  | kill q =>
    cases he
    exact h.update_same rfl rfl rfl rfl hsame (fun hm => kill_running (h.running p hm)) (fun _ _ => kill_running) (h.hand p)
      (h.saw p)
  | pipe =>
    cases he
    exact h.update_same rfl rfl rfl rfl (fun pi hpi => ⟨hreq, Option.some.inj hpi⟩) (h.running p) (fun _ _ => id) (h.hand p)
      (h.saw p)
  | put ch =>
    cases he
    obtain ⟨hp, ⟨pi, hk, hroom⟩, -⟩ := hreq
    rw [← (h.know p pi hk).2] at hroom
    exact h.update_pipe hp (f := (·.put ch)) rfl rfl rfl rfl rfl (toNat_succ_sub (h.room_put hroom))
  | take =>
    cases he
    obtain ⟨hp, ⟨pi, hk, hne⟩, -⟩ := hreq
    rw [← (h.know p pi hk).2] at hne
    exact h.update_pipe hp (f := Pipe.take) rfl rfl rfl rfl rfl ((toNat_sub_succ hne).trans h.room)
  | close w =>
    cases he
    refine h.update_pipe hreq.1 (f := (·.close w)) rfl rfl rfl rfl rfl ?_
    cases w <;> exact h.room
  | copyin =>
    cases he
    exact h.update_same rfl rfl rfl rfl hsame (h.running p) (fun _ _ => id) (h.hand p) (h.saw p)
  | copyout ch =>
    cases he
    exact h.update_same rfl rfl rfl rfl hsame (h.running p) (fun _ _ => id) (fun hh => by simp [Ctx.after] at hh) (h.saw p)
  | ask =>
    cases he
    exact h.update_same rfl rfl rfl rfl hsame (h.running p) (fun _ _ => id) (h.hand p) (h.saw p)

/-! ### Sleepers -/

/-- What others wait for stays in time if the pipe, its lock and what is due stay. -/
theorem InTime.same (h : InTime s G c q) (hpipe : t.pipe = s.pipe) (hlock : t.lock .pipe = s.lock .pipe)
    (hdue : s.lock .pipe = some p → g.due c q = (G p).due c q) : InTime t (update G p g) c q := by
  rcases h with hw | ⟨b, hb, hd⟩
  · exact .inl (hpipe ▸ hw)
  · refine .inr ⟨b, hlock.trans hb, ?_⟩
    by_cases hbp : b = p
    · subst hbp
      rw [update_self, hdue hb]
      exact hd
    · rw [update_of_ne hbp]
      exact hd

theorem Awaits.of_update (h : Awaits t (update G p g) c q)
    (hsleep : ∀ q c, (t.proc q).state = .sleeping → (t.proc q).chan = some c →
      (s.proc q).state = .sleeping ∧ (s.proc q).chan = some c)
    (hsaw : g.saw = none ∨ g.saw = (G p).saw) : Awaits s G c q := by
  rcases h with ⟨hst, hc⟩ | ⟨pi, hs, hw⟩
  · exact .inl (hsleep q c hst hc)
  · refine .inr ⟨pi, ?_, hw⟩
    by_cases hq : q = p
    · subst hq
      rw [update_self] at hs
      rcases hsaw with hsaw | hsaw
      · rw [hsaw] at hs
        cases hs
      · rw [← hsaw]
        exact hs
    · rwa [update_of_ne hq] at hs

variable (h : Watched safe s G)

include h

/-- **A command that marks nobody and after which nobody sleeps who did not.** -/
theorem Watched.move (hkilled : ∀ q, (t.proc q).killed = (s.proc q).killed)
    (hsleep : ∀ q c, (t.proc q).state = .sleeping → (t.proc q).chan = some c →
      (s.proc q).state = .sleeping ∧ (s.proc q).chan = some c)
    (hinTime : safe .pipe = true → ∀ c q, Awaits t (update G p g) c q → InTime t (update G p g) c q)
    (halive : g.alive = true →
      (s.proc p).killed = false ∧ (∀ l, g.lock = some l → safe l = true) ∧ (g.lock ≠ none ∨ g.plock = some p)) :
    Watched safe t (update G p g) := by
  refine ⟨hinTime, fun q hq => ?_, fun q c hst hc hsafe => ?_⟩
  · rw [hkilled]
    by_cases hqp : q = p
    · subst hqp
      rw [update_self] at hq ⊢
      exact halive hq
    · rw [update_of_ne hqp] at hq ⊢
      exact h.alive q hq
  · obtain ⟨hst', hc'⟩ := hsleep q c hst hc
    rw [hkilled]
    exact h.unmarked q c hst' hc' hsafe

theorem Watched.update_same (hproc : t.proc = s.proc) (hpipe : t.pipe = s.pipe)
    (hlock : t.lock .pipe = s.lock .pipe) (hdue : g.due = (G p).due) (hsaw : g.saw = none ∨ g.saw = (G p).saw)
    (halive : g.alive = true →
      (s.proc p).killed = false ∧ (∀ l, g.lock = some l → safe l = true) ∧ (g.lock ≠ none ∨ g.plock = some p)) :
    Watched safe t (update G p g) := by
  have hsleep : ∀ q c, (t.proc q).state = .sleeping → (t.proc q).chan = some c →
      (s.proc q).state = .sleeping ∧ (s.proc q).chan = some c := by
    intro q c hst hc
    rw [hproc] at hst hc
    exact ⟨hst, hc⟩
  refine h.move (fun q => by rw [hproc]) hsleep (fun hsafe c q hA => ?_) halive
  exact (h.inTime hsafe c q (hA.of_update hsleep hsaw)).same hpipe hlock fun _ => by rw [hdue]

/-- **A change of the pipe**, after which all who sleep on `e` may have to be woken. -/
theorem Watched.update_pipe (hB : Base s G) (hp : (G p).lock = some .pipe) {pi : Pipe} {e : Chan}
    (hkeep : ∀ c, c ≠ e → c.Waits s.pipe → c.Waits pi) (hdue : g.due = allDue (G p).due e)
    (hlock : g.lock = (G p).lock) (hplock : g.plock = (G p).plock) (hsaw : g.saw = (G p).saw) (ha : g.alive = (G p).alive) :
    Watched safe (s.setPipe pi) (update G p g) := by
  have hheld : s.lock .pipe = some p := (hB.lock_iff rfl).mpr hp
  refine h.move (fun q => rfl) (fun q c hst hc => ⟨hst, hc⟩) (fun hsafe c q hA => ?_) (fun hg => ?_)
  · by_cases hc : c = e
    · subst hc
      refine .inr ⟨p, hheld, ?_⟩
      rw [update_self, hdue]
      simp [allDue]
    · rcases h.inTime hsafe c q (hA.of_update (fun q c hst hc => ⟨hst, hc⟩) (.inr hsaw)) with hw | ⟨b, hb, hd⟩
      · exact .inl (hkeep c hc hw)
      · obtain rfl : b = p := Option.some.inj (hb.symm.trans hheld)
        refine .inr ⟨b, hheld, ?_⟩
        rw [update_self, hdue, allDue_of_ne hc]
        exact hd
  · rw [hlock, hplock]
    exact h.alive p (ha ▸ hg)

/-- The lock of a condition is taken or given back, or that of a process: the holder of the pipe's lock has woken everybody. -/
theorem Watched.acquire (hB : Base s G) (hreq : (G p).Req p safe (.acquire l))
    (hfree : s.lock l = none) : Watched safe (s.setLock l (some p)) (update G p ((G p).acquire l)) := by
  obtain ⟨hp, hm, hcond⟩ := hreq
  cases l with
  | proc q =>
    refine h.update_same rfl rfl rfl rfl (.inr rfl) fun ha => ?_
    obtain ⟨hk, hsafe, hheld⟩ := h.alive p ha
    refine ⟨hk, hsafe, .inl ?_⟩
    rcases hheld with hheld | hheld
    · exact hheld
    · rw [hp] at hheld
      cases hheld
  | pipe =>
    refine h.move (fun _ => rfl) (fun _ _ hst hc => ⟨hst, hc⟩) (fun hsafe c q hA => ?_) (fun ha => by cases ha)
    rcases h.inTime hsafe c q (hA.of_update (fun _ _ hst hc => ⟨hst, hc⟩) (.inl rfl)) with hw | ⟨b, hb, -⟩
    · exact .inl hw
    · rw [hfree] at hb
      cases hb
  | _ =>
    refine h.move (fun _ => rfl) (fun _ _ hst hc => ⟨hst, hc⟩) (fun hsafe c q hA => ?_) (fun ha => by cases ha)
    refine (h.inTime hsafe c q (hA.of_update (fun _ _ hst hc => ⟨hst, hc⟩) (.inl rfl))).same rfl rfl fun hheld => ?_
    rw [hB.lock_iff rfl, (hcond rfl).1] at hheld
    cases hheld

theorem Watched.release (hB : Base s G) (hreq : (G p).Req p safe (.release l)) :
    Watched safe (s.setLock l none) (update G p ((G p).release p l)) := by
  obtain ⟨hm, hheld, hcond⟩ := hreq
  cases hl : l.isCond with
  | false =>
    cases l with
    | proc q =>
      refine h.update_same rfl rfl rfl rfl (.inl rfl) fun ha => ?_
      simp only [Ctx.release, Bool.and_eq_true] at ha
      obtain ⟨hk, hsafe, -⟩ := h.alive p ha.1
      exact ⟨hk, hsafe, .inl (by simpa [Ctx.release, Option.isSome_iff_ne_none] using ha.2)⟩
    | _ => cases hl
  | true =>
    obtain ⟨hh, hq, -⟩ := hcond hl
    rw [holds_cond hl] at hheld
    have hrel : (G p).release p l =
        { G p with
          lock := none
          mode := if (G p).plock = some p then .awake else .over
          know := none
          saw := if (G p).plock = some p then (G p).know else none
          alive := (G p).alive && decide ((G p).plock = some p) } := by
      cases l with
      | proc q => cases hl
      | _ => rfl
    rw [hrel]
    refine h.move (fun _ => rfl) (fun _ _ hst hc => ⟨hst, hc⟩) (fun hsafe c q hA => ?_) (fun ha => ?_)
    · by_cases hqp : q = p
      · -- it is going to sleep, and has just looked
        subst hqp
        rcases hA with ⟨hst, -⟩ | ⟨pi, hs, hw⟩
        · change (s.proc q).state = _ at hst
          rw [hB.running q (by simp [hm])] at hst
          cases hst
        · simp only [update_self, Option.ite_none_right_eq_some] at hs
          refine .inl ?_
          change c.Waits s.pipe
          rw [(hB.know q pi hs.2).2]
          exact hw
      · have hA' : Awaits s G c q := by
          rwa [Awaits, update_of_ne hqp] at hA
        by_cases hlp : l = .pipe
        · subst hlp
          rcases h.inTime hsafe c q hA' with hw | ⟨b, hb, hd⟩
          · exact .inl hw
          · obtain rfl : b = p := Option.some.inj (hb.symm.trans ((hB.lock_iff rfl).mpr hheld))
            rw [hq hsafe c q hqp] at hd
            cases hd
        · refine (h.inTime hsafe c q hA').same rfl ?_ fun _ => rfl
          simp [Store.setLock, Ne.symm hlp]
    · simp only [Bool.and_eq_true, decide_eq_true_eq] at ha
      exact ⟨(h.alive p ha.1).1, fun _ hl' => by simp at hl', .inr ha.2⟩

/-- A process goes to sleep, and what it waits for has not happened, since it would be due to be woken otherwise. -/
theorem Watched.fallAsleep (hreq : (G p).Req p safe (.fallAsleep c)) :
    Watched safe (s.setProc p { s.proc p with state := .sleeping, chan := some c })
      (update G p { G p with mode := .down, alive := false, saw := none }) := by
  obtain ⟨hp, hlock, hm, halive, hsaw⟩ := hreq
  refine ⟨fun hsafe c' q hA => ?_, fun q hq => ?_, fun q c' hst hc hsafe => ?_⟩
  · have hdue : ∀ hA' : Awaits s G c' q, InTime (s.setProc p { s.proc p with state := .sleeping, chan := some c })
        (update G p { G p with mode := .down, alive := false, saw := none }) c' q :=
      fun hA' => (h.inTime hsafe c' q hA').same rfl rfl fun _ => rfl
    by_cases hqp : q = p
    · subst hqp
      rcases hA with ⟨-, hc⟩ | ⟨pi, hs, -⟩
      · simp only [Store.setProc, update_self, Option.some.injEq] at hc
        subst hc
        by_cases hcl : c.lock = .pipe
        · exact hdue (.inr (hsaw hcl))
        · exact .inl (Chan.waits_of_ne hcl _)
      · simp at hs
    · refine hdue ?_
      simpa [Awaits, Store.setProc, update_of_ne hqp] using hA
  · by_cases hqp : q = p
    · subst hqp
      simp at hq
    · simp only [update_of_ne hqp, Store.setProc] at hq ⊢
      exact h.alive q hq
  · by_cases hqp : q = p
    · subst hqp
      simp only [Store.setProc, update_self, Option.some.injEq] at hc ⊢
      subst hc
      exact (h.alive q (halive hsafe)).1
    · simp only [Store.setProc, update_of_ne hqp] at hst hc ⊢
      exact h.unmarked q c' hst hc hsafe

omit h

theorem sleeping_of_setProc {x : Thread} (hx : x.state ≠ .sleeping ∨ x.chan ≠ some c)
    (hst : ((s.setProc p x).proc q).state = .sleeping) (hc : ((s.setProc p x).proc q).chan = some c) :
    (s.proc q).state = .sleeping ∧ (s.proc q).chan = some c := by
  by_cases hq : q = p
  · subst hq
    simp only [Store.setProc, update_self] at hst hc
    rcases hx with hx | hx
    · exact absurd hst hx
    · exact absurd hc hx
  · simp only [Store.setProc, update_of_ne hq] at hst hc
    exact ⟨hst, hc⟩

theorem killed_setProc {x : Thread} (hx : x.killed = (s.proc p).killed) (q : Slot) :
    ((s.setProc p x).proc q).killed = (s.proc q).killed := by
  by_cases hq : q = p
  · subst hq
    simpa [Store.setProc] using hx
  · simp [Store.setProc, hq]

include h

/-- Who is woken does not sleep, and who holds its own lock is not woken. -/
theorem Watched.wake (hB : Base s G) (hreq : (G p).Req p safe (.wake q c)) :
    Watched safe (s.wake q c)
      (update G p { G p with due := update (G p).due c (update ((G p).due c) q false) }) := by
  obtain ⟨hp, hqp⟩ := hreq
  have hsleep : ∀ q' c', ((s.wake q c).proc q').state = .sleeping → ((s.wake q c).proc q').chan = some c' →
      (s.proc q').state = .sleeping ∧ (s.proc q').chan = some c' := by
    intro q' c' hst hc
    unfold Store.wake at hst hc
    split at hst
    · rename_i hw
      rw [if_pos hw] at hc
      exact sleeping_of_setProc (by simp) hst hc
    · rename_i hw
      rw [if_neg hw] at hc
      exact ⟨hst, hc⟩
  refine h.move (fun q' => ?_) hsleep (fun hsafe c' q' hA => ?_) (h.alive p)
  · unfold Store.wake
    split
    · exact killed_setProc (x := { s.proc q with state := .runnable }) rfl q'
    · rfl
  · have hA' := hA.of_update hsleep (.inr rfl)
    refine (h.inTime hsafe c' q' hA').same (pipe_wake s q c) (by rw [lock_wake]) fun _ => ?_
    by_cases hc : c' = c
    · subst hc
      by_cases hq : q' = q
      · -- the process that was woken: it does not sleep on the channel now, and is not going to
        subst hq
        exfalso
        rcases hA with ⟨hst, hc⟩ | ⟨pi, hs, -⟩
        · obtain hs := hsleep q' c' hst hc
          unfold Store.wake at hst
          rw [if_pos hs] at hst
          simp [Store.setProc] at hst
        · rw [update_of_ne hqp] at hs
          have hown := hB.saw q' (by simp [hs])
          exact hqp (hB.holder_unique (l := .proc q') hown hp)
      · simp [hq]
    · simp [hc]

/-- Who is marked does not hold a safe lock, and is awake afterwards. -/
theorem Watched.mark (hB : Base s G) (hreq : (G p).Req p safe (.kill q))
    (hkill : ∀ l, safe l = true → s.lock l ≠ some q) :
    Watched safe (s.mark q) (update G p { G p with alive := (G p).alive && decide (q ≠ p) }) := by
  have hq : (s.mark q).proc q = { s.proc q with
      killed := true
      state := if (s.proc q).state = .sleeping then .runnable else (s.proc q).state } := by
    simp [Store.mark, Store.setProc]
  have hne : ∀ q', q' ≠ q → (s.mark q).proc q' = s.proc q' := by
    intro q' hq'
    simp [Store.mark, Store.setProc, hq']
  have hawake : ((s.mark q).proc q).state ≠ .sleeping := by
    rw [hq]
    simp only
    split
    · simp
    · assumption
  have hsleep : ∀ q' c, ((s.mark q).proc q').state = .sleeping → ((s.mark q).proc q').chan = some c →
      (s.proc q').state = .sleeping ∧ (s.proc q').chan = some c := by
    intro q' c hst hc
    have hq' : q' ≠ q := by
      rintro rfl
      exact hawake hst
    rw [hne q' hq'] at hst hc
    exact ⟨hst, hc⟩
  refine ⟨fun hsafe c q' hA => ?_, fun q' ha => ?_, fun q' c hst hc hsafe => ?_⟩
  · exact (h.inTime hsafe c q' (hA.of_update hsleep (.inr rfl))).same rfl rfl fun _ => rfl
  · by_cases hqp : q' = p
    · subst hqp
      simp only [update_self, Bool.and_eq_true, decide_eq_true_eq] at ha ⊢
      rw [hne q' (Ne.symm ha.2)]
      exact h.alive q' ha.1
    · rw [update_of_ne hqp] at ha ⊢
      have halive := h.alive q' ha
      have hq' : q' ≠ q := by
        rintro rfl
        rcases halive.2.2 with hl | hown
        · obtain ⟨l, hl⟩ := Option.ne_none_iff_exists'.mp hl
          exact hkill l (halive.2.1 l hl) ((hB.lock_iff (hB.cond q' l hl)).mpr hl)
        · exact hqp (hB.holder_unique (l := .proc q') hown hreq)
      rw [hne q' hq']
      exact halive
  · have hq' : q' ≠ q := by
      rintro rfl
      exact hawake hst
    rw [hne q' hq'] at hst hc ⊢
    exact h.unmarked q' c hst hc hsafe

/-- **Each command** keeps the sleepers in time and alive, if nobody who holds a safe lock is marked. -/
theorem Watched.exec (hB : Base s G) {c : Cmd} {r : c.Res} (hreq : (G p).Req p safe c)
    (hkill : ∀ q, c = .kill q → ∀ l, safe l = true → s.lock l ≠ some q) (he : s.exec p a c = some (r, t)) :
    Watched safe t (update G p ((G p).after p safe c r)) := by
  cases c with
  | acquire l =>
    simp only [Store.exec, Option.ite_none_right_eq_some] at he
    obtain ⟨hfree, he⟩ := he
    cases he
    exact h.acquire hB hreq hfree
  | release l =>
    simp only [Store.exec, Option.ite_none_right_eq_some] at he
    obtain ⟨-, he⟩ := he
    cases he
    exact h.release hB hreq
  | fallAsleep c =>
    cases he
    exact h.fallAsleep hreq
  | sched =>
    simp only [Store.exec, Option.ite_none_right_eq_some] at he
    obtain ⟨-, he⟩ := he
    cases he
    obtain ⟨-, -, -, ha⟩ := hreq
    refine h.update_same rfl rfl rfl rfl (.inr rfl) fun ha' => ?_
    change (G p).alive = true at ha'
    rw [ha] at ha'
    cases ha'
  | resume =>
    simp only [Store.exec, Option.ite_none_right_eq_some] at he
    obtain ⟨-, he⟩ := he
    cases he
    have hsleep := fun q c => sleeping_of_setProc (s := s) (p := p) (q := q) (c := c)
      (x := { s.proc p with state := .running }) (by simp)
    refine h.move (killed_setProc rfl) hsleep (fun hsafe c q hA => ?_) (fun ha => ?_)
    · exact (h.inTime hsafe c q (hA.of_update hsleep (.inr rfl))).same rfl rfl fun _ => rfl
    · obtain ⟨hk, hsafe, -⟩ := h.alive p ha
      exact ⟨hk, hsafe, .inr rfl⟩
  | clearChan =>
    cases he
    have hsleep := fun q c => sleeping_of_setProc (s := s) (p := p) (q := q) (c := c)
      (x := { s.proc p with chan := none }) (by simp)
    refine h.move (killed_setProc rfl) hsleep (fun hsafe c q hA => ?_) (h.alive p)
    exact (h.inTime hsafe c q (hA.of_update hsleep (.inr rfl))).same rfl rfl fun _ => rfl
  | wake q c =>
    cases he
    exact h.wake hB hreq
  | isKilled =>
    cases he
    refine h.update_same rfl rfl rfl rfl (.inr rfl) fun ha => ?_
    simp only [Ctx.after, Bool.and_eq_true, Bool.not_eq_true', Option.any_eq_true] at ha ⊢
    obtain ⟨hk, l, hl, hsafe⟩ := ha
    refine ⟨hk, fun l' hl' => ?_, .inl (by simp [hl])⟩
    rw [hl] at hl'
    cases hl'
    exact hsafe
  | kill q =>
    cases he
    exact h.mark hB hreq (hkill q rfl)
  | pipe =>
    cases he
    exact h.update_same rfl rfl rfl rfl (.inr rfl) (h.alive p)
  | put ch =>
    cases he
    obtain ⟨hp, ⟨pi, hk, hroom⟩, -⟩ := hreq
    refine h.update_pipe hB hp (e := .nread) (fun c hc hw => ?_) rfl rfl rfl rfl rfl
    cases c with
    | nread => exact absurd rfl hc
    | nwrite =>
      rw [← (hB.know p pi hk).2] at hroom
      exact absurd hw.1 hroom
    | _ => trivial
  | take =>
    cases he
    obtain ⟨hp, ⟨pi, hk, hne⟩, -⟩ := hreq
    refine h.update_pipe hB hp (e := .nwrite) (fun c hc hw => ?_) rfl rfl rfl rfl rfl
    cases c with
    | nwrite => exact absurd rfl hc
    | nread =>
      rw [← (hB.know p pi hk).2] at hne
      exact absurd hw.1 hne
    | _ => trivial
  | close w =>
    cases he
    refine h.update_pipe hB hreq.1 (e := if w then .nread else .nwrite) (fun c hc hw => ?_) rfl rfl rfl rfl rfl
    cases w <;> cases c <;> first | exact absurd rfl hc | exact hw
  | copyin =>
    cases he
    exact h.update_same rfl rfl rfl rfl (.inr rfl) (h.alive p)
  | copyout ch =>
    cases he
    exact h.update_same rfl rfl rfl rfl (.inr rfl) (h.alive p)
  | ask =>
    cases he
    exact h.update_same rfl rfl rfl rfl (.inr rfl) (h.alive p)

end Commands

/-! ### Runs -/

/-- Each process keeps to the rules from what it holds and knows, and that is so. -/
structure SleepSound (safe : Lock → Bool) (s : SleepState) (G : Slot → Ctx) : Prop where
  /-- The code keeps to the rules. -/
  code : ∀ q, (s.code q).wp (rules q safe) (LabelOk q safe) (G q)
  base : Base s.store G
  watched : Watched safe s.store G

/-- `kill` marks nobody who holds a safe lock. -/
def KillsOutside (safe : Lock → Bool) (s : SleepState) (act : Act) : Prop :=
  ∀ p a q k, act = .run p a → s.code p = .op (.kill q) k → ∀ l, safe l = true → s.store.lock l ≠ some q

section Runs

variable {safe : Lock → Bool} {s t : SleepState} {G : Slot → Ctx} {p : Slot}

/-- **What a step can be.** -/
theorem step_cases {act : Act} (h : s.step act = some t) :
    (∃ p a c, ∃ k : Cmd.Res c → Code Label, ∃ r st, act = .run p a ∧ s.code p = .op c k ∧ s.store.exec p a c = some (r, st) ∧
      t = SleepState.go { s with store := st } p (k r)) ∨
    (∃ p l x, act = .loop p ∧ s.code p = .ret l ∧ l.code p = some x ∧ t = s.go p x) ∨
    ∃ p c r, act = .call p c ∧ s.code p = .ret (.user r) ∧ t = s.go p (c.code p) := by
  cases act with
  | run p a =>
    cases hp : s.code p with
    | ret l => simp [SleepState.step, hp] at h
    | op c k =>
      simp only [SleepState.step, hp, Option.map_eq_some_iff] at h
      obtain ⟨⟨r, st⟩, he, rfl⟩ := h
      exact .inl ⟨p, a, c, k, r, st, rfl, hp, he, rfl⟩
  | loop p =>
    cases hp : s.code p with
    | ret l =>
      simp only [SleepState.step, hp, Option.map_eq_some_iff] at h
      obtain ⟨x, hx, rfl⟩ := h
      exact .inr (.inl ⟨p, l, x, rfl, hp, hx, rfl⟩)
    | op c k => simp [SleepState.step, hp] at h
  | call p c =>
    cases hp : s.code p with
    | ret l =>
      cases l with
      | user r =>
        simp only [SleepState.step, hp, Label.isUser, if_true, Option.some.injEq] at h
        exact .inr (.inr ⟨p, c, r, rfl, hp, h.symm⟩)
      | _ => simp [SleepState.step, hp, Label.isUser] at h
    | op c k => simp [SleepState.step, hp] at h

theorem SleepSound.code_update (h : SleepSound safe s G) {x : Code Label} {g : Ctx}
    (hx : x.wp (rules p safe) (LabelOk p safe) g) (q : Slot) :
    (update s.code p x q).wp (rules q safe) (LabelOk q safe) (update G p g q) := by
  by_cases hq : q = p
  · subst hq
    rw [update_self, update_self]
    exact hx
  · rw [update_of_ne hq, update_of_ne hq]
    exact h.code q

theorem Base.can (h : Base s.store G) (hW : Watched safe s.store G) {a : Answer} {c : Cmd} {r : c.Res} {st : Store}
    (he : s.store.exec p a c = some (r, st)) : (G p).Can c r := by
  cases c with
  | isKilled =>
    cases he
    intro hk
    cases ha : (G p).alive with
    | false => rfl
    | true =>
      change (s.store.proc p).killed = true at hk
      rw [(hW.alive p ha).1] at hk
      cases hk
  | pipe =>
    cases he
    exact fun pi hpi => (h.know p pi hpi).2
  | take =>
    cases he
    intro pi hpi
    rw [(h.know p pi hpi).2]
  | _ => trivial

/-- **A process does what is next.** -/
theorem SleepSound.run (h : SleepSound safe s G) {a : Answer} {c : Cmd} {k : c.Res → Code Label} {r : c.Res} {st : Store}
    (hc : s.code p = .op c k) (he : s.store.exec p a c = some (r, st))
    (hkill : ∀ q, c = .kill q → ∀ l, safe l = true → s.store.lock l ≠ some q) :
    SleepSound safe (SleepState.go { s with store := st } p (k r)) (update G p ((G p).after p safe c r)) := by
  have hcode := h.code p
  rw [hc] at hcode
  obtain ⟨hreq, hk⟩ := hcode
  exact ⟨h.code_update (hk r (h.base.can h.watched he)), h.base.exec hreq he, h.watched.exec h.base hreq hkill he⟩

/-- **A process goes on with a loop.** -/
theorem SleepSound.loop (h : SleepSound safe s G) {l : Label} {x : Code Label} (hc : s.code p = .ret l)
    (hx : l.code p = some x) : SleepSound safe (s.go p x) G := by
  have hl := h.code p
  rw [hc] at hl
  have hcode := h.code_update (label_spec hx hl)
  rw [update_eq_self] at hcode
  exact ⟨hcode, h.base, h.watched⟩

/-- **A process makes a call.** -/
theorem SleepSound.call (h : SleepSound safe s G) {r : Option ℤ} (hc : s.code p = .ret (.user r)) (c : Call) :
    SleepSound safe (s.go p (c.code p)) (update G p .idle) := by
  have hl := h.code p
  rw [hc] at hl
  obtain ⟨hp, hh, hs, hm, hlock, -⟩ := hl
  refine ⟨h.code_update (call_spec c), ?_, ?_⟩
  · exact h.base.update_same rfl rfl hlock.symm hp.symm (fun pi hpi => by cases hpi) (fun _ => h.base.running p hm)
      (fun _ _ => id) (fun hh' => absurd rfl hh') (fun hs' => absurd rfl hs')
  · refine h.watched.move (fun _ => rfl) (fun _ _ hst hc => ⟨hst, hc⟩) (fun hsafe c q hA => ?_) (fun ha => by cases ha)
    refine (h.watched.inTime hsafe c q (hA.of_update (fun _ _ hst hc => ⟨hst, hc⟩) (.inl rfl))).same rfl rfl fun hheld => ?_
    rw [h.base.lock_iff rfl, hlock] at hheld
    cases hheld

/-- At the start nobody holds or knows anything. -/
theorem sleepSound_start (killed : Slot → Bool) : SleepSound safe (.start killed) fun _ => .idle := by
  refine ⟨fun q => ⟨rfl, rfl, rfl, by simp [Ctx.idle], rfl, rfl⟩, ⟨fun l q => ?_, ?_, ?_, ?_, ?_, ?_, ?_⟩, ⟨?_, ?_, ?_⟩⟩
  · cases l <;> simp [SleepState.start, Ctx.Holds, Ctx.idle]
  · exact fun q l hl => by cases hl
  · exact fun q pi hpi => by cases hpi
  · exact fun _ _ => rfl
  · exact fun q hh => absurd rfl hh
  · exact fun q hs => absurd rfl hs
  · simp [SleepState.start]
  · rintro - c q (⟨hst, -⟩ | ⟨pi, hs, -⟩)
    · cases hst
    · cases hs
  · exact fun q ha => by cases ha
  · exact fun q c hst => by cases hst

/-- **The invariant**. -/
theorem sleepSound_of_reachable (h : (sleepMachine.restrict (KillsOutside safe)).Reachable s) :
    ∃ G, SleepSound safe s G := by
  apply Reachable.invariant (I := fun s => ∃ G, SleepSound safe s G) _ _ h
  · rintro s ⟨killed, rfl⟩
    exact ⟨_, sleepSound_start killed⟩
  · rintro s act t - ⟨G, hG⟩ ⟨hkill, hstep⟩
    rcases step_cases hstep with ⟨p, a, c, k, r, st, rfl, hc, he, rfl⟩ | ⟨p, l, x, rfl, hc, hx, rfl⟩ | ⟨p, c, r, rfl, hc, rfl⟩
    · refine ⟨_, hG.run hc he fun q hq => ?_⟩
      subst hq
      exact hkill p a q k rfl hc
    · exact ⟨G, hG.loop hc hx⟩
    · exact ⟨_, hG.call hc c⟩

end Runs

end Xv6Shmem.Sleeping
