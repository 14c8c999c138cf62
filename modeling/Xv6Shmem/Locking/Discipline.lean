import Xv6Shmem.Locking.Machine

/-!
# The discipline of the locks

The locks of one class are taken in both orders: `exit` holds its own `p->lock` when it
takes the locks `state_lock`, and the calls of the shared pages hold `state_lock` when they
take their own `p->lock`. What keeps this from a deadlock is that a process that holds
`state_lock` waits for no lock but its own, and that `exit` holds `wait_lock` throughout.

`Allowed` says for each lock what a thread may hold when it takes it. The rules follow a
thread through its code with what it holds and what it knows of the states of processes:
under `p->lock` it knows what it has seen or set, and without the lock it knows of a slot
that it made `USED` itself and of itself that it is `RUNNING`.

## What is proved

* the specifications of the functions, up to `call_spec` and `label_spec` — every function
  keeps to the discipline, and ends with the locks that its label says.
-/

namespace Xv6Shmem.Locking

open Function (update update_self update_of_ne update_eq_self update_idem)
open Kernel Prog

/-- Taken first: `wait_lock`, and the locks that guard what a process sleeps on. -/
def Lock.outer : Lock → Bool
  | .wait | .chan _ => true
  | _ => false

/-- Taken last: while it is held no other lock is taken. -/
def Lock.inner : Lock → Bool
  | .pid | .kmem | .ftable | .itable => true
  | _ => false

/-- `lock` of a shared page, which `shmem_set_writable` makes new whether or not it is held. -/
def Lock.isPage : Lock → Bool
  | .page _ => true
  | _ => false

/-- What a thread holds and knows. -/
structure Ctx where
  /-- The locks it holds. -/
  held : List Lock
  /-- The states that it knows. -/
  know : Slot → Option ProcState

/-- What thread `a` knows without the lock: others do not change it. -/
def Stable (a : Agent) (q : Slot) (st : ProcState) : Prop :=
  st = .used ∧ a ≠ .proc q ∨ st = .running ∧ a = .proc q

instance (a : Agent) (q : Slot) (st : ProcState) : Decidable (Stable a q st) := inferInstanceAs (Decidable (_ ∨ _))

/-- Whether a thread may take a lock, by what it holds. -/
def Allowed (a : Agent) (held : List Lock) : Lock → Prop
  | .wait | .chan _ | .page _ => held = []
  | .state _ => ∀ l ∈ held, l = .wait ∨ .wait ∈ held ∧ ∃ p, a = .proc p ∧ l = .proc p
  | .proc q => ∀ l ∈ held, l.outer = true ∨ a = .proc q ∧ ∃ i, l = .state i
  | _ => ∀ l ∈ held, l.inner = false ∧ l.isPage = false

/-- How thread `a` may change the state of slot `q`. -/
def Changes (a : Agent) (q : Slot) : ProcState → ProcState → Prop
  | .unused, .used | .used, .unused | .used, .runnable | .sleeping, .runnable | .zombie, .unused => True
  | .runnable, .running => a.myproc = none
  | .running, .runnable | .running, .sleeping | .running, .zombie => a = .proc q
  | _, _ => False

/-- What is known of slot `q` when its lock is given back. -/
def Ctx.forget (a : Agent) (g : Ctx) (q : Slot) : Option ProcState :=
  (g.know q).filter fun st => Stable a q st

/-- The rules. -/
def rules (a : Agent) : Rules Cmd.Res Ctx
  | .acquire l, Q, g => Allowed a g.held l ∧ Q () { g with held := l :: g.held }
  | .release l, Q, g =>
    match l with
    | .proc q =>
      (a = .proc q → g.know q = some .running) ∧
        Q () ⟨g.held.erase l, update g.know q (g.forget a q)⟩
    | _ => Q () { g with held := g.held.erase l }
  | .initlock l, Q, g => l.isPage = true ∧ Q () g
  | .test q st, Q, g =>
    .proc q ∈ g.held ∧ st ≠ .used ∧ st ≠ .running ∧
      (g.know q = none ∨ g.know q = some st → Q true { g with know := update g.know q (some st) }) ∧
      Q false g
  | .set q st, Q, g =>
    .proc q ∈ g.held ∧ (∃ st₀, g.know q = some st₀ ∧ Changes a q st₀ st) ∧
      Q () { g with know := update g.know q (some st) }
  | .ask, Q, g => ∀ b, Q b g
  | .count, Q, g => ∀ n, Q n g
  | .start q, Q, g => a ≠ .proc q ∧ g.know q = some .used ∧ Q () g
  | .sched, Q, g =>
    ∃ p, a = .proc p ∧ g.held = [.proc p] ∧ (∃ st, g.know p = some st ∧ st ≠ .running) ∧
      Q () { g with know := update g.know p (some .running) }
  | .switchTo q, Q, g =>
    a.myproc = none ∧ g.held = [.proc q] ∧ g.know q = some .running ∧
      Q () { g with know := update g.know q none }
  | .panic, _, _ => True

theorem rules_mono (a : Agent) : Prog.Monotone (rules a) := by
  intro c Q Q' g hQ h
  cases c with
  | acquire l => exact ⟨h.1, hQ _ _ h.2⟩
  | release l =>
    cases l with
    | proc q => exact ⟨h.1, hQ _ _ h.2⟩
    | _ => exact hQ _ _ h
  | initlock l => exact ⟨h.1, hQ _ _ h.2⟩
  | test q st => exact ⟨h.1, h.2.1, h.2.2.1, fun hk => hQ _ _ (h.2.2.2.1 hk), hQ _ _ h.2.2.2.2⟩
  | set q st => exact ⟨h.1, h.2.1, hQ _ _ h.2.2⟩
  | ask => exact fun b => hQ _ _ (h b)
  | count => exact fun n => hQ _ _ (h n)
  | start q => exact ⟨h.1, h.2.1, hQ _ _ h.2.2⟩
  | sched =>
    obtain ⟨p, ha, hh, hk, hq⟩ := h
    exact ⟨p, ha, hh, hk, hQ _ _ hq⟩
  | switchTo q => exact ⟨h.1, h.2.1, h.2.2.1, hQ _ _ h.2.2.2⟩
  | panic => trivial

/-! ### The commands -/

section Commands

variable {a : Agent} {g : Ctx} {l : Lock} {q : Slot} {st : ProcState} {Q : Unit → Ctx → Prop} {held : List Lock}

theorem wp_acquire :
    (acquire l).wp (rules a) Q g ↔ Allowed a g.held l ∧ Q () { g with held := l :: g.held } := Iff.rfl

theorem wp_release_proc : (release (.proc q)).wp (rules a) Q g ↔
    (a = .proc q → g.know q = some .running) ∧
      Q () ⟨g.held.erase (.proc q), update g.know q (g.forget a q)⟩ := Iff.rfl

theorem wp_release (hl : ∀ q, l ≠ .proc q) :
    (release l).wp (rules a) Q g ↔ Q () { g with held := g.held.erase l } := by
  cases l with
  | proc q => exact absurd rfl (hl q)
  | _ => exact Iff.rfl

theorem wp_test {Q : Bool → Ctx → Prop} : (test q st).wp (rules a) Q g ↔
    .proc q ∈ g.held ∧ st ≠ .used ∧ st ≠ .running ∧
      (g.know q = none ∨ g.know q = some st → Q true { g with know := update g.know q (some st) }) ∧
      Q false g := Iff.rfl

theorem wp_set : (set q st).wp (rules a) Q g ↔
    .proc q ∈ g.held ∧ (∃ st₀, g.know q = some st₀ ∧ Changes a q st₀ st) ∧
      Q () { g with know := update g.know q (some st) } := Iff.rfl

theorem wp_ask {Q : Bool → Ctx → Prop} : ask.wp (rules a) Q g ↔ ∀ b, Q b g := Iff.rfl

theorem wp_count {Q : ℕ → Ctx → Prop} : count.wp (rules a) Q g ↔ ∀ n, Q n g := Iff.rfl

theorem wp_panic {α : Type} {Q : α → Ctx → Prop} : panic.wp (rules a) Q g := trivial

theorem wp_check (h : Q () g) : check.wp (rules a) Q g := by
  rw [check, wp_bind, wp_ask]
  intro b
  cases b with
  | true => exact wp_panic
  | false => exact h

theorem wp_release_head {know : Slot → Option ProcState}
    (hl : ∀ q, l ≠ .proc q) (h : Q () ⟨held, know⟩) : (release l).wp (rules a) Q ⟨l :: held, know⟩ := by
  rw [wp_release hl]
  simpa using h

theorem wp_release_slot {know : Slot → Option ProcState}
    (hself : a = .proc q → know q = some .running) {o : Option ProcState}
    (ho : (know q).filter (fun st => Stable a q st) = o) (h : Q () ⟨held, update know q o⟩) :
    (release (.proc q)).wp (rules a) Q ⟨.proc q :: held, know⟩ := by
  rw [wp_release_proc]
  refine ⟨hself, ?_⟩
  rw [List.erase_cons_head, Ctx.forget, ho]
  exact h

theorem wp_brief (hl : ∀ q, l ≠ .proc q) (hal : Allowed a g.held l) (h : Q () g) :
    (brief l).wp (rules a) Q g := by
  rw [brief, wp_bind, wp_acquire]
  exact ⟨hal, wp_release_head hl h⟩

theorem wp_forM_brief {ls : List Lock} (hl : ∀ l ∈ ls, ∀ q, l ≠ .proc q)
    (hal : ∀ l ∈ ls, Allowed a g.held l) (h : Q () g) : (forM ls brief : Code Unit).wp (rules a) Q g := by
  refine wp_mono (Q := fun _ g' => g' = g) (rules_mono a) (fun _ _ hg => hg ▸ h) ?_
  refine wp_forM (rules_mono a) (fun l hm g' hg' => ?_) rfl
  subst hg'
  exact wp_brief (hl l hm) (hal l hm) rfl

end Commands

/-! ### Memory and slots -/

section Slots

variable {a : Agent} {g : Ctx} {q : Slot}

/-- No lock is held that is taken last. -/
def NoInner (held : List Lock) : Prop := ∀ l ∈ held, l.inner = false ∧ l.isPage = false

variable {Q : Unit → Ctx → Prop} {p : Slot}

theorem wp_replicate_brief {l : Lock} {n : ℕ} (hl : l.inner = true)
    (hg : NoInner g.held) (h : Q () g) : (forM (List.replicate n l) brief : Code Unit).wp (rules a) Q g := by
  have hproc : ∀ q, l ≠ .proc q := by
    rintro q rfl
    cases hl
  have hal : Allowed a g.held l := by
    cases l with
    | pid | kmem | ftable | itable => exact hg
    | _ => cases hl
  exact wp_forM_brief (fun l' hm => List.eq_of_mem_replicate hm ▸ hproc)
    (fun l' hm => List.eq_of_mem_replicate hm ▸ hal) h

theorem wp_useMemory (hg : NoInner g.held) (h : Q () g) :
    useMemory.wp (rules a) Q g := by
  rw [useMemory, wp_bind, wp_count]
  exact fun n => wp_replicate_brief rfl hg h

theorem wp_freeproc {st : ProcState} (hg : NoInner g.held) (hq : .proc q ∈ g.held)
    (hk : g.know q = some st) (hst : Changes a q st .unused)
    (h : Q () { g with know := update g.know q (some .unused) }) : (freeproc q).wp (rules a) Q g := by
  rw [freeproc, wp_bind]
  refine wp_useMemory hg ?_
  rw [wp_set]
  exact ⟨hq, ⟨st, hk, hst⟩, h⟩

/-- What a running process knows: that it is running. -/
def selfKnow (p : Slot) : Slot → Option ProcState := update (fun _ => none) p (some .running)

@[simp] theorem selfKnow_self (p : Slot) : selfKnow p p = some .running := update_self ..

theorem selfKnow_of_ne (h : q ≠ p) : selfKnow p q = none := update_of_ne h ..

/-- What is left of what is known of another slot, or of oneself, when the lock is given back. -/
theorem filter_stable_used (h : a ≠ .proc q) :
    (some ProcState.used).filter (fun st => Stable a q st) = some .used := by simp [Stable, h]

theorem filter_stable_self (p : Slot) :
    (some ProcState.running).filter (fun st => Stable (.proc p) p st) = some .running := by simp [Stable]

theorem filter_stable_none {st : ProcState} (h₁ : st ≠ .used) (h₂ : st ≠ .running) :
    (some st).filter (fun st => Stable a q st) = none := by simp [Stable, h₁, h₂]

theorem wp_release_self {held : List Lock} {know : Slot → Option ProcState}
    (hk : know p = some .running) (h : Q () ⟨held, know⟩) :
    (release (.proc p)).wp (rules (.proc p)) Q ⟨.proc p :: held, know⟩ := by
  refine wp_release_slot (fun _ => hk) (o := some .running) (by rw [hk, filter_stable_self]) ?_
  rwa [← hk, update_eq_self]

theorem wp_release_other {held : List Lock} (h : Q () ⟨held, selfKnow p⟩) :
    (release (.proc q)).wp (rules (.proc p)) Q ⟨.proc q :: held, selfKnow p⟩ := by
  by_cases hqp : q = p
  · subst hqp
    exact wp_release_self (selfKnow_self _) h
  · refine wp_release_slot (fun h => absurd (Agent.proc.inj h).symm hqp) (o := none)
      (by rw [selfKnow_of_ne hqp]; rfl) ?_
    rw [← selfKnow_of_ne hqp, update_eq_self]
    exact h

/-- The child's slot: what the parent knows of it is what it has just made it. -/
theorem wp_allocprocFound (hqp : q ≠ p) {Q : Option Slot → Ctx → Prop} (hnone : Q none ⟨[], selfKnow p⟩)
    (hsome : Q (some q) ⟨[.proc q], update (selfKnow p) q (some .used)⟩) :
    (allocprocFound q).wp (rules (.proc p)) Q ⟨[.proc q], update (selfKnow p) q (some .unused)⟩ := by
  have hinner : NoInner [.proc q] := by
    intro l hl
    rw [List.mem_singleton.mp hl]
    exact ⟨rfl, rfl⟩
  rw [allocprocFound, wp_bind, allocpid]
  refine wp_brief (by simp) hinner ?_
  rw [wp_bind, wp_set]
  refine ⟨List.mem_singleton_self _, ⟨.unused, update_self .., trivial⟩, ?_⟩
  rw [wp_bind, update_idem]
  refine wp_useMemory hinner ?_
  rw [wp_bind, wp_ask]
  intro b
  cases b with
  | true => exact ⟨fun h => hqp (Agent.proc.inj h).symm, update_self .., hsome⟩
  | false =>
    refine wp_bind.mpr ?_
    refine wp_freeproc hinner (List.mem_singleton_self _) (update_self ..) trivial ?_
    rw [wp_bind, update_idem]
    refine wp_release_slot (fun h => absurd (Agent.proc.inj h).symm hqp) (o := none)
      (by rw [update_self, filter_stable_none (by simp) (by simp)]) ?_
    rw [update_idem, ← selfKnow_of_ne hqp, update_eq_self]
    exact hnone

theorem wp_allocprocFrom {qs : List Slot} {Q : Option Slot → Ctx → Prop} (hnone : Q none ⟨[], selfKnow p⟩)
    (hsome : ∀ q, q ≠ p → Q (some q) ⟨[.proc q], update (selfKnow p) q (some .used)⟩) :
    (allocprocFrom qs).wp (rules (.proc p)) Q ⟨[], selfKnow p⟩ := by
  induction qs with
  | nil => exact hnone
  | cons q qs ih =>
    rw [allocprocFrom, wp_bind, wp_acquire]
    refine ⟨fun l hl => absurd hl List.not_mem_nil, ?_⟩
    rw [wp_bind, wp_test]
    refine ⟨List.mem_singleton_self _, by simp, by simp, fun hk => ?_, ?_⟩
    · -- the process itself is not `UNUSED`
      have hqp : q ≠ p := by
        rintro rfl
        simp at hk
      exact wp_allocprocFound hqp hnone (hsome q hqp)
    · refine wp_bind.mpr ?_
      exact wp_release_other ih

end Slots

/-! ### Sleep and wakeup -/

section Sleep

variable {a : Agent} {g : Ctx}

/-- All that is known of other slots is known without their locks. -/
def OthersStable (a : Agent) (g : Ctx) : Prop := ∀ q st, a ≠ .proc q → g.know q = some st → Stable a q st

variable {p : Slot} {held : List Lock} {Q : Unit → Ctx → Prop} {know : Slot → Option ProcState}

theorem othersStable_selfKnow : OthersStable (.proc p) ⟨held, selfKnow p⟩ := by
  intro q st hq hk
  have hqp : q ≠ p := fun h => hq (h ▸ rfl)
  dsimp only at hk
  rw [selfKnow_of_ne hqp] at hk
  cases hk

theorem wp_wakeupOne {q : Slot} (hq : a ≠ .proc q) (ho : ∀ l ∈ g.held, l.outer = true)
    (hs : OthersStable a g) (h : Q () g) : (wakeupOne q).wp (rules a) Q g := by
  have hrel : ∀ o, (o = g.know q ∨ g.know q = none ∧ (o = some .sleeping ∨ o = some .runnable)) →
      (release (.proc q)).wp (rules a) Q ⟨.proc q :: g.held, update g.know q o⟩ := by
    intro o hcase
    refine wp_release_slot (fun h => absurd h hq) (o := g.know q) ?_ ?_
    · rw [update_self]
      rcases hcase with rfl | ⟨hk, rfl | rfl⟩
      · cases hk : g.know q with
        | none => rfl
        | some st => simp [hs q st hq hk]
      · rw [hk, filter_stable_none (by simp) (by simp)]
      · rw [hk, filter_stable_none (by simp) (by simp)]
    · rw [update_idem, update_eq_self]
      exact h
  rw [wakeupOne, wp_bind, wp_acquire]
  refine ⟨fun l hl => .inl (ho l hl), ?_⟩
  rw [wp_bind, wp_test]
  refine ⟨List.mem_cons_self, by simp, by simp, fun hk => ?_, ?_⟩
  · have hnone : g.know q = none := by
      rcases hk with hk | hk
      · exact hk
      · rcases hs q _ hq hk with ⟨h, -⟩ | ⟨h, -⟩ <;> cases h
    simp only [if_true]
    rw [wp_bind, wp_ask]
    intro b
    cases b with
    | true =>
      simp only [if_true]
      rw [wp_bind, wp_set]
      refine ⟨List.mem_cons_self, ⟨.sleeping, update_self .., trivial⟩, ?_⟩
      rw [update_idem]
      exact hrel _ (.inr ⟨hnone, .inr rfl⟩)
    | false => exact hrel _ (.inr ⟨hnone, .inl rfl⟩)
  · have := hrel _ (.inl rfl)
    rwa [update_eq_self] at this

theorem wp_wakeup (ho : ∀ l ∈ g.held, l.outer = true) (hs : OthersStable a g) (h : Q () g) :
    (wakeup a.myproc).wp (rules a) Q g := by
  refine wp_mono (Q := fun _ g' => g' = g) (rules_mono a) (fun _ _ hg => hg ▸ h) ?_
  refine wp_forM (rules_mono a) (fun q hq g' hg' => ?_) rfl
  subst hg'
  have hqa : a ≠ .proc q := by
    rintro rfl
    simp [Agent.myproc] at hq
  exact wp_wakeupOne hqa ho hs rfl

theorem wp_wakeupOn {c : ℕ} (hh : g.held = []) (hs : OthersStable a g) (h : Q () g) :
    (wakeupOn a.myproc c).wp (rules a) Q g := by
  rw [wakeupOn, wp_bind, wp_acquire, wp_bind]
  refine ⟨hh, wp_wakeup (fun l hl => ?_) hs ?_⟩
  · rw [hh] at hl
    rw [List.mem_singleton.mp hl]
    rfl
  · exact wp_release_head (by simp) h

/-- A process gives up the CPU under its own lock, and has it again when it goes on. -/
theorem wp_sched {st : ProcState} (hst : st ≠ .running) (hk : know p = some .running) (h : Q () ⟨[.proc p], know⟩) :
    sched.wp (rules (.proc p)) Q ⟨[.proc p], update know p (some st)⟩ := by
  refine ⟨p, rfl, rfl, ⟨st, update_self .., hst⟩, ?_⟩
  rw [update_idem, ← hk, update_eq_self]
  exact h

theorem wp_sleep {l : Lock} (hl : l.outer = true) (hk : know p = some .running) (h : Q () ⟨[l], know⟩) :
    (sleep p l).wp (rules (.proc p)) Q ⟨[l], know⟩ := by
  have hproc : ∀ q, l ≠ .proc q := by
    rintro q rfl
    cases hl
  have hne : ∀ q, (Lock.proc q == l) = false := fun q => beq_false_of_ne (hproc q).symm
  rw [sleep, wp_bind, wp_acquire]
  refine ⟨fun l' hl' => .inl (List.mem_singleton.mp hl' ▸ hl), ?_⟩
  rw [wp_bind, wp_release hproc, List.erase_cons_tail (by rw [hne]; simp), List.erase_cons_head, wp_bind, wp_set]
  refine ⟨List.mem_singleton_self _, ⟨.running, hk, rfl⟩, ?_⟩
  rw [wp_bind]
  refine wp_sched (by simp) hk ?_
  rw [wp_bind]
  refine wp_release_self hk ?_
  rw [wp_acquire]
  refine ⟨?_, h⟩
  cases l with
  | wait | chan _ => rfl
  | _ => cases hl

theorem wp_yield (hk : know p = some .running) (h : Q () ⟨[], know⟩) : (yield p).wp (rules (.proc p)) Q ⟨[], know⟩ := by
  rw [yield, wp_bind, wp_acquire]
  refine ⟨fun l hl => absurd hl List.not_mem_nil, ?_⟩
  rw [wp_bind, wp_set]
  refine ⟨List.mem_singleton_self _, ⟨.running, hk, rfl⟩, ?_⟩
  rw [wp_bind]
  exact wp_sched (by simp) hk (wp_release_self hk h)

theorem wp_killed {Q : Bool → Ctx → Prop}
    (ho : ∀ l ∈ held, l.outer = true) (hk : know p = some .running) (h : ∀ b, Q b ⟨held, know⟩) :
    (killed p).wp (rules (.proc p)) Q ⟨held, know⟩ := by
  rw [killed, brief, wp_bind, wp_bind, wp_acquire]
  exact ⟨fun l hl => .inl (ho l hl), wp_release_self hk h⟩

theorem wp_checkKilled {Q : Bool → Ctx → Prop}
    (ho : ∀ l ∈ held, l.outer = true) (hk : know p = some .running) (h : ∀ b, Q b ⟨held, know⟩) :
    (checkKilled p).wp (rules (.proc p)) Q ⟨held, know⟩ := by
  rw [checkKilled, wp_bind, wp_ask]
  intro b
  cases b with
  | true => exact wp_killed ho hk h
  | false => exact h false

end Sleep

/-! ### Processes -/

/-- What a thread holds and knows at a label. -/
def LabelOk : Agent → Label → Ctx → Prop
  | .proc p, .user, g => g = ⟨[], selfKnow p⟩
  | .proc p, .waitLoop, g => g = ⟨[.wait], selfKnow p⟩
  | .proc p, .sleepLoop c, g => g = ⟨[.chan c], selfKnow p⟩
  | .cpu _, .scheduler, g => g = ⟨[], fun _ => none⟩
  | _, _, _ => False

section Processes

variable {p : Slot} {q : Slot}

theorem allowed_slot : Allowed (.proc p) [] (.proc q) := fun _ hl => absurd hl List.not_mem_nil

theorem allowed_slot_outer {a : Agent} {l : Lock} (hl : l.outer = true) : Allowed a [l] (.proc q) := by
  intro l' hl'
  rw [List.mem_singleton.mp hl']
  exact .inl hl

theorem noInner_slot : NoInner [.proc q] := by
  intro l hl
  rw [List.mem_singleton.mp hl]
  exact ⟨rfl, rfl⟩

/-- `fork` gives the child free: it knows nothing of it any more. -/
theorem wp_release_child {st : ProcState} {Q : Unit → Ctx → Prop} {held : List Lock} (hqp : q ≠ p)
    (h₁ : st ≠ .used) (h₂ : st ≠ .running) (h : Q () ⟨held, selfKnow p⟩) :
    (release (.proc q)).wp (rules (.proc p)) Q ⟨.proc q :: held, update (selfKnow p) q (some st)⟩ := by
  refine wp_release_slot (fun h => absurd (Agent.proc.inj h).symm hqp) (o := none)
    (by rw [update_self, filter_stable_none h₁ h₂]) ?_
  rw [update_idem, ← selfKnow_of_ne hqp, update_eq_self]
  exact h

theorem fork_spec : fork.wp (rules (.proc p)) (LabelOk (.proc p)) ⟨[], selfKnow p⟩ := by
  rw [fork, wp_bind]
  refine wp_allocprocFrom rfl fun np hnp => ?_
  have hself : update (selfKnow p) np (some .used) np = some .used := update_self ..
  dsimp only
  rw [wp_bind]
  refine wp_useMemory noInner_slot ?_
  rw [wp_bind, wp_ask]
  intro b
  cases b with
  | true =>
    simp only [if_true]
    rw [wp_bind, wp_count]
    intro n
    rw [wp_bind]
    refine wp_replicate_brief rfl noInner_slot ?_
    rw [wp_bind]
    refine wp_brief (by simp) noInner_slot ?_
    -- the child stays `USED` without its lock, as only the parent changes that
    rw [wp_bind]
    refine wp_release_slot (fun h => absurd (Agent.proc.inj h).symm hnp) (o := some .used)
      (by rw [hself, filter_stable_used fun h => hnp (Agent.proc.inj h).symm]) ?_
    rw [update_idem, wp_bind]
    refine wp_brief (by simp) rfl ?_
    rw [wp_bind, wp_acquire]
    refine ⟨allowed_slot, ?_⟩
    rw [wp_bind, wp_set]
    refine ⟨List.mem_singleton_self _, ⟨.used, hself, trivial⟩, ?_⟩
    rw [update_idem, wp_bind]
    exact wp_release_child hnp (by simp) (by simp) rfl
  | false =>
    refine wp_bind.mpr ?_
    refine wp_freeproc noInner_slot (List.mem_singleton_self _) hself trivial ?_
    rw [update_idem, wp_bind]
    exact wp_release_child hnp (by simp) (by simp) rfl

theorem reparent_spec {Q : Unit → Ctx → Prop} (h : Q () ⟨[.wait], selfKnow p⟩) :
    (reparent p).wp (rules (.proc p)) Q ⟨[.wait], selfKnow p⟩ := by
  refine wp_mono (Q := fun _ g' => g' = ⟨[.wait], selfKnow p⟩) (rules_mono _) (fun _ _ hg => hg ▸ h) ?_
  refine wp_forM (rules_mono _) (fun q _ g' hg' => ?_) rfl
  subst hg'
  rw [wp_bind, wp_ask]
  intro b
  cases b with
  | true =>
    refine wp_wakeup (a := .proc p) (fun l hl => ?_) othersStable_selfKnow rfl
    rw [List.mem_singleton.mp hl]
    rfl
  | false => exact rfl

/-- `exit` holds `wait_lock` while it has its own lock and takes the locks of the pages. -/
theorem exit_spec : (exit p).wp (rules (.proc p)) (LabelOk (.proc p)) ⟨[], selfKnow p⟩ := by
  rw [exit]
  split_ifs
  · exact wp_panic
  · rw [wp_bind, wp_acquire]
    refine ⟨rfl, ?_⟩
    rw [wp_bind]
    refine reparent_spec ?_
    rw [wp_bind]
    refine wp_wakeup (a := .proc p) (fun l hl => ?_) othersStable_selfKnow ?_
    · rw [List.mem_singleton.mp hl]
      rfl
    · rw [wp_bind, wp_acquire]
      refine ⟨allowed_slot_outer rfl, ?_⟩
      rw [wp_bind]
      refine wp_forM_brief (by simp) (fun l hl => ?_) ?_
      · obtain ⟨i, -, rfl⟩ := List.mem_map.mp hl
        intro l' hl'
        rcases List.mem_cons.mp hl' with rfl | hl'
        · exact .inr ⟨by simp, p, rfl, rfl⟩
        · exact .inl (List.mem_singleton.mp hl')
      · rw [wp_bind, wp_set]
        refine ⟨List.mem_cons_self, ⟨.running, selfKnow_self p, rfl⟩, ?_⟩
        rw [wp_bind, wp_release (by simp)]
        rw [wp_bind]
        exact wp_sched (by simp) (selfKnow_self p) wp_panic

theorem waitScan_spec {pps : List Slot} {b : Bool} {Q : Option Bool → Ctx → Prop}
    (hsome : ∀ b, Q (some b) ⟨[.wait], selfKnow p⟩) (hnone : Q none ⟨[], selfKnow p⟩) :
    (waitScan pps b).wp (rules (.proc p)) Q ⟨[.wait], selfKnow p⟩ := by
  induction pps generalizing b with
  | nil => exact hsome b
  | cons pp pps ih =>
    rw [waitScan, wp_bind, wp_ask]
    intro child
    cases child with
    | false => exact ih
    | true =>
      simp only [if_true]
      rw [wp_bind, wp_acquire]
      refine ⟨allowed_slot_outer rfl, ?_⟩
      rw [wp_bind, wp_test]
      refine ⟨List.mem_cons_self, by simp, by simp, fun hk => ?_, ?_⟩
      · have hne : pp ≠ p := by
          rintro rfl
          simp at hk
        have hinner : NoInner [.proc pp, .wait] := by
          intro l hl
          rcases List.mem_cons.mp hl with rfl | hl
          · exact ⟨rfl, rfl⟩
          · rw [List.mem_singleton.mp hl]
            exact ⟨rfl, rfl⟩
        simp only [if_true]
        rw [wp_bind, wp_ask]
        intro copied
        cases copied with
        | true =>
          refine wp_bind.mpr ?_
          refine wp_freeproc hinner List.mem_cons_self (update_self ..) trivial ?_
          rw [update_idem, wp_bind]
          refine wp_release_child hne (by simp) (by simp) ?_
          rw [wp_bind]
          exact wp_release_head (by simp) hnone
        | false =>
          refine wp_bind.mpr ?_
          refine wp_release_child hne (by simp) (by simp) ?_
          rw [wp_bind]
          exact wp_release_head (by simp) hnone
      · refine wp_bind.mpr ?_
        exact wp_release_other ih

theorem waitLoop_spec : (waitLoop p).wp (rules (.proc p)) (LabelOk (.proc p)) ⟨[.wait], selfKnow p⟩ := by
  rw [waitLoop, wp_bind]
  refine waitScan_spec (fun havekids => ?_) rfl
  cases havekids with
  | false =>
    dsimp only
    rw [wp_bind]
    exact wp_release_head (by simp) rfl
  | true =>
    dsimp only
    rw [wp_bind]
    refine wp_killed (fun l hl => by rw [List.mem_singleton.mp hl]; rfl) (selfKnow_self p) fun b => ?_
    cases b with
    | true =>
      refine wp_bind.mpr ?_
      exact wp_release_head (by simp) rfl
    | false =>
      refine wp_bind.mpr ?_
      exact wp_sleep rfl (selfKnow_self p) rfl

theorem sleepLoop_spec {c : ℕ} :
    (sleepLoop p c).wp (rules (.proc p)) (LabelOk (.proc p)) ⟨[.chan c], selfKnow p⟩ := by
  rw [sleepLoop, wp_bind, wp_ask]
  intro done
  cases done with
  | true =>
    refine wp_bind.mpr ?_
    exact wp_release_head (by simp) rfl
  | false =>
    refine wp_bind.mpr ?_
    refine wp_checkKilled (fun l hl => by rw [List.mem_singleton.mp hl]; rfl) (selfKnow_self p) fun b => ?_
    cases b with
    | true =>
      refine wp_bind.mpr ?_
      exact wp_release_head (by simp) rfl
    | false =>
      refine wp_bind.mpr ?_
      exact wp_sleep rfl (selfKnow_self p) rfl

theorem kill_spec {qs : List Slot} : (kill qs).wp (rules (.proc p)) (LabelOk (.proc p)) ⟨[], selfKnow p⟩ := by
  induction qs with
  | nil => exact rfl
  | cons q qs ih =>
    rw [kill, wp_bind, wp_acquire]
    refine ⟨allowed_slot, ?_⟩
    rw [wp_bind, wp_ask]
    intro found
    cases found with
    | true =>
      simp only [if_true]
      rw [wp_bind, wp_test]
      refine ⟨List.mem_singleton_self _, by simp, by simp, fun hk => ?_, wp_release_other rfl⟩
      have hne : q ≠ p := by
        rintro rfl
        simp at hk
      simp only [if_true]
      rw [wp_bind, wp_set]
      refine ⟨List.mem_singleton_self _, ⟨.sleeping, update_self .., trivial⟩, ?_⟩
      rw [update_idem, wp_bind]
      exact wp_release_child hne (by simp) (by simp) rfl
    | false => exact wp_release_other ih

end Processes

/-- The scheduler hands the lock of the process over, and has it again when the process comes back. -/
theorem wp_scheduleOne {c : Fin NCPU} {q : Slot} {Q : Unit → Ctx → Prop} (h : Q () ⟨[], fun _ => none⟩) :
    (scheduleOne q).wp (rules (.cpu c)) Q ⟨[], fun _ => none⟩ := by
  have hrel : (release (.proc q)).wp (rules (.cpu c)) Q ⟨[.proc q], fun _ => none⟩ := by
    refine wp_release_slot (fun h => by cases h) (o := none) rfl ?_
    rwa [Function.update_eq_self_iff.mpr rfl]
  rw [scheduleOne, wp_bind, wp_acquire]
  refine ⟨fun l hl => absurd hl List.not_mem_nil, ?_⟩
  rw [wp_bind, wp_test]
  refine ⟨List.mem_singleton_self _, by simp, by simp, fun _ => ?_, hrel⟩
  simp only [if_true]
  rw [wp_bind, wp_set]
  refine ⟨List.mem_singleton_self _, ⟨.runnable, by simp, rfl⟩, ?_⟩
  rw [update_idem, wp_bind]
  refine ⟨rfl, rfl, by simp, ?_⟩
  rw [update_idem, Function.update_eq_self_iff.mpr rfl]
  exact hrel

theorem scheduler_spec {c : Fin NCPU} :
    scheduler.wp (rules (.cpu c)) (LabelOk (.cpu c)) ⟨[], fun _ => none⟩ := by
  rw [scheduler, wp_bind]
  refine wp_mono (Q := fun _ g => g = ⟨[], fun _ => none⟩) (rules_mono _) (fun _ g hg => hg) ?_
  refine wp_forM (rules_mono _) (fun q _ g hg => ?_) rfl
  subst hg
  exact wp_scheduleOne rfl

theorem forkret_spec {p : Slot} :
    (forkret p).wp (rules (.proc p)) (LabelOk (.proc p)) ⟨[.proc p], selfKnow p⟩ := by
  rw [forkret, wp_bind]
  exact wp_release_self (selfKnow_self p) rfl

/-! ### Shared pages -/

section Pages

variable {p : Slot} {i : PageNo}

theorem allowed_state : Allowed (.proc p) [] (.state i) := fun _ hl => absurd hl List.not_mem_nil

theorem allowed_self_state : Allowed (.proc p) [.state i] (.proc p) :=
  fun _ hl => .inr ⟨rfl, i, List.mem_singleton.mp hl⟩

theorem wp_own {Q : Label → Ctx → Prop} {held : List Lock} {x : Code Label}
    (hal : Allowed (.proc p) held (.proc p)) (h : x.wp (rules (.proc p)) Q ⟨held, selfKnow p⟩) :
    (do acquire (.proc p); check; release (.proc p); x : Code Label).wp (rules (.proc p)) Q ⟨held, selfKnow p⟩ := by
  rw [wp_bind, wp_acquire]
  refine ⟨hal, ?_⟩
  rw [wp_bind]
  refine wp_check ?_
  rw [wp_bind]
  exact wp_release_self (selfKnow_self p) h

theorem wp_release_state : (do release (.state i); return .user : Code Label).wp (rules (.proc p)) (LabelOk (.proc p))
    ⟨[.state i], selfKnow p⟩ := by
  rw [wp_bind]
  exact wp_release_head (by simp) rfl

theorem shmemSet_spec {w : Bool} :
    (shmemSet w p i).wp (rules (.proc p)) (LabelOk (.proc p)) ⟨[], selfKnow p⟩ := by
  rw [shmemSet, wp_bind, wp_acquire]
  refine ⟨allowed_state, ?_⟩
  rw [wp_bind]
  refine wp_check (wp_own allowed_self_state ?_)
  cases w with
  | true => exact ⟨rfl, wp_release_state⟩
  | false => exact wp_release_state

/-- `shmem_set_init_int` and `shmem_release_access` take the same locks. -/
theorem shmemSetInitInt_spec :
    (shmemSetInitInt p i).wp (rules (.proc p)) (LabelOk (.proc p)) ⟨[], selfKnow p⟩ := by
  rw [shmemSetInitInt, wp_bind, wp_acquire]
  refine ⟨allowed_state, ?_⟩
  rw [wp_bind]
  exact wp_check (wp_own allowed_self_state wp_release_state)

theorem shmemAcquireAccess_spec :
    (shmemAcquireAccess p i).wp (rules (.proc p)) (LabelOk (.proc p)) ⟨[], selfKnow p⟩ := by
  rw [shmemAcquireAccess, wp_bind, wp_acquire]
  refine ⟨allowed_state, ?_⟩
  rw [wp_bind, wp_ask]
  intro unset
  cases unset with
  | true => exact wp_release_state
  | false => exact wp_own allowed_self_state wp_release_state

theorem wp_page {Q : Label → Ctx → Prop} (h : Q .user ⟨[], selfKnow p⟩) :
    (do brief (.page i); return .user : Code Label).wp (rules (.proc p)) Q ⟨[], selfKnow p⟩ := by
  rw [wp_bind]
  exact wp_brief (by simp) rfl h

theorem shmemWriteInt_spec :
    (shmemWriteInt p i).wp (rules (.proc p)) (LabelOk (.proc p)) ⟨[], selfKnow p⟩ := by
  rw [shmemWriteInt, wp_bind]
  exact wp_check (wp_own allowed_slot (wp_page rfl))

theorem shmemReadInt_spec :
    (shmemReadInt i).wp (rules (.proc p)) (LabelOk (.proc p)) ⟨[], selfKnow p⟩ := by
  rw [shmemReadInt, wp_bind]
  refine wp_check ?_
  rw [wp_bind, wp_ask]
  intro unwritable
  cases unwritable with
  | true => exact rfl
  | false =>
    refine wp_bind.mpr ?_
    exact wp_check (wp_page rfl)

theorem getShmemAccess_spec :
    (getShmemAccess p).wp (rules (.proc p)) (LabelOk (.proc p)) ⟨[], selfKnow p⟩ := by
  rw [getShmemAccess, wp_bind]
  refine wp_check ?_
  rw [wp_bind, wp_acquire]
  refine ⟨allowed_slot, ?_⟩
  rw [wp_bind]
  refine wp_useMemory noInner_slot ?_
  rw [wp_bind]
  exact wp_release_self (selfKnow_self p) rfl

end Pages

/-- **Every call keeps to the discipline**. -/
theorem call_spec {p : Slot} (call : Call) :
    (call.code p).wp (rules (.proc p)) (LabelOk (.proc p)) ⟨[], selfKnow p⟩ := by
  cases call with
  | fork => exact fork_spec
  | exit => exact exit_spec
  | wait => exact ⟨rfl, rfl⟩
  | kill => exact kill_spec
  | killed =>
    rw [Call.code, wp_bind]
    exact wp_killed (fun l hl => absurd hl List.not_mem_nil) (selfKnow_self p) fun _ => rfl
  | shmemSet w i => exact shmemSet_spec
  | shmemSetInitInt i => exact shmemSetInitInt_spec
  | shmemWriteInt i => exact shmemWriteInt_spec
  | shmemReadInt i => exact shmemReadInt_spec
  | shmemAcquireAccess i => exact shmemAcquireAccess_spec
  | shmemReleaseAccess i => exact shmemSetInitInt_spec
  | shmemAccess i => exact getShmemAccess_spec
  | memory =>
    rw [Call.code, wp_bind]
    exact wp_useMemory (fun l hl => absurd hl List.not_mem_nil) rfl
  | sleepOn c => exact ⟨rfl, rfl⟩
  | wakeupOn c =>
    rw [Call.code, wp_bind]
    exact wp_wakeupOn (a := .proc p) rfl othersStable_selfKnow rfl

/-- **Every loop keeps to the discipline**, from its label. -/
theorem label_spec {a : Agent} {l : Label} {x : Code Label} {g : Ctx} (hx : l.code a = some x) (hg : LabelOk a l g) :
    x.wp (rules a) (LabelOk a) g := by
  cases a with
  | proc p =>
    cases l with
    | waitLoop =>
      cases hx
      rw [show g = _ from hg]
      exact waitLoop_spec
    | sleepLoop c =>
      cases hx
      rw [show g = _ from hg]
      exact sleepLoop_spec
    | user | scheduler => cases hx
  | cpu c =>
    cases l with
    | scheduler =>
      cases hx
      rw [show g = _ from hg]
      exact scheduler_spec
    | user | waitLoop | sleepLoop => cases hx

end Xv6Shmem.Locking
