import Xv6Shmem.Theory.Runs
import Xv6Shmem.Theory.Tally

/-!
# The nesting of interrupts

`push_off`, `pop_off`, `acquire` and `release` of `kernel/spinlock.c` and `sched` of `kernel/proc.c`, on any number of CPUs.

## The model

A CPU runs its scheduler or the kernel thread of a process. `acquire` is two steps, between which the CPU spins. The
switch to a process has in it what `sched` does after `swtch`, for interrupts are off there. Otherwise the interrupt flag
of a CPU may change only while its `noff` is zero: by `intr_on` and `intr_off`, or when a trap comes or returns. That no
two CPUs run one process is what `p->state` is for, and is put into the switch. A call that panics is no step.

Beside the state are kept the calls of `push_off` and the flag that each thread found at its outermost one.
-/

namespace Xv6Shmem.Interrupts

open Function (update update_self update_of_ne)
open LTS Tally

/-- Of `struct cpu`, with the interrupt flag. -/
structure Cpu where
  noff : ℕ
  intena : Bool
  intr : Bool

/-- `push_off`. -/
def pushOff (k : Cpu) : Cpu := ⟨k.noff + 1, if k.noff = 0 then k.intr else k.intena, false⟩

/-- `pop_off`. -/
def popOff (k : Cpu) : Option Cpu :=
  if k.intr then none
  else if k.noff < 1 then none
  else
    let k := { k with noff := k.noff - 1 }
    some (if k.noff = 0 ∧ k.intena then { k with intr := true } else k)

/-- The CPUs, the processes and the spinlocks. -/
structure State (C P L : Type) where
  cpu : C → Cpu
  /-- The process that a CPU runs, if it does not run the scheduler. -/
  running : C → Option P
  /-- The CPU that has the lock: `lk->locked` and `lk->cpu`. -/
  holder : L → Option C
  /-- The lock that the CPU spins for. -/
  spin : C → Option L
  /-- `intena` of `sched`, for a thread that has called it. -/
  saved : P → Option Bool
  /-- The calls of `push_off` on the CPU, less those of `pop_off`, other than for locks that it has. -/
  bare : C → ℤ
  /-- The interrupt flag that the thread found at its last call of `push_off` with `noff` zero. -/
  outer : P → Option Bool

/-- What happens on a CPU. -/
inductive Act (C P L : Type) where
  | pushOff (c : C)
  | popOff (c : C)
  | acquire (c : C) (l : L)
  | take (c : C) (l : L)
  | release (c : C) (l : L)
  | sched (c : C)
  | switchTo (c : C) (p : P)
  | setIntr (c : C) (b : Bool)

section Machine

variable {C P L : Type} [DecidableEq C] [DecidableEq P] [DecidableEq L] [Fintype C] [Fintype L]

/-- The thread on a CPU calls `push_off`. -/
def State.push (s : State C P L) (c : C) : State C P L :=
  { s with
    cpu := update s.cpu c (pushOff (s.cpu c))
    bare := update s.bare c (s.bare c + 1)
    outer := fun p => if s.running c = some p ∧ (s.cpu c).noff = 0 then some (s.cpu c).intr else s.outer p }

/-- A step of a CPU, where the lock of a process is `plock`. -/
def step (plock : P → L) (s : State C P L) : Act C P L → Option (State C P L)
  | .pushOff c => if s.spin c = none then some (s.push c) else none
  | .popOff c =>
    if s.spin c = none then
      (popOff (s.cpu c)).map fun k => { s with cpu := update s.cpu c k, bare := update s.bare c (s.bare c - 1) }
    else none
  | .acquire c l =>
    if s.spin c = none ∧ s.holder l ≠ some c then some { s.push c with spin := update s.spin c (some l) } else none
  | .take c l =>
    if s.spin c = some l ∧ s.holder l = none then
      some { s with
        spin := update s.spin c none
        holder := update s.holder l (some c)
        bare := update s.bare c (s.bare c - 1) }
    else none
  | .release c l =>
    if s.spin c = none ∧ s.holder l = some c then
      (popOff (s.cpu c)).map fun k => { s with holder := update s.holder l none, cpu := update s.cpu c k }
    else none
  | .sched c =>
    match s.running c with
    | none => none
    | some p =>
      if s.spin c = none ∧ s.holder (plock p) = some c ∧ (s.cpu c).noff = 1 ∧ (s.cpu c).intr = false then
        some { s with
          saved := update s.saved p (some (s.cpu c).intena)
          running := update s.running c none }
      else none
  | .switchTo c p =>
    if s.running c = none ∧ s.spin c = none ∧ s.holder (plock p) = some c ∧ ∀ d, s.running d ≠ some p then
      some { s with
        running := update s.running c (some p)
        cpu := update s.cpu c { s.cpu c with intena := (s.saved p).getD (s.cpu c).intena } }
    else none
  | .setIntr c b =>
    if (s.cpu c).noff = 0 then some { s with cpu := update s.cpu c { s.cpu c with intr := b } } else none

/-- **The machine**: from a state with all locks free, every CPU in its scheduler, and any interrupt flags. -/
def machine (plock : P → L) : LTS (State C P L) (Act C P L) where
  init := fun s => (∀ c, (s.cpu c).noff = 0 ∧ s.running c = none ∧ s.spin c = none ∧ s.bare c = 0) ∧
    (∀ l, s.holder l = none) ∧ ∀ p, s.saved p = none ∧ s.outer p = none
  step := fun s a t => step plock s a = some t

/-- How many locks a CPU has. -/
def held (holder : L → Option C) (c : C) : ℕ := tally fun l => decide (holder l = some c)

/-- A CPU is in order, where `n` calls of `push_off` are to be matched and its thread found the flag `o` at the outermost. -/
structure Cpu.Ok (k : Cpu) (n : ℤ) (o : Option Bool) : Prop where
  off : 0 < k.noff → k.intr = false
  count : (k.noff : ℤ) = n
  outer : 0 < k.noff → ∀ b, o = some b → k.intena = b

/-- The CPUs are in order, no two run one process, and `sched` has saved the flag of a thread that does not run. -/
structure Sound (s : State C P L) : Prop where
  cpus : ∀ c, (s.cpu c).Ok (s.bare c + held s.holder c) ((s.running c).bind s.outer)
  once : ∀ c d p, s.running c = some p → s.running d = some p → c = d
  away : ∀ p b, (∀ c, s.running c ≠ some p) → s.outer p = some b → s.saved p = some b

section Step

variable {plock : P → L} {s t : State C P L} {c : C} {k k' : Cpu} {n : ℤ} {o o' : Option Bool}

theorem Cpu.Ok.push (h : k.Ok n o) (ho : ∀ b, o' = some b → if k.noff = 0 then k.intr = b else o = some b) :
    (pushOff k).Ok (n + 1) o' where
  off _ := rfl
  count := by
    rw [← h.count]
    exact Int.natCast_succ _
  outer _ b hb := by
    have hb' := ho b hb
    simp only [pushOff]
    split_ifs at hb' ⊢ with h0
    · exact hb'
    · exact h.outer (Nat.pos_of_ne_zero h0) b hb'

/-- The last `pop_off` gives the flag back that was found at the outermost `push_off`. -/
theorem Cpu.Ok.pop (h : k.Ok n o) (hk : popOff k = some k') :
    k'.Ok (n - 1) o ∧ (k.noff = 1 → ∀ b, o = some b → k'.noff = 0 ∧ k'.intr = b) := by
  have hc := h.count
  unfold popOff at hk
  split_ifs at hk with h1 h2
  have hpos : 0 < k.noff := by omega
  cases hk
  split_ifs with h3
  · refine ⟨⟨fun h0 => absurd h3.1 h0.ne', ?_, fun h0 => absurd h3.1 h0.ne'⟩, fun _ b hb => ?_⟩
    · push_cast [hpos]
      omega
    · exact ⟨h3.1, h3.2.symm.trans (h.outer hpos b hb)⟩
  · refine ⟨⟨fun _ => h.off hpos, ?_, fun _ => h.outer hpos⟩, fun h4 b hb => ?_⟩
    · push_cast [hpos]
      omega
    · have h5 := h.outer hpos b hb
      subst h5
      simp_all

omit [Fintype C] in
theorem held_update (holder : L → Option C) (l : L) (o : Option C) (c : C) :
    held (update holder l o) c + (decide (holder l = some c)).toNat = held holder c + (decide (o = some c)).toNat := by
  have h := tally_change (f := fun j => decide (holder j = some c)) (g := fun j => decide (update holder l o j = some c))
    (p := l) fun j hj => by simp [hj]
  simp only [update_self] at h
  exact h

omit [DecidableEq P] [DecidableEq L] [Fintype C] in
theorem Sound.onCpu (h : Sound s) (c : C)
    (hd : ∀ d, d ≠ c → t.cpu d = s.cpu d ∧ t.bare d + held t.holder d = s.bare d + held s.holder d ∧
      (t.running d).bind t.outer = (s.running d).bind s.outer)
    (hc : (t.cpu c).Ok (t.bare c + held t.holder c) ((t.running c).bind t.outer))
    (honce : ∀ c d p, t.running c = some p → t.running d = some p → c = d)
    (haway : ∀ p b, (∀ c, t.running c ≠ some p) → t.outer p = some b → t.saved p = some b) : Sound t := by
  refine ⟨fun d => ?_, honce, haway⟩
  by_cases he : d = c
  · rwa [he]
  · obtain ⟨h1, h2, h3⟩ := hd d he
    rw [h1, h2, h3]
    exact h.cpus d

omit [DecidableEq L] [Fintype C] in
theorem Sound.push (h : Sound s) (c : C) : Sound (s.push c) := by
  refine h.onCpu c (fun d hd => ⟨update_of_ne hd .., ?_, ?_⟩) ?_ h.once fun p b hr hb => ?_
  · simp [State.push, hd]
  · cases hr : s.running d with
    | none => simp [State.push, hr]
    | some p =>
      have hne : s.running c ≠ some p := fun hc => hd (h.once d c p hr hc)
      simp [State.push, hr, hne]
  · simp only [State.push, update_self]
    rw [add_right_comm]
    refine (h.cpus c).push fun b hb => ?_
    obtain ⟨p, hp, hb⟩ := Option.bind_eq_some_iff.mp hb
    rw [hp, Option.bind_some]
    simp only [hp, true_and] at hb
    split_ifs at hb ⊢
    · exact Option.some.inj hb
    · exact hb
  · have hne : s.running c ≠ some p := hr c
    exact h.away p b hr ((if_neg fun hc => hne hc.1).symm.trans hb)

/-- **Every step** keeps it. -/
theorem Sound.step {a : Act C P L} (h : Sound s) (hs : step plock s a = some t) : Sound t := by
  cases a with
  | pushOff c =>
    obtain ⟨-, hs⟩ := Option.ite_none_right_eq_some.mp hs
    cases hs
    exact h.push c
  | popOff c =>
    obtain ⟨-, hs⟩ := Option.ite_none_right_eq_some.mp hs
    obtain ⟨k, hk, rfl⟩ := Option.map_eq_some_iff.mp hs
    refine h.onCpu c (fun d hd => ⟨update_of_ne hd .., by simp [hd], rfl⟩) ?_ h.once h.away
    simp only [update_self]
    rw [sub_add_eq_add_sub]
    exact ((h.cpus c).pop hk).1
  | acquire c l =>
    obtain ⟨-, hs⟩ := Option.ite_none_right_eq_some.mp hs
    cases hs
    exact ⟨(h.push c).cpus, (h.push c).once, (h.push c).away⟩
  | take c l =>
    obtain ⟨⟨-, hl⟩, hs⟩ := Option.ite_none_right_eq_some.mp hs
    cases hs
    have hheld := held_update s.holder l (some c)
    simp only [hl] at hheld
    refine h.onCpu c (fun d hd => ⟨rfl, ?_, rfl⟩) ?_ h.once h.away
    · have := hheld d
      simp only [update_of_ne hd]
      simp [Ne.symm hd] at this
      omega
    · have := hheld c
      simp at this
      simp only [update_self, this]
      push_cast
      rw [sub_add_add_cancel]
      exact h.cpus c
  | release c l =>
    obtain ⟨⟨-, hl⟩, hs⟩ := Option.ite_none_right_eq_some.mp hs
    obtain ⟨k, hk, rfl⟩ := Option.map_eq_some_iff.mp hs
    have hheld := held_update s.holder l none
    simp only [hl] at hheld
    refine h.onCpu c (fun d hd => ⟨update_of_ne hd .., ?_, rfl⟩) ?_ h.once h.away
    · have := hheld d
      simp [Ne.symm hd] at this
      rw [this]
    · have := hheld c
      simp at this
      simp only [update_self]
      convert ((h.cpus c).pop hk).1 using 1
      omega
  | sched c =>
    rw [Interrupts.step] at hs
    split at hs
    · cases hs
    rename_i p hp
    obtain ⟨⟨-, -, h1, -⟩, hs⟩ := Option.ite_none_right_eq_some.mp hs
    cases hs
    refine h.onCpu c (fun d hd => ⟨rfl, rfl, by simp [hd]⟩) ?_ (fun d e q hd he => ?_) fun q b hq hb => ?_
    · have hc := h.cpus c
      exact ⟨hc.off, hc.count, by simp⟩
    · by_cases hdc : d = c <;> by_cases hec : e = c <;> simp_all
      exact h.once d e q hd he
    · by_cases hqp : q = p
      · subst hqp
        simp only [update_self]
        rw [(h.cpus c).outer (by omega) b (by rw [hp]; exact hb)]
      · simp only [update_of_ne hqp]
        refine h.away q b (fun d hd => hq d ?_) hb
        have hdc : d ≠ c := by
          rintro rfl
          exact hqp (Option.some.inj (hd.symm.trans hp))
        simpa [hdc] using hd
  | switchTo c p =>
    obtain ⟨⟨h1, -, -, h2⟩, hs⟩ := Option.ite_none_right_eq_some.mp hs
    cases hs
    refine h.onCpu c (fun d hd => ⟨update_of_ne hd .., rfl, by simp [hd]⟩) ?_ (fun d e q hd he => ?_) fun q b hq hb => ?_
    · have hc := h.cpus c
      simp only [update_self]
      refine ⟨hc.off, hc.count, fun _ b hb => ?_⟩
      dsimp only
      rw [h.away p b h2 hb, Option.getD_some]
    · by_cases hdc : d = c <;> by_cases hec : e = c <;> simp_all
      exact h.once d e q hd he
    · refine h.away q b (fun d hd => hq d ?_) hb
      have hdc : d ≠ c := by
        rintro rfl
        rw [h1] at hd
        cases hd
      simpa [hdc] using hd
  | setIntr c b =>
    obtain ⟨h0, hs⟩ := Option.ite_none_right_eq_some.mp hs
    cases hs
    refine h.onCpu c (fun d hd => ⟨update_of_ne hd .., rfl, rfl⟩) ?_ h.once h.away
    simp only [update_self]
    exact ⟨fun hpos => absurd h0 hpos.ne', (h.cpus c).count, fun hpos => absurd h0 hpos.ne'⟩

end Step

/-- **Interrupts nest**. On any number of CPUs, in every state that is reached: interrupts are off on a CPU whose `noff` is
above zero; `noff` is the number of calls of `push_off` that are not matched, with one for each lock that the CPU has; and
when the thread of a process brings it to zero, by `pop_off` or `release`, the interrupt flag is what the thread found at
its outermost `push_off`, on whatever CPU that was. -/
theorem interrupts_nest {plock : P → L} {s : State C P L} (h : (machine plock).Reachable s) :
    (∀ c, 0 < (s.cpu c).noff → (s.cpu c).intr = false) ∧
    (∀ c, ((s.cpu c).noff : ℤ) = s.bare c + held s.holder c) ∧
    ∀ c p b a t, s.running c = some p → s.outer p = some b → (s.cpu c).noff = 1 → (a = .popOff c ∨ ∃ l, a = .release c l) →
      step plock s a = some t → (t.cpu c).noff = 0 ∧ (t.cpu c).intr = b := by
  have hs : Sound s := by
    refine h.invariant (fun s hs => ?_) fun _ _ _ _ hi hstep => hi.step hstep
    obtain ⟨hc, hl, hp⟩ := hs
    refine ⟨fun c => ?_, fun c d p hr => ?_, fun p b _ hb => ?_⟩
    · have hheld : held s.holder c = 0 := by
        rw [held, tally_eq_zero_iff]
        simp [hl]
      constructor <;> simp [hc c, hheld]
    · rw [(hc c).2.1] at hr
      cases hr
    · rw [(hp p).2] at hb
      cases hb
  refine ⟨fun c => (hs.cpus c).off, fun c => (hs.cpus c).count, fun c p b a t hr ho h1 ha hst => ?_⟩
  have hk : ∃ k, popOff (s.cpu c) = some k ∧ t.cpu c = k := by
    obtain rfl | ⟨l, rfl⟩ := ha <;> obtain ⟨-, hst⟩ := Option.ite_none_right_eq_some.mp hst <;>
      obtain ⟨k, hk, rfl⟩ := Option.map_eq_some_iff.mp hst <;> exact ⟨k, hk, update_self ..⟩
  obtain ⟨k, hk, htk⟩ := hk
  rw [htk]
  exact ((hs.cpus c).pop hk).2 h1 b (by rw [hr]; exact ho)

/-- A process with interrupts on gives up CPU 0 and is run by CPU 1, where they are off. -/
theorem interrupts_nest_moved : ∃ s t : State (Fin 2) Unit Unit, s.running 1 = some () ∧ (s.cpu 1).intr = false ∧
    step (fun _ => ()) s (.release 1 ()) = some t ∧ (t.cpu 1).intr = true := by
  let s0 : State (Fin 2) Unit Unit :=
    ⟨fun _ => ⟨0, false, false⟩, fun _ => none, fun _ => none, fun _ => none, fun _ => none, fun _ => 0, fun _ => none⟩
  have h0 : (machine fun _ => ()).init s0 := ⟨fun _ => ⟨rfl, rfl, rfl, rfl⟩, fun _ => rfl, fun _ => ⟨rfl, rfl⟩⟩
  have htr : (traceOf (step fun _ => ()) (fun _ _ => true) s0
      [.acquire 0 (), .take 0 (), .switchTo 0 (), .release 0 (), .setIntr 0 true, .acquire 0 (), .take 0 (), .sched 0,
        .release 0 (), .acquire 1 (), .take 1 (), .switchTo 1 ()]).map
      (fun x => decide (x.2.running 1 = some () ∧ x.2.outer () = some true ∧ (x.2.cpu 1).noff = 1 ∧
        (step (fun _ => ()) x.2 (.release 1 ())).isSome)) = some true := by decide
  obtain ⟨tr, s, hrun, hs⟩ := exists_run_of_traceOf (M := machine fun _ => ()) (fun _ _ _ _ h => h) htr
  obtain ⟨hr, ho, h1, hst⟩ := of_decide_eq_true hs
  obtain ⟨t, ht⟩ := Option.isSome_iff_exists.mp hst
  obtain ⟨hoff, -, hlast⟩ := interrupts_nest ⟨s0, tr, h0, hrun⟩
  exact ⟨s, t, hr, hoff 1 (by rw [h1]; decide), ht, (hlast 1 () true _ t hr ho h1 (.inr ⟨(), rfl⟩) ht).2⟩

end Machine

end Xv6Shmem.Interrupts
