import Xv6Shmem.Interaction.Machine

/-!
# The invariant of the interleaved calls

A process in the middle of a call has changed its flag and not yet the counter, or the
counter and not yet the flag that `exit` never clears. So the counter of a page is at
every moment the number of processes that are *counted*: those that hold the page, but for
the ones whose place in their call says otherwise, and less the children whose flag a
`fork` has written and whose count it has not.

The invariant has this, and for each process what its place in the call says about the
locks, the flags and the page (`At`). Two processes that are both between the load and
the store of one counter would lose an update. `state_lock` keeps all apart but `fork`,
which does not take it; `UpdatesApart` is what is left to ask of a step.
-/

namespace Xv6Shmem.Interaction

open Kernel Tally

/-! ### What a place in a call says -/

/-- The child that the process is making in `fork`. -/
def Pc.child : Pc → Option Slot
  | .forkAlloc np | .forkLink np | .forkLinked np | .forkRun np | .forkPage np _ | .forkLoad np _
  | .forkStore np _ _ => some np
  | _ => none

/-- The child and the page for which `fork` has written the flag and not the counter. -/
def Pc.pending : Pc → Option (Slot × PageNo)
  | .forkLoad np i | .forkStore np i _ => some (np, i)
  | _ => none

/-- The page whose counter the process loads next, in a call other than `fork`. -/
def Pc.loads : Pc → Option PageNo
  | .load _ i => some i
  | _ => none

/-- The same in `fork`. -/
def Pc.forkLoads : Pc → Option PageNo
  | .forkLoad _ i => some i
  | _ => none

/-- The page whose counter `fork` has loaded and not stored. -/
def Pc.forkLoaded : Pc → Option PageNo
  | .forkStore _ i _ => some i
  | _ => none

/-- The page whose counter the process has loaded and not stored. -/
def Pc.loaded : Pc → Option PageNo
  | .forkStore _ i _ | .store _ i _ => some i
  | _ => none

/-- The page whose state the process has checked, to write or read, with the state it saw; until the store or
the load. -/
def Pc.saw : Pc → Option (PageNo × PageState)
  | .writeEnter i _ _ | .writeAccess i _ _ | .writeChecked i _ _ | .writeLock i _ _ | .writeStore i _ _ =>
    some (i, .writable)
  | .readAccess i _ st | .readState i _ st | .readLock i _ st | .readLoad i _ st _ => some (i, st)
  | _ => none

/-- The same, after the check of the access too. -/
def Pc.passed : Pc → Option (PageNo × PageState)
  | .writeChecked i _ _ | .writeLock i _ _ | .writeStore i _ _ => some (i, .writable)
  | .readState i _ st | .readLock i _ st | .readLoad i _ st _ => some (i, st)
  | _ => none

/-- The process runs: it is in a call, and not at the end of `exit`. -/
def Pc.runs : Pc → Bool
  | .idle | .exitZombie | .exitDone => false
  | _ => true

/-- The process is in `exit`, and has its own lock. -/
def Pc.exiting : Pc → Bool
  | .exitPage _ | .exitZombie | .exitDone => true
  | .enter kind _ | .mark kind _ | .marked kind _ | .load kind _ | .store kind _ _ | .finish kind _
  | .leave kind _ | .unlock kind _ => kind = .exit
  | _ => false

/-- Whether a process is counted as a user of page `i`, when it has not exited and has the flag just if `b`. -/
def Pc.counts (c : Pc) (i : PageNo) (b : Bool) : Bool :=
  match c with
  | .marked kind j | .load kind j | .store kind j _ =>
    match kind with
    | .set _ | .acquire => b && j ≠ i
    | .release => b || j = i
    | .exit => b && j ≤ i
  | .finish .exit j | .leave .exit j | .unlock .exit j => b && j < i
  | .exitPage k => b && k ≤ i
  | _ => b

/-- Slot `q` is counted as a user of page `i`. -/
def counted (s : IState) (i : PageNo) (q : Slot) : Bool :=
  (s.pc q).counts i (s.kern.holds i q) && ¬ ∃ p, (s.pc p).pending = some (q, i)

/-- Slot `np` is a child that has not been made in full. -/
structure Nascent (s : IState) (np : Slot) : Prop where
  state : (s.kern.proc np).state = .used
  access : ∀ i, (s.kern.proc np).shmemAccess i = false
  idle : s.pc np = .idle

/-- Process `p` has the lock of its child `np`, which can run but for that and has no flag from page `k` on. -/
structure Hatching (s : IState) (p np : Slot) (k : ℕ) : Prop where
  state : (s.kern.proc np).state = .runnable
  access : ∀ i : PageNo, k ≤ i → (s.kern.proc np).shmemAccess i = false
  idle : s.pc np = .idle
  lock : s.procLock np = some p

/-- What the call has checked of the state of the page. -/
def Kind.Checked : Kind → PageState → Prop
  | .set _, st => st = .notSet
  | .acquire, st | .release, st => st ≠ .notSet
  | .exit, _ => True

/-- The flag of the process when the counter is changed. -/
def Kind.flag : Kind → Bool
  | .set _ | .acquire | .exit => true
  | .release => false

/-- What holds of a process at its place in the call. -/
def At (s : IState) (p : Slot) : Pc → Prop
  | .forkAlloc np => Nascent s np ∧ s.procLock np = some p
  | .forkLink np | .forkLinked np | .forkRun np => Nascent s np
  | .forkPage np k => Hatching s p np k
  | .forkLoad np i =>
    Hatching s p np (i + 1) ∧ (s.kern.proc np).shmemAccess i = true ∧ (s.kern.proc p).shmemAccess i = true
  | .forkStore np i n =>
    Hatching s p np (i + 1) ∧ (s.kern.proc np).shmemAccess i = true ∧ (s.kern.proc p).shmemAccess i = true ∧
      n = (s.kern.shmem i).numberofusers
  | .exitZombie | .exitDone => (s.kern.proc p).state = .zombie
  | .enter kind i => s.stateLock i = some p ∧ kind ≠ .exit
  | .mark kind i => s.stateLock i = some p ∧ kind.Checked (s.kern.shmem i).state ∧ kind ≠ .exit
  | .marked kind i | .load kind i =>
    s.stateLock i = some p ∧ kind.Checked (s.kern.shmem i).state ∧
      (s.kern.proc p).shmemAccess i = kind.flag
  | .store kind i n =>
    s.stateLock i = some p ∧ kind.Checked (s.kern.shmem i).state ∧
      (s.kern.proc p).shmemAccess i = kind.flag ∧ n = (s.kern.shmem i).numberofusers
  | .finish kind i => s.stateLock i = some p ∧ kind.Checked (s.kern.shmem i).state
  | .leave _ i | .unlock _ i => s.stateLock i = some p
  | .writeChecked i _ _ | .writeLock i _ _ | .writeStore i _ _ | .readState i _ _ | .readLock i _ _
  | .readLoad i _ _ _ => (s.kern.proc p).shmemAccess i = true
  | _ => True

/-! ### The invariant -/

/-- Where the processes are, and what that says. -/
structure Placed (s : IState) : Prop where
  /-- Every process is at its place. -/
  here : ∀ p, At s p (s.pc p)
  /-- A process in a call has been made in full and has not exited. -/
  runs : ∀ p, (s.pc p).runs = true → (s.kern.proc p).live = true ∧ (s.kern.proc p).state ≠ .used
  /-- A process in the loop of `exit`, or behind it, has its own lock. -/
  exits : ∀ p, (s.pc p).exiting = true → s.procLock p = some p
  /-- A child has one parent. -/
  parent : ∀ p q np, (s.pc p).child = some np → (s.pc q).child = some np → p = q
  /-- One process at a time is between the load and the store of a counter. -/
  alone : ∀ p q i, (s.pc p).loaded = some i → (s.pc q).loaded = some i → p = q

/-- The counters, and the pages. -/
structure Tallied (s : IState) : Prop where
  /-- The counter of a page is the number of those counted. -/
  users : ∀ i, Counts (s.kern.shmem i).numberofusers (counted s i)
  /-- Of a page that is not set nobody is counted, but the process that is about to set it. -/
  idle : ∀ i, (s.kern.shmem i).state = .notSet → ∀ q, counted s i q = true → ∃ w, s.pc q = .finish (.set w) i
  /-- A page whose state a process has checked keeps the state while the process has access. -/
  saw : ∀ p i st, (s.pc p).saw = some (i, st) →
    st ≠ .notSet ∧ ((s.kern.proc p).shmemAccess i = true → (s.kern.shmem i).state = st)

/-- No process loads a counter to change it while a `fork` is between its load and its store of it, and no
`fork` does while any process is. -/
def UpdatesApart (s : IState) (e : Slot × Act) : Prop :=
  e.2 = .next → ∀ i,
    ((s.pc e.1).loads = some i → ∀ q, (s.pc q).forkLoaded ≠ some i) ∧
      ((s.pc e.1).forkLoads = some i → ∀ q, (s.pc q).loaded ≠ some i)

instance (s : IState) (e : Slot × Act) : Decidable (UpdatesApart s e) :=
  inferInstanceAs (Decidable (_ → ∀ _, _ ∧ _))

/-! ### What a step leaves alone -/

section Frames

variable {s s' : IState} {p q : Slot} {c : Pc}

/-- Slot `q` is as it was. -/
structure Untouched (s s' : IState) (q : Slot) : Prop where
  pc : s'.pc q = s.pc q
  state : (s'.kern.proc q).state = (s.kern.proc q).state
  access : (s'.kern.proc q).shmemAccess = (s.kern.proc q).shmemAccess

/-- What process `q`, at `c`, relies on is as it was: its flags, its locks, the pages it has locked, the counter
it has loaded, and its child. -/
structure Framed (s s' : IState) (q : Slot) (c : Pc) : Prop where
  state : (s'.kern.proc q).state = (s.kern.proc q).state
  access : (s'.kern.proc q).shmemAccess = (s.kern.proc q).shmemAccess
  stateLock : ∀ i, s.stateLock i = some q → s'.stateLock i = some q
  page : ∀ i, s.stateLock i = some q → (s'.kern.shmem i).state = (s.kern.shmem i).state
  childLock : ∀ np, c.child = some np → s'.procLock np = s.procLock np
  users : ∀ i, c.loaded = some i → (s'.kern.shmem i).numberofusers = (s.kern.shmem i).numberofusers
  child : ∀ np, c.child = some np → Untouched s s' np

theorem Nascent.frame {np : Slot} (h : Nascent s np) (hu : Untouched s s' np) : Nascent s' np where
  state := by rw [hu.state, h.state]
  access := by rw [hu.access]; exact h.access
  idle := by rw [hu.pc, h.idle]

theorem Hatching.frame {np : Slot} {k : ℕ} (h : Hatching s q np k) (hf : Framed s s' q c)
    (hc : c.child = some np) : Hatching s' q np k where
  state := by rw [(hf.child np hc).state, h.state]
  access := by rw [(hf.child np hc).access]; exact h.access
  idle := by rw [(hf.child np hc).pc, h.idle]
  lock := by rw [hf.childLock np hc, h.lock]

/-- A step that leaves alone what `q` relies on leaves it at its place. -/
theorem At.frame (h : At s q c) (hf : Framed s s' q c) : At s' q c := by
  have ha := hf.access
  cases c with
  | forkAlloc np => exact ⟨h.1.frame (hf.child np rfl), by rw [hf.childLock np rfl, h.2]⟩
  | forkLink np => exact Nascent.frame h (hf.child np rfl)
  | forkLinked np => exact Nascent.frame h (hf.child np rfl)
  | forkRun np => exact Nascent.frame h (hf.child np rfl)
  | forkPage np k => exact Hatching.frame h hf rfl
  | forkLoad np i =>
    obtain ⟨hh, hn, hp⟩ := h
    exact ⟨hh.frame hf rfl, by rw [(hf.child np rfl).access, hn], by rw [ha, hp]⟩
  | forkStore np i n =>
    obtain ⟨hh, hn, hp, hc⟩ := h
    exact ⟨hh.frame hf rfl, by rw [(hf.child np rfl).access, hn], by rw [ha, hp], by rw [hf.users i rfl, hc]⟩
  | exitZombie => exact hf.state.trans h
  | exitDone => exact hf.state.trans h
  | enter kind i => exact ⟨hf.stateLock i h.1, h.2⟩
  | mark kind i => exact ⟨hf.stateLock i h.1, by rw [hf.page i h.1]; exact h.2⟩
  | marked kind i => exact ⟨hf.stateLock i h.1, by rw [hf.page i h.1, ha]; exact h.2⟩
  | load kind i => exact ⟨hf.stateLock i h.1, by rw [hf.page i h.1, ha]; exact h.2⟩
  | store kind i n => exact ⟨hf.stateLock i h.1, by rw [hf.page i h.1, ha, hf.users i rfl]; exact h.2⟩
  | finish kind i => exact ⟨hf.stateLock i h.1, by rw [hf.page i h.1]; exact h.2⟩
  | leave kind i => exact hf.stateLock i h
  | unlock kind i => exact hf.stateLock i h
  | writeChecked i _ _ => exact (congrFun ha i).trans h
  | writeLock i _ _ => exact (congrFun ha i).trans h
  | writeStore i _ _ => exact (congrFun ha i).trans h
  | readState i _ _ => exact (congrFun ha i).trans h
  | readLock i _ _ => exact (congrFun ha i).trans h
  | readLoad i _ _ _ => exact (congrFun ha i).trans h
  | _ => trivial

end Frames

/-! ### A step of one process -/

section Moves

variable {s s' : IState} {p q : Slot} {o : Option Slot} {c' : Pc}

/-- Process `p` goes to `c'`, and touches no slot but its own and `o`, no lock that another process relies on,
and no page that another has locked or whose counter another has loaded. -/
structure Moves (s s' : IState) (p : Slot) (o : Option Slot) (c' : Pc) : Prop where
  pc : s'.pc = Function.update s.pc p c'
  slot : ∀ q, q ≠ p → o ≠ some q →
    (s'.kern.proc q).state = (s.kern.proc q).state ∧ (s'.kern.proc q).shmemAccess = (s.kern.proc q).shmemAccess
  stateLock : ∀ q i, q ≠ p → s.stateLock i = some q → s'.stateLock i = some q
  procLock : ∀ q, q ≠ p → o ≠ some q → s'.procLock q = s.procLock q
  page : ∀ q i, q ≠ p → s.stateLock i = some q → (s'.kern.shmem i).state = (s.kern.shmem i).state
  users : ∀ q i, q ≠ p → (s.pc q).loaded = some i →
    (s'.kern.shmem i).numberofusers = (s.kern.shmem i).numberofusers

/-- Slot `np` is no child that a process other than `p` is making. -/
def NoChild (s : IState) (p np : Slot) : Prop := ∀ q, q ≠ p → (s.pc q).child ≠ some np

theorem Moves.pc_self (hm : Moves s s' p o c') : s'.pc p = c' := by
  rw [hm.pc, Function.update_self]

theorem Moves.pc_other (hm : Moves s s' p o c') (hq : q ≠ p) : s'.pc q = s.pc q := by
  rw [hm.pc, Function.update_of_ne hq]

theorem Moves.untouched (hm : Moves s s' p o c') (hq : q ≠ p) (ho : o ≠ some q) : Untouched s s' q :=
  ⟨hm.pc_other hq, (hm.slot q hq ho).1, (hm.slot q hq ho).2⟩

/-- A child in the making is in no call, and either `USED` or locked. -/
theorem Placed.child {np : Slot} (h : Placed s) (hc : (s.pc q).child = some np) :
    s.pc np = .idle ∧ ((s.kern.proc np).state = .used ∨
      (s.kern.proc np).state = .runnable ∧ s.procLock np = some q) := by
  have ha := h.here q
  revert hc ha
  cases s.pc q with
  | forkAlloc np => rintro ⟨⟩ ha; exact ⟨ha.1.idle, .inl ha.1.state⟩
  | forkLink np => rintro ⟨⟩ ha; exact ⟨Nascent.idle ha, .inl (Nascent.state ha)⟩
  | forkLinked np => rintro ⟨⟩ ha; exact ⟨Nascent.idle ha, .inl (Nascent.state ha)⟩
  | forkRun np => rintro ⟨⟩ ha; exact ⟨Nascent.idle ha, .inl (Nascent.state ha)⟩
  | forkPage np k => rintro ⟨⟩ ha; exact ⟨Hatching.idle ha, .inr ⟨Hatching.state ha, Hatching.lock ha⟩⟩
  | forkLoad np i => rintro ⟨⟩ ha; exact ⟨ha.1.idle, .inr ⟨ha.1.state, ha.1.lock⟩⟩
  | forkStore np i n => rintro ⟨⟩ ha; exact ⟨ha.1.idle, .inr ⟨ha.1.state, ha.1.lock⟩⟩
  | _ => rintro ⟨⟩

theorem Placed.noChild_of_pc (h : Placed s) (hp : s.pc p ≠ .idle) : ∀ q, (s.pc q).child ≠ some p :=
  fun _ hc => hp (h.child hc).1

theorem Placed.noChild_of_canBegin (h : Placed s) (hp : CanBegin s p) : ∀ q, (s.pc q).child ≠ some p := by
  intro q hc
  obtain ⟨-, -, hu, hl⟩ := hp
  rcases (h.child hc).2 with hs | ⟨-, hs⟩
  · exact hu hs
  · rw [hl] at hs
    cases hs

/-- What one process at most has in hand, if its place says so, is so after a move. -/
theorem Moves.sole {β : Type} {f : Pc → Option β} {x : β} (hm : Moves s s' p o c')
    (hnew : ∀ r, r ≠ p → f c' = some x → f (s.pc r) ≠ some x)
    (hold : ∀ q r, f (s.pc q) = some x → f (s.pc r) = some x → q = r) {q r : Slot} (hq : f (s'.pc q) = some x)
    (hr : f (s'.pc r) = some x) : q = r := by
  by_cases hqp : q = p <;> by_cases hrp : r = p
  · rw [hqp, hrp]
  · rw [hqp, hm.pc_self] at hq
    rw [hm.pc_other hrp] at hr
    exact absurd hr (hnew r hrp hq)
  · rw [hrp, hm.pc_self] at hr
    rw [hm.pc_other hqp] at hq
    exact absurd hq (hnew q hqp hr)
  · rw [hm.pc_other hqp] at hq
    rw [hm.pc_other hrp] at hr
    exact hold q r hq hr

/-- A move keeps the processes at their places, if it leads its own process to one. -/
theorem Placed.move (h : Placed s) (hm : Moves s s' p o c') (hp : NoChild s p p)
    (ho : ∀ np, o = some np → s.pc np = .idle ∧ NoChild s p np)
    (hat : At s' p c')
    (hruns : c'.runs = true → (s'.kern.proc p).live = true ∧ (s'.kern.proc p).state ≠ .used)
    (hexit : c'.exiting = true → s'.procLock p = some p)
    (hchild : ∀ np, c'.child = some np → NoChild s p np)
    (hload : ∀ q i, q ≠ p → (s.pc q).loaded = some i → c'.loaded ≠ some i) : Placed s' where
  here := fun q => by
    by_cases hq : q = p
    · rw [hq, hm.pc_self]
      exact hat
    · rw [hm.pc_other hq]
      by_cases hoq : o = some q
      · rw [(ho q hoq).1]
        trivial
      · have hfree : ∀ np, (s.pc q).child = some np → np ≠ p ∧ o ≠ some np := fun np hc =>
          ⟨fun he => hp q hq (he ▸ hc), fun hn => (ho np hn).2 q hq hc⟩
        exact (h.here q).frame
          { state := (hm.slot q hq hoq).1
            access := (hm.slot q hq hoq).2
            stateLock := fun i => hm.stateLock q i hq
            page := fun i => hm.page q i hq
            childLock := fun np hc => hm.procLock np (hfree np hc).1 (hfree np hc).2
            users := fun i => hm.users q i hq
            child := fun np hc => hm.untouched (hfree np hc).1 (hfree np hc).2 }
  runs := fun q hr => by
    by_cases hq : q = p
    · subst hq
      rw [hm.pc_self] at hr
      exact hruns hr
    · rw [hm.pc_other hq] at hr
      by_cases hoq : o = some q
      · rw [(ho q hoq).1] at hr
        cases hr
      · rw [Proc.live, (hm.slot q hq hoq).1]
        exact h.runs q hr
  exits := fun q he => by
    by_cases hq : q = p
    · subst hq
      rw [hm.pc_self] at he
      exact hexit he
    · rw [hm.pc_other hq] at he
      by_cases hoq : o = some q
      · rw [(ho q hoq).1] at he
        cases he
      · rw [hm.procLock q hq hoq]
        exact h.exits q he
  parent := fun q r np hq hr => hm.sole (f := Pc.child) (fun r hr hc => hchild np hc r hr)
    (fun q r => h.parent q r np) hq hr
  alone := fun q r i hq hr => hm.sole (f := Pc.loaded) (fun r hr hc hl => hload r i hr hl hc)
    (fun q r => h.alone q r i) hq hr

/-! ### Who is counted -/

theorem Pc.child_of_pending {c : Pc} {i : PageNo} (h : c.pending = some (q, i)) : c.child = some q := by
  cases c <;> cases h <;> rfl

/-- Somebody's flag that no `fork` has just written counts as its place says. -/
theorem counted_eq {i : PageNo} (h : ∀ r, (s.pc r).pending ≠ some (q, i)) :
    counted s i q = (s.pc q).counts i (s.kern.holds i q) := by
  simp [counted, h]

theorem counted_of_noChild {i : PageNo} (h : ∀ r, (s.pc r).child ≠ some q) :
    counted s i q = (s.pc q).counts i (s.kern.holds i q) :=
  counted_eq fun r hr => h r (Pc.child_of_pending hr)

theorem Moves.counted_other {i : PageNo} (hm : Moves s s' p o c') (hq : q ≠ p) (ho : o ≠ some q)
    (hpend : c'.pending = some (q, i) ↔ (s.pc p).pending = some (q, i)) : counted s' i q = counted s i q := by
  have hex : (∃ r, (s'.pc r).pending = some (q, i)) ↔ ∃ r, (s.pc r).pending = some (q, i) := by
    refine exists_congr fun r => ?_
    by_cases hr : r = p
    · rw [hr, hm.pc_self, hpend]
    · rw [hm.pc_other hr]
  have hholds : s'.kern.holds i q = s.kern.holds i q := by
    rw [State.holds, State.holds, Proc.live, Proc.live, (hm.slot q hq ho).1, (hm.slot q hq ho).2]
  simp only [counted, hm.pc_other hq, hholds, hex]

/-- Nobody else has `p` as a child, before the move or after it. -/
theorem Moves.noChild (hm : Moves s s' p o c') (hp : NoChild s p p) (hc : c'.child ≠ some p) :
    ∀ r, (s'.pc r).child ≠ some p := by
  intro r
  by_cases hr : r = p
  · rw [hr, hm.pc_self]
    exact hc
  · rw [hm.pc_other hr]
    exact hp r hr

/-- **A move that changes no counter and no state of a page**, and nobody's count. -/
theorem Tallied.quiet (h : Tallied s) (hm : Moves s s' p o c')
    (ho : ∀ np, o = some np → s.pc np = .idle)
    (hpages : ∀ i, (s'.kern.shmem i).state = (s.kern.shmem i).state)
    (husers : ∀ i, (s'.kern.shmem i).numberofusers = (s.kern.shmem i).numberofusers)
    (hcounted : ∀ i q, counted s' i q = counted s i q)
    (hset : ∀ w i, s.pc p ≠ .finish (.set w) i)
    (hsaw : ∀ i st, c'.saw = some (i, st) →
      st ≠ .notSet ∧ ((s'.kern.proc p).shmemAccess i = true → (s'.kern.shmem i).state = st)) : Tallied s' where
  users := fun i => by
    rw [husers i]
    exact (h.users i).congr (hcounted i)
  idle := fun i hn q hc => by
    rw [hpages i] at hn
    rw [hcounted i q] at hc
    obtain ⟨w, hw⟩ := h.idle i hn q hc
    have hq : q ≠ p := fun hq => hset w i (hq ▸ hw)
    exact ⟨w, by rw [hm.pc_other hq, hw]⟩
  saw := fun q i st hs => by
    by_cases hq : q = p
    · subst hq
      rw [hm.pc_self] at hs
      exact hsaw i st hs
    · rw [hm.pc_other hq] at hs
      by_cases hoq : o = some q
      · rw [ho q hoq] at hs
        cases hs
      · rw [hpages i, (hm.slot q hq hoq).2]
        exact h.saw q i st hs

end Moves

end Xv6Shmem.Interaction
