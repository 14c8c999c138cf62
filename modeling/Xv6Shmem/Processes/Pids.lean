import Xv6Shmem.Kernel.Effects

/-!
# Process identifiers

`allocpid` gives out `nextpid` and adds one to it. Nothing else tells the pids of processes apart:
that no two are the same rests on the counter never coming back to a number that is in use.

The counter is an `int`. It starts at `1`, for the first process, and after `2 ^ 31 - 2` more
allocations it has given out every positive `int`; the next process has pid `-2 ^ 31`. After
`2 ^ 32 - 1` allocations it gives out `1` again, which the first process has.

An allocation uses a pid up even if `fork` fails for want of memory.

## What is proved

* `pid_step` — what a call can do to the pids and to the counter.
* `pids_unique` — as long as there were no more than `2 ^ 31 - 2` allocations since the start, all pids in use are
  positive and no two are the same.
* `pids_repeat` — a long run after which a pid is negative, and a longer one after which two processes have
  the same pid.
-/

namespace Xv6Shmem.Processes

open Function Kernel LTS

/-- The step takes a pid from the counter. -/
def Allocates (s : State) (e : Event) : Bool :=
  match e.op with
  | .fork _ => (findUnused s).isSome
  | _ => false

/-- How many pids were taken in a run. -/
def allocs (tr : List (State × Event)) : ℕ := tr.countP fun x => Allocates x.1 x.2

/-- What a call `op` of process `p`, going from `s` to `t`, can do to pids. -/
inductive PidStep (s : State) (e : Event) (t : State) : Prop where
  /-- Whoever is there was there before, with the same pid. -/
  | keep (ha : Allocates s e = false) (hn : t.nextpid = s.nextpid)
      (h : ∀ q, (t.proc q).state ≠ .unused → (s.proc q).state ≠ .unused ∧ (t.proc q).pid = (s.proc q).pid)
  /-- The next pid is used up, and whoever is in slot `np` afterwards has it. -/
  | alloc (np : Slot) (ha : Allocates s e = true) (hn : t.nextpid = s.nextpid + 1)
      (hnew : (t.proc np).state ≠ .unused → (t.proc np).pid = s.nextpid) (h : ∀ q, q ≠ np → t.proc q = s.proc q)

section Steps

variable {s t : State} {p : Slot} {op : Op} {r : Option Int32}

theorem PidStep.of_setProc {p' : Slot} {c : Proc} (ha : Allocates s ⟨p, op, r⟩ = false) (hn : t.nextpid = s.nextpid)
    (hproc : t.proc = update s.proc p' c) (hu : c.state ≠ .unused → (s.proc p').state ≠ .unused)
    (hpid : c.state ≠ .unused → c.pid = (s.proc p').pid) : PidStep s ⟨p, op, r⟩ t := by
  refine .keep ha hn fun q hq => ?_
  rw [hproc] at hq ⊢
  by_cases hqp : q = p'
  · subst hqp
    rw [update_self] at hq ⊢
    exact ⟨hu hq, hpid hq⟩
  · rw [update_of_ne hqp] at hq ⊢
    exact ⟨hq, rfl⟩

/-- **What a call can do to pids**. -/
theorem pid_step (hp : (s.proc p).live) (hc : call p s op = .ok (r, t)) : PidStep s ⟨p, op, r⟩ t := by
  cases proc_step hp hc with
  | keep _ _ hf _ hn hproc =>
    refine .keep ?_ hn fun q hq => ⟨by rwa [hproc] at hq, by rw [hproc]⟩
    cases op with
    | fork mem => simp [Allocates, hf mem rfl]
    | _ => rfl
  | access acc count ha hn hproc =>
    refine .of_setProc ?_ hn hproc id fun _ => rfl
    cases ha <;> rfl
  | kill q st hop hst hn hproc =>
    subst hop
    refine .of_setProc rfl hn hproc (fun hu => ?_) fun _ => rfl
    rcases hst with rfl | ⟨hs, -⟩
    · exact hu
    · rw [hs]
      decide
  | exec argc hop hn _ hproc =>
    subst hop
    exact .of_setProc rfl hn hproc id fun _ => rfl
  | fork np hop hf hn hproc =>
    subst hop
    refine .alloc np (by simp [Allocates, hf]) hn (fun _ => ?_) fun q hq => ?_
    · simp [hproc, forkChild]
    · simp [hproc, hq]
  | forkFree np hop hf hn hproc =>
    subst hop
    refine .alloc np (by simp [Allocates, hf]) hn (fun hq => ?_) fun q hq => ?_
    · simp [hproc, Proc.freed] at hq
    · simp [hproc, hq]
  | exit status hop hn hproc =>
    subst hop
    refine .keep rfl hn fun q hq => ?_
    rw [hproc] at hq ⊢
    by_cases hqp : q = p
    · subst hqp
      simpa using Proc.used_of_live hp
    · simpa [update_of_ne hqp] using hq
  | wait pp hop _ hn hproc =>
    subst hop
    exact .of_setProc rfl hn hproc (fun hu => absurd rfl hu) fun hu => absurd rfl hu

end Steps

/-! ### As long as the counter lasts -/

/-- After `n` allocations: the next pid, and the pids that are in use. -/
structure Pids (n : ℕ) (s : State) : Prop where
  next : s.nextpid = Int32.ofNat (n + 2)
  range : ∀ q, (s.proc q).state ≠ .unused → 0 < (s.proc q).pid.toInt ∧ (s.proc q).pid.toInt ≤ n + 1
  inj : ∀ q q', (s.proc q).state ≠ .unused → (s.proc q').state ≠ .unused → (s.proc q).pid = (s.proc q').pid → q = q'

theorem ofNat_next (n : ℕ) : Int32.ofNat (n + 1 + 2) = Int32.ofNat (n + 2) + 1 := by
  rw [show n + 1 + 2 = n + 2 + 1 by omega]
  exact Int32.ofNat_add (n + 2) 1

theorem pids_boot (base : ℤ) (m : Mem) : Pids 0 (boot base m) := by
  have hused : ∀ q, ((boot base m).proc q).state ≠ .unused → q = 0 ∧ ((boot base m).proc q).pid = 1 := by
    intro q hq
    by_cases h0 : q = 0
    · subst h0
      exact ⟨rfl, rfl⟩
    · simp [boot, allocproc, h0, tables, zeroProc] at hq
  refine ⟨rfl, fun q hq => ?_, fun q q' hq hq' _ => ?_⟩
  · rw [(hused q hq).2]
    decide
  · rw [(hused q hq).1, (hused q' hq').1]

theorem Pids.step {n : ℕ} {s t : State} {e : Event} (h : Pids n s) (hs : PidStep s e t)
    (hn : n + (Allocates s e).toNat ≤ 2 ^ 31 - 2) : Pids (n + (Allocates s e).toNat) t := by
  cases hs with
  | keep ha hnext hkeep =>
    rw [ha, Bool.toNat_false, add_zero]
    refine ⟨hnext.trans h.next, fun q hq => ?_, fun q q' hq hq' hpid => ?_⟩
    · obtain ⟨hu, hp⟩ := hkeep q hq
      rw [hp]
      exact h.range q hu
    · obtain ⟨hu, hp⟩ := hkeep q hq
      obtain ⟨hu', hp'⟩ := hkeep q' hq'
      exact h.inj q q' hu hu' (by rw [← hp, ← hp', hpid])
  | alloc np ha hnext hnew hkeep =>
    rw [ha, Bool.toNat_true] at hn ⊢
    have hpid : s.nextpid.toInt = n + 2 := by
      rw [h.next, Int32.toInt_ofNat_of_lt (by omega)]
      push_cast
      rfl
    -- the new pid is above all that were given out before
    have hfresh : ∀ q, q ≠ np → (t.proc q).state ≠ .unused → (t.proc q).pid ≠ s.nextpid := by
      intro q hq hu heq
      rw [hkeep q hq] at hu heq
      have := (h.range q hu).2
      rw [heq, hpid] at this
      omega
    refine ⟨?_, fun q hq => ?_, fun q q' hq hq' heq => ?_⟩
    · rw [hnext, h.next, ofNat_next]
    · by_cases hqn : q = np
      · subst hqn
        rw [hnew hq, hpid]
        push_cast
        omega
      · rw [hkeep q hqn] at hq ⊢
        obtain ⟨h1, h2⟩ := h.range q hq
        push_cast
        omega
    · by_cases hqn : q = np <;> by_cases hqn' : q' = np
      · rw [hqn, hqn']
      · subst hqn
        exact absurd (heq.symm.trans (hnew hq)) (hfresh q' hqn' hq')
      · subst hqn'
        exact absurd (heq.trans (hnew hq')) (hfresh q hqn hq)
      · rw [hkeep q hqn] at hq heq
        rw [hkeep q' hqn'] at hq' heq
        exact h.inj q q' hq hq' heq

theorem pids_of_run {base : ℤ} {m : Mem} {t : State} {tr : List (State × Event)} (h : (machine base m).Run (boot base m) tr t)
    (hn : allocs tr ≤ 2 ^ 31 - 2) : Pids (allocs tr) t := by
  induction h with
  | nil => exact pids_boot base m
  | @snoc s t tr e hr hs ih =>
    have hcount : allocs (tr ++ [(s, e)]) = allocs tr + (Allocates s e).toNat := by
      cases ha : Allocates s e <;> simp [allocs, List.countP_append, ha]
    rw [hcount] at hn ⊢
    exact (ih (by omega)).step (pid_step hs.1 hs.2) hn

/-- **No two processes have the same pid**, and all pids are positive, in every state that is reached with no more than
`2 ^ 31 - 2` allocations. -/
theorem pids_unique {base : ℤ} {m : Mem} {t : State} {tr : List (State × Event)} (h : (machine base m).Run (boot base m) tr t)
    (hn : allocs tr ≤ 2 ^ 31 - 2) :
    (∀ q, (t.proc q).state ≠ .unused → 0 < (t.proc q).pid) ∧
      ∀ q q', (t.proc q).state ≠ .unused → (t.proc q').state ≠ .unused → (t.proc q).pid = (t.proc q').pid → q = q' := by
  have hp := pids_of_run h hn
  refine ⟨fun q hq => ?_, hp.inj⟩
  rw [Int32.lt_iff_toInt_lt]
  exact (hp.range q hq).1

/-- After `fork` there are two processes, with different pids. -/
theorem pids_unique_of_fork : ∃ tr t, (machine 0 fun _ => 0).Run (boot 0 fun _ => 0) tr t ∧ allocs tr ≤ 2 ^ 31 - 2 ∧
    (t.proc 0).state ≠ .unused ∧ (t.proc 1).state ≠ .unused ∧ (t.proc 0).pid ≠ (t.proc 1).pid := by
  have hcheck : (traceCalls (boot 0 fun _ => 0) [(0, .fork true)]).map (fun x =>
      decide (allocs x.1 ≤ 2 ^ 31 - 2) && decide ((x.2.proc 0).state ≠ .unused) && decide ((x.2.proc 1).state ≠ .unused)) =
        some true := by decide +kernel
  obtain ⟨⟨tr, t⟩, htr, hf⟩ := Option.map_eq_some_iff.mp hcheck
  simp only [Bool.and_eq_true, decide_eq_true_eq] at hf
  obtain ⟨⟨hn, h0⟩, h1⟩ := hf
  have hrun := traceCalls_boot htr
  exact ⟨tr, t, hrun, hn, h0, h1, fun heq => absurd ((pids_unique hrun hn).2 0 1 h0 h1 heq) (by decide)⟩

/-! ### When the counter comes round -/

/-- Only `fork`, `exit` and `wait` are called. -/
def ForkExitWait (_ : State) (e : Event) : Prop :=
  match e.op with
  | .fork _ | .exit _ | .wait _ => True
  | _ => False

section Wrap

variable {base : ℤ} {m : Mem} {s : State}

/-- Only the first process is there. -/
structure Alone (s : State) : Prop where
  live : (s.proc 0).live
  pid : (s.proc 0).pid = 1
  init : s.initproc = 0
  others : ∀ q, q ≠ 0 → (s.proc q).state = .unused

theorem alone_boot (base : ℤ) (m : Mem) : Alone (boot base m) := by
  refine ⟨rfl, rfl, rfl, fun q hq => ?_⟩
  simp [boot, allocproc, hq, tables, zeroProc]

theorem Alone.findUnused (h : Alone s) : ∃ np, np ≠ 0 ∧ Kernel.findUnused s = some np := by
  cases hf : Kernel.findUnused s with
  | none =>
    have hnone := List.find?_eq_none.mp hf 1 (List.mem_finRange 1)
    simp [h.others 1 (by decide)] at hnone
  | some np =>
    refine ⟨np, ?_, rfl⟩
    rintro rfl
    exact Proc.used_of_live h.live (findUnused_state hf)

theorem reachable_call {t : State} {e : Event} (hr : ((machine base m).restrict ForkExitWait).Reachable s)
    (he : ForkExitWait s e) (hp : (s.proc e.slot).live) (hc : call e.slot s e.op = .ok (e.ret, t)) :
    ((machine base m).restrict ForkExitWait).Reachable t :=
  hr.snoc ⟨he, hp, hc⟩

theorem Alone.reachable_fork (h : Alone s) (hr : ((machine base m).restrict ForkExitWait).Reachable s) :
    ((machine base m).restrict ForkExitWait).Reachable (fork true 0 s).2 :=
  reachable_call (e := ⟨0, .fork true, some (fork true 0 s).1⟩) hr trivial h.live rfl

/-- The child of the first process exits, and the first process waits for it. -/
theorem Alone.reap {np : Slot} (hne : np ≠ 0) (hlive : (s.proc np).live) (h0 : (s.proc 0).live) (hpid : (s.proc 0).pid = 1)
    (hinit : s.initproc = 0) (hpar : (s.proc np).parent = some 0) (hothers : ∀ q, q ≠ 0 → q ≠ np → (s.proc q).state = .unused)
    (hr : ((machine base m).restrict ForkExitWait).Reachable s) :
    ∃ t, Alone t ∧ t.nextpid = s.nextpid ∧ ((machine base m).restrict ForkExitWait).Reachable t := by
  obtain ⟨u, hu⟩ : ∃ u, exit 0 np s = .ok u := by
    rw [exit, if_neg (by rw [hinit]; exact hne)]
    exact ⟨_, rfl⟩
  obtain ⟨-, hproc, -, -, hinit', hn⟩ := exit_ok hu
  have hself : (reparent np s).proc np = s.proc np := by
    rw [reparent]
    exact if_neg (by rw [hpar]; simpa using hne.symm)
  have hu0 : (u.proc 0).state = (s.proc 0).state ∧ (u.proc 0).pid = (s.proc 0).pid := by
    simp [hproc, hne.symm]
  have hlive0 : (u.proc 0).live := by
    rw [Proc.live, hu0.1]
    exact h0
  have hreach := reachable_call (e := ⟨np, .exit 0, none⟩) (t := u) hr trivial hlive (by rw [call, hu]; rfl)
  -- the child is the only one that can be found
  have hfind : findZombie 0 u = some np := by
    cases hz : findZombie 0 u with
    | none =>
      have hnone := List.find?_eq_none.mp hz np (List.mem_finRange np)
      simp [hproc, hself, hpar] at hnone
    | some pp =>
      obtain ⟨-, hzombie⟩ := findZombie_state hz
      by_contra hpp
      replace hpp : pp ≠ np := fun h => hpp (by rw [h])
      by_cases h00 : pp = 0
      · subst h00
        simp [Proc.live, hzombie] at hlive0
      · simp [hproc, hpp, hothers pp h00 hpp] at hzombie
  have hwait : wait true 0 u = (some (u.proc np).pid, freeproc np u) := by
    rw [wait, hfind]
    rfl
  refine ⟨freeproc np u, ⟨?_, ?_, ?_, fun q hq => ?_⟩, hn, reachable_call (e := ⟨0, .wait true, some (u.proc np).pid⟩) hreach trivial hlive0 ?_⟩
  · rw [freeproc, setProc_proc, update_of_ne hne.symm]
    exact hlive0
  · rw [freeproc, setProc_proc, update_of_ne hne.symm, hu0.2, hpid]
  · rw [freeproc, setProc_initproc, hinit', hinit]
  · by_cases hqn : q = np
    · simp [hqn, freeproc]
    · simp [freeproc, hqn, hproc, hothers q hq hqn]
  · rw [call, hwait]

/-- The first process forks, its child exits, and it waits for it. -/
theorem Alone.next (h : Alone s) (hr : ((machine base m).restrict ForkExitWait).Reachable s) :
    ∃ t, Alone t ∧ t.nextpid = s.nextpid + 1 ∧ ((machine base m).restrict ForkExitWait).Reachable t := by
  obtain ⟨np, hne, hf⟩ := h.findUnused
  have hreach := h.reachable_fork hr
  rw [fork_some hf h.live] at hreach
  refine Alone.reap hne ?_ ?_ ?_ ?_ ?_ (fun q hq hqn => ?_) hreach
  · simp [forkChild, Proc.live]
  · simpa [hne.symm] using h.live
  · simpa [hne.symm] using h.pid
  · exact h.init
  · simp [forkChild]
  · simpa [hqn] using h.others q hq

theorem alone_after (base : ℤ) (m : Mem) (n : ℕ) :
    ∃ t, Alone t ∧ t.nextpid = Int32.ofNat (n + 2) ∧ ((machine base m).restrict ForkExitWait).Reachable t := by
  induction n with
  | zero => exact ⟨boot base m, alone_boot base m, rfl, .start rfl⟩
  | succ n ih =>
    obtain ⟨s, ha, hn, hr⟩ := ih
    obtain ⟨t, ha', hn', hr'⟩ := ha.next hr
    refine ⟨t, ha', ?_, hr'⟩
    rw [hn', hn, ofNat_next]

/-- The first process and a child with the pid that comes after `n` rounds. -/
theorem child_after (base : ℤ) (m : Mem) (n : ℕ) :
    ∃ t q, ((machine base m).restrict ForkExitWait).Reachable t ∧ q ≠ 0 ∧ (t.proc q).state = .runnable ∧
      (t.proc q).pid = Int32.ofNat (n + 2) ∧ (t.proc 0).state ≠ .unused ∧ (t.proc 0).pid = 1 := by
  obtain ⟨s, ha, hn, hr⟩ := alone_after base m n
  obtain ⟨np, hne, hf⟩ := ha.findUnused
  have hreach := ha.reachable_fork hr
  rw [fork_some hf ha.live] at hreach
  refine ⟨_, np, hreach, hne, ?_, ?_, ?_, ?_⟩
  · simp [forkChild]
  · simp [forkChild, hn]
  · simpa [hne.symm] using Proc.used_of_live ha.live
  · simpa [hne.symm] using ha.pid

end Wrap

/-- **The counter comes round**: with `fork`, `exit` and `wait` alone a state is reached in which a process has a negative
pid, and one in which two processes have pid `1`. -/
theorem pids_repeat :
    (∃ t q, ((machine 0 fun _ => 0).restrict ForkExitWait).Reachable t ∧ (t.proc q).state ≠ .unused ∧ (t.proc q).pid < 0) ∧
    ∃ t q q', ((machine 0 fun _ => 0).restrict ForkExitWait).Reachable t ∧ q ≠ q' ∧ (t.proc q).state ≠ .unused ∧
      (t.proc q').state ≠ .unused ∧ (t.proc q).pid = 1 ∧ (t.proc q').pid = 1 := by
  constructor
  · obtain ⟨t, q, hr, -, hst, hpid, -⟩ := child_after 0 (fun _ => 0) (2 ^ 31 - 2)
    refine ⟨t, q, hr, by rw [hst]; decide, ?_⟩
    rw [hpid]
    decide
  · obtain ⟨t, q, hr, hne, hst, hpid, h0, hpid0⟩ := child_after 0 (fun _ => 0) (2 ^ 32 - 1)
    refine ⟨t, 0, q, hr, hne.symm, h0, by rw [hst]; decide, hpid0, ?_⟩
    rw [hpid]
    decide

end Xv6Shmem.Processes
