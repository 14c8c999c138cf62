import Xv6Shmem.Kernel.Effects

/-!
# `kill`

`kill` looks for a slot with the pid and does not ask whether the slot is in use. A slot that
is not in use has pid `0`, from the start or from `freeproc`: `kill(0)` finds the first of them,
marks it and returns `0`. `allocproc` does not clear the mark, and the next process in the slot
starts out killed.

With any other pid `kill` finds only slots in use, and as long as it is called so no slot that
is not in use has the mark.

## What is proved

* `idle_step` — what a call can do to a slot that is not in use after it.
* `kill_live` — runs without `kill(0)`.
* `kill_zero` — a run with it.
-/

namespace Xv6Shmem.Processes

open Function Kernel LTS

/-- A slot that is not in use has no pid and is not killed. -/
def Idle (s : State) : Prop := ∀ q, (s.proc q).state = .unused → (s.proc q).pid = 0 ∧ (s.proc q).killed = false

/-- The call is not `kill(0)`. -/
def KillsPid (_ : State) (e : Event) : Prop := e.op ≠ .kill 0

section Steps

variable {s t : State} {p q : Slot} {op : Op} {r : Option Int32}

theorem idle_setProc {p' : Slot} {c : Proc} (hproc : t.proc = update s.proc p' c)
    (hc : c.state = .unused → c.pid = 0 ∧ c.killed = false) (h : Idle s) : Idle t := by
  rw [Idle, hproc]
  exact (forall_update_iff s.proc fun _ c => c.state = .unused → c.pid = 0 ∧ c.killed = false).mpr
    ⟨hc, fun q _ => h q⟩

theorem idle_exit {status : Int32} (hproc : t.proc = update (reparent p s).proc p
    { (reparent p s).proc p with xstate := status, state := .zombie }) (h : Idle s) : Idle t := by
  have hre : ∀ q, ((reparent p s).proc q).killed = (s.proc q).killed := by
    intro q
    simp only [reparent]
    split_ifs <;> rfl
  intro q hq
  rw [hproc] at hq ⊢
  by_cases hqp : q = p
  · simp [hqp] at hq
  · simp only [update_of_ne hqp, reparent_state, reparent_pid, hre] at hq ⊢
    exact h q hq

/-- **A call keeps the slots that are not in use clean**, unless it is `kill(0)`. -/
theorem idle_step (hp : (s.proc p).live) (hc : call p s op = .ok (r, t)) (hop : op ≠ .kill 0) (h : Idle s) : Idle t := by
  cases proc_step hp hc with
  | keep _ _ _ _ _ hproc =>
    rw [Idle, hproc]
    exact h
  | access acc count _ _ hproc => exact idle_setProc hproc (fun hu => h p hu) h
  | kill q st hk hst _ hproc =>
    -- the slot that is found has a pid, so it is in use
    have hused : (s.proc q).state ≠ .unused := fun hu => hop (by rw [hk, (h q hu).1])
    refine idle_setProc hproc (fun hu => ?_) h
    rcases hst with rfl | ⟨-, rfl⟩
    · exact absurd hu hused
    · cases hu
  | exec argc _ _ _ hproc => exact idle_setProc hproc (fun hu => h p hu) h
  | fork np _ _ _ hproc => exact idle_setProc hproc (fun hu => by cases hu) h
  | forkFree np _ _ _ hproc => exact idle_setProc hproc (fun _ => ⟨rfl, rfl⟩) h
  | exit status _ _ hproc => exact idle_exit hproc h
  | wait pp _ _ _ hproc => exact idle_setProc hproc (fun _ => ⟨rfl, rfl⟩) h

theorem idle_boot (base : ℤ) (m : Mem) : Idle (boot base m) := by
  intro q
  by_cases hq : q = 0 <;> simp [boot, allocproc, tables, zeroProc, hq]

theorem idle_of_reachable {base : ℤ} {m : Mem} (h : ((machine base m).restrict KillsPid).Reachable s) : Idle s := by
  apply Reachable.invariant (I := Idle) _ _ h
  · rintro s rfl
    exact idle_boot base m
  · rintro s e t - hI ⟨hop, hp, hc⟩
    exact idle_step hp hc hop hI

/-- What `kill` does with a pid that is not `0`, when the slots that are not in use are clean: it finds a process or
none. -/
theorem kill_of_idle {pid : Int32} (h : Idle s) (hpid : pid ≠ 0) :
    (∃ p, (s.proc p).state ≠ .unused ∧ (s.proc p).pid = pid ∧ (kill pid s).1 = 0 ∧
      (kill pid s).2 = s.setProc p { s.proc p with
        killed := true
        state := if (s.proc p).state = .sleeping then .runnable else (s.proc p).state }) ∨
    (∀ p, (s.proc p).pid ≠ pid) ∧ kill pid s = (-1, s) := by
  unfold kill
  split
  · rename_i p hfind
    have hp : (s.proc p).pid = pid := by simpa using List.find?_some hfind
    refine .inl ⟨p, fun hu => hpid (by rw [← hp, (h p hu).1]), hp, rfl, ?_⟩
    dsimp only
    split_ifs <;> rfl
  · rename_i hfind
    refine .inr ⟨fun p hp => ?_, rfl⟩
    have := List.find?_eq_none.mp hfind p (List.mem_finRange p)
    simp [hp] at this

theorem killed_of_fork {np : Slot} (hp : (s.proc p).live) (hf : findUnused s = some np) :
    ((fork true p s).2.proc np).killed = (s.proc np).killed := by
  simp [fork_some hf hp, forkChild]

end Steps

/-- **`kill` touches only processes**, in every state that is reached without `kill(0)`, if it is not called with `0`
either: it returns `0` exactly if a slot in use has the pid, and then it changes one such slot and nothing else. No slot
that is not in use is killed, and no process that is forked starts out killed. -/
theorem kill_live {base : ℤ} {m : Mem} {s : State} (h : ((machine base m).restrict KillsPid).Reachable s) :
    (∀ pid, pid ≠ 0 →
      ((kill pid s).1 = 0 ↔ ∃ p, (s.proc p).state ≠ .unused ∧ (s.proc p).pid = pid) ∧
      ((kill pid s).1 = 0 → ∃ p c, (s.proc p).state ≠ .unused ∧ (s.proc p).pid = pid ∧ (kill pid s).2 = s.setProc p c) ∧
      ((kill pid s).1 ≠ 0 → (kill pid s).2 = s)) ∧
    (∀ q, (s.proc q).state = .unused → (s.proc q).killed = false) ∧
    ∀ p np, (s.proc p).live → findUnused s = some np → ((fork true p s).2.proc np).killed = false := by
  have hidle := idle_of_reachable h
  refine ⟨fun pid hpid => ?_, fun q hq => (hidle q hq).2, fun p np hp hf => ?_⟩
  · rcases kill_of_idle hidle hpid with ⟨p, hu, hp, hret, hs⟩ | ⟨hno, hret⟩
    · exact ⟨⟨fun _ => ⟨p, hu, hp⟩, fun _ => hret⟩, fun _ => ⟨p, _, hu, hp, hs⟩, fun hne => absurd hret hne⟩
    · have hne : (-1 : Int32) ≠ 0 := by decide
      rw [hret]
      refine ⟨⟨fun h0 => absurd h0 hne, ?_⟩, fun h0 => absurd h0 hne, fun _ => rfl⟩
      rintro ⟨p, -, hp⟩
      exact absurd hp (hno p)
  · rw [killed_of_fork hp hf]
    exact (hidle np (findUnused_state hf)).2

/-! ### Two runs -/

/-- The first process forks and kills its child, which has pid `2`. -/
theorem kill_live_of_child :
    ∃ s, ((machine 0 fun _ => 0).restrict KillsPid).Reachable s ∧ (s.proc 1).killed = true ∧ (s.proc 1).pid = 2 ∧
      (kill 2 s).1 = 0 ∧ ∀ q, (s.proc q).state = .unused → (s.proc q).killed = false := by
  have hcheck : (traceCalls (boot 0 fun _ => 0) [(0, .fork true), (0, .kill 2)]).map (fun x =>
      decide ((x.2.proc 1).killed = true) && decide ((x.2.proc 1).pid = 2) && decide ((x.2.proc 1).state ≠ .unused) &&
        x.1.all fun y => decide (y.2.op ≠ .kill 0)) = some true := by decide +kernel
  obtain ⟨⟨tr, s⟩, htr, hf⟩ := Option.map_eq_some_iff.mp hcheck
  simp only [Bool.and_eq_true, decide_eq_true_eq, List.all_eq_true] at hf
  obtain ⟨⟨⟨hk, hp⟩, hu⟩, hall⟩ := hf
  have hreach : ((machine 0 fun _ => 0).restrict KillsPid).Reachable s :=
    ⟨_, tr, rfl, run_restrict_iff.mpr ⟨traceCalls_boot htr, hall⟩⟩
  obtain ⟨hkill, hclean, -⟩ := kill_live hreach
  exact ⟨s, hreach, hk, hp, (hkill 2 (by decide)).1.mpr ⟨1, hu, hp⟩, hclean⟩

/-- **`kill(0)`** returns `0` though no slot in use has pid `0`, and marks a slot that is not in use; the process that is
forked next starts out killed. -/
theorem kill_zero :
    ∃ s t, (machine 0 fun _ => 0).Reachable s ∧ (∀ p, (s.proc p).state ≠ .unused → (s.proc p).pid ≠ 0) ∧
      (kill 0 s).1 = 0 ∧ ((kill 0 s).2.proc 1).state = .unused ∧ ((kill 0 s).2.proc 1).killed = true ∧
      (machine 0 fun _ => 0).step (kill 0 s).2 ⟨0, .fork true, some 2⟩ t ∧ (t.proc 1).pid = 2 ∧ (t.proc 1).killed = true := by
  have hcheck : (decide (∀ p, ((boot 0 fun _ => 0).proc p).state ≠ .unused → ((boot 0 fun _ => 0).proc p).pid ≠ 0) &&
      decide ((kill 0 (boot 0 fun _ => 0)).1 = 0) && decide (((kill 0 (boot 0 fun _ => 0)).2.proc 1).state = .unused) &&
      ((kill 0 (boot 0 fun _ => 0)).2.proc 1).killed && ((kill 0 (boot 0 fun _ => 0)).2.proc 0).live &&
      decide ((fork true 0 (kill 0 (boot 0 fun _ => 0)).2).1 = 2) &&
      decide (((fork true 0 (kill 0 (boot 0 fun _ => 0)).2).2.proc 1).pid = 2) &&
      ((fork true 0 (kill 0 (boot 0 fun _ => 0)).2).2.proc 1).killed) = true := by decide +kernel
  simp only [Bool.and_eq_true, decide_eq_true_eq] at hcheck
  obtain ⟨⟨⟨⟨⟨⟨⟨hno, hret⟩, hu⟩, hk⟩, hlive⟩, hpid⟩, hp⟩, hk'⟩ := hcheck
  refine ⟨_, (fork true 0 (kill 0 (boot 0 fun _ => 0)).2).2, .start rfl, hno, hret, hu, hk, ⟨hlive, ?_⟩, hp, hk'⟩
  rw [call, ← hpid]
  rfl

end Xv6Shmem.Processes
