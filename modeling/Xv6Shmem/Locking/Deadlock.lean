import Xv6Shmem.Locking.Invariant
import Xv6Shmem.Theory.LockOrder

/-!
# No deadlock

Whoever waits for a lock holds only locks that come before it, in an order that is different
in different states: the lock of a process that is in `exit`, with `wait_lock`, comes before
the locks `state_lock`, and that of any other process after them.

## What is proved

* `no_deadlock` — no thread waits for a lock in a cycle of threads of which each holds what
  the next waits for.
* `runs_once` — a process runs on one CPU, and the checks of `sched` and `acquire` do not fail.
-/

namespace Xv6Shmem.Locking

open Kernel LTS

/-- The order of the locks in a state. The lock of a process that also has `wait_lock`, so that it is in `exit`, comes
before the locks `state_lock`. -/
def rank (s : LockState) : Lock → ℕ
  | .wait | .chan _ => 0
  | .proc q => if s.holder (.proc q) = some (.proc q) ∧ s.holder .wait = some (.proc q) then 1 else 3
  | .state _ => 2
  | _ => 4

theorem rank_outer {s : LockState} {l : Lock} (h : l.outer = true) : rank s l = 0 := by
  cases l with
  | wait | chan _ => rfl
  | _ => cases h

theorem rank_proc_pos {s : LockState} {q : Slot} : 0 < rank s (.proc q) ∧ rank s (.proc q) < 4 := by
  rw [rank]
  split_ifs <;> omega

/-- Whoever waits for a lock holds only locks that come before it. -/
theorem Sound.ranked {s : LockState} {G : Agent → Ctx} (h : Sound s G) : Ranked (Holds s) (Waits s) (rank s) := by
  rintro a b l l' hl ⟨k, hcode⟩ hl'
  have hsafe := h.code b
  rw [hcode] at hsafe
  obtain ⟨hal, -⟩ := hsafe
  obtain ⟨hb, hm⟩ := h.held b l' hl'
  cases l with
  | wait | chan _ | page _ =>
    rw [show (G b).held = [] from hal] at hm
    cases hm
  | state i =>
    rcases hal l' hm with rfl | ⟨hw, p, rfl, rfl⟩
    · exact Nat.zero_lt_two
    · have hwait := h.mine _ _ hb hw rfl
      rw [show rank s (.proc p) = 1 from if_pos ⟨hl', hwait⟩]
      exact Nat.one_lt_two
  | proc q =>
    rcases hal l' hm with ho | ⟨rfl, i, rfl⟩
    · rw [rank_outer ho]
      exact rank_proc_pos.1
    · -- the lock is somebody else's, so the process is not in `exit`
      have hne : ¬ (s.holder (.proc q) = some (.proc q) ∧ s.holder .wait = some (.proc q)) := by
        rintro ⟨hq, -⟩
        exact hal.not_mem (h.held _ _ hq).2
      rw [show rank s (.proc q) = 3 from if_neg hne]
      exact Nat.lt_succ_self 2
  | pid | kmem | ftable | itable =>
    obtain ⟨hinner, hpage⟩ := hal l' hm
    cases l' with
    | wait | chan _ => exact Nat.succ_pos 3
    | state i => exact Nat.lt_of_sub_pos Nat.zero_lt_two
    | proc q => exact rank_proc_pos.2
    | page i => cases hpage
    | pid | kmem | ftable | itable => cases hinner

/-- **No deadlock**: in no reachable state is there a cycle of threads of which each holds a lock that the next one
waits for. -/
theorem no_deadlock {s : LockState} (h : lockMachine.Reachable s) (a : Agent) :
    ¬ Relation.TransGen (Blocks (Holds s) (Waits s)) a a := by
  obtain ⟨G, hG⟩ := sound_of_reachable h
  exact hG.ranked.acyclic a

/-- **A process runs on one CPU**, and when its lock is free it is in state `RUNNING`. Whoever calls `sched` passes its checks,
whoever calls `acquire` does not have the lock, and user code has no lock. -/
theorem runs_once {s : LockState} (h : lockMachine.Reachable s) :
    (∀ c c' p, s.on c = some p → s.on c' = some p → c = c') ∧
    (∀ c p, s.on c = some p → s.holder (.proc p) = none → s.state p = .running) ∧
    (∀ a n k, s.active a = true → s.code a = .op .sched k → s.exec a n .sched ≠ none) ∧
    (∀ a l, Waits s a l → ¬ Holds s a l) ∧ ∀ p l, s.code (.proc p) = .ret .user → ¬ Holds s (.proc p) l := by
  obtain ⟨G, hG⟩ := sound_of_reachable h
  refine ⟨hG.one, fun c p hc hfree => ?_, fun a n k ha hcode => ?_, fun a l hw hl => ?_, fun p l hcode hl => ?_⟩
  · -- it knows its state without the lock
    have ha : s.active (.proc p) = true := active_proc_iff.mpr ⟨c, hc⟩
    obtain ⟨st, hst⟩ := Option.ne_none_iff_exists'.mp (hG.self p)
    rcases hG.stable _ p st hst with hm | ⟨-, hne⟩ | ⟨rfl, -⟩
    · have := hG.mine _ _ ha hm rfl
      rw [hfree] at this
      cases this
    · exact absurd rfl hne
    · exact hG.known _ p _ hst (.inl ha)
  · have hok := hG.code a
    rw [hcode] at hok
    obtain ⟨p, rfl, hheld, ⟨st, hst, hne⟩, -⟩ := hok
    have hmine := hG.mine _ (.proc p) ha (by simp [hheld]) rfl
    have hnoff : s.noff (.proc p) = 1 := by rw [(hG.thread _).noff, hheld]; rfl
    have hstate : s.state p ≠ .running := by rwa [hG.known _ p st hst (.inl ha)]
    obtain ⟨c, hc⟩ := Option.isSome_iff_exists.mp ha
    simp [LockState.exec, hmine, hnoff, hstate, hc]
  · obtain ⟨k, hcode⟩ := hw
    have hok := hG.code a
    rw [hcode] at hok
    exact hok.1.not_mem (hG.held a l hl).2
  · have hok := hG.code (.proc p)
    rw [hcode] at hok
    have hm := (hG.held _ l hl).2
    rw [show G (.proc p) = _ from hok] at hm
    cases hm

/-! ### A run -/

/-- Make the steps of a list. -/
def LockState.runs (s : LockState) : List Act → Option LockState
  | [] => some s
  | act :: acts =>
    match s.step act with
    | some t => t.runs acts
    | none => none

theorem reachable_runs {s t : LockState} {acts : List Act} (hs : lockMachine.Reachable s)
    (h : s.runs acts = some t) : lockMachine.Reachable t := by
  induction acts generalizing s with
  | nil =>
    cases h
    exact hs
  | cons act acts ih =>
    rw [LockState.runs] at h
    split at h
    · rename_i u hu
      exact ih (hs.snoc hu) h
    · cases h

/-- The lock that a thread waits for. -/
def waitsFor (s : LockState) (a : Agent) : Option Lock :=
  match s.code a with
  | .op (.acquire l) _ => some l
  | _ => none

theorem waits_of_waitsFor {s : LockState} {a : Agent} {l : Lock} (h : waitsFor s a = some l) : Waits s a l := by
  unfold waitsFor at h
  split at h
  · rename_i l' k hcode
    cases h
    exact ⟨k, hcode⟩
  · cases h

/-- The first process forks, and then takes `state_lock` of page `0` in `shmem_set_writable`. The child calls `exit`
on another CPU and comes to where it takes the same lock; meanwhile the scheduler of a third CPU has taken the lock of
the first process to look at its state. -/
def exitMeetsSet : List Act :=
  List.replicate 5 (.run (.cpu 0) 0) ++ [.run (.proc 0) 0, .begin 0 .fork] ++
    List.replicate 9 (.run (.proc 0) 0) ++ [.run (.proc 0) 1, .run (.proc 0) 0, .run (.proc 0) 0, .run (.proc 0) 1] ++
    List.replicate 9 (.run (.proc 0) 0) ++
    List.replicate 8 (.run (.cpu 1) 0) ++ [.run (.proc 1) 0, .begin 1 .exit] ++
    List.replicate 255 (.run (.proc 1) 0) ++
    [.begin 0 (.shmemSet true 0), .run (.proc 0) 0, .run (.proc 0) 0] ++ List.replicate 2 (.run (.cpu 2) 0)

theorem no_deadlock_at_exit :
    ∃ s, lockMachine.Reachable s ∧ Holds s (.proc 1) .wait ∧ Holds s (.proc 1) (.proc 1) ∧ Waits s (.proc 1) (.state 0) ∧
      Holds s (.proc 0) (.state 0) ∧ Waits s (.proc 0) (.proc 0) ∧ Holds s (.cpu 2) (.proc 0) ∧
      ∀ a, ¬ Relation.TransGen (Blocks (Holds s) (Waits s)) a a := by
  have hrun : ((LockState.boot.runs exitMeetsSet).map fun s =>
      decide (s.holder .wait = some (.proc 1) ∧ s.holder (.proc 1) = some (.proc 1) ∧
        waitsFor s (.proc 1) = some (.state 0) ∧ s.holder (.state 0) = some (.proc 0) ∧
        waitsFor s (.proc 0) = some (.proc 0) ∧ s.holder (.proc 0) = some (.cpu 2))) = some true := by
    decide +kernel
  obtain ⟨s, hs, hx⟩ := Option.map_eq_some_iff.mp hrun
  obtain ⟨h1, h2, h3, h4, h5, h6⟩ := of_decide_eq_true hx
  have hreach := reachable_runs (.start rfl) hs
  exact ⟨s, hreach, h1, h2, waits_of_waitsFor h3, h4, waits_of_waitsFor h5, h6, fun a => no_deadlock hreach a⟩

theorem runs_once_of_first : ∃ s, lockMachine.Reachable s ∧ s.on 0 = some 0 ∧ ∀ c, s.on c = some 0 → c = 0 := by
  have hrun : ((LockState.boot.runs (List.replicate 5 (.run (.cpu 0) 0))).map fun s => decide (s.on 0 = some 0)) = some true := by
    decide +kernel
  obtain ⟨s, hs, hx⟩ := Option.map_eq_some_iff.mp hrun
  have hreach := reachable_runs (.start rfl) hs
  exact ⟨s, hreach, of_decide_eq_true hx, fun c hc => (runs_once hreach).1 c 0 0 hc (of_decide_eq_true hx)⟩

end Xv6Shmem.Locking
