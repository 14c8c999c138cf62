import Xv6Shmem.Interaction.Children

/-!
# Lost updates

`numberofusers++` is a load and a store. The calls that make it hold `state_lock`, but for
`fork`, which holds the lock of the child. So a `fork` and a call of another process can
both load the counter before either stores it, and one of the two updates is lost.

As long as that does not happen, the counter is right whenever it is looked at: between
the calls it is the number of processes that have the flag.
-/

namespace Xv6Shmem.Interaction

open Kernel Tally LTS

/-- The process is in `fork`, in `exit`, or in a call that changes a counter under `state_lock`. -/
def Pc.changing : Pc → Bool
  | .forkAlloc _ | .forkLink _ | .forkLinked _ | .forkRun _ | .forkPage _ _ | .forkLoad _ _ | .forkStore _ _ _
  | .exitLock | .exitPage _ | .exitZombie | .exitDone
  | .enter _ _ | .mark _ _ | .marked _ _ | .load _ _ | .store _ _ _ | .finish _ _ | .leave _ _ | .unlock _ _ => true
  | _ => false

/-- No such call is in progress. -/
def Quiescent (s : IState) : Prop := ∀ p, (s.pc p).changing = false

instance (s : IState) : Decidable (Quiescent s) := inferInstanceAs (Decidable (∀ _, _))

/-- Between the calls, who is counted is who holds the page. -/
theorem counted_of_quiescent {s : IState} (h : Quiescent s) (i : PageNo) (q : Slot) :
    counted s i q = s.kern.holds i q := by
  rw [counted_of_noChild fun r hr => ?_]
  · have hq := h q
    revert hq
    cases s.pc q <;> first | exact fun _ => rfl | nofun
  · have hc := h r
    revert hc hr
    cases s.pc r <;> nofun

/-- **No update is lost while the updates are apart**: in every run whose steps all keep the updates of `fork`
apart from the others, whenever no call that changes a counter is in progress, the counter of every page is the
number of processes that have not exited and have access to it. -/
theorem no_update_lost {base : ℤ} {m : Mem} {s t : IState} {tr : List (IState × Slot × Act)}
    (hr : (imachine base m).Run (iboot base m) tr t) (happ : ∀ x ∈ tr, UpdatesApart x.1 x.2)
    (hs : s ∈ visited tr t) (hq : Quiescent s) (i : PageNo) :
    (s.kern.shmem i).numberofusers.toInt =
      (Finset.univ.filter fun p : Slot => (s.kern.proc p).live ∧ (s.kern.proc p).shmemAccess i).card := by
  have hrun : ((imachine base m).restrict UpdatesApart).Run (iboot base m) tr t := run_restrict_iff.mpr ⟨hr, happ⟩
  have hinv := inv_of_reachable (hrun.reachable_of_mem (.start rfl) hs)
  have hu := (hinv.tallied.users i).congr fun q => (counted_of_quiescent hq i q).symm
  rw [Counts, tally] at hu
  rw [hu]
  simp only [State.holds, Bool.and_eq_true]

/-! ### Two runs -/

/-- The first process sets page `0` and forks; the child is in slot `1`. -/
def setAndFork : List (Slot × Act) :=
  (0, .call (.set true) 0) :: steps 8 0 ++ (0, .fork 1) :: steps 11 0

/-- After that run the counter is right. -/
theorem two_users_between_calls :
    ∃ tr s, (imachine 0x87f00000 fun _ => 0).Run (iboot 0x87f00000 fun _ => 0) tr s ∧ tr.map Prod.snd = setAndFork ∧
      Quiescent s ∧ (s.kern.shmem 0).numberofusers = 2 ∧
      (Finset.univ.filter fun p : Slot => (s.kern.proc p).live ∧ (s.kern.proc p).shmemAccess 0).card = 2 := by
  have hrun : ((traceActs (iboot 0x87f00000 fun _ => 0) setAndFork).map fun x =>
      (decide (x.1.map Prod.snd = setAndFork), x.1.all fun y => UpdatesApart y.1 y.2, decide (Quiescent x.2),
        (x.2.kern.shmem 0).numberofusers)) = some (true, true, true, 2) := by decide +kernel
  obtain ⟨⟨tr, s⟩, hs, hx⟩ := Option.map_eq_some_iff.mp hrun
  simp only [Prod.mk.injEq, List.all_eq_true, decide_eq_true_eq] at hx
  obtain ⟨hacts, happ, hq, hn⟩ := hx
  have htr := traceActs_iboot hs
  have h := no_update_lost htr happ (mem_visited.mpr (.inr rfl)) hq 0
  refine ⟨tr, s, htr, hacts, hq, hn, ?_⟩
  rw [hn, show (2 : Int32).toInt = 2 from rfl] at h
  exact_mod_cast h.symm

/-- The first process forks again. Its `fork` has loaded the counter of page `0` when the first child gives its
access up, and stores it after that. -/
def releaseDuringFork : List (Slot × Act) :=
  setAndFork ++ (0, .fork 2) :: steps 6 0 ++ (1, .call .release 0) :: steps 8 1 ++ steps 5 0

/-- **An update is lost**: after that run no call is in progress, two processes have access to page `0`, and the
counter is `3`. -/
theorem release_lost_in_fork :
    ∃ tr s, (imachine 0x87f00000 fun _ => 0).Run (iboot 0x87f00000 fun _ => 0) tr s ∧
      tr.map Prod.snd = releaseDuringFork ∧ Quiescent s ∧ (s.kern.shmem 0).numberofusers = 3 ∧
      (Finset.univ.filter fun p : Slot => (s.kern.proc p).live ∧ (s.kern.proc p).shmemAccess 0) = {0, 2} := by
  have hrun : ((traceActs (iboot 0x87f00000 fun _ => 0) releaseDuringFork).map fun x =>
      (decide (x.1.map Prod.snd = releaseDuringFork), decide (Quiescent x.2), (x.2.kern.shmem 0).numberofusers,
        decide (∀ p : Slot, ((x.2.kern.proc p).live ∧ (x.2.kern.proc p).shmemAccess 0) ↔ p = 0 ∨ p = 2))) =
      some (true, true, 3, true) := by decide +kernel
  obtain ⟨⟨tr, s⟩, hs, hx⟩ := Option.map_eq_some_iff.mp hrun
  simp only [Prod.mk.injEq, decide_eq_true_eq] at hx
  obtain ⟨hacts, hq, hn, hp⟩ := hx
  refine ⟨tr, s, traceActs_iboot hs, hacts, hq, hn, ?_⟩
  ext p
  simp only [Finset.mem_filter, Finset.mem_univ, true_and, Finset.mem_insert, Finset.mem_singleton]
  exact hp p

end Xv6Shmem.Interaction
