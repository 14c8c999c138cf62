import Xv6Shmem.SharedMemory.Users

/-!
# The count of pages that a process has access to

`shmem_access_count` is to be the number of flags in `shmem_access`. `allocproc` takes one from it for each page, where it
clears the flags; `shmem_set_writable` and `shmem_set_unwritable` set a flag and add one; `shmem_acquire_access` and
`shmem_release_access` change a flag alone, `shmem_access` the count alone; and `fork` hands the flags on to a child whose
count starts anew. By how much each of these makes the count miss the flags is added up here beside the calls of a run.

## What is proved

* `accessCount_eq_iff` — the count of a process is the number of its flags exactly if what was added up comes to zero.
-/

namespace Xv6Shmem.SharedMemory

open Function Kernel LTS Tally

/-- What a call adds to how far the counts are above the flags. -/
def recordDrift (s : State) (e : Event) (d : Slot → ℤ) : Slot → ℤ :=
  match e.op with
  | .fork true =>
    match findUnused s with
    | some np => update d np (-SHMEM - tally (s.proc e.slot).shmemAccess)
    | none => d
  | .shmemAcquireAccess _ => if e.ret = some 1 then update d e.slot (d e.slot - 1) else d
  | .shmemReleaseAccess _ | .shmemAccess _ true => update d e.slot (d e.slot + 1)
  | _ => d

/-- How far the counts are above the flags after the calls of a run: for each process, its calls of `shmem_release_access`
and those of `shmem_access` that mapped a page, less its calls of `shmem_acquire_access` that returned `1`, the flags
that it had from its parent, and one for each page. -/
def drift (tr : List (State × Event)) : Slot → ℤ := ghostAfter recordDrift (fun _ => -SHMEM) tr

/-- The counts of the processes are so far above the flags. -/
def Accounted (s : State) (d : Slot → ℤ) : Prop :=
  ∀ q, (s.proc q).live → (s.proc q).shmemAccessCount = .ofInt (tally (s.proc q).shmemAccess + d q)

section Step

variable {base : ℤ} {m : Mem} {s t : State} {d : Slot → ℤ} {p : Slot}

theorem accounted_boot (base : ℤ) (m : Mem) : Accounted (boot base m) fun _ => -SHMEM := by
  intro q hq
  have h0 : q = 0 := by
    by_contra h0
    simp [boot, allocproc, tables, zeroProc, Proc.live, h0] at hq
  subst h0
  rfl

theorem Accounted.move {c : Proc} {x : ℤ} (h : Accounted s d) (ht : t.proc = update s.proc p c)
    (hc : c.live → c.shmemAccessCount = .ofInt (tally c.shmemAccess + x)) : Accounted t (update d p x) := by
  intro q hq
  rw [ht] at hq ⊢
  by_cases hqp : q = p
  · subst hqp
    rw [update_self] at hq ⊢
    rw [update_self]
    exact hc hq
  · rw [update_of_ne hqp] at hq ⊢
    rw [update_of_ne hqp]
    exact h q hq

theorem Accounted.setProc {c : Proc} (h : Accounted s d) (ht : t.proc = update s.proc p c)
    (hc : c.live → (s.proc p).live ∧ c.shmemAccessCount = (s.proc p).shmemAccessCount ∧ c.shmemAccess = (s.proc p).shmemAccess) :
    Accounted t d := by
  rw [← update_eq_self p d]
  refine h.move ht fun hl => ?_
  obtain ⟨hl', hn, ha⟩ := hc hl
  rw [hn, ha]
  exact h p hl'

theorem Accounted.access {acc : PageNo → Bool} {x n : ℤ} {c : Int32} (h : Accounted s d) (hp : (s.proc p).live)
    (ht : t.proc = update s.proc p { s.proc p with shmemAccess := acc, shmemAccessCount := c })
    (hc : c = (s.proc p).shmemAccessCount + .ofInt n) (hx : tally acc + x = tally (s.proc p).shmemAccess + d p + n) :
    Accounted t (update d p x) := by
  refine h.move ht fun _ => ?_
  dsimp only
  rw [hc, hx, h p hp, ← Int32.ofInt_add]

theorem tally_set {f : PageNo → Bool} {i : PageNo} (hi : f i = false) : tally (update f i true) = tally f + 1 :=
  tally_succ hi (update_self ..) fun _ hq => update_of_ne hq ..

theorem tally_clear {f : PageNo → Bool} {i : PageNo} (hi : f i = true) : tally f = tally (update f i false) + 1 :=
  tally_succ (update_self ..) hi fun _ hq => (update_of_ne hq ..).symm

variable (h : Accounted s d)

include h

/-- **A page is set**: there was no flag, for a page that is not set has no holder. -/
theorem Accounted.shmemSet {st : PageState} {i : PageNo} (hc : Counted s) (hp : (s.proc p).live)
    (hs : shmemSet st i p s = .ok t) : Accounted t d := by
  obtain ⟨hn, -, rfl⟩ := shmemSet_ok hs
  have hi : (s.proc p).shmemAccess i = false := by
    have := hc.idle i hn p
    rwa [State.holds, hp, Bool.true_and] at this
  rw [← update_eq_self p d]
  apply h.access (n := 1) hp rfl rfl
  rw [tally_set hi]
  omega

/-- `fork`: the child has the flags of its parent, and a count without them. -/
theorem Accounted.fork {mem : Bool} {r : Option Int32} (hs : ProcStep s p (.fork mem) t) :
    Accounted t (recordDrift s ⟨p, .fork mem, r⟩ d) := by
  cases hs with
  | access _ _ ha => cases ha
  | kill _ _ hop | exec _ hop | exit _ hop | wait _ hop => cases hop
  | keep _ _ hf _ _ hproc =>
    have hd : recordDrift s ⟨p, .fork mem, r⟩ d = d := by cases mem <;> simp [recordDrift, hf _ rfl]
    rw [hd, Accounted, hproc]
    exact h
  | fork np hop hf _ hproc =>
    cases hop
    simp only [recordDrift, hf]
    refine h.move hproc fun _ => ?_
    simp only [forkChild, add_sub_cancel]
    rfl
  | forkFree np hop _ _ hproc =>
    cases hop
    exact h.setProc hproc fun hl => by simp [Proc.freed, Proc.live] at hl

theorem Accounted.other {op : Op} (hs : ProcStep s p op t) (hf : ∀ mem, op ≠ .fork mem)
    (ha : ∀ acc n, ¬AccessStep (s.proc p) op acc n) : Accounted t d := by
  cases hs with
  | access acc n hacc => exact absurd hacc (ha acc n)
  | fork _ hop => exact absurd hop (hf true)
  | forkFree _ hop => exact absurd hop (hf false)
  | keep _ _ _ _ _ hproc =>
    rw [Accounted, hproc]
    exact h
  | kill q st _ hst _ hproc =>
    refine h.setProc hproc fun hl => ⟨?_, rfl, rfl⟩
    rwa [live_of_kill hst] at hl
  | exec _ _ _ _ hproc => exact h.setProc hproc fun hl => ⟨hl, rfl, rfl⟩
  | exit _ _ _ hproc =>
    have hr : Accounted (reparent p s) d := by
      intro q hq
      rw [Proc.live, reparent_state] at hq
      rw [reparent_shmemAccess, reparent_shmemAccessCount]
      exact h q hq
    exact hr.setProc hproc fun hl => by simp [Proc.live] at hl
  | wait q _ _ _ hproc => exact h.setProc hproc fun hl => by simp [Proc.freed, Proc.live] at hl

/-- **One call** keeps the account. -/
theorem Accounted.step {e : Event} (hc : Counted s) (hstep : (machine base m).step s e t) :
    Accounted t (recordDrift s e d) := by
  obtain ⟨p, op, r⟩ := e
  obtain ⟨hp, hcall⟩ := hstep
  dsimp only at hp hcall
  have hs := proc_step hp hcall
  cases op with
  | fork mem => exact h.fork hs
  | exec | exit | wait | kill | shmemSetInitInt | shmemWriteInt | shmemReadInt =>
    exact h.other hs (by simp) fun _ _ ha => by cases ha
  | shmemSetWritable i | shmemSetUnwritable i =>
    obtain ⟨t', ht, hr⟩ := map_ok_inv hcall
    cases hr
    exact h.shmemSet hc hp ht
  | shmemAcquireAccess i =>
    obtain ⟨⟨b, t'⟩, ht, hr⟩ := map_ok_inv hcall
    rcases shmemAcquireAccess_ok ht with ⟨rfl, -, rfl⟩ | ⟨rfl, -, ha, -, rfl⟩
    · cases hr
      exact h
    · cases hr
      apply h.access (n := 0) hp rfl (Int32.add_zero _).symm
      simp only [tally_set ha]
      omega
  | shmemReleaseAccess i =>
    obtain ⟨t', ht, hr⟩ := map_ok_inv hcall
    cases hr
    obtain ⟨-, -, -, ha, hproc, -⟩ := shmemReleaseAccess_ok ht
    apply h.access (n := 0) hp hproc (Int32.add_zero _).symm
    simp only [tally_clear ha]
    omega
  | shmemAccess i mapped =>
    obtain ⟨t', ht, hr⟩ := map_ok_inv hcall
    cases hr
    obtain ⟨-, rfl⟩ := getShmemAccess_ok ht
    cases mapped with
    | false => exact h
    | true =>
      apply h.access (n := 1) hp rfl rfl
      dsimp only
      omega

omit h

theorem accounted_of_run {tr : List (State × Event)} (h : (machine base m).Run (boot base m) tr s) : Accounted s (drift tr) := by
  induction h with
  | nil => exact accounted_boot base m
  | snoc hr hs ih =>
    rw [drift, ghostAfter, List.foldl_append]
    exact ih.step (counted_of_reachable ⟨_, _, rfl, hr⟩) hs

end Step

/-- **When the count is right**: after every run, `shmem_access_count` of a process that has not exited is the number of
its flags exactly if its drift is zero, up to a multiple of `2 ^ 32` at which the count wraps around. -/
theorem accessCount_eq_iff {base : ℤ} {m : Mem} {tr : List (State × Event)} {s : State} {p : Slot}
    (h : (machine base m).Run (boot base m) tr s) (hp : (s.proc p).live) :
    (s.proc p).shmemAccessCount.toInt = (Finset.univ.filter fun i : PageNo => (s.proc p).shmemAccess i).card ↔
      (2 ^ 32 : ℤ) ∣ drift tr p := by
  have hle : tally (s.proc p).shmemAccess ≤ 4 := by
    simpa [tally] using Finset.card_filter_le (Finset.univ : Finset PageNo) fun i => (s.proc p).shmemAccess i = true
  have hsize : (Int32.size : ℤ) = 2 ^ 32 := rfl
  rw [accounted_of_run h p hp, Int32.toInt_ofInt, Int.bmod_def, hsize, ← tally]
  omega

/-- A process that has set and released each page once has a count of zero, and no flags. -/
theorem accessCount_after_releases : ∃ tr s, (machine 0x87f00000 fun _ => 0).Run (boot 0x87f00000 fun _ => 0) tr s ∧
    (s.proc 0).live ∧
    (s.proc 0).shmemAccessCount.toInt = (Finset.univ.filter fun i : PageNo => (s.proc 0).shmemAccess i).card := by
  have hrun : ((traceCalls (boot 0x87f00000 fun _ => 0)
      ((List.finRange SHMEM).flatMap fun i => [(0, .shmemSetWritable i), (0, .shmemReleaseAccess i)])).map
        fun x => ((x.2.proc 0).live, drift x.1 0)) = some (true, 0) := by decide
  obtain ⟨⟨tr, s⟩, hs, hd⟩ := Option.map_eq_some_iff.mp hrun
  obtain ⟨hl, hd⟩ := Prod.mk.inj hd
  refine ⟨tr, s, traceCalls_boot hs, hl, (accessCount_eq_iff (traceCalls_boot hs) hl).mpr ?_⟩
  rw [hd]
  exact dvd_zero _

/-- At the start, the first process has no flags, and `-4` for their number. -/
theorem accessCount_wrong : ((boot 0x87f00000 fun _ => 0).proc 0).live ∧
    ((boot 0x87f00000 fun _ => 0).proc 0).shmemAccessCount.toInt = -4 ∧
    (Finset.univ.filter fun i : PageNo => ((boot 0x87f00000 fun _ => 0).proc 0).shmemAccess i).card = 0 := by
  decide

end Xv6Shmem.SharedMemory
