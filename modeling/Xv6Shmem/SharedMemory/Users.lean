import Xv6Shmem.Kernel.Effects

/-!
# The counter of users

`numberofusers` is kept apart from the flags it counts: `fork`, `exit`,
`shmem_set_writable`, `shmem_set_unwritable`, `shmem_acquire_access` and
`shmem_release_access` each change one or the other or both, `exit` takes from the
counter without clearing the flag, and the slot of an exited process is used again.
The invariant says that the counter is the number of holders, a holder being a process
that has not exited and has the flag; and that a page that is `NOT_SET` has none, which
is why the two calls that set a page need not look at the flag they set.
-/

namespace Xv6Shmem.SharedMemory

open Kernel Tally

/-- The counter of every page is the number of its holders, and a page that is not set has
none. -/
structure Counted (s : State) : Prop where
  /-- The counter. -/
  users : ∀ i, Counts (s.shmem i).numberofusers (s.holds i)
  /-- A page that is not set. -/
  idle : ∀ i, (s.shmem i).state = .notSet → ∀ q, s.holds i q = false

theorem slots_lt : Fintype.card Slot < 2 ^ 31 := by simp [NPROC]

theorem boot_holds (base : ℤ) (m : Mem) (i : PageNo) (q : Slot) : (boot base m).holds i q = false := by
  by_cases hq : q = 0 <;> simp [boot, State.holds, allocproc, tables, zeroProc, hq]

theorem counted_boot (base : ℤ) (m : Mem) : Counted (boot base m) where
  users := fun i => by
    show Counts 0 _
    rw [Counts, tally_eq_zero_iff.mpr (boot_holds base m i)]
    rfl
  idle := fun i _ => boot_holds base m i

/-- What a call does to one page keeps the invariant at that page. -/
theorem Counted.page {s t : State} {p : Slot} {op : Op} {i : PageNo} (h : Counted s)
    (hs : PageStep s p op t i) :
    Counts (t.shmem i).numberofusers (t.holds i) ∧
      ((t.shmem i).state = .notSet → ∀ q, t.holds i q = false) := by
  have hu := h.users i
  have hi := h.idle i
  cases hs with
  | keep _ hg hh =>
    rw [hg]
    exact ⟨hu.congr hh, fun hn q => by rw [hh q, hi hn q]⟩
  | reserve _ _ _ _ hg hh =>
    rw [hg]
    exact ⟨hu.congr hh, fun hn q => by rw [hh q, hi hn q]⟩
  | set _ _ st hst hs _ hg hp hh =>
    rw [hg]
    exact ⟨hu.join slots_lt (hi hs p) hp hh, fun hn => absurd hn hst⟩
  | join _ _ q hs hq hq' _ hg hh =>
    rw [hg]
    refine ⟨hu.join slots_lt hq hq' hh, fun hn => ?_⟩
    -- a page someone holds or may acquire is set
    rcases hs with hs | ⟨hs, -⟩
    · rw [hi hn p] at hs
      cases hs
    · exact absurd hn hs
  | leave _ hp hp' _ hg hh =>
    rw [hg]
    refine ⟨hu.leave hp hp' hh, fun hn => ?_⟩
    rw [hi hn p] at hp
    cases hp
  | leaveReset _ hp hp' hn _ hg hh =>
    rw [hg]
    have hl := hu.leave hp hp' hh
    rw [hn] at hl
    exact ⟨hl, fun _ => hl.eq_zero_iff.mp rfl⟩
  | clear _ _ hn _ hg hh =>
    rw [hg]
    rw [hn] at hu
    exact ⟨hu.congr hh, fun _ => (hu.congr hh).eq_zero_iff.mp rfl⟩

theorem Counted.step {s t : State} {p : Slot} {op : Op} {r : Option Int32} (h : Counted s)
    (hp : (s.proc p).live) (hc : call p s op = .ok (r, t)) : Counted t where
  users := fun i => (h.page (page_step hp hc i)).1
  idle := fun i => (h.page (page_step hp hc i)).2

theorem counted_of_reachable {base : ℤ} {m : Mem} {s : State} (h : (machine base m).Reachable s) :
    Counted s := by
  refine h.invariant (fun s hs => ?_) fun s e t _ hi hstep => hi.step hstep.1 hstep.2
  rw [show s = boot base m from hs]
  exact counted_boot base m

end Xv6Shmem.SharedMemory
