import Xv6Shmem.SharedMemory.Users

/-!
# When a page is given back

`REPORT.md` says that when the number of users of a page drops to `0`, by
`shmem_release_access` or by `exit`, its values are zeroed and it goes back to
`NOT_SET`. `shmem_release_access` does that on the count alone; `exit` also wants
`using_top_pid` to be the `top_pid` of the exiting process, and `exec` changes that
`top_pid` while the process keeps its access. So a last holder that has called `exec`
since it got the page leaves it set, with no user, and unless some process of the old
group is still there to clear it, no one can ever use it again.

## What is proved

* `notSet_iff_no_users` — a run keeps "`NOT_SET` exactly when there is no user"
  exactly when no process exits as the last holder of a page of another group.
* `no_page_lost` — a run keeps every page that no process holds and no group owns
  ready to be claimed exactly when no process, by `exec` or `exit`, leaves a page in use
  without a holder and without a process of its group.
-/

namespace Xv6Shmem.SharedMemory

open Kernel Tally LTS

theorem sub_one_eq_zero_iff {n : Int32} : n - 1 = 0 ↔ n = 1 := by
  constructor
  · intro h
    have := congrArg (· + 1) h
    simpa using this
  · rintro rfl
    rfl

/-! ### Set pages have users -/

/-- Every page is `NOT_SET` exactly when it has no user. -/
def SetIffUsed (s : State) : Prop := ∀ i, (s.shmem i).state = .notSet ↔ (s.shmem i).numberofusers = 0

/-- If the call is `exit`, the process is in the group of every page whose last holder it is. -/
def ExitsOwnPages (s : State) (e : Event) : Prop :=
  e.op.isExit → ∀ i, (s.proc e.slot).shmemAccess i → (s.shmem i).numberofusers = 1 →
    (s.shmem i).usingTopPid = (s.proc e.slot).topPid

instance (s : State) (e : Event) : Decidable (ExitsOwnPages s e) :=
  inferInstanceAs (Decidable (_ → _))

variable {s t : State} {e : Event} {i : PageNo}

theorem setIffUsed_page (hc : Counted s) (hc' : Counted t)
    (hs : SetIffUsed s) (he : ExitsOwnPages s e) (hstep : PageStep s e.slot e.op t i) :
    (t.shmem i).state = .notSet ↔ (t.shmem i).numberofusers = 0 := by
  have hused : ∀ q, t.holds i q = true → (t.shmem i).numberofusers ≠ 0 := by
    intro q hq h0
    rw [(hc'.users i).eq_zero_iff.mp h0 q] at hq
    cases hq
  have hset : ∀ q, s.holds i q = true → (s.shmem i).state ≠ .notSet := by
    intro q hq hn
    rw [hc.idle i hn q] at hq
    cases hq
  cases hstep with
  | keep _ hg _ => rw [hg]; exact hs i
  | reserve _ _ _ _ hg _ => rw [hg]; exact hs i
  | set _ _ st hst _ _ hg hpt _ =>
    have h := hused _ hpt
    rw [hg] at h ⊢
    exact iff_of_false hst h
  | join _ _ q hj _ hq' _ hg _ =>
    have h := hused q hq'
    rw [hg] at h ⊢
    refine iff_of_false ?_ h
    rcases hj with hj | ⟨hj, -⟩
    · exact hset _ hj
    · exact hj
  | leave _ hh _ hn hg _ =>
    have hacc : (s.proc e.slot).shmemAccess i := by
      rw [State.holds, Bool.and_eq_true] at hh
      exact hh.2
    have h : (s.shmem i).numberofusers - 1 ≠ 0 := by
      rcases hn with hn | ⟨hop, hu⟩
      · exact hn
      · exact fun h1 => hu (he hop i hacc (sub_one_eq_zero_iff.mp h1))
    rw [hg]
    exact iff_of_false (hset _ hh) h
  | leaveReset _ _ _ _ _ hg _ => rw [hg]; exact iff_of_true rfl rfl
  | clear _ _ _ _ hg _ => rw [hg]; exact iff_of_true rfl rfl

/-- From a state in which every page is `NOT_SET` exactly when it has no user, a call keeps
that exactly when it is not an `exit` of the last holder of another group's page. -/
theorem setIffUsed_step (hc : Counted s) (hs : SetIffUsed s)
    (hp : (s.proc e.slot).live) (hcall : call e.slot s e.op = .ok (e.ret, t)) :
    SetIffUsed t ↔ ExitsOwnPages s e := by
  have hc' := hc.step hp hcall
  refine ⟨fun ht hop i hacc h1 => ?_, fun he i => setIffUsed_page hc hc' hs he (page_step hp hcall i)⟩
  by_contra hu
  obtain ⟨status, hop⟩ := Op.eq_exit_of_isExit hop
  rw [hop] at hcall
  obtain ⟨t', hex, hr⟩ := map_ok_inv hcall
  obtain rfl : t' = t := (Prod.mk.inj hr).2
  have hnr : ¬ ExitResets (s.proc e.slot) i (s.shmem i) := fun h => hu h.2
  have hg := (exit_ok hex).2.2.1 i
  rw [exitShmem, if_neg hnr, exitUsers_of_access hacc, sub_one_eq_zero_iff.mpr h1] at hg
  -- the page has no user left and is still set
  have hn : (s.shmem i).state = .notSet := by
    have := (ht i).mpr (by rw [hg])
    rwa [hg] at this
  rw [(hs i).mp hn] at h1
  exact absurd h1 (by decide)

/-- Calls that lose page `0`: a child sets it, calls `exec`, and exits. -/
def losingCalls : List (Slot × Op) :=
  [(0, .exec (some 1)), (0, .fork true), (1, .shmemSetWritable 0), (1, .exec (some 1)), (1, .exit 0)]

/-- Nothing is left of an earlier use of the page. -/
def Pristine (g : Shmem) : Prop := g.state = .notSet ∧ g.usingTopPid = -1 ∧ g.numberofusers = 0

instance (g : Shmem) : Decidable (Pristine g) := inferInstanceAs (Decidable (_ ∧ _ ∧ _))

theorem pristine_cleared (g : Shmem) : Pristine g.cleared := ⟨rfl, rfl, rfl⟩

/-- Any process can claim the page, by each of the three calls that do. -/
def Claimable (s : State) (i : PageNo) : Prop :=
  ∀ p, (∃ t, shmemSetWritable i p s = .ok t) ∧ (∃ t, shmemSetUnwritable i p s = .ok t) ∧
    ∀ index value, ∃ t, shmemSetInitInt i index value p s = .ok t

theorem claimPage_of_pristine (h : Pristine (s.shmem i)) (p : Slot) :
    claimPage i p s = .ok (s.setShmem i { s.shmem i with usingTopPid := (s.proc p).topPid }) := by
  rw [claimPage, if_pos h.2.1]

theorem claimable_of_pristine (h : Pristine (s.shmem i)) : Claimable s i := by
  have hset : ∀ st p, ∃ t, shmemSet st i p s = .ok t := by
    intro st p
    rw [shmemSet, if_neg (not_not.mpr h.1), claimPage_of_pristine h]
    exact ⟨_, rfl⟩
  refine fun p => ⟨hset _ p, hset _ p, fun index value => ?_⟩
  rw [shmemSetInitInt, if_neg (not_not.mpr h.1), claimPage_of_pristine h]
  exact ⟨_, rfl⟩

/-- Page `i` is lost: no process holds it, none is in the group that uses it, and yet it is in
use. -/
structure Lost (s : State) (i : PageNo) : Prop where
  /-- No process holds it. -/
  holder : ∀ q, s.holds i q = false
  /-- No process is in its group. -/
  group : ∀ q, (s.proc q).live → (s.proc q).topPid ≠ (s.shmem i).usingTopPid
  /-- It is in use. -/
  used : ¬ Pristine (s.shmem i)

/-- If `exec` takes process `p` out of a group that uses a page without a holder, then another
process of the group is left. -/
def ExecLeavesNone (s : State) (p : Slot) : Prop :=
  ∀ i, (∀ q, s.holds i q = false) → ¬ Pristine (s.shmem i) →
    (s.shmem i).usingTopPid = (s.proc p).topPid → (s.proc p).topPid ≠ (s.proc p).pid →
    ∃ q, q ≠ p ∧ (s.proc q).live ∧ (s.proc q).topPid = (s.shmem i).usingTopPid

/-- If process `p` exits as the last holder of another group's page, then a process of that
group is left. -/
def ExitLeavesNone (s : State) (p : Slot) : Prop :=
  ∀ i, (s.proc p).shmemAccess i → (s.shmem i).numberofusers = 1 →
    (s.shmem i).usingTopPid ≠ (s.proc p).topPid →
    ∃ q, (s.proc q).live ∧ (s.proc q).topPid = (s.shmem i).usingTopPid

/-- The call leaves no page in use without a holder and without a process of its group. -/
def LeavesNoPage (s : State) (e : Event) : Prop :=
  (e.op.isExec → ExecLeavesNone s e.slot) ∧ (e.op.isExit → ExitLeavesNone s e.slot)

instance (s : State) (p : Slot) : Decidable (ExecLeavesNone s p) :=
  inferInstanceAs (Decidable (∀ _, _))

instance (s : State) (p : Slot) : Decidable (ExitLeavesNone s p) :=
  inferInstanceAs (Decidable (∀ _, _))

instance (s : State) (e : Event) : Decidable (LeavesNoPage s e) := inferInstanceAs (Decidable (_ ∧ _))

theorem not_lost_of_leavesNoPage (hc : Counted s) (hs : ¬ Lost s i)
    (he : LeavesNoPage s e) (hpl : (s.proc e.slot).live) (hp : PageStep s e.slot e.op t i)
    (hg : GroupStep s e.slot e.op t) : ¬ Lost t i := by
  intro hl
  -- no process of the group is left, so none was there that the call lets stay
  have hgone : ∀ q, (s.proc q).live → (s.proc q).topPid = (t.shmem i).usingTopPid →
      q ≠ e.slot ∨ (e.op.isExec = false ∧ e.op.isExit = false) → False := by
    intro q hq htop hne
    have hql := hg.live_of_live hq (hne.imp_right And.right)
    have hqt := hg.topPid_eq hq (hne.imp_right And.left)
    exact hl.group q hql (hqt.trans htop)
  cases hp with
  | keep hx hgi hh =>
    have hnone : ∀ q, s.holds i q = false := fun q => by rw [← hh q, hl.holder q]
    have hused : ¬ Pristine (s.shmem i) := hgi ▸ hl.used
    rw [hgi] at hgone
    obtain ⟨q, hq, htop⟩ : ∃ q, (s.proc q).live ∧ (s.proc q).topPid = (s.shmem i).usingTopPid := by
      by_contra hno
      exact hs ⟨hnone, fun q hq htop => hno ⟨q, hq, htop⟩, hused⟩
    by_cases hqp : q = e.slot
    · subst hqp
      cases hg with
      | keep hop hop' _ _ => exact hgone _ hq htop (.inr ⟨hop, hop'⟩)
      | fork np hop hop' _ _ _ _ _ => exact hgone _ hq htop (.inr ⟨hop, hop'⟩)
      | exec hop htop' _ hlive _ _ =>
        by_cases hpid : (s.proc e.slot).topPid = (s.proc e.slot).pid
        · refine hl.group e.slot (by rw [hlive, hq]) ?_
          rw [htop', ← hpid, htop, hgi]
        · obtain ⟨r, hr, hrl, hrt⟩ := he.1 hop i hnone hused htop.symm hpid
          exact hgone r hrl hrt (.inl hr)
      | exit hop _ _ _ => exact (hx hop).2 ⟨(hc.users i).eq_zero_iff.mpr hnone, htop.symm⟩
    · exact hgone q hq htop (.inl hqp)
  | reserve hop hop' _ _ hgi _ => exact hgone _ hpl (by rw [hgi]) (.inr ⟨hop, hop'⟩)
  | set _ _ _ _ _ _ _ hpt _ =>
    rw [hl.holder] at hpt
    cases hpt
  | join _ _ q _ _ hqt _ _ _ =>
    rw [hl.holder] at hqt
    cases hqt
  | leave _ hps _ hn hgi hh =>
    have hlast : (s.shmem i).numberofusers - 1 = 0 :=
      ((hc.users i).sub_one_eq_zero_iff hps).mpr fun q hq => by rw [← hh q hq, hl.holder q]
    rcases hn with hn | ⟨hop, hu⟩
    · exact hn hlast
    · rw [State.holds, Bool.and_eq_true] at hps
      obtain ⟨q, hq, htop⟩ := he.2 hop i hps.2 (sub_one_eq_zero_iff.mp hlast) hu
      refine hgone q hq (by rw [htop, hgi]) (.inl ?_)
      rintro rfl
      exact hu htop.symm
  | leaveReset _ _ _ _ _ hgi _ => exact hl.used (hgi ▸ pristine_cleared _)
  | clear _ _ _ _ hgi _ => exact hl.used (hgi ▸ pristine_cleared _)

theorem execLeavesNone_of_not_lost (hop : e.op.isExec)
    (hg : GroupStep s e.slot e.op t) (ht : ∀ i, ¬ Lost t i) : ExecLeavesNone s e.slot := by
  intro i hnone hused hu hpid
  by_contra hno
  cases hg with
  | keep hop' _ _ _ => rw [hop] at hop'; cases hop'
  | fork _ hop' _ _ _ _ _ _ => rw [hop] at hop'; cases hop'
  | exit hop' _ _ _ =>
    obtain ⟨status, hs⟩ := Op.eq_exit_of_isExit hop'
    rw [hs] at hop
    cases hop
  | exec _ htop hgi hlive hts hacc =>
    refine ht i ⟨fun q => ?_, fun q hq htq => ?_, hgi ▸ hused⟩
    · rw [State.holds, hlive, hacc]
      exact hnone q
    · rw [hgi] at htq
      by_cases hqp : q = e.slot
      · subst hqp
        exact hpid (by rw [← hu, ← htq, htop])
      · exact hno ⟨q, hqp, by rw [← hlive, hq], by rw [← hts q hqp, htq]⟩

theorem exitLeavesNone_of_not_lost (hc : Counted s) (hpl : (s.proc e.slot).live)
    (hop : e.op.isExit) (hp : ∀ i, PageStep s e.slot e.op t i) (hg : GroupStep s e.slot e.op t)
    (ht : ∀ i, ¬ Lost t i) : ExitLeavesNone s e.slot := by
  intro i hacc h1 hu
  have hps : s.holds i e.slot = true := by rw [State.holds, hpl, hacc]; rfl
  by_contra hno
  cases hp i with
  | keep hx _ _ =>
    rw [(hx hop).1] at hps
    cases hps
  | reserve _ hop' _ _ _ _ => rw [hop] at hop'; cases hop'
  | set _ hop' _ _ _ _ _ _ _ => rw [hop] at hop'; cases hop'
  | join _ hop' _ _ _ _ _ _ _ => rw [hop] at hop'; cases hop'
  | leave _ _ hpt _ hgi hh =>
    have hothers := ((hc.users i).sub_one_eq_zero_iff hps).mp (sub_one_eq_zero_iff.mpr h1)
    refine ht i ⟨fun q => ?_, fun q hq htq => ?_, fun hpr => ?_⟩
    · by_cases hqp : q = e.slot
      · rw [hqp, hpt]
      · rw [hh q hqp, hothers q hqp]
    · rw [hgi] at htq
      cases hg with
      | keep _ hop' _ _ => rw [hop] at hop'; cases hop'
      | fork _ _ hop' _ _ _ _ _ => rw [hop] at hop'; cases hop'
      | exec hop' _ _ _ _ _ =>
        obtain ⟨status, hs⟩ := Op.eq_exit_of_isExit hop
        rw [hs] at hop'
        cases hop'
      | exit _ hgone hlive htop =>
        have hqp : q ≠ e.slot := by
          rintro rfl
          rw [hgone] at hq
          cases hq
        exact hno ⟨q, by rw [← hlive q hqp, hq], by rw [← htop, htq]⟩
    · rw [hgi] at hpr
      rw [hc.idle i hpr.1] at hps
      cases hps
  | leaveReset _ _ _ _ hu' _ _ => exact hu (hu' hop)
  | clear _ hps' _ _ _ _ =>
    rw [hps'] at hps
    cases hps

/-- From a state in which no page is lost, a call loses none exactly when it leaves none
behind. -/
theorem not_lost_step (hc : Counted s) (hs : ∀ i, ¬ Lost s i)
    (hpl : (s.proc e.slot).live) (hcall : call e.slot s e.op = .ok (e.ret, t)) :
    (∀ i, ¬ Lost t i) ↔ LeavesNoPage s e := by
  have hp := page_step hpl hcall
  have hg := group_step hpl hcall
  constructor
  · intro ht
    exact ⟨fun hop => execLeavesNone_of_not_lost hop hg ht,
      fun hop => exitLeavesNone_of_not_lost hc hpl hop hp hg ht⟩
  · intro he i
    exact not_lost_of_leavesNoPage hc (hs i) he hpl (hp i) hg

theorem not_lost_iff :
    ¬ Lost s i ↔
      ((∀ p, (s.proc p).live → (s.proc p).shmemAccess i = false) →
        (∀ p, (s.proc p).live → (s.proc p).topPid ≠ (s.shmem i).usingTopPid) →
        Pristine (s.shmem i) ∧ Claimable s i) := by
  have hholds : (∀ q, s.holds i q = false) ↔ ∀ p, (s.proc p).live → (s.proc p).shmemAccess i = false := by
    simp [State.holds]
  constructor
  · intro hl hh hg
    have hp : Pristine (s.shmem i) := by
      by_contra hused
      exact hl ⟨hholds.mpr hh, hg, hused⟩
    exact ⟨hp, claimable_of_pristine hp⟩
  · intro h hl
    exact hl.used (h (hholds.mp hl.holder) hl.group).1

/-- A child sets page `0` before its group has a top; it and its parent call `exec`, and it exits. -/
def orphaningCalls : List (Slot × Op) :=
  [(0, .fork true), (1, .shmemSetWritable 0), (1, .exec (some 1)), (0, .exec (some 1)), (1, .exit 0)]

end Xv6Shmem.SharedMemory
