import Xv6Shmem.Interaction.Invariant
import Xv6Shmem.SharedMemory.Users

/-!
# The steps of a call keep the invariant

One lemma for each kind of step: those that only take a lock, give one back or look at
the tables; those that write a flag; the store of a counter; and the writing of a page's
entry. The steps of `fork`, which touch the slot of the child, are in
`Xv6Shmem.Interaction.Children`.
-/

namespace Xv6Shmem.Interaction

open Function Kernel Tally SharedMemory

/-- The invariant. -/
structure Inv (s : IState) : Prop where
  placed : Placed s
  tallied : Tallied s

section Steps

variable {s s' t : IState} {p : Slot} {c c' : Pc} {i : PageNo} {kind : Kind}

theorem setProcLock_other {o : Option Slot} {q : Slot} (hq : q ≠ p) :
    (s.setProcLock p o).procLock q = s.procLock q :=
  update_of_ne hq ..

theorem setStateLock_other {i j : PageNo} {o : Option Slot} {q : Slot} (hi : ∀ q, q ≠ p → s.stateLock i ≠ some q)
    (hq : q ≠ p) (hj : s.stateLock j = some q) : (s.setStateLock i o).stateLock j = some q := by
  have hne : j ≠ i := fun he => hi q hq (he ▸ hj)
  rw [← hj]
  exact update_of_ne hne ..

/-- **A quiet step**: process `p`, outside `fork`, goes from `c` to `c'`, makes `t` of the tables and the locks,
and changes no counter, no state of a page, and nobody's count. The defaults are right for a step that only takes
a lock of its own, gives one back, or looks at the tables. -/
structure Quiet (s t : IState) (p : Slot) (c c' : Pc) : Prop where
  before : s.pc p = c
  acts : c ≠ .idle ∨ CanBegin s p := by exact .inl (by simp)
  pc : t.pc = s.pc := by rfl
  slot : ∀ q, q ≠ p → (t.kern.proc q).state = (s.kern.proc q).state ∧
    (t.kern.proc q).shmemAccess = (s.kern.proc q).shmemAccess := by exact fun _ _ => ⟨rfl, rfl⟩
  stateLock : ∀ q i, q ≠ p → s.stateLock i = some q → t.stateLock i = some q := by exact fun _ _ _ => id
  procLock : ∀ q, q ≠ p → t.procLock q = s.procLock q := by
    first
    | exact fun _ _ => rfl
    | exact fun _ hq => setProcLock_other hq
  pages : ∀ i, (t.kern.shmem i).state = (s.kern.shmem i).state := by exact fun _ => rfl
  users : ∀ i, (t.kern.shmem i).numberofusers = (s.kern.shmem i).numberofusers := by exact fun _ => rfl
  noFork : c.child = none ∧ c'.child = none := by exact ⟨rfl, rfl⟩
  noSet : ∀ w i, c ≠ .finish (.set w) i := by simp
  here : At (t.go p c') p c' := by trivial
  runs : c'.runs = true →
    (c.runs = true ∨ CanBegin s p) ∧ (t.kern.proc p).state = (s.kern.proc p).state := by
      first
      | exact fun _ => ⟨.inl rfl, rfl⟩
      | exact fun hr => by cases hr
  exits : c'.exiting = true → t.procLock p = some p := by exact fun he => by cases he
  loads : ∀ q i, q ≠ p → (s.pc q).loaded = some i → c'.loaded ≠ some i := by
    exact fun _ _ _ _ hl => by cases hl
  saw : ∀ i st, c'.saw = some (i, st) →
    (c.saw = some (i, st) ∨ st ≠ .notSet ∧ (s.kern.shmem i).state = st) ∧
      (t.kern.proc p).shmemAccess = (s.kern.proc p).shmemAccess := by
      first
      | exact fun _ _ hs => ⟨.inl hs, rfl⟩
      | exact fun _ _ hs => by cases hs
  counts : ∀ i, c'.counts i (t.kern.holds i p) = c.counts i (s.kern.holds i p) := by exact fun _ => rfl

variable (h : Inv s)

include h

theorem Inv.noChild (hp : s.pc p ≠ .idle ∨ CanBegin s p) : ∀ q, (s.pc q).child ≠ some p := by
  rcases hp with hp | hp
  · exact h.placed.noChild_of_pc hp
  · exact h.placed.noChild_of_canBegin hp

theorem Inv.at_pc (hc : s.pc p = c) : At s p c ∧ (c.exiting = true → s.procLock p = some p) :=
  hc ▸ ⟨h.placed.here p, h.placed.exits p⟩

theorem Inv.alive (hp : (s.pc p).runs = true ∨ CanBegin s p) :
    (s.kern.proc p).live = true ∧ (s.kern.proc p).state ≠ .used := by
  rcases hp with hp | hp
  · exact h.placed.runs p hp
  · exact ⟨hp.2.1, hp.2.2.1⟩

theorem Inv.quiet (hq : Quiet s t p c c') : Inv (t.go p c') := by
  obtain ⟨rfl, hacts, hpc, hslot, hsl, hpl, hpages, husers, ⟨hc, hc'⟩, hset, hat, hruns, hexit, hload, hsaw,
    hcounts⟩ := hq
  have hp := h.noChild hacts
  have hfree : NoChild s p p := fun q _ => hp q
  have hm : Moves s (t.go p c') p none c' :=
    { pc := by rw [IState.go, hpc]
      slot := fun q hq _ => hslot q hq
      stateLock := hsl
      procLock := fun q hq _ => hpl q hq
      page := fun _ i _ _ => hpages i
      users := fun _ i _ _ => husers i }
  have hpend : ∀ {c : Pc} {q i}, c.child = none → c.pending ≠ some (q, i) := fun hc hq => by
    rw [Pc.child_of_pending hq] at hc
    cases hc
  constructor
  · refine h.placed.move hm hfree (by simp) hat (fun hr => ?_) hexit (fun np hn => by rw [hc'] at hn; cases hn) hload
    obtain ⟨hr, hst⟩ := hruns hr
    rw [Proc.live, show ((t.go p c').kern.proc p).state = (s.kern.proc p).state from hst]
    exact h.alive hr
  · refine h.tallied.quiet hm (by simp) hpages husers (fun i q => ?_) hset fun i st hs => ?_
    · by_cases hq : q = p
      · subst hq
        rw [counted_of_noChild (hm.noChild hfree (by rw [hc']; simp)), counted_of_noChild hp, hm.pc_self]
        exact hcounts i
      · exact hm.counted_other hq (by simp) (iff_of_false (hpend hc') (hpend hc))
    · obtain ⟨hs, hacc⟩ := hsaw i st hs
      rw [show ((t.go p c').kern.proc p).shmemAccess = (s.kern.proc p).shmemAccess from hacc,
        show ((t.go p c').kern.shmem i).state = (s.kern.shmem i).state from hpages i]
      rcases hs with hs | ⟨hst, hs⟩
      · exact h.tallied.saw p i st hs
      · exact ⟨hst, fun _ => hs⟩

omit h

/-- A step leaves the tables and the locks of the others as they are. -/
structure Leaves (s t : IState) (p : Slot) : Prop where
  proc : t.kern.proc = s.kern.proc
  shmem : t.kern.shmem = s.kern.shmem
  pc : t.pc = s.pc
  stateLock : ∀ q i, q ≠ p → s.stateLock i = some q → t.stateLock i = some q
  procLock : ∀ q, q ≠ p → t.procLock q = s.procLock q

theorem Leaves.refl (s : IState) (p : Slot) : Leaves s s p := ⟨rfl, rfl, rfl, fun _ _ _ => id, fun _ _ => rfl⟩

theorem leaves_setProcLock (o : Option Slot) : Leaves s (s.setProcLock p o) p :=
  ⟨rfl, rfl, rfl, fun _ _ _ => id, fun _ hq => setProcLock_other hq⟩

theorem leaves_setPageLock (i : PageNo) (o : Option Slot) : Leaves s (s.setPageLock i o) p :=
  ⟨rfl, rfl, rfl, fun _ _ _ => id, fun _ _ => rfl⟩

/-- **A step between two places in a call** at which the process counts the same, with what is known of the new place. -/
theorem Inv.calm (h : Inv s) (hc : s.pc p = c) (ht : Leaves s t p) (hat : At (t.go p c') p c')
    (hexit : c'.exiting = false ∨ t.procLock p = some p)
    (hview : (c.runs, c.child, c'.child, c'.loaded, c'.counts) = (true, none, none, none, c.counts))
    (hsaw : c'.saw = c.saw ∨ c'.saw = none) (hset : ∀ w i, c ≠ .finish (.set w) i) : Inv (t.go p c') := by
  simp only [Prod.mk.injEq] at hview
  obtain ⟨hruns, hchild, hchild', hload, hcounts⟩ := hview
  refine h.quiet
    { before := hc, acts := .inl fun he => ?_, pc := ht.pc, stateLock := ht.stateLock, procLock := ht.procLock
      slot := fun q _ => by rw [ht.proc]; exact ⟨rfl, rfl⟩
      pages := fun i => by rw [ht.shmem]
      users := fun i => by rw [ht.shmem]
      noFork := ⟨hchild, hchild'⟩, noSet := hset, here := hat
      runs := fun _ => ⟨.inl hruns, by rw [ht.proc]⟩
      exits := fun he => hexit.resolve_left (by rw [he]; decide), loads := fun _ _ _ _ => by rw [hload]; simp
      saw := fun i st hs => ⟨.inl ?_, by rw [ht.proc]⟩
      counts := fun i => by rw [hcounts, State.holds, State.holds, ht.proc] }
  · rw [he] at hruns
    cases hruns
  · rcases hsaw with heq | hnone
    · rw [← heq, hs]
    · rw [hnone] at hs
      cases hs

/-! ### Storing a counter -/

theorem setUsers_state (n : Int32) (i j : PageNo) :
    (((s.setUsers i n).go p c').kern.shmem j).state = (s.kern.shmem j).state := by
  by_cases hj : j = i <;> simp [IState.go, IState.setUsers, IState.setShmem, hj]

theorem setUsers_other (n : Int32) {i j : PageNo} (hj : j ≠ i) :
    (((s.setUsers i n).go p c').kern.shmem j).numberofusers = (s.kern.shmem j).numberofusers := by
  simp [IState.go, IState.setUsers, IState.setShmem, hj]

theorem setUsers_self (n : Int32) (i : PageNo) :
    (((s.setUsers i n).go p c').kern.shmem i).numberofusers = n := by
  simp [IState.go, IState.setUsers, IState.setShmem]

/-- The store of a counter that `p` has loaded, and so nobody else. -/
theorem Moves.setUsers (n : Int32) (h : Placed s) (hp : (s.pc p).loaded = some i) :
    Moves s ((s.setUsers i n).go p c') p none c' where
  pc := rfl
  slot := fun _ _ _ => ⟨rfl, rfl⟩
  stateLock := fun _ _ _ => id
  procLock := fun _ _ _ => rfl
  page := fun _ _ _ _ => setUsers_state n i _
  users := fun q _ hq hj => setUsers_other n fun hji => hq (h.alone q p i (hji ▸ hj) hp)

/-- A store of the counter of page `i` after which slot `x` is counted, or no longer, as the counter says. -/
theorem Tallied.setUsers {n : Int32} {x : Slot} (h : Tallied s)
    (hm : Moves s ((s.setUsers i n).go p c') p none c')
    (helse : ∀ j q, ¬ (j = i ∧ q = x) → counted ((s.setUsers i n).go p c') j q = counted s j q)
    (hset : ∀ w j, s.pc p ≠ .finish (.set w) j) (hsaw : ∀ x, c'.saw ≠ some x)
    (hcount : Counts n (counted ((s.setUsers i n).go p c') i))
    (hx : (s.kern.shmem i).state = .notSet → counted ((s.setUsers i n).go p c') i x = true →
      ∃ w, ((s.setUsers i n).go p c').pc x = .finish (.set w) i) : Tallied ((s.setUsers i n).go p c') where
  users := fun j => by
    by_cases hj : j = i
    · subst hj
      rw [setUsers_self]
      exact hcount
    · rw [setUsers_other n hj]
      exact (h.users j).congr fun q => helse j q fun hjq => hj hjq.1
  idle := fun j hn q hq => by
    rw [setUsers_state] at hn
    by_cases hjq : j = i ∧ q = x
    · obtain ⟨rfl, rfl⟩ := hjq
      exact hx hn hq
    · rw [helse j q hjq] at hq
      obtain ⟨w, hw⟩ := h.idle j hn q hq
      have hqp : q ≠ p := fun hqp => hset w j (hqp ▸ hw)
      exact ⟨w, by rw [hm.pc_other hqp, hw]⟩
  saw := fun q j st hq => by
    by_cases hqp : q = p
    · rw [hqp, hm.pc_self] at hq
      exact absurd hq (hsaw _)
    · rw [hm.pc_other hqp] at hq
      rw [setUsers_state]
      exact h.saw q j st hq

/-- Who has loaded a counter has locked the page, or is in `fork`. -/
theorem Placed.lock_of_loaded (h : Placed s) {q : Slot} (hq : (s.pc q).loaded = some i) :
    s.stateLock i = some q ∨ (s.pc q).forkLoaded = some i := by
  have ha := h.here q
  revert hq ha
  cases s.pc q with
  | store kind j n => rintro ⟨⟩ ha; exact .inl ha.1
  | forkStore np j n => rintro ⟨⟩ -; exact .inr rfl
  | _ => rintro ⟨⟩

/-! ### Clearing a page -/

theorem clear_state {i j : PageNo} (hj : j ≠ i) : ((s.clear i).kern.shmem j).state = (s.kern.shmem j).state := by
  simp [IState.clear, hj]

theorem clear_users (i j : PageNo) :
    ((s.clear i).kern.shmem j).numberofusers = (s.kern.shmem j).numberofusers := by
  by_cases hj : j = i <;> simp [IState.clear, hj]

theorem Clears.users (h : Clears p s i kind) : (s.kern.shmem i).numberofusers = 0 := by
  cases kind with
  | set w => cases h
  | acquire => cases h
  | release => exact h
  | exit => exact h.1

/-! ### Writing and reading -/

include h

theorem Inv.write_step (i : PageNo) (index value : Int32)
    (hc : s.pc p = .writeEnter i index value ∨ s.pc p = .writeAccess i index value ∨
      s.pc p = .writeChecked i index value ∨ s.pc p = .writeLock i index value ∨
      s.pc p = .writeStore i index value ∨ s.pc p = .writeUnlock i)
    (hs : next p s = some s') : Inv s' := by
  have ha := h.placed.here p
  rcases hc with hc | hc | hc | hc | hc | hc <;> rw [hc] at ha <;> simp only [next, hc] at hs
  · split_ifs at hs
    cases hs
    exact h.calm hc (leaves_setProcLock _) trivial (.inl rfl) rfl (.inl rfl) (by simp)
  · split_ifs at hs with hacc
    cases hs
    exact h.calm hc (.refl s p) hacc (.inl rfl) rfl (.inl rfl) (by simp)
  · cases hs
    exact h.calm hc (leaves_setProcLock _) ha (.inl rfl) rfl (.inl rfl) (by simp)
  · split_ifs at hs
    cases hs
    exact h.calm hc (leaves_setPageLock ..) ha (.inl rfl) rfl (.inl rfl) (by simp)
  · cases hs
    exact h.calm hc ⟨rfl, rfl, rfl, fun _ _ _ => id, fun _ _ => rfl⟩ trivial (.inl rfl) rfl (.inr rfl) (by simp)
  · cases hs
    exact h.calm hc (leaves_setPageLock ..) trivial (.inl rfl) rfl (.inl rfl) (by simp)

theorem Inv.read_step (i : PageNo) (index : Int32) (st : PageState) (locked : Bool)
    (hc : s.pc p = .readAccess i index st ∨ s.pc p = .readState i index st ∨ s.pc p = .readLock i index st ∨
      s.pc p = .readLoad i index st locked ∨ s.pc p = .readUnlock i)
    (hs : next p s = some s') : Inv s' := by
  have ha := h.placed.here p
  rcases hc with hc | hc | hc | hc | hc <;> rw [hc] at ha <;> simp only [next, hc] at hs
  · split_ifs at hs with hacc
    cases hs
    exact h.calm hc (.refl s p) hacc (.inl rfl) rfl (.inl rfl) (by simp)
  · cases hst : (s.kern.shmem i).state with
    | notSet => simp only [hst] at hs; cases hs
    | unwritable =>
      simp only [hst] at hs
      cases hs
      exact h.calm hc (.refl s p) ha (.inl rfl) rfl (.inl rfl) (by simp)
    | writable =>
      simp only [hst] at hs
      cases hs
      exact h.calm hc (.refl s p) ha (.inl rfl) rfl (.inl rfl) (by simp)
  · split_ifs at hs
    cases hs
    exact h.calm hc (leaves_setPageLock ..) ha (.inl rfl) rfl (.inl rfl) (by simp)
  · cases hs
    cases locked with
    | true => exact h.calm hc (.refl s p) trivial (.inl rfl) rfl (.inr rfl) (by simp)
    | false => exact h.calm hc (.refl s p) trivial (.inl rfl) rfl (.inr rfl) (by simp)
  · cases hs
    exact h.calm hc (leaves_setPageLock ..) trivial (.inl rfl) rfl (.inl rfl) (by simp)

/-! ### Under `state_lock` -/

theorem Inv.enter_step (hc : s.pc p = .enter kind i)
    (hs : next p s = some s') : Inv s' := by
  have ha := h.placed.here p
  rw [hc] at ha
  have hlock : kind.Checked (s.kern.shmem i).state → Inv ((s.setProcLock p (some p)).go p (.mark kind i)) :=
    fun hk => h.calm hc (leaves_setProcLock _) ⟨ha.1, hk, ha.2⟩ (.inr (update_self ..)) rfl (.inl rfl) (by simp)
  simp only [next, hc, stepEnter] at hs
  cases kind with
  | set w =>
    dsimp only at hs
    split_ifs at hs with hst
    cases hs
    exact hlock hst
  | acquire =>
    dsimp only at hs
    split_ifs at hs with hst
    · cases hs
      exact h.calm hc (.refl s p) ha.1 (.inl rfl) rfl (.inl rfl) (by simp)
    · cases hs
      exact hlock hst
  | release =>
    dsimp only at hs
    split_ifs at hs with hst
    cases hs
    exact hlock hst.1
  | exit => cases hs

/-- The flag is written; the counter does not know of it yet, and neither does who is counted. -/
theorem Inv.flag (hc : s.pc p = .mark kind i)
    (hold : s.kern.holds i p = !kind.flag) (hpc : t.pc = s.pc) (hsl : t.stateLock = s.stateLock)
    (hpl : t.procLock = s.procLock) (hstate : (t.kern.proc p).state = (s.kern.proc p).state)
    (hacc : (t.kern.proc p).shmemAccess = update (s.kern.proc p).shmemAccess i kind.flag)
    (hother : ∀ q, q ≠ p → t.kern.proc q = s.kern.proc q)
    (hpages : ∀ j, (t.kern.shmem j).state = (s.kern.shmem j).state)
    (husers : ∀ j, (t.kern.shmem j).numberofusers = (s.kern.shmem j).numberofusers) :
    Inv (t.go p (.marked kind i)) := by
  have ha := h.placed.here p
  rw [hc] at ha
  obtain ⟨hl, hk, hne⟩ := ha
  have hexit : (Pc.marked kind i).exiting = true → t.procLock p = some p := fun he =>
    absurd (of_decide_eq_true he) hne
  refine h.quiet
    { before := hc, pc := hpc, slot := fun q hq => by rw [hother q hq]; exact ⟨rfl, rfl⟩
      stateLock := fun _ _ _ => by rw [hsl]; exact id
      procLock := fun _ _ => by rw [hpl]
      pages := hpages, users := husers, runs := fun _ => ⟨.inl rfl, hstate⟩, exits := hexit
      here := ⟨(congrFun hsl i).trans hl, ?_, (congrFun hacc i).trans (update_self ..)⟩
      counts := fun j => ?_ }
  · rw [show ((t.go p (.marked kind i)).kern.shmem i).state = (s.kern.shmem i).state from hpages i]
    exact hk
  · by_cases hj : i = j
    · subst hj
      rw [show Pc.counts (.mark kind i) i (s.kern.holds i p) = s.kern.holds i p from rfl, hold]
      cases kind <;> simp [Pc.counts, Kind.flag] at hne ⊢
    · have hholds : t.kern.holds j p = s.kern.holds j p := by
        rw [State.holds, State.holds, Proc.live, Proc.live, hstate, hacc, update_of_ne (Ne.symm hj)]
      rw [hholds]
      cases kind <;> simp [Pc.counts, hj] at hne ⊢

theorem Inv.mark_step (hc : s.pc p = .mark kind i)
    (hs : next p s = some s') : Inv s' := by
  have hr := h.alive (p := p) (.inl (by rw [hc]; rfl))
  have ha := h.placed.here p
  rw [hc] at ha
  simp only [next, hc, stepMark] at hs
  cases kind with
  | set w =>
    dsimp only at hs
    split_ifs at hs
    cases hs
    -- of a page that is not set nobody is counted, so the caller does not have the flag
    have hold : s.kern.holds i p = false := by
      have hcount : counted s i p = s.kern.holds i p := by
        rw [counted_of_noChild (h.noChild (.inl (by rw [hc]; simp))), hc]
        rfl
      by_contra hh
      obtain ⟨w', hw⟩ := h.tallied.idle i ha.2.1 p (by rw [hcount]; simpa using hh)
      rw [hc] at hw
      cases hw
    refine h.flag hc hold rfl rfl rfl ?_ ?_ ?_ ?_ ?_ <;>
      simp [IState.setFlag, IState.setProc, IState.setShmem, Kind.flag]
    · exact fun q hq => by simp [hq]
    · intro j
      by_cases hj : j = i <;> simp [hj]
    · intro j
      by_cases hj : j = i <;> simp [hj]
  | acquire =>
    dsimp only at hs
    split_ifs at hs with hacc
    cases hs
    refine h.flag hc (by simp [State.holds, hacc.1, Kind.flag]) rfl rfl rfl ?_ ?_ ?_ (fun _ => rfl) (fun _ => rfl) <;>
      simp [IState.setFlag, IState.setProc, Kind.flag]
    exact fun q hq => by simp [hq]
  | release =>
    dsimp only at hs
    split_ifs at hs with hacc
    cases hs
    refine h.flag hc (by simp [State.holds, hacc, hr.1, Kind.flag]) rfl rfl rfl ?_ ?_ ?_ (fun _ => rfl)
      (fun _ => rfl) <;> simp [IState.setFlag, IState.setProc, Kind.flag]
    exact fun q hq => by simp [hq]
  | exit => cases hs

theorem Inv.marked_step (hc : s.pc p = .marked kind i)
    (hs : next p s = some s') : Inv s' := by
  obtain ⟨ha, he⟩ := h.at_pc hc
  simp only [next, hc] at hs
  cases kind with
  | set w => cases hs; exact h.calm hc (leaves_setProcLock _) ha (.inl rfl) rfl (.inl rfl) (by simp)
  | acquire => cases hs; exact h.calm hc (.refl s p) ha (.inl rfl) rfl (.inl rfl) (by simp)
  | release => cases hs; exact h.calm hc (.refl s p) ha (.inl rfl) rfl (.inl rfl) (by simp)
  | exit => cases hs; exact h.calm hc (.refl s p) ha (.inr (he rfl)) rfl (.inl rfl) (by simp)

/-- The load. Whoever else has loaded the counter would be a `fork`: the others would have `state_lock`. -/
theorem Inv.load_step (hc : s.pc p = .load kind i)
    (happ : UpdatesApart s (p, .next)) (hs : next p s = some s') : Inv s' := by
  obtain ⟨ha, he⟩ := h.at_pc hc
  simp only [next, hc] at hs
  cases hs
  refine h.quiet { before := hc, here := ⟨ha.1, ha.2.1, ha.2.2, rfl⟩, exits := he, loads := fun q j hq hj he => ?_ }
  cases he
  rcases h.placed.lock_of_loaded hj with hl | hf
  · rw [ha.1] at hl
    exact hq (Option.some.inj hl).symm
  · exact (happ rfl i).1 (by rw [hc]; rfl) q hf

/-- The store. The process is counted from now on, or no longer. -/
theorem Inv.store_step {n : Int32} (hc : s.pc p = .store kind i n)
    (hs : next p s = some s') : Inv s' := by
  have hr := h.alive (p := p) (.inl (by rw [hc]; rfl))
  have hp := h.noChild (p := p) (.inl (by rw [hc]; simp))
  obtain ⟨ha, he⟩ := h.at_pc hc
  obtain ⟨hl, hk, hflag, rfl⟩ := ha
  simp only [next, hc] at hs
  cases hs
  have hm : Moves s _ p none (.finish kind i) :=
    Moves.setUsers (kind.update (s.kern.shmem i).numberofusers) h.placed (by rw [hc]; rfl)
  have hfree : NoChild s p p := fun q _ => hp q
  have hholds : s.kern.holds i p = kind.flag := by rw [State.holds, hr.1, hflag, Bool.true_and]
  have hother : ∀ j q, q ≠ p → counted _ j q = counted s j q := fun j q hq =>
    hm.counted_other hq (by simp) (iff_of_false (fun hx => by cases hx) (by rw [hc]; intro hx; cases hx))
  have hself : ∀ j, counted _ j p = (Pc.finish kind i).counts j (s.kern.holds j p) := fun j => by
    rw [counted_of_noChild (hm.noChild hfree fun hx => by cases hx), hm.pc_self]
    rfl
  have hself' : ∀ j, counted s j p = (Pc.store kind i (s.kern.shmem i).numberofusers).counts j (s.kern.holds j p) :=
    fun j => by rw [counted_of_noChild hp, hc]
  constructor
  · refine h.placed.move hm hfree (by simp) ⟨hl, ?_⟩ (fun _ => hr) he (fun _ hx => by cases hx)
      fun _ _ _ _ hx => by cases hx
    rw [setUsers_state]
    exact hk
  · refine h.tallied.setUsers hm (x := p) (fun j q hjq => ?_) (by rw [hc]; simp) (fun _ hx => by cases hx)
      ?_ fun hn hx => ?_
    · by_cases hq : q = p
      · subst hq
        have hj : j ≠ i := fun hj => hjq ⟨hj, rfl⟩
        rw [hself, hself']
        cases kind <;> simp [Pc.counts, Ne.symm hj, lt_iff_le_and_ne]
      · exact hother j q hq
    · have hu := h.tallied.users i
      have h0 := hself' i
      have h1 := hself i
      rw [hholds] at h0 h1
      cases kind with
      | set w => exact hu.join slots_lt (by rw [h0]; simp [Pc.counts]) (by rw [h1]; rfl) (hother i)
      | acquire => exact hu.join slots_lt (by rw [h0]; simp [Pc.counts]) (by rw [h1]; rfl) (hother i)
      | release => exact hu.leave (by rw [h0]; simp [Pc.counts]) (by rw [h1]; rfl) (hother i)
      | exit => exact hu.leave (by rw [h0]; simp [Pc.counts, Kind.flag]) (by rw [h1]; simp [Pc.counts]) (hother i)
    · rw [hm.pc_self]
      cases kind with
      | set w => exact ⟨w, rfl⟩
      | acquire => exact absurd hn hk
      | release => exact absurd hn hk
      | exit => rw [hself] at hx; simp [Pc.counts] at hx

/-- Who has checked the state of a page and has access to it is counted. -/
theorem Inv.counted_of_saw {q : Slot} {st : PageState} (hq : (s.pc q).saw = some (i, st))
    (hacc : (s.kern.proc q).shmemAccess i = true) : counted s i q = true := by
  have hruns : (s.pc q).runs = true := by
    revert hq
    cases s.pc q <;> intro hq <;> cases hq <;> rfl
  have hidle : s.pc q ≠ .idle := fun hi => by rw [hi] at hruns; cases hruns
  rw [counted_of_noChild (h.noChild (.inl hidle)), State.holds, (h.alive (.inl hruns)).1, hacc]
  revert hq
  cases s.pc q <;> intro hq <;> cases hq <;> rfl

/-- The entry of the page is written. Either the state stays, or the page was not set and is now, or the page has
no user. -/
theorem Inv.finish (hc : s.pc p = .finish kind i) (hpc : t.pc = s.pc)
    (hsl : t.stateLock = s.stateLock) (hpl : t.procLock = s.procLock) (hproc : t.kern.proc = s.kern.proc)
    (husers : ∀ j, (t.kern.shmem j).numberofusers = (s.kern.shmem j).numberofusers)
    (hpages : ∀ j, j ≠ i → (t.kern.shmem j).state = (s.kern.shmem j).state)
    (hi : (t.kern.shmem i).state = (s.kern.shmem i).state ∧ (∀ w, kind ≠ .set w) ∨
      (s.kern.shmem i).state = .notSet ∧ (t.kern.shmem i).state ≠ .notSet ∨
      (s.kern.shmem i).numberofusers = 0) : Inv (t.go p (.leave kind i)) := by
  have hr := h.alive (p := p) (.inl (by rw [hc]; rfl))
  have hp := h.noChild (p := p) (.inl (by rw [hc]; simp))
  obtain ⟨ha, he⟩ := h.at_pc hc
  have hm : Moves s (t.go p (.leave kind i)) p none (.leave kind i) :=
    { pc := by rw [IState.go, hpc]
      slot := fun q _ _ => by rw [show (t.go p (.leave kind i)).kern.proc = s.kern.proc from hproc]; exact ⟨rfl, rfl⟩
      stateLock := fun q j _ hj => (congrFun hsl j).trans hj
      procLock := fun q _ _ => congrFun hpl q
      page := fun q j hq hj => hpages j fun hji => by
        rw [hji, ha.1] at hj
        exact hq (Option.some.inj hj).symm
      users := fun _ j _ _ => husers j }
  have hfree : NoChild s p p := fun q _ => hp q
  have hcounted : ∀ j q, counted (t.go p (.leave kind i)) j q = counted s j q := fun j q => by
    by_cases hq : q = p
    · rw [hq, counted_of_noChild (hm.noChild hfree fun hx => by cases hx), counted_of_noChild hp, hm.pc_self, hc, State.holds,
        State.holds, show (t.go p (.leave kind i)).kern.proc = s.kern.proc from hproc]
      cases kind <;> rfl
    · exact hm.counted_other hq (by simp) (iff_of_false (fun hx => by cases hx) (by rw [hc]; intro hx; cases hx))
  constructor
  · refine h.placed.move hm hfree (by simp) ((congrFun hsl i).trans ha.1) (fun _ => ?_)
      (fun hk => (congrFun hpl p).trans (he hk)) (fun _ hx => by cases hx)
      fun _ _ _ _ hx => by cases hx
    rw [show (t.go p (.leave kind i)).kern.proc = s.kern.proc from hproc]
    exact hr
  · refine ⟨fun j => ?_, fun j hn q hq => ?_, fun q j st hq => ?_⟩
    · rw [show ((t.go p (.leave kind i)).kern.shmem j).numberofusers = _ from husers j]
      exact (h.tallied.users j).congr (hcounted j)
    · rw [hcounted] at hq
      have hkeep : (s.kern.shmem j).state = .notSet → (j = i → ∀ w, kind ≠ .set w) →
          ∃ w, (t.go p (.leave kind i)).pc q = .finish (.set w) j := by
        intro hn hset
        obtain ⟨w, hw⟩ := h.tallied.idle j hn q hq
        have hqp : q ≠ p := by
          rintro rfl
          rw [hc] at hw
          cases hw
          exact hset rfl w rfl
        exact ⟨w, by rw [hm.pc_other hqp, hw]⟩
      by_cases hj : j = i
      · subst hj
        rcases hi with ⟨he, hset⟩ | ⟨-, hne⟩ | h0
        · exact hkeep (he.symm.trans hn) fun _ => hset
        · exact absurd hn hne
        · rw [(h.tallied.users j).eq_zero_iff.mp h0 q] at hq
          cases hq
      · exact hkeep ((hpages j hj).symm.trans hn) fun hji => absurd hji hj
    · by_cases hqp : q = p
      · rw [hqp, hm.pc_self] at hq
        cases hq
      · rw [hm.pc_other hqp] at hq
        obtain ⟨hst, hs⟩ := h.tallied.saw q j st hq
        refine ⟨hst, fun hacc => ?_⟩
        rw [show (t.go p (.leave kind i)).kern.proc = s.kern.proc from hproc] at hacc
        by_cases hj : j = i
        · subst hj
          rcases hi with ⟨he, -⟩ | ⟨hn, -⟩ | h0
          · exact he.trans (hs hacc)
          · exact absurd ((hs hacc).symm.trans hn) hst
          · have hcount := h.counted_of_saw hq hacc
            rw [(h.tallied.users j).eq_zero_iff.mp h0 q] at hcount
            cases hcount
        · exact (hpages j hj).trans (hs hacc)

theorem Inv.finish_step (hc : s.pc p = .finish kind i)
    (hs : next p s = some s') : Inv s' := by
  have ha := h.placed.here p
  rw [hc] at ha
  simp only [next, hc] at hs
  cases hs
  have hclear : (∀ w, kind ≠ .set w) → Inv ((if Clears p s i kind then s.clear i else s).go p (.leave kind i)) := by
    intro hset
    split_ifs with h0
    · exact h.finish hc rfl rfl rfl rfl (clear_users i) (fun _ hj => clear_state hj) (.inr (.inr h0.users))
    · exact h.finish hc rfl rfl rfl rfl (fun _ => rfl) (fun _ _ => rfl) (.inl ⟨rfl, hset⟩)
  cases kind with
  | set w =>
    cases w with
    | true =>
      refine h.finish hc rfl rfl rfl rfl (fun j => ?_) (fun j hj => ?_) (.inr (.inl ⟨ha.2, ?_⟩))
      · by_cases hj : j = i <;> simp [IState.setPageLock, IState.setShmem, hj]
      · simp [IState.setPageLock, IState.setShmem, hj]
      · simp [IState.setPageLock, IState.setShmem]
    | false =>
      refine h.finish hc rfl rfl rfl rfl (fun j => ?_) (fun j hj => ?_) (.inr (.inl ⟨ha.2, ?_⟩))
      · by_cases hj : j = i <;> simp [IState.setShmem, hj]
      · simp [IState.setShmem, hj]
      · simp [IState.setShmem]
  | acquire => exact hclear (by simp)
  | release => exact hclear (by simp)
  | exit => exact hclear (by simp)

theorem Inv.leave_step (hc : s.pc p = .leave kind i)
    (hs : next p s = some s') : Inv s' := by
  obtain ⟨ha, he⟩ := h.at_pc hc
  simp only [next, hc] at hs
  cases hs
  cases kind with
  | set w => exact h.calm hc (.refl s p) ha (.inl rfl) rfl (.inl rfl) (by simp)
  | acquire => exact h.calm hc (leaves_setProcLock _) ha (.inl rfl) rfl (.inl rfl) (by simp)
  | release => exact h.calm hc (leaves_setProcLock _) ha (.inl rfl) rfl (.inl rfl) (by simp)
  | exit => exact h.calm hc (.refl s p) ha (.inr (he rfl)) rfl (.inl rfl) (by simp)

theorem Inv.unlock_step (hc : s.pc p = .unlock kind i)
    (hs : next p s = some s') : Inv s' := by
  obtain ⟨ha, he⟩ := h.at_pc hc
  have hlock : Leaves s (s.setStateLock i none) p := by
    refine ⟨rfl, rfl, rfl, fun q j hq => setStateLock_other (fun r hr hi => ?_) hq, fun _ _ => rfl⟩
    exact hr (Option.some.inj (hi.symm.trans ha))
  simp only [next, hc] at hs
  cases hs
  cases kind with
  | set w => exact h.calm hc hlock trivial (.inl rfl) rfl (.inl rfl) (by simp)
  | acquire => exact h.calm hc hlock trivial (.inl rfl) rfl (.inl rfl) (by simp)
  | release => exact h.calm hc hlock trivial (.inl rfl) rfl (.inl rfl) (by simp)
  | exit => exact h.calm hc hlock trivial (.inr (he rfl)) rfl (.inl rfl) (by simp)

/-! ### `exit` -/

theorem Inv.exit_step {k : ℕ}
    (hc : s.pc p = .exitLock ∨ s.pc p = .exitPage k ∨ s.pc p = .exitZombie ∨ s.pc p = .exitDone)
    (hs : next p s = some s') : Inv s' := by
  have ha := h.placed.here p
  have he := h.placed.exits p
  rcases hc with hc | hc | hc | hc <;> rw [hc] at ha he <;> simp only [next, hc] at hs
  · split_ifs at hs
    cases hs
    refine h.quiet { before := hc, exits := fun _ => update_self .., counts := fun _ => ?_ }
    simp [Pc.counts, State.holds, IState.setProcLock]
  · rw [stepExitPage] at hs
    split_ifs at hs with hk hl hacc
    · cases hs
      refine h.quiet
        { before := hc, stateLock := fun _ _ hq => setStateLock_other (by rw [hl]; simp) hq
          here := ⟨update_self .., trivial, hacc⟩, exits := he, counts := fun _ => ?_ }
      simp [Pc.counts, Fin.le_def, State.holds, IState.setStateLock]
    · cases hs
      refine h.quiet
        { before := hc, stateLock := fun _ _ hq => setStateLock_other (by rw [hl]; simp) hq
          here := ⟨update_self .., trivial⟩, exits := he, counts := fun j => ?_ }
      -- without the flag the process was not counted at this page
      by_cases hj : j = ⟨k, hk⟩
      · subst hj
        simp [Pc.counts, State.holds, hacc]
      · have hne : k ≠ j := fun he => hj (Fin.ext he.symm)
        simp [Pc.counts, State.holds, IState.setStateLock, Fin.lt_def, Nat.lt_iff_le_and_ne, hne]
    · cases hs
      have hnot : ∀ j : PageNo, ¬ k ≤ j := fun j hj => hk (lt_of_le_of_lt hj j.isLt)
      refine h.quiet { before := hc, slot := fun q hq => ?_, here := ?_, exits := he, counts := fun j => ?_ }
      · simp [IState.setProc, hq]
      · show (update s.kern.proc p { s.kern.proc p with state := .zombie } p).state = .zombie
        rw [update_self]
      · simp [Pc.counts, State.holds, Proc.live, IState.setProc, hnot j]
  · cases hs
    exact h.quiet { before := hc, here := ha, exits := he }
  · cases hs
    exact h.quiet { before := hc }

end Steps

end Xv6Shmem.Interaction
