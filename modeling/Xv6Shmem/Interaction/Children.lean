import Xv6Shmem.Interaction.Steps

/-!
# Children, and whole runs

The steps of `fork` and `wait` write the slot of a child, which is in no call of its own.
The child of a `fork` in progress is held back: before `fork` takes its lock it is `USED`,
and from then on it is locked. With these steps, and those that begin a call, every step
keeps the invariant, if it keeps the updates of `fork` apart from the others; so every
state that such steps lead to has it.
-/

namespace Xv6Shmem.Interaction

open Function Kernel Tally SharedMemory

section Children

variable {s s' t : IState} {p : Slot} {c c' : Pc} {np : Slot}

/-! ### A step that writes the slot of a child -/

/-- **A step that touches the slot of a child** `np`, which is in no call. Process `p` goes from `c` to `c'`; the
pages are as they were, and so is who is counted. -/
structure ChildStep (s t : IState) (p np : Slot) (c c' : Pc) : Prop where
  before : s.pc p = c
  acts : c ≠ .idle ∨ CanBegin s p := by exact .inl (by simp)
  ne : np ≠ p
  idle : s.pc np = .idle
  free : NoChild s p np
  pc : t.pc = s.pc := by rfl
  slot : ∀ q, q ≠ np → (t.kern.proc q).state = (s.kern.proc q).state ∧
    (t.kern.proc q).shmemAccess = (s.kern.proc q).shmemAccess := by exact fun _ _ => ⟨rfl, rfl⟩
  shmem : t.kern.shmem = s.kern.shmem := by rfl
  stateLock : t.stateLock = s.stateLock := by rfl
  procLock : ∀ q, q ≠ np → t.procLock q = s.procLock q := by
    first
    | exact fun _ _ => rfl
    | exact fun _ hq => setProcLock_other hq
  inFork : (c = .idle ∨ c.child = some np) ∧ (c' = .idle ∨ c'.child = some np) := by exact ⟨.inr rfl, .inr rfl⟩
  settled : c.pending = none ∧ c'.loaded = none := by exact ⟨rfl, rfl⟩
  here : At (t.go p c') p c' := by trivial
  holds : ∀ i, (if c'.pending = some (np, i) then false else t.kern.holds i np) = s.kern.holds i np

theorem Pc.of_fork (h : c = .idle ∨ c.child = some np) :
    c.exiting = false ∧ c.saw = none ∧ (∀ i b, c.counts i b = b) ∧ (∀ w i, c ≠ .finish (.set w) i) ∧
      (c ≠ .idle → c.runs = true) := by
  rcases h with rfl | h
  · exact ⟨rfl, rfl, fun _ _ => rfl, by simp, fun h => absurd rfl h⟩
  · cases c <;> cases h <;> exact ⟨rfl, rfl, fun _ _ => rfl, by simp, fun _ => rfl⟩

theorem Inv.childStep (h : Inv s) (hq : ChildStep s t p np c c') : Inv (t.go p c') := by
  obtain ⟨rfl, hacts, hne, hidle, hfree, hpc, hslot, hshmem, hsl, hpl, ⟨hc, hc'⟩, ⟨hpend, hload⟩, hat, hholds⟩ := hq
  obtain ⟨-, -, hcounts, hset, hrun⟩ := Pc.of_fork hc
  obtain ⟨hexit, hsaw, hcounts', -, -⟩ := Pc.of_fork hc'
  have hm : Moves s (t.go p c') p (some np) c' :=
    { pc := by rw [IState.go, hpc]
      slot := fun q _ hq => hslot q fun he => hq (congrArg some he.symm)
      stateLock := fun _ i _ hi => (congrFun hsl i).trans hi
      procLock := fun q _ hq => hpl q fun he => hq (congrArg some he.symm)
      page := fun _ i _ _ => congrArg Shmem.state (congrFun hshmem i)
      users := fun _ i _ _ => congrArg Shmem.numberofusers (congrFun hshmem i) }
  have hchild : ∀ {x}, c'.child = some x → x = np := fun hx => by
    rcases hc' with rfl | hc'
    · cases hx
    · exact Option.some.inj (hx.symm.trans hc')
  have hp := h.noChild hacts
  have hfreep : NoChild s p p := fun q _ => hp q
  have hslotp := hslot p hne.symm
  constructor
  · refine h.placed.move hm hfreep (fun x hx => ?_) hat (fun _ => ?_) (fun he => ?_) (fun x hx => ?_) ?_
    · cases hx
      exact ⟨hidle, hfree⟩
    · rw [Proc.live, show ((t.go p c').kern.proc p).state = (s.kern.proc p).state from hslotp.1]
      exact h.alive (hacts.imp_left hrun)
    · rw [hexit] at he
      cases he
    · rw [hchild hx]
      exact hfree
    · rw [hload]
      exact fun _ _ _ _ => by simp
  · refine h.tallied.quiet hm (fun x hx => ?_) (fun i => congrArg Shmem.state (congrFun hshmem i))
      (fun i => congrArg Shmem.numberofusers (congrFun hshmem i)) (fun i q => ?_) hset
      (fun i st hs => by rw [hsaw] at hs; cases hs)
    · cases hx
      exact hidle
    · by_cases hq : q = p
      · subst hq
        rw [counted_of_noChild (hm.noChild hfreep fun hx => hne (hchild hx).symm), counted_of_noChild hp, hm.pc_self,
          hcounts, hcounts', State.holds, State.holds, Proc.live, Proc.live]
        rw [show ((t.go q c').kern.proc q).state = (s.kern.proc q).state from hslotp.1,
          show ((t.go q c').kern.proc q).shmemAccess = (s.kern.proc q).shmemAccess from hslotp.2]
      · by_cases hqn : q = np
        · subst hqn
          have hold : counted s i q = s.kern.holds i q := by
            rw [counted_eq, hidle]
            · rfl
            · intro r hr
              by_cases hrp : r = p
              · rw [hrp, hpend] at hr
                cases hr
              · exact hfree r hrp (Pc.child_of_pending hr)
          rw [hold, ← hholds i]
          split_ifs with hpe
          · have hex : ∃ r, ((t.go p c').pc r).pending = some (q, i) := ⟨p, by rw [hm.pc_self, hpe]⟩
            simp [counted, hex]
          · rw [counted_eq, hm.pc_other hq, hidle]
            · rfl
            · intro r hr
              by_cases hrp : r = p
              · rw [hrp, hm.pc_self] at hr
                exact hpe hr
              · rw [hm.pc_other hrp] at hr
                exact hfree r hrp (Pc.child_of_pending hr)
        · refine hm.counted_other hq (fun he => hqn (Option.some.inj he).symm) (iff_of_false (fun he => ?_) ?_)
          · exact hqn (hchild (Pc.child_of_pending he))
          · rw [hpend]
            simp

/-! ### `fork` -/

theorem go_pc_other {q : Slot} (hq : q ≠ p) : (s.go p c).pc q = s.pc q := update_of_ne hq ..

/-- The child of a `fork` in progress is in no call, and nobody else makes it. -/
theorem Inv.child (h : Inv s) (np : Slot) (hc : (s.pc p).child = some np) :
    s.pc np = .idle ∧ np ≠ p ∧ NoChild s p np := by
  have hidle := (h.placed.child hc).1
  refine ⟨hidle, fun he => ?_, fun q hq hqc => hq (h.placed.parent q p np hqc hc)⟩
  rw [he] at hidle
  rw [hidle] at hc
  cases hc

theorem Inv.link_step (h : Inv s)
    (hc : s.pc p = .forkAlloc np ∨ s.pc p = .forkLink np ∨ s.pc p = .forkLinked np ∨ s.pc p = .forkRun np)
    (hs : next p s = some s') : Inv s' := by
  obtain ⟨hidle, hne, hfree⟩ := h.child (p := p) np
    (by rcases hc with hc | hc | hc | hc <;> rw [hc] <;> rfl)
  have hn : Nascent s np := by
    have ha := h.placed.here p
    rcases hc with hc | hc | hc | hc <;> rw [hc] at ha
    · exact ha.1
    · exact ha
    · exact ha
    · exact ha
  have hfalse : ∀ i, s.kern.holds i np = false := fun i => by simp [State.holds, hn.access]
  rcases hc with hc | hc | hc | hc <;> simp only [next, hc] at hs
  case inl | inr.inr.inl =>
    cases hs
    exact h.childStep
      { before := hc, ne := hne, idle := hidle, free := hfree, holds := fun _ => rfl
        here := ⟨hn.state, hn.access, (go_pc_other hne).trans hidle⟩ }
  · split_ifs at hs
    cases hs
    refine h.childStep
      { before := hc, ne := hne, idle := hidle, free := hfree
        slot := fun q hq => by simp [IState.setProc, hq]
        here := ⟨?_, fun i => ?_, (go_pc_other hne).trans hidle⟩
        holds := fun i => ?_ }
    · simp [IState.go, IState.setProc, hn.state]
    · simp [IState.go, IState.setProc, hn.access i]
    · simp [Pc.pending, State.holds, Proc.live, IState.setProc]
  · split_ifs at hs
    cases hs
    refine h.childStep
      { before := hc, ne := hne, idle := hidle, free := hfree
        slot := fun q hq => by simp [IState.setProc, IState.setProcLock, hq]
        here := ⟨?_, fun i _ => ?_, (go_pc_other hne).trans hidle, update_self ..⟩
        holds := fun i => ?_ }
    · simp [IState.go, IState.setProc]
    · simp [IState.go, IState.setProc, IState.setProcLock, hn.access i]
    · rw [hfalse]
      simp [Pc.pending, State.holds, IState.setProc, IState.setProcLock, hn.access i]

/-- The loop of `fork`. The child whose flag is written is not counted until the counter is stored. -/
theorem Inv.forkPage_step (h : Inv s) {k : ℕ} (hc : s.pc p = .forkPage np k)
    (hs : next p s = some s') : Inv s' := by
  obtain ⟨hidle, hne, hfree⟩ := h.child (p := p) np (by rw [hc]; rfl)
  have hh : Hatching s p np k := by
    have ha := h.placed.here p
    rwa [hc] at ha
  simp only [next, hc, stepForkPage] at hs
  cases hs
  split_ifs with hk hb
  · refine h.childStep
      { before := hc, ne := hne, idle := hidle, free := hfree
        slot := fun q hq => by simp [IState.setFlag, IState.setProc, hq]
        here := ⟨⟨?_, fun i hi => ?_, (go_pc_other hne).trans hidle, hh.lock⟩, ?_, ?_⟩
        holds := fun i => ?_ }
    · simp [IState.go, IState.setFlag, IState.setProc, hh.state]
    · have hi : k + 1 ≤ i := hi
      have hi' : i ≠ ⟨k, hk⟩ := fun he => by rw [he] at hi; exact absurd hi (Nat.not_succ_le_self k)
      simp [IState.go, IState.setFlag, IState.setProc, hi', hh.access i (by omega)]
    · simp [IState.go, IState.setFlag, IState.setProc, hb]
    · simp [IState.go, IState.setFlag, IState.setProc, hne.symm, hb]
    · by_cases hi : i = ⟨k, hk⟩
      · subst hi
        simp [Pc.pending, State.holds, hh.access ⟨k, hk⟩ le_rfl]
      · simp [Pc.pending, Ne.symm hi, State.holds, Proc.live, IState.setFlag, IState.setProc, hi]
  · have hb' : (s.kern.proc p).shmemAccess ⟨k, hk⟩ = false := by simpa using hb
    have hsame : ∀ i, ((s.setFlag np ⟨k, hk⟩ ((s.kern.proc p).shmemAccess ⟨k, hk⟩)).kern.proc np).shmemAccess i =
        (s.kern.proc np).shmemAccess i := fun i => by
      by_cases hi : i = ⟨k, hk⟩
      · subst hi
        simp [IState.setFlag, IState.setProc, hb', hh.access ⟨k, hk⟩ le_rfl]
      · simp [IState.setFlag, IState.setProc, hi]
    refine h.childStep
      { before := hc, ne := hne, idle := hidle, free := hfree
        slot := fun q hq => by simp [IState.setFlag, IState.setProc, hq]
        here := ⟨?_, fun i hi => (hsame i).trans (hh.access i (by omega)), (go_pc_other hne).trans hidle, hh.lock⟩
        holds := fun i => ?_ }
    · simp [IState.go, IState.setFlag, IState.setProc, hh.state]
    · simp only [Pc.pending, reduceCtorEq, if_false, State.holds, hsame i]
      simp [Proc.live, IState.setFlag, IState.setProc]
  · exact h.childStep
      { before := hc, ne := hne, idle := hidle, free := hfree, inFork := ⟨.inr rfl, .inl rfl⟩
        holds := fun _ => rfl }

theorem Inv.forkLoad_step (h : Inv s) {i : PageNo} (hc : s.pc p = .forkLoad np i)
    (happ : UpdatesApart s (p, .next)) (hs : next p s = some s') : Inv s' := by
  obtain ⟨hidle, hne, hfree⟩ := h.child (p := p) np (by rw [hc]; rfl)
  have hp := h.noChild (p := p) (.inl (by rw [hc]; simp))
  have hr := h.alive (p := p) (.inl (by rw [hc]; rfl))
  have ha := h.placed.here p
  rw [hc] at ha
  obtain ⟨hh, hacc, haccp⟩ := ha
  simp only [next, hc] at hs
  cases hs
  set c' := Pc.forkStore np i (s.kern.shmem i).numberofusers with hc'
  have hm : Moves s (s.go p c') p none c' :=
    ⟨rfl, fun _ _ _ => ⟨rfl, rfl⟩, fun _ _ _ => id, fun _ _ _ => rfl, fun _ _ _ _ => rfl, fun _ _ _ _ => rfl⟩
  have hfreep : NoChild s p p := fun q _ => hp q
  constructor
  · refine h.placed.move hm hfreep (by simp) ⟨⟨hh.state, hh.access, (go_pc_other hne).trans hidle, hh.lock⟩, hacc, haccp,
      rfl⟩ (fun _ => hr) (fun hx => by cases hx) (fun x hx => ?_) (fun q j _ hj he => ?_)
    · cases hx
      exact hfree
    · cases he
      exact (happ rfl i).2 (by rw [hc]; rfl) q hj
  · refine h.tallied.quiet hm (by simp) (fun _ => rfl) (fun _ => rfl) (fun j q => ?_) (by rw [hc]; simp)
      fun _ _ hx => by cases hx
    by_cases hq : q = p
    · subst hq
      rw [counted_of_noChild (hm.noChild hfreep fun hx => hne (Option.some.inj hx)), counted_of_noChild hp,
        hm.pc_self, hc]
      rfl
    · exact hm.counted_other hq (by simp) (by rw [hc]; rfl)

/-- The store in `fork`: from now on the child is counted. The page is set, for its parent is counted too. -/
theorem Inv.forkStore_step (h : Inv s) {i : PageNo} {n : Int32} (hc : s.pc p = .forkStore np i n)
    (hs : next p s = some s') : Inv s' := by
  obtain ⟨hidle, hne, hfree⟩ := h.child (p := p) np (by rw [hc]; rfl)
  have hp := h.noChild (p := p) (.inl (by rw [hc]; simp))
  have hr := h.alive (p := p) (.inl (by rw [hc]; rfl))
  have ha := h.placed.here p
  rw [hc] at ha
  obtain ⟨hh, hacc, haccp, rfl⟩ := ha
  simp only [next, hc] at hs
  cases hs
  have hm : Moves s _ p none (.forkPage np (i + 1)) :=
    Moves.setUsers ((s.kern.shmem i).numberofusers + 1) h.placed (by rw [hc]; rfl)
  have hfreep : NoChild s p p := fun q _ => hp q
  have helse : ∀ j q, ¬ (j = i ∧ q = np) → counted _ j q = counted s j q := fun j q hjq => by
    by_cases hq : q = p
    · subst hq
      rw [counted_of_noChild (hm.noChild hfreep fun hx => hne (Option.some.inj hx)), counted_of_noChild hp,
        hm.pc_self, hc]
      rfl
    · refine hm.counted_other hq (by simp) (iff_of_false (fun hx => by cases hx) fun he => ?_)
      rw [hc] at he
      cases he
      exact hjq ⟨rfl, rfl⟩
  have hbefore : counted s i np = false := by
    have hex : ∃ r, (s.pc r).pending = some (np, i) := ⟨p, by rw [hc]; rfl⟩
    simp [counted, hex]
  have hafter : counted ((s.setUsers i ((s.kern.shmem i).numberofusers + 1)).go p (.forkPage np (i + 1))) i np = true := by
    rw [counted_eq, hm.pc_other hne, hidle]
    · simp [Pc.counts, State.holds, Proc.live, IState.go, IState.setUsers, IState.setShmem, hh.state, hacc]
    · intro r hr
      by_cases hrp : r = p
      · rw [hrp, hm.pc_self] at hr
        cases hr
      · rw [hm.pc_other hrp] at hr
        exact hfree r hrp (Pc.child_of_pending hr)
  constructor
  · refine h.placed.move hm hfreep (by simp) ⟨hh.state, hh.access, (go_pc_other hne).trans hidle, hh.lock⟩ (fun _ => hr)
      (fun hx => by cases hx) (fun x hx => ?_) fun _ _ _ _ hx => by cases hx
    cases hx
    exact hfree
  · refine h.tallied.setUsers hm (x := np) helse (by rw [hc]; simp) (fun _ hx => by cases hx) ?_ fun hn _ => ?_
    · exact (h.tallied.users i).join slots_lt hbefore hafter fun q hq => helse i q fun hiq => hq hiq.2
    · have hcount : counted s i p = true := by
        rw [counted_of_noChild hp, hc]
        simp [Pc.counts, State.holds, hr.1, haccp]
      obtain ⟨w, hw⟩ := h.tallied.idle i hn p hcount
      rw [hc] at hw
      cases hw

theorem Inv.abort_step (h : Inv s) (hs : istep p s .abort = some s') : Inv s' := by
  rw [istep] at hs
  split at hs
  · rename_i np hc
    cases hs
    obtain ⟨hidle, hne, hfree⟩ := h.child (p := p) np (by rw [hc]; rfl)
    have ha := h.placed.here p
    rw [hc] at ha
    refine h.childStep
      { before := hc, ne := hne, idle := hidle, free := hfree, inFork := ⟨.inr rfl, .inl rfl⟩
        slot := fun q hq => by simp [IState.setProcLock, freeproc, hq]
        holds := fun i => ?_ }
    simp [Pc.pending, State.holds, IState.setProcLock, freeproc, ha.1.access i]
  · cases hs

/-! ### The beginning of a call -/

theorem go_of_pc (h : s.pc p = c) : s.go p c = s := by
  rw [IState.go, ← h, update_eq_self]

theorem Inv.still (h : Inv s) (hq : Quiet s t p .idle .idle) : Inv t := by
  rw [← go_of_pc (s := t) (p := p) ((congrFun hq.pc p).trans hq.before)]
  exact h.quiet hq

/-- A slot that is free, or whose process has exited and been left by the scheduler, is in no call. -/
theorem Placed.idle_of_not_live (h : Placed s) {q : Slot} (hl : (s.kern.proc q).live = false)
    (hq : (s.kern.proc q).state = .unused ∨ s.procLock q = none) : s.pc q = .idle := by
  have hruns : (s.pc q).runs = false := by
    by_contra hr
    rw [(h.runs q (by simpa using hr)).1] at hl
    cases hl
  have hend : s.pc q = .exitZombie ∨ s.pc q = .exitDone → False := by
    intro hc
    have hz : (s.kern.proc q).state = .zombie := by
      have ha := h.here q
      rcases hc with hc | hc <;> rw [hc] at ha <;> exact ha
    have hlock : s.procLock q = some q := h.exits q (by rcases hc with hc | hc <;> rw [hc] <;> rfl)
    rcases hq with hq | hq
    · rw [hz] at hq
      cases hq
    · rw [hlock] at hq
      cases hq
  revert hruns hend
  cases s.pc q with
  | idle => exact fun _ _ => rfl
  | exitZombie => exact fun _ hend => (hend (.inl rfl)).elim
  | exitDone => exact fun _ hend => (hend (.inr rfl)).elim
  | _ =>
    intro hr
    cases hr

theorem Inv.begin_step (h : Inv s) {act : Act} (hb : CanBegin s p) (hs : begin p s act = some s') : Inv s' := by
  have hidle := hb.1
  cases act with
  | fork np =>
    simp only [begin] at hs
    split_ifs at hs with hn
    cases hs
    have hne : np ≠ p := by
      rintro rfl
      exact Proc.used_of_live hb.2.1 hn.1
    have hfree : ∀ q, (s.pc q).child ≠ some np := fun q hq => by
      rcases (h.placed.child hq).2 with hu | ⟨hu, -⟩ <;> rw [hn.1] at hu <;> cases hu
    have hnp : s.pc np = .idle := h.placed.idle_of_not_live (by simp [Proc.live, hn.1]) (.inl hn.1)
    refine h.childStep
      { before := hidle, acts := .inr hb, ne := hne, idle := hnp, free := fun q _ => hfree q
        inFork := ⟨.inl rfl, .inr rfl⟩
        slot := fun q hq => by simp [IState.setProcLock, allocproc, hq]
        here := ⟨⟨?_, fun i => ?_, (go_pc_other hne).trans hnp⟩, update_self ..⟩
        holds := fun i => ?_ }
    · simp [IState.go, IState.setProcLock, allocproc]
    · simp [IState.go, IState.setProcLock, allocproc]
    · simp [Pc.pending, State.holds, Proc.live, IState.setProcLock, allocproc, hn.1]
  | exit =>
    simp only [begin] at hs
    split_ifs at hs
    cases hs
    have hslot : ∀ q, ((reparent p s.kern).proc q).state = (s.kern.proc q).state ∧
        ((reparent p s.kern).proc q).shmemAccess = (s.kern.proc q).shmemAccess := fun q => by
      simp only [reparent]
      split_ifs <;> exact ⟨rfl, rfl⟩
    refine h.quiet
      { before := hidle, acts := .inr hb, slot := fun q _ => hslot q, runs := fun _ => ⟨.inr hb, (hslot p).1⟩
        counts := fun i => ?_ }
    simp only [State.holds, Proc.live, (hslot p).1, (hslot p).2]
    rfl
  | call kind i =>
    simp only [begin] at hs
    split_ifs at hs with hk
    cases hs
    refine h.quiet
      { before := hidle, acts := .inr hb, runs := fun _ => ⟨.inr hb, rfl⟩
        stateLock := fun _ _ hq => setStateLock_other (by rw [hk.2]; simp) hq
        here := ⟨update_self .., hk.1⟩
        exits := fun he => absurd (of_decide_eq_true he) hk.1 }
  | write i index value =>
    simp only [begin] at hs
    split_ifs at hs with hst
    cases hs
    refine h.quiet
      { before := hidle, acts := .inr hb, runs := fun _ => ⟨.inr hb, rfl⟩, saw := fun j st hj => ?_ }
    cases hj
    exact ⟨.inr ⟨by simp, hst⟩, rfl⟩
  | read i index =>
    simp only [begin] at hs
    split_ifs at hs with hst
    cases hs
    refine h.quiet
      { before := hidle, acts := .inr hb, runs := fun _ => ⟨.inr hb, rfl⟩, saw := fun j st hj => ?_ }
    cases hj
    exact ⟨.inr ⟨hst, rfl⟩, rfl⟩
  | setInit i index value =>
    simp only [begin] at hs
    split_ifs at hs
    split at hs
    · rename_i t ht
      cases hs
      obtain ⟨-, -, rfl⟩ := shmemSetInitInt_ok ht
      refine h.still { before := hidle, acts := .inr hb, pages := fun j => ?_, users := fun j => ?_ }
      · by_cases hj : j = i <;> simp [hj]
      · by_cases hj : j = i <;> simp [hj]
    · cases hs
  | exec =>
    cases hs
    refine h.still { before := hidle, acts := .inr hb, slot := fun q hq => ?_, counts := fun i => ?_ }
    · simp [exec, hq]
    · simp [Pc.counts, State.holds, exec, Proc.live]
  | wait pp =>
    simp only [begin] at hs
    split_ifs at hs with hw
    cases hs
    obtain ⟨-, hz, hl, -⟩ := hw
    have hpp : s.pc pp = .idle := h.placed.idle_of_not_live (by simp [Proc.live, hz]) (.inr hl)
    have hne : pp ≠ p := by
      rintro rfl
      have hlive := hb.2.1
      simp [Proc.live, hz] at hlive
    have hfree : ∀ q, (s.pc q).child ≠ some pp := fun q hq => by
      rcases (h.placed.child hq).2 with hu | ⟨hu, -⟩ <;> rw [hz] at hu <;> cases hu
    have hstep : ChildStep s { s with kern := freeproc pp s.kern } p pp .idle .idle :=
      { before := hidle, acts := .inr hb, ne := hne, idle := hpp, free := fun q _ => hfree q
        inFork := ⟨.inl rfl, .inl rfl⟩
        slot := fun q hq => by simp [freeproc, hq]
        holds := fun i => by simp [Pc.pending, State.holds, Proc.live, freeproc, hz] }
    rw [← go_of_pc (s := { s with kern := freeproc pp s.kern }) (p := p) hidle]
    exact h.childStep hstep
  | abort => cases hs
  | next => cases hs

/-! ### Every step, and every run -/

/-- **Every step keeps the invariant**, if it keeps the updates apart. -/
theorem Inv.step (h : Inv s) {act : Act} (happ : UpdatesApart s (p, act)) (hs : istep p s act = some s') :
    Inv s' := by
  have hbegin : ∀ act, (if CanBegin s p then begin p s act else none) = some s' → Inv s' := by
    intro act hs
    split_ifs at hs with hb
    exact h.begin_step hb hs
  cases act with
  | next =>
    replace hs : next p s = some s' := hs
    cases hc : s.pc p with
    | idle => rw [next_idle hc] at hs; cases hs
    | forkAlloc np => exact h.link_step (.inl hc) hs
    | forkLink np => exact h.link_step (.inr (.inl hc)) hs
    | forkLinked np => exact h.link_step (.inr (.inr (.inl hc))) hs
    | forkRun np => exact h.link_step (.inr (.inr (.inr hc))) hs
    | forkPage np k => exact h.forkPage_step hc hs
    | forkLoad np i => exact h.forkLoad_step hc happ hs
    | forkStore np i n => exact h.forkStore_step hc hs
    | exitLock => exact h.exit_step (k := 0) (.inl hc) hs
    | exitPage k => exact h.exit_step (.inr (.inl hc)) hs
    | exitZombie => exact h.exit_step (k := 0) (.inr (.inr (.inl hc))) hs
    | exitDone => exact h.exit_step (k := 0) (.inr (.inr (.inr hc))) hs
    | enter kind i => exact h.enter_step hc hs
    | mark kind i => exact h.mark_step hc hs
    | marked kind i => exact h.marked_step hc hs
    | load kind i => exact h.load_step hc happ hs
    | store kind i n => exact h.store_step hc hs
    | finish kind i => exact h.finish_step hc hs
    | leave kind i => exact h.leave_step hc hs
    | unlock kind i => exact h.unlock_step hc hs
    | writeEnter i index value => exact h.write_step i index value (.inl hc) hs
    | writeAccess i index value => exact h.write_step i index value (.inr (.inl hc)) hs
    | writeChecked i index value => exact h.write_step i index value (.inr (.inr (.inl hc))) hs
    | writeLock i index value => exact h.write_step i index value (.inr (.inr (.inr (.inl hc)))) hs
    | writeStore i index value => exact h.write_step i index value (.inr (.inr (.inr (.inr (.inl hc))))) hs
    | writeUnlock i => exact h.write_step i 0 0 (.inr (.inr (.inr (.inr (.inr hc))))) hs
    | readAccess i index st => exact h.read_step i index st false (.inl hc) hs
    | readState i index st => exact h.read_step i index st false (.inr (.inl hc)) hs
    | readLock i index st => exact h.read_step i index st false (.inr (.inr (.inl hc))) hs
    | readLoad i index st locked => exact h.read_step i index st locked (.inr (.inr (.inr (.inl hc)))) hs
    | readUnlock i => exact h.read_step i 0 .notSet false (.inr (.inr (.inr (.inr hc)))) hs
  | abort => exact h.abort_step hs
  | _ => exact hbegin _ hs

theorem inv_iboot (base : ℤ) (m : Mem) : Inv (iboot base m) where
  placed :=
    { here := fun _ => trivial
      runs := fun _ hc => by cases hc
      exits := fun _ hc => by cases hc
      parent := fun _ _ _ hc => by cases hc
      alone := fun _ _ _ hc => by cases hc }
  tallied := by
    have hcount : ∀ i q, counted (iboot base m) i q = false := fun i q => by
      simp [counted, iboot, Pc.counts, boot_holds]
    have hb := counted_boot base m
    refine ⟨fun i => (hb.users i).congr fun q => ?_, fun i _ q hq => ?_, fun _ _ _ hc => by cases hc⟩
    · rw [hcount, boot_holds]
    · rw [hcount] at hq
      cases hq

/-- Every state that steps with the updates apart lead to has the invariant. -/
theorem inv_of_reachable {base : ℤ} {m : Mem} (h : ((imachine base m).restrict UpdatesApart).Reachable s) :
    Inv s := by
  refine h.invariant (fun s hs => ?_) fun s e t _ hi hstep => hi.step hstep.1 hstep.2
  rw [show s = iboot base m from hs]
  exact inv_iboot base m

end Children

end Xv6Shmem.Interaction
