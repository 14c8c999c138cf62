import Xv6Shmem.Kernel.Effects
import Xv6Shmem.Vm.Ownership

/-!
# What a step of the machine does

`Sound L M v` says that in state `v` the free pages, those of the processes and those that
the rest of the kernel has taken are together the pages of the allocator, each once, and
that page `i` may be mapped in slot `q` only if `M q i`.

One theorem, `vcall_outcome`, says what a step does, for every `M`. It leaves a sound
state, in which no shared page is mapped that was not before but by `shmem_access`. On the
tables it is one of the calls of `Xv6Shmem.Kernel`, or none. It writes only to pages of
the allocator, unless it is one of those calls or the user's own page table sends it
elsewhere. And the panics that come from an inconsistent page table do not happen, but for
"freewalk: leaf", and that only if a shared page may be mapped.
-/

namespace Xv6Shmem.Vm

open Function Kernel Radix

/-! ### What a step can do to the tables and to memory -/

/-- The calls on the tables that a step may make. -/
def VmOp.Calls : VmOp → Op → Prop
  | .kern op _, op' => op' = op
  | .fork, op' => ∃ mem, op' = .fork mem
  | .exec _ _, op' => ∃ argc, op' = .exec argc
  | .wait _, op' => ∃ copied, op' = .wait copied
  | .shmemAccess i, op' => ∃ mapped, op' = .shmemAccess i mapped
  | .store _ _, op' => op' = .exit (-1)
  | _, _ => False

/-- The user's addresses that a step writes to, as the first and how many. -/
def VmOp.range : VmOp → ℕ × ℕ
  | .wait addr => (addr, if addr = 0 then 0 else 4)
  | .store va _ => (va, 1)
  | .copyout va src => (va, src.length)
  | _ => (0, 0)

/-- The page table of `p` sends one of the addresses that the step writes to to the page at `pa`. -/
def Targets (v : VmState) (p : Slot) (op : VmOp) (pa : ℤ) : Prop :=
  ∃ u, v.uvm p = some u ∧ ∃ j < op.range.2, walkaddr u.pagetable (pgrounddown (op.range.1 + j)) = some pa

/-- The addresses that a step may write to: the pages of the allocator, and where the page table sends
it. -/
def MayWrite (L : Layout) (v : VmState) (p : Slot) (op : VmOp) : ℤ → Prop :=
  InPages fun pa => Own L pa ∨ Targets v p op pa

/-- What a step of process `p`, going from `v` to `v'`, can do to the tables and to memory. -/
inductive VmStep (L : Layout) (v : VmState) (p : Slot) (op : VmOp) (v' : VmState) : Prop where
  /-- A call on the tables and nothing else. -/
  | plain (op' : Op) (r : Option Int32) (hop : op.Calls op') (hp : op'.plain = true)
      (hc : call p v.kern op' = .ok (r, v'.kern))
  /-- A call on the tables that keeps memory, and memory written besides. -/
  | call (op' : Op) (r : Option Int32) (t : State) (hop : op.Calls op') (hc : call p v.kern op' = .ok (r, t))
      (hk : v'.kern = { t with mem := v'.kern.mem }) (hm : Mem.OnlyOn (MayWrite L v p op) v.kern.mem v'.kern.mem)
  /-- Only memory is written. -/
  | memory (hk : v'.kern = { v.kern with mem := v'.kern.mem })
      (hm : Mem.OnlyOn (MayWrite L v p op) v.kern.mem v'.kern.mem)

section Step

variable {L : Layout} {v v' : VmState} {p : Slot} {op : VmOp}

theorem mayWrite_of_own {x : ℤ} (h : InPages (Own L) x) : MayWrite L v p op x := by
  obtain ⟨pa, hpa, hx⟩ := h
  exact ⟨pa, .inl hpa, hx⟩

theorem onlyOn_of_own {m m' : Mem} (h : Mem.OnlyOn (InPages (Own L)) m m') : Mem.OnlyOn (MayWrite L v p op) m m' :=
  fun x hx => h x fun ho => hx (mayWrite_of_own ho)

theorem VmStep.phaddr (h : VmStep L v p op v') (hp : (v.kern.proc p).live) (i : PageNo) :
    (v'.kern.shmem i).phaddr = (v.kern.shmem i).phaddr := by
  cases h with
  | plain _ _ _ _ hc => exact phaddr_eq hp hc i
  | call _ _ _ _ hc hk _ =>
    rw [hk]
    exact phaddr_eq hp hc i
  | memory hk _ => rw [hk]

theorem VmOp.eq_fork {mem : Bool} (h : op.Calls (.fork mem)) : op = .fork := by
  cases op with
  | fork => rfl
  | kern op hop => cases (h : Op.fork mem = op); cases hop
  | exec | wait | shmemAccess => obtain ⟨_, h⟩ := h; cases h
  | store => cases (h : Op.fork mem = .exit (-1))
  | sbrk | copyout | trap | take | fill | give => cases h

theorem VmOp.eq_wait {copied : Bool} (h : op.Calls (.wait copied)) : ∃ addr, op = .wait addr := by
  cases op with
  | wait addr => exact ⟨addr, rfl⟩
  | kern op hop => cases (h : Op.wait copied = op); cases hop
  | fork | exec | shmemAccess => obtain ⟨_, h⟩ := h; cases h
  | store => cases (h : Op.wait copied = .exit (-1))
  | sbrk | copyout | trap | take | fill | give => cases h

theorem VmOp.eq_release {i : PageNo} (h : op.Calls (.shmemReleaseAccess i)) :
    ∃ hi, op = .kern (.shmemReleaseAccess i) hi := by
  cases op with
  | kern op hop => cases (h : Op.shmemReleaseAccess i = op); exact ⟨hop, rfl⟩
  | fork | exec | wait | shmemAccess => obtain ⟨_, h⟩ := h; cases h
  | store => cases (h : Op.shmemReleaseAccess i = .exit (-1))
  | sbrk | copyout | trap | take | fill | give => cases h

theorem VmStep.unused (h : VmStep L v p op v') (hp : (v.kern.proc p).live) (hf : op ≠ .fork)
    (hw : ∀ addr, op ≠ .wait addr) (q : Slot) :
    (v'.kern.proc q).state = .unused ↔ (v.kern.proc q).state = .unused := by
  have hcall : ∀ {op' r t}, op.Calls op' → Kernel.call p v.kern op' = .ok (r, t) →
      ((t.proc q).state = .unused ↔ (v.kern.proc q).state = .unused) := by
    intro op' r t hop hc
    cases slot_step hp hc q with
    | keep _ _ hu _ => exact hu
    | alloc hop' _ _ => exact absurd (VmOp.eq_fork (hop' ▸ hop)) hf
    | free hop' _ _ =>
      obtain ⟨addr, ha⟩ := VmOp.eq_wait (hop' ▸ hop)
      exact absurd ha (hw addr)
  cases h with
  | plain _ _ hop _ hc => exact hcall hop hc
  | call _ _ _ hop hc hk _ =>
    have hu := hcall hop hc
    rw [hk]
    exact hu
  | memory hk _ => rw [hk]

/-- What a step does to the access of a process that was there before and is after. -/
theorem VmStep.access {q : Slot} {i : PageNo} (h : VmStep L v p op v') (hp : (v.kern.proc p).live)
    (hq : (v.kern.proc q).state ≠ .unused) (hq' : (v'.kern.proc q).live = true) :
    (v.kern.proc q).live = true ∧ ((v.kern.proc q).shmemAccess i = true →
      (v'.kern.proc q).shmemAccess i = true ∨ q = p ∧ op.Calls (.shmemReleaseAccess i)) := by
  have hcall : ∀ {op' r t}, op.Calls op' → Kernel.call p v.kern op' = .ok (r, t) → (t.proc q).live = true →
      (v.kern.proc q).live = true ∧ ((v.kern.proc q).shmemAccess i = true →
        (t.proc q).shmemAccess i = true ∨ q = p ∧ op.Calls (.shmemReleaseAccess i)) := by
    intro op' r t hop hc hl
    cases slot_step hp hc q with
    | keep _ _ _ ha =>
      obtain ⟨hlive, ha⟩ := ha hl
      refine ⟨hlive, fun hi => ?_⟩
      rcases ha i hi with hi' | ⟨hqp, rfl⟩
      · exact .inl hi'
      · exact .inr ⟨hqp, hop⟩
    | alloc _ hf _ => exact absurd (findUnused_state hf) hq
    | free _ _ hu => exact absurd hu (Proc.used_of_live hl)
  cases h with
  | plain _ _ hop _ hc => exact hcall hop hc hq'
  | call _ _ t hop hc hk _ =>
    rw [hk] at hq'
    have hacc := hcall hop hc hq'
    rw [hk]
    exact hacc
  | memory hk _ =>
    rw [hk] at hq' ⊢
    exact ⟨hq', .inl⟩

end Step

/-! ### The invariant -/

/-- All pages of the allocator: those that are free, those of the rest of the kernel and those of the processes. -/
def VmState.pages (v : VmState) : Multiset ℤ :=
  v.freelist + v.others + ∑ q, (v.uvm q).elim 0 Uvm.pages

/-- The pages that the allocator has when `main` has taken the shared ones. -/
def Layout.pool (L : Layout) : Multiset ℤ := pagesDown L.npages (L.base - PGSIZE * SHMEM)

/-- No page of the allocator is lost or there twice, every process has its memory mapped, and a slot not in use has
none; page `i` may be mapped in slot `q` if `M q i`. -/
structure Sound (L : Layout) (M : Slot → PageNo → Prop) (v : VmState) : Prop where
  /-- The shared pages are where they were. -/
  phaddr : ∀ i, (v.kern.shmem i).phaddr = pageAddr L.base i
  /-- Every page is in one place. -/
  ledger : v.pages = L.pool
  /-- The processes. -/
  user : ∀ q u, v.uvm q = some u → Owned L (M q) u
  /-- The slots. -/
  used : ∀ q, v.uvm q = none ↔ (v.kern.proc q).state = .unused

/-- What may be mapped after a step: what could be before, in a slot in use, and the page that
`shmem_access` is called for. -/
def mappedAfter (v : VmState) (M : Slot → PageNo → Prop) (p : Slot) (op : VmOp) (q : Slot) (i : PageNo) : Prop :=
  M q i ∧ v.uvm q ≠ none ∨ q = p ∧ op = .shmemAccess i

/-- The panics of a step: those of the calls on the tables, those of `mappages` when a process grows into
what is mapped above it, and "freewalk: leaf", if a shared page may be mapped. -/
def VmPanic (M : Slot → PageNo → Prop) (e : Panic) : Prop :=
  e.ofTables = true ∨ GrowPanic e ∨ e = .freewalkLeaf ∧ ∃ q i, M q i

/-- What a step that returns does. -/
def Next (L : Layout) (M : Slot → PageNo → Prop) (v : VmState) (p : Slot) (op : VmOp)
    (r : Option ℤ × VmState) : Prop :=
  Sound L (mappedAfter v M p op) r.2 ∧ VmStep L v p op r.2

section Sound

variable {L : Layout} {M M' : Slot → PageNo → Prop} {v v' : VmState} {p : Slot} {op : VmOp}

theorem Sound.mono (h : Sound L M v) (hM : ∀ q i, v.uvm q ≠ none → M q i → M' q i) : Sound L M' v where
  phaddr := h.phaddr
  ledger := h.ledger
  user := fun q u hu => (h.user q u hu).mono fun i => hM q i (by rw [hu]; nofun)
  used := h.used

/-- A process that has not exited has its memory. -/
theorem Sound.exists_user (h : Sound L M v) (hp : (v.kern.proc p).live) : ∃ u, v.uvm p = some u := by
  apply Option.ne_none_iff_exists'.mp
  intro hnone
  exact Proc.used_of_live hp ((h.used p).mp hnone)

variable {u : Uvm} {va : ℕ}

theorem user_eq (h : v.uvm p = some u) : v.user p = .ok u := by
  rw [VmState.user, h]

theorem Sound.own (h : Sound L M v) : ∀ a ∈ v.pages, Own L a := by
  rw [h.ledger]
  exact pagesDown_own

theorem Sound.free (h : Sound L M v) : ∀ a ∈ v.freelist, Own L a :=
  fun a ha => h.own a (Multiset.mem_add.mpr (.inl (Multiset.mem_add.mpr (.inl ha))))

theorem Sound.others (h : Sound L M v) : ∀ a ∈ v.others, Own L a :=
  fun a ha => h.own a (Multiset.mem_add.mpr (.inl (Multiset.mem_add.mpr (.inr ha))))

theorem pages_le_of_uvm {q : Slot} (hu : v.uvm q = some u) : u.pages ≤ v.pages := by
  rw [VmState.pages, Radix.Table.sum_entries Uvm.pages v.uvm q, hu, Option.elim_some]
  exact (Multiset.le_add_right _ _).trans (Multiset.le_add_left _ _)

theorem Sound.pages (h : Sound L M v) {q : Slot} {u : Uvm} (hu : v.uvm q = some u) : ∀ a ∈ u.pages, Own L a :=
  fun a ha => h.own a (Multiset.mem_of_le (pages_le_of_uvm hu) ha)

theorem ledger_update {q₀ : Slot} {o : Option Uvm} (hothers : v'.others = v.others)
    (huvm : v'.uvm = update v.uvm q₀ o)
    (hm : (v.uvm q₀).elim 0 Uvm.pages + (v.freelist : Multiset ℤ) = o.elim 0 Uvm.pages + v'.freelist) :
    v'.pages = v.pages := by
  rw [VmState.pages, VmState.pages, hothers, huvm, Radix.Table.sum_update, Radix.Table.sum_entries Uvm.pages v.uvm q₀]
  have hsum : ∀ a b c d : Multiset ℤ, a + b + (c + d) = c + a + (b + d) := fun a b c d => by abel
  rw [hsum, hsum (v.freelist : Multiset ℤ), hm]

theorem Sound.onlyOn {F T : Multiset ℤ} {k : Kmem} (h : Sound L M v) (hm : Moved F T v.kmem k) (hF : ∀ a ∈ F, Own L a) :
    Mem.OnlyOn (MayWrite L v p op) v.kern.mem k.mem := by
  refine onlyOn_of_own fun x hx => hm.mem x fun hin => hx (hin.mono fun a ha => ?_)
  rcases Multiset.mem_add.mp ha with ha | ha
  · exact hF a ha
  · exact h.free a ha

variable (h : Sound L M v) (hp : (v.kern.proc p).live)

include h hp

/-- A step that changes the memory of slot `q₀`. -/
theorem Sound.step (hs : VmStep L v p op v') {q₀ : Slot} {o : Option Uvm}
    (hpages : v'.pages = v.pages) (huvm : v'.uvm = Function.update v.uvm q₀ o)
    (ho : ∀ u, o = some u → Owned L (mappedAfter v M p op q₀) u)
    (hq₀ : o = none ↔ (v'.kern.proc q₀).state = .unused)
    (hq : ∀ q, q ≠ q₀ → ((v'.kern.proc q).state = .unused ↔ (v.kern.proc q).state = .unused)) :
    Sound L (mappedAfter v M p op) v' where
  phaddr := fun i => by rw [hs.phaddr hp i, h.phaddr i]
  ledger := hpages.trans h.ledger
  user := fun q u hu => by
    rw [huvm] at hu
    by_cases hqq : q = q₀
    · subst hqq
      rw [update_self] at hu
      exact ho u hu
    · rw [update_of_ne hqq] at hu
      exact (h.user q u hu).mono fun i hi => .inl ⟨hi, by rw [hu]; nofun⟩
  used := fun q => by
    rw [huvm]
    by_cases hqq : q = q₀
    · subst hqq
      rw [update_self, hq₀]
    · rw [update_of_ne hqq, hq q hqq, h.used q]

theorem Sound.next_self {r : Option ℤ} {u' : Uvm}
    (hs : VmStep L v p op v') (hf : op ≠ .fork) (hw : ∀ addr, op ≠ .wait addr)
    (hpages : v'.pages = v.pages) (huvm : v'.uvm = Function.update v.uvm p (some u'))
    (hu' : Owned L (mappedAfter v M p op p) u') : Next L M v p op (r, v') := by
  refine ⟨h.step hp hs hpages huvm (by rintro _ ⟨⟩; exact hu') ?_ fun q _ => hs.unused hp hf hw q, hs⟩
  obtain ⟨u, hu⟩ := h.exists_user hp
  rw [hs.unused hp hf hw p, ← h.used p, hu]
  simp

theorem Sound.next_keep {r : Option ℤ}
    (hs : VmStep L v p op v') (hf : op ≠ .fork) (hw : ∀ addr, op ≠ .wait addr) (hpages : v'.pages = v.pages)
    (huvm : v'.uvm = v.uvm) : Next L M v p op (r, v') := by
  obtain ⟨u, hu⟩ := h.exists_user hp
  have hsame : v'.uvm = Function.update v.uvm p (some u) := by rw [huvm, ← hu, update_eq_self]
  refine h.next_self hp hs hf hw hpages hsame ?_
  exact (h.user p u hu).mono fun i hi => .inl ⟨hi, by rw [hu]; nofun⟩

omit h hp

/-- The page table of a process sends it to a page of the allocator or to a shared page that may be
mapped. -/
theorem Sound.target (h : Sound L M v) {pa : ℤ} (ht : Targets v p op pa) :
    Own L pa ∨ ∃ i, M p i ∧ pa = pageAddr L.base i := by
  obtain ⟨u, hu, j, -, hpa⟩ := ht
  obtain ⟨e, he, heu, rfl⟩ := walkaddr_some hpa
  rcases (h.user p u hu).leaf he heu with hmem | ⟨i, hi, rfl⟩
  · exact .inl (h.pages hu _ hmem)
  · exact .inr ⟨i, hi, rfl⟩

/-! ### Each step -/

/-- A step begins with the memory of the calling process. -/
theorem Sound.bind_user {α : Type} {Q : α → Prop} {E : Panic → Prop} {f : Uvm → Except Panic α} (h : Sound L M v)
    (hp : (v.kern.proc p).live) (hf : ∀ u, v.uvm p = some u → Owned L (M p) u → Outcome Q E (f u)) :
    Outcome Q E (v.user p >>= f) := by
  obtain ⟨u, hu⟩ := h.exists_user hp
  rw [user_eq hu]
  exact hf u hu (h.user p u hu)

theorem Owned.after {q : Slot} {u' : Uvm} (h : Owned L (M q) u') (hu : v.uvm q = some u) :
    Owned L (mappedAfter v M p op q) u' :=
  h.mono fun i hi => .inl ⟨hi, by rw [hu]; nofun⟩

theorem fork_next (h : Sound L M v) (hp : (v.kern.proc p).live) :
    Outcome (Next L M v p .fork) (VmPanic M) (v.fork L p) := by
  unfold VmState.fork
  cases hf : findUnused v.kern with
  | none => exact .ok ⟨h.mono fun q i hq hi => .inl ⟨hi, hq⟩, .memory rfl .rfl⟩
  | some np =>
    refine h.bind_user hp fun u hu hown => ?_
    obtain ⟨E, hs, -⟩ := hown
    refine Outcome.bind (forkUvm_outcome hs fun a ha => (h.free a ha).1) ?_
    rintro ⟨child, k⟩ ⟨hnone, hsome⟩
    have hmoved : Moved 0 (child.elim 0 Uvm.pages) v.kmem k := by
      cases child with
      | none => exact hnone rfl
      | some c => exact (hsome c rfl).moved
    have hslot : ∀ q, SlotStep v.kern p (.fork child.isSome) (Kernel.fork child.isSome p v.kern).2 q :=
      slot_step hp rfl
    have hstep : VmStep L v p .fork ((v.put (Kernel.fork child.isSome p v.kern).2 k).setUvm np child) :=
      .call (.fork child.isSome) _ _ ⟨_, rfl⟩ rfl rfl (h.onlyOn hmoved (by simp))
    have hnp : v.uvm np = none := (h.used np).mpr (findUnused_state hf)
    refine .ok ⟨h.step hp hstep (ledger_update rfl rfl (by rw [hnp]; exact hmoved.pages)) rfl ?_ ?_ ?_, hstep⟩
    · intro c hcc
      have hforked := hsome c hcc
      exact .of_shape (by rw [hforked.sz]; exact hforked.shape)
    · show child = none ↔ (((Kernel.fork child.isSome p v.kern).2).proc np).state = .unused
      cases hslot np with
      | keep hf' _ hu' _ =>
        rw [hu', iff_true_right (findUnused_state hf)]
        cases child with
        | none => rfl
        | some c => exact absurd hf (hf' rfl)
      | alloc hop _ hq' =>
        rw [hq']
        cases child with
        | none => cases hop
        | some c => simp
      | free hop _ _ => cases hop
    · intro q hq
      show (((Kernel.fork child.isSome p v.kern).2).proc q).state = .unused ↔ _
      cases hslot q with
      | keep _ _ hu' _ => exact hu'
      | alloc _ hq' _ =>
        rw [hf] at hq'
        cases hq'
        exact absurd rfl hq
      | free hop _ _ => cases hop

theorem exec_next {file : Option Inode} {argv : List (List UInt8)} (h : Sound L M v) (hp : (v.kern.proc p).live) :
    Outcome (Next L M v p (.exec file argv)) (VmPanic M) (v.exec L file argv p) := by
  unfold VmState.exec
  refine h.bind_user hp fun u hu hown => ?_
  obtain ⟨E, hs, hE⟩ := hown
  have hpages : ∀ a ∈ u.pagetable.tables + pages u.pagetable.leaf 0 (npages u.sz) + (v.kmem.freelist : Multiset ℤ),
      Own L a := by
    intro a ha
    rcases Multiset.mem_add.mp ha with ha | ha
    · exact h.pages hu a (Multiset.mem_add.mpr (.inr ha))
    · exact h.free a ha
  refine Outcome.bind ((execImage_outcome hs fun a ha => (hpages a ha).1).mono (fun _ hr => hr) ?_) ?_
  · rintro e (he | ⟨rfl, x, hx⟩)
    · exact .inr (.inl he.1)
    · obtain ⟨e', he'⟩ := Option.ne_none_iff_exists'.mp hx
      obtain ⟨-, i, hi, -⟩ := hE x e' he'
      exact .inr (.inr ⟨rfl, p, i, hi⟩)
  · rintro ⟨image, k⟩ ⟨hnone, hsome⟩
    cases image with
    | none =>
      have hmoved := hnone rfl
      refine .ok (h.next_keep hp (.call (.exec none) _ _ ⟨_, rfl⟩ rfl rfl (h.onlyOn hmoved (by simp))) nofun nofun ?_ rfl)
      refine ledger_update rfl (update_eq_self p v.uvm).symm ?_
      have hlist := hmoved.pages
      rw [zero_add, zero_add] at hlist
      exact congrArg _ hlist
    | some i =>
      have himage := hsome i rfl
      refine .ok (h.next_self hp (.call (.exec (some (Int32.ofNat i.argc))) _ _ ⟨_, rfl⟩ rfl rfl
        (h.onlyOn himage.moved fun a ha => hpages a (Multiset.mem_add.mpr (.inl ha)))) nofun nofun ?_ rfl
        (.of_shape himage.shape))
      refine ledger_update rfl rfl ?_
      rw [hu, Option.elim_some, Option.elim_some]
      have hlist := himage.moved.pages
      change {u.trapframe} + _ + (v.freelist : Multiset ℤ) = {u.trapframe} + _ + (k.freelist : Multiset ℤ)
      exact (add_assoc _ _ _).trans ((congrArg ({u.trapframe} + ·) hlist).trans (add_assoc _ _ _).symm)

theorem copyout_mayWrite {src : List UInt8} (hu : v.uvm p = some u) (hr : op.range = (va, src.length)) :
    Mem.OnlyOn (MayWrite L v p op) v.kern.mem (copyout u.pagetable va src v.kern.mem).2 := by
  apply copyout_onlyOn
  intro j hj pa hpa x hx hx'
  refine ⟨pa, .inr ⟨u, hu, j, ?_, ?_⟩, hx, hx'⟩
  · rw [hr]
    exact hj
  · rw [hr]
    exact hpa

include h hp

theorem wait_next {addr : ℕ} :
    Outcome (Next L M v p (.wait addr)) (VmPanic M) (v.wait L addr p) := by
  unfold VmState.wait
  cases hz : findZombie p v.kern with
  | none => exact .ok ⟨h.mono fun q i hq hi => .inl ⟨hi, hq⟩, .memory rfl .rfl⟩
  | some pp =>
    refine h.bind_user hp fun u hu hown => ?_
    dsimp only
    generalize hr : (if addr = 0 then (true, v.kern.mem) else
      copyout u.pagetable addr (intBytes (v.kern.proc pp).xstate) v.kern.mem) = r
    have hm : Mem.OnlyOn (MayWrite L v p (.wait addr)) v.kern.mem r.2 := by
      rw [← hr]
      split_ifs with h0
      · exact .rfl
      · exact copyout_mayWrite hu (by simp [VmOp.range, h0, intBytes])
    obtain ⟨copied, m⟩ := r
    have hslot : ∀ q, SlotStep v.kern p (.wait copied) (Kernel.wait copied p v.kern).2 q :=
      slot_step hp rfl
    cases copied with
    | false =>
      have hsame : (Kernel.wait false p v.kern).2 = v.kern := by simp [Kernel.wait, hz]
      have hstep : VmStep L v p (.wait addr) (v.put (Kernel.wait false p v.kern).2 ⟨v.freelist, m⟩) :=
        .call (.wait false) _ _ ⟨_, rfl⟩ rfl rfl hm
      refine .ok ⟨h.step hp hstep rfl (update_eq_self p v.uvm).symm ?_ ?_ ?_, hstep⟩
      · intro u' hu'
        exact (h.user p u' hu').after hu'
      · rw [h.used p, hsame]
        rfl
      · intro q _
        rw [hsame]
        rfl
    | true =>
      have hfree : Outcome (Moved ((v.uvm pp).elim 0 Uvm.pages) 0 ⟨v.freelist, m⟩) (VmPanic M)
          (freeUvm L (v.uvm pp) ⟨v.freelist, m⟩) := by
        cases hpp : v.uvm pp with
        | none => exact .ok .refl
        | some c =>
          obtain ⟨E, hs, hE⟩ := h.user pp c hpp
          refine (freeUvm_outcome hs fun a ha => (h.pages hpp a ha).1).mono (fun _ hr => hr) ?_
          rintro e ⟨rfl, x, hx⟩
          obtain ⟨e', he'⟩ := Option.ne_none_iff_exists'.mp hx
          obtain ⟨-, i, hi, -⟩ := hE x e' he'
          exact .inr (.inr ⟨rfl, pp, i, hi⟩)
      refine Outcome.bind hfree fun k hk => ?_
      have hkm : Mem.OnlyOn (MayWrite L v p (.wait addr)) m k.mem := by
        refine onlyOn_of_own fun x hx => hk.mem x fun hin => hx (hin.mono fun a ha => ?_)
        rcases Multiset.mem_add.mp ha with ha | ha
        · cases hpp : v.uvm pp with
          | none => simp [hpp] at ha
          | some c =>
            rw [hpp] at ha
            exact h.pages hpp a ha
        · exact h.free a ha
      have hstep : VmStep L v p (.wait addr) ((v.put (Kernel.wait true p v.kern).2 k).setUvm pp none) :=
        .call (.wait true) _ _ ⟨_, rfl⟩ rfl rfl (hm.trans hkm)
      refine .ok ⟨h.step hp hstep (ledger_update rfl rfl hk.pages) rfl nofun ?_ ?_, hstep⟩
      · show none = none ↔ (((Kernel.wait true p v.kern).2).proc pp).state = .unused
        cases hslot pp with
        | keep _ hw _ _ => exact absurd hz (hw rfl)
        | alloc hop _ _ => cases hop
        | free _ _ hq' => simp [hq']
      · intro q hq
        show (((Kernel.wait true p v.kern).2).proc q).state = .unused ↔ _
        cases hslot q with
        | keep _ _ hu' _ => exact hu'
        | alloc hop _ _ => cases hop
        | free _ hq' _ =>
          rw [hz] at hq'
          cases hq'
          exact absurd rfl hq

theorem sbrk_next {n : Int32} :
    Outcome (Next L M v p (.sbrk n)) (VmPanic M) (v.sbrk L n p) := by
  unfold VmState.sbrk
  refine h.bind_user hp fun u hu hown => ?_
  obtain ⟨E, hs, hE⟩ := hown
  refine Outcome.bind ((growproc_outcome hs (fun a ha => (h.pages hu a ha).1) fun a ha => (h.free a ha).1).mono
    (fun _ hr => hr) fun e he => .inr (.inl he.1)) ?_
  rintro ⟨grown, u', k⟩ hres
  have hmoved := hres.moved
  have hshape := hres.shape hs
  have htf : u'.trapframe = u.trapframe := by cases hres <;> rfl
  rw [← htf] at hshape
  refine .ok (h.next_self hp (.memory rfl (h.onlyOn hmoved (h.pages hu))) nofun nofun ?_ rfl
    (Owned.after ⟨E, hshape, hE⟩ hu))
  refine ledger_update rfl rfl ?_
  rw [hu]
  exact hmoved.pages

theorem shmemAccess_next {i : PageNo} :
    Outcome (Next L M v p (.shmemAccess i)) (VmPanic M) (v.shmemAccess i p) := by
  unfold VmState.shmemAccess
  split_ifs with ha
  · exact .error (.inl rfl)
  refine h.bind_user hp fun u hu hown => ?_
  dsimp only
  rw [h.phaddr i]
  refine Outcome.bind ((mappages_shmem hown).mono (fun _ hr => hr) fun e he => .inr (.inl he)) ?_
  rintro ⟨mapped, pt, k⟩ ⟨hmoved, hfail, hok⟩
  dsimp only at hmoved hfail hok ⊢
  have hown' : Owned L (mappedAfter v M p (.shmemAccess i) p) { u with pagetable := pt } := by
    cases mapped with
    | false => exact (hfail rfl).after hu
    | true =>
      refine (hok rfl).2.mono ?_
      rintro j (hj | rfl)
      · exact .inl ⟨hj, by rw [hu]; nofun⟩
      · exact .inr ⟨rfl, rfl⟩
  cases hg : getShmemAccess i mapped p v.kern with
  | error e =>
    have he : call p v.kern (.shmemAccess i mapped) = .error e := by rw [call, hg]; rfl
    exact .error (.inl (call_error he))
  | ok s =>
    refine .ok (h.next_self hp (.call (.shmemAccess i mapped) none s ⟨_, rfl⟩ (by rw [call, hg]; rfl) rfl
      (h.onlyOn hmoved (h.pages hu))) nofun nofun ?_ rfl hown')
    refine ledger_update rfl rfl ?_
    rw [hu]
    exact hmoved.pages

omit h hp

theorem writable_some {pt : Pagetable} {pa : ℤ} (h : pt.writable va = some pa) :
    ∃ pa₀, walkaddr pt (pgrounddown va) = some pa₀ ∧ pa = pa₀ + (va % PGSIZE : ℕ) := by
  unfold Pagetable.writable at h
  split_ifs at h with hva
  have hlt : ¬ MAXVA ≤ pgrounddown va := by
    have hle : pgrounddown va ≤ va := Nat.div_mul_le_self va PGSIZE
    omega
  have hpte : pt.pte (pgrounddown va) = pt.pte va := by
    rw [Pagetable.pte, Pagetable.pte, pgrounddown, px_page]
  split at h
  · rename_i e he
    split_ifs at h with huw
    cases h
    rw [Bool.and_eq_true] at huw
    refine ⟨e.pa, ?_, rfl⟩
    rw [walkaddr, if_neg hlt, hpte, he]
    exact if_pos huw.1
  · cases h

theorem store_next {b : UInt8} (h : Sound L M v) (hp : (v.kern.proc p).live) :
    Outcome (Next L M v p (.store va b)) (VmPanic M) (v.store va b p) := by
  unfold VmState.store
  refine h.bind_user hp fun u hu hown => ?_
  cases hw : u.pagetable.writable va with
  | some pa =>
    obtain ⟨pa0, hpa0, rfl⟩ := writable_some hw
    refine .ok (h.next_keep hp (.memory rfl (Mem.onlyOn_write fun x hx hx' => ?_)) nofun nofun rfl rfl)
    refine ⟨pa0, .inr ⟨u, hu, 0, Nat.one_pos, hpa0⟩, ?_, ?_⟩
    · omega
    · simp only [List.length_singleton, PGSIZE] at hx' ⊢
      omega
  | none =>
    cases hx : Kernel.exit (-1) p v.kern with
    | error e =>
      have he : call p v.kern (.exit (-1)) = .error e := by rw [call, hx]; rfl
      exact .error (.inl (call_error he))
    | ok s =>
      exact .ok (h.next_keep hp (.plain (.exit (-1)) none rfl rfl (by rw [call, hx]; rfl)) nofun nofun rfl rfl)

theorem write_own {pa : ℤ} {m : Mem} (bs : List UInt8) (hpa : Own L pa) :
    Mem.OnlyOn (InPages (Own L)) m (m.write pa (bs.take PGSIZE)) := by
  apply Mem.onlyOn_write
  intro x hx hx'
  refine inPages_of_page hpa x hx ?_
  have hlen : (bs.take PGSIZE).length ≤ PGSIZE := List.length_take_le _ _
  omega

/-- **What a step does**: it leaves a sound state, or panics in one of a few ways. -/
theorem vcall_outcome (h : Sound L M v) (hp : (v.kern.proc p).live) (op : VmOp) :
    Outcome (Next L M v p op) (VmPanic M) (vcall L p v op) := by
  cases op with
  | kern op hop =>
    rw [vcall]
    cases hc : call p v.kern op with
    | error e => exact .error (.inl (call_error hc))
    | ok r =>
      refine .ok (h.next_keep hp (.plain op r.1 rfl hop (by rw [hc])) nofun nofun rfl rfl)
  | fork => exact fork_next h hp
  | exec file argv => exact exec_next h hp
  | wait addr => exact wait_next h hp
  | sbrk n => exact sbrk_next h hp
  | shmemAccess i => exact shmemAccess_next h hp
  | store va b => exact store_next h hp
  | copyout va src =>
    refine h.bind_user hp fun u hu _ => ?_
    exact .ok (h.next_keep hp (.memory rfl (copyout_mayWrite hu rfl)) nofun nofun rfl rfl)
  | trap regs =>
    refine h.bind_user hp fun u hu hown => ?_
    refine .ok (h.next_keep hp (.memory rfl (onlyOn_of_own (write_own _ (h.pages hu _ ?_)))) nofun nofun rfl rfl)
    exact Multiset.mem_add.mpr (.inl (Multiset.mem_singleton_self _))
  | take =>
    refine .ok ?_
    unfold VmState.take
    cases ha : kalloc v.kmem with
    | none => exact h.next_keep hp (.memory rfl .rfl) nofun nofun rfl rfl
    | some x =>
      obtain ⟨pa, k⟩ := x
      have hm := kalloc_moved ha
      refine h.next_keep hp (.memory rfl (h.onlyOn hm (by simp))) nofun nofun ?_ rfl
      have hlist : (v.freelist : Multiset ℤ) = {pa} + k.freelist := by
        rw [← hm.pages, zero_add]
        rfl
      change (k.freelist : Multiset ℤ) + ((pa :: v.others : List ℤ) : Multiset ℤ) + _ = _
      rw [VmState.pages, hlist, ← Multiset.cons_coe, ← Multiset.singleton_add]
      abel
  | fill pa bs =>
    refine .ok ?_
    unfold VmState.fill
    split_ifs with hpa
    · exact h.next_keep hp (.memory rfl (onlyOn_of_own (write_own _ (h.others pa hpa)))) nofun nofun rfl rfl
    · exact h.next_keep hp (.memory rfl .rfl) nofun nofun rfl rfl
  | give pa =>
    rw [vcall]
    unfold VmState.give
    split_ifs with hpa
    · have hfree := kfree_moved (k := v.kmem) (E := VmPanic M) (h.others pa hpa).1
      generalize kfree L pa v.kmem = x at hfree ⊢
      cases hfree with
      | @ok k hm =>
        refine .ok (h.next_keep hp (.memory rfl (h.onlyOn hm ?_)) nofun nofun ?_ rfl)
        · intro a ha
          rw [Multiset.mem_singleton.mp ha]
          exact h.others pa hpa
        · have hlist : (k.freelist : Multiset ℤ) = {pa} + v.freelist := by
            rw [← zero_add (k.freelist : Multiset ℤ), ← hm.pages]
            rfl
          have herase : (v.others : Multiset ℤ) = {pa} + (v.others.erase pa : List ℤ) := by
            rw [← Multiset.coe_erase, Multiset.singleton_add, Multiset.cons_erase (by simpa using hpa)]
          change (k.freelist : Multiset ℤ) + ((v.others.erase pa : List ℤ) : Multiset ℤ) + _ = _
          rw [VmState.pages, hlist, herase]
          abel
      | error he => exact .error he
    · exact .ok (h.next_keep hp (.memory rfl .rfl) nofun nofun rfl rfl)

end Sound

/-! ### Runs -/

variable {L : Layout} {m : Mem} {v : VmState}

theorem uvmfirst_outcome {k : Kmem} {tf : ℤ} {pt : Pagetable} (hleaf : pt.leaf = upper L tf fun _ => none) :
    Outcome
      (fun r : Bool × Pagetable × Kmem => r.1 = true → Shape 1 (upper L tf fun _ => none) r.2.1.leaf ∧
        Moved pt.tables (r.2.1.tables + pages r.2.1.leaf 0 1) k r.2.2)
      (fun e => e = .kerneltrap) (uvmfirst pt initcode k) := by
  unfold uvmfirst
  cases ha : kallocZero k with
  | none => exact .error rfl
  | some x =>
    obtain ⟨mem, k1⟩ := x
    have hnone : pt.leaf 0 = none := by
      rw [hleaf]
      rfl
    have hmap := mappages_unmapped (k := k1) (E := fun e => e = .kerneltrap) (v := 0) (e := userPte mem (true, true))
      (by decide) hnone
    rw [Nat.zero_mul] at hmap
    refine Outcome.bind hmap ?_
    rintro ⟨mapped, pt1, k2⟩ ⟨htook, -, hok⟩
    refine .ok fun hm => ?_
    dsimp only at htook hok hm ⊢
    have hpages : pages pt1.leaf 0 1 = {mem} := by
      rw [hok hm, pages, pages, update_self, Option.elim_some, add_zero]
      rfl
    refine ⟨?_, ?_⟩
    · rw [hok hm, hleaf]
      refine ⟨fun v hv => ⟨userPte mem (true, true), ?_⟩, fun v hv => ?_, fun v hv => ?_, by decide⟩
      · rw [Nat.lt_one_iff.mp hv, update_self]
      · rw [update_of_ne (by omega)]
      · rw [Nat.lt_one_iff.mp hv]
        rfl
    · have htake : Took pt k {mem} pt k1 := .of_moved (kallocZero_moved ha).1
      have hboth := (htake.trans htook).moved
      rw [add_zero] at hboth
      rw [hpages]
      refine hboth.write (Mem.onlyOn_write fun x hx hx' => inPages_of_page ?_ x hx ?_)
      · exact Multiset.mem_add.mpr (.inr (Multiset.mem_singleton_self mem))
      · have hlen : initcode.length ≤ PGSIZE := by decide
        omega

/-- The state after start is sound, with no shared page mapped. -/
theorem sound_boot (h : VmState.boot L m = .ok v) :
    Sound L (fun _ _ => False) v := by
  have hout : Outcome (Sound L fun _ _ => False) (fun _ => True) (VmState.boot L m) := by
    unfold VmState.boot
    refine Outcome.bind (allocUvm_outcome fun a ha => (pagesDown_own a ha).1) ?_
    rintro ⟨u, k⟩ ⟨-, hu⟩
    cases u with
    | none => exact .error trivial
    | some u =>
      obtain ⟨hsz, hleaf, hm⟩ := hu u rfl
      obtain ⟨tf, pt0, sz⟩ := u
      dsimp only at hsz hleaf hm ⊢
      subst hsz
      rw [pages_of_sz_zero, add_comm] at hm
      refine Outcome.bind ((uvmfirst_outcome hleaf).mono (fun _ hr => hr) fun _ _ => trivial) ?_
      rintro ⟨mapped, pt, k'⟩ hok
      cases mapped with
      | false => exact .error trivial
      | true =>
        obtain ⟨hshape, hmoved⟩ := hok rfl
        have hone : npages PGSIZE = 1 := by decide
        have hlist := (hm.trans (hmoved.frame {tf})).pages
        refine .ok ⟨fun i => rfl, ?_, fun q c hc => ?_, fun q => ?_⟩
        · rw [zero_add] at hlist
          rw [VmState.pages, Radix.Table.sum_update, Layout.pool]
          refine Eq.trans ?_ hlist.symm
          simp only [Option.elim_none, Finset.sum_const_zero, Multiset.coe_nil, add_zero, Option.elim_some, Uvm.pages,
            hone]
          abel
        · dsimp only at hc
          by_cases hq : q = 0
          · subst hq
            rw [update_self] at hc
            cases hc
            exact .of_shape (by rw [hone]; exact hshape)
          · rw [update_of_ne hq] at hc
            cases hc
        · by_cases hq : q = 0
          · subst hq
            simp [Kernel.boot, allocproc]
          · simp [Kernel.boot, allocproc, tables, zeroProc, hq]
  exact hout.of_ok h

theorem Sound.of_step {M : Slot → PageNo → Prop} {v' : VmState} {e : VmEvent}
    (h : Sound L M v) (hs : (vmachine L m).step v e v') :
    Sound L (mappedAfter v M e.slot e.op) v' ∧ VmStep L v e.slot e.op v' :=
  (vcall_outcome h hs.1 e.op).of_ok hs.2

theorem sound_of_reachable (h : (vmachine L m).Reachable v) :
    Sound L (fun _ _ => True) v := by
  refine h.invariant ?_ ?_
  · intro v hv
    exact (sound_boot hv).mono nofun
  · intro v e v' _ hv hs
    exact (hv.of_step hs).1.mono fun _ _ _ _ => trivial

end Xv6Shmem.Vm
