import Xv6Shmem.Kernel.Bytes
import Xv6Shmem.Vm.Steps

/-!
# Pages that are not to be written

A page that `shmem_set_unwritable` has set is read without a lock, because nobody is to
write it until it is reset. The calls that write keep to this on the page they name. But
`shmem_write_int` and `shmem_set_init_int` do not check their index, and the shared pages
are neighbours in memory; and `get_shmem_access` maps a page with `PTE_W` whatever its
state.

What is proved is that these are the only ways. As long as no call stores beyond the page
it names, and neither the user's program nor `copyout` writes through a mapping of an
`UNWRITABLE` page, the bytes of such a page stay from any state of a run to any later one,
whatever else the processes and the kernel do: all else that is written is a page of the
allocator, a page that is not `UNWRITABLE`, or a page that becomes `NOT_SET`.
-/

namespace Xv6Shmem.SharedMemory

open Kernel Vm LTS Mem

/-- The step stores within the page it names, and does not write through a user's mapping of a page that is
`UNWRITABLE`. -/
structure StaysOff (v : VmState) (e : VmEvent) : Prop where
  /-- A store names an index of the page. -/
  index : ∀ op h, e.op = .kern op h → op.StoresInPage
  /-- Where the page table sends a store or `copyout`. -/
  mapping : ∀ pa, Targets v e.slot e.op pa → ∀ i, (v.kern.shmem i).state = .unwritable →
    pa ≠ (v.kern.shmem i).phaddr

/-- The calls on the tables that a step makes keep to the page they name. -/
theorem StaysOff.storesInPage {v : VmState} {e : VmEvent} {op : Op} (h : StaysOff v e) (hc : e.op.Calls op)
    (hp : op.plain = true) : op.StoresInPage := by
  have hindex := h.index
  revert hc hindex
  cases e.op with
  | kern op' h' =>
    intro hc hindex
    cases (hc : op = op')
    exact hindex op h' rfl
  | store va b =>
    intro hc _
    cases (hc : op = .exit (-1))
    exact nofun
  | fork | exec | wait | shmemAccess =>
    rintro ⟨_, rfl⟩
    cases hp
  | sbrk | copyout | trap | take | fill | give => exact fun hc => absurd hc id

/-- Where a step that stays off writes besides the tables, it leaves the bytes of an `UNWRITABLE` page. -/
theorem StaysOff.not_mayWrite {L : Layout} {v : VmState} {e : VmEvent} {i : PageNo} (h : StaysOff v e)
    (hv : Sound L (fun _ _ => True) v) (hu : (v.kern.shmem i).state = .unwritable) :
    ∀ x, pageAddr L.base i ≤ x → x < pageAddr L.base i + PGSIZE → ¬ MayWrite L v e.slot e.op x := by
  rintro x hx hx' ⟨pa, hpa, hle, hlt⟩
  have hne : Targets v e.slot e.op pa → pa ≠ pageAddr L.base i := by
    intro ht
    rw [← hv.phaddr i]
    exact h.mapping pa ht i hu
  have hown : ¬ Own L pa := fun ho => not_inPages_own hx hx' ⟨pa, ho, hle, hlt⟩
  have ht := hpa.resolve_left hown
  obtain ⟨j, -, rfl⟩ := (hv.target ht).resolve_left hown
  have hij : i ≠ j := fun hij => hne ht (by rw [hij])
  rcases pages_apart L.base hij with hapart | hapart <;> omega

/-- A step that stays off, between two states in which the page is `UNWRITABLE`. -/
theorem eqOn_of_staysOff {L : Layout} {v v' : VmState} {e : VmEvent} {i : PageNo} (h : StaysOff v e)
    (hv : Sound L (fun _ _ => True) v) (hp : (v.kern.proc e.slot).live) (hs : VmStep L v e.slot e.op v')
    (hu : (v.kern.shmem i).state = .unwritable) (hu' : (v'.kern.shmem i).state = .unwritable) :
    EqOn (pageAddr L.base i) PGSIZE v.kern.mem v'.kern.mem := by
  cases hs with
  | plain op r hop hplain hc =>
    cases bytes_step hp hv.phaddr (h.storesInPage hop hplain) hc i with
    | keep _ _ hm => exact hm
    | store _ _ _ _ hst _ => exact absurd hu hst
    | reset _ _ hst _ =>
      rw [hu'] at hst
      cases hst
  | call _ _ _ _ _ _ hm => exact hm.eqOn (h.not_mayWrite hv hu)
  | memory _ hm => exact hm.eqOn (h.not_mayWrite hv hu)

/-- Page `0` is `UNWRITABLE` in every state of a run. -/
def keptUnwritable (tr : List (VmState × VmEvent)) (v : VmState) : Bool :=
  (visited tr v).all fun w => (w.kern.shmem 0).state = .unwritable

/-- The step is a call on the tables, and if it stores, it stores within the page. -/
def storesInPage (e : VmEvent) : Bool :=
  match e.op with
  | .kern op _ => op.StoresInPage
  | _ => false

theorem staysOff_of_storesInPage {v : VmState} {e : VmEvent} (h : storesInPage e = true) : StaysOff v e := by
  obtain ⟨p, op, r⟩ := e
  cases op with
  | kern op hop =>
    refine ⟨?_, ?_⟩
    · rintro op' h' ⟨⟩
      exact of_decide_eq_true h
    · rintro pa ⟨u, -, j, hj, -⟩
      cases hj
  | fork | exec | wait | sbrk | shmemAccess | store | copyout | trap | take | fill | give => cases h

/-- From a reachable state the steps `l` are made, page `0` is `UNWRITABLE` all the time, and its first byte
changes. -/
def ChangedBy (l : List (Slot × VmOp)) : Prop :=
  ∃ v₀ tr v₁, (vmachine .sample fun _ => 0).Reachable v₀ ∧ (vmachine .sample fun _ => 0).Run v₀ tr v₁ ∧
    vops tr = l ∧ (∀ v ∈ visited tr v₁, (v.kern.shmem 0).state = .unwritable) ∧
    v₁.kern.mem (v₁.kern.shmem 0).phaddr ≠ v₀.kern.mem (v₀.kern.shmem 0).phaddr

theorem changedBy_of_vcheck {l : List (Slot × VmOp)}
    (h : vcheck .sample (fun _ => 0) [(0, .shmemSetUnwritable 0)] l
      (fun v₀ tr v => keptUnwritable tr v &&
        v.kern.mem (v.kern.shmem 0).phaddr != v₀.kern.mem (v₀.kern.shmem 0).phaddr) = true) : ChangedBy l := by
  obtain ⟨v₀, tr, v1, h0, hr, hl, hf⟩ := exists_of_vcheck h
  simp only [Bool.and_eq_true, List.all_eq_true, bne_iff_ne, keptUnwritable, decide_eq_true_eq] at hf
  exact ⟨v₀, tr, v1, h0, hr, hl, hf.1, hf.2⟩

end Xv6Shmem.SharedMemory
