import Xv6Shmem.Vm.Steps

/-!
# Mappings of the shared pages

`shmem_access` maps a shared page into the memory of a process that has access to it.
The mapping stays when the access goes: `shmem_release_access` clears the flag and leaves
the page table, and the page may be another group's by then. That is the only way: `exec`
replaces the page table, `fork` does not copy what is above the size, and `exit` ends the
process.
-/

namespace Xv6Shmem.SharedMemory

open Kernel Vm LTS

/-- The page table of slot `q` has a leaf for the user that leads to shared page `i`. -/
def Mapped (v : VmState) (q : Slot) (i : PageNo) : Prop :=
  ∃ u, v.uvm q = some u ∧ ∃ x e, u.pagetable.leaf x = some e ∧ e.u = true ∧ e.pa = (v.kern.shmem i).phaddr

/-- Whoever has not exited and has a shared page mapped has access to it. -/
def MappedWithAccess (v : VmState) : Prop :=
  ∀ q i, (v.kern.proc q).live = true → Mapped v q i → (v.kern.proc q).shmemAccess i = true

/-- The step is not a `shmem_release_access` of a page that the process has mapped. -/
def ReleasesUnmapped (v : VmState) (e : VmEvent) : Prop :=
  ∀ i hi, e.op = .kern (.shmemReleaseAccess i) hi → ¬ Mapped v e.slot i

section Mapping

variable {L : Layout} {m : Mem} {v v' : VmState} {e : VmEvent}

/-- A reachable state is sound with the pages that are mapped in it. -/
theorem sound_mapped (h : (vmachine L m).Reachable v) : Sound L (Mapped v) v := by
  have hs := sound_of_reachable h
  refine ⟨hs.phaddr, hs.ledger, fun q u hu => ?_, hs.used⟩
  refine (hs.user q u hu).tight.mono ?_
  rintro i ⟨x, hx⟩
  exact ⟨u, hu, x, _, hx, rfl, (hs.phaddr i).symm⟩

/-- A mapping was there before the step, or the step made it. -/
theorem mapped_before {M : Slot → PageNo → Prop} {q : Slot} {i : PageNo} (h : Sound L M v) (hm : Mapped v q i) :
    M q i := by
  obtain ⟨u, hu, x, e, he, heu, hpa⟩ := hm
  rw [h.phaddr i] at hpa
  rcases (h.user q u hu).leaf he heu with hmem | ⟨j, hj, rfl⟩
  · exact absurd hpa ((h.pages hu _ hmem).2 i)
  · have hij : j = i := pageAddr_inj hpa
    exact hij ▸ hj

/-- `shmem_access` is made with access to the page. -/
theorem access_of_shmemAccess {p : Slot} {i : PageNo} {r : Option ℤ} (h : v.shmemAccess i p = .ok (r, v')) :
    (v.kern.proc p).shmemAccess i = true := by
  by_contra hacc
  rw [Bool.not_eq_true] at hacc
  rw [VmState.shmemAccess, hacc] at h
  cases h

/-- A page that a process had mapped when it released it stays mapped, without access. -/
theorem mapped_of_release {p : Slot} {i : PageNo} {r : Option ℤ} {hi : (Op.shmemReleaseAccess i).plain = true}
    (hp : (v.kern.proc p).live = true) (hs : VmStep L v p (.kern (.shmemReleaseAccess i) hi) v')
    (h : vcall L p v (.kern (.shmemReleaseAccess i) hi) = .ok (r, v')) (hm : Mapped v p i) :
    (v'.kern.proc p).live = true ∧ Mapped v' p i ∧ (v'.kern.proc p).shmemAccess i = false := by
  obtain ⟨⟨r', t⟩, hc, hr⟩ := map_ok_inv h
  cases hr
  obtain ⟨t', ht, hr⟩ := map_ok_inv hc
  cases hr
  obtain ⟨-, -, -, -, hproc, -⟩ := shmemReleaseAccess_ok ht
  obtain ⟨u, hu, x, e, he, heu, hpa⟩ := hm
  refine ⟨?_, ⟨u, hu, x, e, he, heu, hpa.trans (hs.phaddr hp i).symm⟩, ?_⟩
  · rw [← hp]
    simp [hproc, Proc.live]
  · simp [hproc]

/-- From a reachable state in which mappings have access, a step keeps that exactly if it releases no page that is
mapped. -/
theorem mappedWithAccess_step (hv : (vmachine L m).Reachable v) (h : MappedWithAccess v)
    (hs : (vmachine L m).step v e v') : MappedWithAccess v' ↔ ReleasesUnmapped v e := by
  have hm := sound_mapped hv
  obtain ⟨hsound, hstep⟩ := hm.of_step hs
  have hcall := hs.2
  constructor
  · intro h' i hi hop hmap
    rw [hop] at hcall hstep
    obtain ⟨hl, hmap', hacc⟩ := mapped_of_release hs.1 hstep hcall hmap
    rw [h' _ _ hl hmap'] at hacc
    cases hacc
  · intro hrel q i hl hmap
    rcases mapped_before hsound hmap with ⟨hmap, hne⟩ | ⟨rfl, hop⟩
    · have hused : (v.kern.proc q).state ≠ .unused := fun hu => hne ((hm.used q).mpr hu)
      obtain ⟨hlive, hacc⟩ := hstep.access (i := i) hs.1 hused hl
      rcases hacc (h q i hlive hmap) with hacc | ⟨rfl, hrelease⟩
      · exact hacc
      · obtain ⟨hi, hop⟩ := VmOp.eq_release hrelease
        exact absurd hmap (hrel i hi hop)
    · -- the mapping that `shmem_access` has just made
      rw [hop] at hcall hstep
      rcases (hstep.access (i := i) hs.1 (Proc.used_of_live hs.1) hl).2 (access_of_shmemAccess hcall) with hacc | ⟨-, hrelease⟩
      · exact hacc
      · obtain ⟨_, hrelease⟩ := hrelease
        cases hrelease

theorem mappedWithAccess_boot (h : VmState.boot L m = .ok v) : MappedWithAccess v :=
  fun _ _ _ hm => (mapped_before (sound_boot h) hm).elim

/-- **A mapping never outlives the access**, in a run from the start, exactly if no process releases a page
that it has mapped. -/
theorem mapping_with_access_iff {v₀ : VmState} {tr : List (VmState × VmEvent)} (h₀ : VmState.boot L m = .ok v₀)
    (hr : (vmachine L m).Run v₀ tr v) :
    (∀ w ∈ visited tr v, MappedWithAccess w) ↔ ∀ x ∈ tr, ReleasesUnmapped x.1 x.2 :=
  Run.always_iff (fun _ => mappedWithAccess_boot) (fun _ _ _ => mappedWithAccess_step) h₀ hr

end Mapping

/-! ### Two runs -/

/-- The leaf for virtual page `x` of slot `q` leads the user to shared page `i`. -/
def mappedAt (v : VmState) (q : Slot) (i : PageNo) (x : ℕ) : Bool :=
  match v.uvm q with
  | none => false
  | some u =>
    match u.pagetable.leaf x with
    | none => false
    | some e => e.u && e.pa == (v.kern.shmem i).phaddr

theorem mapped_of_mappedAt {v : VmState} {q : Slot} {i : PageNo} {x : ℕ} (h : mappedAt v q i x = true) :
    Mapped v q i := by
  unfold mappedAt at h
  split at h
  · cases h
  · rename_i u hu
    split at h
    · cases h
    · rename_i e he
      rw [Bool.and_eq_true, beq_iff_eq] at h
      exact ⟨u, hu, x, e, he, h.1, h.2⟩

/-- The step is a `shmem_release_access`. -/
def isRelease (e : VmEvent) : Bool :=
  match e.op with
  | .kern (.shmemReleaseAccess _) _ => true
  | _ => false

theorem releasesUnmapped_of_not {v : VmState} {e : VmEvent} (h : isRelease e = false) : ReleasesUnmapped v e := by
  intro i hi hop
  rw [isRelease, hop] at h
  cases h

/-- The first process sets the four pages, and has then a count for which the address is free; it maps page
`0`. -/
def setAndMap : List (Slot × VmOp) :=
  [(0, .shmemSetWritable 0), (0, .shmemSetWritable 1),
   (0, .shmemSetWritable 2), (0, .shmemSetWritable 3), (0, .shmemAccess 0)]

theorem mapped_with_access :
    ∃ v₀ tr v₁, VmState.boot .sample (fun _ => 0) = .ok v₀ ∧ (vmachine .sample fun _ => 0).Run v₀ tr v₁ ∧
      vops tr = setAndMap ∧ Mapped v₁ 0 0 ∧ ∀ w ∈ visited tr v₁, MappedWithAccess w := by
  have hcheck : vcheck .sample (fun _ => 0) [] setAndMap
      (fun _ tr v => mappedAt v 0 0 (TFVPN - 1) && tr.all fun x => !isRelease x.2) = true := by decide +kernel
  obtain ⟨v₀, tr, v₁, h0, hr, hl, hf⟩ := exists_of_vcheck_boot hcheck
  simp only [Bool.and_eq_true, List.all_eq_true, Bool.not_eq_true'] at hf
  obtain ⟨hm, hrel⟩ := hf
  refine ⟨v₀, tr, v₁, h0, hr, hl, mapped_of_mappedAt hm, ?_⟩
  exact (mapping_with_access_iff h0 hr).mpr fun x hx => releasesUnmapped_of_not (hrel x hx)

/-- **A mapping outlives the access**: the first process then releases page `0`, and has it mapped still. -/
theorem mapping_outlives_access :
    ∃ v₀ tr v₁, VmState.boot .sample (fun _ => 0) = .ok v₀ ∧ (vmachine .sample fun _ => 0).Run v₀ tr v₁ ∧
      vops tr = setAndMap ++ [(0, .shmemReleaseAccess 0)] ∧ (v₁.kern.proc 0).live = true ∧
      Mapped v₁ 0 0 ∧ (v₁.kern.proc 0).shmemAccess 0 = false := by
  have hcheck : vcheck .sample (fun _ => 0) [] (setAndMap ++ [(0, .shmemReleaseAccess 0)])
      (fun _ _ v => mappedAt v 0 0 (TFVPN - 1) && (v.kern.proc 0).live && !(v.kern.proc 0).shmemAccess 0) = true := by
    decide +kernel
  obtain ⟨v₀, tr, v₁, h0, hr, hl, hf⟩ := exists_of_vcheck_boot hcheck
  simp only [Bool.and_eq_true, Bool.not_eq_true'] at hf
  obtain ⟨⟨hm, hlive⟩, hacc⟩ := hf
  exact ⟨v₀, tr, v₁, h0, hr, hl, hlive, mapped_of_mappedAt hm, hacc⟩

end Xv6Shmem.SharedMemory
