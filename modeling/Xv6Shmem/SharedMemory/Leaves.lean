import Xv6Shmem.SharedMemory.Mapping

/-!
# The shape of the page tables

`proc_freepagetable` takes the trampoline, the trapframe and the pages below the size out
of a page table, and then `freewalk` expects it to be empty. So the leaves of a process
have to be just these. Every call keeps to that, also where it runs out of memory halfway;
but `get_shmem_access` maps a page below the trapframe, and nothing ever takes it out: the
parent's `wait` then panics, or the process's own `exec`.
-/

namespace Xv6Shmem.SharedMemory

open Function Kernel Vm Radix LTS

/-- The leaves of a process are the pages of `[0, PGROUNDUP(sz))`, the trapframe and the trampoline. -/
def LeavesOfSize (u : Uvm) : Prop :=
  ∀ x, u.pagetable.leaf x ≠ none ↔ x < npages u.sz ∨ x = TFVPN ∨ x = TRAMPVPN

/-- That holds of every process that has not exited, or has and was not waited for. -/
def WellShaped (v : VmState) : Prop :=
  ∀ q, (v.kern.proc q).state ≠ .unused → ∃ u, v.uvm q = some u ∧ LeavesOfSize u

/-- No step fails where a page table is unmapped or freed. -/
def FreesCleanly (L : Layout) (v : VmState) : Prop :=
  ∀ p op e, (v.kern.proc p).live = true → vcall L p v op = .error e →
    e ≠ .uvmunmapNotMapped ∧ e ≠ .uvmunmapWalk ∧ e ≠ .freewalkLeaf

/-- The step is not a `shmem_access` for whose address there are the tables, or the free pages to make them. -/
def MapsNothing (v : VmState) (e : VmEvent) : Prop :=
  ∀ i u, e.op = .shmemAccess i → v.uvm e.slot = some u →
    v.freelist.length < Table.missing (px (vashmem (v.kern.proc e.slot).shmemAccessCount)) 2 u.pagetable

section Leaves

variable {L : Layout} {m : Mem} {v v' : VmState} {e : VmEvent}

/-- The leaves are those of the size exactly if no shared page is mapped. -/
theorem leavesOfSize_iff {M : PageNo → Prop} {u : Uvm} (h : Owned L M u) (hpages : ∀ a ∈ u.pages, Own L a) :
    LeavesOfSize u ↔ Owned L (fun _ => False) u := by
  constructor
  · intro hl
    refine h.tight.mono ?_
    rintro i ⟨x, hx⟩
    obtain ⟨E, hs, -⟩ := h
    have hpte : ∀ e, u.pagetable.leaf x = some e → e = shmemPte (pageAddr L.base i) := fun e he =>
      Option.some.inj (he.symm.trans hx)
    rcases (hl x).mp (by rw [hx]; simp) with hlow | rfl | rfl
    · have hmem : pageAddr L.base i ∈ pages u.pagetable.leaf 0 (npages u.sz) :=
        mem_pages.mpr ⟨x, Nat.zero_le x, by omega, _, hx, rfl⟩
      exact (hpages _ (Multiset.mem_add.mpr (.inr (Multiset.mem_add.mpr (.inr hmem))))).2 i rfl
    · cases congrArg Pte.u (hpte _ hs.tf)
    · cases congrArg Pte.u (hpte _ hs.tramp)
  · intro ho x
    obtain ⟨E, hs, hE⟩ := ho
    have hnone : E x = none := by
      by_contra hne
      obtain ⟨e, he⟩ := Option.ne_none_iff_exists'.mp hne
      obtain ⟨-, _, hfalse, -⟩ := hE x e he
      exact hfalse
    by_cases hx : x < npages u.sz
    · obtain ⟨e, he⟩ := hs.low x hx
      simp [he, hx]
    · rw [hs.high x (not_lt.mp hx), upper, hnone]
      split_ifs with h1 h2
      · simp [h1]
      · simp [h2]
      · simp [hx, h1, h2]

/-- A state is well shaped exactly if no shared page is mapped in it. -/
theorem wellShaped_iff {M : Slot → PageNo → Prop} (h : Sound L M v) :
    WellShaped v ↔ Sound L (fun _ _ => False) v := by
  constructor
  · intro hw
    refine ⟨h.phaddr, h.ledger, fun q u hu => ?_, h.used⟩
    have hused : (v.kern.proc q).state ≠ .unused := fun he => by
      rw [(h.used q).mpr he] at hu
      cases hu
    obtain ⟨u', hu', hl⟩ := hw q hused
    rw [hu] at hu'
    cases hu'
    exact (leavesOfSize_iff (h.user q u hu) (h.pages hu)).mp hl
  · intro hs q hq
    obtain ⟨u, hu⟩ := Option.ne_none_iff_exists'.mp fun hn => hq ((hs.used q).mp hn)
    exact ⟨u, hu, (leavesOfSize_iff (hs.user q u hu) (hs.pages hu)).mpr (hs.user q u hu)⟩

/-- In a well shaped state nothing fails where page tables are freed. -/
theorem freesCleanly_of_sound (h : Sound L (fun _ _ => False) v) : FreesCleanly L v := by
  intro p op e hp he
  have hpanic := (vcall_outcome h hp op).of_error he
  rcases hpanic with ht | hg | ⟨-, _, _, hfalse⟩
  · refine ⟨?_, ?_, ?_⟩ <;> rintro rfl <;> cases ht
  · rcases hg with rfl | rfl <;> exact ⟨by simp, by simp, by simp⟩
  · exact hfalse.elim

/-- What a `shmem_access` that returns did to the leaves: one more, if there were the pages for the missing
tables; else none. -/
theorem shmemAccess_leaves {M : Slot → PageNo → Prop} {p : Slot} {i : PageNo} {r : Option ℤ} (h : Sound L M v)
    (hp : (v.kern.proc p).live = true) (hok : v.shmemAccess i p = .ok (r, v')) :
    ∃ u u', v.uvm p = some u ∧ v'.uvm = update v.uvm p (some u') ∧ u'.sz = u.sz ∧
      (v.freelist.length < Table.missing (px (vashmem (v.kern.proc p).shmemAccessCount)) 2 u.pagetable →
        u'.pagetable.leaf = u.pagetable.leaf) ∧
      (Table.missing (px (vashmem (v.kern.proc p).shmemAccessCount)) 2 u.pagetable ≤ v.freelist.length →
        ∃ x, u.pagetable.leaf x = none ∧ u'.pagetable.leaf x ≠ none) := by
  suffices hout : Outcome (fun r : Option ℤ × VmState => ∃ u u', v.uvm p = some u ∧
      r.2.uvm = update v.uvm p (some u') ∧ u'.sz = u.sz ∧
      (v.freelist.length < Table.missing (px (vashmem (v.kern.proc p).shmemAccessCount)) 2 u.pagetable →
        u'.pagetable.leaf = u.pagetable.leaf) ∧
      (Table.missing (px (vashmem (v.kern.proc p).shmemAccessCount)) 2 u.pagetable ≤ v.freelist.length →
        ∃ x, u.pagetable.leaf x = none ∧ u'.pagetable.leaf x ≠ none)) (fun _ => True) (v.shmemAccess i p) from
    hout.of_ok hok
  unfold VmState.shmemAccess
  split_ifs with ha
  · exact .error trivial
  refine h.bind_user hp fun u hu hown => ?_
  obtain ⟨x, -, hx⟩ := vashmem_page (v.kern.proc p).shmemAccessCount
  dsimp only
  rw [hx]
  refine Outcome.bind (mappages_page.mono (fun _ hr => hr) fun _ _ => trivial) ?_
  rintro ⟨mapped, pt, k⟩ ⟨-, -, hfail, hmap, hroom⟩
  dsimp only at hfail hmap hroom ⊢
  cases getShmemAccess i mapped p v.kern with
  | error e => exact .error trivial
  | ok s =>
    refine .ok ⟨u, { u with pagetable := pt }, hu, rfl, rfl, fun hlt => ?_, fun hle => ?_⟩
    · refine hfail (Bool.eq_false_iff.mpr fun ht => ?_)
      exact absurd (hroom.mp ht) (not_le.mpr hlt)
    · obtain ⟨hnone, hleaf⟩ := hmap (hroom.mpr hle)
      refine ⟨x, hnone, ?_⟩
      show pt.leaf x ≠ none
      rw [hleaf, update_self]
      simp

/-- From a well shaped reachable state a `shmem_access` leads to one exactly if it maps nothing. -/
theorem wellShaped_shmemAccess {M : Slot → PageNo → Prop} {i : PageNo} (hm : Sound L M v) (h : WellShaped v)
    (hs : (vmachine L m).step v e v') (hop : e.op = .shmemAccess i) : WellShaped v' ↔ MapsNothing v e := by
  obtain ⟨-, hstep⟩ := hm.of_step hs
  have hcall := hs.2
  rw [hop] at hcall hstep
  obtain ⟨u, u', hu, hu', hsz, hfail, hmap⟩ := shmemAccess_leaves hm hs.1 hcall
  have hunused := hstep.unused hs.1 (by simp) (by simp)
  have hself : v'.uvm e.slot = some u' := by rw [hu', update_self]
  constructor
  · intro h' j w _ hw
    rw [hu] at hw
    cases hw
    by_contra hroom
    -- the new leaf is at a page where there was none, so it is none of those of the size
    obtain ⟨x, hnone, hsome⟩ := hmap (not_lt.mp hroom)
    have hused := Proc.used_of_live hs.1
    obtain ⟨_, hw, hl⟩ := h e.slot hused
    rw [hu] at hw
    cases hw
    obtain ⟨_, hw, hl'⟩ := h' e.slot fun hn => hused ((hunused _).mp hn)
    rw [hself] at hw
    cases hw
    have hx := (hl' x).mp hsome
    rw [hsz] at hx
    exact (hl x).mpr hx hnone
  · intro hn q hq
    obtain ⟨w, hw, hl⟩ := h q fun hn => hq ((hunused q).mpr hn)
    by_cases hqp : q = e.slot
    · subst hqp
      rw [hu] at hw
      cases hw
      refine ⟨u', hself, fun x => ?_⟩
      rw [hfail (hn i u hop hu), hsz]
      exact hl x
    · exact ⟨w, by rw [hu', update_of_ne hqp, hw], hl⟩

/-- From a well shaped reachable state a step leads to one exactly if it maps no shared page. -/
theorem wellShaped_step (hv : (vmachine L m).Reachable v) (h : WellShaped v) (hs : (vmachine L m).step v e v') :
    WellShaped v' ↔ MapsNothing v e := by
  have hm := sound_of_reachable hv
  by_cases hop : ∃ i, e.op = .shmemAccess i
  · obtain ⟨i, hop⟩ := hop
    exact wellShaped_shmemAccess hm h hs hop
  · obtain ⟨hsound, -⟩ := ((wellShaped_iff hm).mp h).of_step hs
    have hnone : Sound L (fun _ _ => False) v' := by
      refine ⟨hsound.phaddr, hsound.ledger, fun q u hu => ?_, hsound.used⟩
      refine (hsound.user q u hu).mono ?_
      rintro i (⟨hfalse, -⟩ | ⟨-, hi⟩)
      · exact hfalse
      · exact hop ⟨i, hi⟩
    exact iff_of_true ((wellShaped_iff hnone).mpr hnone) fun i _ hi _ => absurd ⟨i, hi⟩ hop

theorem wellShaped_boot (h : VmState.boot L m = .ok v) : WellShaped v :=
  (wellShaped_iff (sound_boot h)).mpr (sound_boot h)

end Leaves

/-! ### Two runs -/

theorem mapsNothing_of_vops {tr : List (VmState × VmEvent)} (h : ∀ c ∈ vops tr, ∀ i, c.2 ≠ .shmemAccess i) :
    ∀ x ∈ tr, MapsNothing x.1 x.2 := by
  intro x hx i u hop _
  exact absurd hop (h (x.2.slot, x.2.op) (List.mem_map_of_mem hx) i)

/-- A child is made, exits and is waited for. -/
def forkAndWait : List (Slot × VmOp) := [(0, .fork), (1, .exit 0), (0, .wait 0)]

/-- The first process makes a child, which sets the four pages, maps page `0` and exits. -/
def forkAndMap : List (Slot × VmOp) :=
  [(0, .fork), (1, .shmemSetWritable 0), (1, .shmemSetWritable 1),
   (1, .shmemSetWritable 2), (1, .shmemSetWritable 3), (1, .shmemAccess 0),
   (1, .exit 0)]

/-- Slot `q` has a leaf below the trapframe that is not below the size. -/
def strayLeaf (v : VmState) (q : Slot) : Bool :=
  match v.uvm q with
  | none => false
  | some u => (u.pagetable.leaf (TFVPN - 1)).isSome && npages u.sz ≤ TFVPN - 1

theorem not_wellShaped_of_strayLeaf {v : VmState} {q : Slot} (h : strayLeaf v q = true)
    (hq : (v.kern.proc q).state ≠ .unused) : ¬ WellShaped v := by
  intro hw
  obtain ⟨u, hu, hl⟩ := hw q hq
  rw [strayLeaf, hu, Bool.and_eq_true, decide_eq_true_eq] at h
  obtain ⟨hleaf, hsz⟩ := h
  rcases (hl (TFVPN - 1)).mp (Option.isSome_iff_ne_none.mp hleaf) with hx | hx | hx
  · omega
  · exact absurd hx (by decide)
  · exact absurd hx (by decide)

/-- What a call failed with. -/
def panicOf (L : Layout) (p : Slot) (v : VmState) (op : VmOp) : Option Panic :=
  match vcall L p v op with
  | .ok _ => none
  | .error e => some e

theorem error_of_panicOf {L : Layout} {p : Slot} {v : VmState} {op : VmOp} {e : Panic}
    (h : panicOf L p v op = some e) : vcall L p v op = .error e := by
  unfold panicOf at h
  split at h
  · cases h
  · rename_i e' he
    cases h
    exact he

end Xv6Shmem.SharedMemory
