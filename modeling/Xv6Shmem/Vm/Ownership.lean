import Xv6Shmem.Vm.System

/-!
# Which pages a process has

The pages of the allocator are apart from the shared ones: `main` took those first and
nobody gives them to `kfree`. So the memory of a process is made of pages of the
allocator, but for the shared pages that `shmem_access` has mapped above it: `Owned L M u`
says so, where `M` are the shared pages that may be mapped.

Each function on the memory of a process has one lemma, which says where the pages of the
process (`Uvm.pages`) have come from and gone to. `fork` copies what is below the size and
so no shared page (`Forked`); `sbrk` stops with a panic when it runs into one (`Resized`);
and `freeproc` panics if there is one.
-/

namespace Xv6Shmem.Vm

open Function Kernel Radix

/-! ### The pages of the allocator -/

/-- A page of the allocator: any that `kfree` accepts, but for the shared ones. -/
def Own (L : Layout) (pa : ℤ) : Prop := L.IsPage pa ∧ ∀ i, pa ≠ pageAddr L.base i

section Pages

variable {L : Layout} {i j : PageNo}

theorem pageAddr_mod (L : Layout) (i : PageNo) : pageAddr L.base i % PGSIZE = 0 := by
  have h := L.aligned
  simp only [pageAddr, PGSIZE] at h ⊢
  omega

theorem pageAddr_inj {base : ℤ} (h : pageAddr base i = pageAddr base j) : i = j := by
  apply Fin.ext
  simp only [pageAddr, PGSIZE] at h
  omega

/-- The bytes of a shared page are in no page of the allocator. -/
theorem not_inPages_own {x : ℤ} (h : pageAddr L.base i ≤ x) (h' : x < pageAddr L.base i + PGSIZE) :
    ¬ InPages (Own L) x := by
  rintro ⟨pa, ⟨⟨hmod, -, -⟩, hne⟩, hle, hlt⟩
  apply hne i
  have hmod' := pageAddr_mod L i
  simp only [PGSIZE] at *
  omega

theorem mem_pagesDown {n : ℕ} {a pa : ℤ} (h : pa ∈ pagesDown n a) : ∃ j < n, pa = a - PGSIZE * j := by
  induction n generalizing a with
  | zero => cases h
  | succ n ih =>
    rcases List.mem_cons.mp h with rfl | h
    · exact ⟨0, Nat.succ_pos n, by simp⟩
    · obtain ⟨j, hj, rfl⟩ := ih h
      refine ⟨j + 1, by omega, ?_⟩
      simp only [PGSIZE]
      omega

/-- What is left on the list when `main` has taken the shared pages. -/
theorem pagesDown_own : ∀ pa ∈ pagesDown L.npages (L.base - PGSIZE * SHMEM), Own L pa := by
  intro pa hpa
  obtain ⟨j, hj, rfl⟩ := mem_pagesDown hpa
  have hmod := L.aligned
  have hbelow := L.below
  have habove := L.above
  simp only [Layout.npages, PGSIZE, SHMEM] at hj hmod habove
  refine ⟨⟨?_, ?_, ?_⟩, fun i => ?_⟩
  · simp only [PGSIZE, SHMEM]; omega
  · simp only [PGSIZE, SHMEM]; omega
  · simp only [PGSIZE, SHMEM]; omega
  · have hi := i.isLt
    simp only [pageAddr, PGSIZE, SHMEM] at hi ⊢
    omega

end Pages

/-! ### The memory of a process -/

/-- The pages of a process: its trapframe, its tables and its memory. -/
def Uvm.pages (u : Uvm) : Multiset ℤ := {u.trapframe} + (u.pagetable.tables + Vm.pages u.pagetable.leaf 0 (npages u.sz))

/-- A process has its memory, its trapframe and the trampoline mapped, and far above its memory the shared pages in
`M`. -/
def Owned (L : Layout) (M : PageNo → Prop) (u : Uvm) : Prop :=
  ∃ E, Shape (npages u.sz) (upper L u.trapframe E) u.pagetable.leaf ∧
    ∀ x e, E x = some e → 2 ^ 25 ≤ x ∧ ∃ i, M i ∧ e = shmemPte (pageAddr L.base i)

section Uvm

variable {L : Layout} {M M' : PageNo → Prop} {u : Uvm} {k : Kmem}

theorem Owned.mono (h : Owned L M u) (hM : ∀ i, M i → M' i) : Owned L M' u := by
  obtain ⟨E, hs, hE⟩ := h
  refine ⟨E, hs, fun x e he => ?_⟩
  obtain ⟨hx, i, hi, rfl⟩ := hE x e he
  exact ⟨hx, i, hM i hi, rfl⟩

/-- A process with nothing mapped besides its own. -/
theorem Owned.of_shape (h : Shape (npages u.sz) (upper L u.trapframe fun _ => none) u.pagetable.leaf) : Owned L M u :=
  ⟨_, h, nofun⟩

/-- A leaf that the user can access is a page of the process or one of the shared pages in `M`. -/
theorem Owned.leaf (h : Owned L M u) {x : ℕ} {e : Pte} (he : u.pagetable.leaf x = some e) (hu : e.u = true) :
    e.pa ∈ u.pages ∨ ∃ i, M i ∧ e = shmemPte (pageAddr L.base i) := by
  obtain ⟨E, hs, hE⟩ := h
  by_cases hx : x < npages u.sz
  · left
    refine Multiset.mem_add.mpr (.inr (Multiset.mem_add.mpr (.inr ?_)))
    exact mem_pages.mpr ⟨x, Nat.zero_le x, by omega, e, he, rfl⟩
  · rw [hs.high x (not_lt.mp hx), upper] at he
    split_ifs at he
    · cases he
      cases hu
    · cases he
      cases hu
    · exact .inr (hE x e he).2

/-- What may be mapped in a process is what its page table has. -/
theorem Owned.tight (h : Owned L M u) :
    Owned L (fun i => ∃ x, u.pagetable.leaf x = some (shmemPte (pageAddr L.base i))) u := by
  obtain ⟨E, hs, hE⟩ := h
  -- an entry at the trapframe or the trampoline would be hidden
  let E' : ℕ → Option Pte := fun x => if x = TRAMPVPN ∨ x = TFVPN then none else E x
  have hupper : upper L u.trapframe E' = upper L u.trapframe E := by
    funext x
    unfold upper
    split_ifs with h1 h2
    · rfl
    · rfl
    · exact if_neg (not_or.mpr ⟨h1, h2⟩)
  refine ⟨E', hupper ▸ hs, fun x e he => ?_⟩
  by_cases hx : x = TRAMPVPN ∨ x = TFVPN
  · rw [show E' x = none from if_pos hx] at he
    cases he
  · rw [show E' x = E x from if_neg hx] at he
    obtain ⟨hpos, i, -, rfl⟩ := hE x e he
    have hup : upper L u.trapframe E x = some (shmemPte (pageAddr L.base i)) := by
      rw [not_or] at hx
      rw [upper, if_neg hx.1, if_neg hx.2, he]
    have hhigh : npages u.sz ≤ x := by
      by_contra hlt
      rw [hs.apart x (not_le.mp hlt)] at hup
      cases hup
    exact ⟨hpos, i, ⟨x, by rw [hs.high x hhigh, hup]⟩, rfl⟩

theorem npages_zero : npages 0 = 0 := by decide

theorem pages_of_sz_zero (tf : ℤ) (pt : Pagetable) : Uvm.pages ⟨tf, pt, 0⟩ = {tf} + pt.tables := by
  rw [Uvm.pages, npages_zero, Vm.pages, add_zero]

/-- **`allocproc`** takes the pages of an empty process, or none. -/
theorem allocUvm_outcome {E : Panic → Prop} (hk : ∀ a ∈ k.freelist, L.IsPage a) :
    Outcome
      (fun r : Option Uvm × Kmem => (r.1 = none → Moved 0 0 k r.2) ∧ ∀ c, r.1 = some c →
        c.sz = 0 ∧ c.pagetable.leaf = (upper L c.trapframe fun _ => none) ∧ Moved 0 c.pages k r.2)
      E (allocUvm L k) := by
  unfold allocUvm
  cases ha : kalloc k with
  | none => exact .ok ⟨fun _ => .refl, nofun⟩
  | some x =>
    obtain ⟨tf, k1⟩ := x
    have hm := kalloc_moved ha
    have hall := hm.all (by simp) hk
    refine Outcome.bind (procPagetable_outcome hall.2) ?_
    rintro ⟨pt, k2⟩ ⟨hnone, hsome⟩
    cases pt with
    | none =>
      refine Outcome.bind (kfree_moved (hall.1 tf (Multiset.mem_singleton_self tf))) fun k3 hk3 => .ok ⟨fun _ => ?_, nofun⟩
      have htake := hm.take (hnone rfl)
      rw [zero_add] at htake
      exact htake.trans hk3
    | some pt =>
      obtain ⟨hm2, hleaf⟩ := hsome pt rfl
      refine .ok ⟨nofun, ?_⟩
      rintro _ ⟨⟩
      refine ⟨rfl, hleaf, ?_⟩
      rw [pages_of_sz_zero, add_comm]
      exact hm.take hm2

/-- **`freeproc`** gives all pages of a process back; it panics only if something else is mapped. -/
theorem freeUvm_outcome {E : ℕ → Option Pte} (hs : Shape (npages u.sz) (upper L u.trapframe E) u.pagetable.leaf)
    (hu : ∀ a ∈ u.pages, L.IsPage a) :
    Outcome (Moved u.pages 0 k) (fun e => e = .freewalkLeaf ∧ ∃ x, E x ≠ none) (freeUvm L (some u) k) := by
  refine Outcome.bind (kfree_moved (hu _ (Multiset.mem_add.mpr (.inl (Multiset.mem_singleton_self _))))) fun k1 hk1 => ?_
  refine (procFreepagetable_outcome hs fun a ha => hu a (Multiset.mem_add.mpr (.inr ha))).imp fun k2 hk2 => ?_
  exact ((Moved.refl (F := u.pages)).give hk1).trans hk2

/-! ### `fork` -/

/-- What `fork` gives the child `c` of `u`, from `k` to `k'`. The bytes are known if no page was free twice and the
pages of `u` were not free. -/
structure Forked (L : Layout) (u c : Uvm) (k k' : Kmem) : Prop where
  /-- The size is that of the parent. -/
  sz : c.sz = u.sz
  /-- Nothing is mapped besides its own. -/
  shape : Shape (npages u.sz) (upper L c.trapframe fun _ => none) c.pagetable.leaf
  /-- Its pages were free. -/
  moved : Moved 0 c.pages k k'
  /-- Its memory is that of the parent. -/
  copied : ∀ v < npages u.sz, ∃ e, c.pagetable.leaf v = some e ∧ Copied u.pagetable k v e k'.mem
  /-- Its registers are those of the parent, with `0` in `a0`. -/
  regs : k.freelist.Nodup → u.trapframe % PGSIZE = 0 → u.trapframe ∉ k.freelist → ∀ i : ℤ, 0 ≤ i → i < TRAPFRAMESIZE →
    k'.mem (c.trapframe + i) = if (A0 : ℤ) ≤ i ∧ i < A0 + 8 then 0 else k.mem (u.trapframe + i)

theorem forkRegs_onlyOn (np p : ℤ) (m : Mem) : Mem.OnlyOn (InPages (· ∈ ({np} : Multiset ℤ))) m (forkRegs np p m) := by
  have hpage := inPages_of_page (G := (· ∈ ({np} : Multiset ℤ))) (Multiset.mem_singleton_self np)
  refine (Mem.onlyOn_memmove fun x hx hx' => hpage x hx ?_).trans (Mem.onlyOn_write fun x hx hx' => hpage x ?_ ?_)
  · simp only [TRAPFRAMESIZE, PGSIZE] at hx' ⊢
    omega
  · simp only [A0] at hx
    omega
  · simp only [A0, List.length_replicate, PGSIZE] at hx' ⊢
    omega

theorem forkRegs_apply {np p i : ℤ} {m : Mem} (hi : 0 ≤ i) (hi' : i < TRAPFRAMESIZE) :
    forkRegs np p m (np + i) = if (A0 : ℤ) ≤ i ∧ i < A0 + 8 then 0 else m (p + i) := by
  simp only [TRAPFRAMESIZE] at hi'
  simp only [forkRegs, Mem.write, Mem.memmove, List.length_replicate, A0, TRAPFRAMESIZE]
  push_cast at hi' ⊢
  by_cases ha : 112 ≤ i ∧ i < 120
  · have hin : np + 112 ≤ np + i ∧ np + i < np + 112 + 8 := ⟨by omega, by omega⟩
    have hidx : (np + i - (np + 112)).toNat < 8 := by omega
    rw [if_pos hin, if_pos ⟨ha.1, by omega⟩]
    exact List.getD_replicate 0 hidx
  · have hout : ¬ (np + 112 ≤ np + i ∧ np + i < np + 112 + 8) := by omega
    have hin : np ≤ np + i ∧ np + i < np + 288 := ⟨by omega, by omega⟩
    rw [if_neg hout, if_pos hin, if_neg (by omega), add_sub_cancel_left]

variable {X : ℕ → Option Pte} {n : Int32}

/-- **`fork`** copies the memory of the process and nothing above it, or takes nothing. It does not panic. -/
theorem forkUvm_outcome {E : Panic → Prop}
    (hs : Shape (npages u.sz) (upper L u.trapframe X) u.pagetable.leaf) (hk : ∀ a ∈ k.freelist, L.IsPage a) :
    Outcome
      (fun r : Option Uvm × Kmem => (r.1 = none → Moved 0 0 k r.2) ∧ ∀ c, r.1 = some c → Forked L u c k r.2)
      E (forkUvm L u k) := by
  unfold forkUvm
  refine Outcome.bind (allocUvm_outcome hk) ?_
  rintro ⟨c, k1⟩ ⟨hnone, hsome⟩
  cases c with
  | none => exact .ok ⟨fun _ => hnone rfl, by rintro _ ⟨⟩⟩
  | some c =>
    obtain ⟨hsz, hleaf, hm⟩ := hsome c rfl
    obtain ⟨tf, pt, sz⟩ := c
    dsimp only at hsz hleaf hm ⊢
    subst hsz
    rw [pages_of_sz_zero] at hm
    have hall := hm.all (by simp) hk
    have hempty : Shape 0 (upper L tf fun _ => none) pt.leaf := by
      rw [hleaf]
      exact .empty _
    refine Outcome.bind ((uvmcopy_outcome hs.low hall.2 hs.le).mono (fun _ hr => hr) ?_) ?_
    · -- the new table has nothing below the trapframe
      rintro e ⟨-, v, -, hv, hblock⟩
      have hle := hs.le_tf
      have hle' := hs.le
      rw [hleaf, upper, if_neg (by simp only [TFVPN, TRAMPVPN] at hle ⊢; omega),
        if_neg (by simp only [TFVPN] at hle ⊢; omega)] at hblock
      rcases hblock with hmax | hne
      · omega
      · exact absurd rfl hne
    rintro ⟨copied, pt', k2⟩ ⟨hok, hfail⟩
    cases copied with
    | true =>
      have hg : Grown (Copied u.pagetable k1) 0 pt k1 (npages u.sz) pt' k2 := hok rfl
      -- what the child has before its registers are written
      have hm2 : Moved 0 (Uvm.pages ⟨tf, pt', u.sz⟩) k k2 := by
        have hstep := hg.took.moved.frame {tf}
        rw [Nat.sub_zero, add_comm, add_comm _ ({tf} : Multiset ℤ)] at hstep
        exact hm.trans hstep
      have hpages := (hm2.all (by simp) hk).1
      have htf : tf ∈ Uvm.pages ⟨tf, pt', u.sz⟩ := Multiset.mem_add.mpr (.inl (Multiset.mem_singleton_self tf))
      have hkeep : ∀ {a : ℤ}, a % PGSIZE = 0 → a ∉ k.freelist → Mem.EqOn a PGSIZE k.mem k2.mem := by
        intro a ha hnot
        refine hm2.eqOn (fun b hb => (hk b ?_).1) ha ?_
        · rwa [zero_add] at hb
        · rwa [zero_add]
      refine .ok ⟨by rintro ⟨⟩, ?_⟩
      rintro _ ⟨⟩
      refine ⟨rfl, hempty.grown hg hs.le, hm2.write fun x hx => forkRegs_onlyOn _ _ _ x fun hin => hx (hin.mono ?_), ?_, ?_⟩
      · intro a ha
        rwa [Multiset.mem_singleton.mp ha]
      · intro v hv
        obtain ⟨e, he, e0, he0, hee, hbytes⟩ := hg.into v (Nat.zero_le v) hv
        refine ⟨e, he, e0, he0, hee, fun hnd hal hnot i hi hi' => ?_⟩
        obtain ⟨-, hnd1, -⟩ := hm.nodup hnd
        have hmem : e.pa ∈ Vm.pages pt'.leaf 0 (npages u.sz) := mem_pages.mpr ⟨v, Nat.zero_le v, by omega, e, he, rfl⟩
        have hne : e.pa ≠ tf := by
          have hdis := (Multiset.nodup_add.mp (hm2.nodup hnd).1).2.2
          rintro rfl
          exact Multiset.disjoint_left.mp hdis (Multiset.mem_singleton_self _) (Multiset.mem_add.mpr (.inr hmem))
        have hal' := (hpages e.pa (Multiset.mem_add.mpr (.inr (Multiset.mem_add.mpr (.inr hmem))))).1
        have haltf := (hpages tf htf).1
        have hout : ¬ InPages (· ∈ ({tf} : Multiset ℤ)) (e.pa + i) := by
          rintro ⟨a, ha, hle, hlt⟩
          obtain rfl := Multiset.mem_singleton.mp ha
          simp only [PGSIZE] at *
          omega
        have hk1 : e0.pa ∉ k1.freelist := fun hin => hnot ((hm.all (P := (· ∈ k.freelist)) (by simp) fun _ ha => ha).2 _ hin)
        have hold : Mem.EqOn e0.pa PGSIZE k.mem k1.mem := by
          refine hm.eqOn (fun b hb => (hk b ?_).1) hal ?_
          · rwa [zero_add] at hb
          · rwa [zero_add]
        change forkRegs tf u.trapframe k2.mem (e.pa + i) = _
        rw [forkRegs_onlyOn _ _ _ _ hout, hbytes hnd1 hal hk1 i hi hi', hold _ (by omega) (by omega)]
      · intro hnd hal hnot i hi hi'
        change forkRegs tf u.trapframe k2.mem (tf + i) = _
        rw [forkRegs_apply hi hi', hkeep hal hnot _ (by omega) (by simp only [TRAPFRAMESIZE, PGSIZE] at hi' ⊢; omega)]
    | false =>
      obtain ⟨hleaf', htook⟩ := hfail rfl
      have hm' : Moved 0 ({tf} + pt'.tables) k k2 := by
        have hstep := htook.moved.frame {tf}
        rw [add_zero, add_comm, add_comm pt'.tables] at hstep
        exact hm.trans hstep
      have hpages : Uvm.pages ⟨tf, pt', 0⟩ = {tf} + pt'.tables := pages_of_sz_zero tf pt'
      have hfree := freeUvm_outcome (L := L) (u := ⟨tf, pt', 0⟩) (k := k2) (E := fun _ => none)
        (by rw [npages_zero]; exact hleaf' ▸ hempty) (by rw [hpages]; exact (hm'.all (by simp) hk).1)
      refine Outcome.bind (hfree.mono (fun _ hr => hr) ?_) fun k3 hk3 => .ok ⟨fun _ => ?_, by rintro _ ⟨⟩⟩
      · rintro e ⟨-, x, hx⟩
        exact absurd rfl hx
      · rw [hpages] at hk3
        exact hm'.trans hk3

/-! ### `growproc` -/

/-- `sz + n` in 64 bits. -/
def newSize (sz : ℕ) (n : Int32) : ℕ := (((sz : ℤ) + n.toInt) % 2 ^ 64).toNat

/-- What `growproc(n)` does to the process `u`. -/
inductive Resized (n : Int32) (u : Uvm) (k : Kmem) : Bool × Uvm × Kmem → Prop where
  /-- It has grown. -/
  | grown {pt : Pagetable} {k' : Kmem} (hn : 0 < n) (hsz : u.sz ≤ newSize u.sz n) (hle : npages (newSize u.sz n) ≤ MAXVPN)
      (hg : Grown (Zeroed (true, false) k) (npages u.sz) u.pagetable k (npages (newSize u.sz n)) pt k') :
      Resized n u k (true, { u with pagetable := pt, sz := newSize u.sz n }, k')
  /-- There was no memory. -/
  | failed {pt : Pagetable} {k' : Kmem} (hn : 0 < n) (hleaf : pt.leaf = u.pagetable.leaf)
      (htook : Took u.pagetable k 0 pt k') : Resized n u k (false, { u with pagetable := pt }, k')
  /-- It has shrunk, or is as large as before. -/
  | shrunk {pt : Pagetable} {k' : Kmem} (hn : n ≤ 0) (htables : pt.tables = u.pagetable.tables)
      (hleaf : pt.leaf = cut u.pagetable.leaf (npages (newSize u.sz n)) (npages u.sz - npages (newSize u.sz n)))
      (hm : Moved (Vm.pages u.pagetable.leaf (npages (newSize u.sz n)) (npages u.sz - npages (newSize u.sz n))) 0 k k') :
      Resized n u k (true, { u with pagetable := pt, sz := min u.sz (newSize u.sz n) }, k')

theorem npages_min (a b : ℕ) : npages (min a b) = min (npages a) (npages b) := by
  rcases Nat.le_total a b with h | h
  · rw [min_eq_left h, min_eq_left (npages_mono h)]
  · rw [min_eq_right h, min_eq_right (npages_mono h)]

theorem Resized.shape {r : Bool × Uvm × Kmem} (h : Resized n u k r)
    (hs : Shape (npages u.sz) X u.pagetable.leaf) : Shape (npages r.2.1.sz) X r.2.1.pagetable.leaf := by
  cases h with
  | grown _ _ hle hg => exact hs.grown hg hle
  | failed _ hleaf _ =>
    dsimp only
    rw [hleaf]
    exact hs
  | shrunk _ _ hleaf _ =>
    dsimp only
    rw [hleaf, npages_min]
    rcases Nat.le_total (npages u.sz) (npages (newSize u.sz n)) with hle | hle
    · rw [min_eq_left hle, Nat.sub_eq_zero_of_le hle, cut_zero]
      exact hs
    · rw [min_eq_right hle]
      exact hs.cut hle

theorem Resized.moved {r : Bool × Uvm × Kmem} (h : Resized n u k r) : Moved u.pages r.2.1.pages k r.2.2 := by
  cases h with
  | grown _ hsz _ hg =>
    have hle := npages_mono hsz
    have hsum : npages (newSize u.sz n) = npages u.sz + (npages (newSize u.sz n) - npages u.sz) := by omega
    have hold := pages_congr (v := 0) (n := npages u.sz) fun x _ hx => hg.out x (.inl (by omega))
    have hstep := hg.took.moved.frame ({u.trapframe} + Vm.pages u.pagetable.leaf 0 (npages u.sz))
    rw [Uvm.pages, Uvm.pages]
    dsimp only
    rw [hsum, pages_add, Nat.zero_add, hold]
    convert hstep using 1 <;> abel
  | failed _ hleaf htook =>
    have hstep := htook.moved.frame ({u.trapframe} + Vm.pages u.pagetable.leaf 0 (npages u.sz))
    rw [Uvm.pages, Uvm.pages]
    dsimp only
    rw [hleaf]
    convert hstep using 1 <;> abel
  | shrunk _ htables hleaf hm =>
    rw [Uvm.pages, Uvm.pages]
    dsimp only
    rw [htables, hleaf, npages_min]
    rcases Nat.le_total (npages u.sz) (npages (newSize u.sz n)) with hle | hle
    · rw [Nat.sub_eq_zero_of_le hle, Vm.pages] at hm
      rw [min_eq_left hle, Nat.sub_eq_zero_of_le hle, cut_zero]
      have hstep := hm.frame ({u.trapframe} + (u.pagetable.tables + Vm.pages u.pagetable.leaf 0 (npages u.sz)))
      rwa [zero_add] at hstep
    · rw [min_eq_right hle]
      have hsum : npages u.sz = npages (newSize u.sz n) + (npages u.sz - npages (newSize u.sz n)) := by omega
      have hcut : Vm.pages (cut u.pagetable.leaf (npages (newSize u.sz n)) (npages u.sz - npages (newSize u.sz n))) 0
          (npages (newSize u.sz n)) = Vm.pages u.pagetable.leaf 0 (npages (newSize u.sz n)) :=
        pages_congr fun x _ hx => by rw [cut, if_neg (by omega)]
      have hstep := hm.frame ({u.trapframe} +
        (u.pagetable.tables + Vm.pages u.pagetable.leaf 0 (npages (newSize u.sz n))))
      rw [hcut]
      conv in Vm.pages u.pagetable.leaf 0 (npages u.sz) => rw [hsum, pages_add, Nat.zero_add]
      convert hstep using 1 <;> abel

/-- **`growproc`** panics only if it runs into something that is mapped above the process. -/
theorem growproc_outcome (hs : Shape (npages u.sz) (upper L u.trapframe X) u.pagetable.leaf)
    (hu : ∀ a ∈ u.pages, L.IsPage a) (hk : ∀ a ∈ k.freelist, L.IsPage a) :
    Outcome (Resized n u k) (Blocked u.pagetable.leaf (npages u.sz) (npages u.sz + k.freelist.length))
      (growproc L n u k) := by
  have hsize : u.sz < 2 ^ 40 := by
    have hle := hs.le
    simp only [npages_eq, PGSIZE, MAXVPN] at hle
    omega
  unfold growproc
  change Outcome _ _ (if 0 < n then _ else _)
  by_cases hpos : 0 < n
  · rw [if_pos hpos]
    have hn : 0 < n.toInt := by simpa using Int32.lt_iff_toInt_lt.mp hpos
    have hlt := n.toInt_lt
    have hge : u.sz ≤ newSize u.sz n := by
      unfold newSize
      omega
    have hout : Outcome _ (Blocked u.pagetable.leaf (npages u.sz) (npages u.sz + k.freelist.length))
        (uvmalloc L u.pagetable u.sz (newSize u.sz n) (true, false) k) :=
      (uvmalloc_outcome hk hs.le).mono (fun _ hr => hr) fun _ hx => hx.mono le_rfl (by omega)
    refine Outcome.bind hout ?_
    rintro ⟨sz, pt, k'⟩ ⟨-, hbig⟩
    rcases hbig hge with ⟨rfl, hle, hg⟩ | ⟨rfl, hleaf, htook⟩
    · have h0 : newSize u.sz n ≠ 0 := by
        unfold newSize
        omega
      dsimp only
      rw [if_neg h0]
      exact .ok (.grown hpos hge hle hg)
    · dsimp only
      rw [if_pos rfl]
      exact .ok (.failed hpos hleaf htook)
  rw [if_neg hpos]
  have hn : n ≤ 0 := Int32.not_lt.mp hpos
  by_cases hneg : n < 0
  · rw [if_pos hneg]
    have hmap : ∀ x, npages (newSize u.sz n) ≤ x → x < npages u.sz →
        ∃ e, u.pagetable.leaf x = some e ∧ L.IsPage e.pa := by
      intro x _ hx
      obtain ⟨e, he⟩ := hs.low x hx
      refine ⟨e, he, hu _ (Multiset.mem_add.mpr (.inr (Multiset.mem_add.mpr (.inr ?_))))⟩
      exact mem_pages.mpr ⟨x, Nat.zero_le x, by omega, e, he, rfl⟩
    refine Outcome.bind (uvmdealloc_outcome hs.le hmap) ?_
    · rintro ⟨sz, pt, k'⟩ ⟨rfl, ht, hleaf, hm⟩
      exact .ok (.shrunk hn ht hleaf hm)
  · rw [if_neg hneg]
    obtain rfl : n = 0 := Int32.le_antisymm hn (Int32.not_lt.mp hneg)
    have hsame : newSize u.sz 0 = u.sz := by
      unfold newSize
      have h0 : (0 : Int32).toInt = 0 := rfl
      omega
    have hres : Resized 0 u k (true, { u with sz := min u.sz (newSize u.sz 0) }, k) :=
      .shrunk hn rfl (by rw [hsame, Nat.sub_self, cut_zero]) (by rw [hsame, Nat.sub_self]; exact .refl)
    rw [hsame, min_self] at hres
    exact .ok hres

/-! ### Mapping a shared page -/

/-- `VASHMEM` is the address of a page near the end of the address space. -/
theorem vashmem_page (n : Int32) : ∃ x, 2 ^ 25 ≤ x ∧ vashmem n = x * PGSIZE := by
  have hmul : ∃ c : ℤ, (4096 * (n + 1)).toInt = 4096 * c := by
    refine ⟨(4096 * (n + 1)).toInt / 4096, ?_⟩
    rw [Int32.toInt_mul, show (4096 : Int32).toInt = 4096 from rfl, Int.bmod_def]
    split_ifs <;> omega
  obtain ⟨c, hc⟩ := hmul
  have hlt := (4096 * (n + 1)).toInt_lt
  rw [hc] at hlt
  refine ⟨(67108862 - c).toNat, by omega, ?_⟩
  simp only [vashmem, hc, TRAPFRAME, TRAMPOLINE, MAXVA, PGSIZE]
  omega

/-- A leaf above the memory of a process. -/
theorem Shape.map {n x : ℕ} {tf : ℤ} {E f : ℕ → Option Pte} {e : Pte} (h : Shape n (upper L tf E) f) (hx : f x = none) :
    Shape n (upper L tf (update E x (some e))) (update f x (some e)) := by
  have hxn : n ≤ x := by
    by_contra hlt
    obtain ⟨e', he'⟩ := h.low x (not_le.mp hlt)
    rw [hx] at he'
    cases he'
  have hup : upper L tf E x = none := by rw [← h.high x hxn, hx]
  have hupper : upper L tf (update E x (some e)) = update (upper L tf E) x (some e) := by
    funext y
    by_cases hy : y = x
    · subst hy
      unfold upper at hup ⊢
      split_ifs at hup
      rw [if_neg ‹_›, if_neg ‹_›, update_self, update_self]
    · simp only [upper, update_of_ne hy]
  rw [hupper]
  refine ⟨fun y hy => ?_, fun y hy => ?_, fun y hy => ?_, h.le⟩
  · rw [update_of_ne (by omega)]
    exact h.low y hy
  · by_cases hyx : y = x
    · rw [hyx, update_self, update_self]
    · rw [update_of_ne hyx, update_of_ne hyx, h.high y hy]
  · rw [update_of_ne (by omega), h.apart y hy]

/-- What `get_shmem_access` does to the page table: one more shared page may be mapped. -/
theorem mappages_shmem {i : PageNo} (hu : Owned L M u) :
    Outcome
      (fun r : Bool × Pagetable × Kmem => Moved u.pages (Uvm.pages { u with pagetable := r.2.1 }) k r.2.2 ∧
        (r.1 = false → Owned L M { u with pagetable := r.2.1 }) ∧
        (r.1 = true → vashmem n < TRAPFRAME ∧ Owned L (fun j => M j ∨ j = i) { u with pagetable := r.2.1 }))
      GrowPanic (mappages u.pagetable (vashmem n) PGSIZE (shmemPte (pageAddr L.base i)) k) := by
  obtain ⟨E, hs, hE⟩ := hu
  obtain ⟨x, hpos, hx⟩ := vashmem_page n
  rw [hx]
  refine mappages_page.mono ?_ fun _ => MapPanic.grow
  rintro ⟨mapped, pt, k1⟩ ⟨hlt, htook, hfail, hok, -⟩
  dsimp only at htook hfail hok ⊢
  have hlow : ∀ y < npages u.sz, pt.leaf y = u.pagetable.leaf y := by
    intro y hy
    cases mapped with
    | false => rw [hfail rfl]
    | true =>
      obtain ⟨hnone, hleaf⟩ := hok rfl
      have hne : y ≠ x := by
        rintro rfl
        obtain ⟨e, he⟩ := hs.low y hy
        rw [he] at hnone
        cases hnone
      rw [hleaf, update_of_ne hne]
  have hmoved : Moved u.pages (Uvm.pages { u with pagetable := pt }) k k1 := by
    have hstep := htook.moved.frame ({u.trapframe} + Vm.pages u.pagetable.leaf 0 (npages u.sz))
    rw [Uvm.pages, Uvm.pages]
    dsimp only
    rw [pages_congr fun y _ hy => hlow y (by omega)]
    convert hstep using 1 <;> abel
  refine ⟨hmoved, fun hm => ⟨E, by rw [hfail hm]; exact hs, hE⟩, fun hm => ?_⟩
  obtain ⟨hnone, hleaf⟩ := hok hm
  have hfree : x ≠ TRAMPVPN ∧ x ≠ TFVPN := by
    constructor
    · rintro rfl
      rw [hs.tramp] at hnone
      cases hnone
    · rintro rfl
      rw [hs.tf] at hnone
      cases hnone
  refine ⟨?_, update E x (some (shmemPte (pageAddr L.base i))), ?_, ?_⟩
  · simp only [TRAMPVPN, TFVPN, MAXVPN, TRAPFRAME, TRAMPOLINE, MAXVA, PGSIZE] at hlt hfree ⊢
    omega
  · rw [hleaf]
    exact hs.map hnone
  · intro y e he
    by_cases hy : y = x
    · rw [hy, update_self] at he
      cases he
      exact ⟨by omega, i, .inr rfl, rfl⟩
    · rw [update_of_ne hy] at he
      obtain ⟨hy', j, hj, rfl⟩ := hE y e he
      exact ⟨hy', j, .inl hj, rfl⟩

end Uvm

end Xv6Shmem.Vm
