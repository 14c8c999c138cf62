import Xv6Shmem.Kernel.Effects

/-!
# What a call does to the bytes of a shared page

Of the calls only `shmem_set_init_int` and `shmem_write_int` store to a page, and only
`shmem_release_access` and `exit` clear one. The stores do not check their index; if it is
one of the page, a store to one page leaves the bytes of every other alone, since the
pages do not meet.
-/

namespace Xv6Shmem.Kernel

open Function Mem

/-- An index of an `int` in a page. -/
def InPage (index : Int32) : Prop := 0 ≤ index.toInt ∧ index.toInt ≤ 1023

instance (index : Int32) : Decidable (InPage index) := inferInstanceAs (Decidable (_ ∧ _))

/-- The page, the index and the value of a call that stores. -/
def Op.stores : Op → Option (PageNo × Int32 × Int32)
  | .shmemSetInitInt i index value => some (i, index, value)
  | .shmemWriteInt i index value => some (i, index, value)
  | _ => none

/-- If the call stores, its index is one of the page. -/
def Op.StoresInPage (op : Op) : Prop := ∀ i index value, op.stores = some (i, index, value) → InPage index

instance (op : Op) : Decidable op.StoresInPage :=
  match h : op.stores with
  | none => isTrue fun i index value hs => by rw [h] at hs; cases hs
  | some (i, index, value) =>
    decidable_of_iff (InPage index)
      ⟨fun hk i' index' value' hs => by rw [h] at hs; cases hs; exact hk, fun hk => hk i index value h⟩

/-- The call clears page `i`: `shmem_release_access` by its last user, or `exit` of a process of the group
that leaves it without a user. -/
def Resets (s : State) (p : Slot) (i : PageNo) : Op → Prop
  | .shmemReleaseAccess j => j = i ∧ (s.shmem i).numberofusers - 1 = 0
  | .exit _ => ExitResets (s.proc p) i (s.shmem i)
  | _ => False

instance (s : State) (p : Slot) (i : PageNo) : DecidablePred (Resets s p i)
  | .shmemReleaseAccess _ => inferInstanceAs (Decidable (_ ∧ _))
  | .exit _ => inferInstanceAs (Decidable (ExitResets _ _ _))
  | .fork _ | .exec _ | .wait _ | .kill _ | .shmemSetWritable _ | .shmemSetUnwritable _
  | .shmemSetInitInt _ _ _ | .shmemWriteInt _ _ _ | .shmemReadInt _ _ | .shmemAcquireAccess _
  | .shmemAccess _ _ => inferInstanceAs (Decidable False)

section Pages

variable {base : ℤ} {i j : PageNo}

theorem pages_apart (base : ℤ) (h : i ≠ j) :
    pageAddr base i + PGSIZE ≤ pageAddr base j ∨ pageAddr base j + PGSIZE ≤ pageAddr base i := by
  have hne : (i : ℕ) ≠ j := fun he => h (Fin.ext he)
  simp only [pageAddr, PGSIZE]
  omega

theorem eqOn_clear {m : Mem} (h : i ≠ j) : EqOn (pageAddr base i) PGSIZE m (m.memset (pageAddr base j) 0 PGSIZE) :=
  eqOn_memset (pages_apart base h)

theorem eqOn_store {m : Mem} {index value : Int32} (h : i ≠ j) (hk : InPage index) :
    EqOn (pageAddr base i) PGSIZE m (m.storeInt (pageAddr base j + 4 * index.toInt) value) := by
  apply eqOn_storeInt
  obtain ⟨h0, h1⟩ := hk
  rcases pages_apart base h with h' | h' <;> simp only [PGSIZE] at h' ⊢ <;> omega

end Pages

/-! ### The loop of `exit` -/

theorem exitPage_shmem (p : Slot) (s : State) (j : PageNo) :
    (exitPage p s j).shmem = update s.shmem j (exitShmem (s.proc p) j (s.shmem j)) := rfl

theorem exitPage_mem (p : Slot) (s : State) (j : PageNo) :
    (exitPage p s j).mem =
      if ExitResets (s.proc p) j (s.shmem j) then s.mem.memset (s.shmem j).phaddr 0 PGSIZE else s.mem := rfl

variable {base : ℤ} {p : Slot} {s t : State} {op : Op}

/-- Each page that `exit` resets is cleared, and the bytes of the others stay. -/
theorem foldl_exitPage_mem {l : List PageNo} (hl : l.Nodup) (s : State)
    (haddr : ∀ j, (s.shmem j).phaddr = pageAddr base j) (i : PageNo) :
    if i ∈ l ∧ ExitResets (s.proc p) i (s.shmem i) then
      EqOn (pageAddr base i) PGSIZE (fun _ => 0) (l.foldl (exitPage p) s).mem
    else EqOn (pageAddr base i) PGSIZE s.mem (l.foldl (exitPage p) s).mem := by
  induction l generalizing s with
  | nil => simp [EqOn.rfl]
  | cons j l ih =>
    rw [List.nodup_cons] at hl
    have haddr₁ : ∀ a, ((exitPage p s j).shmem a).phaddr = pageAddr base a := by
      intro a
      rw [← haddr a, exitPage_shmem]
      by_cases ha : a = j
      · subst ha
        rw [update_self, exitShmem]
        split_ifs <;> rfl
      · rw [update_of_ne ha]
    have hrest := ih hl.2 (exitPage p s j) haddr₁
    rw [List.foldl_cons]
    by_cases hij : i = j
    · -- this turn decides, and the later ones leave the page alone
      subst hij
      rw [if_neg fun h => hl.1 h.1] at hrest
      by_cases hr : ExitResets (s.proc p) i (s.shmem i)
      · rw [if_pos ⟨List.mem_cons_self, hr⟩]
        refine EqOn.trans (?_ : EqOn _ _ _ (exitPage p s i).mem) hrest
        intro x hx hx'
        rw [exitPage_mem, if_pos hr, haddr i, memset, if_pos ⟨hx, hx'⟩]
      · have hmem : (exitPage p s i).mem = s.mem := by rw [exitPage_mem, if_neg hr]
        rw [if_neg fun h => hr h.2, ← hmem]
        exact hrest
    · have hsame : (exitPage p s j).shmem i = s.shmem i := by
        rw [exitPage_shmem, update_of_ne hij]
      have hmem : EqOn (pageAddr base i) PGSIZE s.mem (exitPage p s j).mem := by
        rw [exitPage_mem]
        split_ifs
        · rw [haddr j]
          exact eqOn_clear hij
        · exact .rfl
      have hin : i ∈ j :: l ↔ i ∈ l := by simp [hij]
      have hproc : (exitPage p s j).proc = s.proc := rfl
      rw [hsame, hproc] at hrest
      simp only [hin]
      by_cases hr : i ∈ l ∧ ExitResets (s.proc p) i (s.shmem i)
      · rw [if_pos hr] at hrest ⊢
        exact hrest
      · rw [if_neg hr] at hrest ⊢
        exact hmem.trans hrest

/-! ### What a call can do to the bytes of a page -/

/-- What a call `op` of process `p`, going from `s` to `t`, can do to the bytes of page `i`. -/
inductive BytesStep (base : ℤ) (s : State) (p : Slot) (op : Op) (t : State) (i : PageNo) : Prop where
  /-- They stay. -/
  | keep (hr : ¬ Resets s p i op) (hs : ∀ index value, op.stores ≠ some (i, index, value))
      (hm : EqOn (pageAddr base i) PGSIZE s.mem t.mem)
  /-- An `int` of the page is stored. -/
  | store (index value : Int32) (hr : ¬ Resets s p i op) (hs : op.stores = some (i, index, value))
      (hst : (s.shmem i).state ≠ .unwritable)
      (hm : t.mem = s.mem.storeInt (pageAddr base i + 4 * index.toInt) value)
  /-- The page is cleared. -/
  | reset (hr : Resets s p i op) (hs : ∀ index value, op.stores ≠ some (i, index, value))
      (hst : (t.shmem i).state = .notSet) (hm : EqOn (pageAddr base i) PGSIZE (fun _ => 0) t.mem)

theorem BytesStep.of_mem {i : PageNo} (hr : ¬ Resets s p i op)
    (hs : op.stores = none) (hm : t.mem = s.mem) : BytesStep base s p op t i :=
  .keep hr (by simp [hs]) (by rw [hm]; exact .rfl)

theorem BytesStep.of_store {i j : PageNo} {index value : Int32}
    (hr : ¬ Resets s p i op) (hs : op.stores = some (j, index, value)) (hst : (s.shmem j).state ≠ .unwritable)
    (hk : InPage index) (haddr : (s.shmem j).phaddr = pageAddr base j)
    (hm : t.mem = s.mem.storeInt (s.wordAddr j index) value) : BytesStep base s p op t i := by
  rw [State.wordAddr, haddr] at hm
  by_cases hij : i = j
  · subst hij
    exact .store index value hr hs hst hm
  · refine .keep hr ?_ (by rw [hm]; exact eqOn_store hij hk)
    intro index' value' h
    rw [hs] at h
    cases h
    exact hij rfl

theorem fork_mem {mem : Bool} (hp : (s.proc p).live) : (fork mem p s).2.mem = s.mem := by
  cases hf : findUnused s with
  | none => simp [fork, hf]
  | some np =>
    cases mem with
    | false => simp [fork, hf, freeproc, allocproc]
    | true => rw [fork_some hf hp]

/-- **What a call can do to the bytes of a page**, if it stores only within the page it names. -/
theorem bytes_step {r : Option Int32} (hp : (s.proc p).live)
    (haddr : ∀ j, (s.shmem j).phaddr = pageAddr base j) (hk : op.StoresInPage) (h : call p s op = .ok (r, t))
    (i : PageNo) : BytesStep base s p op t i := by
  cases op with
  | fork mem =>
    cases h
    exact .of_mem id rfl (fork_mem hp)
  | exec argc =>
    cases h
    exact .of_mem id rfl rfl
  | exit status =>
    obtain ⟨t', ht, hr⟩ := map_ok_inv h
    cases hr
    obtain ⟨-, -, hshmem, hmem, -⟩ := exit_ok ht
    have hfold := foldl_exitPage_mem (p := p) (List.nodup_finRange SHMEM) (reparent p s) haddr i
    have hiff : ExitResets ((reparent p s).proc p) i ((reparent p s).shmem i) ↔
        ExitResets (s.proc p) i (s.shmem i) := by
      simp only [ExitResets, exitUsers, reparent_shmemAccess, reparent_topPid]
      rfl
    rw [← hmem] at hfold
    simp only [List.mem_finRange, true_and, hiff] at hfold
    split_ifs at hfold with hx
    · refine .reset hx (fun _ _ hs => by cases hs) ?_ hfold
      rw [hshmem i, exitShmem_of_resets hx]
      rfl
    · exact .keep hx (fun _ _ hs => by cases hs) hfold
  | wait copied =>
    have ht : t = (wait copied p s).2 := by rw [Except.ok.inj h]
    refine .of_mem id rfl ?_
    rcases wait_state copied p s with hw | ⟨pp, -, hw⟩ <;> rw [ht, hw]
    rfl
  | kill pid =>
    cases h
    refine .of_mem id rfl ?_
    show (kill pid s).2.mem = s.mem
    rcases kill_state pid s with hk | ⟨q, st, -, -, hk⟩ <;> rw [hk]
    rfl
  | shmemSetWritable j | shmemSetUnwritable j =>
    obtain ⟨t', ht, hr⟩ := map_ok_inv h
    cases hr
    obtain ⟨-, -, rfl⟩ := shmemSet_ok ht
    exact .of_mem id rfl rfl
  | shmemSetInitInt j index value =>
    obtain ⟨t', ht, hr⟩ := map_ok_inv h
    cases hr
    obtain ⟨hs, -, rfl⟩ := shmemSetInitInt_ok ht
    exact .of_store id rfl (by rw [hs]; simp) (hk j index value rfl) (haddr j) rfl
  | shmemWriteInt j index value =>
    obtain ⟨t', ht, hr⟩ := map_ok_inv h
    cases hr
    obtain ⟨hs, -, rfl⟩ := shmemWriteInt_ok ht
    exact .of_store id rfl (by rw [hs]; simp) (hk j index value rfl) (haddr j) rfl
  | shmemReadInt j index =>
    obtain ⟨v, -, hr⟩ := map_ok_inv h
    cases hr
    exact .of_mem id rfl rfl
  | shmemAcquireAccess j =>
    obtain ⟨⟨b, t'⟩, ht, hr⟩ := map_ok_inv h
    cases hr
    rcases shmemAcquireAccess_ok ht with ⟨-, -, rfl⟩ | ⟨-, -, -, -, rfl⟩
    · exact .of_mem id rfl rfl
    · exact .of_mem id rfl rfl
  | shmemReleaseAccess j =>
    obtain ⟨t', ht, hr⟩ := map_ok_inv h
    cases hr
    obtain ⟨-, -, -, -, -, -, -, hcase⟩ := shmemReleaseAccess_ok ht
    by_cases hij : j = i
    · subst hij
      rcases hcase with ⟨hn, hg, hm⟩ | ⟨hn, hg, hm⟩
      · refine .reset ⟨rfl, hn⟩ (fun _ _ hs => by cases hs) (by rw [hg, update_self]; rfl) fun x hx hx' => ?_
        rw [hm, haddr j, memset, if_pos ⟨hx, hx'⟩]
      · exact .of_mem (fun h => hn h.2) rfl hm
    · rcases hcase with ⟨-, -, hm⟩ | ⟨-, -, hm⟩
      · refine .keep (fun h => hij h.1) (fun _ _ hs => by cases hs) ?_
        rw [hm, haddr j]
        exact eqOn_clear (Ne.symm hij)
      · exact .of_mem (fun h => hij h.1) rfl hm
  | shmemAccess j mapped =>
    obtain ⟨t', ht, hr⟩ := map_ok_inv h
    cases hr
    obtain ⟨-, rfl⟩ := getShmemAccess_ok ht
    refine .of_mem id rfl ?_
    split_ifs <;> rfl

end Xv6Shmem.Kernel
