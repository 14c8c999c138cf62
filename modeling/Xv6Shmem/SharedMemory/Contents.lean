import Xv6Shmem.Kernel.Bytes

/-!
# What the shared pages contain

Seen from the calls, a shared page is a map from indices to `int`s: `shmem_write_int` and
`shmem_set_init_int` write it, `shmem_read_int` reads it, and a reset, by
`shmem_release_access` or by `exit`, empties it. `lastWritten` is this map after a run,
computed from the calls alone; the memory is to refine it, an index with nothing written
reading as `0`.

It does so from the first reset of a page on. Before that an index with nothing written
reads as the four bytes `5` that `kalloc` left: `safe_physical_address` does not clear the
page (`word_eq`). So a read returns what it should exactly when the index has been
written since the last reset, or there has been a reset.
-/

namespace Xv6Shmem.SharedMemory

open Kernel LTS Mem

/-! ### The map -/

/-- The effect of a step on what is written at index `k` of page `i`: a reset of the page takes it away, a
store to the index replaces it. -/
def writtenAfter (i : PageNo) (k : Int32) (w : Option Int32) (x : State × Event) : Option Int32 :=
  if Resets x.1 x.2.slot i x.2.op then none
  else
    match x.2.op.stores with
    | some (j, k', value) => if j = i ∧ k' = k then some value else w
    | none => w

/-- The value that the run wrote last at index `k` of page `i` since the last reset of the page. -/
def lastWritten (tr : List (State × Event)) (i : PageNo) (k : Int32) : Option Int32 :=
  tr.foldl (writtenAfter i k) none

/-- The run resets page `i`. -/
def WasReset (tr : List (State × Event)) (i : PageNo) : Prop := ∃ x ∈ tr, Resets x.1 x.2.slot i x.2.op

instance (tr : List (State × Event)) (i : PageNo) : Decidable (WasReset tr i) :=
  inferInstanceAs (Decidable (∃ x ∈ tr, _))

/-- What `kalloc` leaves in every `int` of a page. -/
def junk : Int32 := 0x05050505

/-- What index `k` of page `i` reads as after a run. -/
def wordAfter (tr : List (State × Event)) (i : PageNo) (k : Int32) : Int32 :=
  (lastWritten tr i k).getD (if WasReset tr i then 0 else junk)

section Map

variable {tr : List (State × Event)} {x : State × Event} {i : PageNo} {k : Int32}

theorem wordAfter_nil : wordAfter [] i k = junk := by
  simp [wordAfter, lastWritten, WasReset]

theorem lastWritten_snoc : lastWritten (tr ++ [x]) i k = writtenAfter i k (lastWritten tr i k) x := by
  rw [lastWritten, List.foldl_append, List.foldl_cons, List.foldl_nil, lastWritten]

theorem wasReset_snoc : WasReset (tr ++ [x]) i ↔ WasReset tr i ∨ Resets x.1 x.2.slot i x.2.op := by
  simp [WasReset, or_and_right, exists_or]

theorem wordAfter_keep (hr : ¬ Resets x.1 x.2.slot i x.2.op)
    (hs : ∀ value, x.2.op.stores ≠ some (i, k, value)) : wordAfter (tr ++ [x]) i k = wordAfter tr i k := by
  have hwritten : lastWritten (tr ++ [x]) i k = lastWritten tr i k := by
    rw [lastWritten_snoc, writtenAfter, if_neg hr]
    split
    · rename_i j k' value hst
      refine if_neg ?_
      rintro ⟨rfl, rfl⟩
      exact hs value hst
    · rfl
  have hreset : WasReset (tr ++ [x]) i ↔ WasReset tr i := by simp [wasReset_snoc, hr]
  simp only [wordAfter, hwritten, hreset]

theorem wordAfter_store {value : Int32} (hr : ¬ Resets x.1 x.2.slot i x.2.op)
    (hs : x.2.op.stores = some (i, k, value)) : wordAfter (tr ++ [x]) i k = value := by
  rw [wordAfter, lastWritten_snoc, writtenAfter, if_neg hr, hs]
  simp

theorem wordAfter_reset (hr : Resets x.1 x.2.slot i x.2.op) : wordAfter (tr ++ [x]) i k = 0 := by
  rw [wordAfter, lastWritten_snoc, writtenAfter, if_pos hr, if_pos (wasReset_snoc.mpr (.inr hr)), Option.getD_none]

end Map

/-! ### The memory refines it -/

variable {base : ℤ} {m : Mem} {s : State} {k : Int32}

theorem foldl_memset_eq {x : ℤ} {b : UInt8} {l : List PageNo}
    (h : (∃ i ∈ l, pageAddr base i ≤ x ∧ x < pageAddr base i + PGSIZE) ∨ m x = b) :
    (l.foldl (fun m i => m.memset (pageAddr base i) b PGSIZE) m) x = b := by
  induction l generalizing m with
  | nil => simpa using h
  | cons j l ih =>
    refine ih ?_
    by_cases hj : pageAddr base j ≤ x ∧ x < pageAddr base j + PGSIZE
    · exact .inr (if_pos hj)
    · rcases h with ⟨i, hi, hx⟩ | hm
      · rcases List.mem_cons.mp hi with rfl | hi
        · exact absurd hx hj
        · exact .inl ⟨i, hi, hx⟩
      · exact .inr ((if_neg hj).trans hm)

/-- After start the shared pages are full of the byte `5`. -/
theorem boot_bytes (base : ℤ) (m : Mem) (i : PageNo) :
    EqOn (pageAddr base i) PGSIZE (fun _ => 5) (boot base m).mem :=
  fun _ hx hx' => foldl_memset_eq (.inl ⟨i, List.mem_finRange i, hx, hx'⟩)

/-- The shared pages are where `main` put them. -/
theorem phaddr_of_reachable (h : (machine base m).Reachable s) (i : PageNo) :
    (s.shmem i).phaddr = pageAddr base i := by
  refine h.invariant (I := fun s => (s.shmem i).phaddr = pageAddr base i) ?_ ?_
  · intro s hs
    rw [show s = boot base m from hs]
    rfl
  · intro s e t _ hs hstep
    rw [phaddr_eq hstep.1 hstep.2 i, hs]

theorem loadInt_of_page {i : PageNo} {m' : Mem} (hk : InPage k) (h : EqOn (pageAddr base i) PGSIZE m m') :
    m'.loadInt (pageAddr base i + 4 * k.toInt) = m.loadInt (pageAddr base i + 4 * k.toInt) := by
  obtain ⟨h0, h1⟩ := hk
  apply loadInt_of_eqOn h
  · omega
  · simp only [PGSIZE]
    omega

theorem loadInt_store_of_ne {a : ℤ} {k' value : Int32} (h : k' ≠ k) :
    (m.storeInt (a + 4 * k'.toInt) value).loadInt (a + 4 * k.toInt) = m.loadInt (a + 4 * k.toInt) := by
  have hne : k'.toInt ≠ k.toInt := fun he => h (Int32.toInt_inj.mp he)
  refine loadInt_of_eqOn (b := a + 4 * k.toInt) (k := 4) (eqOn_storeInt ?_) le_rfl le_rfl
  omega

/-- **The memory refines the map**: after a run from the start in which all stores are within their page, each
word is what the map says. -/
theorem word_eq {tr : List (State × Event)}
    (hr : (machine base m).Run (boot base m) tr s) (hk : ∀ x ∈ tr, x.2.op.StoresInPage) (i : PageNo) {k : Int32}
    (hik : InPage k) : s.mem.loadInt (pageAddr base i + 4 * k.toInt) = wordAfter tr i k := by
  generalize hs0 : boot base m = s0 at hr
  induction hr with
  | nil =>
    subst hs0
    rw [loadInt_of_page hik (boot_bytes base m i), loadInt_const, wordAfter_nil]
    decide
  | @snoc s t tr e hr hstep ih =>
    have ih := ih fun x hx => hk x (List.mem_append_left _ hx)
    have haddr := phaddr_of_reachable ⟨_, tr, hs0.symm, hr⟩
    have hin : e.op.StoresInPage := hk (s, e) (List.mem_append_right _ (List.mem_singleton_self _))
    cases bytes_step hstep.1 haddr hin hstep.2 i with
    | keep hre hs hm =>
      rw [loadInt_of_page hik hm, ih, wordAfter_keep hre fun value => hs k value]
    | store k' value hre hs _ hm =>
      rw [hm]
      by_cases hkk : k' = k
      · subst hkk
        rw [loadInt_storeInt, wordAfter_store hre hs]
      · rw [loadInt_store_of_ne hkk, ih, wordAfter_keep hre]
        intro value' hst
        rw [show e.op.stores = _ from hs] at hst
        cases hst
        exact hkk rfl
    | reset hre _ _ hm =>
      rw [loadInt_of_page hik hm, wordAfter_reset hre, loadInt_const]
      decide

/-! ### What a read returns -/

/-- The call has no index, or one of the page. -/
def IndexInPage : Op → Prop
  | .shmemSetInitInt _ index _ => InPage index
  | .shmemWriteInt _ index _ => InPage index
  | .shmemReadInt _ index => InPage index
  | _ => True

/-- A read returns what was written last, and `0` if nothing was written since the last reset. -/
def ReturnsLastWritten (tr : List (State × Event)) (x : State × Event) : Prop :=
  ∀ i k, x.2.op = .shmemReadInt i k → x.2.ret = some ((lastWritten tr i k).getD 0)

/-- A read is of an index that has been written since the last reset of its page, or of a page that has been
reset. -/
def ReadsKnown (tr : List (State × Event)) (x : State × Event) : Prop :=
  ∀ i k, x.2.op = .shmemReadInt i k → lastWritten tr i k ≠ none ∨ WasReset tr i

theorem storesInPage_of_indexInPage {op : Op} (h : IndexInPage op) : op.StoresInPage := by
  intro i k value hs
  cases op <;> cases hs <;> exact h

theorem read_ret {tr₁ tr₂ : List (State × Event)} {x : State × Event} {i : PageNo}
    (hr : (machine base m).Run (boot base m) (tr₁ ++ x :: tr₂) s)
    (hk : ∀ y ∈ tr₁ ++ x :: tr₂, IndexInPage y.2.op) (hx : x.2.op = .shmemReadInt i k) :
    x.2.ret = some (wordAfter tr₁ i k) := by
  obtain ⟨hr1, u, hstep⟩ := hr.before
  have hik : InPage k := by
    have h := hk x (by simp)
    rw [hx] at h
    exact h
  have hword := word_eq hr1 (fun y hy => storesInPage_of_indexInPage (hk y (by simp [hy]))) i hik
  obtain ⟨-, hc⟩ := hstep
  rw [hx] at hc
  obtain ⟨v, hv, hret⟩ := map_ok_inv hc
  obtain ⟨-, -, rfl⟩ := shmemReadInt_ok hv
  have hret : some (x.1.mem.loadInt (x.1.wordAddr i k)) = x.2.ret := congrArg Prod.fst hret
  rw [← hret, ← hword, State.wordAddr, phaddr_of_reachable ⟨_, tr₁, rfl, hr1⟩ i]

/-- What a read returns is what was written last exactly if the read is of a known word. -/
theorem returns_iff_known {tr₁ tr₂ : List (State × Event)} {x : State × Event}
    (hr : (machine base m).Run (boot base m) (tr₁ ++ x :: tr₂) s)
    (hk : ∀ y ∈ tr₁ ++ x :: tr₂, IndexInPage y.2.op) : ReturnsLastWritten tr₁ x ↔ ReadsKnown tr₁ x := by
  refine forall_congr' fun i => forall_congr' fun k => imp_congr_right fun hx => ?_
  rw [read_ret hr hk hx, wordAfter]
  cases lastWritten tr₁ i k with
  | some value => simp
  | none =>
    by_cases hreset : WasReset tr₁ i
    · simp [hreset]
    · simp [hreset, junk]

/-- **Reads return what was written last**, in a run from the start with all indices in `0..1023`, exactly if
each is of an index that has been written since the last reset of its page or of a page that has been reset. -/
theorem reads_last_written_iff {base : ℤ} {m : Mem} {s : State} {tr : List (State × Event)}
    (hr : (machine base m).Run (boot base m) tr s) (hk : ∀ x ∈ tr, IndexInPage x.2.op) :
    Throughout ReturnsLastWritten tr ↔ Throughout ReadsKnown tr := by
  constructor
  · rintro h tr1 x tr2 rfl
    exact (returns_iff_known hr hk).mp (h tr1 x tr2 rfl)
  · rintro h tr1 x tr2 rfl
    exact (returns_iff_known hr hk).mpr (h tr1 x tr2 rfl)

/-! ### Two runs -/

instance : DecidablePred IndexInPage
  | .shmemSetInitInt _ index _ => inferInstanceAs (Decidable (InPage index))
  | .shmemWriteInt _ index _ => inferInstanceAs (Decidable (InPage index))
  | .shmemReadInt _ index => inferInstanceAs (Decidable (InPage index))
  | .fork _ | .exec _ | .exit _ | .wait _ | .kill _ | .shmemSetWritable _ | .shmemSetUnwritable _
  | .shmemAcquireAccess _ | .shmemReleaseAccess _ | .shmemAccess _ _ => inferInstanceAs (Decidable True)

/-- A property of a read, of its page and its index. -/
def decidableRead (op : Op) (P : PageNo → Int32 → Prop) [∀ i k, Decidable (P i k)] :
    Decidable (∀ i k, op = .shmemReadInt i k → P i k) :=
  match op with
  | .shmemReadInt i k =>
    decidable_of_iff (P i k) ⟨fun h i' k' he => by cases he; exact h, fun h => h i k rfl⟩
  | .fork _ | .exec _ | .exit _ | .wait _ | .kill _ | .shmemSetWritable _ | .shmemSetUnwritable _
  | .shmemSetInitInt _ _ _ | .shmemWriteInt _ _ _ | .shmemAcquireAccess _ | .shmemReleaseAccess _
  | .shmemAccess _ _ => isTrue nofun

instance (tr : List (State × Event)) (x : State × Event) : Decidable (ReadsKnown tr x) := decidableRead x.2.op _

instance (tr : List (State × Event)) (x : State × Event) : Decidable (ReturnsLastWritten tr x) :=
  decidableRead x.2.op _

/-- The first process sets page `0`, writes, gives the page up, sets it again, and reads the same index: it
reads `0`; it writes, and reads what it wrote. -/
def rereadCalls : List (Slot × Op) :=
  [(0, .shmemSetWritable 0), (0, .shmemWriteInt 0 5 42), (0, .shmemReleaseAccess 0), (0, .shmemSetWritable 0),
   (0, .shmemReadInt 0 5), (0, .shmemWriteInt 0 5 43), (0, .shmemReadInt 0 5)]

theorem reread_returns_last_written :
    ∃ tr s, (machine 0x87f00000 fun _ => 0).Run (boot 0x87f00000 fun _ => 0) tr s ∧
      tr.map (fun x => (x.2.slot, x.2.op)) = rereadCalls ∧
      tr.map (fun x => x.2.ret) = [none, none, none, none, some 0, none, some 43] ∧
      Throughout ReturnsLastWritten tr := by
  have hrun : ((traceCalls (boot 0x87f00000 fun _ => 0) rereadCalls).map fun x =>
      (x.1.map (fun y => (y.2.slot, y.2.op)), x.1.map (fun y => y.2.ret), x.1.all fun y => IndexInPage y.2.op,
        decide (Throughout ReadsKnown x.1))) =
      some (rereadCalls, [none, none, none, none, some 0, none, some 43], true, true) := by decide +kernel
  obtain ⟨⟨tr, s⟩, hs, hx⟩ := Option.map_eq_some_iff.mp hrun
  simp only [Prod.mk.injEq, List.all_eq_true, decide_eq_true_eq] at hx
  obtain ⟨hops, hret, hk, hknown⟩ := hx
  have htr := traceCalls_boot hs
  exact ⟨tr, s, htr, hops, hret, (reads_last_written_iff htr hk).mpr hknown⟩

/-- **Allocator junk is read**: after start the first process sets page `0` and reads a word of it; nothing has
been written, and the read returns `0x05050505`. -/
theorem read_returns_junk :
    ∃ tr s, (machine 0x87f00000 fun _ => 0).Run (boot 0x87f00000 fun _ => 0) tr s ∧
      tr.map (fun x => (x.2.slot, x.2.op, x.2.ret)) =
        [(0, .shmemSetWritable 0, none), (0, .shmemReadInt 0 0, some 0x05050505)] ∧
      lastWritten tr 0 0 = none ∧ ¬ Throughout ReturnsLastWritten tr := by
  have hrun : ((traceCalls (boot 0x87f00000 fun _ => 0) [(0, .shmemSetWritable 0), (0, .shmemReadInt 0 0)]).map
      fun x => (x.1.map (fun y => (y.2.slot, y.2.op, y.2.ret)), lastWritten x.1 0 0,
        decide (Throughout ReturnsLastWritten x.1))) =
      some ([(0, .shmemSetWritable 0, none), (0, .shmemReadInt 0 0, some 0x05050505)], none, false) := by
    decide +kernel
  obtain ⟨⟨tr, s⟩, hs, hx⟩ := Option.map_eq_some_iff.mp hrun
  simp only [Prod.mk.injEq, decide_eq_false_iff_not] at hx
  obtain ⟨hops, hnone, hnot⟩ := hx
  exact ⟨tr, s, traceCalls_boot hs, hops, hnone, hnot⟩

end Xv6Shmem.SharedMemory
