import Xv6Shmem.Disk.Atomicity
import Xv6Shmem.Disk.Cache

/-!
# What is in the cache

## What is proved

* `cache_current` — a buffer that nobody holds has what the operations have logged last, whether
  the block is in the log, on its way home or on the disk.
* `pointers_refine` — the pointers that link the buffers do what the list of the machine does.
-/

namespace Xv6Shmem.Disk

open Function Kernel LTS Prog

variable {L : LogArea} {s : Store} {G : Slot → Ctx} {stale : BufNo → Prop} {w : Option Slot} {j : Job} {b : ℕ}

/-- What is at home is not changed by recovery. -/
theorem Sound.recoverDisk_eq (h : Sound L s G stale w j) (hr : s.ready = true) (hb : L.Home b)
    (hP : b ∉ j.pending s.lh) : recoverDisk L s.disk b = s.disk b := by
  have hne : b ≠ L.start := hb.2.1
  have hok := h.ok
  -- a block that the header names has been installed
  have hnamed : ∀ l n, LogOk L l → header (s.disk L.start) = l → Installed L s.disk l n → b ∉ l.drop n →
      recoverDisk L s.disk b = s.disk b := by
    intro l n hl hhead hi hdrop
    by_cases hmem : b ∈ l
    · obtain ⟨i, hib⟩ := List.mem_iff_getElem?.mp hmem
      have hin : i < n := by
        by_contra hle
        refine hdrop (List.mem_iff_getElem?.mpr ⟨i - n, ?_⟩)
        rw [List.getElem?_drop, Nat.add_sub_cancel' (Nat.le_of_not_lt hle), hib]
      rw [recoverDisk_of_getElem? hl hhead hib, hi i b hin hib]
    · exact recoverDisk_of_not_mem hne (hhead ▸ hmem)
  cases j with
  | none => exact recoverDisk_of_not_mem hne (by simp [hok.2])
  | log l t => exact recoverDisk_of_not_mem hne (by simp [hok.2.2.1])
  | done => exact recoverDisk_of_not_mem hne (by simp [hok.2.1])
  | boot =>
    rw [hok.2.2] at hr
    cases hr
  | install l n u r => exact hnamed l n hok.2.1 hok.2.2.1 hok.2.2.2.2.2.1 hP
  | clear l => exact hnamed l l.length hok.2.1 hok.2.2.1 hok.2.2.2 (by simp)

theorem Sound.lh_of_pending (h : Sound L s G stale w j) (hb : b ∈ j.pending s.lh) : b ∈ s.lh := by
  have hok := h.ok
  cases j with
  | none | log _ _ => exact hb
  | install l n u r =>
    rw [hok.1]
    exact List.mem_of_mem_drop hb
  | boot | clear _ | done => cases hb

theorem Job.uncommitted_subset (lh : List ℕ) (j : Job) : j.uncommitted lh ⊆ j.pending lh := by
  cases j with
  | none | log _ _ => exact fun _ => id
  | _ => exact List.nil_subset _

/-- **The cache is current.** If no operation gives back a buffer that it has changed and not logged, then after any run
a valid buffer that nobody holds has what was logged last for its block, since the disk was recovered. If the block is
not in the log, that is on the disk. -/
theorem cache_current {disk : ℕ → Block} {tr : List (DiskState × Act)} {s : DiskState} {k : BufNo} (hd : HeaderOk L disk)
    (hr : ((diskMachine L).restrict ReleasesLogged).Run (.boot L disk) tr s) (hready : s.store.ready = true)
    (hb : L.Home b) (hk : (s.store.buf k).block = some b) (hv : (s.store.buf k).valid = true)
    (hl : (s.store.buf k).lock = none) :
    (s.store.buf k).data =
        applyUpdates (history L tr).cur.updates (contents (recoverDisk L disk) (history L tr).groups) b ∧
      (b ∉ s.store.lh → (s.store.buf k).data = s.store.disk b) := by
  obtain ⟨G, stale, w, j, hs, hrec⟩ := recorded_of_run hd hr
  have hfree : Unchanged G k := fun a o ho => by
    rw [hs.sound.threads.own_none hl a] at ho
    cases ho
  have hclean : b ∉ j.pending s.store.lh → (s.store.buf k).data = s.store.disk b := fun hP =>
    hs.sound.clean k b hk hv hfree hP fun hstale => by
      cases hrec.views.stale k b hstale hk
  refine ⟨?_, fun hlh => hclean fun hP => hlh (hs.sound.lh_of_pending hP)⟩
  by_cases hP : b ∈ j.pending s.store.lh
  · exact hrec.views.pending hready k b _ hk hP hfree rfl
  · rw [hclean hP, ← hs.sound.recoverDisk_eq hready hb hP]
    exact hrec.views.disk b _ hb (fun hU => hP (Job.uncommitted_subset _ j hU)) rfl

/-- Block `40` is logged, and not committed yet. -/
theorem cache_current_of_logged : ∃ tr s, ((diskMachine mkfsLog).restrict ReleasesLogged).Run (.boot mkfsLog blankDisk) tr s ∧
    (s.store.buf 1).data 0 = 7 ∧ s.store.disk 40 0 = 0 ∧ (s.store.buf 1).data =
      applyUpdates (history mkfsLog tr).cur.updates (contents (recoverDisk mkfsLog blankDisk) (history mkfsLog tr).groups) 40 := by
  have hcheck : (traceOf (DiskState.step mkfsLog) releasesLogged (.boot mkfsLog blankDisk) (commitAndCrash.take 36)).map
      (fun x => decide (x.2.store.ready = true ∧ (x.2.store.buf 1).block = some 40 ∧ (x.2.store.buf 1).valid = true ∧
        (x.2.store.buf 1).lock = none ∧ (x.2.store.buf 1).data 0 = 7 ∧ x.2.store.disk 40 0 = 0)) = some true := by
    decide +kernel
  obtain ⟨⟨tr, s⟩, hs, hf⟩ := Option.map_eq_some_iff.mp hcheck
  obtain ⟨hready, hk, hv, hl, hseven, hzero⟩ := of_decide_eq_true hf
  have hrun := run_of_traceOf (M := (diskMachine mkfsLog).restrict ReleasesLogged)
    (fun _ _ _ hok hstep => ⟨releasesLogged_of hok, hstep⟩) hs
  exact ⟨tr, s, hrun, hseven, hzero, (cache_current headerOk_blankDisk hrun hready (by decide) hk hv hl).1⟩

/-! ### The pointers -/

/-- The pointers, over the runs of the machine: there are calls, `bread` sets `b->valid`, and `main` calls `binit`. -/
def pointerMachine : LTS Bcache (Option CacheOp) where
  init c := ∃ links, c = binit links
  step c op c' := match op with
    | some op => c.step op = some c'
    | none => (∃ k, c' = c.setBuf k { c.buf k with valid := true }) ∨ ∃ links, c' = binit links

/-- The number of a block that is read is a `uint`. -/
def readsUint (s : DiskState) : Act → Bool
  | .run a => match s.code a with
    | .op (.bget b) _ => b < 2 ^ 32
    | _ => true
  | _ => true

/-- A process refers to a buffer at most twice, and the log does once. -/
theorem Sound.refcnt_le (h : Sound L s G stale w j) (k : BufNo) : (s.buf k).refcnt ≤ 129 := by
  have hrefs : s.refs k ≤ 128 := by
    refine (Finset.sum_le_card_nsmul Finset.univ _ 2 fun a _ => ?_).trans_eq rfl
    rw [h.threads.ptrs a k, Ctx.refs]
    split_ifs <;> decide
  have hpin : s.pins k ≤ 1 := by
    rw [h.cache.pins k, pinOf]
    split_ifs <;> decide
  have hc := h.cache.refcnt k
  omega

/-- **A command** is a step of the pointers, or none. -/
theorem Mirrors.exec {c : Bcache} {a : Slot} {cmd : Cmd} {r : cmd.Res} {t : Store} {Q : cmd.Res → Ctx → Prop}
    (h : Mirrors c s) (hs : Sound L s G stale w j) (hwp : rules L false none cmd Q (G a))
    (hx : s.exec L a cmd = some (r, t)) (hb : ∀ b, cmd = .bget b → b < 2 ^ 32) :
    Mirrors c t ∨ ∃ op c', pointerMachine.step c op c' ∧ Mirrors c' t := by
  have hlt : ∀ k, (s.buf k).refcnt + 1 < 2 ^ 32 := fun k => (Nat.succ_le_succ (hs.refcnt_le k)).trans_lt (by decide)
  -- the sleep-lock and the data are not mirrored
  have hset : ∀ k l d, Mirrors c (s.setBuf k { s.buf k with lock := l, data := d }) := by
    intro k l d
    have h' := h.setBuf (t := s.setBuf k { s.buf k with lock := l, data := d }) (x := c.buf k) rfl rfl (h.refcnt k)
      (h.valid k) (h.block k)
    rwa [Bcache.setBuf, update_eq_self] at h'
  cases cmd with
  | bget b =>
    obtain ⟨c', hc, h'⟩ := h.bget (b := .ofNat b) (by rwa [UInt32.toNat_ofNat_of_lt' (hb b rfl)]) (hlt r)
    exact .inr ⟨some (.bget 1 (.ofNat b)), c', by simp [pointerMachine, Bcache.step, hc], h'⟩
  | unref k =>
    obtain ⟨b, hl, -⟩ := hwp
    exact .inr ⟨some (.brelse k), _, rfl, h.brelse hx (hs.refcnt_pos (a := a) (by simp [Ctx.refs, hl]))⟩
  | bunpin k =>
    obtain ⟨o, -, -, -, ho, -⟩ := hwp
    exact .inr ⟨some (.bunpin k), _, rfl, h.bunpin hx (hs.refcnt_pos (a := a) (by simp [Ctx.refs, ho]))⟩
  | logWrite k => exact (h.bpin hx (hlt k)).imp id fun h' => ⟨some (.bpin k), _, rfl, h'⟩
  | readDisk k =>
    obtain ⟨b, -, hx⟩ := Option.map_eq_some_iff.mp hx
    cases hx
    exact .inr ⟨none, _, .inl ⟨k, rfl⟩, h.setBuf rfl rfl (h.refcnt k) rfl (h.block k)⟩
  | acquiresleep k | releasesleep k =>
    simp only [Store.exec, Option.ite_none_right_eq_some] at hx
    cases hx.2
    exact .inl (hset k _ _)
  | setData k d =>
    cases hx
    exact .inl (hset k _ _)
  | writeDisk k =>
    simp only [Store.exec, Option.ite_none_right_eq_some] at hx
    obtain ⟨b, -, hx⟩ := Option.map_eq_some_iff.mp hx.2
    cases hx
    exact .inl ⟨h.lru, h.refcnt, h.valid, h.block⟩
  | beginOp | endOp =>
    simp only [Store.exec] at hx
    split_ifs at hx <;> cases hx <;> exact .inl ⟨h.lru, h.refcnt, h.valid, h.block⟩
  | valid _ | data _ | lh | setLh _ | endCommit | installing _ | ready =>
    cases hx
    exact .inl ⟨h.lru, h.refcnt, h.valid, h.block⟩

/-- **The pointers do what the list of the machine does**: for every run, with crashes, there is one of the pointers
after which they link the buffers in the order of the list, with the same blocks and counts, which do not wrap around. -/
theorem pointers_refine {s : DiskState} (h : ((diskMachine L).restrict fun s act => readsUint s act).Reachable s) :
    ∃ c, pointerMachine.Reachable c ∧ Mirrors c s.store := by
  apply Reachable.invariant (I := fun s => ∃ c, pointerMachine.Reachable c ∧ Mirrors c s.store) _ _ h
  · rintro s ⟨disk, -, rfl⟩
    exact ⟨_, .start ⟨⟨fun _ => none, fun _ => none⟩, rfl⟩, mirrors_cold _ disk⟩
  · rintro s act t hs ⟨c, hc, hm⟩ ⟨hok, hstep⟩
    obtain ⟨G, stale, w, j, hsound⟩ := sound_of_reachable hs.of_restrict
    obtain ⟨a, cmd, f, r, st, rfl, hcode, he, rfl⟩ | ⟨-, -, -, rfl, -, -, -, rfl⟩ | ⟨rfl, rfl⟩ := step_cases hstep
    · have hwp := hsound.code a
      rw [hcode] at hwp
      have hb : ∀ b, cmd = .bget b → b < 2 ^ 32 := by
        rintro b rfl
        simpa [readsUint, hcode] using hok
      rcases hm.exec hsound.sound hwp he hb with h' | ⟨op, c', hop, h'⟩
      · exact ⟨c, hc, h'⟩
      · exact ⟨c', hc.snoc hop, h'⟩
    · exact ⟨c, hc, hm⟩
    · exact ⟨_, hc.snoc (a := none) (.inr ⟨c.links, rfl⟩), mirrors_cold _ _⟩

/-- The header is read. -/
theorem pointers_refine_of_boot : ∃ s c, ((diskMachine mkfsLog).restrict fun s act => readsUint s act).Reachable s ∧
    (s.store.buf 0).block = some 2 ∧ pointerMachine.Reachable c ∧ Mirrors c s.store ∧ (c.buf 0).refcnt = 1 := by
  have hcheck : ((DiskState.boot mkfsLog blankDisk).runs mkfsLog readsUint [.run 0, .run 0]).map
      (fun s => decide ((s.store.buf 0).block = some 2 ∧ (s.store.buf 0).refcnt = 1)) = some true := by
    decide +kernel
  obtain ⟨s, hs, hf⟩ := Option.map_eq_some_iff.mp hcheck
  obtain ⟨hblock, href⟩ := of_decide_eq_true hf
  have hreach := reachable_of_runs (C := fun s act => readsUint s act) (fun _ _ => id) hs
    (.start ⟨blankDisk, headerOk_blankDisk, rfl⟩)
  obtain ⟨c, hc, hm⟩ := pointers_refine hreach
  exact ⟨s, c, hreach, hblock, hc, hm, UInt32.toNat_inj.mp ((hm.refcnt 0).trans href)⟩

end Xv6Shmem.Disk
