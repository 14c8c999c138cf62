import Xv6Shmem.Disk.Steps

/-!
# Write-ahead and pins

A logged block is pinned in the cache until it is at home, and its place on the disk is not
written before the header names it. What the header names after a crash is read back by
`read_head` with no buffer and no pin for it: recovery takes the blocks from the log. After
`install_trans` the pins are released and `log.lh.n` is `0` one assignment later. At all other
times the logged blocks are the pinned ones.

## What is proved

* `exec_effect` — what a command can do to the blocks of buffers, to the pins, to the disk,
  and to `log.committing`.
* `Sound.pinned_lh` — outside `install_trans` the pinned blocks are those of `log.lh`.
* `write_ahead` — the pins, and the order of the writes, in every reachable state.
-/

namespace Xv6Shmem.Disk

open Kernel Prog LTS

section Commands

variable {L : LogArea} {s s' : Store} {a : Slot} {c : Cmd} {r : c.Res} {k : BufNo}

/-- What a command can do to the blocks of the buffers, to the pins, to the disk and to `log.committing`. -/
structure Effect (s s' : Store) (c : Cmd) : Prop where
  /-- A buffer is for another block only if nobody referred to it. -/
  block : ∀ k, (s'.buf k).block = (s.buf k).block ∨ (s.buf k).refcnt = 0
  /-- A pin is released by `bunpin` only. -/
  pins : ∀ k, c = .bunpin k ∨ s.pins k ≤ s'.pins k
  /-- The disk is written by `bwrite` only. -/
  disk : s'.disk = s.disk ∨ ∃ k b, c = .writeDisk k ∧ (s.buf k).block = some b ∧ s' = s.setDisk b (s.buf k).data
  committing : s.committing = true → s'.committing = true ∨ c = .endCommit
  ready : s'.ready = s.ready ∨ c = .ready

theorem Effect.quiet (hb : ∀ k, (s'.buf k).block = (s.buf k).block) (hp : s'.pins = s.pins) (hd : s'.disk = s.disk)
    (hc : s.committing = true → s'.committing = true) (hr : s'.ready = s.ready) : Effect s s' c :=
  ⟨fun k => .inl (hb k), fun k => .inr (by rw [hp]), .inl hd, fun h => .inl (hc h), .inl hr⟩

theorem exec_effect (he : s.exec L a c = some (r, s')) : Effect s s' c := by
  cases c with
  | bget b =>
    simp only [Store.exec] at he
    split at he
    · cases he
      exact .quiet (fun k => s.setBuf_block rfl) rfl rfl id rfl
    · split at he
      · rename_i k' hk'
        have h0 : (s.buf k').refcnt = 0 := by simpa using List.find?_some hk'
        cases he
        refine ⟨fun k => ?_, fun k => .inr le_rfl, .inl rfl, .inl, .inl rfl⟩
        by_cases hk : k = r
        · subst hk
          exact .inr h0
        · exact .inl (congrArg Buf.block (s.setBuf_buf_of_ne _ hk))
      · cases he
  | acquiresleep k' =>
    simp only [Store.exec] at he
    split at he <;> cases he
    exact .quiet (fun k => s.setBuf_block rfl) rfl rfl id rfl
  | readDisk k' =>
    obtain ⟨b, -, he⟩ := Option.map_eq_some_iff.mp he
    cases he
    exact .quiet (fun k => s.setBuf_block rfl) rfl rfl id rfl
  | writeDisk k' =>
    simp only [Store.exec] at he
    split at he
    · obtain ⟨b, hb, he⟩ := Option.map_eq_some_iff.mp he
      cases he
      exact ⟨fun _ => .inl rfl, fun _ => .inr le_rfl, .inr ⟨k', b, rfl, hb, rfl⟩, .inl, .inl rfl⟩
    · cases he
  | setData k' d =>
    cases he
    exact .quiet (fun k => s.setBuf_block rfl) rfl rfl id rfl
  | releasesleep k' =>
    simp only [Store.exec] at he
    split at he <;> cases he
    exact .quiet (fun k => s.setBuf_block rfl) rfl rfl id rfl
  | unref k' =>
    cases he
    exact .quiet (fun k => s.setBuf_block (x := { s.buf k' with refcnt := (s.buf k').refcnt - 1 }) rfl) rfl rfl id rfl
  | bunpin k' =>
    cases he
    refine ⟨fun k => .inl (s.setBuf_block (x := { s.buf k' with refcnt := (s.buf k').refcnt - 1 }) rfl), fun k => ?_,
      .inl rfl, .inl, .inl rfl⟩
    by_cases hk : k = k'
    · exact .inl (by rw [hk])
    · exact .inr (by simp [hk])
  | logWrite k' =>
    simp only [Store.exec] at he
    split at he
    · obtain ⟨b, -, he⟩ := Option.map_eq_some_iff.mp he
      split at he
      · cases he
        exact .quiet (fun _ => rfl) rfl rfl id rfl
      · cases he
        refine ⟨fun k => .inl (s.setBuf_block (x := { s.buf k' with refcnt := (s.buf k').refcnt + 1 }) rfl), fun k => ?_,
          .inl rfl, .inl, .inl rfl⟩
        by_cases hk : k = k'
        · subst hk
          exact .inr (by simp)
        · exact .inr (by simp [hk])
    · cases he
  | beginOp =>
    simp only [Store.exec] at he
    split at he <;> cases he
    exact .quiet (fun _ => rfl) rfl rfl id rfl
  | endOp =>
    simp only [Store.exec] at he
    split at he
    · cases he
    · split at he <;> cases he
      · exact .quiet (fun _ => rfl) rfl rfl (fun _ => rfl) rfl
      · exact .quiet (fun _ => rfl) rfl rfl id rfl
  | endCommit =>
    cases he
    exact ⟨fun _ => .inl rfl, fun _ => .inr le_rfl, .inl rfl, fun _ => .inr rfl, .inl rfl⟩
  | ready =>
    cases he
    exact ⟨fun _ => .inl rfl, fun _ => .inr le_rfl, .inl rfl, .inl, .inr rfl⟩
  | _ =>
    cases he
    exact .quiet (fun _ => rfl) rfl rfl id rfl

end Commands

/-! ### Pins -/

section Pins

variable {L : LogArea} {strict : Bool} {cap : Option ℕ} {s s' : Store} {G : Slot → Ctx} {stale : BufNo → Prop}
  {w : Option Slot} {j : Job} {a : Slot} {k : BufNo}

/-- The block is cached in exactly one buffer, and that is pinned once: it counts one reference more than the
processes have. -/
def PinnedOnce (s : Store) (b : ℕ) : Prop :=
  ∃ k, (s.buf k).block = some b ∧ (∀ k', (s.buf k').block = some b → k' = k) ∧ s.pins k = 1 ∧
    ((s.buf k).refcnt : ℤ) = s.refs k + 1

variable (h : Sound L s G stale w j)

include h

/-- Outside `install_trans` the pinned blocks are those of `log.lh`. -/
theorem Sound.pinned_lh (hr : s.ready = true) (hi : s.installing = false) :
    j.pinned s.lh = s.lh := by
  have hok := h.ok
  cases j with
  | none => rfl
  | log l t => rfl
  | install l n u r =>
    obtain ⟨hlh, -, -, -, -, -, hni, hrec⟩ := hok
    have hrf : r = false := by
      cases r with
      | false => rfl
      | true =>
        rw [hrec.mp rfl] at hr
        cases hr
    simp [Job.pinned, hrf, (hni hi).2, hlh]
  | boot =>
    rw [hok.1]
    rfl
  | clear l =>
    rw [hok.1]
    rfl
  | done =>
    rw [hok.1]
    rfl

/-- `log.lh` never has a block twice. -/
theorem Sound.nodup_lh : s.lh.Nodup := by
  have hok := h.ok
  cases j with
  | none => exact hok.1.1
  | log l t =>
    rw [hok.1]
    exact hok.2.1.1
  | install l n u r =>
    rw [hok.1]
    exact hok.2.1.1
  | boot =>
    rw [hok.1]
    exact List.nodup_nil
  | clear l =>
    rw [hok.1]
    exact List.nodup_nil
  | done =>
    rw [hok.1]
    exact List.nodup_nil

theorem Sound.pinnedOnce {b : ℕ} (hb : b ∈ j.pinned s.lh) : PinnedOnce s b := by
  obtain ⟨k, hk, -⟩ := h.cache.cached b hb
  have hpin : s.pins k = 1 := by rw [h.cache.pins k, hk, pinOf_of_mem hb]
  refine ⟨k, hk, fun k' hk' => h.cache.unique k' k b hk' hk, hpin, ?_⟩
  rw [h.cache.refcnt k, hpin]

theorem Sound.block_of_pinned {c : Cmd} (he : Effect s s' c) (hk : s.pins k = 1) :
    (s'.buf k).block = (s.buf k).block := by
  refine (he.block k).resolve_right fun h0 => ?_
  rw [(h.unused h0).2] at hk
  cases hk

/-- A pin is released when the header names the block and the block is at home. -/
theorem Sound.installed_of_unpinned {c : Cmd} {Q : c.Res → Ctx → Prop}
    (hq : rules L strict cap c Q (G a)) (he : Effect s s' c) (hk : s.pins k = 1) (hk' : s'.pins k ≠ 1)
    (hle : s'.pins k ≤ 1) :
    ∃ b i, (s.buf k).block = some b ∧ (header (s.disk L.start))[i]? = some b ∧ s.disk b = s.disk (L.start + i + 1) := by
  rcases he.pins k with rfl | hp
  · obtain ⟨o, l, n, u, ho, hj, -, hu, hb, -⟩ := hq
    obtain ⟨rfl, rfl⟩ := h.ops.worker hj (by simp)
    obtain ⟨-, -, hhead, -, -, hdone, -⟩ := h.ok
    refine ⟨o.block, u, (h.threads.own a k o ho).block, ?_, hdone u o.block hu hb⟩
    rw [hhead, hb]
  · omega

/-- **Write-ahead**: a block outside the log is written only when the header on the disk names it. -/
theorem Sound.named_of_written {c : Cmd} {Q : c.Res → Ctx → Prop} {b : ℕ}
    (hq : rules L strict cap c Q (G a)) (he : Effect s s' c) (hb : L.Home b) (hne : s'.disk b ≠ s.disk b) :
    b ∈ header (s.disk L.start) := by
  rcases he.disk with hd | ⟨k, b', rfl, hk, rfl⟩
  · rw [hd] at hne
    exact absurd rfl hne
  have hbb : b = b' := by
    by_contra hbb
    exact hne (s.setDisk_disk_of_ne _ hbb)
  subst hbb
  obtain ⟨o, d, j', ho, -, hd, hm, -⟩ := hq
  have hob : o.block = b := by
    have := (h.threads.own a k o ho).block
    rw [hk, Option.some.injEq] at this
    exact this.symm
  cases hm with
  | log hj hl ho' _ =>
    obtain ⟨rfl, rfl⟩ := h.ops.worker hj (by simp)
    refine absurd hb ?_
    rw [← hob, ho']
    exact h.ok.2.1.not_home (List.getElem?_eq_some_iff.mp hl).1
  | head _ ho' _ =>
    refine absurd hb ?_
    rw [← hob, ho']
    exact not_home_start
  | install hj _ hl _ =>
    obtain ⟨rfl, rfl⟩ := h.ops.worker hj (by simp)
    rw [h.ok.2.2.1, ← hob]
    exact List.mem_of_getElem? hl
  | clear _ ho' _ _ =>
    refine absurd hb ?_
    rw [← hob, ho']
    exact not_home_start

theorem Sound.pins_le (k : BufNo) : s.pins k ≤ 1 := by
  rw [h.cache.pins k]
  unfold pinOf
  split <;> decide

theorem Sound.pins_eq_zero (hlh : s.lh = []) (k : BufNo) : s.pins k = 0 := by
  have hpin : j.pinned s.lh = [] := by
    have hok := h.ok
    cases j with
    | install l n u r =>
      rw [hok.1] at hlh
      simp [Job.pinned, hlh]
    | none => exact hlh
    | log l t => exact hlh
    | boot => rfl
    | clear l => rfl
    | done => rfl
  rw [h.cache.pins k, hpin]
  simp [pinOf]

end Pins

/-- **Write-ahead and pins**. After recovery and outside `install_trans`, the blocks of `log.lh` are different, each is
cached in one buffer with one pin, and no other buffer is pinned. Whatever step is made, a pinned buffer keeps its block,
its pin is released only when the block is at home, a block at home is written only when the header names it, and when
a commit is over there are no pins. -/
theorem write_ahead {L : LogArea} {s : DiskState} (h : (diskMachine L).Reachable s) :
    (s.store.ready = true → s.store.installing = false →
      s.store.lh.Nodup ∧ (∀ b ∈ s.store.lh, PinnedOnce s.store b) ∧
        ∀ k, (∀ b ∈ s.store.lh, (s.store.buf k).block ≠ some b) → s.store.pins k = 0) ∧
    ∀ act t, s.step L act = some t → act ≠ .crash →
      (∀ k, s.store.pins k = 1 → (t.store.buf k).block = (s.store.buf k).block ∧
        (t.store.pins k ≠ 1 → ∃ b i, (s.store.buf k).block = some b ∧
          (header (s.store.disk L.start))[i]? = some b ∧ s.store.disk b = s.store.disk (L.start + i + 1))) ∧
      (∀ b, L.Home b → t.store.disk b ≠ s.store.disk b → b ∈ header (s.store.disk L.start)) ∧
      (s.store.committing = true → t.store.committing = false → t.store.lh = [] ∧ ∀ k, t.store.pins k = 0) := by
  obtain ⟨G, stale, w, j, hs⟩ := sound_of_reachable h
  refine ⟨fun hr hi => ?_, fun act t hstep hact => ?_⟩
  · have hpin := hs.sound.pinned_lh hr hi
    refine ⟨hs.sound.nodup_lh, fun b hb => hs.sound.pinnedOnce (by rwa [hpin]), fun k hk => ?_⟩
    rw [hs.sound.cache.pins k, hpin]
    refine if_neg ?_
    rintro ⟨b, hb, he⟩
    exact hk b hb he
  · obtain ⟨G', stale', w', j', ht⟩ := sound_of_reachable (h.snoc hstep)
    obtain ⟨a, c, f, r, st, rfl, hcode, he, rfl⟩ | ⟨a, call, c, rfl, hcode, -, -, rfl⟩ | ⟨rfl, rfl⟩ := step_cases hstep
    · have heff := exec_effect he
      have hwp := hs.code a
      rw [hcode, wp_op] at hwp
      refine ⟨fun k hk => ⟨hs.sound.block_of_pinned heff hk, fun hne => ?_⟩,
        fun b hb hne => hs.sound.named_of_written hwp heff hb hne, fun hc hc' => ?_⟩
      · exact hs.sound.installed_of_unpinned hwp heff hk hne (ht.sound.pins_le k)
      · obtain hcf | rfl := heff.committing hc
        · change st.committing = false at hc'
          rw [hcf] at hc'
          cases hc'
        · have hlh := hs.sound.lh_of_done hwp.1
          cases he
          exact ⟨hlh, ht.sound.pins_eq_zero hlh⟩
    · -- a call is made: the store is the same
      refine ⟨fun k hk => ⟨rfl, fun hne => absurd hk hne⟩, fun b _ hne => absurd rfl hne, fun hc hc' => ?_⟩
      change s.store.committing = false at hc'
      rw [hc] at hc'
      cases hc'
    · exact absurd rfl hact

/-! ### Two runs -/

/-- Make the steps one after the other, as long as they pass a test. -/
def DiskState.runs (L : LogArea) (p : DiskState → Act → Bool) (s : DiskState) : List Act → Option DiskState
  | [] => some s
  | act :: acts => if p s act then (s.step L act).bind fun t => t.runs L p acts else none

theorem reachable_of_runs {L : LogArea} {p : DiskState → Act → Bool} {C : DiskState → Act → Prop}
    (hp : ∀ s act, p s act = true → C s act) {s t : DiskState} {acts : List Act} (h : s.runs L p acts = some t)
    (hs : ((diskMachine L).restrict C).Reachable s) : ((diskMachine L).restrict C).Reachable t := by
  induction acts generalizing s with
  | nil =>
    cases h
    exact hs
  | cons act acts ih =>
    rw [DiskState.runs] at h
    split at h
    · rename_i hok
      obtain ⟨u, hu, h⟩ := Option.bind_eq_some_iff.mp h
      exact ih h (hs.snoc ⟨hp s act hok, hu⟩)
    · cases h

/-- No test. -/
def anyStep (_ : DiskState) (_ : Act) : Bool := true

theorem reachable_of_boot {L : LogArea} {disk : ℕ → Block} {t : DiskState} {acts : List Act} (hd : HeaderOk L disk)
    (h : (DiskState.boot L disk).runs L anyStep acts = some t) : (diskMachine L).Reachable t :=
  (reachable_of_runs (C := fun _ _ => True) (fun _ _ _ => trivial) h (.start ⟨disk, hd, rfl⟩)).of_restrict

/-- The log as `mkfs` lays it out. -/
def mkfsLog : LogArea := ⟨2, LOGSIZE⟩

/-- An empty disk. -/
def blankDisk : ℕ → Block := fun _ _ => 0

theorem headerOk_blankDisk : HeaderOk mkfsLog blankDisk := by
  have : header (blankDisk mkfsLog.start) = [] := by decide +kernel
  rw [HeaderOk, this]
  exact logOk_nil

/-- The first process recovers, begins an operation, reads block `40` and logs it. -/
def logBlock : List Act :=
  List.replicate 22 (.run 0) ++ [.begin 0 .beginOp, .run 0, .begin 0 (.bread 40)] ++ List.replicate 4 (.run 0) ++
    [.begin 0 (.logWrite 1), .run 0]

theorem write_ahead_of_logBlock :
    ∃ s, (diskMachine mkfsLog).Reachable s ∧ s.store.lh = [40] ∧ s.store.lh.Nodup ∧ ∀ b ∈ s.store.lh, PinnedOnce s.store b := by
  have hcheck : ((DiskState.boot mkfsLog blankDisk).runs mkfsLog anyStep logBlock).map (fun t =>
      decide (t.store.lh = [40]) && t.store.ready && !t.store.installing) = some true := by decide +kernel
  obtain ⟨s, hs, hf⟩ := Option.map_eq_some_iff.mp hcheck
  simp only [Bool.and_eq_true, decide_eq_true_eq, Bool.not_eq_true'] at hf
  obtain ⟨⟨hlh, hr⟩, hi⟩ := hf
  have hreach := reachable_of_boot headerOk_blankDisk hs
  have h := (write_ahead hreach).1 hr hi
  exact ⟨s, hreach, hlh, h.1, h.2.1⟩

/-- A disk whose header names block `40`. -/
def loggedDisk : ℕ → Block := Function.update (fun _ _ => 0) 2 (putHeader [40] fun _ => 0)

/-- **In recovery the logged blocks are not cached**: after `read_head` block `40` is in `log.lh`, and no buffer is
for it. -/
theorem logged_not_cached_in_recovery :
    ∃ s, (diskMachine mkfsLog).Reachable s ∧ s.store.installing = false ∧ s.store.lh = [40] ∧
      ∀ k, (s.store.buf k).block ≠ some 40 := by
  have hok : HeaderOk mkfsLog loggedDisk := by
    have hd : loggedDisk mkfsLog.start = putHeader [40] fun _ => 0 := by simp [loggedDisk, mkfsLog]
    have hl : LogOk mkfsLog [40] := by
      refine ⟨List.nodup_singleton 40, fun b hb => ?_, by decide, by decide⟩
      rw [List.mem_singleton] at hb
      subst hb
      decide
    rw [HeaderOk, hd, hl.header_putHeader]
    exact hl
  have hcheck : ((DiskState.boot mkfsLog loggedDisk).runs mkfsLog anyStep (List.replicate 6 (.run 0))).map (fun t =>
      decide (t.store.lh = [40]) && !t.store.installing &&
        (List.finRange NBUF).all fun k => decide ((t.store.buf k).block ≠ some 40)) = some true := by decide +kernel
  obtain ⟨s, hs, hf⟩ := Option.map_eq_some_iff.mp hcheck
  simp only [Bool.and_eq_true, decide_eq_true_eq, Bool.not_eq_true', List.all_eq_true, List.mem_finRange,
    forall_const] at hf
  obtain ⟨⟨hlh, hi⟩, hk⟩ := hf
  exact ⟨s, reachable_of_boot hok hs, hi, hlh, hk⟩

end Xv6Shmem.Disk
