import Xv6Shmem.Disk.Pinning

/-!
# Recovery

What `recover_from_log` makes of a disk is a function of the disk: the blocks that the header
names come from the log, the header is empty, and the rest stays. While recovery is under way
the function has the same value, whatever has been done, so a crash and another recovery make
no difference; and when recovery is over the disk is that value.

## What is proved

* `recoverDisk_install`, `recoverDisk_clear` — the two kinds of writes recovery makes.
* `recovering_step`, `recovering_run` — one step and a run of recovery, crashes included.
* `DiskSound.recovers` — recovery is over after finitely many steps of the first process.
-/

namespace Xv6Shmem.Disk

open Function Kernel Prog LTS

/-- The disk that recovery makes. -/
def recoverDisk (L : LogArea) (d : ℕ → Block) (b : ℕ) : Block :=
  if b = L.start then putHeader [] (d L.start)
  else if b ∈ header (d L.start) then d (L.start + (header (d L.start)).idxOf b + 1)
  else d b

section Disks

variable {L : LogArea} {d : ℕ → Block} {l : List ℕ} {b n : ℕ}

theorem recoverDisk_start : recoverDisk L d L.start = putHeader [] (d L.start) := if_pos rfl

theorem recoverDisk_of_getElem? {i : ℕ} (hl : LogOk L l) (hd : header (d L.start) = l) (hi : l[i]? = some b) :
    recoverDisk L d b = d (L.start + i + 1) := by
  have hmem : b ∈ l := List.mem_of_getElem? hi
  have hne : b ≠ L.start := (hl.2.1 b hmem).2.1
  obtain ⟨hlt, rfl⟩ := List.getElem?_eq_some_iff.mp hi
  rw [recoverDisk, if_neg hne, hd, if_pos hmem, hl.1.idxOf_getElem]

theorem recoverDisk_of_not_mem (hb : b ≠ L.start) (h : b ∉ header (d L.start)) : recoverDisk L d b = d b := by
  rw [recoverDisk, if_neg hb, if_neg h]

/-- **A block is installed**: recovery makes the same disk as before. -/
theorem recoverDisk_install (hl : LogOk L l) (hd : header (d L.start) = l) (hb : l[n]? = some b) :
    recoverDisk L (update d b (d (L.start + n + 1))) = recoverDisk L d := by
  have hmem : b ∈ l := List.mem_of_getElem? hb
  have hhome := hl.2.1 b hmem
  have hstart : update d b (d (L.start + n + 1)) L.start = d L.start :=
    update_of_ne (fun he => hhome.2.1 he.symm) _ _
  have hd' : header (update d b (d (L.start + n + 1)) L.start) = l := by rw [hstart, hd]
  funext x
  by_cases hx : x = L.start
  · rw [hx, recoverDisk_start, recoverDisk_start, hstart]
  by_cases hxl : x ∈ l
  · obtain ⟨i, hi⟩ := List.mem_iff_getElem?.mp hxl
    have hlt := (List.getElem?_eq_some_iff.mp hi).1
    rw [recoverDisk_of_getElem? hl hd' hi, recoverDisk_of_getElem? hl hd hi]
    refine update_of_ne ?_ _ _
    intro he
    exact hl.not_home hlt (he ▸ hhome)
  · rw [recoverDisk_of_not_mem hx (hd'.symm ▸ hxl), recoverDisk_of_not_mem hx (hd.symm ▸ hxl)]
    refine update_of_ne ?_ _ _
    rintro rfl
    exact hxl hmem

/-- When all blocks are at home only the header is left to clear. -/
theorem recoverDisk_of_installed (hl : LogOk L l) (hd : header (d L.start) = l) (hi : Installed L d l l.length) :
    recoverDisk L d = update d L.start (putHeader [] (d L.start)) := by
  funext x
  by_cases hx : x = L.start
  · rw [hx, recoverDisk_start, update_self]
  rw [update_of_ne hx]
  by_cases hxl : x ∈ l
  · obtain ⟨i, hix⟩ := List.mem_iff_getElem?.mp hxl
    rw [recoverDisk_of_getElem? hl hd hix]
    exact (hi i x (List.getElem?_eq_some_iff.mp hix).1 hix).symm
  · exact recoverDisk_of_not_mem hx (hd.symm ▸ hxl)

/-- Recovery leaves a disk with an empty header alone, if the header was emptied by `write_head`. -/
theorem recoverDisk_eq_self (hd : header (d L.start) = []) (hp : putHeader [] (d L.start) = d L.start) :
    recoverDisk L d = d := by
  rw [recoverDisk_of_installed logOk_nil hd fun i b hi => absurd hi (Nat.not_lt_zero i), hp, update_eq_self]

/-- **The header is cleared**: recovery makes the same disk as before. -/
theorem recoverDisk_clear (hl : LogOk L l) (hd : header (d L.start) = l) (hi : Installed L d l l.length) :
    recoverDisk L (update d L.start (putHeader [] (d L.start))) = recoverDisk L d := by
  rw [recoverDisk_of_installed hl hd hi]
  refine recoverDisk_eq_self ?_ ?_
  · rw [update_self, header_putHeader_nil]
  · rw [update_self, putHeader_nil_idem]

end Disks

/-! ### Recovery and crashes -/

section Recovering

variable {L : LogArea} {strict : Bool} {cap : Option ℕ} {s t : DiskState} {G : Slot → Ctx} {stale : BufNo → Prop}
  {w : Option Slot} {j : Job} {act : Act} {a : Slot} {st st' : Store} {c : Cmd}

/-- **A write while recovery is under way** makes no difference to what recovery makes of the disk; nor do the writes
after the header of a commit has been written. -/
theorem Sound.recoverDisk_write {Q : c.Res → Ctx → Prop} (h : Sound L st G stale w j)
    (hq : rules L strict cap c Q (G a)) (he : Effect st st' c) (hj : ∀ l n, j ≠ .log l n) :
    recoverDisk L st'.disk = recoverDisk L st.disk := by
  rcases he.disk with hd | ⟨k, b, rfl, hk, rfl⟩
  · rw [hd]
  obtain ⟨o, d, j', ho, -, hd, hm, -⟩ := hq
  have hown := h.threads.own a k o ho
  have hob : o.block = b := by
    have := hown.block
    rw [hk, Option.some.injEq] at this
    exact this.symm
  have hdata := hown.know d hd
  rw [Store.setDisk, hdata]
  cases hm with
  | log hj' =>
    obtain ⟨rfl, rfl⟩ := h.ops.worker hj' (by simp)
    exact absurd rfl (hj _ _)
  | head hj' =>
    obtain ⟨rfl, rfl⟩ := h.ops.worker hj' (by simp)
    exact absurd rfl (hj _ _)
  | install hj' _ hb hhold =>
    obtain ⟨rfl, rfl⟩ := h.ops.worker hj' (by simp)
    obtain ⟨-, hlog, hhead, -⟩ := h.ok
    have hlt := (List.getElem?_eq_some_iff.mp hb).1
    rw [← h.disk_of_holds hhold (hlog.not_home hlt)]
    exact recoverDisk_install hlog hhead (hob ▸ hb)
  | clear hj' hb hw hd' =>
    obtain ⟨rfl, rfl⟩ := h.ops.worker hj' (by simp)
    obtain ⟨-, hlog, hhead, hinst⟩ := h.ok
    have hwas := hown.was _ hw
    rw [hb] at hwas
    rw [← hob, hb, hd', ← hwas]
    exact recoverDisk_clear hlog hhead hinst

/-- Before recovery is over nobody writes to the log. -/
theorem Sound.not_log (h : Sound L st G stale w j) (hr : st.ready = false) (l : List ℕ) (n : ℕ) : j ≠ .log l n := by
  rintro rfl
  have := h.ok.2.2.2.2.1
  rw [hr] at this
  cases this

/-- **A step while recovery is under way**, a crash included. If it is the last, the disk is what recovery makes. -/
theorem recovering_step (h : DiskSound L strict cap s G stale w j) (hr : s.store.ready = false)
    (hstep : s.step L act = some t) :
    recoverDisk L t.store.disk = recoverDisk L s.store.disk ∧
      (t.store.ready = true → t.store.disk = recoverDisk L s.store.disk) := by
  obtain ⟨a, c, f, r, st, rfl, hcode, he, rfl⟩ | ⟨a, call, c, rfl, hcode, hready, -, rfl⟩ | ⟨rfl, rfl⟩ := step_cases hstep
  · have heff := exec_effect he
    have hwp := h.code a
    rw [hcode, wp_op] at hwp
    have hsame : recoverDisk L st.disk = recoverDisk L s.store.disk :=
      h.sound.recoverDisk_write hwp heff (h.sound.not_log hr)
    refine ⟨hsame, fun hready => ?_⟩
    obtain hre | rfl := heff.ready
    · change st.ready = true at hready
      rw [hre, hr] at hready
      cases hready
    · obtain ⟨hj, -⟩ := hwp
      obtain ⟨rfl, rfl⟩ := h.sound.ops.worker hj (by simp)
      obtain ⟨-, hhead, hput⟩ := h.sound.ok
      cases he
      exact (recoverDisk_eq_self hhead hput).symm
  · rw [hr] at hready
    cases hready
  · refine ⟨rfl, fun hready => ?_⟩
    cases hready

/-- **A run of recovery**, with any number of crashes in it. -/
theorem recovering_run {disk : ℕ → Block} {tr : List (DiskState × Act)} (hd : HeaderOk L disk)
    (hr : (diskMachine L).Run (.boot L disk) tr t) (hb : ∀ x ∈ tr, x.1.store.ready = false) :
    recoverDisk L t.store.disk = recoverDisk L disk ∧ (t.store.ready = true → t.store.disk = recoverDisk L disk) := by
  induction hr with
  | nil =>
    refine ⟨rfl, fun hready => ?_⟩
    cases hready
  | @snoc u v tr act hr hstep ih =>
    have ih := ih fun x hx => hb x (List.mem_append_left _ hx)
    have hu : u.store.ready = false := hb (u, act) (by simp)
    obtain ⟨G, stale, w, j, hs⟩ := sound_of_reachable (Run.reachable (.start ⟨disk, hd, rfl⟩) hr)
    have := recovering_step hs hu hstep
    rwa [ih.1] at this

/-- Who waits for recovery has nothing in hand. -/
theorem DiskSound.nothing (h : DiskSound L strict cap s G stale w j) (hr : s.store.ready = false) (hw : w ≠ some a)
    (k : BufNo) : (G a).own k = none ∧ (G a).refs k = 0 := by
  have hok := h.code a
  rw [h.waiting hr a hw] at hok
  have hown : (G a).own k = none := hok.none k rfl
  refine ⟨hown, Ctx.refs_eq_zero.mpr ⟨hown, fun b hb => ?_⟩⟩
  rw [hok.loose] at hb
  cases hb

theorem Sound.pinned_of_boot (h : Sound L st G stale w j) (hr : st.ready = false) : j.pinned st.lh = [] := by
  have hw := (h.ops.booting hr).1
  cases j with
  | none => exact absurd (h.ops.idle.mpr rfl) hw
  | log l n => exact absurd rfl (h.not_log hr l n)
  | install l n u r =>
    obtain ⟨-, -, -, -, -, -, -, hrec⟩ := h.ok
    simp [Job.pinned, hrec.mpr hr]
  | boot => rfl
  | clear l => rfl
  | done => rfl

variable (h : DiskSound L strict cap s G stale (some a) j) (hr : s.store.ready = false)

include h hr

/-- While recovery is under way a buffer that the first process does not hold is free. -/
theorem DiskSound.free_of_boot (hl : (G a).loose = none) {k : BufNo} (hk : (G a).own k = none) : (s.store.buf k).refcnt = 0 := by
  have hrefs : s.store.refs k = 0 := by
    refine Finset.sum_eq_zero fun b _ => ?_
    rw [h.sound.threads.ptrs b k]
    by_cases hb : a = b
    · subst hb
      simp [Ctx.refs, hk, hl]
    · rw [(h.nothing hr (by simpa using hb) k).2]
      rfl
  have hpins : s.store.pins k = 0 := by
    rw [h.sound.cache.pins k, h.sound.pinned_of_boot hr]
    simp [pinOf]
  have := h.sound.cache.refcnt k
  omega

/-- While recovery is under way the first process finds a buffer. -/
theorem DiskSound.bget_of_boot {b : ℕ} (hl : (G a).loose = none) (hm : (G a).MayRead b) : s.store.exec L a (.bget b) ≠ none := by
  simp only [Store.exec]
  split
  · simp
  -- it has at most one, so that another is free
  obtain ⟨-, k0, hk0⟩ := hm ((h.sound.ops.boot a).mpr ⟨rfl, hr⟩)
  obtain ⟨k, hk⟩ : ∃ k : BufNo, k ≠ k0 := exists_ne k0
  have hnone : (G a).own k = none := by
    by_contra hne
    exact hk (hk0 k hne)
  have hfree := h.free_of_boot hr hl hnone
  split
  · simp
  · rename_i hfind
    have := List.find?_eq_none.mp hfind k (List.mem_reverse.mpr (h.sound.cache.lru k))
    simp [hfree] at this

/-- While recovery is under way the first process is never stuck. -/
theorem DiskSound.progress {f : c.Res → Code Client} (hcode : s.code a = .op c f) : s.store.exec L a c ≠ none := by
  have hboot : (G a).boot = true := (h.sound.ops.boot a).mpr ⟨rfl, hr⟩
  have hjob : (G a).job ≠ .none := by
    rw [h.sound.ops.job a, if_pos rfl]
    intro hj
    cases h.sound.ops.idle.mpr hj
  have hq := h.code a
  rw [hcode, wp_op] at hq
  cases c with
  | bget b => exact h.bget_of_boot hr hq.1 hq.2.1
  | acquiresleep k =>
    obtain ⟨b, -, hfree, -⟩ := hq
    have hlock : (s.store.buf k).lock = none := by
      refine Option.eq_none_iff_forall_ne_some.mpr fun x hx => h.sound.threads.lock x k hx ?_
      by_cases hxa : a = x
      · exact hxa ▸ hfree hboot
      · exact (h.nothing hr (by simpa using hxa) k).1
    simp [Store.exec, hlock]
  | readDisk k =>
    obtain ⟨o, ho, -⟩ := hq
    simp [Store.exec, (h.sound.threads.own a k o ho).block]
  | writeDisk k =>
    obtain ⟨o, -, -, ho, -⟩ := hq
    have hown := h.sound.threads.own a k o ho
    simp [Store.exec, hown.block, hown.lock]
  | releasesleep k =>
    obtain ⟨o, ho, -⟩ := hq
    simp [Store.exec, (h.sound.threads.own a k o ho).lock]
  | beginOp => exact absurd hq.2.1 hjob
  | endOp => exact absurd hq.2.1 hjob
  | logWrite k =>
    obtain ⟨o, -, -, hj, -⟩ := hq
    exact absurd hj hjob
  | _ => simp [Store.exec]

/-- **Recovery returns**: the first process alone needs finitely many steps. -/
theorem DiskSound.recovers :
    ∃ tr t, (diskMachine L).Run s tr t ∧ (∀ x ∈ tr, x.2 = .run a ∧ x.1.store.ready = false) ∧ t.store.ready = true := by
  generalize hcode : s.code a = x
  induction x generalizing s G stale j with
  | ret c =>
    -- it is not done before the log has been recovered
    have hok := h.code a
    rw [hcode] at hok
    have hboot := (h.sound.ops.boot a).mpr ⟨rfl, hr⟩
    rw [hok.boot] at hboot
    cases hboot
  | op c f ih =>
    obtain ⟨⟨r, st⟩, he⟩ := Option.ne_none_iff_exists'.mp (h.progress hr hcode)
    obtain ⟨g, stale', w', j', -, hafter, h'⟩ := h.run hcode he
    have hstep : s.step L (.run a) = some (DiskState.go { s with store := st } a (f r)) := by
      simp [DiskState.step, hcode, he]
    cases hready : st.ready with
    | true => exact ⟨[(s, .run a)], _, .snoc .nil hstep, by simp [hr], hready⟩
    | false =>
      have hww : w' = some a := hafter.worker.resolve_right (by simp [hready])
      subst hww
      obtain ⟨tr, t, hrun, htr, ht⟩ := ih r h' hready (by simp [DiskState.go])
      refine ⟨(s, .run a) :: tr, t, hrun.cons hstep, fun x hx => ?_, ht⟩
      rcases List.mem_cons.mp hx with rfl | hx
      · exact ⟨rfl, hr⟩
      · exact htr x hx

end Recovering

end Xv6Shmem.Disk
