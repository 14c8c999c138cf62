import Xv6Shmem.Disk.Recovery

/-!
# The disk that the operations see

To the operations the cache, the log and the disk are one disk, which `log_write` writes. A
view says what is known of it: `cur` of what a process that reads a block finds, `dur` of what
is there after a crash and recovery. Nothing is known of a block that was given back changed
and not logged, until it is logged.

## What is proved

* `Views.exec` — what a command does to the view: `log_write` changes what is seen, the write
  of the header and the end of a commit make it durable.
-/

namespace Xv6Shmem.Disk

open Function Kernel Prog LTS

/-- What is known of the blocks. -/
abbrev View := ℕ → Option Block

/-- The blocks that are logged, and that the header does not name yet. -/
def Job.uncommitted (lh : List ℕ) : Job → List ℕ
  | .none | .log _ _ => lh
  | .boot | .install _ _ _ _ | .clear _ | .done => []

/-- Nobody has changed the buffer since it was logged or read. -/
def Unchanged (G : Slot → Ctx) (k : BufNo) : Prop := ∀ a o, (G a).own k = some o → o.dirty = false

/-- What `cur` and `dur` know is so. -/
structure Views (L : LogArea) (s : Store) (G : Slot → Ctx) (stale : BufNo → Prop) (j : Job) (cur dur : View) : Prop where
  /-- What is not at home yet is in the cache. -/
  pending : s.ready = true → ∀ k b d, (s.buf k).block = some b → b ∈ j.pending s.lh → Unchanged G k →
    cur b = some d → (s.buf k).data = d
  /-- The rest is on the disk, or comes there by recovery. -/
  disk : ∀ b d, L.Home b → b ∉ j.uncommitted s.lh → cur b = some d → recoverDisk L s.disk b = d
  stale : ∀ k b, stale k → (s.buf k).block = some b → cur b = none
  dur : ∀ b d, L.Home b → dur b = some d → recoverDisk L s.disk b = d

section Views

variable {L : LogArea} {strict : Bool} {cap : Option ℕ} {s s' : Store} {G : Slot → Ctx} {stale stale' : BufNo → Prop}
  {w w' : Option Slot} {j j' : Job} {a : Slot} {g : Ctx} {k : BufNo} {c : Cmd} {b : ℕ} {d : Block} {cur dur : View}

/-- What is not at home yet is cached, after recovery. -/
theorem Sound.pending_cached (h : Sound L s G stale w j) (hr : s.ready = true) (hb : b ∈ j.pending s.lh) :
    ∃ k, (s.buf k).block = some b ∧ (s.buf k).valid = true := by
  refine h.cache.cached b ?_
  cases j with
  | none => exact hb
  | log l t => exact hb
  | install l n u r =>
    obtain ⟨-, -, -, -, hun, -, -, hrec⟩ := h.ok
    have hrf : r = false := by
      cases r with
      | false => rfl
      | true =>
        rw [hrec.mp rfl] at hr
        cases hr
    rw [Job.pinned, hrf, if_neg (by simp)]
    exact (List.drop_sublist_drop_left l hun).mem hb
  | boot => cases hb
  | clear l => cases hb
  | done => cases hb

/-- After a crash what is durable is seen. -/
theorem Views.crash (hv : Views L s G stale j cur dur) :
    Views L (.cold s.disk) Ctx.atBoot (fun _ => False) .boot dur dur where
  pending hr := by cases hr
  disk b d hb _ h := hv.dur b d hb h
  stale k b hst := hst.elim
  dur := hv.dur

/-! ### Commands -/

/-- What is seen after a command of a process that knows `g`. -/
def curAfter (s : Store) (g : Ctx) (cur : View) : Cmd → View
  | .logWrite k =>
    match (s.buf k).block with
    | some b => update cur b (some (s.buf k).data)
    | none => cur
  | .releasesleep k =>
    match g.own k with
    | some o => if o.dirty then update cur o.block none else cur
    | none => cur
  | _ => cur

/-- What is durable after a command. -/
def durAfter (L : LogArea) (s : Store) (cur dur : View) : Cmd → View
  | .writeDisk k => if (s.buf k).block = some L.start ∧ header (s.buf k).data ≠ [] then cur else dur
  | .endCommit => cur
  | _ => dur

theorem unchanged_of_update (hown : ∀ o, (G a).own k = some o → o.dirty = true → ∃ o', g.own k = some o' ∧ o'.dirty = true)
    (h : Unchanged (update G a g) k) : Unchanged G k := by
  intro b o ho
  by_cases hb : b = a
  · subst hb
    cases hod : o.dirty with
    | false => rfl
    | true =>
      obtain ⟨o', ho', hd'⟩ := hown o ho hod
      rw [h b o' (by rw [update_self, ho'])] at hd'
      cases hd'
  · exact h b o (by rw [update_of_ne hb, ho])

theorem Views.frame (hv : Views L s G stale j cur dur) (hdisk : s'.disk = s.disk)
    (hready : s'.ready = true → s.ready = true ∨ j'.pending s'.lh = [])
    (hU : ∀ b, b ∈ j.uncommitted s.lh → b ∈ j'.uncommitted s'.lh)
    (hbuf : ∀ k b, s.ready = true → (s'.buf k).block = some b → b ∈ j'.pending s'.lh →
      Unchanged (update G a g) k →
      (s.buf k).block = some b ∧ b ∈ j.pending s.lh ∧ Unchanged G k ∧ (s'.buf k).data = (s.buf k).data)
    (hst : ∀ k, stale' k → stale k ∧ (s'.buf k).block = (s.buf k).block) :
    Views L s' (update G a g) stale' j' cur dur where
  pending hr k b d hk hP hun h := by
    rcases hready hr with hr | hnil
    · obtain ⟨hk', hP', hun', hdata⟩ := hbuf k b hr hk hP hun
      rw [hdata]
      exact hv.pending hr k b d hk' hP' hun' h
    · rw [hnil] at hP
      cases hP
  disk b d hb hb' h := by
    rw [hdisk]
    exact hv.disk b d hb (fun hb => hb' (hU b hb)) h
  stale k b hk hb := by
    obtain ⟨hk', hblock⟩ := hst k hk
    exact hv.stale k b hk' (hblock ▸ hb)
  dur b d hb h := by
    rw [hdisk]
    exact hv.dur b d hb h

theorem Views.same (hv : Views L s G stale j cur dur) (hdisk : s'.disk = s.disk) (hready : s'.ready = s.ready)
    (hlh : s'.lh = s.lh) (hbuf : ∀ k, (s'.buf k).block = (s.buf k).block ∧ (s'.buf k).data = (s.buf k).data)
    (hown : ∀ k o, (G a).own k = some o → o.dirty = true → ∃ o', g.own k = some o' ∧ o'.dirty = true)
    (hst : ∀ k, stale' k → stale k) (hP : j'.pending s.lh = j.pending s.lh)
    (hU : j'.uncommitted s.lh = j.uncommitted s.lh) : Views L s' (update G a g) stale' j' cur dur := by
  refine hv.frame hdisk (fun h => .inl (hready ▸ h)) (fun b hb => ?_) (fun k b _ hk hb hun => ?_) fun k hk =>
    ⟨hst k hk, (hbuf k).1⟩
  · rwa [hlh, hU]
  · rw [hlh, hP] at hb
    exact ⟨(hbuf k).1 ▸ hk, hb, unchanged_of_update (hown k) hun, (hbuf k).2⟩

/-- At the end of `write_log` no block outside the log is being changed. -/
theorem Sound.unchanged_of_log {l : List ℕ} {t : ℕ} (h : Sound L s G stale w j) (hj : j = .log l t) (hb : L.Home b)
    (hk : (s.buf k).block = some b) : Unchanged G k := by
  intro x o ho
  cases hod : o.dirty with
  | false => rfl
  | true =>
    have hob : o.block = b := by
      have := (h.threads.own x k o ho).block
      rw [hk, Option.some.injEq] at this
      exact this.symm
    have hw : w ≠ none := fun hw => by
      rw [h.ops.idle.mp hw] at hj
      cases hj
    rcases (h.home x k o ho hod).2 (hob ▸ hb) with hin | ⟨l', n, u, r, hjob⟩
    · rw [h.ops.quiet hw x] at hin
      cases hin
    · obtain ⟨-, hj'⟩ := h.ops.worker hjob (by simp)
      rw [hj] at hj'
      cases hj'

/-- **The header is written**: what is seen is durable. -/
theorem Views.recoverDisk_head {l : List ℕ} (hv : Views L s G stale (.log l l.length) cur dur)
    (h : Sound L s G stale w (.log l l.length)) {x : Block} (hx : header x = l) (hb : L.Home b) (hd : cur b = some d) :
    recoverDisk L (update s.disk L.start x) b = d := by
  have hne : b ≠ L.start := hb.2.1
  obtain ⟨hlh, hlog, hhead, -, hready, hcopy⟩ := h.ok
  have hhead' : header (update s.disk L.start x L.start) = l := by rw [update_self, hx]
  by_cases hmem : b ∈ l
  · obtain ⟨i, hi⟩ := List.mem_iff_getElem?.mp hmem
    have hlt := (List.getElem?_eq_some_iff.mp hi).1
    obtain ⟨k, hk, -⟩ := h.pending_cached hready (b := b) (by simpa [Job.pending, hlh] using hmem)
    rw [recoverDisk_of_getElem? hlog hhead' hi, update_of_ne (by omega), hcopy i b k hlt hi hk]
    exact hv.pending hready k b d hk (by simpa [Job.pending, hlh] using hmem) (h.unchanged_of_log rfl hb hk) hd
  · rw [recoverDisk_of_not_mem hne (hhead' ▸ hmem), update_of_ne hne]
    rw [← recoverDisk_of_not_mem hne (d := s.disk) (by simp [hhead])]
    exact hv.disk b d hb (by simpa [Job.uncommitted, hlh] using hmem) hd

/-- A block of the log is written before the header: recovery does not look at it. -/
theorem recoverDisk_log {disk : ℕ → Block} {n : ℕ} (hhead : header (disk L.start) = []) (hb : L.Home b) (hn : b ≠ n)
    (hs : L.start ≠ n) : recoverDisk L (update disk n d) b = recoverDisk L disk b := by
  have hhead' : header (update disk n d L.start) = [] := by rw [update_of_ne hs, hhead]
  rw [recoverDisk_of_not_mem hb.2.1 (by simp [hhead']), recoverDisk_of_not_mem hb.2.1 (by simp [hhead]),
    update_of_ne hn]

/-- A buffer is written to the disk, and is at home then if it was not before. -/
theorem Views.write {dur' : View} {o : Own} {x : Option Own} (hv : Views L s G stale j cur dur) (h : Sound L s G stale w j)
    (ho : (G a).own k = some o) (hown : g.own = update (G a).own k x) (hnot : o.block ∉ j'.pending s.lh)
    (hP : ∀ b ∈ j'.pending s.lh, b ∈ j.pending s.lh)
    (hcur : ∀ b d, L.Home b → b ∉ j'.uncommitted s.lh → cur b = some d →
      recoverDisk L (s.setDisk o.block (s.buf k).data).disk b = d)
    (hdur : ∀ b d, L.Home b → dur' b = some d → recoverDisk L (s.setDisk o.block (s.buf k).data).disk b = d) :
    Views L (s.setDisk o.block (s.buf k).data) (update G a g) stale j' cur dur' where
  pending hr k' b d hk hb hun hd := by
    have hne : k' ≠ k := by
      rintro rfl
      have := (h.threads.own a k' o ho).block
      rw [show (s.buf k').block = some b from hk, Option.some.injEq] at this
      exact hnot (this ▸ hb)
    refine hv.pending hr k' b d hk (hP b hb) (unchanged_of_update (fun o' ho' hd' => ⟨o', ?_, hd'⟩) hun) hd
    rw [hown, update_of_ne hne, ho']
  disk := hcur
  stale := hv.stale
  dur := hdur

/-- **A block is written** to the disk. -/
theorem Views.writeDisk {o : Own} {x : Option Own} (hv : Views L s G stale j cur dur) (h : Sound L s G stale w j)
    {Q : Unit → Ctx → Prop} (hq : rules L strict cap (.writeDisk k) Q (G a)) (ho : (G a).own k = some o)
    (hd : o.know = some d) (hm : MayWrite L (G a) o d j') (hown : g.own = update (G a).own k x) :
    Views L (s.setDisk o.block (s.buf k).data) (update G a g) stale j' cur
      (durAfter L s cur dur (.writeDisk k)) := by
  have hok := h.threads.own a k o ho
  have hdata := hok.know d hd
  have heff : Effect s (s.setDisk o.block (s.buf k).data) (.writeDisk k) :=
    ⟨fun _ => .inl rfl, fun _ => .inr le_rfl, .inr ⟨k, o.block, rfl, hok.block, rfl⟩, .inl, .inl rfl⟩
  cases hm with
  | @log l t b hj hb hblock hhold =>
    obtain ⟨rfl, rfl⟩ := h.ops.worker hj (by simp)
    obtain ⟨hlh, hlog, hhead, -⟩ := h.ok
    have hnot : ¬ L.Home o.block := hblock ▸ hlog.not_home (List.getElem?_eq_some_iff.mp hb).1
    have hdur : durAfter L s cur dur (.writeDisk k) = dur := by
      refine if_neg fun hc => ?_
      rw [hok.block, hblock, Option.some.injEq] at hc
      omega
    have hrec : ∀ y, L.Home y → recoverDisk L (s.setDisk o.block (s.buf k).data).disk y = recoverDisk L s.disk y :=
      fun y hy => recoverDisk_log hhead hy (fun he => hnot (he ▸ hy)) (by omega)
    rw [hdur]
    refine hv.write h ho hown (fun hP => hnot (h.pending_home hP)) (fun _ => id) (fun y z hy hU hz => ?_) fun y z hy hz => ?_
    · rw [hrec y hy]
      exact hv.disk y z hy hU hz
    · rw [hrec y hy]
      exact hv.dur y z hy hz
  | @head l hj hblock hl =>
    obtain ⟨rfl, rfl⟩ := h.ops.worker hj (by simp)
    obtain ⟨hlh, hlog, hhead, -⟩ := h.ok
    have hcur : ∀ y z, L.Home y → cur y = some z → recoverDisk L (s.setDisk o.block (s.buf k).data).disk y = z := by
      intro y z hy hz
      rw [hblock, hdata]
      exact hv.recoverDisk_head h hl hy hz
    refine hv.write h ho hown (fun hP => ?_) (fun y hy => ?_) (fun y z hy _ hz => hcur y z hy hz) fun y z hy hz => ?_
    · have := hlog.2.1 _ (List.mem_of_mem_drop hP)
      exact not_home_start (hblock ▸ this)
    · rw [Job.pending, hlh]
      exact List.mem_of_mem_drop hy
    · by_cases hc : (s.buf k).block = some L.start ∧ header (s.buf k).data ≠ []
      · rw [durAfter, if_pos hc] at hz
        exact hcur y z hy hz
      · -- nothing was logged: the header stays empty
        rw [durAfter, if_neg hc] at hz
        have hnil : l = [] := by
          by_contra hne
          exact hc ⟨hblock ▸ hok.block, by rw [hdata, hl]; exact hne⟩
        have hr := hv.dur y z hy hz
        rw [recoverDisk_of_not_mem hy.2.1 (by simp [hhead])] at hr
        have hhead' : header ((s.setDisk o.block (s.buf k).data).disk L.start) = [] := by
          rw [hblock, Store.setDisk_disk_self, hdata, hl, hnil]
        rw [recoverDisk_of_not_mem hy.2.1 (by simp [hhead']), hblock, s.setDisk_disk_of_ne _ hy.2.1, hr]
  | @install l n u r hj _ hb _ =>
    obtain ⟨rfl, rfl⟩ := h.ops.worker hj (by simp)
    obtain ⟨hlh, hlog, -⟩ := h.ok
    have hrec := h.recoverDisk_write hq heff (by simp)
    have hhome := hlog.2.1 _ (List.mem_of_getElem? hb)
    have hdur : durAfter L s cur dur (.writeDisk k) = dur := by
      refine if_neg fun hc => ?_
      rw [hok.block, Option.some.injEq] at hc
      exact hhome.2.1 hc.1
    rw [hdur]
    refine hv.write h ho hown (fun hP => ?_) (fun y hy => ?_) (fun y z hy _ hz => ?_) fun y z hy hz => ?_
    · -- the block is in the transaction once
      obtain ⟨i, hi⟩ := List.mem_iff_getElem?.mp hP
      rw [Job.pending, List.getElem?_drop] at hi
      have := (List.getElem?_inj (List.getElem?_eq_some_iff.mp hb).1 hlog.1).mp (hb.trans hi.symm)
      omega
    · exact (List.drop_sublist_drop_left l (Nat.le_succ n)).mem hy
    · rw [hrec]
      exact hv.disk y z hy List.not_mem_nil hz
    · rw [hrec]
      exact hv.dur y z hy hz
  | @clear l d0 hj hblock hw hd' =>
    obtain ⟨rfl, rfl⟩ := h.ops.worker hj (by simp)
    have hrec := h.recoverDisk_write hq heff (by simp)
    have hdur : durAfter L s cur dur (.writeDisk k) = dur := by
      refine if_neg fun hc => hc.2 ?_
      rw [hdata, hd', header_putHeader_nil]
    rw [hdur]
    refine hv.write h ho hown (fun hP => ?_) (fun y hy => ?_) (fun y z hy _ hz => ?_) fun y z hy hz => ?_
    · cases hP
    · cases hy
    · rw [hrec]
      exact hv.disk y z hy List.not_mem_nil hz
    · rw [hrec]
      exact hv.dur y z hy hz

theorem Ops.job_eq {G' : Slot → Ctx} (h : Ops s G w j) (h' : Ops s' G' w' j') (hj : ∀ b, (G' b).job = (G b).job) :
    j' = j := by
  cases w with
  | none =>
    have hnone := h.idle.mp rfl
    have hall : ∀ b, (G' b).job = .none := fun b => by rw [hj b, h.job b, if_neg (by simp)]
    cases w' with
    | none => rw [h'.idle.mp rfl, hnone]
    | some b =>
      have := h'.job b
      rw [if_pos rfl, hall b] at this
      rw [hnone, this]
  | some b =>
    have hne : j ≠ .none := fun hn => by cases h.idle.mpr hn
    have := h.job b
    rw [if_pos rfl] at this
    exact (h'.worker ((hj b).trans this) hne).2

variable (ha : After L strict cap c s G stale w a g s' stale' w' j')

include ha

theorem After.job_eq (h : Sound L s G stale w j)
    (hj : g.job = (G a).job) : j' = j := by
  refine h.ops.job_eq ha.sound.ops fun b => ?_
  by_cases hb : b = a
  · rw [hb, update_self, hj]
  · rw [update_of_ne hb]

theorem After.job_of_ne (hne : g.job ≠ .none) : j' = g.job :=
  (ha.sound.ops.worker (a := a) (by rw [update_self]) hne).2

theorem After.job_none (h : Sound L s G stale w j)
    (hne : (G a).job ≠ .none) (hj : g.job = .none) : j' = .none := by
  obtain ⟨rfl, -⟩ := h.ops.worker rfl hne
  cases hw : w' with
  | none => exact ha.sound.ops.idle.mp hw
  | some b =>
    have hjob := ha.sound.ops.job b
    rw [if_pos hw] at hjob
    by_cases hb : b = a
    · rw [hb, update_self] at hjob
      rw [← hjob, hj]
    · rw [update_of_ne hb, h.ops.job b, if_neg (by simpa using Ne.symm hb)] at hjob
      exact hjob.symm

omit ha

theorem dirty_set {x : Own} (hx : ∀ o, g.own k = some o → o.dirty = true → x.dirty = true) (k' : BufNo) (o : Own)
    (ho : g.own k' = some o) (hd : o.dirty = true) : ∃ o', (g.set k (some x)).own k' = some o' ∧ o'.dirty = true := by
  by_cases hk : k' = k
  · subst hk
    exact ⟨x, Ctx.set_own_self _ _ _, hx o ho hd⟩
  · exact ⟨o, by rw [Ctx.set_own_of_ne _ _ hk, ho], hd⟩

theorem Store.setBuf_same (s : Store) {k : BufNo} {x : Buf} (hb : x.block = (s.buf k).block) (hd : x.data = (s.buf k).data)
    (k' : BufNo) : ((s.setBuf k x).buf k').block = (s.buf k').block ∧ ((s.setBuf k x).buf k').data = (s.buf k').data := by
  by_cases hk : k' = k
  · subst hk
    rw [Store.setBuf_buf_self]
    exact ⟨hb, hd⟩
  · rw [Store.setBuf_buf_of_ne _ _ hk]
    exact ⟨rfl, rfl⟩

theorem Views.releasesleep {o : Own} (hv : Views L s G stale j cur dur) (h : Sound L s G stale w j)
    (ho : (G a).own k = some o) (hown : g.own = update (G a).own k none)
    (hst : ∀ x, stale' x → stale x ∨ x = k ∧ o.dirty = true) :
    Views L (s.setBuf k { s.buf k with lock := none }) (update G a g) stale' j
      (curAfter s (G a) cur (.releasesleep k)) dur := by
  have hcur : curAfter s (G a) cur (.releasesleep k) = if o.dirty then update cur o.block none else cur := by
    simp [curAfter, ho]
  have hsub : ∀ b d, curAfter s (G a) cur (.releasesleep k) b = some d → cur b = some d := by
    intro b d hb
    rw [hcur] at hb
    split at hb
    · by_cases hbo : b = o.block
      · rw [hbo, update_self] at hb
        cases hb
      · rwa [update_of_ne hbo] at hb
    · exact hb
  have hbuf := s.setBuf_same (k := k) (x := { s.buf k with lock := none }) rfl rfl
  refine ⟨fun hr x b d hx hP hun hd => ?_, fun b d hb hU hd => hv.disk b d hb hU (hsub b d hd), fun x b hx hb => ?_, hv.dur⟩
  · rw [(hbuf x).1] at hx
    rw [(hbuf x).2]
    refine hv.pending hr x b d hx hP (unchanged_of_update (fun o' ho' hd' => ?_) hun) (hsub b d hd)
    by_cases hxk : x = k
    · -- it was changed: nothing is known of the block now
      subst hxk
      rw [ho, Option.some.injEq] at ho'
      subst ho'
      have hob := (h.threads.own a x o ho).block
      rw [hx, Option.some.injEq] at hob
      rw [hcur, if_pos hd', hob, update_self] at hd
      cases hd
    · exact ⟨o', by rw [hown, update_of_ne hxk, ho'], hd'⟩
  · rw [(hbuf x).1] at hb
    rw [hcur]
    rcases hst x hx with hx | ⟨rfl, hod⟩
    · have hnone := hv.stale x b hx hb
      split
      · by_cases hbo : b = o.block
        · rw [hbo, update_self]
        · rwa [update_of_ne hbo]
      · exact hnone
    · have hob := (h.threads.own a x o ho).block
      rw [hb, Option.some.injEq] at hob
      rw [if_pos hod, hob, update_self]

theorem Views.logWrite {o x : Own} (hv : Views L s G stale .none cur dur) (h : Sound L s G stale w .none)
    (ho : (G a).own k = some o) (hown : g.own = update (G a).own k (some x)) (hdisk : s'.disk = s.disk)
    (hready : s'.ready = s.ready) (hbuf : ∀ y, (s'.buf y).block = (s.buf y).block ∧ (s'.buf y).data = (s.buf y).data)
    (hlh : ∀ b, b ∈ s'.lh ↔ b ∈ s.lh ∨ b = o.block)
    (hst : ∀ y, stale' y → stale y ∧ y ≠ k) :
    Views L s' (update G a g) stale' .none (curAfter s (G a) cur (.logWrite k)) dur := by
  have hok := h.threads.own a k o ho
  have hcur : curAfter s (G a) cur (.logWrite k) = update cur o.block (some (s.buf k).data) := by
    simp [curAfter, hok.block]
  have hother : ∀ y b, y ≠ k → (s.buf y).block = some b → b ≠ o.block := by
    rintro y b hy hb rfl
    exact hy (h.cache.unique y k _ hb hok.block)
  rw [hcur]
  refine ⟨fun hr y b d hy hP hun hd => ?_, fun b d hb hU hd => ?_, fun y b hy hb => ?_, fun b d hb hd => ?_⟩
  · rw [(hbuf y).1] at hy
    rw [(hbuf y).2]
    by_cases hyk : y = k
    · subst hyk
      rw [hok.block, Option.some.injEq] at hy
      subst hy
      rw [update_self, Option.some.injEq] at hd
      exact hd
    · have hne := hother y b hyk hy
      rw [update_of_ne hne] at hd
      have hmem : b ∈ s.lh := ((hlh b).mp hP).resolve_right hne
      refine hv.pending (hready ▸ hr) y b d hy hmem (unchanged_of_update (fun o' ho' hd' => ⟨o', ?_, hd'⟩) hun) hd
      rw [hown, update_of_ne hyk, ho']
  · have hne : b ≠ o.block := fun he => hU ((hlh b).mpr (.inr he))
    rw [update_of_ne hne] at hd
    rw [hdisk]
    exact hv.disk b d hb (fun hmem => hU ((hlh b).mpr (.inl hmem))) hd
  · obtain ⟨hy', hyk⟩ := hst y hy
    rw [(hbuf y).1] at hb
    rw [update_of_ne (hother y b hyk hb)]
    exact hv.stale y b hy' hb
  · rw [hdisk]
    exact hv.dur b d hb hd

/-- **Any command**. -/
theorem Views.exec (hv : Views L s G stale j cur dur) (h : Sound L s G stale w j) {Q : c.Res → Ctx → Prop}
    (hq : rules L strict cap c Q (G a)) {r : c.Res} (he : s.exec L a c = some (r, s')) (hn : (G a).Next L c r g)
    (ha : After L strict cap c s G stale w a g s' stale' w' j') :
    Views L s' (update G a g) stale' j' (curAfter s (G a) cur c) (durAfter L s cur dur c) := by
  have hkeep : ∀ k o, (G a).own k = some o → o.dirty = true → ∃ o', (G a).own k = some o' ∧ o'.dirty = true :=
    fun k o ho hd => ⟨o, ho, hd⟩
  -- no command but the two makes a buffer stale, and a stale buffer keeps its block
  have hst : (∀ k, c ≠ .releasesleep k) → ∀ k, stale' k → stale k ∧ (s'.buf k).block = (s.buf k).block := by
    intro hc k hk
    rcases ha.stale k hk with ⟨hk, hb, -⟩ | ⟨-, hr, -⟩
    · exact ⟨hk, hb⟩
    · exact absurd hr (hc k)
  cases c with
  | bget b =>
    cases hn
    obtain rfl := ha.job_eq h rfl
    simp only [Store.exec] at he
    split at he
    · rename_i k hk
      cases he
      exact hv.same rfl rfl rfl (s.setBuf_same (x := { s.buf r with refcnt := (s.buf r).refcnt + 1 }) rfl rfl) hkeep
        (fun x hx => (hst (by simp) x hx).1) rfl rfl
    · rename_i hmiss
      split at he
      · rename_i k hk
        cases he
        refine hv.frame rfl .inl (fun _ => id) (fun x y hr hx hy hun => ?_) (hst (by simp))
        have hxr : x ≠ r := by
          -- what is not at home is cached, and the block that is read was not
          rintro rfl
          obtain ⟨k', hk', -⟩ := h.pending_cached hr hy
          have hnot := List.find?_eq_none.mp hmiss k' (h.cache.lru k')
          change ((s.setBuf x _).buf x).block = some y at hx
          rw [Store.setBuf_buf_self, Option.some.injEq] at hx
          simp [hk', hx] at hnot
        change ((s.setBuf r _).buf x).block = some y at hx
        rw [Store.setBuf_buf_of_ne _ _ hxr] at hx
        exact ⟨hx, hy, unchanged_of_update (g := { G a with loose := some (r, b) }) (hkeep x) hun,
          congrArg Buf.data (s.setBuf_buf_of_ne _ hxr)⟩
      · cases he
  | acquiresleep k =>
    obtain ⟨b, hnone, rfl⟩ := hn
    obtain rfl := ha.job_eq h rfl
    simp only [Store.exec] at he
    split at he <;> cases he
    refine hv.same rfl rfl rfl (s.setBuf_same rfl rfl) (dirty_set fun o ho _ => ?_) (fun x hx => (hst (by simp) x hx).1)
      rfl rfl
    rw [hnone] at ho
    cases ho
  | valid k | data k =>
    obtain ⟨o, ho, rfl⟩ := hn
    obtain rfl := ha.job_eq h rfl
    cases he
    refine hv.same rfl rfl rfl (fun _ => ⟨rfl, rfl⟩) (dirty_set fun o' ho' hd => ?_) (fun x hx => (hst (by simp) x hx).1)
      rfl rfl
    rw [ho, Option.some.injEq] at ho'
    exact ho' ▸ hd
  | readDisk k =>
    obtain ⟨o, ho, hvalid, rfl⟩ := hn
    obtain rfl := ha.job_eq h rfl
    have hok := h.threads.own a k o ho
    obtain ⟨b, hb, he⟩ := Option.map_eq_some_iff.mp he
    rw [hok.block, Option.some.injEq] at hb
    cases he
    refine hv.frame rfl .inl (fun _ => id) (fun x y hr hx hy hun => ?_) (hst (by simp))
    have hxk : x ≠ k := by
      -- a buffer that is not valid is not one that has to be installed
      rintro rfl
      rw [s.setBuf_block (x := { s.buf x with valid := true, data := s.disk b }) rfl] at hx
      obtain ⟨k', hk', hv'⟩ := h.pending_cached hr hy
      have := h.cache.unique k' x y hk' hx
      rw [this, hok.valid _ hvalid] at hv'
      cases hv'
    rw [Store.setBuf_buf_of_ne _ _ hxk] at hx
    refine ⟨hx, hy, unchanged_of_update (fun o' ho' hd => ⟨o', ?_, hd⟩) hun, congrArg Buf.data (s.setBuf_buf_of_ne _ hxk)⟩
    rw [Ctx.set_own_of_ne _ _ hxk, ho']
  | setData k d =>
    obtain ⟨o, ho, rfl⟩ := hn
    obtain rfl := ha.job_eq h rfl
    cases he
    refine hv.frame rfl .inl (fun _ => id) (fun x y hr hx hy hun => ?_) (hst (by simp))
    have hxk : x ≠ k := by
      -- the buffer is changed now
      rintro rfl
      have := hun a (o.change L d) (by rw [update_self, Ctx.set_own_self])
      cases this
    rw [Store.setBuf_buf_of_ne _ _ hxk] at hx
    refine ⟨hx, hy, unchanged_of_update (fun o' ho' hd => ⟨o', ?_, hd⟩) hun, congrArg Buf.data (s.setBuf_buf_of_ne _ hxk)⟩
    rw [Ctx.set_own_of_ne _ _ hxk, ho']
  | writeDisk k =>
    obtain ⟨o, d, j0, ho, hd, hm, rfl⟩ := hn
    have hok := h.threads.own a k o ho
    have hj' : j' = j0 := by
      refine ha.job_of_ne ?_
      cases hm <;> simp
    subst hj'
    simp only [Store.exec, hok.lock, if_true, hok.block, Option.map_some, Option.some.injEq] at he
    cases he
    refine { hv.writeDisk h hq ho hd hm rfl with stale := fun x b hx hb => ?_ }
    exact hv.stale x b (hst (by simp) x hx).1 hb
  | releasesleep k =>
    obtain ⟨o, ho, -, rfl⟩ := hn
    obtain rfl := ha.job_eq h rfl
    simp only [Store.exec, (h.threads.own a k o ho).lock, if_true, Option.some.injEq] at he
    cases he
    refine hv.releasesleep h ho rfl fun x hx => ?_
    rcases ha.stale x hx with ⟨hx, -⟩ | ⟨-, hk, o', ho', hd⟩
    · exact .inl hx
    · cases hk
      rw [ho, Option.some.injEq] at ho'
      exact .inr ⟨rfl, ho' ▸ hd⟩
  | unref k =>
    cases hn
    obtain rfl := ha.job_eq h rfl
    cases he
    exact hv.same rfl rfl rfl (s.setBuf_same (x := { s.buf k with refcnt := (s.buf k).refcnt - 1 }) rfl rfl) hkeep
      (fun x hx => (hst (by simp) x hx).1) rfl rfl
  | bunpin k =>
    obtain ⟨l, n, u, hj, rfl⟩ := hn
    obtain rfl := ha.job_of_ne (by simp)
    obtain ⟨-, rfl⟩ := h.ops.worker hj (by simp)
    cases he
    exact hv.same rfl rfl rfl (s.setBuf_same (x := { s.buf k with refcnt := (s.buf k).refcnt - 1 }) rfl rfl) hkeep
      (fun x hx => (hst (by simp) x hx).1) rfl rfl
  | beginOp =>
    cases hn
    obtain rfl := ha.job_eq h rfl
    simp only [Store.exec] at he
    split at he <;> cases he
    exact hv.same rfl rfl rfl (fun _ => ⟨rfl, rfl⟩) hkeep (fun x hx => (hst (by simp) x hx).1) rfl rfl
  | endOp =>
    have hstore : s'.disk = s.disk ∧ s'.ready = s.ready ∧ s'.lh = s.lh ∧ s'.buf = s.buf := by
      simp only [Store.exec] at he
      split at he
      · cases he
      · split at he <;> cases he <;> exact ⟨rfl, rfl, rfl, rfl⟩
    obtain ⟨hdisk, hready, hlh, hbuf⟩ := hstore
    have hbuf' : ∀ k, (s'.buf k).block = (s.buf k).block ∧ (s'.buf k).data = (s.buf k).data := by simp [hbuf]
    rcases hn with rfl | ⟨l, rfl⟩
    · obtain rfl := ha.job_eq h rfl
      exact hv.same hdisk hready hlh hbuf' hkeep (fun x hx => (hst (by simp) x hx).1) rfl rfl
    · obtain rfl := ha.job_of_ne (by simp)
      obtain ⟨-, rfl⟩ := h.ops.none_of_inOp hq.1
      exact hv.same hdisk hready hlh hbuf' hkeep (fun x hx => (hst (by simp) x hx).1) rfl rfl
  | logWrite k =>
    obtain ⟨o, ho, rfl⟩ := hn
    obtain rfl := ha.job_eq h rfl
    obtain ⟨o', ho', hin, -⟩ := hq
    obtain ⟨-, rfl⟩ := h.ops.none_of_inOp hin
    have hst' : ∀ x, stale' x → stale x ∧ x ≠ k := by
      intro x hx
      rcases ha.stale x hx with ⟨hx, -, hk⟩ | ⟨-, hk, -⟩
      · exact ⟨hx, fun he => hk (by rw [he])⟩
      · cases hk
    simp only [Store.exec] at he
    split at he
    · obtain ⟨b, hob, he⟩ := Option.map_eq_some_iff.mp he
      rw [(h.threads.own a k o ho).block, Option.some.injEq] at hob
      subst hob
      split at he
      · rename_i hmem
        cases he
        refine hv.logWrite h ho rfl rfl rfl (fun _ => ⟨rfl, rfl⟩) (fun b => ⟨.inl, ?_⟩) hst'
        rintro (hb | rfl)
        · exact hb
        · exact hmem
      · cases he
        exact hv.logWrite h ho rfl rfl rfl (s.setBuf_same (x := { s.buf k with refcnt := (s.buf k).refcnt + 1 }) rfl rfl)
          (fun b => by simp) hst'
    · cases he
  | lh =>
    cases hn
    obtain rfl := ha.job_eq h rfl
    cases he
    exact hv.same rfl rfl rfl (fun _ => ⟨rfl, rfl⟩) hkeep (fun x hx => (hst (by simp) x hx).1) rfl rfl
  | setLh l =>
    cases he
    rcases hn with ⟨hj, rfl⟩ | ⟨l0, u, r, hj, rfl, rfl⟩
    · obtain rfl := ha.job_of_ne (by simp)
      obtain ⟨-, rfl⟩ := h.ops.worker hj (by simp)
      refine hv.frame rfl .inl (fun b hb => by cases hb) (fun x y hr => ?_) (hst (by simp))
      rw [h.ok.2.2] at hr
      cases hr
    · obtain rfl := ha.job_of_ne (by simp)
      obtain ⟨-, rfl⟩ := h.ops.worker hj (by simp)
      refine hv.frame rfl .inl (fun b hb => by cases hb) (fun x y hr hx hy => ?_) (hst (by simp))
      cases hy
  | endCommit =>
    obtain ⟨hj, rfl⟩ := hn
    have hne : (G a).job ≠ .none := by
      rcases hj with hj | hj <;> simp [hj]
    obtain rfl := ha.job_none h hne rfl
    have hlh := h.lh_of_done hj
    cases he
    have hv' : Views L { s with committing := false } (update G a { G a with job := .none }) stale' .none cur dur := by
      refine hv.frame rfl .inl (fun b hb => ?_) (fun x y hr hx hy => ?_) (hst (by simp))
      · cases j <;> simp [Job.uncommitted, hlh] at hb
      · simp [Job.pending, hlh] at hy
    refine { hv' with dur := fun b d hb hd => hv'.disk b d hb ?_ hd }
    simp [Job.uncommitted, hlh]
  | installing b =>
    cases hn
    obtain rfl := ha.job_eq h rfl
    cases he
    exact hv.same rfl rfl rfl (fun _ => ⟨rfl, rfl⟩) hkeep (fun x hx => (hst (by simp) x hx).1) rfl rfl
  | ready =>
    obtain ⟨hj, rfl⟩ := hn
    obtain rfl := ha.job_none h (by simp [hj]) rfl
    have hlh := h.lh_of_done (.inl hj)
    obtain ⟨-, rfl⟩ := h.ops.worker hj (by simp)
    cases he
    refine hv.frame rfl (fun _ => .inr ?_) (fun b hb => by cases hb) (fun x y hr hx hy => ?_) (hst (by simp))
    · simp [Job.pending, hlh]
    · simp [Job.pending, hlh] at hy

end Views

end Xv6Shmem.Disk
