import Xv6Shmem.Disk.Invariant

/-!
# Every command keeps the invariant

## What is proved

* one lemma for each command that concerns the disk, the log or the operations, and
  `Sound.exec` from them and those about buffers.
* `DiskSound.step` — the invariant is kept by every step, and so is what every command keeps.
* `sound_of_reachable` — the invariant, in every reachable state.
-/

namespace Xv6Shmem.Disk

open Function Kernel Prog LTS

section Steps

variable {L : LogArea} {s s' : Store} {G : Slot → Ctx} {stale : BufNo → Prop} {w : Option Slot} {j : Job}
  {a : Slot} {g : Ctx} {k : BufNo} {o : Own} {x : Buf}

/-! ### The process that commits -/

theorem Ops.worker (h : Ops s G w j) {j' : Job} (hj : (G a).job = j') (hne : j' ≠ .none) : w = some a ∧ j = j' := by
  have hjob := h.job a
  rw [hj] at hjob
  split at hjob
  · exact ⟨by assumption, hjob.symm⟩
  · exact absurd hjob hne

theorem Ops.none_of_inOp (h : Ops s G w j) (ho : (G a).inOp = true) : w = none ∧ j = .none := by
  have hw : w = none := by
    by_contra hw
    rw [h.quiet hw a] at ho
    cases ho
  exact ⟨hw, h.idle.mp hw⟩

variable {j' : Job} {d : Block} {l : List ℕ} {strict : Bool} {cap : Option ℕ}

theorem Ops.next (h : Ops s G (some a) j) (hne : j' ≠ .none) (hj : g.job = j') (hin : g.inOp = (G a).inOp)
    (hi : g.inst = (G a).inst) (hb : g.boot = (G a).boot) (hout : s'.outstanding = s.outstanding)
    (hr : s'.ready = s.ready) (hc : s'.committing = s.committing) (hinst : s'.installing = s.installing) :
    Ops s' (update G a g) (some a) j' := by
  have hf := Ops.frame (a := a) (g := { g with job := (G a).job }) h hout hr hc hinst hin rfl hi hb
  refine ⟨?_, ?_, by simp [hne], ?_, hf.committing, hf.booting, ?_, ?_, hf.installing⟩
  · rw [hout]
    exact h.ops_update hin
  · intro b
    by_cases hb' : b = a
    · simp [hb', hj]
    · have := h.job b
      simpa [hb', Ne.symm hb'] using this
  · intro hw b
    have := hf.quiet hw b
    by_cases hb' : b = a
    · subst hb'
      simpa using this
    · simpa [hb'] using this
  · intro b
    have := hf.boot b
    by_cases hb' : b = a
    · subst hb'
      simpa using this
    · simpa [hb'] using this
  · intro b
    have := hf.inst b
    by_cases hb' : b = a
    · subst hb'
      simpa using this
    · simpa [hb'] using this

theorem Sound.write (h : Sound L s G stale (some a) j) (ho : (G a).own k = some o)
    (hd : o.know = some d) (hne : j' ≠ .none) (hpin : j'.pinned s.lh = j.pinned s.lh)
    (hpend : ∀ n ∈ j.pending s.lh, n ∉ j'.pending s.lh → n = o.block)
    (hinst : (∃ l n u r, (G a).job = .install l n u r) → ∃ l n u r, j' = .install l n u r)
    (hok : JobOk L (s.setDisk o.block d) j') :
    Sound L (s.setDisk o.block d)
      (update G a { (G a).set k (some { o with was := none, dirty := false }) with job := j' }) stale (some a)
      j' := by
  have hown := h.threads.own a k o ho
  -- another buffer is for another block
  have hother : ∀ k' n, k' ≠ k → (s.buf k').block = some n → (s.setDisk o.block d).disk n = s.disk n := by
    intro k' n hk' hn
    refine Store.setDisk_disk_of_ne s d ?_
    rintro rfl
    exact hk' (h.cache.unique k' k _ hn hown.block)
  have hcongr : ∀ c k' o', k' ≠ k → OwnOk s c k' o' → OwnOk (s.setDisk o.block d) c k' o' :=
    fun c k' o' hk' ho' => ho'.congr rfl rfl rfl rfl (hother k' _ hk' ho'.block)
  refine ⟨?_, ?_, ?_, h.ops.next hne rfl rfl rfl rfl rfl rfl rfl rfl, hok, ?_, h.staleHome⟩
  · refine h.threads.move ?_ (fun _ _ _ => id) (fun c k' n _ => h.threads.loose c k' n) (fun _ _ => rfl) ?_ ?_
      (fun k' n => h.threads.loose a k' n) ?_
    · intro c k' o' hc ho'
      refine hcongr c k' o' ?_ (h.threads.own c k' o' ho')
      rintro rfl
      exact hc (h.threads.sole ho' ho)
    · intro k' o' ho'
      by_cases hk' : k' = k
      · subst hk'
        simp only [Ctx.set, update_self, Option.some.injEq] at ho'
        subst ho'
        refine ⟨hown.lock, hown.block, hown.valid, hown.know, ?_⟩
        intro d' hd'
        cases hd'
      · simp only [Ctx.set, update_of_ne hk'] at ho'
        exact hcongr a k' o' hk' (h.threads.own a k' o' ho')
    · intro k' hl
      by_cases hk' : k' = k
      · subst hk'
        simp [Ctx.set]
      · simp only [Ctx.set, update_of_ne hk']
        exact h.threads.lock a k' hl
    · intro k'
      change (s.ptrs a).count k' = _
      rw [h.threads.ptrs a k']
      by_cases hk' : k' = k
      · subst hk'
        simp only [Ctx.refs, Ctx.set, ho, update_self]
        rfl
      · simp only [Ctx.refs, Ctx.set, update_of_ne hk']
        rfl
  · change Cache _ (j'.pinned s.lh)
    rw [hpin]
    exact h.cache.frame (fun _ => ⟨rfl, id, rfl⟩) rfl rfl rfl
  · intro k' n hn hv hdirty hP hst
    change (s.buf k').block = some n at hn
    by_cases hk' : k' = k
    · subst hk'
      rw [hown.block, Option.some.injEq] at hn
      subst hn
      rw [Store.setDisk_disk_self]
      exact hown.know d hd
    · rw [hother k' n hk' hn]
      refine h.clean k' n hn hv (fun c o' ho' => hdirty c o' ?_) ?_ hst
      · by_cases hc : c = a
        · subst hc
          simpa [Ctx.set, hk'] using ho'
        · rw [update_of_ne hc, ho']
      · intro hP'
        have := hpend n hP' hP
        subst this
        exact hk' (h.cache.unique k' k _ hn hown.block)
  · refine h.home_update fun k' o' ho' hd' => ⟨fun hj => absurd hj hne, fun hb => .inr ?_⟩
    have hk' : k' ≠ k := by
      rintro rfl
      simp only [Ctx.set, update_self, Option.some.injEq] at ho'
      subst ho'
      cases hd'
    simp only [Ctx.set, update_of_ne hk'] at ho'
    rcases (h.home a k' o' ho' hd').2 hb with hin | hj
    · rw [h.ops.quiet (by simp) a] at hin
      cases hin
    · exact hinst hj

/-- **A write to the disk**, whichever the rules allow. -/
theorem Sound.writeDisk (h : Sound L s G stale w j) (ho : (G a).own k = some o)
    (hd : o.know = some d) (hm : MayWrite L (G a) o d j') :
    Sound L (s.setDisk o.block d)
      (update G a { (G a).set k (some { o with was := none, dirty := false }) with job := j' }) stale w j' := by
  cases hm with
  | @log l t b hj hb hblock hhold =>
    obtain ⟨rfl, rfl⟩ := h.ops.worker hj (by simp)
    obtain ⟨hlh, hlog, hhead, ht, hready, hdone⟩ := h.ok
    have hlt : t < l.length := (List.getElem?_eq_some_iff.mp hb).1
    refine h.write ho hd (by simp) rfl (fun n hn hn' => absurd hn hn') (fun hi => by simp [hj] at hi) ?_
    refine ⟨hlh, hlog, ?_, hlt, hready, ?_⟩
    · rw [Store.setDisk_disk_of_ne _ _ (by omega)]
      exact hhead
    · intro i b' k' hi hb' hk'
      by_cases hit : i = t
      · subst hit
        rw [hb, Option.some.injEq] at hb'
        subst hb'
        obtain ⟨k0, o0, ho0, rfl, -, hknow, -⟩ := hhold
        have hk0 := h.threads.own a k0 o0 ho0
        have := h.cache.unique k' k0 _ hk' hk0.block
        subst this
        rw [hblock, Store.setDisk_disk_self]
        exact (hk0.know d hknow).symm
      · rw [Store.setDisk_disk_of_ne _ _ (by omega)]
        exact hdone i b' k' (by omega) hb' hk'
  | @head l hj hblock hhead' =>
    obtain ⟨rfl, rfl⟩ := h.ops.worker hj (by simp)
    obtain ⟨hlh, hlog, -, -, hready, -⟩ := h.ok
    refine h.write ho hd (by simp) ?_ (fun n hn hn' => ?_) (fun hi => by simp [hj] at hi) ?_
    · simp [Job.pinned, hlh]
    · simp only [Job.pending, hlh, List.drop_zero] at hn hn'
      exact absurd hn hn'
    · refine ⟨hlh, hlog, ?_, Nat.zero_le _, le_rfl, fun i b hi => absurd hi (Nat.not_lt_zero i), fun _ => ⟨rfl, rfl⟩, ?_⟩
      swap
      · change false = true ↔ s.ready = false
        simp [hready]
      rw [hblock, Store.setDisk_disk_self, hhead']
  | @install l n u r hj hinst hb hhold =>
    obtain ⟨rfl, rfl⟩ := h.ops.worker hj (by simp)
    obtain ⟨hlh, hlog, hhead, hn, hu, hdone, -, hrec⟩ := h.ok
    have hlt : n < l.length := (List.getElem?_eq_some_iff.mp hb).1
    have hhome : L.Home o.block := hlog.2.1 _ (List.mem_of_getElem? hb)
    have hdisk := h.disk_of_holds hhold (hlog.not_home hlt)
    have hne : ∀ i, i < l.length → L.start + i + 1 ≠ o.block := fun i hi he => hlog.not_home hi (he ▸ hhome)
    refine h.write ho hd (by simp) rfl ?_ (fun _ => ⟨l, n + 1, u, r, rfl⟩) ?_
    · intro b hb' hb''
      rw [Job.pending, List.drop_eq_getElem_cons hlt, List.mem_cons] at hb'
      rcases hb' with rfl | hb'
      · rw [List.getElem?_eq_getElem hlt, Option.some.injEq] at hb
        exact hb
      · exact absurd hb' hb''
    · refine ⟨hlh, hlog, ?_, hlt, by omega, ?_, fun hi => ?_, hrec⟩
      · rw [Store.setDisk_disk_of_ne _ _ fun he => not_home_start (he ▸ hhome)]
        exact hhead
      · intro i b hi hb'
        by_cases hin : i = n
        · subst hin
          rw [hb, Option.some.injEq] at hb'
          subst hb'
          rw [Store.setDisk_disk_self, Store.setDisk_disk_of_ne _ _ (hne i hlt), hdisk]
        · have hbne : b ≠ o.block := by
            rintro rfl
            exact hin ((List.getElem?_inj (by omega) hlog.1).mp (hb'.trans hb.symm))
          rw [Store.setDisk_disk_of_ne _ _ hbne, Store.setDisk_disk_of_ne _ _ (hne i (by omega))]
          exact hdone i b (by omega) hb'
      · have := ((h.ops.inst a).mp hinst).2
        change s.installing = false at hi
        rw [this] at hi
        cases hi
  | @clear l d0 hj hblock hwas hd' =>
    obtain ⟨rfl, rfl⟩ := h.ops.worker hj (by simp)
    refine h.write ho hd (by simp) rfl (fun n hn => by cases hn) (fun hi => by simp [hj] at hi) ⟨h.ok.1, ?_, ?_⟩
    · rw [hblock, Store.setDisk_disk_self, hd', header_putHeader_nil]
    · rw [hblock, Store.setDisk_disk_self, hd', putHeader_nil_idem]

/-! ### Pins -/

theorem Store.same_of_refcnt {t : Store} {n : ℕ} (hbuf : t.buf = update s.buf k { s.buf k with refcnt := n }) (k' : BufNo) :
    (t.buf k').lock = (s.buf k').lock ∧ (t.buf k').block = (s.buf k').block ∧ (t.buf k').valid = (s.buf k').valid ∧
      (t.buf k').data = (s.buf k').data := by
  rw [hbuf]
  by_cases hk' : k' = k
  · subst hk'
    simp
  · simp [hk']

theorem pinOf_congr {P P' : List ℕ} {x : Option ℕ} (h : ∀ b, x = some b → (b ∈ P' ↔ b ∈ P)) : pinOf P' x = pinOf P x :=
  if_congr (exists_congr fun b => and_congr_left (h b)) rfl rfl

theorem Cache.repin {P P' : List ℕ} {n : ℕ} {m : ℤ} (h : Cache s P)
    (hbuf : s'.buf = update s.buf k { s.buf k with refcnt := n }) (hlru : s'.lru = s.lru)
    (hptrs : s'.ptrs = s.ptrs) (hpins : s'.pins = update s.pins k m)
    (hk : (n : ℤ) - (s.buf k).refcnt = m - s.pins k) (hm : m = pinOf P' (s.buf k).block)
    (hother : ∀ k', k' ≠ k → pinOf P' (s.buf k').block = pinOf P (s.buf k').block)
    (hcached : ∀ b ∈ P', b ∈ P ∨ (s.buf k).block = some b ∧ (s.buf k).valid = true) : Cache s' P' := by
  have hsame := fun k' => (Store.same_of_refcnt hbuf k').2
  refine ⟨fun k' => hlru ▸ h.lru k', ?_, ?_, ?_, ?_⟩
  · intro k1 k2 b
    rw [(hsame k1).1, (hsame k2).1]
    exact h.unique k1 k2 b
  · intro k'
    have hc := h.refcnt k'
    rw [Store.refs, hptrs, ← Store.refs, hpins, hbuf]
    by_cases hk' : k' = k
    · subst hk'
      rw [update_self, update_self]
      change (n : ℤ) = _
      omega
    · rw [update_of_ne hk', update_of_ne hk']
      exact hc
  · intro k'
    rw [(hsame k').1, hpins]
    by_cases hk' : k' = k
    · subst hk'
      rw [update_self, hm]
    · rw [update_of_ne hk', hother k' hk', h.pins k']
  · intro b hb
    rcases hcached b hb with hb | hb
    · obtain ⟨k', hk', hv⟩ := h.cached b hb
      exact ⟨k', (hsame k').1.trans hk', (hsame k').2.1.trans hv⟩
    · exact ⟨k, (hsame k).1.trans hb.1, (hsame k).2.1.trans hb.2⟩

variable (h : Sound L s G stale w j)

include h

theorem Sound.bunpin {n u : ℕ} (ho : (G a).own k = some o)
    (hj : (G a).job = .install l n u false) (hinst : (G a).inst = true) (hu : u < n) (hb : l[u]? = some o.block) :
    Sound L { s.setBuf k { s.buf k with refcnt := (s.buf k).refcnt - 1 } with
        pins := update s.pins k (s.pins k - 1) }
      (update G a { G a with job := .install l n (u + 1) false }) stale w (.install l n (u + 1) false) := by
  obtain ⟨rfl, rfl⟩ := h.ops.worker hj (by simp)
  obtain ⟨hlh, hlog, hhead, hn, -, hdone, -, hrec⟩ := h.ok
  have hown := h.threads.own a k o ho
  have hlt : u < l.length := (List.getElem?_eq_some_iff.mp hb).1
  have hdrop : l.drop u = o.block :: l.drop (u + 1) := by
    rw [List.drop_eq_getElem_cons hlt]
    rw [List.getElem?_eq_getElem hlt, Option.some.injEq] at hb
    rw [hb]
  have hnot : o.block ∉ l.drop (u + 1) := by
    have hnd : (l.drop u).Nodup := hlog.1.sublist (List.drop_sublist u l)
    rw [hdrop, List.nodup_cons] at hnd
    exact hnd.1
  have hpin : s.pins k = 1 := by
    rw [h.cache.pins k, hown.block]
    refine pinOf_of_mem ?_
    simp [Job.pinned, hdrop]
  have hpos := h.refcnt_pos (show 0 < (G a).refs k by simp [Ctx.refs, ho])
  have hs := Store.same_of_refcnt (s := s) (t := { s.setBuf k { s.buf k with refcnt := (s.buf k).refcnt - 1 } with
    pins := update s.pins k (s.pins k - 1) }) rfl
  refine ⟨h.threads.frame hs rfl rfl rfl rfl, ?_, ?_, h.ops.next (by simp) rfl rfl rfl rfl rfl rfl rfl rfl, ?_, ?_, ?_⟩
  · refine h.cache.repin (k := k) (n := (s.buf k).refcnt - 1) (m := s.pins k - 1) rfl rfl rfl rfl ?_ ?_ ?_ ?_
    · omega
    · rw [hpin, hown.block]
      exact (pinOf_of_not_mem (by simpa [Job.pinned] using hnot)).symm
    · intro k' hk'
      have hne : (s.buf k').block ≠ some o.block := fun he => hk' (h.cache.unique k' k _ he hown.block)
      refine pinOf_congr fun b hb' => ?_
      have hbne : b ≠ o.block := fun he => hne (he ▸ hb')
      simp [Job.pinned, hdrop, hbne]
    · intro b hb'
      refine .inl ?_
      simp only [Job.pinned, Bool.false_eq_true, if_false, hdrop] at hb' ⊢
      exact List.mem_cons_of_mem _ hb'
  · exact h.clean.frame (fun k' => (hs k').2) rfl fun k' o' ho' hd => ⟨o', ho', hd⟩
  · refine ⟨hlh, hlog, hhead, hn, hu, hdone, fun hi => ?_, hrec⟩
    have := ((h.ops.inst a).mp hinst).2
    change s.installing = false at hi
    rw [this] at hi
    cases hi
  · exact h.home_update fun k' o' _ _ => Ctx.dirtyOk_of_install rfl
  · intro k' b hst hk'
    rw [(hs k').2.1] at hk'
    exact h.staleHome k' b hst hk'

theorem Sound.logWrite_absorb (ho : (G a).own k = some o) (hin : (G a).inOp = true)
    (hb : o.block ∈ s.lh) :
    Sound L s (update G a ((G a).set k (some { o with was := none, dirty := false }))) stale w j := by
  obtain ⟨rfl, rfl⟩ := h.ops.none_of_inOp hin
  have hown := h.threads.own a k o ho
  have := h.touch (x := s.buf k) ho { o with was := none, dirty := false } rfl rfl rfl id ?_ ?_
    (fun _ _ _ _ _ _ => rfl) fun hd => by cases hd
  · rwa [Store.setBuf_self] at this
  · rw [Store.setBuf_self]
    refine ⟨hown.lock, hown.block, hown.valid, hown.know, ?_⟩
    intro d hd
    cases hd
  · intro b hb' _ _ hP _
    rw [hown.block, Option.some.injEq] at hb'
    subst hb'
    exact absurd hb hP

theorem Sound.logWrite_append (ho : (G a).own k = some o) (hin : (G a).inOp = true)
    (hv : o.valid = some true) (hhome : L.Home o.block) (hb : o.block ∉ s.lh) (hlen : s.lh.length < LOGSIZE)
    (hsize : s.lh.length + 1 < L.size) :
    Sound L { s.setBuf k { s.buf k with refcnt := (s.buf k).refcnt + 1 } with
        lh := s.lh ++ [o.block]
        pins := update s.pins k (s.pins k + 1) }
      (update G a ((G a).set k (some { o with was := none, dirty := false }))) stale w j := by
  obtain ⟨rfl, rfl⟩ := h.ops.none_of_inOp hin
  have hown := h.threads.own a k o ho
  obtain ⟨⟨hnd, hall, -, -⟩, hhead⟩ := h.ok
  set s' : Store := { s.setBuf k { s.buf k with refcnt := (s.buf k).refcnt + 1 } with
    lh := s.lh ++ [o.block]
    pins := update s.pins k (s.pins k + 1) }
  have hs := Store.same_of_refcnt (s := s) (t := s') rfl
  have hne : ∀ k', k' ≠ k → (s.buf k').block ≠ some o.block := fun k' hk' he =>
    hk' (h.cache.unique k' k _ he hown.block)
  refine ⟨?_, ?_, ?_, h.ops.frame rfl rfl rfl rfl rfl rfl rfl rfl, ?_, ?_, ?_⟩
  · have ht := h.threads.touch (x := s.buf k) ho { o with was := none, dirty := false } rfl rfl ?_
    · rw [Store.setBuf_self] at ht
      exact ht.congr hs rfl rfl
    · rw [Store.setBuf_self]
      refine ⟨hown.lock, hown.block, hown.valid, hown.know, ?_⟩
      intro d hd
      cases hd
  · change Cache s' (s.lh ++ [o.block])
    refine h.cache.repin (k := k) (n := (s.buf k).refcnt + 1) (m := s.pins k + 1) rfl rfl rfl rfl ?_ ?_ ?_ ?_
    · push_cast
      ring
    · have hnot : pinOf (Job.none.pinned s.lh) (some o.block) = 0 := pinOf_of_not_mem hb
      rw [h.cache.pins k, hown.block, hnot, pinOf_of_mem (by simp)]
      rfl
    · intro k' hk'
      refine pinOf_congr fun b hb' => ?_
      have hbne : b ≠ o.block := fun he => hne k' hk' (he ▸ hb')
      simp [Job.pinned, hbne]
    · intro b hb'
      rcases List.mem_append.mp hb' with hb' | hb'
      · exact .inl hb'
      · rw [List.mem_singleton] at hb'
        exact .inr ⟨hb' ▸ hown.block, hown.valid _ hv⟩
  · intro k' b hb' hv' hd hP hst
    change b ∉ s.lh ++ [o.block] at hP
    rw [(hs k').2.1] at hb'
    rw [(hs k').2.2.1] at hv'
    rw [(hs k').2.2.2]
    have hk' : k' ≠ k := by
      rintro rfl
      rw [hown.block, Option.some.injEq] at hb'
      exact hP (by simp [hb'])
    refine h.clean k' b hb' hv' (fun c o' ho' => hd c o' ?_) (fun hP' => hP (List.mem_append_left _ hP')) hst
    by_cases hc : c = a
    · subst hc
      rw [update_self, Ctx.set_own_of_ne _ _ hk', ho']
    · rw [update_of_ne hc, ho']
  · refine ⟨⟨?_, ?_, ?_, ?_⟩, hhead⟩
    · change (s.lh ++ [o.block]).Nodup
      rw [List.nodup_append_comm]
      simpa using ⟨hb, hnd⟩
    · intro b hb'
      rcases List.mem_append.mp hb' with hb' | hb'
      · exact hall b hb'
      · rw [List.mem_singleton] at hb'
        exact hb' ▸ hhome
    · change (s.lh ++ [o.block]).length ≤ _
      rw [List.length_append]
      exact hlen
    · change (s.lh ++ [o.block]).length ≤ _
      rw [List.length_append, List.length_singleton]
      omega
  · refine h.home_update fun k' o' ho' hd => ?_
    by_cases hk' : k' = k
    · subst hk'
      rw [Ctx.set_own_self, Option.some.injEq] at ho'
      subst ho'
      cases hd
    · rw [Ctx.set_own_of_ne _ _ hk'] at ho'
      exact h.home a k' o' ho' hd
  · intro k' b hst hk'
    rw [(hs k').2.1] at hk'
    exact h.staleHome k' b hst hk'

omit h

/-! ### Operations -/

theorem sum_update (f : Ctx → ℕ) : ∑ b, f (update G a g b) + f (G a) = ∑ b, f (G b) + f g := by
  have hsum : ∀ F : Slot → ℕ, ∑ b, F b = F a + ∑ b ∈ Finset.univ.erase a, F b := fun F =>
    (Finset.add_sum_erase _ F (Finset.mem_univ a)).symm
  have hrest : ∑ b ∈ Finset.univ.erase a, f (update G a g b) = ∑ b ∈ Finset.univ.erase a, f (G b) := by
    refine Finset.sum_congr rfl fun b hb => ?_
    rw [update_of_ne (Finset.ne_of_mem_erase hb)]
  rw [hsum, hsum, hrest, update_self]
  ring

/-- A step that leaves the buffers and the disk, and what the process knows of them. -/
theorem Sound.plain {w' : Option Slot} (h : Sound L s G stale w j) (hbuf : s'.buf = s.buf)
    (hdisk : s'.disk = s.disk) (hlru : s'.lru = s.lru) (hptrs : s'.ptrs = s.ptrs) (hpins : s'.pins = s.pins)
    (hown : g.own = (G a).own) (hloose : g.loose = (G a).loose)
    (hpinned : j'.pinned s'.lh = j.pinned s.lh) (hpending : ∀ b ∈ j.pending s.lh, b ∈ j'.pending s'.lh)
    (hops : Ops s' (update G a g) w' j') (hok : JobOk L s' j')
    (hhome : ∀ k o, g.own k = some o → o.dirty = true → g.DirtyOk L o.block) :
    Sound L s' (update G a g) stale w' j' where
  threads := h.threads.frame (by simp [hbuf]) hdisk hptrs hown hloose
  cache := by
    rw [hpinned]
    exact h.cache.frame (by simp [hbuf]) hlru hptrs hpins
  clean := by
    have hc : Clean s' _ _ stale := h.clean.frame (a := a) (g := g) (by simp [hbuf]) hdisk fun k o ho hd => ⟨o, hown ▸ ho, hd⟩
    exact fun k b hb hv hd hP => hc k b hb hv hd fun hP' => hP (hpending b hP')
  ops := hops
  ok := hok
  home := h.home_update hhome
  staleHome := by
    rw [hbuf]
    exact h.staleHome

theorem Sound.setLogged (h : Sound L s (update G a g) stale w j) (l : List ℕ) :
    Sound L s (update G a { g with logged := l }) stale w j := by
  have hown : (update G a g a) = g := update_self ..
  have := h.plain (a := a) (g := { g with logged := l }) rfl rfl rfl rfl rfl (by rw [hown]) (by rw [hown]) rfl
    (fun _ => id) (h.ops.frame rfl rfl rfl rfl (by rw [hown]) (by rw [hown]) (by rw [hown]) (by rw [hown])) h.ok
    fun k o ho hd => by
      have hok := h.home a k o (by rw [hown]; exact ho) hd
      rw [hown] at hok
      exact hok
  rwa [update_idem] at this

include h

/-- An operation begins or ends, and nobody commits. -/
theorem Sound.count {n : ℕ} {b : Bool} (hw : w = none)
    (hn : n = ∑ c, if (update G a { G a with inOp := b } c).inOp then 1 else 0)
    (hd : ∀ k o, (G a).own k = some o → o.dirty = true → Ctx.DirtyOk L { G a with inOp := b } o.block) :
    Sound L { s with outstanding := n } (update G a { G a with inOp := b }) stale w j := by
  refine h.plain rfl rfl rfl rfl rfl rfl rfl rfl (fun _ => id) ?_
    (h.ok.frame rfl rfl rfl rfl fun _ _ _ _ _ _ hk => ⟨hk, rfl⟩) hd
  refine ⟨hn, ?_, h.ops.idle, fun hw' => absurd hw hw', h.ops.committing, h.ops.booting, ?_, ?_, h.ops.installing⟩
  · exact (forall_update_iff G fun b c => c.job = if w = some b then j else .none).mpr
      ⟨h.ops.job a, fun b _ => h.ops.job b⟩
  · exact (forall_update_iff G fun b c => c.boot = true ↔ w = some b ∧ s.ready = false).mpr
      ⟨h.ops.boot a, fun b _ => h.ops.boot b⟩
  · exact (forall_update_iff G fun b c => c.inst = true ↔ w = some b ∧ s.installing = true).mpr
      ⟨h.ops.inst a, fun b _ => h.ops.inst b⟩

theorem Sound.beginOp (hr : s.ready = true) (hc : s.committing = false)
    (hin : (G a).inOp = false) :
    Sound L { s with outstanding := s.outstanding + 1 } (update G a { G a with inOp := true }) stale w j := by
  have hw : w = none := by
    by_contra hw
    rw [(h.ops.committing hr).mpr hw] at hc
    cases hc
  have hsum := sum_update (G := G) (a := a) (g := { G a with inOp := true }) fun g => if g.inOp then 1 else 0
  rw [← h.ops.ops] at hsum
  simp only [hin, Bool.false_eq_true, if_false, if_true, add_zero] at hsum
  exact h.count hw hsum.symm fun k o ho hd => ⟨(h.home a k o ho hd).1, fun _ => .inl rfl⟩

theorem Sound.outstanding_sub (hin : (G a).inOp = true) (g' : Ctx) (hg : g'.inOp = false) :
    s.outstanding - 1 = ∑ b, if (update G a g' b).inOp then 1 else 0 := by
  have hsum := sum_update (G := G) (a := a) (g := g') fun g => if g.inOp then 1 else 0
  rw [← h.ops.ops] at hsum
  simp only [hin, hg, Bool.false_eq_true, if_false, if_true, add_zero] at hsum
  omega

theorem Sound.endOp (hin : (G a).inOp = true) (hsaved : (G a).Saved) :
    Sound L { s with outstanding := s.outstanding - 1 } (update G a { G a with inOp := false }) stale w j := by
  refine h.count (h.ops.none_of_inOp hin).1 (h.outstanding_sub hin _ rfl) fun k o ho hd => ?_
  rw [hsaved k o ho] at hd
  cases hd

theorem Sound.endOp_commit (hr : s.ready = true) (hin : (G a).inOp = true)
    (hsaved : (G a).Saved)
    (hlast : s.outstanding - 1 = 0) :
    LogOk L s.lh ∧ Sound L { s with outstanding := s.outstanding - 1, committing := true }
      (update G a { G a with inOp := false, job := .log s.lh 0 }) stale (some a) (.log s.lh 0) := by
  obtain ⟨rfl, rfl⟩ := h.ops.none_of_inOp hin
  have hsum := h.outstanding_sub hin { G a with inOp := false, job := .log s.lh 0 } rfl
  have hquiet : ∀ b, (update G a { G a with inOp := false, job := .log s.lh 0 } b).inOp = false := by
    intro b
    rw [hlast] at hsum
    have := (Finset.sum_eq_zero_iff.mp hsum.symm) b (Finset.mem_univ b)
    simpa using this
  have hboot : ∀ b, (G b).boot = false := by
    intro b
    have := h.ops.boot b
    simpa using this
  have hinst : ∀ b, (G b).inst = false := by
    intro b
    have := h.ops.inst b
    simpa using this
  have hni : s.installing = false := by
    by_contra hi
    exact h.ops.installing (by simpa using hi) rfl
  refine ⟨h.ok.1, h.plain rfl rfl rfl rfl rfl rfl rfl rfl (fun _ => id) ?_ ?_ fun k o ho hd => ?_⟩
  rotate_left 2
  · rw [hsaved k o ho] at hd
    cases hd
  · refine ⟨hsum, ?_, by simp, fun _ => hquiet, fun _ => by simp, ?_, ?_, ?_, ?_⟩
    · refine (forall_update_iff G fun b c => c.job = if some a = some b then Job.log s.lh 0 else .none).mpr
        ⟨by simp, fun b hb => ?_⟩
      rw [h.ops.job b]
      simp [Ne.symm hb]
    · intro hr'
      change s.ready = false at hr'
      rw [hr] at hr'
      cases hr'
    · refine (forall_update_iff G fun b c => c.boot = true ↔ some a = some b ∧ s.ready = false).mpr
        ⟨by simp [hboot a, hr], fun b _ => by simp [hboot b, hr]⟩
    · refine (forall_update_iff G fun b c => c.inst = true ↔ some a = some b ∧ s.installing = true).mpr
        ⟨by simp [hinst a, hni], fun b _ => by simp [hinst b, hni]⟩
    · intro _
      simp
  · exact ⟨rfl, h.ok.1, h.ok.2, Nat.zero_le _, hr, fun i b k hi => absurd hi (Nat.not_lt_zero i)⟩

omit h

/-! ### Commit and recovery -/

include h

/-- `read_head`: what is read is the header. -/
theorem Sound.setLh_boot (hj : (G a).job = .boot) (hd : (G a).Holds L.start d) :
    LogOk L (header d) ∧ Sound L { s with lh := header d }
      (update G a { G a with job := .install (header d) 0 0 true }) stale w (.install (header d) 0 0 true) := by
  obtain ⟨rfl, rfl⟩ := h.ops.worker hj (by simp)
  have hdisk := h.disk_of_holds hd not_home_start
  have hok : LogOk L (header d) := hdisk ▸ h.ok.2.1
  refine ⟨hok, h.plain rfl rfl rfl rfl rfl rfl rfl rfl (fun b hb => by cases hb) ?_ ?_ fun k o _ _ =>
    Ctx.dirtyOk_of_install rfl⟩
  · exact h.ops.next (by simp) rfl rfl rfl rfl rfl rfl rfl rfl
  · refine ⟨rfl, hok, ?_, Nat.zero_le _, le_rfl, fun i b hi => absurd hi (Nat.not_lt_zero i), fun _ => ⟨rfl, rfl⟩,
      fun _ => h.ok.2.2, fun _ => rfl⟩
    change header (s.disk L.start) = header d
    rw [hdisk]

theorem Sound.setLh_nil {u : ℕ} {r : Bool}
    (hj : (G a).job = .install l l.length u r) (hu : r = false → u = l.length) (hsaved : (G a).Saved) :
    Sound L { s with lh := [] } (update G a { G a with job := .clear l }) stale w (.clear l) := by
  obtain ⟨rfl, rfl⟩ := h.ops.worker hj (by simp)
  obtain ⟨-, hlog, hhead, -, -, hdone, -⟩ := h.ok
  refine h.plain rfl rfl rfl rfl rfl rfl rfl ?_ (fun b hb => ?_) ?_ ⟨rfl, hlog, hhead, hdone⟩ fun k o ho hd => ?_
  · cases r with
    | true => rfl
    | false =>
      rw [hu rfl]
      simp [Job.pinned]
  · simp [Job.pending] at hb
  · exact h.ops.next (by simp) rfl rfl rfl rfl rfl rfl rfl rfl
  · rw [hsaved k o ho] at hd
    cases hd

omit h

/-- `install_trans` starts, or is over. -/
theorem Ops.setInstalling (h : Ops s G (some a) j) (i : Bool) :
    Ops { s with installing := i } (update G a { G a with inst := i }) (some a) j := by
  refine ⟨h.ops_update rfl, ?_, h.idle, ?_, h.committing, h.booting, ?_, ?_, fun _ => by simp⟩
  · exact (forall_update_iff G fun b c => c.job = if some a = some b then _ else Job.none).mpr
      ⟨h.job a, fun b _ => h.job b⟩
  · exact fun hw => (forall_update_iff G fun _ c => c.inOp = false).mpr ⟨h.quiet hw a, fun b _ => h.quiet hw b⟩
  · exact (forall_update_iff G fun b c => c.boot = true ↔ some a = some b ∧ s.ready = false).mpr
      ⟨h.boot a, fun b _ => h.boot b⟩
  · refine (forall_update_iff G fun b c => c.inst = true ↔ some a = some b ∧ i = true).mpr ⟨by simp, fun b hb => ?_⟩
    have := h.inst b
    simpa [Ne.symm hb] using this

include h

theorem Sound.installing_true {r : Bool} (hj : (G a).job = .install l 0 0 r) :
    Sound L { s with installing := true } (update G a { G a with inst := true }) stale w j := by
  obtain ⟨rfl, rfl⟩ := h.ops.worker hj (by simp)
  refine h.plain rfl rfl rfl rfl rfl rfl rfl rfl (fun _ => id) (h.ops.setInstalling true) ?_
    fun k o ho hd => h.home a k o ho hd
  obtain ⟨h1, h2, h3, h4, h5, h6, -, h7⟩ := h.ok
  refine ⟨h1, h2, h3, h4, h5, h6, fun hi => ?_, h7⟩
  cases hi

theorem Sound.installing_false (hj : (G a).job = .clear l) :
    Sound L { s with installing := false } (update G a { G a with inst := false }) stale w j := by
  obtain ⟨rfl, rfl⟩ := h.ops.worker hj (by simp)
  exact h.plain rfl rfl rfl rfl rfl rfl rfl rfl (fun _ => id) (h.ops.setInstalling false) h.ok
    fun k o ho hd => h.home a k o ho hd

theorem Sound.lh_of_done (hj : (G a).job = .done ∨ (G a).job = .log [] 0) : s.lh = [] := by
  have hne : (G a).job ≠ .none := by
    rcases hj with hj | hj <;> simp [hj]
  obtain ⟨rfl, rfl⟩ := h.ops.worker rfl hne
  have hok := h.ok
  rcases hj with hj | hj <;> rw [hj] at hok <;> exact hok.1

/-- The process is done: nobody has a job any more. -/
theorem Sound.finish (hj : (G a).job = .done ∨ (G a).job = .log [] 0)
    (hi : (G a).inst = false) (hsaved : (G a).Saved) (hbuf : s'.buf = s.buf) (hdisk : s'.disk = s.disk) (hlru : s'.lru = s.lru)
    (hptrs : s'.ptrs = s.ptrs) (hpins : s'.pins = s.pins) (hlh : s'.lh = s.lh)
    (hout : s'.outstanding = s.outstanding) (hinst : s'.installing = s.installing) (hr : s'.ready = true)
    (hc : s'.committing = false) : Sound L s' (update G a { G a with job := .none, boot := false }) stale none .none := by
  have hne : (G a).job ≠ .none := by
    rcases hj with hj | hj <;> simp [hj]
  obtain ⟨rfl, rfl⟩ := h.ops.worker rfl hne
  have hfacts : s.lh = [] ∧ header (s.disk L.start) = [] ∧ (G a).job.pinned s.lh = [] ∧ (G a).job.pending s.lh = [] := by
    have hok := h.ok
    rcases hj with hj | hj
    · rw [hj] at hok ⊢
      exact ⟨hok.1, hok.2.1, rfl, rfl⟩
    · rw [hj] at hok ⊢
      exact ⟨hok.1, hok.2.2.1, hok.1, hok.1⟩
  obtain ⟨hnil, hhead, hpin, hpend⟩ := hfacts
  have hni : s.installing = false := by
    cases hs : s.installing with
    | false => rfl
    | true =>
      have := (h.ops.inst a).mpr ⟨rfl, hs⟩
      rw [hi] at this
      cases this
  refine h.plain hbuf hdisk hlru hptrs hpins rfl rfl ?_ ?_ ?_ ?_ ?_
  · rw [hpin, hlh, hnil]
    rfl
  · intro b hb
    rw [hpend] at hb
    cases hb
  · refine ⟨?_, ?_, by simp, fun hw => absurd rfl hw, fun _ => by simp [hc], fun hr' => ?_, ?_, ?_, ?_⟩
    · rw [hout]
      exact h.ops.ops_update rfl
    · refine (forall_update_iff G fun b c => c.job = if none = some b then Job.none else Job.none).mpr
        ⟨by simp, fun b hb => ?_⟩
      rw [h.ops.job b]
      simp [Ne.symm hb]
    · rw [hr] at hr'
      cases hr'
    · refine (forall_update_iff G fun b c => c.boot = true ↔ none = some b ∧ s'.ready = false).mpr
        ⟨by simp, fun b hb => ?_⟩
      have := h.ops.boot b
      simpa [Ne.symm hb] using this
    · refine (forall_update_iff G fun b c => c.inst = true ↔ none = some b ∧ s'.installing = true).mpr
        ⟨by simp [hi], fun b hb => ?_⟩
      have := h.ops.inst b
      simpa [Ne.symm hb] using this
    · intro hi'
      rw [hinst, hni] at hi'
      cases hi'
  · refine ⟨?_, by rw [hdisk, hhead]⟩
    rw [hlh, hnil]
    exact logOk_nil
  · intro k o ho hd
    rw [hsaved k o ho] at hd
    cases hd

omit h

/-! ### Any command -/

/-- What a command does to the operations and to `log.lh`, of a process that knew `g` and then knows `g'`. -/
inductive OpStep (cap : Option ℕ) (s s' : Store) (w w' : Option Slot) (g g' : Ctx) : Prop where
  /-- Nothing, unless the process commits or recovers. -/
  | keep (hi : g'.inOp = g.inOp) (hl : g'.logged = g.logged) (ho : s'.outstanding = s.outstanding)
    (hlh : s'.lh = s.lh ∧ w' = w ∧ s'.ready = s.ready ∨ g.job ≠ .none ∧ (s'.lh = [] ∨ s'.ready = false))
  /-- `begin_op`. -/
  | beginOp (hi : g.inOp = false) (hi' : g'.inOp = true) (hl : g'.logged = []) (hlh : s'.lh = s.lh) (hw : w = none)
    (ho : s'.outstanding = s.outstanding + 1) (hr : s.ready = true)
    (hroom : s.lh.length + (s.outstanding + 1) * MAXOPBLOCKS ≤ LOGSIZE)
  /-- `end_op`. -/
  | endOp (hi : g.inOp = true) (hi' : g'.inOp = false) (hlh : s'.lh = s.lh) (hr : s.ready = true)
    (ho : s'.outstanding ≠ 0 ∨ w' ≠ none)
  /-- `log_write`. -/
  | logWrite (b : ℕ) (hi : g.inOp = true) (hi' : g'.inOp = true) (hl : g'.logged = g.logged.insert b)
    (hcap : ∀ n, cap = some n → (g.logged.insert b).length ≤ n) (hlh : s'.lh = if b ∈ s.lh then s.lh else s.lh ++ [b])
    (hr : s'.ready = s.ready) (ho : s'.outstanding ≠ 0)

/-- What is so after command `c` of process `a`, which knows `g` then. -/
structure After (L : LogArea) (strict : Bool) (cap : Option ℕ) (c : Cmd) (s : Store) (G : Slot → Ctx)
    (stale : BufNo → Prop) (w : Option Slot) (a : Slot) (g : Ctx) (s' : Store) (stale' : BufNo → Prop) (w' : Option Slot)
    (j' : Job) : Prop where
  sound : Sound L s' (update G a g) stale' w' j'
  worker : w' = w ∨ s'.ready = true
  ready : s.ready = true → s'.ready = true
  /-- A buffer is stale when it is given back changed, until it is logged or recycled. -/
  stale : ∀ k, stale' k → stale k ∧ (s'.buf k).block = (s.buf k).block ∧ c ≠ .logWrite k ∨
    strict = false ∧ c = .releasesleep k ∧ ∃ o, (G a).own k = some o ∧ o.dirty = true
  op : OpStep cap s s' w w' (G a) g

theorem After.not_stale {c : Cmd} {stale' : BufNo → Prop} {w' : Option Slot}
    (h : After L strict cap c s G stale w a g s' stale' w' j') (hs : strict = true) (hk : stale' k) : stale k := by
  rcases h.stale k hk with hk | ⟨hf, -⟩
  · exact hk.1
  · rw [hs] at hf
    cases hf

theorem Sound.after {c : Cmd}
    (h : Sound L s' (update G a g) stale w j') (hr : s'.ready = s.ready) (hi : g.inOp = (G a).inOp)
    (hl : g.logged = (G a).logged) (hlh : s'.lh = s.lh) (ho : s'.outstanding = s.outstanding)
    (hb : ∀ k, (s'.buf k).block = (s.buf k).block) (hc : ∀ k, c ≠ .logWrite k) :
    After L strict cap c s G stale w a g s' stale w j' :=
  ⟨h, .inl rfl, fun hs => hr.trans hs, fun k hk => .inl ⟨hk, hb k, hc k⟩, .keep hi hl ho (.inl ⟨hlh, rfl, hr⟩)⟩

include h

/-- A buffer whose block has to be installed is as it should be. -/
theorem Sound.unstale {b : ℕ} (hk : (s.buf k).block = some b) (hb : b ∈ j.pending s.lh) :
    Sound L s G (fun x => stale x ∧ x ≠ k) w j := by
  refine { h with clean := ?_, staleHome := fun x c hx => h.staleHome x c hx.1 }
  intro x c hc hv hd hP hs
  refine h.clean x c hc hv hd hP fun hx => hs ⟨hx, ?_⟩
  rintro rfl
  rw [hk, Option.some.injEq] at hc
  exact hP (hc ▸ hb)

/-- **A command keeps the invariant**, if it keeps to the rules. -/
theorem Sound.exec (hr : s.ready = true ∨ (G a).job ≠ .none) {c : Cmd}
    {Q : c.Res → Ctx → Prop} (hq : rules L strict cap c Q (G a)) {r : c.Res} (he : s.exec L a c = some (r, s')) :
    ∃ g stale' w' j', Q r g ∧ After L strict cap c s G stale w a g s' stale' w' j' := by
  cases c with
  | bget b =>
    obtain ⟨hl, hmay, hq⟩ := hq
    simp only [Store.exec] at he
    split at he
    · rename_i k hk
      have hb : (s.buf k).block = some b := by
        have := List.find?_some hk
        simpa using this
      cases he
      refine ⟨_, _, _, _, hq _ fun hboot => ?_, (h.bget_hit hb hl).after (s := s) rfl rfl rfl rfl rfl (fun _ => s.setBuf_block rfl) fun _ => by simp⟩
      -- the process that recovers does not hold the block
      refine Option.eq_none_iff_forall_ne_some.mpr fun o ho => (hmay hboot).1 r o ho ?_
      have := (h.threads.own a r o ho).block
      rw [hb, Option.some.injEq] at this
      exact this.symm
    · rename_i hmiss
      split at he
      · rename_i k hk
        have hb : ∀ k', (s.buf k').block ≠ some b := by
          intro k'
          have := List.find?_eq_none.mp hmiss k' (h.cache.lru k')
          simpa using this
        have h0 : (s.buf k).refcnt = 0 := by
          have := List.find?_some hk
          simpa using this
        cases he
        have hown := (Ctx.refs_eq_zero.mp ((h.unused h0).1 a)).1
        exact ⟨_, _, _, _, hq _ fun _ => hown, h.bget_miss hb h0 hl, .inl rfl, id,
          fun x hx => .inl ⟨hx.1, congrArg Buf.block (s.setBuf_buf_of_ne _ hx.2), by simp⟩, .keep rfl rfl rfl (.inl ⟨rfl, rfl, rfl⟩)⟩
      · cases he
  | acquiresleep k =>
    obtain ⟨b, hl, -, hq⟩ := hq
    simp only [Store.exec] at he
    split at he
    · rename_i hlock
      cases he
      exact ⟨_, _, _, _, hq (h.threads.own_none hlock a), (h.acquiresleep hlock hl).after (s := s) rfl rfl rfl rfl rfl (fun _ => s.setBuf_block rfl) fun _ => by simp⟩
    · cases he
  | valid k =>
    obtain ⟨o, ho, hq1, hq2⟩ := hq
    cases he
    have hown := h.threads.own a k o ho
    have hlook := h.look ho { o with valid := some (s.buf k).valid } rfl rfl
      { hown with valid := fun v hv => by simpa using hv }
    cases hv : (s.buf k).valid with
    | true =>
      rw [hv] at hlook
      refine ⟨_, _, _, _, hq1 fun hf => ?_, hlook.after (s := s) rfl rfl rfl rfl rfl (fun _ => rfl) fun _ => by simp⟩
      rw [hown.valid _ hf] at hv
      cases hv
    | false =>
      rw [hv] at hlook
      refine ⟨_, _, _, _, hq2 fun hf => ?_, hlook.after (s := s) rfl rfl rfl rfl rfl (fun _ => rfl) fun _ => by simp⟩
      rw [hown.valid _ hf] at hv
      cases hv
  | readDisk k =>
    obtain ⟨o, ho, hv, hq⟩ := hq
    obtain ⟨b, hb, he⟩ := Option.map_eq_some_iff.mp he
    rw [(h.threads.own a k o ho).block, Option.some.injEq] at hb
    subst hb
    cases he
    exact ⟨_, _, _, _, hq, (h.readDisk ho hv).after (s := s) rfl rfl rfl rfl rfl (fun _ => s.setBuf_block rfl) fun _ => by simp⟩
  | writeDisk k =>
    obtain ⟨o, d, j', ho, -, hd, hm, hq⟩ := hq
    have hown := h.threads.own a k o ho
    simp only [Store.exec, hown.lock, if_true, hown.block, Option.map_some, Option.some.injEq] at he
    cases he
    rw [hown.know d hd]
    exact ⟨_, _, _, _, hq, (h.writeDisk ho hd hm).after rfl rfl rfl rfl rfl (fun _ => rfl) fun _ => by simp⟩
  | data k =>
    obtain ⟨o, ho, -, hq⟩ := hq
    cases he
    have hown := h.threads.own a k o ho
    have hlook := h.look ho { o with know := some (s.buf k).data } rfl rfl
      { hown with know := fun d hd => by simpa using hd }
    refine ⟨_, _, _, _, hq (s.buf k).data ?_, hlook.after (s := s) rfl rfl rfl rfl rfl (fun _ => rfl) fun _ => by simp⟩
    cases hk : o.know with
    | none => exact .inl rfl
    | some d => exact .inr (by rw [hown.know d hk])
  | setData k d =>
    obtain ⟨o, ho, hv, hm, hq⟩ := hq
    cases he
    exact ⟨_, _, _, _, hq, (h.setData ho hv hm).after (s := s) rfl rfl rfl rfl rfl (fun _ => s.setBuf_block rfl) fun _ => by simp⟩
  | releasesleep k =>
    obtain ⟨o, ho, hl, hd, hq⟩ := hq
    simp only [Store.exec, (h.threads.own a k o ho).lock, if_true, Option.some.injEq] at he
    cases he
    refine ⟨_, _, _, _, hq, h.releasesleep ho hl fun hj => hd (.inl hj), .inl rfl, id, ?_,
      .keep rfl rfl rfl (.inl ⟨rfl, rfl, rfl⟩)⟩
    rintro k' (hs | ⟨rfl, hs⟩)
    · exact .inl ⟨hs, s.setBuf_block rfl, by simp⟩
    · refine .inr ⟨?_, rfl, o, ho, hs⟩
      by_contra hst
      rw [hd (.inr (by simpa using hst))] at hs
      cases hs
  | unref k =>
    obtain ⟨b, hl, hq⟩ := hq
    cases he
    refine ⟨_, _, _, _, hq, (h.unref hl fun k' => ?_).after (s := s) rfl rfl rfl rfl rfl
      (fun _ => s.setBuf_block (x := { s.buf k with refcnt := (s.buf k).refcnt - 1 }) rfl) fun _ => by simp⟩
    split
    · by_cases hk' : k' = k
      · simp [hk']
      · exact List.mem_cons_of_mem _ ((List.mem_erase_of_ne hk').mpr (h.cache.lru k'))
    · exact h.cache.lru k'
  | bunpin k =>
    obtain ⟨o, l, n, u, ho, hj, hi, hu, hb, hq⟩ := hq
    cases he
    exact ⟨_, _, _, _, hq, (h.bunpin ho hj hi hu hb).after rfl rfl rfl rfl rfl
      (fun _ => s.setBuf_block (x := { s.buf k with refcnt := (s.buf k).refcnt - 1 }) rfl) fun _ => by simp⟩
  | beginOp =>
    obtain ⟨hin, hj, hq⟩ := hq
    have hready : s.ready = true := hr.resolve_right fun hne => hne hj
    simp only [Store.exec] at he
    split at he
    · rename_i hc
      cases he
      have hw : w = none := by
        by_contra hw
        have := (h.ops.committing hready).mpr hw
        rw [hc.1] at this
        cases this
      exact ⟨_, _, _, _, hq, (h.beginOp hready hc.1 hin).setLogged [], .inl rfl, id, fun _ hk => .inl ⟨hk, rfl, by simp⟩,
        .beginOp hin rfl rfl rfl hw rfl hready hc.2⟩
    · cases he
  | endOp =>
    obtain ⟨hin, hj, hsaved, hq1, hq2⟩ := hq
    have hready : s.ready = true := hr.resolve_right fun hne => hne hj
    simp only [Store.exec] at he
    split at he
    · cases he
    · split at he
      · rename_i hlast
        cases he
        obtain ⟨hlog, hs⟩ := h.endOp_commit hready hin hsaved hlast
        exact ⟨_, _, _, _, hq2 _ hlog, hs, .inr hready, id, fun _ hk => .inl ⟨hk, rfl, by simp⟩,
          .endOp hin rfl rfl hready (.inr (by simp))⟩
      · rename_i hlast
        cases he
        exact ⟨_, _, _, _, hq1, h.endOp hin hsaved, .inl rfl, id, fun _ hk => .inl ⟨hk, rfl, by simp⟩,
          .endOp hin rfl rfl hready (.inl hlast)⟩
  | logWrite k =>
    obtain ⟨o, ho, hin, hj, hv, hb, hcap, hq⟩ := hq
    simp only [Store.exec] at he
    split at he
    · rename_i hc
      obtain ⟨b, hob, he⟩ := Option.map_eq_some_iff.mp he
      rw [(h.threads.own a k o ho).block, Option.some.injEq] at hob
      subst hob
      split at he
      · rename_i hmem
        cases he
        have hs := (h.logWrite_absorb ho hin hmem).setLogged ((G a).logged.insert o.block)
        obtain ⟨-, rfl⟩ := h.ops.none_of_inOp hin
        refine ⟨_, _, _, _, hq, hs.unstale (h.threads.own a k o ho).block hmem, .inl rfl, id, fun x hx => ?_,
          .logWrite o.block hin hin rfl hcap (if_pos hmem).symm rfl (by omega)⟩
        exact .inl ⟨hx.1, rfl, by simpa using hx.2.symm⟩
      · rename_i hmem
        cases he
        have ho' : s.outstanding ≠ 0 := by omega
        have hs := (h.logWrite_append ho hin hv hb hmem hc.1 hc.2.1).setLogged ((G a).logged.insert o.block)
        obtain ⟨-, rfl⟩ := h.ops.none_of_inOp hin
        have hblock : ∀ x, ((s.setBuf k { s.buf k with refcnt := (s.buf k).refcnt + 1 }).buf x).block = (s.buf x).block :=
          fun x => s.setBuf_block rfl
        refine ⟨_, _, _, _, hq, hs.unstale (k := k) (b := o.block) ?_ ?_, .inl rfl, id, fun x hx => ?_,
          .logWrite o.block hin hin rfl hcap (if_neg hmem).symm rfl ho'⟩
        · exact (hblock k).trans (h.threads.own a k o ho).block
        · exact List.mem_append_right _ (List.mem_singleton_self _)
        · exact .inl ⟨hx.1, hblock x, by simpa using hx.2.symm⟩
    · cases he
  | lh =>
    obtain ⟨l, hl, hq⟩ := hq
    cases he
    have hne : (G a).job ≠ .none := by
      intro hj
      rw [hj] at hl
      cases hl
    obtain ⟨rfl, hj⟩ := h.ops.worker rfl hne
    have hlh : s.lh = l := by
      have hok := h.ok
      rw [hj] at hok
      cases hg : (G a).job <;> rw [hg] at hl hok <;> cases hl <;> exact hok.1
    have hs : Sound L s (update G a (G a)) stale (some a) j := by rwa [update_eq_self]
    exact ⟨_, _, _, _, hlh ▸ hq, hs.after (s := s) rfl rfl rfl rfl rfl (fun _ => rfl) fun _ => by simp⟩
  | setLh l =>
    cases he
    rcases hq with ⟨hj, ⟨d, hd, rfl⟩, hq⟩ | ⟨l0, u, r, hj, -, rfl, hu, hs, hq⟩
    · obtain ⟨hlog, hs⟩ := h.setLh_boot hj hd
      refine ⟨_, _, _, _, hq hlog, hs, .inl rfl, id, fun _ hk => .inl ⟨hk, rfl, by simp⟩,
        .keep rfl rfl rfl (.inr ⟨by simp [hj], .inr ?_⟩)⟩
      obtain ⟨rfl, rfl⟩ := h.ops.worker hj (by simp)
      exact h.ok.2.2
    · exact ⟨_, _, _, _, hq, h.setLh_nil hj hu hs, .inl rfl, id, fun _ hk => .inl ⟨hk, rfl, by simp⟩,
        .keep rfl rfl rfl (.inr ⟨by simp [hj], .inl rfl⟩)⟩
  | endCommit =>
    obtain ⟨hj, hi, hb, hs, hq⟩ := hq
    cases he
    have hne : (G a).job ≠ .none := by
      rcases hj with hj | hj <;> simp [hj]
    have hready : s.ready = true := by
      obtain ⟨hw, -⟩ := h.ops.worker rfl hne
      cases hr' : s.ready with
      | true => rfl
      | false =>
        rw [(h.ops.boot a).mpr ⟨hw, hr'⟩] at hb
        cases hb
    have hfin : Sound L { s with committing := false } _ stale _ _ :=
      h.finish hj hi hs rfl rfl rfl rfl rfl rfl rfl rfl hready rfl
    have hg : ({ G a with job := .none, boot := false } : Ctx) = { G a with job := .none } := by simp [hb]
    rw [hg] at hfin
    exact ⟨_, _, _, _, hq, hfin, .inr hready, fun _ => hready, fun _ hk => .inl ⟨hk, rfl, by simp⟩,
      .keep rfl rfl rfl (.inr ⟨hne, .inl (h.lh_of_done hj)⟩)⟩
  | installing b =>
    cases he
    rcases hq with ⟨⟨l, r, rfl, hj⟩, hq⟩ | ⟨⟨l, rfl, hj⟩, hq⟩
    · exact ⟨_, _, _, _, hq, (h.installing_true hj).after (s := s) rfl rfl rfl rfl rfl (fun _ => rfl) fun _ => by simp⟩
    · exact ⟨_, _, _, _, hq, (h.installing_false hj).after (s := s) rfl rfl rfl rfl rfl (fun _ => rfl) fun _ => by simp⟩
  | ready =>
    obtain ⟨hj, hi, hb, hs, hq⟩ := hq
    cases he
    have hboot := ((h.ops.boot a).mp hb).2
    have hc := (h.ops.booting hboot).2
    have hfin : Sound L { s with ready := true } _ stale _ _ :=
      h.finish (.inl hj) hi hs rfl rfl rfl rfl rfl rfl rfl rfl rfl hc
    exact ⟨_, _, _, _, hq, hfin, .inr rfl, fun _ => rfl, fun _ hk => .inl ⟨hk, rfl, by simp⟩,
      .keep rfl rfl rfl (.inr ⟨by simp [hj], .inl (h.lh_of_done (.inl hj))⟩)⟩

/-- The header on the disk is always that of a transaction. -/
theorem Sound.headerOk : HeaderOk L s.disk := by
  have hok := h.ok
  unfold HeaderOk
  cases j with
  | none =>
    rw [hok.2]
    exact logOk_nil
  | boot => exact hok.2.1
  | log l t =>
    rw [hok.2.2.1]
    exact logOk_nil
  | install l n u r =>
    rw [hok.2.2.1]
    exact hok.2.1
  | clear l =>
    rw [hok.2.2.1]
    exact hok.2.1
  | done =>
    rw [hok.2.1]
    exact logOk_nil

end Steps

/-! ### Runs -/

section Runs

variable {L : LogArea} {strict : Bool} {cap : Option ℕ} {s t : DiskState} {G : Slot → Ctx} {stale : BufNo → Prop} {w : Option Slot}
  {j : Job} {act : Act}

/-- A process that knows nothing. -/
def Ctx.idle : Ctx := ⟨fun _ => none, none, false, .none, false, false, []⟩

/-- What the processes know when the machine starts. -/
def Ctx.atBoot (a : Slot) : Ctx := if a = 0 then { Ctx.idle with job := .boot, boot := true } else .idle

theorem sound_cold {disk : ℕ → Block} (h : HeaderOk L disk) :
    Sound L (.cold disk) Ctx.atBoot (fun _ => False) (some 0) .boot := by
  have hown : ∀ a k, (Ctx.atBoot a).own k = none := by
    intro a k
    unfold Ctx.atBoot
    split <;> rfl
  have hloose : ∀ a, (Ctx.atBoot a).loose = none := by
    intro a
    unfold Ctx.atBoot
    split <;> rfl
  have hin : ∀ a, (Ctx.atBoot a).inOp = false := by
    intro a
    unfold Ctx.atBoot
    split <;> rfl
  refine ⟨⟨?_, ?_, ?_, ?_⟩, ⟨?_, ?_, ?_, ?_, ?_⟩, ?_, ⟨?_, ?_, by simp, fun _ => hin, ?_, ?_, ?_, ?_, ?_⟩, ⟨rfl, h, rfl⟩, ?_, ?_⟩
  · intro a k o ho
    rw [hown] at ho
    cases ho
  · intro a k hl
    cases hl
  · intro a k b hl
    rw [hloose] at hl
    cases hl
  · intro a k
    rw [Ctx.refs, hown, hloose]
    rfl
  · intro k
    simp [Store.cold]
  · intro k k' b hk
    cases hk
  · intro k
    simp [Store.cold, Store.refs]
  · intro k
    simp [Store.cold, pinOf]
  · intro b hb
    cases hb
  · intro k b hk
    cases hk
  · simp [Store.cold, hin]
  · intro a
    unfold Ctx.atBoot
    split
    · rename_i ha
      simp [ha]
    · rename_i ha
      simp [Ne.symm ha, Ctx.idle]
  · intro hr
    cases hr
  · intro _
    exact ⟨by simp, rfl⟩
  · intro a
    unfold Ctx.atBoot
    split
    · rename_i ha
      simp [ha, Store.cold]
    · rename_i ha
      simp [Ne.symm ha, Ctx.idle]
  · intro a
    unfold Ctx.atBoot
    split <;> simp [Ctx.idle, Store.cold]
  · intro hi
    cases hi
  · intro a k o ho
    rw [hown] at ho
    cases ho
  · intro k b hs
    exact hs.elim

/-- What holds in a state of the machine. -/
structure DiskSound (L : LogArea) (strict : Bool) (cap : Option ℕ) (s : DiskState) (G : Slot → Ctx) (stale : BufNo → Prop)
    (w : Option Slot) (j : Job) : Prop where
  sound : Sound L s.store G stale w j
  /-- Each process keeps to the rules. -/
  code : ∀ a, (s.code a).wp (rules L strict cap) Client.Ok (G a)
  /-- Until the log has been recovered the other processes wait. -/
  waiting : s.store.ready = false → ∀ a, w ≠ some a → s.code a = .ret .idle

theorem diskSound_boot {disk : ℕ → Block} (h : HeaderOk L disk) :
    DiskSound L strict cap (.boot L disk) Ctx.atBoot (fun _ => False) (some 0) .boot where
  sound := sound_cold h
  code a := by
    unfold DiskState.boot Ctx.atBoot
    by_cases ha : a = 0
    · simp only [ha, if_true]
      rw [wp_bind]
      exact recoverFromLog_spec rfl rfl rfl (fun _ => rfl) rfl Client.ok_idle
    · simp only [ha, if_false]
      exact Client.ok_idle
  waiting _ a ha := by
    have : a ≠ 0 := fun h => ha (by rw [h])
    simp [DiskState.boot, this]

/-- The step gives back no buffer that was changed and not logged. -/
def ReleasesLogged (s : DiskState) (act : Act) : Prop :=
  ∀ a k c, act = .begin a (.brelse k) → s.code a = .ret c → c.dirty k = false

/-- The step does not make an operation log more than `n` blocks, however often it logs each. -/
def LogsAtMost (n : ℕ) (s : DiskState) (act : Act) : Prop :=
  ∀ a k c b, act = .begin a (.logWrite k) → s.code a = .ret c → c.own k = some b → (c.logged.insert b).length ≤ n

variable {a : Slot}

/-- A process that has something to do waits for recovery, or does it. -/
theorem DiskSound.ready_or_job {c : Cmd} {f : c.Res → Code Client} (h : DiskSound L strict cap s G stale w j)
    (hcode : s.code a = .op c f) : s.store.ready = true ∨ (G a).job ≠ .none := by
  cases hready : s.store.ready with
  | true => exact .inl rfl
  | false =>
    refine .inr fun hj => ?_
    have hwa : w ≠ some a := by
      intro hwa
      have hjob := h.sound.ops.job a
      rw [if_pos hwa, hj] at hjob
      have := h.sound.ops.idle.mpr hjob.symm
      rw [this] at hwa
      cases hwa
    have hidle := h.waiting hready a hwa
    rw [hcode] at hidle
    cases hidle

theorem DiskSound.run {c : Cmd} {f : c.Res → Code Client} {r : c.Res} {st : Store}
    (h : DiskSound L strict cap s G stale w j) (hcode : s.code a = .op c f) (he : s.store.exec L a c = some (r, st)) :
    ∃ g stale' w' j', (G a).Next L c r g ∧ After L strict cap c s.store G stale w a g st stale' w' j' ∧
      DiskSound L strict cap (DiskState.go { s with store := st } a (f r)) (update G a g) stale' w' j' := by
  have hwp := h.code a
  rw [hcode, wp_op] at hwp
  obtain ⟨g, stale', w', j', ⟨hq, hnext⟩, hafter⟩ :=
    h.sound.exec (h.ready_or_job hcode) (rules_next L strict cap hwp) he
  refine ⟨g, stale', w', j', hnext, hafter, hafter.sound, fun b => ?_, fun hready b hb => ?_⟩
  · by_cases hb : b = a
    · subst hb
      simpa [DiskState.go] using hq
    · simpa [DiskState.go, hb] using h.code b
  · change st.ready = false at hready
    have hww : w' = w := hafter.worker.resolve_right fun hr' => by
      rw [hr'] at hready
      cases hready
    have hnr : s.store.ready = false := by
      cases hsr : s.store.ready with
      | false => rfl
      | true =>
        rw [hafter.ready hsr] at hready
        cases hready
    have hidle := h.waiting hnr b (hww ▸ hb)
    have hba : b ≠ a := by
      rintro rfl
      rw [hcode] at hidle
      cases hidle
    simpa [DiskState.go, hba] using hidle

theorem DiskSound.call {c : Client} {call : Call} (h : DiskSound L strict cap s G stale w j)
    (hcode : s.code a = .ret c) (hr : s.store.ready = true) (hok : c.Allows L call)
    (hs : strict = true → ReleasesLogged s (.begin a call)) (hcap : ∀ n, cap = some n → LogsAtMost n s (.begin a call)) :
    DiskSound L strict cap (s.go a (call.code L c)) G stale w j := by
  have hc : c.Ok (G a) := by
    have := h.code a
    rwa [hcode] at this
  refine ⟨h.sound, fun b => ?_, fun hready => ?_⟩
  · by_cases hb : b = a
    · subst hb
      simp only [DiskState.go, update_self]
      exact call_spec hc hok (fun hst k hk => hs hst b k c (by rw [hk]) hcode)
        fun n hn k b' hk hb' => hcap n hn b k c b' (by rw [hk]) hcode hb'
    · simpa [DiskState.go, hb] using h.code b
  · change s.store.ready = false at hready
    rw [hr] at hready
    cases hready

theorem step_cases (h : s.step L act = some t) :
    (∃ a c f r st, act = .run a ∧ s.code a = .op c f ∧ s.store.exec L a c = some (r, st) ∧
      t = DiskState.go { s with store := st } a (f r)) ∨
    (∃ a call c, act = .begin a call ∧ s.code a = .ret c ∧ s.store.ready = true ∧ c.Allows L call ∧
      t = s.go a (call.code L c)) ∨
    act = .crash ∧ t = .boot L s.store.disk := by
  cases act with
  | run a =>
    simp only [DiskState.step] at h
    split at h
    · cases h
    · rename_i c f hcode
      obtain ⟨⟨r, st⟩, he, rfl⟩ := Option.map_eq_some_iff.mp h
      exact .inl ⟨a, c, f, r, st, rfl, hcode, he, rfl⟩
  | «begin» a call =>
    simp only [DiskState.step] at h
    split at h
    · rename_i c hcode
      split at h
      · rename_i hok
        cases h
        exact .inr (.inl ⟨a, call, c, rfl, hcode, hok.1, hok.2, rfl⟩)
      · cases h
    · cases h
  | crash =>
    cases h
    exact .inr (.inr ⟨rfl, rfl⟩)

/-- **A step keeps the invariant**, and with it whatever else starts true and every command keeps. -/
theorem DiskSound.step {P : Store → (Slot → Ctx) → Option Slot → Prop} (h : DiskSound L strict cap s G stale w j)
    (hP : P s.store G w) (hboot : ∀ disk, P (.cold disk) Ctx.atBoot (some 0))
    (hcmd : ∀ c s G stale w j a g s' stale' w' j', Sound L s G stale w j → After L strict cap c s G stale w a g s' stale' w' j' →
      P s G w → P s' (update G a g) w')
    (hstep : s.step L act = some t) (hs : strict = true → ReleasesLogged s act)
    (hcap : ∀ n, cap = some n → LogsAtMost n s act) :
    ∃ G' stale' w' j', DiskSound L strict cap t G' stale' w' j' ∧ P t.store G' w' ∧
      (strict = true → ∀ k, stale' k → stale k) := by
  obtain ⟨a, c, f, r, st, rfl, hcode, he, rfl⟩ | ⟨a, call, c, rfl, hcode, hr, hok, rfl⟩ | ⟨rfl, rfl⟩ := step_cases hstep
  · obtain ⟨g, stale', w', j', -, hafter, h'⟩ := h.run hcode he
    exact ⟨_, stale', w', j', h', hcmd _ _ _ _ _ _ _ _ _ _ _ _ h.sound hafter hP, fun hst _ => hafter.not_stale hst⟩
  · exact ⟨G, stale, w, j, h.call hcode hr hok hs hcap, hP, fun _ _ => id⟩
  · exact ⟨_, _, _, _, diskSound_boot h.sound.headerOk, hboot _, fun _ _ hf => hf.elim⟩

/-- **The invariant**, in every reachable state. -/
theorem sound_of_reachable (h : (diskMachine L).Reachable s) : ∃ G stale w j, DiskSound L false none s G stale w j := by
  apply Reachable.invariant (I := fun s => ∃ G stale w j, DiskSound L false none s G stale w j) _ _ h
  · rintro s ⟨disk, hd, rfl⟩
    exact ⟨_, _, _, _, diskSound_boot hd⟩
  · rintro s act t - ⟨G, stale, w, j, hs⟩ hstep
    obtain ⟨G', stale', w', j', h', -⟩ := hs.step (P := fun _ _ _ => True) trivial (fun _ => trivial)
      (fun _ _ _ _ _ _ _ _ _ _ _ _ _ _ _ => trivial) hstep (fun hf => by cases hf) fun n hn => by cases hn
    exact ⟨G', stale', w', j', h'⟩

end Runs

end Xv6Shmem.Disk
