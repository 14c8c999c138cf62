import Mathlib.Data.List.Perm.Basic
import Xv6Shmem.Devices.Requests

/-!
# The steps of the driver and the device

What each part of `virtio_disk_rw`, each turn of `virtio_disk_intr` and each action of the device does to the
descriptors and the rings: an entry goes from the `avail` ring to the device, from there to the `used` ring, and
the handler takes it from there.

## What is proved

* `sound_alloc_some`, `sound_format`, `sound_ring`, `sound_publish`, `sound_done`, `sound_freeing` — a call.
* `sound_fetch`, `sound_complete` — the device.
* `sound_turn` — the handler clears the flag of the buffer whose request was completed first.
-/

namespace Xv6Shmem.Virtio

open Function LTS Ring

section Steps

variable {P B : Type} [DecidableEq P] {s t : VState P B} {p : P} {x : Pc B} {av us : List (Item B)}

/-! ### Steps of a process -/


/-- **A step of process `p`**, which goes on at `x`. -/
theorem Driver.move (h : Driver s) (hpc : t.pc = update s.pc p x) (hfault : t.fault = none)
    (hlock : x.holds = true ↔ t.lock = some (.proc p))
    (hlocks : ∀ q, q ≠ p → (s.lock = some (.proc q) ↔ t.lock = some (.proc q))) (hlocked : t.locked = s.locked)
    (hbuf : ∀ c, x.call = some c → s.locked c.b = some p)
    (hown : Exclusive (update (fun q => (s.pc q).owns) p x.owns) t.disk.free)
    (hnodup : ∀ i, x.idx = some i → i.all.Nodup) (hothers : ∀ q, q ≠ p → ProcOk t (s.pc q)) (hproc : ProcOk t x) :
    Driver t := by
  have hself : t.pc p = x := by rw [hpc, update_self]
  have hother : ∀ q, q ≠ p → t.pc q = s.pc q := fun q hq => by rw [hpc, update_of_ne hq]
  refine ⟨hfault, fun q => ?_, fun q c => ?_, ?_, fun q i => ?_, fun q => ?_⟩
  · by_cases hq : q = p
    · subst hq
      rw [hself]
      exact hlock
    · rw [hother q hq, ← hlocks q hq]
      exact h.lock q
  · rw [hlocked]
    by_cases hq : q = p
    · subst hq
      rw [hself]
      exact hbuf c
    · rw [hother q hq]
      exact h.buf q c
  · convert hown using 1
    funext q
    by_cases hq : q = p
    · subst hq
      rw [hself, update_self]
    · rw [hother q hq, update_of_ne hq]
  · by_cases hq : q = p
    · subst hq
      rw [hself]
      exact hnodup i
    · rw [hother q hq]
      exact h.nodup q i
  · by_cases hq : q = p
    · subst hq
      rw [hself]
      exact hproc
    · rw [hother q hq]
      exact hothers q hq

theorem Driver.own_same (h : Driver s) (howns : x.owns = (s.pc p).owns) :
    Exclusive (update (fun q => (s.pc q).owns) p x.owns) s.disk.free := by
  have hsame : update (fun q => (s.pc q).owns) p x.owns = fun q => (s.pc q).owns := by
    rw [howns, update_eq_self p (fun q => (s.pc q).owns)]
  rw [hsame]
  exact h.own

theorem pending_iff (hpc : t.pc = update s.pc p x) (hp : ∀ y, Pending t p y ↔ Pending s p y)
    (hq : ∀ q, q ≠ p → ∀ c, (s.pc q).call = some c → t.owned c.b = s.owned c.b) (hblockno : t.blockno = s.blockno) :
    ∀ y, (∃ q, Pending t q y) ↔ ∃ q, Pending s q y := by
  refine fun y => exists_congr fun q => ?_
  by_cases hqp : q = p
  · subst hqp
    exact hp y
  · unfold Pending
    rw [hpc, update_of_ne hqp, hblockno]
    refine exists_congr fun c => exists_congr fun i => and_congr_right fun hw => ?_
    rw [hq q hqp c (Pc.owns_of_waits hw).2.1]

theorem take_eq_some (ht : s.take p x = some t) : s.lock = none ∧ t = { s.goto p x with lock := some (.proc p) } := by
  rw [VState.take, Option.ite_none_right_eq_some] at ht
  exact ⟨ht.1, (Option.some.inj ht.2).symm⟩

variable (hD : Driver s) (hR : Rings s av us)

include hD hR

/-- Process `p` goes on at `x`, where it has the same descriptors and waits for the same, and it takes or gives back
the lock. -/
theorem sound_goto {l : Option (Holder P)} (hlock : x.holds = true ↔ l = some (.proc p))
    (hlocks : ∀ q, q ≠ p → (s.lock = some (.proc q) ↔ l = some (.proc q)))
    (hbuf : ∀ c, x.call = some c → s.locked c.b = some p) (howns : x.owns = (s.pc p).owns)
    (hnodup : ∀ i, x.idx = some i → i.all.Nodup) (hwaits : x.waits = (s.pc p).waits) (hproc : ProcOk s x) :
    Driver { s.goto p x with lock := l } ∧ Rings { s.goto p x with lock := l } av us := by
  have hleaves : ∀ y : Pc B, ProcOk s y → ProcOk { s.goto p x with lock := l } y := fun y hy =>
    hy.leaves_all ⟨fun _ _ => rfl, fun _ _ => rfl, fun _ _ => rfl, fun _ _ => rfl⟩ (fun _ _ => rfl) rfl
  constructor
  · exact hD.move rfl hD.fault hlock hlocks rfl hbuf (hD.own_same howns) hnodup (fun q _ => hleaves _ (hD.proc q))
      (hleaves x hproc)
  · refine hR.frame rfl rfl rfl rfl rfl (fun _ _ => rfl) (pending_iff rfl (fun y => ?_) (fun _ _ _ _ => rfl) rfl)
    simp only [Pending, VState.goto, update_self, hwaits]

theorem sound_take (ht : s.take p x = some t) (hholds : x.holds = true)
    (hbuf : x.call = (s.pc p).call) (howns : x.owns = (s.pc p).owns) (hidx : x.idx = (s.pc p).idx)
    (hwaits : x.waits = (s.pc p).waits) (hproc : ProcOk s x) : Driver t ∧ Rings t av us := by
  obtain ⟨hfree, rfl⟩ := take_eq_some ht
  refine sound_goto hD hR (by simp [hholds]) (fun q hq => ?_) (fun c hc => hD.buf p c (hbuf ▸ hc)) howns
    (fun i hi => hD.nodup p i (hidx ▸ hi)) hwaits hproc
  simp [hfree, Ne.symm hq]

theorem sound_drop (hp : s.lock = some (.proc p)) (hholds : x.holds = false)
    (hbuf : ∀ c, x.call = some c → (s.pc p).call = some c) (howns : x.owns = (s.pc p).owns)
    (hidx : ∀ i, x.idx = some i → (s.pc p).idx = some i) (hwaits : x.waits = (s.pc p).waits) (hproc : ProcOk s x) :
    Driver { s.goto p x with lock := none } ∧ Rings { s.goto p x with lock := none } av us := by
  refine sound_goto hD hR (by simp [hholds]) (fun q hq => ?_) (fun c hc => hD.buf p c (hbuf c hc)) howns
    (fun i hi => hD.nodup p i (hidx i hi)) hwaits hproc
  simp [hp, Ne.symm hq]

variable {c : Call B}

theorem sound_alloc_some {i : Idx} {d : Disk B} (hpc : s.pc p = .alloc c)
    (ha : Allocated s.disk (some i) d) :
    Driver { s.goto p (.format c i) with disk := d } ∧ Rings { s.goto p (.format c i) with disk := d } av us := by
  cases ha with
  | some _ hnodup hfree =>
  have hp := (hD.lock p).mp (by rw [hpc]; rfl)
  constructor
  · refine hD.move (x := .format c i) rfl hD.fault ?_ (fun q _ => Iff.rfl) rfl (fun c' hc => ?_) ?_ (fun i' hi => ?_)
      (hD.others hp fun q _ => ⟨fun _ _ => rfl, fun _ _ => rfl, fun _ _ => rfl, fun _ _ => rfl⟩) trivial
    · simp [Pc.holds, hp, VState.goto]
    · refine hD.buf p c' ?_
      rw [hpc]
      exact hc
    · refine hD.own.update p _ (fun j hj => ⟨?_, .inr (hfree j hj)⟩) (fun j hj => ?_) fun j _ hj => ?_
      · simp only [Pc.owns, Idx.all, List.mem_cons, List.not_mem_nil, or_false] at hj
        simp only [update_apply]
        grind
      · rw [hpc] at hj
        simp [Pc.owns] at hj
      · simp only [Pc.owns, Idx.all, List.mem_cons, List.not_mem_nil, or_false, not_or] at hj
        simp [hj.1, hj.2.1, hj.2.2]
    · cases hi
      exact hnodup
  · refine hR.frame rfl rfl rfl rfl rfl (fun _ _ => rfl) (pending_iff rfl (fun y => ?_) (fun _ _ _ _ => rfl) rfl)
    simp [Pending, VState.goto, hpc, Pc.waits]

theorem sound_alloc_none {d : Disk B} (hpc : s.pc p = .alloc c)
    (ha : Allocated s.disk none d) :
    Driver { s.goto p (.noDesc c) with disk := d, lock := none } ∧
      Rings { s.goto p (.noDesc c) with disk := d, lock := none } av us := by
  cases ha with
  | none desc hdesc =>
  have hp := (hD.lock p).mp (by rw [hpc]; rfl)
  constructor
  · refine hD.move (x := .noDesc c) rfl hD.fault ?_ (fun q hq => ?_) rfl (fun c' hc => ?_) ?_ (fun i' hi => ?_)
      (hD.others hp fun q _ => ⟨fun j hj => ?_, fun _ _ => rfl, fun _ _ => rfl, fun _ _ => rfl⟩) trivial
    · simp [Pc.holds]
    · simp [hp, Ne.symm hq]
    · refine hD.buf p c' ?_
      rw [hpc]
      exact hc
    · refine hD.own_same ?_
      rw [hpc]
      rfl
    · cases hi
    · exact hdesc j (hD.own.not_free hj)
  · refine hR.frame rfl rfl rfl rfl rfl (fun _ _ => rfl) (pending_iff rfl (fun y => ?_) (fun _ _ _ _ => rfl) rfl)
    simp [Pending, VState.goto, hpc, Pc.waits]

theorem sound_format [DecidableEq B] {i : Idx} (hpc : s.pc p = .format c i) :
    Driver { s.goto p (.ring c i) with
        disk := format (s.blockno c.b) c i s.disk, owned := update s.owned c.b true } ∧
      Rings { s.goto p (.ring c i) with
        disk := format (s.blockno c.b) c i s.disk, owned := update s.owned c.b true } av us := by
  have hp := (hD.lock p).mp (by rw [hpc]; rfl)
  have hnodup : i.all.Nodup := hD.nodup p i (by rw [hpc]; rfl)
  have howns : (s.pc p).owns = i.all := by rw [hpc]; rfl
  have hcall : (s.pc p).call = some c := by rw [hpc]; rfl
  -- a descriptor of another process is none of ours
  have hother : ∀ q, q ≠ p → ∀ j ∈ (s.pc q).owns, j ∉ i.all := by
    intro q hq j hj hji
    exact hq (hD.own.unique (howns.symm ▸ hji) hj)
  have h0 : i.i0 ∈ i.all := by simp [Idx.all]
  constructor
  · refine hD.move (x := .ring c i) rfl hD.fault ?_ (fun q _ => Iff.rfl) rfl (fun c' hc => ?_) ?_ (fun i' hi => ?_)
      (hD.others hp fun q hq => ⟨fun j hj => ?_, fun j hj => ?_, fun j hj => ?_, fun _ _ => rfl⟩)
      ⟨⟨fun j hj => ?_, ?_, ?_⟩, ?_⟩
    · simp [Pc.holds, hp, VState.goto]
    · cases hc
      exact hD.buf p c hcall
    · exact hD.own_same howns.symm
    · cases hi
      exact hnodup
    · exact (format_desc _ c hnodup s.disk j).trans (if_neg (hother q hq j hj))
    · exact (format_other _ c s.disk (hother q hq j hj)).1
    · exact congrArg Info.b (format_other _ c s.disk (hother q hq j hj)).2
    · exact (format_desc _ c hnodup s.disk j).trans (if_pos hj)
    · simp [format, VState.goto]
    · simp [format]
    · simp
  · have hw : (s.pc p).waits = none := by rw [hpc]; rfl
    refine hR.frame rfl rfl rfl rfl rfl (fun y hy => ?_) (pending_iff rfl (fun y => ?_) (fun q hq c' hc => ?_) rfl)
    · refine congrArg Info.status (format_other _ c s.disk ?_).2
      rw [← howns]
      exact hR.head_not_owned hD hw (List.mem_append_right _ hy)
    · simp [Pending, VState.goto, hpc, Pc.waits]
    · exact update_of_ne (fun hb => hq (hD.buf_inj hc hcall hb)) _ _

theorem sound_ring {i : Idx} (hpc : s.pc p = .ring c i) :
    Driver { s.goto p (.publish c i) with disk := putAvail i s.disk } ∧
      Rings { s.goto p (.publish c i) with disk := putAvail i s.disk } av us := by
  have hp := (hD.lock p).mp (by rw [hpc]; rfl)
  have howns : (s.pc p).owns = i.all := by rw [hpc]; rfl
  have hproc : ProcOk s (.ring c i) := hpc ▸ hD.proc p
  have hleaves : ∀ y : Pc B, Leaves s { s.goto p (.publish c i) with disk := putAvail i s.disk } y := fun y =>
    ⟨fun _ _ => rfl, fun _ _ => rfl, fun _ _ => rfl, fun _ _ => rfl⟩
  have hw : (s.pc p).waits = none := by rw [hpc]; rfl
  constructor
  · refine hD.move (x := .publish c i) rfl hD.fault ?_ (fun q _ => Iff.rfl) rfl (fun c' hc => ?_) ?_ (fun i' hi => ?_)
      (hD.others hp fun q _ => hleaves _) ⟨?_, hproc.2, ?_⟩
    · simp [Pc.holds, hp, VState.goto]
    · cases hc
      exact hD.buf p c (by rw [hpc]; rfl)
    · exact hD.own_same howns.symm
    · cases hi
      exact hD.nodup p i (by rw [hpc]; rfl)
    · exact hproc.1.leaves (hleaves (.publish c i)) rfl rfl
    · simp [putAvail]
  · have hroom := hR.room_avail hD howns hw
    obtain ⟨n, hseen, hidx, hq⟩ := hR.avail
    refine hR.frame_avail rfl ⟨n, hseen, hidx, ?_⟩ rfl rfl (fun _ _ => rfl)
      (pending_iff rfl (fun y => ?_) (fun _ _ _ _ => rfl) rfl)
    · have hwrite := hq.write (by simpa using hroom) (index i.i0)
      rw [List.length_map, ← cell_ofNat, ← hidx] at hwrite
      exact hwrite
    · simp [Pending, VState.goto, hpc, Pc.waits]

theorem sound_publish {i : Idx} (hpc : s.pc p = .publish c i) :
    Driver { s.goto p (.wait c i) with disk := incAvail s.disk } ∧
      Rings { s.goto p (.wait c i) with disk := incAvail s.disk } (av ++ [itemOf s.blockno c i]) us := by
  have hp := (hD.lock p).mp (by rw [hpc]; rfl)
  have howns : (s.pc p).owns = i.all := by rw [hpc]; rfl
  have hw : (s.pc p).waits = none := by rw [hpc]; rfl
  obtain ⟨hmade, howned, hput⟩ : ProcOk s (.publish c i) := hpc ▸ hD.proc p
  have hleaves : ∀ y : Pc B, Leaves s { s.goto p (.wait c i) with disk := incAvail s.disk } y := fun y =>
    ⟨fun _ _ => rfl, fun _ _ => rfl, fun _ _ => rfl, fun _ _ => rfl⟩
  constructor
  · refine hD.move (x := .wait c i) rfl hD.fault ?_ (fun q _ => Iff.rfl) rfl (fun c' hc => ?_) ?_ (fun i' hi => ?_)
      (hD.others hp fun q _ => hleaves _) ?_
    · simp [Pc.holds, hp, VState.goto]
    · cases hc
      exact hD.buf p c (by rw [hpc]; rfl)
    · exact hD.own_same howns.symm
    · cases hi
      exact hD.nodup p i (by rw [hpc]; rfl)
    · exact hmade.leaves (hleaves (.wait c i)) rfl rfl
  · obtain ⟨n, hseen, hidx, hq⟩ := hR.avail
    have hnew := hR.head_not_mem hD howns hw
    have hperm : ∀ z : Item B, (av ++ [z] ++ s.working ++ us).Perm (z :: (av ++ s.working ++ us)) := fun z => by
      rw [List.append_assoc, List.append_assoc, List.append_assoc]
      exact List.perm_middle
    refine ⟨⟨n, hseen, ?_, ?_⟩, hR.used, ?_, fun y => ?_, hR.status⟩
    · simp only [incAvail, hidx, List.length_append, List.length_singleton]
      rw [ofNat_succ, Nat.add_assoc]
    · rw [List.map_append]
      refine hq.snoc ?_
      rw [List.length_map, ← cell_ofNat, ← hidx]
      exact hput
    · exact ((hperm _).map Item.head).nodup_iff.mpr (List.nodup_cons.mpr ⟨hnew, hR.nodup⟩)
    · refine ((hperm _).mem_iff.trans (List.mem_cons.trans (or_congr_right (hR.mem y)))).trans ?_
      constructor
      · rintro (rfl | ⟨q, hq⟩)
        · exact ⟨p, c, i, by simp [VState.goto, Pc.waits], howned, rfl⟩
        · have hqp : q ≠ p := by
            rintro rfl
            obtain ⟨c', i', hw', -⟩ := hq
            rw [hw] at hw'
            cases hw'
          obtain ⟨c', i', hw', hrest⟩ := hq
          exact ⟨q, c', i', by simpa [VState.goto, hqp] using hw', hrest⟩
      · rintro ⟨q, c', i', hw', howned', rfl⟩
        by_cases hqp : q = p
        · subst hqp
          simp only [VState.goto, update_self, Pc.waits, Option.some.injEq, Prod.mk.injEq] at hw'
          obtain ⟨rfl, rfl⟩ := hw'
          exact .inl rfl
        · exact .inr ⟨q, c', i', by simpa [VState.goto, hqp] using hw', howned', rfl⟩

theorem sound_done {i : Idx} (hpc : s.pc p = .wait c i)
    (howned : s.owned c.b = false) :
    Driver { s.goto p (.freeing c i (index i.i0)) with disk := clearBuf i s.disk } ∧
      Rings { s.goto p (.freeing c i (index i.i0)) with disk := clearBuf i s.disk } av us := by
  have hp := (hD.lock p).mp (by rw [hpc]; rfl)
  have howns : (s.pc p).owns = i.all := by rw [hpc]; rfl
  have hmade : Made s c i := (hpc ▸ hD.proc p : ProcOk s (.wait c i))
  have h0 : i.i0 ∈ i.all := by simp [Idx.all]
  constructor
  · refine hD.move (x := .freeing c i (index i.i0)) rfl hD.fault ?_ (fun q _ => Iff.rfl) rfl (fun c' hc => ?_) ?_
      (fun i' hi => ?_) (hD.others hp fun q hq => ⟨fun _ _ => rfl, fun _ _ => rfl, fun j hj => ?_, fun _ _ => rfl⟩)
      ⟨?_, fun j hj => hmade.desc j (i.rest_i0 ▸ hj)⟩
    · simp [Pc.holds, hp, VState.goto]
    · cases hc
      exact hD.buf p c (by rw [hpc]; rfl)
    · exact hD.own_same (i.rest_i0.trans howns.symm)
    · cases hi
      exact hD.nodup p i (by rw [hpc]; rfl)
    · have hj0 : j ≠ i.i0 := by
        rintro rfl
        exact hq (hD.own.unique (howns.symm ▸ h0) hj)
      simp [clearBuf, hj0]
    · rw [i.rest_i0]
      rfl
  · refine hR.frame rfl rfl rfl rfl rfl (fun y _ => ?_) (pending_iff rfl (fun y => ?_) (fun _ _ _ _ => rfl) rfl)
    · by_cases hy : y.head = i.i0
      · simp [clearBuf, hy]
      · simp [clearBuf, hy]
    · have hno : ¬Pending s p y := by
        rintro ⟨c', i', hw, howned', -⟩
        rw [hpc] at hw
        cases hw
        simp [howned] at howned'
      refine iff_of_false ?_ hno
      rintro ⟨c', i', hw, -⟩
      simp [VState.goto, Pc.waits] at hw

theorem sound_free {j : Fin NUM} {l : List (Fin NUM)} (hp : s.lock = some (.proc p))
    (howns : (s.pc p).owns = j :: l) (hnodup : (j :: l).Nodup) (hx : x.owns = l) (hholds : x.holds = true)
    (hcall : x.call = (s.pc p).call) (hidx : ∀ i, x.idx = some i → (s.pc p).idx = some i) (hwaits : (s.pc p).waits = none)
    (hwaits' : x.waits = none) {d : Disk B}
    (hd : d = { s.disk with
      desc := update s.disk.desc j ⟨.null, 0, 0, 0⟩, free := update s.disk.free j true })
    (hproc : ProcOk { s.goto p x with disk := d } x) :
    Driver { s.goto p x with disk := d } ∧ Rings { s.goto p x with disk := d } av us := by
  subst hd
  have hj : j ∈ (s.pc p).owns := by simp [howns]
  constructor
  · refine hD.move (x := x) rfl hD.fault ?_ (fun q _ => Iff.rfl) rfl (fun c hc => hD.buf p c (hcall ▸ hc)) ?_
      (fun i hi => hD.nodup p i (hidx i hi))
      (hD.others hp fun q hq => ⟨fun k hk => ?_, fun _ _ => rfl, fun _ _ => rfl, fun _ _ => rfl⟩) hproc
    · simp [hholds, hp, VState.goto]
    · refine hD.own.update p _ (fun k hk => ?_) (fun k hk hkl => ?_) fun k hk _ => ?_
      · rw [hx] at hk
        have hkj : k ≠ j := fun he => (List.nodup_cons.mp hnodup).1 (he ▸ hk)
        have hkp : k ∈ (s.pc p).owns := by simp [howns, hk]
        refine ⟨?_, .inl hkp⟩
        simpa [hkj] using hD.own.not_free hkp
      · rw [howns, List.mem_cons] at hk
        rcases hk with rfl | hk
        · simp
        · exact absurd (hx ▸ hk) hkl
      · have hkj : k ≠ j := fun he => hk (he ▸ hj)
        simp [hkj]
    · refine update_of_ne (fun he => ?_) _ _
      subst he
      exact hq (hD.own.unique hj hk)
  · refine hR.frame rfl rfl rfl rfl rfl (fun _ _ => rfl) (pending_iff rfl (fun y => ?_) (fun _ _ _ _ => rfl) rfl)
    simp [Pending, VState.goto, hwaits, hwaits']

theorem sound_freeing {i : Idx} {k : UInt16} (hpc : s.pc p = .freeing c i k) :
    ∃ y, freeChain k s.disk = .ok y ∧
      ∀ t, t = (match y.1 with
        | some nxt => { s.goto p (.freeing c i nxt) with disk := y.2 }
        | none => { s.goto p (.release c) with disk := y.2 }) → Driver t ∧ Rings t av us := by
  have hp := (hD.lock p).mp (by rw [hpc]; rfl)
  have hnodup : i.all.Nodup := hD.nodup p i (by rw [hpc]; rfl)
  have howns : (s.pc p).owns = i.rest k := by rw [hpc]; rfl
  obtain ⟨hhead, hdesc⟩ : ProcOk s (.freeing c i k) := hpc ▸ hD.proc p
  obtain ⟨j, hj, rfl⟩ := Option.map_eq_some_iff.mp hhead
  have hmem : j ∈ i.rest (index j) := List.mem_of_mem_head? hj
  have hfree : s.disk.free j = false := hD.own.not_free (howns.symm ▸ hmem)
  have hall : j ∈ i.all := (List.dropWhile_sublist _).subset hmem
  -- what is left of the chain has not been freed yet
  have hrest : ∀ {l : List (Fin NUM)}, i.rest (index j) = j :: l → (j :: l).Nodup ∧
      ∀ k ∈ l, update s.disk.desc j ⟨.null, 0, 0, 0⟩ k = wanted c i k := by
    intro l hl
    have hnd : (j :: l).Nodup := hl ▸ hnodup.sublist (List.dropWhile_sublist _)
    refine ⟨hnd, fun k hk => ?_⟩
    have hkj : k ≠ j := fun he => (List.nodup_cons.mp hnd).1 (he ▸ hk)
    rw [update_of_ne hkj]
    exact hdesc k (hl ▸ List.mem_cons_of_mem j hk)
  refine ⟨_, freeChain_ok hfree, fun t ht => ?_⟩
  rw [hdesc j hmem] at ht
  simp only [Idx.all, List.mem_cons, List.not_mem_nil, or_false] at hall
  rcases hall with rfl | rfl | rfl
  · rw [wanted_i0, if_pos (opDesc_next i)] at ht
    subst ht
    have hl : i.rest (index i.i0) = i.i0 :: [i.i1, i.i2] := i.rest_i0
    have hl' : i.rest (index i.i1) = [i.i1, i.i2] := Idx.rest_i1 hnodup
    refine sound_free (x := .freeing c i (index i.i1)) hD hR hp (howns.trans hl) (hrest hl).1 hl' rfl (by rw [hpc]; rfl)
      (fun i' hi => by rw [hpc]; exact hi) (by rw [hpc]; rfl) rfl rfl ⟨?_, fun k hk => (hrest hl).2 k (hl' ▸ hk)⟩
    rw [hl']
    rfl
  · rw [wanted_i1 c hnodup, if_pos (dataDesc_next c i)] at ht
    subst ht
    have hl : i.rest (index i.i1) = i.i1 :: [i.i2] := Idx.rest_i1 hnodup
    have hl' : i.rest (index i.i2) = [i.i2] := Idx.rest_i2 hnodup
    refine sound_free (x := .freeing c i (index i.i2)) hD hR hp (howns.trans hl) (hrest hl).1 hl' rfl (by rw [hpc]; rfl)
      (fun i' hi => by rw [hpc]; exact hi) (by rw [hpc]; rfl) rfl rfl ⟨?_, fun k hk => (hrest hl).2 k (hl' ▸ hk)⟩
    rw [hl']
    rfl
  · rw [wanted_i2 c hnodup, if_neg (not_not.mpr (statusDesc_last i))] at ht
    subst ht
    have hl : i.rest (index i.i2) = i.i2 :: [] := Idx.rest_i2 hnodup
    exact sound_free (l := []) hD hR hp (howns.trans hl) (hrest hl).1 rfl rfl (by rw [hpc]; rfl)
      (fun i' hi => by cases hi) (by rw [hpc]; rfl) rfl rfl trivial

/-! ### The device and the handler -/

omit [DecidableEq P] hD hR

theorem Driver.frame (hD : Driver s) (hpc : t.pc = s.pc) (hfault : t.fault = none)
    (hlock : ∀ q, s.lock = some (.proc q) ↔ t.lock = some (.proc q))
    (hbuf : ∀ q c, (s.pc q).call = some c → t.locked c.b = some q) (hfree : t.disk.free = s.disk.free)
    (hproc : ∀ q, ProcOk t (s.pc q)) : Driver t := by
  refine ⟨hfault, fun q => ?_, ?_, ?_, ?_, ?_⟩
  · rw [hpc, ← hlock q]
    exact hD.lock q
  · rw [hpc]
    exact hbuf
  · rw [hpc, hfree]
    exact hD.own
  · rw [hpc]
    exact hD.nodup
  · rw [hpc]
    exact hproc

theorem Pending.made (hD : Driver s) {y : Item B} (h : Pending s p y) :
    ∃ c i, (s.pc p).waits = some (c, i) ∧ s.owned c.b = true ∧ y = itemOf s.blockno c i ∧ i.all.Nodup ∧ Made s c i := by
  obtain ⟨c, i, hw, howned, hy⟩ := h
  refine ⟨c, i, hw, howned, hy, hD.nodup p i (Pc.owns_of_waits hw).2.2, ?_⟩
  have hproc := hD.proc p
  cases hpc : s.pc p with
  | wait c' i' =>
    rw [hpc] at hw hproc
    cases hw
    exact hproc
  | asleep c' i' =>
    rw [hpc] at hw hproc
    cases hw
    exact hproc
  | _ => simp [hpc, Pc.waits] at hw

theorem pending_same (hpc : t.pc = s.pc) (howned : ∀ q c, (s.pc q).call = some c → t.owned c.b = s.owned c.b)
    (hblockno : ∀ q c, (s.pc q).call = some c → t.blockno c.b = s.blockno c.b) :
    ∀ y, (∃ q, Pending t q y) ↔ ∃ q, Pending s q y := by
  refine fun y => exists_congr fun q => ?_
  unfold Pending
  rw [hpc]
  refine exists_congr fun c => exists_congr fun i => and_congr_right fun hw => ?_
  have hcall := (Pc.owns_of_waits hw).2.1
  rw [howned q c hcall, itemOf, itemOf, hblockno q c hcall]

include hD hR

/-- **The device takes a chain**: it is the first in the `avail` ring. -/
theorem sound_fetch (hne : s.seen ≠ s.disk.avail.idx) :
    ∃ y av', av = y :: av' ∧ readChain s.disk (s.disk.avail.ring (cell s.seen)) = some y ∧
      Driver { s with seen := s.seen + 1, working := s.working ++ [y] } ∧
      Rings { s with seen := s.seen + 1, working := s.working ++ [y] } av' us := by
  obtain ⟨n, hseen, hidx, hq⟩ := hR.avail
  cases av with
  | nil => exact absurd (hseen.trans hidx.symm) hne
  | cons y av' =>
    obtain ⟨hy, hq'⟩ := Queued.take hq
    obtain ⟨p, hpending⟩ := (hR.mem y).mp (by simp)
    obtain ⟨c, i, -, -, hitem, hnodup, hmade⟩ := hpending.made hD
    have hhead : s.disk.avail.ring (cell s.seen) = index i.i0 := by
      rw [hseen, cell_ofNat, hy, hitem]
      rfl
    have hread : readChain s.disk (s.disk.avail.ring (cell s.seen)) = some y := by
      rw [hhead, readChain_wanted hnodup hmade.desc, hmade.req, hitem]
      rfl
    have hperm : (av' ++ (s.working ++ [y]) ++ us).Perm (y :: av' ++ s.working ++ us) := by
      have hmid : (av' ++ s.working ++ y :: us).Perm (y :: (av' ++ s.working ++ us)) := List.perm_middle
      simpa using hmid
    refine ⟨y, av', rfl, hread, ?_, ⟨n + 1, ?_, ?_, hq'⟩, hR.used, ?_, fun z => ?_, hR.status⟩
    · refine hD.frame rfl hD.fault (fun q => Iff.rfl) hD.buf rfl fun q => ?_
      exact (hD.proc q).leaves_all ⟨fun _ _ => rfl, fun _ _ => rfl, fun _ _ => rfl, fun _ _ => rfl⟩ (fun _ _ => rfl) rfl
    · rw [← ofNat_succ, ← hseen]
    · rw [hidx, List.length_cons, Nat.add_right_comm, Nat.add_assoc]
    · exact (hperm.map Item.head).nodup_iff.mpr hR.nodup
    · exact hperm.mem_iff.trans (hR.mem z)

/-- **The device completes a chain**: the `used` ring has room for it. -/
theorem sound_complete {k : ℕ} {y : Item B} (hk : s.working[k]? = some y) :
    Driver { s with disk := complete y s.disk, working := s.working.eraseIdx k } ∧
      Rings { s with disk := complete y s.disk, working := s.working.eraseIdx k } av (us ++ [y]) := by
  obtain ⟨hlt, hget⟩ := List.getElem?_eq_some_iff.mp hk
  have hperm : (av ++ s.working.eraseIdx k ++ (us ++ [y])).Perm (av ++ s.working ++ us) := by
    have herase : (y :: s.working.eraseIdx k).Perm s.working := hget ▸ List.getElem_cons_eraseIdx_perm hlt
    calc (av ++ s.working.eraseIdx k ++ (us ++ [y])).Perm (y :: (av ++ s.working.eraseIdx k ++ us)) := by
          rw [← List.append_assoc]
          exact List.perm_append_singleton _ _
      _ |>.Perm (av ++ (y :: s.working.eraseIdx k) ++ us) := by
          rw [List.append_assoc, List.append_assoc]
          exact List.perm_middle.symm
      _ |>.Perm (av ++ s.working ++ us) := (herase.append_left av).append_right us
  have hmem : y ∈ av ++ s.working ++ us := hperm.subset (by simp)
  obtain ⟨p, hpending⟩ := (hR.mem y).mp hmem
  obtain ⟨c, i, -, -, hitem⟩ := hpending
  have hstatus : y.status = y.head := by rw [hitem]; rfl
  have hroom := hR.room_used (List.mem_of_getElem? hk)
  constructor
  · refine hD.frame rfl hD.fault (fun q => Iff.rfl) hD.buf rfl fun q => ?_
    refine (hD.proc q).leaves_all ⟨fun _ _ => rfl, fun _ _ => rfl, fun j _ => ?_, fun _ _ => rfl⟩ (fun _ _ => rfl) rfl
    by_cases hj : j = y.status
    · simp [complete, hj]
    · simp [complete, hj]
  · obtain ⟨n, husedIdx, hidx, hq⟩ := hR.used
    refine ⟨hR.avail, ⟨n, husedIdx, ?_, ?_⟩, ?_, fun z => ?_, fun z hz => ?_⟩
    · simp only [complete, hidx, ofNat_succ, List.length_append, List.length_singleton, Nat.add_assoc]
    · have hput := hq.put (by simpa using hroom) (UInt32.ofNat y.head)
      rw [List.length_map, ← cell_ofNat, ← hidx] at hput
      rw [List.map_append]
      exact hput
    · exact (hperm.map Item.head).nodup_iff.mpr hR.nodup
    · exact hperm.mem_iff.trans (hR.mem z)
    · by_cases hzy : z.head = y.status
      · simp [complete, hzy]
      · have hzus : z ∈ us := by
          rcases List.mem_append.mp hz with hz | hz
          · exact hz
          · rw [List.mem_singleton.mp hz, hstatus] at hzy
            exact absurd rfl hzy
        simpa [complete, hzy] using hR.status z hzus

/-- **The handler** clears the flag of the buffer whose request has been completed first. -/
theorem sound_turn [DecidableEq B] (hlock : s.lock = some .handler)
    (hne : s.disk.usedIdx ≠ s.disk.used.idx) :
    ∃ y us' p c i, us = y :: us' ∧ (s.pc p).waits = some (c, i) ∧ s.owned c.b = true ∧ y = itemOf s.blockno c i ∧
      intr s.disk = .ok (c.b, { s.disk with usedIdx := s.disk.usedIdx + 1 }) ∧
      Driver { s with
        disk := { s.disk with usedIdx := s.disk.usedIdx + 1 }, owned := update s.owned c.b false } ∧
      Rings { s with
        disk := { s.disk with usedIdx := s.disk.usedIdx + 1 }, owned := update s.owned c.b false } av us' := by
  obtain ⟨n, husedIdx, hidx, hq⟩ := hR.used
  cases us with
  | nil => exact absurd (husedIdx.trans hidx.symm) hne
  | cons y us' =>
    obtain ⟨hy, hq'⟩ := Queued.take hq
    obtain ⟨p, hpending⟩ := (hR.mem y).mp (by simp)
    obtain ⟨c, i, hw, howned, hitem, hnodup, hmade⟩ := hpending.made hD
    have hcall := (Pc.owns_of_waits hw).2.1
    have hhead : y.head = i.i0 := by rw [hitem]; rfl
    have hnot : ∀ q, (s.pc q).holds = false := by
      intro q
      rw [Bool.eq_false_iff]
      intro hholds
      have h := (hD.lock q).mp hholds
      rw [hlock] at h
      cases h
    refine ⟨y, us', p, c, i, rfl, hw, howned, hitem, ?_, ?_, hR.avail, ⟨n + 1, ?_, ?_, hq'⟩, ?_, fun z => ?_,
      fun z hz => hR.status z (List.mem_cons_of_mem y hz)⟩
    · have hstatus := hR.status y List.mem_cons_self
      rw [intr, husedIdx, cell_ofNat, hy, toNat_head, slot_val]
      dsimp only
      rw [if_neg (not_not.mpr hstatus), hhead, hmade.buf]
    · refine hD.frame rfl hD.fault (fun q => Iff.rfl) hD.buf rfl fun q => ?_
      exact (hD.proc q).leaves ⟨fun _ _ => rfl, fun _ _ => rfl, fun _ _ => rfl, fun _ _ => rfl⟩ (hnot q)
    · simp only [husedIdx, ofNat_succ]
    · rw [hidx, List.length_cons, Nat.add_right_comm, Nat.add_assoc]
    · refine hR.nodup.sublist (List.Sublist.map _ ?_)
      exact (List.sublist_cons_self y us').append_left _
    · -- one chain less, and one call less that waits
      have hleft : z ∈ av ++ s.working ++ us' ↔ z ∈ av ++ s.working ++ y :: us' ∧ z ≠ y := by
        have hperm : (av ++ s.working ++ y :: us').Perm (y :: (av ++ s.working ++ us')) := List.perm_middle
        have hy' : y ∉ av ++ s.working ++ us' := by
          have hnd := (hperm.map Item.head).nodup_iff.mp hR.nodup
          exact fun hmem => (List.nodup_cons.mp hnd).1 (List.mem_map_of_mem hmem)
        rw [hperm.mem_iff, List.mem_cons]
        constructor
        · exact fun hz => ⟨.inr hz, fun he => hy' (he ▸ hz)⟩
        · rintro ⟨rfl | hz, hzy⟩
          · exact absurd rfl hzy
          · exact hz
      rw [hleft, hR.mem z]
      constructor
      · rintro ⟨⟨q, c', i', hw', howned', rfl⟩, hzy⟩
        refine ⟨q, c', i', hw', (update_of_ne (fun hb => ?_) _ _).trans howned', rfl⟩
        have hqp : q = p := hD.buf_inj (Pc.owns_of_waits hw').2.1 hcall hb
        subst hqp
        rw [hw] at hw'
        cases hw'
        exact hzy hitem.symm
      · rintro ⟨q, c', i', hw', howned', rfl⟩
        have hb : c'.b ≠ c.b := by
          intro hb
          simp [hb] at howned'
        refine ⟨⟨q, c', i', hw', by simpa [hb] using howned', rfl⟩, fun he => ?_⟩
        rw [hitem] at he
        exact hb (congrArg Item.buf he)

end Steps

end Xv6Shmem.Virtio
