import Mathlib.Data.Fintype.Card
import Mathlib.Data.List.Nodup
import Xv6Shmem.Devices.Virtio
import Xv6Shmem.Theory.Exclusive
import Xv6Shmem.Theory.Ring

/-!
# Requests to the disk

A descriptor is free or has one owner, the call of `virtio_disk_rw` that has allocated it (`Driver`). The head
of the chain of a call that waits is in one place: in the `avail` ring, with the device, or in the `used` ring
(`Rings`). The heads are different descriptors, so that a ring always has room for one more, whatever its
counters are.

## What is proved

* `alloc3Desc_spec` — three different descriptors that were free, or nothing.
* `readChain_wanted` — the device reads what the driver has written.
* `Rings.room_avail`, `Rings.room_used` — there is room in the rings.
-/

namespace Xv6Shmem.Virtio

open Function LTS Ring

/-! ### Descriptors -/

section Descriptors

variable {B : Type} {d d' : Disk B} {x : Idx}

@[simp] theorem slot_val (i : Fin NUM) : slot i = some i := by
  simp [slot]

@[simp] theorem toNat_index (i : Fin NUM) : (index i).toNat = i := by
  have hi : i.val < 8 := i.isLt
  simp only [index, UInt16.toNat_ofNat']
  omega

theorem index_inj {i j : Fin NUM} : index i = index j ↔ i = j := by
  rw [← UInt16.toNat_inj, toNat_index, toNat_index, Fin.val_inj]

theorem toNat_head (i : Fin NUM) : (UInt32.ofNat i).toNat = i := by
  have hi : i.val < 8 := i.isLt
  simp only [UInt32.toNat_ofNat']
  omega

/-- The descriptors of a request. -/
def Idx.all (x : Idx) : List (Fin NUM) := [x.i0, x.i1, x.i2]

theorem allocDesc_some {i : Fin NUM} (h : allocDesc d = (some i, d')) :
    d.free i = true ∧ d' = { d with free := update d.free i false } := by
  unfold allocDesc at h
  split at h
  · rename_i j hj
    cases h
    exact ⟨List.find?_some hj, rfl⟩
  · cases h

theorem allocDesc_none (h : allocDesc d = (none, d')) : d' = d := by
  unfold allocDesc at h
  split at h
  · cases h
  · cases h
    rfl

theorem freeDesc_ok {i : Fin NUM} (h : d.free i = false) :
    freeDesc i d =
      .ok { d with desc := update d.desc i ⟨.null, 0, 0, 0⟩, free := update d.free i true } := by
  simp [freeDesc, h]

/-- What `alloc3_desc` does: it takes three descriptors that were free, or it fails and only free ones have changed. -/
inductive Allocated (d : Disk B) : Option Idx → Disk B → Prop where
  | some (x : Idx) (hnodup : x.all.Nodup) (hfree : ∀ j ∈ x.all, d.free j = true) :
      Allocated d (some x)
        { d with free := update (update (update d.free x.i0 false) x.i1 false) x.i2 false }
  | none (desc : Fin NUM → Desc B) (hdesc : ∀ j, d.free j = false → desc j = d.desc j) :
      Allocated d none { d with desc := desc }

/-- **`alloc3_desc`** does not panic. -/
theorem alloc3Desc_spec (d : Disk B) : ∃ r d', alloc3Desc d = .ok (r, d') ∧ Allocated d r d' := by
  unfold alloc3Desc
  rcases h0 : allocDesc d with ⟨_ | i0, d0⟩
  · cases allocDesc_none h0
    exact ⟨none, d, rfl, .none d.desc fun _ _ => rfl⟩
  obtain ⟨hf0, rfl⟩ := allocDesc_some h0
  dsimp only
  rcases h1 : allocDesc { d with free := update d.free i0 false } with ⟨_ | i1, d1⟩
  · cases allocDesc_none h1
    have hback : update (update d.free i0 false) i0 true = d.free := by
      rw [update_idem, ← hf0, update_eq_self]
    dsimp only
    rw [freeDesc_ok (by simp)]
    refine ⟨none, _, rfl, ?_⟩
    rw [hback]
    refine .none _ fun j hj => update_of_ne ?_ _ _
    rintro rfl
    simp [hf0] at hj
  obtain ⟨hf1, rfl⟩ := allocDesc_some h1
  have h10 : i1 ≠ i0 := by
    rintro rfl
    simp at hf1
  have hf1' : d.free i1 = true := by simpa [h10] using hf1
  dsimp only
  rcases h2 : allocDesc { d with free := update (update d.free i0 false) i1 false } with ⟨_ | i2, d2⟩
  · cases allocDesc_none h2
    have hback : update (update (update (update d.free i0 false) i1 false) i0 true) i1
        true = d.free := by
      funext j
      by_cases hj1 : j = i1
      · simp [hj1, hf1']
      · by_cases hj0 : j = i0
        · simp [hj0, h10.symm, hf0]
        · simp [hj1, hj0]
    dsimp only
    rw [freeDesc_ok (by simp [h10.symm])]
    dsimp only [Bind.bind, Except.bind]
    rw [freeDesc_ok (by simp [h10])]
    refine ⟨none, _, rfl, ?_⟩
    dsimp only
    rw [hback]
    refine .none _ fun j hj => ?_
    have hj0 : j ≠ i0 := by
      rintro rfl
      simp [hf0] at hj
    have hj1 : j ≠ i1 := by
      rintro rfl
      simp [hf1'] at hj
    rw [update_of_ne hj1, update_of_ne hj0]
  obtain ⟨hf2, rfl⟩ := allocDesc_some h2
  have h21 : i2 ≠ i1 := by
    rintro rfl
    simp at hf2
  have h20 : i2 ≠ i0 := by
    rintro rfl
    simp [h21] at hf2
  have hf2' : d.free i2 = true := by simpa [h21, h20] using hf2
  refine ⟨some ⟨i0, i1, i2⟩, _, rfl, .some ⟨i0, i1, i2⟩ ?_ ?_⟩
  · simp [Idx.all, h10.symm, h20.symm, h21.symm]
  · simp [Idx.all, hf0, hf1', hf2']

/-- The descriptors of a request from number `i` on. -/
def Idx.rest (x : Idx) (i : UInt16) : List (Fin NUM) := x.all.dropWhile fun j => index j ≠ i

theorem Idx.rest_i0 (x : Idx) : x.rest (index x.i0) = x.all := by
  simp [rest, all]

theorem Idx.rest_i1 (h : x.all.Nodup) : x.rest (index x.i1) = [x.i1, x.i2] := by
  simp only [all, List.nodup_cons, List.mem_cons, List.not_mem_nil, or_false, not_or] at h
  simp [rest, all, index_inj, h.1.1]

theorem Idx.rest_i2 (h : x.all.Nodup) : x.rest (index x.i2) = [x.i2] := by
  simp only [all, List.nodup_cons, List.mem_cons, List.not_mem_nil, or_false, not_or] at h
  simp [rest, all, index_inj, h.1.2, h.2.1]

/-- What `virtio_disk_rw` writes into a descriptor of its request. -/
def wanted (c : Call B) (x : Idx) (j : Fin NUM) : Desc B :=
  if j = x.i0 then opDesc x else if j = x.i1 then dataDesc c x else statusDesc x

theorem wanted_i0 (c : Call B) (x : Idx) : wanted c x x.i0 = opDesc x := if_pos rfl

theorem wanted_i1 (c : Call B) (h : x.all.Nodup) : wanted c x x.i1 = dataDesc c x := by
  simp only [Idx.all, List.nodup_cons, List.mem_cons, List.not_mem_nil, or_false, not_or] at h
  rw [wanted, if_neg (Ne.symm h.1.1), if_pos rfl]

theorem wanted_i2 (c : Call B) (h : x.all.Nodup) : wanted c x x.i2 = statusDesc x := by
  simp only [Idx.all, List.nodup_cons, List.mem_cons, List.not_mem_nil, or_false, not_or] at h
  rw [wanted, if_neg (Ne.symm h.1.2), if_neg (Ne.symm h.2.1)]

theorem format_desc (blockno : UInt32) (c : Call B) (h : x.all.Nodup) (d : Disk B) (j : Fin NUM) :
    (format blockno c x d).desc j = if j ∈ x.all then wanted c x j else d.desc j := by
  simp only [Idx.all, List.nodup_cons, List.mem_cons, List.not_mem_nil, or_false, not_or] at h
  obtain ⟨⟨h01, h02⟩, h12, -⟩ := h
  by_cases h0 : j = x.i0
  · subst h0
    simp [format, Idx.all, wanted, h01, h02]
  by_cases h1 : j = x.i1
  · subst h1
    simp [format, Idx.all, wanted, h0, h12]
  by_cases h2 : j = x.i2
  · subst h2
    simp [format, Idx.all, wanted, h0, h1]
  · simp [format, Idx.all, h0, h1, h2]

theorem format_other (blockno : UInt32) (c : Call B) (d : Disk B) {j : Fin NUM} (hj : j ∉ x.all) :
    (format blockno c x d).ops j = d.ops j ∧ (format blockno c x d).info j = d.info j := by
  have h0 : j ≠ x.i0 := by
    rintro rfl
    exact hj (by simp [Idx.all])
  simp [format, h0]

theorem opDesc_next (x : Idx) : (opDesc (B := B) x).flags &&& VRING_DESC_F_NEXT ≠ 0 :=
  show VRING_DESC_F_NEXT &&& VRING_DESC_F_NEXT ≠ 0 by decide

theorem dataDesc_next (c : Call B) (x : Idx) : (dataDesc c x).flags &&& VRING_DESC_F_NEXT ≠ 0 := by
  simp only [dataDesc]
  cases c.write <;> decide

theorem statusDesc_last (x : Idx) : (statusDesc (B := B) x).flags &&& VRING_DESC_F_NEXT = 0 :=
  show VRING_DESC_F_WRITE &&& VRING_DESC_F_NEXT = 0 by decide

/-- **The device reads a chain** as it was written. -/
theorem readChain_wanted {c : Call B} (hx : x.all.Nodup) (h : ∀ j ∈ x.all, d.desc j = wanted c x j) :
    readChain d (index x.i0) = some ⟨x.i0, d.ops x.i0, c.b, x.i0⟩ := by
  have h0 : d.desc x.i0 = opDesc x := (h x.i0 (by simp [Idx.all])).trans (wanted_i0 c x)
  have h1 : d.desc x.i1 = dataDesc c x := (h x.i1 (by simp [Idx.all])).trans (wanted_i1 c hx)
  have h2 : d.desc x.i2 = statusDesc x := (h x.i2 (by simp [Idx.all])).trans (wanted_i2 c hx)
  have f0 : follow (opDesc (B := B) x) = some x.i1 := by
    rw [follow, if_pos (opDesc_next x)]
    simp [opDesc]
  have f1 : follow (dataDesc c x) = some x.i2 := by
    rw [follow, if_pos (dataDesc_next c x)]
    simp [dataDesc]
  rw [readChain, toNat_index, slot_val, Option.bind_some, h0, f0, Option.bind_some, h1, f1, Option.bind_some, h2]
  rfl

/-- A turn of `free_chain` at a descriptor in use. -/
theorem freeChain_ok {j : Fin NUM} (h : d.free j = false) :
    freeChain (index j) d =
      .ok (if (d.desc j).flags &&& VRING_DESC_F_NEXT ≠ 0 then some (d.desc j).next else none,
        { d with desc := update d.desc j ⟨.null, 0, 0, 0⟩, free := update d.free j true }) := by
  rw [freeChain, toNat_index, slot_val]
  dsimp only
  rw [freeDesc_ok h]
  rfl

end Descriptors

/-! ### Where a process is -/

section Processes

variable {B : Type}

/-- The descriptors that the call has. -/
def Pc.owns : Pc B → List (Fin NUM)
  | .format _ x => x.all
  | .ring _ x => x.all
  | .publish _ x => x.all
  | .wait _ x => x.all
  | .asleep _ x => x.all
  | .freeing _ x i => x.rest i
  | _ => []

/-- The descriptors that were allocated for it. -/
def Pc.idx : Pc B → Option Idx
  | .format _ x => some x
  | .ring _ x => some x
  | .publish _ x => some x
  | .wait _ x => some x
  | .asleep _ x => some x
  | .freeing _ x _ => some x
  | _ => none

/-- The call. -/
def Pc.call : Pc B → Option (Call B)
  | .idle => none
  | .start c => some c
  | .alloc c => some c
  | .noDesc c => some c
  | .format c _ => some c
  | .ring c _ => some c
  | .publish c _ => some c
  | .wait c _ => some c
  | .asleep c _ => some c
  | .freeing c _ _ => some c
  | .release c => some c

/-- Whether it has `vdisk_lock`. -/
def Pc.holds : Pc B → Bool
  | .idle => false
  | .start _ => false
  | .noDesc _ => false
  | .asleep _ _ => false
  | _ => true

/-- What it waits for. -/
def Pc.waits : Pc B → Option (Call B × Idx)
  | .wait c x => some (c, x)
  | .asleep c x => some (c, x)
  | _ => none

end Processes

section Invariant

variable {P B : Type} {s t : VState P B} {p : P} {x : Pc B} {av us : List (Item B)}

/-- The request of a call is written into its descriptors. -/
structure Made (s : VState P B) (c : Call B) (x : Idx) : Prop where
  desc : ∀ j ∈ x.all, s.disk.desc j = wanted c x j
  req : s.disk.ops x.i0 = blkReq (s.blockno c.b) c
  buf : (s.disk.info x.i0).b = some c.b

/-- A process is where it should be. -/
def ProcOk (s : VState P B) : Pc B → Prop
  | .ring c x => Made s c x ∧ s.owned c.b = true
  | .publish c x => Made s c x ∧ s.owned c.b = true ∧ s.disk.avail.ring (cell s.disk.avail.idx) = index x.i0
  | .wait c x => Made s c x
  | .asleep c x => Made s c x
  | .freeing c x i => ((x.rest i).head?).map index = some i ∧ ∀ j ∈ x.rest i, s.disk.desc j = wanted c x j
  | _ => True

/-- What a step leaves to a process: its descriptors and its buffer. -/
structure Leaves (s t : VState P B) (x : Pc B) : Prop where
  desc : ∀ j ∈ x.owns, t.disk.desc j = s.disk.desc j
  ops : ∀ j ∈ x.owns, t.disk.ops j = s.disk.ops j
  info : ∀ j ∈ x.owns, (t.disk.info j).b = (s.disk.info j).b
  blockno : ∀ c, x.call = some c → t.blockno c.b = s.blockno c.b

theorem Made.leaves {c : Call B} {i : Idx} (h : Made s c i) (hl : Leaves s t x) (howns : x.owns = i.all)
    (hcall : x.call = some c) : Made t c i := by
  have h0 : i.i0 ∈ x.owns := by simp [howns, Idx.all]
  refine ⟨fun j hj => ?_, ?_, ?_⟩
  · rw [hl.desc j (howns ▸ hj)]
    exact h.desc j hj
  · rw [hl.ops _ h0, hl.blockno c hcall]
    exact h.req
  · rw [hl.info _ h0]
    exact h.buf

theorem ProcOk.leaves (h : ProcOk s x) (hl : Leaves s t x) (hx : x.holds = false) : ProcOk t x := by
  cases x with
  | asleep c i => exact Made.leaves h hl rfl rfl
  | idle => trivial
  | start c => trivial
  | noDesc c => trivial
  | _ => simp [Pc.holds] at hx

theorem ProcOk.leaves_all (h : ProcOk s x) (hl : Leaves s t x) (howned : ∀ c, x.call = some c → t.owned c.b = s.owned c.b)
    (havail : t.disk.avail = s.disk.avail) : ProcOk t x := by
  cases x with
  | ring c i => exact ⟨h.1.leaves hl rfl rfl, (howned c rfl).trans h.2⟩
  | publish c i => exact ⟨h.1.leaves hl rfl rfl, (howned c rfl).trans h.2.1, havail ▸ h.2.2⟩
  | wait c i => exact Made.leaves h hl rfl rfl
  | asleep c i => exact Made.leaves h hl rfl rfl
  | freeing c i k => exact ⟨h.1, fun j hj => (hl.desc j hj).trans (h.2 j hj)⟩
  | _ => trivial

/-- The driver. -/
structure Driver (s : VState P B) : Prop where
  fault : s.fault = none
  /-- Who has `vdisk_lock`. -/
  lock : ∀ p, (s.pc p).holds = true ↔ s.lock = some (.proc p)
  /-- A call has the lock of its buffer. -/
  buf : ∀ p c, (s.pc p).call = some c → s.locked c.b = some p
  /-- A descriptor is free or has one owner. -/
  own : Exclusive (fun p => (s.pc p).owns) s.disk.free
  nodup : ∀ p i, (s.pc p).idx = some i → i.all.Nodup
  proc : ∀ p, ProcOk s (s.pc p)

/-- The chain of a call, as the device is to read it. -/
def itemOf (blockno : B → UInt32) (c : Call B) (i : Idx) : Item B := ⟨i.i0, blkReq (blockno c.b) c, c.b, i.i0⟩

/-- The call of process `p` waits for the device to do `x`. -/
def Pending (s : VState P B) (p : P) (x : Item B) : Prop :=
  ∃ c i, (s.pc p).waits = some (c, i) ∧ s.owned c.b = true ∧ x = itemOf s.blockno c i

/-- The device: `av` lies in the `avail` ring and `us` in the `used` ring. -/
structure Rings (s : VState P B) (av us : List (Item B)) : Prop where
  avail : ∃ n, s.seen = UInt16.ofNat n ∧ s.disk.avail.idx = UInt16.ofNat (n + av.length) ∧
    Queued s.disk.avail.ring n (av.map fun x => index x.head)
  used : ∃ n, s.disk.usedIdx = UInt16.ofNat n ∧ s.disk.used.idx = UInt16.ofNat (n + us.length) ∧
    Queued s.disk.used.ring n (us.map fun x => UInt32.ofNat x.head)
  nodup : ((av ++ s.working ++ us).map Item.head).Nodup
  /-- What the device has to do, or has done, is what the calls wait for. -/
  mem : ∀ x, x ∈ av ++ s.working ++ us ↔ ∃ p, Pending s p x
  status : ∀ x ∈ us, (s.disk.info x.head).status = 0

/-! ### Facts -/

theorem Pc.owns_of_waits {c : Call B} {i : Idx} (h : x.waits = some (c, i)) :
    x.owns = i.all ∧ x.call = some c ∧ x.idx = some i := by
  cases x <;> simp_all [waits, owns, call, idx]

theorem Driver.buf_inj (h : Driver s) {q : P} {c c' : Call B} (hp : (s.pc p).call = some c) (hq : (s.pc q).call = some c')
    (hb : c.b = c'.b) : p = q := by
  have h1 := h.buf p c hp
  rw [hb, h.buf q c' hq] at h1
  exact (Option.some.inj h1).symm

theorem Pending.head_mem {y : Item B} (h : Pending s p y) : y.head ∈ (s.pc p).owns := by
  obtain ⟨c, i, hw, -, rfl⟩ := h
  rw [(Pc.owns_of_waits hw).1]
  simp [Idx.all, itemOf]

theorem Rings.length_lt (h : Rings s av us) {j : Fin NUM}
    (hj : j ∉ (av ++ s.working ++ us).map Item.head) : (av ++ s.working ++ us).length < NUM := by
  have hnodup : (j :: (av ++ s.working ++ us).map Item.head).Nodup := List.nodup_cons.mpr ⟨hj, h.nodup⟩
  have hle := hnodup.length_le_card
  rw [Fintype.card_fin, List.length_cons, List.length_map] at hle
  omega

theorem Rings.length_le (h : Rings s av us) : (av ++ s.working ++ us).length ≤ NUM := by
  have hle := h.nodup.length_le_card
  rwa [Fintype.card_fin, List.length_map] at hle

theorem cell_ofNat (n : ℕ) : cell (UInt16.ofNat n) = Fin.ofNat NUM n := by
  apply Fin.ext
  simp only [cell, Fin.ofNat, UInt16.toNat_ofNat', NUM]
  omega

theorem ofNat_succ (n : ℕ) : UInt16.ofNat n + 1 = UInt16.ofNat (n + 1) := by
  rw [UInt16.ofNat_add]
  rfl

theorem Driver.not_holds (h : Driver s) (hp : s.lock = some (.proc p)) {q : P} (hq : q ≠ p) : (s.pc q).holds = false := by
  rw [Bool.eq_false_iff]
  intro hholds
  have hlock := (h.lock q).mp hholds
  rw [hp] at hlock
  cases hlock
  exact hq rfl

theorem Rings.frame_avail (h : Rings s av us) (hworking : t.working = s.working)
    (havail : ∃ n, t.seen = UInt16.ofNat n ∧ t.disk.avail.idx = UInt16.ofNat (n + av.length) ∧
      Queued t.disk.avail.ring n (av.map fun x => index x.head))
    (hused : t.disk.used = s.disk.used) (husedIdx : t.disk.usedIdx = s.disk.usedIdx)
    (hstatus : ∀ y ∈ us, (t.disk.info y.head).status = (s.disk.info y.head).status)
    (hmem : ∀ y, (∃ q, Pending t q y) ↔ ∃ q, Pending s q y) : Rings t av us := by
  refine ⟨havail, ?_, ?_, fun y => ?_, fun y hy => ?_⟩
  · rw [husedIdx, hused]
    exact h.used
  · rw [hworking]
    exact h.nodup
  · rw [hworking, hmem y]
    exact h.mem y
  · rw [hstatus y hy]
    exact h.status y hy

theorem Rings.frame (h : Rings s av us) (hseen : t.seen = s.seen) (hworking : t.working = s.working)
    (havail : t.disk.avail = s.disk.avail) (hused : t.disk.used = s.disk.used) (husedIdx : t.disk.usedIdx = s.disk.usedIdx)
    (hstatus : ∀ y ∈ us, (t.disk.info y.head).status = (s.disk.info y.head).status)
    (hmem : ∀ y, (∃ q, Pending t q y) ↔ ∃ q, Pending s q y) : Rings t av us := by
  refine h.frame_avail hworking ?_ hused husedIdx hstatus hmem
  rw [hseen, havail]
  exact h.avail

/-- Others keep their place when `p`, which has the lock, does a step that leaves them their own. -/
theorem Driver.others (hD : Driver s) (hp : s.lock = some (.proc p)) (hleaves : ∀ q, q ≠ p → Leaves s t (s.pc q)) :
    ∀ q, q ≠ p → ProcOk t (s.pc q) :=
  fun q hq => (hD.proc q).leaves (hleaves q hq) (hD.not_holds hp hq)

/-- What is in the rings belongs to others than a process that does not wait. -/
theorem Rings.head_not_owned (hR : Rings s av us) (hD : Driver s) (hw : (s.pc p).waits = none) {y : Item B}
    (hy : y ∈ av ++ s.working ++ us) : y.head ∉ (s.pc p).owns := by
  intro hmem
  obtain ⟨q, hq⟩ := (hR.mem y).mp hy
  have hqp : q = p := hD.own.unique hmem hq.head_mem
  subst hqp
  obtain ⟨c, i, hwaits, -⟩ := hq
  rw [hw] at hwaits
  cases hwaits

theorem Rings.head_not_mem (hR : Rings s av us) (hD : Driver s) {i : Idx} (howns : (s.pc p).owns = i.all)
    (hw : (s.pc p).waits = none) : i.i0 ∉ (av ++ s.working ++ us).map Item.head := by
  intro hmem
  obtain ⟨y, hy, hyi⟩ := List.mem_map.mp hmem
  refine hR.head_not_owned hD hw hy ?_
  rw [howns, hyi]
  simp [Idx.all]

theorem Rings.room_avail (hR : Rings s av us) (hD : Driver s) {i : Idx} (howns : (s.pc p).owns = i.all)
    (hw : (s.pc p).waits = none) : av.length < NUM := by
  have hlt := hR.length_lt (hR.head_not_mem hD howns hw)
  simp only [List.length_append] at hlt
  omega

theorem Rings.room_used (hR : Rings s av us) {y : Item B} (hy : y ∈ s.working) : us.length < NUM := by
  have hle := hR.length_le
  have hpos := List.length_pos_of_mem hy
  simp only [List.length_append] at hle
  omega

end Invariant

end Xv6Shmem.Virtio
