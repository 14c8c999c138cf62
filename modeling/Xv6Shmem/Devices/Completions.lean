import Xv6Shmem.Devices.Transfers

/-!
# The disk matches completions to requests

A `History` goes along with a run and records the buffers of the requests that were made and completed, and
the buffers whose flags were cleared.

## What is proved

* `Sound.step` — a step keeps the driver, the device and the history together.
* `step_rings` — who writes the rings, and where.
* `completions_match` — in every reachable state no panic is due, every descriptor has one owner, no entry of a
  ring is lost, and the handler clears the flag of the buffer that made the request.
-/

namespace Xv6Shmem.Virtio

open Function LTS Ring

/-! ### Runs -/

/-- What goes along with a run: the buffers of the requests that the driver has made and that the device has completed,
and the buffers whose flags the handler has cleared, first ones first. -/
structure History (B : Type) where
  made : List B
  completed : List B
  cleared : List B

section Runs

variable {P B : Type}

/-- The driver, the device and the history. -/
structure Sound (s : VState P B) (h : History B) (av us : List (Item B)) : Prop where
  driver : Driver s
  rings : Rings s av us
  completed : h.completed = h.cleared ++ us.map Item.buf
  made : h.made.Perm (h.completed ++ (av ++ s.working).map Item.buf)

variable {s t : VState P B} {h : History B} {av us : List (Item B)}

theorem Sound.same {h' : History B} (hs : Sound s h av us) (ht : Driver t ∧ Rings t av us) (hh : h' = h)
    (hworking : t.working = s.working) : ∃ av us, Sound t h' av us := by
  subst hh
  refine ⟨av, us, ht.1, ht.2, hs.completed, ?_⟩
  rw [hworking]
  exact hs.made

theorem sound_init : Sound (.init : VState P B) ⟨[], [], []⟩ [] [] := by
  refine ⟨⟨rfl, fun p => ?_, fun p c hc => ?_, fun j => .inl ⟨rfl, fun p => List.not_mem_nil⟩, fun p i hi => ?_, fun p => trivial⟩,
    ⟨⟨0, rfl, rfl, Queued.nil _ _⟩, ⟨0, rfl, rfl, Queued.nil _ _⟩, List.nodup_nil, fun y => ?_, fun y hy => ?_⟩, rfl, .nil⟩
  · simp [VState.init, Pc.holds]
  · cases hc
  · cases hi
  · refine iff_of_false List.not_mem_nil ?_
    rintro ⟨p, c, i, hw, -⟩
    cases hw
  · cases hy

/-- A buffer that no call is for. -/
theorem Sound.buf [DecidableEq B] (hs : Sound s h av us) {b : B} (hne : ∀ q c, (s.pc q).call = some c → c.b ≠ b)
    (o : Option P) (n : UInt32) :
    ∃ av us, Sound { s with locked := Function.update s.locked b o, blockno := Function.update s.blockno b n } h av us := by
  have hD := hs.driver
  refine hs.same ⟨hD.frame rfl hD.fault (fun q => Iff.rfl) (fun q c hc => ?_) rfl fun q => ?_,
    hs.rings.frame rfl rfl rfl rfl rfl (fun _ _ => rfl) (pending_same rfl (fun _ _ _ => rfl) fun q c hc => ?_)⟩ rfl rfl
  · exact (update_of_ne (hne q c hc) _ _).trans (hD.buf q c hc)
  · refine (hD.proc q).leaves_all ⟨fun _ _ => rfl, fun _ _ => rfl, fun _ _ => rfl, fun c hc => ?_⟩ (fun _ _ => rfl) rfl
    exact update_of_ne (hne q c hc) _ _
  · exact update_of_ne (hne q c hc) _ _

theorem Sound.bget [DecidableEq B] (hs : Sound s h av us) {b : B} (p : P) (n : UInt32) (hfree : s.locked b = none) :
    ∃ av us, Sound { s with locked := Function.update s.locked b (some p), blockno := Function.update s.blockno b n }
      h av us := by
  refine hs.buf ?_ _ n
  rintro q c hc rfl
  rw [hs.driver.buf q c hc] at hfree
  cases hfree

theorem Sound.brelse [DecidableEq B] (hs : Sound s h av us) {b : B} {p : P} (hpc : s.pc p = .idle) (hb : s.locked b = some p) :
    ∃ av us, Sound { s with locked := Function.update s.locked b none } h av us := by
  have hne : ∀ q c, (s.pc q).call = some c → c.b ≠ b := by
    rintro q c hc rfl
    rw [hs.driver.buf q c hc] at hb
    cases hb
    rw [hpc] at hc
    cases hc
  have hs' := hs.buf hne none (s.blockno b)
  rwa [Function.update_eq_self] at hs'

theorem Sound.relock (hs : Sound s h av us) {l : Option (Holder P)}
    (hlock : ∀ q, s.lock ≠ some (.proc q) ∧ l ≠ some (.proc q)) : ∃ av us, Sound { s with lock := l } h av us := by
  have hD := hs.driver
  refine hs.same ⟨hD.frame rfl hD.fault (fun q => iff_of_false (hlock q).1 (hlock q).2) hD.buf rfl fun q => ?_,
    hs.rings.frame rfl rfl rfl rfl rfl (fun _ _ => rfl) (pending_same rfl (fun _ _ _ => rfl) fun _ _ _ => rfl)⟩ rfl rfl
  exact (hD.proc q).leaves_all ⟨fun _ _ => rfl, fun _ _ => rfl, fun _ _ => rfl, fun _ _ => rfl⟩ (fun _ _ => rfl) rfl

variable [DecidableEq P] [DecidableEq B]

/-- A step. -/
def History.after (s : VState P B) (a : Act P B) (h : History B) : History B :=
  match a with
  | .run p =>
    match s.pc p with
    | .publish c _ => { h with made := h.made ++ [c.b] }
    | _ => h
  | .complete k => { h with completed := h.completed ++ (s.working[k]?.map Item.buf).toList }
  | .turn =>
    if s.disk.usedIdx ≠ s.disk.used.idx then
      match intr s.disk with
      | .ok y => { h with cleared := h.cleared ++ [y.1] }
      | .error _ => h
    else h
  | _ => h

theorem Sound.run (hs : Sound s h av us) {p : P} (ht : s.run p = some t) : ∃ av us, Sound t (h.after s (.run p)) av us := by
  have hD := hs.driver
  have hR := hs.rings
  unfold VState.run at ht
  cases hpc : s.pc p with
  | idle => simp [hpc] at ht
  | start c | noDesc c =>
    simp only [hpc] at ht
    have hsame : t.working = s.working := by rw [(take_eq_some ht).2]; rfl
    refine hs.same (sound_take hD hR ht rfl ?_ ?_ ?_ ?_ trivial) (by simp [History.after, hpc]) hsame
    all_goals rw [hpc]; rfl
  | alloc c =>
    simp only [hpc] at ht
    obtain ⟨r, d, ha, hall⟩ := alloc3Desc_spec s.disk
    rw [ha] at ht
    cases r with
    | none =>
      cases ht
      exact hs.same (sound_alloc_none hD hR hpc hall) (by simp [History.after, hpc]) rfl
    | some i =>
      cases ht
      exact hs.same (sound_alloc_some hD hR hpc hall) (by simp [History.after, hpc]) rfl
  | format c i =>
    simp only [hpc] at ht
    cases ht
    exact hs.same (sound_format hD hR hpc) (by simp [History.after, hpc]) rfl
  | ring c i =>
    simp only [hpc] at ht
    cases ht
    exact hs.same (sound_ring hD hR hpc) (by simp [History.after, hpc]) rfl
  | publish c i =>
    simp only [hpc] at ht
    cases ht
    obtain ⟨hD', hR'⟩ := sound_publish hD hR hpc
    refine ⟨_, us, hD', hR', ?_, ?_⟩
    · simpa [History.after, hpc] using hs.completed
    · have hmid : (h.completed ++ av.map Item.buf ++ c.b :: s.working.map Item.buf).Perm
          (c.b :: (h.completed ++ av.map Item.buf ++ s.working.map Item.buf)) := List.perm_middle
      have hnew : (h.made ++ [c.b]).Perm (c.b :: (h.completed ++ av.map Item.buf ++ s.working.map Item.buf)) := by
        refine (List.perm_append_singleton c.b h.made).trans (List.Perm.cons c.b ?_)
        simpa using hs.made
      simpa [History.after, hpc, itemOf, VState.goto] using hnew.trans hmid.symm
  | wait c i =>
    simp only [hpc] at ht
    split at ht
    · cases ht
      have hmade : Made s c i := (hpc ▸ hD.proc p : ProcOk s (.wait c i))
      refine hs.same (sound_drop hD hR ((hD.lock p).mp (by rw [hpc]; rfl)) rfl ?_ ?_ ?_ ?_ hmade)
        (by simp [History.after, hpc]) rfl
      · intro c' hc
        rw [hpc]
        exact hc
      · rw [hpc]
        rfl
      · intro i' hi
        rw [hpc]
        exact hi
      · rw [hpc]
        rfl
    · rename_i howned
      cases ht
      exact hs.same (sound_done hD hR hpc (by simpa using howned)) (by simp [History.after, hpc]) rfl
  | asleep c i =>
    simp only [hpc] at ht
    have hsame : t.working = s.working := by rw [(take_eq_some ht).2]; rfl
    have hmade : Made s c i := (hpc ▸ hD.proc p : ProcOk s (.asleep c i))
    refine hs.same (sound_take hD hR ht rfl ?_ ?_ ?_ ?_ hmade) (by simp [History.after, hpc]) hsame
    all_goals rw [hpc]; rfl
  | freeing c i k =>
    simp only [hpc] at ht
    obtain ⟨y, hy, hstep⟩ := sound_freeing hD hR hpc
    rw [hy] at ht
    simp only [VState.with, Option.some.injEq] at ht
    refine hs.same (hstep t ht.symm) (by simp [History.after, hpc]) ?_
    rw [← ht]
    split <;> rfl
  | release c =>
    simp only [hpc] at ht
    cases ht
    refine hs.same (sound_drop hD hR ((hD.lock p).mp (by rw [hpc]; rfl)) rfl (fun c' hc => ?_) ?_ (fun i hi => ?_) ?_ trivial)
      (by simp [History.after, hpc]) rfl
    · cases hc
    · rw [hpc]
      rfl
    · cases hi
    · rw [hpc]
      rfl

/-- **A step** of the system. -/
theorem Sound.step {a : Act P B} (hs : Sound s h av us) (ht : s.step a = some t) : ∃ av us, Sound t (h.after s a) av us := by
  have hD := hs.driver
  have hR := hs.rings
  unfold VState.step at ht
  rw [if_neg (not_not.mpr hD.fault)] at ht
  cases a with
  | bget p b n =>
    dsimp only at ht
    rw [Option.ite_none_right_eq_some] at ht
    obtain ⟨hfree, ht⟩ := ht
    cases ht
    exact hs.bget p n hfree
  | brelse p b =>
    dsimp only at ht
    split at ht
    · rename_i hpc
      rw [Option.ite_none_right_eq_some] at ht
      obtain ⟨hb, ht⟩ := ht
      cases ht
      exact hs.brelse hpc hb
    · cases ht
  | rw p c =>
    dsimp only at ht
    split at ht
    · rename_i hpc
      rw [Option.ite_none_right_eq_some] at ht
      obtain ⟨hb, ht⟩ := ht
      cases ht
      have hidle : s.lock ≠ some (.proc p) := by
        intro hl
        have hholds := (hD.lock p).mpr hl
        rw [hpc] at hholds
        cases hholds
      refine hs.same (sound_goto hD hR (l := s.lock) ?_ (fun q _ => Iff.rfl) (fun c' hc => ?_) ?_ (fun i hi => ?_) ?_ trivial)
        rfl rfl
      · exact iff_of_false Bool.false_ne_true hidle
      · cases hc
        exact hb
      · rw [hpc]
        rfl
      · cases hi
      · rw [hpc]
        rfl
    · cases ht
  | run p => exact hs.run ht
  | intr =>
    dsimp only at ht
    rw [Option.ite_none_right_eq_some] at ht
    obtain ⟨hfree, ht⟩ := ht
    cases ht
    exact hs.relock fun q => ⟨by simp [hfree], by simp⟩
  | turn =>
    dsimp only at ht
    rw [Option.ite_none_right_eq_some] at ht
    obtain ⟨hlock, ht⟩ := ht
    split at ht
    · rename_i hne
      obtain ⟨y, us', p, c, i, rfl, -, -, hitem, hintr, hD', hR'⟩ := sound_turn hD hR hlock hne
      rw [hintr] at ht
      cases ht
      refine ⟨av, us', hD', hR', ?_, ?_⟩
      · have hcompleted := hs.completed
        simp only [History.after, if_pos hne, hintr]
        rw [hcompleted, List.map_cons, hitem]
        simp [itemOf]
      · simp only [History.after, if_pos hne, hintr]
        exact hs.made
    · rename_i hne
      cases ht
      have hafter : h.after s .turn = h := by simp [History.after, not_not.mp hne]
      rw [hafter]
      exact hs.relock fun q => ⟨by simp [hlock], by simp⟩
  | fetch =>
    dsimp only at ht
    rw [Option.ite_none_right_eq_some] at ht
    obtain ⟨hne, ht⟩ := ht
    obtain ⟨y, av', rfl, hread, hD', hR'⟩ := sound_fetch hD hR hne
    rw [hread] at ht
    cases ht
    refine ⟨av', us, hD', hR', hs.completed, hs.made.trans ?_⟩
    refine List.Perm.append_left _ (List.Perm.map _ ?_)
    have hmid : (av' ++ s.working ++ y :: []).Perm (y :: (av' ++ s.working ++ [])) := List.perm_middle
    simpa using hmid.symm
  | complete k =>
    dsimp only at ht
    obtain ⟨y, hk, rfl⟩ := Option.map_eq_some_iff.mp ht
    obtain ⟨hD', hR'⟩ := sound_complete hD hR hk
    refine ⟨av, us ++ [y], hD', hR', ?_, ?_⟩
    · simp [History.after, hk, hs.completed]
    · obtain ⟨hlt, hget⟩ := List.getElem?_eq_some_iff.mp hk
      have herase : (y :: s.working.eraseIdx k).Perm s.working := hget ▸ List.getElem_cons_eraseIdx_perm hlt
      have hmid : (av ++ y :: s.working.eraseIdx k).Perm (y :: (av ++ s.working.eraseIdx k)) := List.perm_middle
      have hperm : (av ++ s.working).Perm (y :: (av ++ s.working.eraseIdx k)) := (herase.symm.append_left av).trans hmid
      simpa [History.after, hk] using hs.made.trans (List.Perm.append_left _ (hperm.map Item.buf))

/-- The system with its history. -/
def virtioHistory (P B : Type) [DecidableEq P] [DecidableEq B] : LTS (VState P B × History B) (Act P B) :=
  (virtioMachine P B).ghost ⟨[], [], []⟩ History.after

theorem sound_of_reachable {x : VState P B × History B} (hx : (virtioHistory P B).Reachable x) :
    ∃ av us, Sound x.1 x.2 av us := by
  apply Reachable.invariant (I := fun x => ∃ av us, Sound x.1 x.2 av us) _ _ hx
  · rintro ⟨s, h⟩ ⟨hs, hh⟩
    cases hs
    cases hh
    exact ⟨[], [], sound_init⟩
  · rintro ⟨s, h⟩ a ⟨t, h'⟩ - ⟨av, us, hs⟩ ⟨ht, hh⟩
    cases hh
    exact hs.step ht

/-! ### Entries of the rings -/

/-- The entries of a ring between two counters are left alone. -/
def Untouched {α : Type} (ring ring' : Fin NUM → α) (r w : UInt16) : Prop :=
  ∀ k, k < (w - r).toNat → ring' (cell (r + UInt16.ofNat k)) = ring (cell (r + UInt16.ofNat k))

theorem untouched_update {α : Type} (ring : Fin NUM → α) (x : α) {n m : ℕ} (hm : m < NUM) :
    Untouched ring (update ring (cell (UInt16.ofNat (n + m))) x) (UInt16.ofNat n) (UInt16.ofNat (n + m)) := by
  intro k hk
  have hm' : m < 8 := hm
  have hsub : UInt16.ofNat (n + m) - UInt16.ofNat n = UInt16.ofNat m := by
    rw [UInt16.ofNat_add]
    grind
  rw [hsub, UInt16.toNat_ofNat'] at hk
  rw [← UInt16.ofNat_add, cell_ofNat, cell_ofNat]
  exact update_of_ne (ofNat_ne (by omega) (by omega)) _ _

omit [DecidableEq P] [DecidableEq B] in
theorem freeChain_rings {i : UInt16} {d : Disk B} {y : Option UInt16 × Disk B} (hd : freeChain i d = .ok y) :
    y.2.avail = d.avail ∧ y.2.used = d.used := by
  unfold freeChain at hd
  split at hd
  · cases hd
  · rename_i j hj
    by_cases hfree : d.free j = true
    · simp [freeDesc, hj, hfree, Bind.bind, Except.bind] at hd
    · have hslot : i = index j := by
        rw [slot] at hj
        split at hj
        · cases hj
          exact UInt16.toNat_inj.mp (by simp)
        · cases hj
      rw [hslot, toNat_index, freeDesc_ok (by simpa using hfree)] at hd
      cases hd
      exact ⟨rfl, rfl⟩

omit [DecidableEq P] [DecidableEq B] in
theorem intr_rings {d : Disk B} {y : B × Disk B} (hd : intr d = .ok y) : y.2.avail = d.avail ∧ y.2.used = d.used := by
  unfold intr at hd
  split at hd
  · cases hd
  · split at hd
    · cases hd
    · split at hd
      · cases hd
      · cases hd
        exact ⟨rfl, rfl⟩

/-- Who writes the `avail` ring, and where. -/
def WritesAvail (s t : VState P B) : Prop :=
  ∃ p c i, s.pc p = .ring c i ∧
    t.disk.avail.ring = update s.disk.avail.ring (cell s.disk.avail.idx) (index i.i0) ∧ t.disk.used = s.disk.used

/-- Who writes the `used` ring, and where. -/
def WritesUsed (s t : VState P B) : Prop :=
  ∃ y ∈ s.working, t.disk.used.ring = update s.disk.used.ring (cell s.disk.used.idx) (UInt32.ofNat y.head) ∧
    t.disk.avail = s.disk.avail

/-- A process writes the `avail` ring before it counts its entry, and nothing else. -/
theorem run_rings {p : P} (ht : s.run p = some t) :
    (t.disk.avail.ring = s.disk.avail.ring ∧ t.disk.used.ring = s.disk.used.ring) ∨ WritesAvail s t := by
  unfold VState.run at ht
  cases hpc : s.pc p with
  | idle => simp [hpc] at ht
  | start c =>
    simp only [hpc] at ht
    rw [(take_eq_some ht).2]
    exact .inl ⟨rfl, rfl⟩
  | alloc c =>
    simp only [hpc] at ht
    obtain ⟨r, d, ha, hall⟩ := alloc3Desc_spec s.disk
    rw [ha] at ht
    cases hall with
    | some i =>
      cases ht
      exact .inl ⟨rfl, rfl⟩
    | none =>
      cases ht
      exact .inl ⟨rfl, rfl⟩
  | noDesc c =>
    simp only [hpc] at ht
    rw [(take_eq_some ht).2]
    exact .inl ⟨rfl, rfl⟩
  | format c i =>
    simp only [hpc] at ht
    cases ht
    exact .inl ⟨rfl, rfl⟩
  | ring c i =>
    simp only [hpc] at ht
    cases ht
    exact .inr ⟨p, c, i, hpc, rfl, rfl⟩
  | publish c i =>
    simp only [hpc] at ht
    cases ht
    exact .inl ⟨rfl, rfl⟩
  | wait c i =>
    simp only [hpc] at ht
    split at ht
    · cases ht
      exact .inl ⟨rfl, rfl⟩
    · cases ht
      exact .inl ⟨rfl, rfl⟩
  | asleep c i =>
    simp only [hpc] at ht
    rw [(take_eq_some ht).2]
    exact .inl ⟨rfl, rfl⟩
  | freeing c i k =>
    simp only [hpc, Option.some.injEq] at ht
    subst ht
    cases hfree : freeChain k s.disk with
    | error e => exact .inl ⟨rfl, rfl⟩
    | ok y =>
      obtain ⟨havail, hused⟩ := freeChain_rings hfree
      refine .inl ?_
      simp only [VState.with]
      split
      · exact ⟨congrArg Avail.ring havail, congrArg Used.ring hused⟩
      · exact ⟨congrArg Avail.ring havail, congrArg Used.ring hused⟩
  | release c =>
    simp only [hpc] at ht
    cases ht
    exact .inl ⟨rfl, rfl⟩

theorem step_rings {a : Act P B} (ht : s.step a = some t) :
    (t.disk.avail.ring = s.disk.avail.ring ∧ t.disk.used.ring = s.disk.used.ring) ∨ WritesAvail s t ∨ WritesUsed s t := by
  unfold VState.step at ht
  split at ht
  · cases ht
  cases a with
  | bget p b n =>
    dsimp only at ht
    rw [Option.ite_none_right_eq_some] at ht
    cases ht.2
    exact .inl ⟨rfl, rfl⟩
  | brelse p b =>
    dsimp only at ht
    split at ht
    · rw [Option.ite_none_right_eq_some] at ht
      cases ht.2
      exact .inl ⟨rfl, rfl⟩
    · cases ht
  | rw p c =>
    dsimp only at ht
    split at ht
    · rw [Option.ite_none_right_eq_some] at ht
      cases ht.2
      exact .inl ⟨rfl, rfl⟩
    · cases ht
  | run p =>
    rcases run_rings ht with hsame | hwrite
    · exact .inl hsame
    · exact .inr (.inl hwrite)
  | intr =>
    dsimp only at ht
    rw [Option.ite_none_right_eq_some] at ht
    cases ht.2
    exact .inl ⟨rfl, rfl⟩
  | turn =>
    dsimp only at ht
    rw [Option.ite_none_right_eq_some] at ht
    obtain ⟨-, ht⟩ := ht
    split at ht
    · cases hintr : intr s.disk with
      | error e =>
        rw [hintr] at ht
        cases ht
        exact .inl ⟨rfl, rfl⟩
      | ok y =>
        rw [hintr] at ht
        cases ht
        obtain ⟨havail, hused⟩ := intr_rings hintr
        exact .inl ⟨congrArg Avail.ring havail, congrArg Used.ring hused⟩
    · cases ht
      exact .inl ⟨rfl, rfl⟩
  | fetch =>
    dsimp only at ht
    rw [Option.ite_none_right_eq_some] at ht
    obtain ⟨y, -, rfl⟩ := Option.map_eq_some_iff.mp ht.2
    exact .inl ⟨rfl, rfl⟩
  | complete k =>
    dsimp only at ht
    obtain ⟨y, hk, rfl⟩ := Option.map_eq_some_iff.mp ht
    exact .inr (.inr ⟨y, List.mem_of_getElem? hk, rfl, rfl⟩)

/-- No entry is overwritten before it is consumed. -/
theorem Sound.untouched (hs : Sound s h av us) {a : Act P B} (ht : s.step a = some t) :
    Untouched s.disk.avail.ring t.disk.avail.ring s.seen s.disk.avail.idx ∧
      Untouched s.disk.used.ring t.disk.used.ring s.disk.usedIdx s.disk.used.idx := by
  rcases step_rings ht with ⟨havail, hused⟩ | ⟨p, c, i, hpc, havail, hused⟩ | ⟨y, hy, hused, havail⟩
  · rw [havail, hused]
    exact ⟨fun _ _ => rfl, fun _ _ => rfl⟩
  · obtain ⟨n, hseen, hidx, -⟩ := hs.rings.avail
    have hroom : av.length < NUM := hs.rings.room_avail hs.driver (i := i) (by rw [hpc]; rfl) (by rw [hpc]; rfl)
    rw [havail, hused, hseen, hidx]
    exact ⟨untouched_update _ _ hroom, fun _ _ => rfl⟩
  · obtain ⟨n, husedIdx, hidx, -⟩ := hs.rings.used
    rw [havail, hused, husedIdx, hidx]
    exact ⟨fun _ _ => rfl, untouched_update _ _ (hs.rings.room_used hy)⟩

/-! ### The protocol -/

/-- What holds in every reachable state. -/
structure Matched (s : VState P B) (h : History B) : Prop where
  /-- No panic, no access outside of a table. -/
  fault : s.fault = none
  /-- A descriptor is free or belongs to one call, which has it once. -/
  own : Exclusive (fun p => (s.pc p).owns) s.disk.free
  once : ∀ p, (s.pc p).owns.Nodup
  /-- An entry of a ring stays until it is consumed. -/
  untouched : ∀ a t, s.step a = some t →
    Untouched s.disk.avail.ring t.disk.avail.ring s.seen s.disk.avail.idx ∧
      Untouched s.disk.used.ring t.disk.used.ring s.disk.usedIdx s.disk.used.idx
  /-- The requests that were made are those that have been completed and those the device has still to do. -/
  made : ∃ todo, h.made.Perm (h.completed ++ todo)
  /-- The flags are cleared in the order of the completions. -/
  cleared : h.cleared <+: h.completed
  /-- A turn of the handler clears the flag of the buffer of the next completion, and no other: it was set, and the call
  that made the request waits. -/
  turn : ∀ t, s.step .turn = some t → s.disk.usedIdx ≠ s.disk.used.idx →
    ∃ p c i, (s.pc p).waits = some (c, i) ∧ s.disk.used.ring (cell s.disk.usedIdx) = UInt32.ofNat i.i0 ∧
      s.owned c.b = true ∧ h.completed[h.cleared.length]? = some c.b ∧ t.owned = update s.owned c.b false
  /-- The device can go on. -/
  fetch : s.seen ≠ s.disk.avail.idx → (s.step .fetch).isSome = true
  /-- When all calls have returned, all descriptors are free. -/
  idle : (∀ p, s.pc p = .idle) → ∀ j, s.disk.free j = true

omit [DecidableEq P] [DecidableEq B] in
theorem Driver.owns_nodup (hD : Driver s) (p : P) : (s.pc p).owns.Nodup := by
  have hnodup := hD.nodup p
  cases hpc : s.pc p with
  | freeing c i k => exact (hnodup i (by rw [hpc]; rfl)).sublist (List.dropWhile_sublist _)
  | format c i => exact hnodup i (by rw [hpc]; rfl)
  | ring c i => exact hnodup i (by rw [hpc]; rfl)
  | publish c i => exact hnodup i (by rw [hpc]; rfl)
  | wait c i => exact hnodup i (by rw [hpc]; rfl)
  | asleep c i => exact hnodup i (by rw [hpc]; rfl)
  | _ => exact List.nodup_nil

/-- **Completions match requests**: the driver and the device, any number of processes, and any order. -/
theorem completions_match (hx : (virtioHistory P B).Reachable (s, h)) : Matched s h := by
  obtain ⟨av, us, hs⟩ : ∃ av us, Sound s h av us := sound_of_reachable hx
  have hD := hs.driver
  have hR := hs.rings
  refine ⟨hD.fault, hD.own, hD.owns_nodup, fun a t ht => hs.untouched ht, ⟨_, hs.made⟩, ?_, fun t ht hne => ?_, fun hne => ?_,
    fun hidle j => ?_⟩
  · rw [hs.completed]
    exact List.prefix_append _ _
  · unfold VState.step at ht
    rw [if_neg (not_not.mpr hD.fault)] at ht
    dsimp only at ht
    rw [Option.ite_none_right_eq_some, if_pos hne] at ht
    obtain ⟨hlock, ht⟩ := ht
    obtain ⟨y, us', p, c, i, rfl, hw, howned, hitem, hintr, -⟩ := sound_turn hD hR hlock hne
    rw [hintr] at ht
    cases ht
    refine ⟨p, c, i, hw, ?_, howned, ?_, rfl⟩
    · obtain ⟨n, husedIdx, -, hq⟩ := hR.used
      rw [husedIdx, cell_ofNat, (Queued.take hq).1, hitem]
      rfl
    · rw [hs.completed, List.map_cons, List.getElem?_append_right le_rfl, Nat.sub_self, hitem]
      rfl
  · obtain ⟨y, av', -, hread, -⟩ := sound_fetch hD hR hne
    unfold VState.step
    rw [if_neg (not_not.mpr hD.fault)]
    dsimp only
    rw [if_pos hne, hread]
    rfl
  · rcases hD.own j with ⟨hfree, -⟩ | ⟨-, p, hp, -⟩
    · exact hfree
    · change j ∈ (s.pc p).owns at hp
      rw [hidle p] at hp
      cases hp

end Runs

/-- A step of the system with its history. -/
def stepHistory (x : VState (Fin 2) (Fin 2) × History (Fin 2)) (a : Act (Fin 2) (Fin 2)) :
    Option (VState (Fin 2) (Fin 2) × History (Fin 2)) :=
  (x.1.step a).map fun t => (t, x.2.after x.1 a)

/-- Two processes have a request each, and the device completes the second first; the handler sees one of them. -/
def twoRequests : List (Act (Fin 2) (Fin 2)) :=
  [.bget 0 0 7, .bget 1 1 9, .rw 0 ⟨0, false⟩] ++ List.replicate 6 (.run 0) ++ [.rw 1 ⟨1, true⟩] ++
    List.replicate 6 (.run 1) ++ [.fetch, .fetch, .complete 1, .complete 0, .intr, .turn]

theorem completions_match_of_two : ∃ s h, (virtioHistory (Fin 2) (Fin 2)).Reachable (s, h) ∧
    h.made = [0, 1] ∧ h.completed = [1, 0] ∧ h.cleared = [1] ∧ Matched s h := by
  have htr : (traceOf stepHistory (fun _ _ => true) (.init, ⟨[], [], []⟩) twoRequests).map
      (fun x => decide (x.2.2.made = [0, 1] ∧ x.2.2.completed = [1, 0] ∧ x.2.2.cleared = [1])) = some true := by
    decide +kernel
  obtain ⟨tr, ⟨s, h⟩, hrun, hh⟩ := exists_run_of_traceOf (M := virtioHistory (Fin 2) (Fin 2)) (fun x a y _ hs => by
    obtain ⟨t, ht, rfl⟩ := Option.map_eq_some_iff.mp hs
    exact ⟨ht, rfl⟩) htr
  have hreach : (virtioHistory (Fin 2) (Fin 2)).Reachable (s, h) := ⟨(.init, ⟨[], [], []⟩), tr, ⟨rfl, rfl⟩, hrun⟩
  obtain ⟨hmade, hcompleted, hcleared⟩ := of_decide_eq_true hh
  exact ⟨s, h, hreach, hmade, hcompleted, hcleared, completions_match hreach⟩

end Xv6Shmem.Virtio
