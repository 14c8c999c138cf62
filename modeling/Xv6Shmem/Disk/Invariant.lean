import Mathlib.Algebra.BigOperators.Group.Finset.Basic
import Mathlib.Algebra.BigOperators.Ring.Finset
import Mathlib.Algebra.Order.BigOperators.Group.Finset
import Xv6Shmem.Disk.Rules

/-!
# What the processes know, and the disk

In every reachable state each process has code that keeps to the rules, from what it really
holds. Beside that the invariant says what the cache, the log and the disk have to do with
each other: a buffer whose block is not waiting to be installed has the contents of the disk,
the logged blocks are cached and pinned, and the header on the disk fits how far the process
is that commits or recovers.

A process may give back a buffer that it has changed and not logged. The buffer is then
`stale`: nothing is said of its data until it is read again.

## What is proved

* `Sound.touch`, `Sound.refer` — what the holder of a buffer does to it, and what taking and
  giving back locks and references does; the lemmas for these commands follow.
-/

namespace Xv6Shmem.Disk

open Function Kernel Prog LTS

/-- How many references a process has to a buffer. -/
def Ctx.refs (g : Ctx) (k : BufNo) : ℕ :=
  (if (g.own k).isSome then 1 else 0) + (if g.loose.map Prod.fst = some k then 1 else 0)

/-- The blocks that are pinned. -/
def Job.pinned (lh : List ℕ) : Job → List ℕ
  | .none | .log _ _ => lh
  | .install l _ u r => if r then [] else l.drop u
  | .boot | .clear _ | .done => []

/-- The blocks that are not at home yet. -/
def Job.pending (lh : List ℕ) : Job → List ℕ
  | .none | .log _ _ => lh
  | .install l w _ _ => l.drop w
  | .boot | .clear _ | .done => []

/-- What process `a` knows of buffer `k` is so. -/
structure OwnOk (s : Store) (a : Slot) (k : BufNo) (o : Own) : Prop where
  lock : (s.buf k).lock = some a
  block : (s.buf k).block = some o.block
  valid : ∀ v, o.valid = some v → (s.buf k).valid = v
  know : ∀ d, o.know = some d → (s.buf k).data = d
  was : ∀ d, o.was = some d → s.disk o.block = d

/-- What the processes know of the buffers is so. -/
structure Threads (s : Store) (G : Slot → Ctx) : Prop where
  own : ∀ a k o, (G a).own k = some o → OwnOk s a k o
  lock : ∀ a k, (s.buf k).lock = some a → (G a).own k ≠ none
  loose : ∀ a k b, (G a).loose = some (k, b) → (s.buf k).block = some b
  ptrs : ∀ a k, (s.ptrs a).count k = (G a).refs k

/-- How many references there are to a buffer. -/
def Store.refs (s : Store) (k : BufNo) : ℤ := ∑ a, ((s.ptrs a).count k : ℤ)

/-- Is the block among the pinned ones? -/
def pinOf (P : List ℕ) (o : Option ℕ) : ℤ := if ∃ b ∈ P, o = some b then 1 else 0

/-- The cache, with the blocks `P` pinned in it. -/
structure Cache (s : Store) (P : List ℕ) : Prop where
  /-- The list has all the buffers. -/
  lru : ∀ k, k ∈ s.lru
  /-- No block is cached twice. -/
  unique : ∀ k k' b, (s.buf k).block = some b → (s.buf k').block = some b → k = k'
  /-- Who refers to a buffer: the processes and the pins. -/
  refcnt : ∀ k, ((s.buf k).refcnt : ℤ) = s.refs k + s.pins k
  /-- Each pinned block has one pin, and no other buffer has one. -/
  pins : ∀ k, s.pins k = pinOf P (s.buf k).block
  /-- The pinned blocks are cached. -/
  cached : ∀ b ∈ P, ∃ k, (s.buf k).block = some b ∧ (s.buf k).valid = true

/-- A buffer has the contents of the disk, unless its block has to be installed, it was changed, or it is stale. -/
def Clean (s : Store) (G : Slot → Ctx) (P : List ℕ) (stale : BufNo → Prop) : Prop :=
  ∀ k b, (s.buf k).block = some b → (s.buf k).valid = true → (∀ a o, (G a).own k = some o → o.dirty = false) →
    b ∉ P → ¬ stale k → (s.buf k).data = s.disk b

/-- Who is in an operation, and who commits or recovers. -/
structure Ops (s : Store) (G : Slot → Ctx) (w : Option Slot) (j : Job) : Prop where
  ops : s.outstanding = ∑ a, if (G a).inOp then 1 else 0
  job : ∀ a, (G a).job = if w = some a then j else .none
  idle : w = none ↔ j = .none
  quiet : w ≠ none → ∀ a, (G a).inOp = false
  committing : s.ready = true → (s.committing = true ↔ w ≠ none)
  booting : s.ready = false → w ≠ none ∧ s.committing = false
  boot : ∀ a, (G a).boot = true ↔ w = some a ∧ s.ready = false
  inst : ∀ a, (G a).inst = true ↔ w = some a ∧ s.installing = true
  installing : s.installing = true → w ≠ none

/-- The first `n` blocks of the transaction are at home. -/
def Installed (L : LogArea) (disk : ℕ → Block) (l : List ℕ) (n : ℕ) : Prop :=
  ∀ i b, i < n → l[i]? = some b → disk b = disk (L.start + i + 1)

/-- The log and the header, by how far the process is. -/
def JobOk (L : LogArea) (s : Store) : Job → Prop
  | .none => LogOk L s.lh ∧ header (s.disk L.start) = []
  | .boot => s.lh = [] ∧ HeaderOk L s.disk ∧ s.ready = false
  | .log l t =>
    s.lh = l ∧ LogOk L l ∧ header (s.disk L.start) = [] ∧ t ≤ l.length ∧ s.ready = true ∧
      ∀ i b k, i < t → l[i]? = some b → (s.buf k).block = some b → s.disk (L.start + i + 1) = (s.buf k).data
  | .install l w u r =>
    s.lh = l ∧ LogOk L l ∧ header (s.disk L.start) = l ∧ w ≤ l.length ∧ u ≤ w ∧ Installed L s.disk l w ∧
      (s.installing = false → w = 0 ∧ u = 0) ∧ (r = true ↔ s.ready = false)
  | .clear l => s.lh = [] ∧ LogOk L l ∧ header (s.disk L.start) = l ∧ Installed L s.disk l l.length
  | .done => s.lh = [] ∧ header (s.disk L.start) = [] ∧ putHeader [] (s.disk L.start) = s.disk L.start

/-- Operations change what is outside the log, and nobody else does before it is installed. -/
def Ctx.DirtyOk (L : LogArea) (g : Ctx) (b : ℕ) : Prop :=
  (g.job = .none → L.Home b) ∧ (L.Home b → g.inOp = true ∨ ∃ l n u r, g.job = .install l n u r)

theorem Ctx.dirtyOk_of_install {L : LogArea} {g : Ctx} {b n u : ℕ} {l : List ℕ} {r : Bool} (h : g.job = .install l n u r) :
    g.DirtyOk L b := by
  refine ⟨fun hj => ?_, fun _ => .inr ⟨l, n, u, r, h⟩⟩
  rw [h] at hj
  cases hj

/-- What holds between the steps, with the job `j` that process `w` does. -/
structure Sound (L : LogArea) (s : Store) (G : Slot → Ctx) (stale : BufNo → Prop) (w : Option Slot) (j : Job) : Prop where
  threads : Threads s G
  cache : Cache s (j.pinned s.lh)
  clean : Clean s G (j.pending s.lh) stale
  ops : Ops s G w j
  ok : JobOk L s j
  /-- What is changed, and neither logged nor written. -/
  home : ∀ a k o, (G a).own k = some o → o.dirty = true → (G a).DirtyOk L o.block
  staleHome : ∀ k b, stale k → (s.buf k).block = some b → L.Home b

section Steps

variable {L : LogArea} {s s' : Store} {G : Slot → Ctx} {stale : BufNo → Prop} {w : Option Slot} {j : Job}
  {a : Slot} {g : Ctx} {k : BufNo} {o : Own} {x : Buf}

@[simp] theorem Store.setBuf_buf_self (s : Store) (k : BufNo) (x : Buf) : (s.setBuf k x).buf k = x := by
  simp [Store.setBuf]

theorem Store.setBuf_buf_of_ne (s : Store) (x : Buf) {k k' : BufNo} (h : k' ≠ k) :
    (s.setBuf k x).buf k' = s.buf k' := by simp [Store.setBuf, h]

theorem Store.setBuf_block (s : Store) {k k' : BufNo} {x : Buf} (h : x.block = (s.buf k).block) :
    ((s.setBuf k x).buf k').block = (s.buf k').block := by
  by_cases hk' : k' = k
  · subst hk'
    rw [Store.setBuf_buf_self, h]
  · rw [Store.setBuf_buf_of_ne _ _ hk']

@[simp] theorem Store.setBuf_self (s : Store) (k : BufNo) : s.setBuf k (s.buf k) = s := by simp [Store.setBuf]

@[simp] theorem Store.setDisk_disk_self (s : Store) (b : ℕ) (d : Block) : (s.setDisk b d).disk b = d := by
  simp [Store.setDisk]

theorem Store.setDisk_disk_of_ne (s : Store) (d : Block) {b b' : ℕ} (h : b' ≠ b) :
    (s.setDisk b d).disk b' = s.disk b' := by simp [Store.setDisk, h]

theorem Threads.sole (h : Threads s G) {a b : Slot} {o o' : Own} (ha : (G a).own k = some o)
    (hb : (G b).own k = some o') : a = b := by
  have h1 := (h.own a k o ha).lock
  rw [(h.own b k o' hb).lock, Option.some.injEq] at h1
  exact h1.symm

/-- The holder is the one that has the lock. -/
theorem OwnOk.congr (h : OwnOk s a k o) (hl : (s'.buf k).lock = (s.buf k).lock) (hb : (s'.buf k).block = (s.buf k).block)
    (hv : (s'.buf k).valid = (s.buf k).valid) (hd : (s'.buf k).data = (s.buf k).data)
    (hdisk : s'.disk o.block = s.disk o.block) : OwnOk s' a k o where
  lock := hl.trans h.lock
  block := hb.trans h.block
  valid := fun v hv' => hv.trans (h.valid v hv')
  know := fun d hd' => hd.trans (h.know d hd')
  was := fun d hd' => hdisk.trans (h.was d hd')

/-- One process takes a step, and the others know what they knew. -/
theorem Threads.move (h : Threads s G) (hown : ∀ b k o, b ≠ a → (G b).own k = some o → OwnOk s' b k o)
    (hlock : ∀ b k, b ≠ a → (s'.buf k).lock = some b → (s.buf k).lock = some b)
    (hloose : ∀ b k n, b ≠ a → (G b).loose = some (k, n) → (s'.buf k).block = some n)
    (hptrs : ∀ b, b ≠ a → s'.ptrs b = s.ptrs b) (hown' : ∀ k o, g.own k = some o → OwnOk s' a k o)
    (hlock' : ∀ k, (s'.buf k).lock = some a → g.own k ≠ none)
    (hloose' : ∀ k n, g.loose = some (k, n) → (s'.buf k).block = some n)
    (hptrs' : ∀ k, (s'.ptrs a).count k = g.refs k) : Threads s' (update G a g) where
  own b k o := by
    by_cases hb : b = a
    · subst hb
      rw [update_self]
      exact hown' k o
    · rw [update_of_ne hb]
      exact hown b k o hb
  lock b k := by
    by_cases hb : b = a
    · subst hb
      rw [update_self]
      exact hlock' k
    · rw [update_of_ne hb]
      exact fun hl => h.lock b k (hlock b k hb hl)
  loose b k n := by
    by_cases hb : b = a
    · subst hb
      rw [update_self]
      exact hloose' k n
    · rw [update_of_ne hb]
      exact hloose b k n hb
  ptrs b k := by
    by_cases hb : b = a
    · subst hb
      rw [update_self]
      exact hptrs' k
    · rw [update_of_ne hb, hptrs b hb]
      exact h.ptrs b k

theorem Threads.congr (h : Threads s G) (hbuf : ∀ k, (s'.buf k).lock = (s.buf k).lock ∧
      (s'.buf k).block = (s.buf k).block ∧ (s'.buf k).valid = (s.buf k).valid ∧ (s'.buf k).data = (s.buf k).data)
    (hdisk : s'.disk = s.disk) (hptrs : s'.ptrs = s.ptrs) : Threads s' G where
  own b k o ho := by
    obtain ⟨hl, hb, hv, hd⟩ := hbuf k
    exact (h.own b k o ho).congr hl hb hv hd (congrFun hdisk _)
  lock b k hl := by
    rw [(hbuf k).1] at hl
    exact h.lock b k hl
  loose b k n hl := by
    rw [(hbuf k).2.1]
    exact h.loose b k n hl
  ptrs b k := by
    rw [hptrs]
    exact h.ptrs b k

theorem Threads.frame (h : Threads s G) (hbuf : ∀ k, (s'.buf k).lock = (s.buf k).lock ∧
      (s'.buf k).block = (s.buf k).block ∧ (s'.buf k).valid = (s.buf k).valid ∧ (s'.buf k).data = (s.buf k).data)
    (hdisk : s'.disk = s.disk) (hptrs : s'.ptrs = s.ptrs) (hown : g.own = (G a).own) (hloose : g.loose = (G a).loose) :
    Threads s' (update G a g) := by
  have h' := h.congr hbuf hdisk hptrs
  refine h'.move (fun b k o _ => h'.own b k o) (fun _ _ _ => id) (fun b k n _ => h'.loose b k n) (fun _ _ => rfl) ?_ ?_
    ?_ ?_
  · rw [hown]
    exact h'.own a
  · rw [hown]
    exact h'.lock a
  · rw [hloose]
    exact h'.loose a
  · intro k
    rw [h'.ptrs a k, Ctx.refs, Ctx.refs, hown, hloose]

variable {P : List ℕ} {l : List BufNo} {b : ℕ}

/-- The cache does not depend on the locks and the data, nor on how the references are shared out. -/
theorem Cache.frame (h : Cache s P) (hbuf : ∀ k, (s'.buf k).block = (s.buf k).block ∧
      ((s.buf k).valid = true → (s'.buf k).valid = true) ∧ (s'.buf k).refcnt = (s.buf k).refcnt)
    (hlru : s'.lru = s.lru) (hptrs : s'.ptrs = s.ptrs) (hpins : s'.pins = s.pins) : Cache s' P where
  lru k := hlru ▸ h.lru k
  unique k k' b := by
    rw [(hbuf k).1, (hbuf k').1]
    exact h.unique k k' b
  refcnt k := by
    rw [(hbuf k).2.2, h.refcnt k, Store.refs, Store.refs, hptrs, hpins]
  pins k := by
    rw [hpins, (hbuf k).1]
    exact h.pins k
  cached b hb := by
    obtain ⟨k, hk, hv⟩ := h.cached b hb
    exact ⟨k, (hbuf k).1.trans hk, (hbuf k).2.1 hv⟩

theorem Clean.frame (h : Clean s G P stale) (hbuf : ∀ k, (s'.buf k).block = (s.buf k).block ∧
      (s'.buf k).valid = (s.buf k).valid ∧ (s'.buf k).data = (s.buf k).data) (hdisk : s'.disk = s.disk)
    (hown : ∀ k o, (G a).own k = some o → o.dirty = true → ∃ o', g.own k = some o' ∧ o'.dirty = true) :
    Clean s' (update G a g) P stale := by
  intro k b hb hv hd hP hs
  rw [(hbuf k).1] at hb
  rw [(hbuf k).2.1] at hv
  rw [(hbuf k).2.2, hdisk]
  refine h k b hb hv ?_ hP hs
  intro c o ho
  by_cases hc : c = a
  · subst hc
    cases hod : o.dirty with
    | false => rfl
    | true =>
      obtain ⟨o', ho', hd'⟩ := hown k o ho hod
      rw [hd c o' (by rw [update_self, ho'])] at hd'
      cases hd'
  · exact hd c o (by rw [update_of_ne hc, ho])

theorem Ops.ops_update (h : Ops s G w j) (hin : g.inOp = (G a).inOp) :
    s.outstanding = ∑ b, if (update G a g b).inOp then 1 else 0 := by
  rw [h.ops]
  refine Finset.sum_congr rfl fun b _ => ?_
  by_cases hb : b = a
  · simp [hb, hin]
  · simp [hb]

theorem Ops.frame (h : Ops s G w j) (hout : s'.outstanding = s.outstanding) (hr : s'.ready = s.ready)
    (hc : s'.committing = s.committing) (hi : s'.installing = s.installing) (hin : g.inOp = (G a).inOp)
    (hj : g.job = (G a).job) (hinst : g.inst = (G a).inst) (hboot : g.boot = (G a).boot) :
    Ops s' (update G a g) w j := by
  have hG : ∀ b, (update G a g b).inOp = (G b).inOp ∧ (update G a g b).job = (G b).job ∧
      (update G a g b).inst = (G b).inst ∧ (update G a g b).boot = (G b).boot := by
    intro b
    by_cases hb : b = a
    · subst hb
      simp [hin, hj, hinst, hboot]
    · simp [hb]
  refine ⟨?_, fun b => ?_, h.idle, fun hw b => ?_, ?_, ?_, fun b => ?_, fun b => ?_, ?_⟩
  · rw [hout]
    exact h.ops_update hin
  · rw [(hG b).2.1]
    exact h.job b
  · rw [(hG b).1]
    exact h.quiet hw b
  · rw [hr, hc]
    exact h.committing
  · rw [hr, hc]
    exact h.booting
  · rw [(hG b).2.2.2, hr]
    exact h.boot b
  · rw [(hG b).2.2.1, hi]
    exact h.inst b
  · rw [hi]
    exact h.installing

theorem JobOk.frame (h : JobOk L s j) (hlh : s'.lh = s.lh) (hdisk : s'.disk = s.disk) (hi : s'.installing = s.installing)
    (hr : s'.ready = s.ready)
    (hbuf : ∀ l t k b, j = .log l t → b ∈ l → (s'.buf k).block = some b →
      (s.buf k).block = some b ∧ (s'.buf k).data = (s.buf k).data) : JobOk L s' j := by
  cases j with
  | none =>
    rw [JobOk, hlh, hdisk]
    exact h
  | boot =>
    rw [JobOk, hlh, hdisk, hr]
    exact h
  | log l t =>
    obtain ⟨h1, h2, h3, h4, h5, h6⟩ := h
    refine ⟨hlh.trans h1, h2, hdisk ▸ h3, h4, hr.trans h5, fun i b k hi hb hk => ?_⟩
    obtain ⟨hk', hd⟩ := hbuf l t k b rfl (List.mem_of_getElem? hb) hk
    rw [hdisk, hd]
    exact h6 i b k hi hb hk'
  | install l w u r =>
    rw [JobOk, hlh, hdisk, hi, hr]
    exact h
  | clear l =>
    rw [JobOk, hlh, hdisk]
    exact h
  | done =>
    rw [JobOk, hlh, hdisk]
    exact h

/-! ### References -/

theorem Ctx.refs_eq_zero : g.refs k = 0 ↔ g.own k = none ∧ ∀ b, g.loose ≠ some (k, b) := by
  cases ho : g.own k <;> cases hl : g.loose <;> simp [Ctx.refs, ho, hl, Prod.ext_iff]

theorem Threads.own_none (h : Threads s G) (hl : (s.buf k).lock = none) (b : Slot) : (G b).own k = none := by
  cases ho : (G b).own k with
  | none => rfl
  | some o =>
    rw [(h.own b k o ho).lock] at hl
    cases hl

theorem Store.refs_update (hp : s'.ptrs = update s.ptrs a l) (k : BufNo) :
    s'.refs k = s.refs k + (l.count k - (s.ptrs a).count k) := by
  have hsum : ∀ f : Slot → ℤ, ∑ b, f b = f a + ∑ b ∈ Finset.univ.erase a, f b := fun f =>
    (Finset.add_sum_erase _ f (Finset.mem_univ a)).symm
  have hrest : ∑ b ∈ Finset.univ.erase a, ((s'.ptrs b).count k : ℤ) =
      ∑ b ∈ Finset.univ.erase a, ((s.ptrs b).count k : ℤ) := by
    refine Finset.sum_congr rfl fun b hb => ?_
    rw [hp, update_of_ne (Finset.ne_of_mem_erase hb)]
  rw [Store.refs, Store.refs, hsum, hsum, hrest, hp, update_self]
  ring

theorem Store.refs_nonneg (s : Store) (k : BufNo) : 0 ≤ s.refs k := Finset.sum_nonneg fun _ _ => Int.natCast_nonneg _

theorem pinOf_nonneg (P : List ℕ) (o : Option ℕ) : 0 ≤ pinOf P o := by
  unfold pinOf
  split <;> decide

theorem pinOf_of_mem (h : b ∈ P) : pinOf P (some b) = 1 := if_pos ⟨b, h, rfl⟩

theorem pinOf_of_not_mem (h : b ∉ P) : pinOf P (some b) = 0 := by
  refine if_neg ?_
  rintro ⟨c, hc, he⟩
  cases he
  exact h hc

variable (h : Sound L s G stale w j)

include h

/-- A buffer with no references is held by nobody, and not pinned. -/
theorem Sound.unused (h₀ : (s.buf k).refcnt = 0) :
    (∀ b, (G b).refs k = 0) ∧ s.pins k = 0 := by
  have hsum := h.cache.refcnt k
  have hp : 0 ≤ s.pins k := by
    rw [h.cache.pins k]
    exact pinOf_nonneg _ _
  have hr := s.refs_nonneg k
  have hz : s.refs k = 0 := by omega
  refine ⟨fun b => ?_, by omega⟩
  have hb := (Finset.sum_eq_zero_iff_of_nonneg fun (c : Slot) _ => Int.natCast_nonneg ((s.ptrs c).count k)).mp hz b
    (Finset.mem_univ b)
  rw [← h.threads.ptrs b k]
  exact_mod_cast hb

/-- A process that has a reference is counted. -/
theorem Sound.refs_pos (hr : 0 < (G a).refs k) : 0 < s.refs k := by
  have hle : ((s.ptrs a).count k : ℤ) ≤ s.refs k :=
    Finset.single_le_sum (f := fun b => ((s.ptrs b).count k : ℤ)) (fun _ _ => Int.natCast_nonneg _) (Finset.mem_univ a)
  rw [h.threads.ptrs a k] at hle
  omega

theorem Sound.home_update
    (hg : ∀ k o, g.own k = some o → o.dirty = true → g.DirtyOk L o.block) :
    ∀ b k o, (update G a g b).own k = some o → o.dirty = true →
      (update G a g b).DirtyOk L o.block := by
  intro b k o
  by_cases hb : b = a
  · subst hb
    rw [update_self]
    exact hg k o
  · rw [update_of_ne hb]
    exact h.home b k o

omit h

/-! ### One buffer -/

theorem Threads.touch (h : Threads s G) (ho : (G a).own k = some o) (o' : Own) (hlock : x.lock = (s.buf k).lock)
    (hblock : x.block = (s.buf k).block) (hok : OwnOk (s.setBuf k x) a k o') :
    Threads (s.setBuf k x) (update G a ((G a).set k (some o'))) := by
  have hbuf : ∀ k', k' ≠ k → (s.setBuf k x).buf k' = s.buf k' := fun k' hk' => Store.setBuf_buf_of_ne s x hk'
  refine h.move ?_ ?_ ?_ (fun _ _ => rfl) ?_ ?_ ?_ ?_
  · intro b k' o1 hb ho1
    have hk' : k' ≠ k := by
      rintro rfl
      exact hb (h.sole ho1 ho)
    refine (h.own b k' o1 ho1).congr ?_ ?_ ?_ ?_ rfl <;> rw [hbuf k' hk']
  · intro b k' hb hl
    by_cases hk' : k' = k
    · subst hk'
      rw [Store.setBuf_buf_self, hlock] at hl
      exact hl
    · rwa [hbuf k' hk'] at hl
  · intro b k' n _ hl
    by_cases hk' : k' = k
    · subst hk'
      rw [Store.setBuf_buf_self, hblock, h.loose b k' n hl]
    · rw [hbuf k' hk', h.loose b k' n hl]
  · intro k' o1 ho1
    by_cases hk' : k' = k
    · subst hk'
      rw [Ctx.set_own_self, Option.some.injEq] at ho1
      exact ho1 ▸ hok
    · rw [Ctx.set_own_of_ne _ _ hk'] at ho1
      refine (h.own a k' o1 ho1).congr ?_ ?_ ?_ ?_ rfl <;> rw [hbuf k' hk']
  · intro k' hl
    by_cases hk' : k' = k
    · subst hk'
      simp
    · rw [Ctx.set_own_of_ne _ _ hk']
      rw [hbuf k' hk'] at hl
      exact h.lock a k' hl
  · intro k' n hl
    by_cases hk' : k' = k
    · subst hk'
      rw [Store.setBuf_buf_self, hblock, h.loose a k' n hl]
    · rw [hbuf k' hk', h.loose a k' n hl]
  · intro k'
    change (s.ptrs a).count k' = _
    rw [h.ptrs a k']
    by_cases hk' : k' = k
    · subst hk'
      rw [Ctx.refs, Ctx.refs, Ctx.set_own_self, ho]
      rfl
    · rw [Ctx.refs, Ctx.refs, Ctx.set_own_of_ne _ _ hk']
      rfl

include h

/-- The holder of a buffer looks at it or changes its data. -/
theorem Sound.touch (ho : (G a).own k = some o) (o' : Own)
    (hlock : x.lock = (s.buf k).lock) (hblock : x.block = (s.buf k).block) (hrefcnt : x.refcnt = (s.buf k).refcnt)
    (hvalid : (s.buf k).valid = true → x.valid = true) (hok : OwnOk (s.setBuf k x) a k o')
    (hclean : ∀ b, x.block = some b → x.valid = true → o'.dirty = false → b ∉ j.pending s.lh → ¬ stale k →
      x.data = s.disk b)
    (hlog : ∀ l t b, j = .log l t → b ∈ l → x.block = some b → x.data = (s.buf k).data)
    (hhome : o'.dirty = true → (G a).DirtyOk L o'.block) :
    Sound L (s.setBuf k x) (update G a ((G a).set k (some o'))) stale w j where
  threads := h.threads.touch ho o' hlock hblock hok
  cache := by
    refine h.cache.frame (fun k' => ?_) rfl rfl rfl
    by_cases hk' : k' = k
    · subst hk'
      rw [Store.setBuf_buf_self]
      exact ⟨hblock, hvalid, hrefcnt⟩
    · simp [Store.setBuf_buf_of_ne _ _ hk']
  clean := by
    intro k' b hb hv hd hP hs
    by_cases hk' : k' = k
    · subst hk'
      rw [Store.setBuf_buf_self] at hb hv ⊢
      exact hclean b hb hv (hd a o' (by simp)) hP hs
    · rw [Store.setBuf_buf_of_ne _ _ hk'] at hb hv ⊢
      refine h.clean k' b hb hv (fun c o1 ho1 => hd c o1 ?_) hP hs
      by_cases hc : c = a
      · subst hc
        rw [update_self, Ctx.set_own_of_ne _ _ hk', ho1]
      · rw [update_of_ne hc, ho1]
  ops := h.ops.frame rfl rfl rfl rfl rfl rfl rfl rfl
  ok := by
    refine h.ok.frame rfl rfl rfl rfl fun l t k' b hj hb hk => ?_
    by_cases hk' : k' = k
    · subst hk'
      rw [Store.setBuf_buf_self] at hk ⊢
      exact ⟨hblock ▸ hk, hlog l t b hj hb hk⟩
    · rw [Store.setBuf_buf_of_ne _ _ hk'] at hk ⊢
      exact ⟨hk, rfl⟩
  home := by
    refine h.home_update fun k' o1 ho1 hd => ?_
    by_cases hk' : k' = k
    · subst hk'
      rw [Ctx.set_own_self, Option.some.injEq] at ho1
      exact ho1 ▸ hhome (ho1 ▸ hd)
    · rw [Ctx.set_own_of_ne _ _ hk'] at ho1
      exact h.home a k' o1 ho1 hd
  staleHome := by
    intro k' b hs hb
    by_cases hk' : k' = k
    · subst hk'
      rw [Store.setBuf_buf_self, hblock] at hb
      exact h.staleHome k' b hs hb
    · rw [Store.setBuf_buf_of_ne _ _ hk'] at hb
      exact h.staleHome k' b hs hb

/-- A buffer that its holder has not changed has the contents of the disk. -/
theorem Sound.clean_own (ho : (G a).own k = some o) (hd : o.dirty = false)
    (hv : (s.buf k).valid = true) (hP : o.block ∉ j.pending s.lh) (hs : ¬ stale k) :
    (s.buf k).data = s.disk o.block := by
  refine h.clean k o.block (h.threads.own a k o ho).block hv (fun c o1 ho1 => ?_) hP hs
  have hc := h.threads.sole ho1 ho
  subst hc
  rw [ho, Option.some.injEq] at ho1
  exact ho1 ▸ hd

theorem Sound.look (ho : (G a).own k = some o) (o' : Own) (hb : o'.block = o.block)
    (hd : o'.dirty = o.dirty) (hok : OwnOk s a k o') :
    Sound L s (update G a ((G a).set k (some o'))) stale w j := by
  have hold := h.threads.own a k o ho
  have := h.touch (x := s.buf k) ho o' rfl rfl rfl id ?_ ?_ (fun _ _ _ _ _ _ => rfl) ?_
  · rwa [Store.setBuf_self] at this
  · rwa [Store.setBuf_self]
  · intro b hb' hv hd' hP hs
    rw [hold.block, Option.some.injEq] at hb'
    subst hb'
    exact h.clean_own ho (hd ▸ hd') hv hP hs
  · intro hd'
    rw [hb]
    exact h.home a k o ho (hd ▸ hd')

omit h

/-- The blocks of a transaction that is being written to the log are cached. -/
theorem Sound.valid_of_log {l : List ℕ} {t : ℕ} (h : Sound L s G stale w (.log l t)) (hb : b ∈ l)
    (hk : (s.buf k).block = some b) : (s.buf k).valid = true := by
  have hlh : s.lh = l := h.ok.1
  obtain ⟨k', hk', hv⟩ := h.cache.cached b (by rwa [Job.pinned, hlh])
  rwa [h.cache.unique k k' b hk hk']

include h

theorem Sound.readDisk (ho : (G a).own k = some o) (hv : o.valid = some false) :
    Sound L (s.setBuf k { s.buf k with valid := true, data := s.disk o.block })
      (update G a ((G a).set k (some (.fresh o.block)))) stale w j := by
  have hok := h.threads.own a k o ho
  refine h.touch ho _ rfl rfl rfl (fun _ => rfl) ?_ ?_ ?_ fun hd => by cases hd
  · refine ⟨?_, ?_, ?_, ?_, ?_⟩
    · simpa using hok.lock
    · simpa [Own.fresh] using hok.block
    · intro v hv'
      simpa [Own.fresh] using hv'
    · intro d hd
      cases hd
    · intro d hd
      cases hd
  · intro b hb _ _ _ _
    simp only [hok.block, Option.some.injEq] at hb
    rw [hb]
  · -- a block of the transaction is cached, and is not read again
    intro l t b hj hb hk
    subst hj
    have := h.valid_of_log hb hk
    rw [hok.valid _ hv] at this
    cases this

/-- The blocks that have to be installed are outside the log. -/
theorem Sound.pending_home (hb : b ∈ j.pending s.lh) : L.Home b := by
  cases j with
  | none => exact h.ok.1.2.1 b hb
  | log l t =>
    obtain ⟨rfl, hok, -⟩ := h.ok
    exact hok.2.1 b hb
  | install l w u r =>
    obtain ⟨-, hok, -⟩ := h.ok
    exact hok.2.1 b (List.mem_of_mem_drop hb)
  | boot => cases hb
  | clear l => cases hb
  | done => cases hb

/-- In the log, a buffer that its holder has not changed has the contents of the disk. -/
theorem Sound.clean_log (ho : (G a).own k = some o) (hd : o.dirty = false)
    (hv : o.valid = some true) (hb : ¬ L.Home o.block) : (s.buf k).data = s.disk o.block := by
  have hok := h.threads.own a k o ho
  refine h.clean_own ho hd (hok.valid _ hv) (fun hP => hb (h.pending_home hP)) fun hs => hb (h.staleHome k _ hs hok.block)

theorem Sound.disk_of_holds {d : Block} (hg : (G a).Holds b d) (hb : ¬ L.Home b) :
    s.disk b = d := by
  obtain ⟨k, o, ho, rfl, hv, hk, hd⟩ := hg
  rw [← h.clean_log ho hd hv hb]
  exact (h.threads.own a k o ho).know d hk

theorem Sound.setData {d : Block} (ho : (G a).own k = some o) (hv : o.valid = some true)
    (hm : MaySet L (G a) o.block d) :
    Sound L (s.setBuf k { s.buf k with data := d }) (update G a ((G a).set k (some (o.change L d)))) stale w
      j := by
  have hok := h.threads.own a k o ho
  refine h.touch ho _ rfl rfl rfl id ?_ ?_ ?_ ?_
  · refine ⟨?_, ?_, ?_, ?_, ?_⟩
    · simpa using hok.lock
    · simpa [Own.change] using hok.block
    · intro v hv'
      simpa using hok.valid v hv'
    · intro d' hd'
      simpa [Own.change] using hd'
    · intro d' hd'
      change s.disk o.block = d'
      simp only [Own.change] at hd'
      split at hd'
      · cases hd'
      · rename_i hb
        split at hd'
        · exact hok.was d' hd'
        · rename_i hdirty
          rw [← h.clean_log ho (by simpa using hdirty) hv hb]
          exact hok.know d' hd'
  · intro b _ _ hd
    cases hd
  · -- the blocks of the transaction are not changed while they are written to the log
    intro l t b hj hb hk
    subst hj
    have hown := h.ops.job a
    rw [hok.block, Option.some.injEq] at hk
    subst hk
    cases hm with
    | op hj ho' _ =>
      have hw : w ≠ none := fun hw => by cases h.ops.idle.mp hw
      rw [h.ops.quiet hw a] at ho'
      cases ho'
    | log _ hnb => exact absurd (h.ok.2.1.2.1 _ hb) hnb
    | install hj _ _ =>
      rw [hj] at hown
      split at hown <;> cases hown
  · intro _
    cases hm with
    | op _ ho hb => exact ⟨fun _ => hb, fun _ => .inl ho⟩
    | log hj hb => exact ⟨fun hj' => absurd hj' hj, fun hb' => absurd hb' hb⟩
    | install hj _ _ => exact Ctx.dirtyOk_of_install hj

omit h

/-! ### Locks and references -/

/-- Only the locks and the references are different. -/
structure Store.SameData (s' s : Store) : Prop where
  buf : ∀ k, (s'.buf k).block = (s.buf k).block ∧ (s'.buf k).valid = (s.buf k).valid ∧
    (s'.buf k).data = (s.buf k).data
  disk : s'.disk = s.disk
  lh : s'.lh = s.lh
  outstanding : s'.outstanding = s.outstanding
  committing : s'.committing = s.committing
  ready : s'.ready = s.ready
  installing : s'.installing = s.installing

theorem Store.sameData_of_buf (hx : x.block = (s.buf k).block) (hv : x.valid = (s.buf k).valid)
    (hd : x.data = (s.buf k).data) (hbuf : s'.buf = update s.buf k x) (hdisk : s'.disk = s.disk)
    (hlh : s'.lh = s.lh) (hout : s'.outstanding = s.outstanding) (hc : s'.committing = s.committing)
    (hr : s'.ready = s.ready) (hi : s'.installing = s.installing) : s'.SameData s := by
  refine ⟨fun k' => ?_, hdisk, hlh, hout, hc, hr, hi⟩
  rw [hbuf]
  by_cases hk' : k' = k
  · subst hk'
    rw [update_self]
    exact ⟨hx, hv, hd⟩
  · rw [update_of_ne hk']
    exact ⟨rfl, rfl, rfl⟩

include h

/-- A process takes or gives back a lock or a reference. -/
theorem Sound.refer {stale' : BufNo → Prop} (hs : s'.SameData s)
    (hthreads : Threads s' (update G a g)) (hcache : Cache s' (j.pinned s.lh)) (hin : g.inOp = (G a).inOp)
    (hj : g.job = (G a).job) (hi : g.inst = (G a).inst) (hb : g.boot = (G a).boot)
    (hown : ∀ k o, g.own k = some o → o.dirty = true → (G a).own k = some o)
    (hkeep : ∀ k o, (G a).own k = some o → o.dirty = true → g.own k = some o ∨ stale' k)
    (hstale : ∀ k, stale k → stale' k)
    (hstale' : ∀ k, stale' k → stale k ∨ ∃ o, (G a).own k = some o ∧ o.dirty = true ∧ (G a).job = .none) :
    Sound L s' (update G a g) stale' w j where
  threads := hthreads
  cache := by rwa [hs.lh]
  clean := by
    intro k b hb hv hd hP hst
    rw [(hs.buf k).1] at hb
    rw [(hs.buf k).2.1] at hv
    rw [hs.lh] at hP
    rw [(hs.buf k).2.2, hs.disk]
    refine h.clean k b hb hv (fun c o ho => ?_) hP fun hst' => hst (hstale k hst')
    by_cases hc : c = a
    · subst hc
      cases hod : o.dirty with
      | false => rfl
      | true =>
        rcases hkeep k o ho hod with ho' | hst'
        · rw [← hod]
          exact hd c o (by rw [update_self, ho'])
        · exact absurd hst' hst
    · exact hd c o (by rw [update_of_ne hc, ho])
  ops := h.ops.frame hs.outstanding hs.ready hs.committing hs.installing hin hj hi hb
  ok := by
    refine h.ok.frame hs.lh hs.disk hs.installing hs.ready fun l t k b _ _ hk => ?_
    rw [(hs.buf k).1] at hk
    exact ⟨hk, (hs.buf k).2.2⟩
  home := by
    refine h.home_update fun k o ho hd => ?_
    have hok := h.home a k o (hown k o ho hd) hd
    unfold Ctx.DirtyOk at hok ⊢
    rwa [hj, hin]
  staleHome := by
    intro k b hst hk
    rw [(hs.buf k).1] at hk
    rcases hstale' k hst with hst | ⟨o, ho, hd, hjob⟩
    · exact h.staleHome k b hst hk
    · rw [(h.threads.own a k o ho).block, Option.some.injEq] at hk
      exact hk ▸ (h.home a k o ho hd).1 hjob

/-- The lock of buffer `k`: process `a` takes it, or gives it back. -/
theorem Sound.relock {l : Option Slot} {u : Option Own} {v : Option (BufNo × ℕ)}
    (hno : ∀ c, c ≠ a → (G c).own k = none) (hl : ∀ c, l = some c → c = a ∧ u ≠ none)
    (hown : ∀ o, u = some o → OwnOk (s.setBuf k { s.buf k with lock := l }) a k o)
    (hloose : ∀ k' n, v = some (k', n) → (s.buf k').block = some n)
    (hrefs : ∀ k', Ctx.refs { (G a).set k u with loose := v } k' = (G a).refs k') :
    (s.setBuf k { s.buf k with lock := l }).SameData s ∧
      Threads (s.setBuf k { s.buf k with lock := l }) (update G a { (G a).set k u with loose := v }) ∧
      Cache (s.setBuf k { s.buf k with lock := l }) (j.pinned s.lh) := by
  have hbuf : ∀ k', k' ≠ k → (s.setBuf k { s.buf k with lock := l }).buf k' = s.buf k' :=
    fun k' hk' => Store.setBuf_buf_of_ne s _ hk'
  have hs : (s.setBuf k { s.buf k with lock := l }).SameData s :=
    Store.sameData_of_buf (k := k) (x := { s.buf k with lock := l }) rfl rfl rfl rfl rfl rfl rfl rfl rfl rfl
  refine ⟨hs, h.threads.move ?_ ?_ ?_ (fun _ _ => rfl) ?_ ?_ ?_ ?_, ?_⟩
  · intro c k' o hc ho
    have hk' : k' ≠ k := by
      rintro rfl
      rw [hno c hc] at ho
      cases ho
    refine (h.threads.own c k' o ho).congr ?_ ?_ ?_ ?_ rfl <;> rw [hbuf k' hk']
  · intro c k' hc hl'
    by_cases hk' : k' = k
    · subst hk'
      rw [Store.setBuf_buf_self] at hl'
      exact absurd (hl c hl').1 hc
    · rwa [hbuf k' hk'] at hl'
  · intro c k' n _ hn
    rw [(hs.buf k').1, h.threads.loose c k' n hn]
  · intro k' o ho
    by_cases hk' : k' = k
    · subst hk'
      simp only [Ctx.set, update_self] at ho
      exact hown o ho
    · simp only [Ctx.set, update_of_ne hk'] at ho
      refine (h.threads.own a k' o ho).congr ?_ ?_ ?_ ?_ rfl <;> rw [hbuf k' hk']
  · intro k' hl'
    by_cases hk' : k' = k
    · subst hk'
      rw [Store.setBuf_buf_self] at hl'
      simpa [Ctx.set] using (hl a hl').2
    · simp only [Ctx.set, update_of_ne hk']
      rw [hbuf k' hk'] at hl'
      exact h.threads.lock a k' hl'
  · intro k' n hn
    rw [(hs.buf k').1, hloose k' n hn]
  · intro k'
    rw [hrefs]
    exact h.threads.ptrs a k'
  · refine h.cache.frame (fun k' => ⟨(hs.buf k').1, fun hv => (hs.buf k').2.1.trans hv, ?_⟩) rfl rfl rfl
    by_cases hk' : k' = k
    · subst hk'
      simp
    · rw [hbuf k' hk']

theorem Sound.acquiresleep (hl : (s.buf k).lock = none) (hloose : (G a).loose = some (k, b)) :
    Sound L (s.setBuf k { s.buf k with lock := some a })
      (update G a { (G a).set k (some ⟨b, none, none, none, false⟩) with loose := none }) stale w j := by
  have hno := h.threads.own_none hl
  obtain ⟨hs, ht, hc⟩ := h.relock (k := k) (a := a) (l := some a) (u := some ⟨b, none, none, none, false⟩) (v := none)
    (fun c _ => hno c) (fun c hc => by simp_all)
    (fun o ho => by
      cases ho
      exact ⟨by simp, by simpa using h.threads.loose a k b hloose, by simp, by simp, by simp⟩)
    (fun k' n hn => by cases hn)
    fun k' => by
      by_cases hk' : k' = k
      · subst hk'
        simp [Ctx.refs, Ctx.set, hno a, hloose]
      · simp [Ctx.refs, Ctx.set, hk', hloose, Ne.symm hk']
  refine h.refer hs ht hc rfl rfl rfl rfl (fun k' o ho hd => ?_) (fun k' o ho _ => ?_) (fun _ => id) fun _ => .inl
  · by_cases hk' : k' = k
    · subst hk'
      simp only [Ctx.set, update_self, Option.some.injEq] at ho
      subst ho
      cases hd
    · simpa [Ctx.set, hk'] using ho
  · have hk' : k' ≠ k := by
      rintro rfl
      rw [hno a] at ho
      cases ho
    exact .inl (by simpa [Ctx.set, hk'] using ho)

theorem Sound.releasesleep (ho : (G a).own k = some o) (hloose : (G a).loose = none)
    (hd : (G a).job ≠ .none → o.dirty = false) :
    Sound L (s.setBuf k { s.buf k with lock := none })
      (update G a { (G a).set k none with loose := some (k, o.block) })
      (fun k' => stale k' ∨ k' = k ∧ o.dirty = true) w j := by
  have hok := h.threads.own a k o ho
  obtain ⟨hs, ht, hc⟩ := h.relock (k := k) (a := a) (l := none) (u := none) (v := some (k, o.block))
    (fun c hc => Option.eq_none_iff_forall_ne_some.mpr fun o' ho' => hc (h.threads.sole ho' ho)) (fun c hc => by cases hc)
    (fun o' ho' => by cases ho') (fun k' n hn => by cases hn; exact hok.block)
    fun k' => by
      by_cases hk' : k' = k
      · subst hk'
        simp [Ctx.refs, Ctx.set, ho, hloose]
      · simp [Ctx.refs, Ctx.set, hk', hloose, Ne.symm hk']
  refine h.refer hs ht hc rfl rfl rfl rfl ?_ ?_ (fun _ => .inl) ?_
  · intro k' o' ho' _
    by_cases hk' : k' = k
    · subst hk'
      simp [Ctx.set] at ho'
    · simpa [Ctx.set, hk'] using ho'
  · intro k' o' ho' hd'
    by_cases hk' : k' = k
    · subst hk'
      rw [ho, Option.some.injEq] at ho'
      exact .inr (.inr ⟨rfl, ho' ▸ hd'⟩)
    · exact .inl (by simpa [Ctx.set, hk'] using ho')
  · rintro k' (hst | ⟨rfl, hdirty⟩)
    · exact .inl hst
    · refine .inr ⟨o, ho, hdirty, ?_⟩
      by_contra hj
      rw [hd hj] at hdirty
      cases hdirty

omit h

theorem Cache.refer {n : ℕ} (h : Cache s P)
    (hbuf : s'.buf = update s.buf k { s.buf k with refcnt := n }) (hlru : ∀ k, k ∈ s'.lru)
    (hptrs : s'.ptrs = update s.ptrs a l) (hpins : s'.pins = s.pins)
    (hk : (n : ℤ) - (s.buf k).refcnt = (l.count k : ℤ) - (s.ptrs a).count k)
    (hl : ∀ k', k' ≠ k → l.count k' = (s.ptrs a).count k') : Cache s' P where
  lru := hlru
  unique k₁ k₂ b := by
    have hb : ∀ k', (s'.buf k').block = (s.buf k').block := by
      intro k'
      rw [hbuf]
      by_cases hk' : k' = k
      · subst hk'
        simp
      · simp [hk']
    rw [hb, hb]
    exact h.unique k₁ k₂ b
  refcnt k' := by
    have hc := h.refcnt k'
    rw [Store.refs_update hptrs, hpins, hbuf]
    by_cases hk' : k' = k
    · subst hk'
      rw [update_self]
      change (n : ℤ) = _
      omega
    · rw [update_of_ne hk', hl k' hk', hc]
      ring
  pins k' := by
    rw [hpins, h.pins k', hbuf]
    by_cases hk' : k' = k
    · subst hk'
      rw [update_self]
    · rw [update_of_ne hk']
  cached b hb := by
    obtain ⟨k', hk', hv⟩ := h.cached b hb
    refine ⟨k', ?_⟩
    rw [hbuf]
    by_cases hkk : k' = k
    · subst hkk
      rw [update_self]
      exact ⟨hk', hv⟩
    · rw [update_of_ne hkk]
      exact ⟨hk', hv⟩

theorem Threads.refer {n : ℕ} {p : Option (BufNo × ℕ)} (h : Threads s G)
    (hbuf : s'.buf = update s.buf k { s.buf k with refcnt := n }) (hdisk : s'.disk = s.disk)
    (hptrs : s'.ptrs = update s.ptrs a l) (hp : ∀ k' b, p = some (k', b) → (s.buf k').block = some b)
    (hl : ∀ k', l.count k' = Ctx.refs { G a with loose := p } k') :
    Threads s' (update G a { G a with loose := p }) := by
  have hsame : ∀ k', (s'.buf k').lock = (s.buf k').lock ∧ (s'.buf k').block = (s.buf k').block ∧
      (s'.buf k').valid = (s.buf k').valid ∧ (s'.buf k').data = (s.buf k').data := by
    intro k'
    rw [hbuf]
    by_cases hk' : k' = k
    · subst hk'
      simp
    · simp [hk']
  have hok : ∀ b k' o, OwnOk s b k' o → OwnOk s' b k' o := by
    intro b k' o ho
    obtain ⟨h1, h2, h3, h4⟩ := hsame k'
    exact ho.congr h1 h2 h3 h4 (congrFun hdisk _)
  refine h.move (fun b k' o _ ho => hok b k' o (h.own b k' o ho)) ?_ ?_ ?_ (fun k' o ho => hok a k' o (h.own a k' o ho))
    ?_ ?_ ?_
  · intro b k' _ hb
    rw [← hb, (hsame k').1]
  · intro b k' m _ hm
    rw [(hsame k').2.1, h.loose b k' m hm]
  · intro b hb
    rw [hptrs, update_of_ne hb]
  · intro k' hb
    exact h.lock a k' (by rw [← hb, (hsame k').1])
  · intro k' m hm
    rw [(hsame k').2.1, hp k' m hm]
  · intro k'
    rw [hptrs, update_self, hl k']

include h

theorem Sound.bget_hit (hk : (s.buf k).block = some b) (hloose : (G a).loose = none) :
    Sound L ((s.setBuf k { s.buf k with refcnt := (s.buf k).refcnt + 1 }).addPtr a k)
      (update G a { G a with loose := some (k, b) }) stale w j := by
  have hcount : ∀ k', (k :: s.ptrs a).count k' = Ctx.refs { G a with loose := some (k, b) } k' := by
    intro k'
    rw [List.count_cons, h.threads.ptrs a k']
    simp [Ctx.refs, hloose, beq_iff_eq]
  refine h.refer (Store.sameData_of_buf (k := k) (x := { s.buf k with refcnt := (s.buf k).refcnt + 1 }) rfl rfl rfl rfl
    rfl rfl rfl rfl rfl rfl) ?_ ?_ rfl rfl rfl rfl (fun _ _ ho _ => ho) (fun _ _ ho _ => .inl ho) (fun _ => id)
    fun _ => .inl
  · refine h.threads.refer (k := k) (n := (s.buf k).refcnt + 1) (l := k :: s.ptrs a) rfl rfl rfl ?_ hcount
    rintro k' b' hk'
    cases hk'
    exact hk
  · refine h.cache.refer (k := k) (n := (s.buf k).refcnt + 1) (l := k :: s.ptrs a) rfl h.cache.lru rfl rfl ?_ ?_
    · rw [List.count_cons_self]
      push_cast
      ring
    · intro k' hk'
      rw [List.count_cons_of_ne (Ne.symm hk')]

theorem Sound.bget_miss (hb : ∀ k', (s.buf k').block ≠ some b)
    (h₀ : (s.buf k).refcnt = 0) (hloose : (G a).loose = none) :
    Sound L ((s.setBuf k { s.buf k with block := some b, valid := false, refcnt := 1 }).addPtr a k)
      (update G a { G a with loose := some (k, b) }) (fun k' => stale k' ∧ k' ≠ k) w j := by
  obtain ⟨hrefs, hpin⟩ := h.unused h₀
  have hno : ∀ c, (G c).own k = none ∧ ∀ n, (G c).loose ≠ some (k, n) := fun c => Ctx.refs_eq_zero.mp (hrefs c)
  have hP : b ∉ j.pinned s.lh := by
    intro hP
    obtain ⟨k', hk', -⟩ := h.cache.cached b hP
    exact hb k' hk'
  set s' := (s.setBuf k { s.buf k with block := some b, valid := false, refcnt := 1 }).addPtr a k with hs'
  have hself : s'.buf k = { s.buf k with block := some b, valid := false, refcnt := 1 } := by simp [hs', Store.addPtr]
  have hbuf : ∀ k', k' ≠ k → s'.buf k' = s.buf k' := fun k' hk' => Store.setBuf_buf_of_ne s _ hk'
  have hsum : ∀ k', s'.refs k' = s.refs k' + if k' = k then 1 else 0 := by
    intro k'
    rw [Store.refs_update (s := s) (l := k :: s.ptrs a) (show s'.ptrs = _ from rfl), List.count_cons]
    by_cases hk' : k' = k
    · simp [hk']
    · simp [hk', Ne.symm hk']
  refine ⟨?_, ?_, ?_, h.ops.frame rfl rfl rfl rfl rfl rfl rfl rfl, ?_, ?_, ?_⟩
  · refine h.threads.move ?_ ?_ ?_ ?_ ?_ ?_ ?_ ?_
    · intro c k' o _ ho
      have hk' : k' ≠ k := by
        rintro rfl
        rw [(hno c).1] at ho
        cases ho
      refine (h.threads.own c k' o ho).congr ?_ ?_ ?_ ?_ rfl <;> rw [hbuf k' hk']
    · intro c k' _ hl
      by_cases hk' : k' = k
      · subst hk'
        rwa [hself] at hl
      · rwa [hbuf k' hk'] at hl
    · intro c k' n _ hn
      have hk' : k' ≠ k := by
        rintro rfl
        exact (hno c).2 n hn
      rw [hbuf k' hk', h.threads.loose c k' n hn]
    · intro c hc
      exact update_of_ne hc _ _
    · intro k' o ho
      have hk' : k' ≠ k := by
        rintro rfl
        rw [(hno a).1] at ho
        cases ho
      refine (h.threads.own a k' o ho).congr ?_ ?_ ?_ ?_ rfl <;> rw [hbuf k' hk']
    · intro k' hl
      by_cases hk' : k' = k
      · subst hk'
        rw [hself] at hl
        exact h.threads.lock a k' hl
      · rw [hbuf k' hk'] at hl
        exact h.threads.lock a k' hl
    · intro k' n hn
      simp only [Option.some.injEq, Prod.mk.injEq] at hn
      obtain ⟨rfl, rfl⟩ := hn
      rw [hself]
    · intro k'
      have hp : s'.ptrs a = k :: s.ptrs a := update_self ..
      rw [hp, List.count_cons, h.threads.ptrs a k']
      simp [Ctx.refs, hloose, beq_iff_eq]
  · change Cache s' (j.pinned s.lh)
    refine ⟨h.cache.lru, ?_, ?_, ?_, ?_⟩
    · intro k1 k2 n h1 h2
      by_cases hk1 : k1 = k
      · by_cases hk2 : k2 = k
        · rw [hk1, hk2]
        · rw [hk1, hself] at h1
          rw [hbuf k2 hk2] at h2
          exact absurd (h2.trans h1.symm) (hb k2)
      · rw [hbuf k1 hk1] at h1
        by_cases hk2 : k2 = k
        · rw [hk2, hself] at h2
          exact absurd (h1.trans h2.symm) (hb k1)
        · rw [hbuf k2 hk2] at h2
          exact h.cache.unique k1 k2 n h1 h2
    · intro k'
      have hc := h.cache.refcnt k'
      change _ = _ + s.pins k'
      rw [hsum]
      by_cases hk' : k' = k
      · subst hk'
        rw [hself, if_pos rfl]
        change ((1 : ℕ) : ℤ) = _
        rw [h₀] at hc
        push_cast at hc ⊢
        omega
      · rw [hbuf k' hk', if_neg hk', add_zero]
        exact hc
    · intro k'
      change s.pins k' = _
      by_cases hk' : k' = k
      · subst hk'
        rw [hself, hpin]
        exact (pinOf_of_not_mem hP).symm
      · rw [hbuf k' hk', h.cache.pins k']
    · intro n hn
      obtain ⟨k', hk', hv⟩ := h.cache.cached n hn
      have hne : k' ≠ k := by
        rintro rfl
        rw [h.cache.pins k', hk', pinOf_of_mem hn] at hpin
        cases hpin
      exact ⟨k', by rw [hbuf k' hne, hk'], by rw [hbuf k' hne, hv]⟩
  · intro k' n hn hv hd hP' hst
    by_cases hk' : k' = k
    · subst hk'
      rw [hself] at hv
      cases hv
    · rw [hbuf k' hk'] at hn hv ⊢
      refine h.clean k' n hn hv (fun c o ho => hd c o ?_) hP' fun hst' => hst ⟨hst', hk'⟩
      by_cases hc : c = a
      · subst hc
        rw [update_self, ho]
      · rw [update_of_ne hc, ho]
  · refine h.ok.frame rfl rfl rfl rfl fun l t k' n hj hn hk => ?_
    by_cases hk' : k' = k
    · subst hk'
      rw [hself, Option.some.injEq] at hk
      subst hj hk
      have hlh : s.lh = l := h.ok.1
      rw [Job.pinned, hlh] at hP
      exact absurd hn hP
    · rw [hbuf k' hk'] at hk ⊢
      exact ⟨hk, rfl⟩
  · exact h.home_update fun k' o ho hd => h.home a k' o ho hd
  · rintro k' n ⟨hst, hk'⟩ hn
    rw [hbuf k' hk'] at hn
    exact h.staleHome k' n hst hn

theorem Sound.refcnt_pos (href : 0 < (G a).refs k) : 0 < (s.buf k).refcnt := by
  have hc := h.cache.refcnt k
  have hr := h.refs_pos href
  have hp : 0 ≤ s.pins k := by
    rw [h.cache.pins k]
    exact pinOf_nonneg _ _
  omega

theorem Sound.unref {lru : List BufNo} (hloose : (G a).loose = some (k, b))
    (hlru : ∀ k, k ∈ lru) :
    Sound L { s.setBuf k { s.buf k with refcnt := (s.buf k).refcnt - 1 } with
        lru := lru
        ptrs := update s.ptrs a ((s.ptrs a).erase k) }
      (update G a { G a with loose := none }) stale w j := by
  have href : 0 < (G a).refs k := by simp [Ctx.refs, hloose]
  have hmem : 0 < (s.ptrs a).count k := (h.threads.ptrs a k).symm ▸ href
  have hpos := h.refcnt_pos href
  refine h.refer (Store.sameData_of_buf (k := k) (x := { s.buf k with refcnt := (s.buf k).refcnt - 1 }) rfl rfl rfl rfl
    rfl rfl rfl rfl rfl rfl) ?_ ?_ rfl rfl rfl rfl (fun _ _ ho _ => ho) (fun _ _ ho _ => .inl ho) (fun _ => id)
    fun _ => .inl
  · refine h.threads.refer (k := k) (n := (s.buf k).refcnt - 1) (l := (s.ptrs a).erase k) rfl rfl rfl ?_ ?_
    · intro k' b' hk'
      cases hk'
    · intro k'
      by_cases hk' : k' = k
      · subst hk'
        rw [List.count_erase_self, h.threads.ptrs a k']
        simp [Ctx.refs, hloose]
      · rw [List.count_erase_of_ne hk', h.threads.ptrs a k']
        simp [Ctx.refs, hloose, Ne.symm hk']
  · refine h.cache.refer (k := k) (n := (s.buf k).refcnt - 1) (l := (s.ptrs a).erase k) rfl hlru rfl rfl ?_ ?_
    · rw [List.count_erase_self]
      omega
    · intro k' hk'
      rw [List.count_erase_of_ne hk']

end Steps

end Xv6Shmem.Disk
