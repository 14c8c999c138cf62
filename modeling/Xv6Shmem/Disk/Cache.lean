import Xv6Shmem.Disk.Machine
import Xv6Shmem.Theory.Links

/-!
# The list of buffers

`binit`, `bget`, `brelse`, `bpin` and `bunpin` of `kernel/bio.c`, with the pointers `prev` and
`next` that link the buffers. What a function does under `bcache.lock` is one step. The sleep-locks
are left out: who may release or unpin a buffer makes no difference to the list, so any process may
do it here, with any buffer and at any time, and the count of references wraps around as it does in
the source.

The machine of `Disk/Machine.lean` has a list of buffers instead of the pointers.

## What is proved

* `cache_structure` — the pointers link all the buffers in a ring, no two of them have the same
  block, a buffer that is referred to keeps its block, and a block that is not cached gets the
  buffer nearest to the end of the list that nobody refers to.
* `Mirrors.bget`, `Mirrors.brelse`, `Mirrors.bpin`, `Mirrors.bunpin` — the pointers do what the
  machine does with its list.
-/

namespace Xv6Shmem.Disk

open Function Kernel LTS

/-- `struct buf`, without its sleep-lock, its data and its links. -/
structure CacheBuf where
  /-- Has the data been read from disk? -/
  valid : Bool
  dev : UInt32
  blockno : UInt32
  refcnt : UInt32
  deriving DecidableEq

/-- `bcache`. The head of the list is `none`. -/
structure Bcache where
  /-- `next` and `prev` of the buffers and of the head. -/
  links : Links BufNo
  buf : BufNo → CacheBuf

/-- Change a buffer. -/
def Bcache.setBuf (c : Bcache) (b : BufNo) (x : CacheBuf) : Bcache := { c with buf := update c.buf b x }

/-- `binit`, whatever the pointers were. -/
def binit (links : Links BufNo) : Bcache where
  links := (List.finRange NBUF).foldl Links.pushFront links.clear
  buf := fun _ => ⟨false, 0, 0, 0⟩

/-- The buffer has the block. -/
def CacheBuf.has (x : CacheBuf) (dev blockno : UInt32) : Bool := x.dev = dev ∧ x.blockno = blockno

/-- The first loop of `bget`: is the block already cached? -/
def Bcache.findCached (c : Bcache) (dev blockno : UInt32) : Option (Option BufNo) :=
  Links.walk c.links.next (fun b => (c.buf b).has dev blockno) (NBUF + 1) (c.links.next none)

/-- The second loop of `bget`: the least recently used buffer that nobody refers to. -/
def Bcache.findFree (c : Bcache) : Option (Option BufNo) :=
  Links.walk c.links.prev (fun b => (c.buf b).refcnt = 0) (NBUF + 1) (c.links.prev none)

/-- One reference more. -/
def Bcache.ref (c : Bcache) (b : BufNo) : Bcache := c.setBuf b { c.buf b with refcnt := (c.buf b).refcnt + 1 }

/-- One reference less. -/
def Bcache.unref (c : Bcache) (b : BufNo) : Bcache := c.setBuf b { c.buf b with refcnt := (c.buf b).refcnt - 1 }

/-- The buffer is given to another block. -/
def Bcache.recycle (c : Bcache) (b : BufNo) (dev blockno : UInt32) : Bcache := c.setBuf b ⟨false, dev, blockno, 1⟩

/-- `bget` when the block is not cached. If all buffers are in use it panics. -/
def Bcache.bgetFree (c : Bcache) (dev blockno : UInt32) : Option BufNo → Option (BufNo × Bcache)
  | some b => some (b, c.recycle b dev blockno)
  | none => none

/-- `bget` after its first loop. -/
def Bcache.bgetCached (c : Bcache) (dev blockno : UInt32) : Option BufNo → Option (BufNo × Bcache)
  | some b => some (b, c.ref b)
  | none => c.findFree.bind (c.bgetFree dev blockno)

/-- `bget`, up to where it takes the sleep-lock. -/
def Bcache.bget (c : Bcache) (dev blockno : UInt32) : Option (BufNo × Bcache) :=
  (c.findCached dev blockno).bind (c.bgetCached dev blockno)

/-- `brelse`, after it has given back the sleep-lock. -/
def Bcache.brelse (c : Bcache) (b : BufNo) : Bcache :=
  let c := c.unref b
  if (c.buf b).refcnt = 0 then { c with links := (c.links.unlink b).pushFront b } else c

/-- `bpin`. -/
def Bcache.bpin (c : Bcache) (b : BufNo) : Bcache := c.ref b

/-- `bunpin`. -/
def Bcache.bunpin (c : Bcache) (b : BufNo) : Bcache := c.unref b

/-- The calls. -/
inductive CacheOp where
  | bget (dev blockno : UInt32)
  | brelse (b : BufNo)
  | bpin (b : BufNo)
  | bunpin (b : BufNo)

/-- A call. -/
def Bcache.step (c : Bcache) : CacheOp → Option Bcache
  | .bget dev blockno => (c.bget dev blockno).map Prod.snd
  | .brelse b => some (c.brelse b)
  | .bpin b => some (c.bpin b)
  | .bunpin b => some (c.bunpin b)

/-- **Any calls after `binit`**. -/
def cacheMachine : LTS Bcache CacheOp where
  init c := ∃ links, c = binit links
  step c op c' := c.step op = some c'

/-! ### The invariant -/

/-- The pointers link all buffers, in the order of `l`. -/
def Bcache.Lists (c : Bcache) (l : List BufNo) : Prop := c.links.Linked l ∧ ∀ b, b ∈ l

/-- No two buffers have the same block. -/
def Bcache.Keyed (c : Bcache) : Prop :=
  ∀ b b', (c.buf b).dev ≠ 0 → (c.buf b).dev = (c.buf b').dev → (c.buf b).blockno = (c.buf b').blockno → b = b'

section Steps

variable {c c' : Bcache} {l : List BufNo} {b : BufNo} {dev blockno : UInt32}

theorem Bcache.Lists.length_lt (h : c.Lists l) : l.length < NBUF + 1 := by
  have hcard := h.1.1.length_le_card
  rw [Fintype.card_fin] at hcard
  exact Nat.lt_succ_of_le hcard

theorem Bcache.Lists.findCached (h : c.Lists l) (dev blockno : UInt32) :
    c.findCached dev blockno = some (l.find? fun b => (c.buf b).has dev blockno) :=
  h.1.walk_next h.length_lt

theorem Bcache.Lists.findFree (h : c.Lists l) : c.findFree = some (l.reverse.find? fun b => (c.buf b).refcnt = 0) :=
  h.1.walk_prev h.length_lt

/-- **What `bget` does**: a reference to the buffer that has the block, or the last buffer of the list that nobody refers
to, or a panic if there is none. -/
theorem Bcache.Lists.bget (h : c.Lists l) (dev blockno : UInt32) :
    (∃ b, (c.buf b).has dev blockno = true ∧ c.bget dev blockno = some (b, c.ref b)) ∨
    (∀ b, (c.buf b).has dev blockno = false) ∧
      ((∃ l₁ b l₂, l = l₁ ++ b :: l₂ ∧ (c.buf b).refcnt = 0 ∧ (∀ x ∈ l₂, (c.buf x).refcnt ≠ 0) ∧
          c.bget dev blockno = some (b, c.recycle b dev blockno)) ∨
        (∀ b, (c.buf b).refcnt ≠ 0) ∧ c.bget dev blockno = none) := by
  rw [Bcache.bget, h.findCached, Option.bind_some]
  cases hf : l.find? fun b => (c.buf b).has dev blockno with
  | some b => exact .inl ⟨b, List.find?_some (p := fun b => (c.buf b).has dev blockno) hf, rfl⟩
  | none =>
    refine .inr ⟨fun b => ?_, ?_⟩
    · simpa using List.find?_eq_none.mp hf b (h.2 b)
    · rw [Bcache.bgetCached, h.findFree, Option.bind_some]
      cases hr : l.reverse.find? fun b => (c.buf b).refcnt = 0 with
      | some b =>
        obtain ⟨hb, l₁, l₂, hl, hl1⟩ := List.find?_eq_some_iff_append.mp hr
        refine .inl ⟨l₂.reverse, b, l₁.reverse, ?_, by simpa using hb, fun x hx => ?_, rfl⟩
        · rw [← l.reverse_reverse, hl]
          simp
        · simpa using hl1 x (List.mem_reverse.mp hx)
      | none =>
        refine .inr ⟨fun b => ?_, rfl⟩
        simpa using List.find?_eq_none.mp hr b (List.mem_reverse.mpr (h.2 b))

/-- **What a call can do**: to the block of a buffer, the references to it and the list. -/
theorem Bcache.Lists.brelse (h : c.Lists l) (b : BufNo) : ∃ l', (c.brelse b).Lists l' := by
  unfold Bcache.brelse
  dsimp only
  split
  · obtain ⟨l1, l2, rfl⟩ := List.append_of_mem (h.2 b)
    have hnd := List.nodup_cons.mp (List.nodup_middle.mp h.1.1)
    refine ⟨b :: (l1 ++ l2), h.1.unlink.pushFront hnd.1, fun x => ?_⟩
    have hx := h.2 x
    simp only [List.mem_append, List.mem_cons] at hx ⊢
    tauto
  · exact ⟨l, h⟩

theorem Bcache.buf_brelse (c : Bcache) (b : BufNo) : (c.brelse b).buf = (c.unref b).buf := by
  unfold Bcache.brelse
  dsimp only
  split <;> rfl

theorem Bcache.key_setBuf {x : CacheBuf} (hdev : x.dev = (c.buf b).dev) (hno : x.blockno = (c.buf b).blockno) (k : BufNo) :
    ((c.setBuf b x).buf k).dev = (c.buf k).dev ∧ ((c.setBuf b x).buf k).blockno = (c.buf k).blockno := by
  by_cases hk : k = b
  · subst hk
    simpa [Bcache.setBuf] using ⟨hdev, hno⟩
  · simp [Bcache.setBuf, hk]

theorem Bcache.key_ref (c : Bcache) (b k : BufNo) :
    ((c.ref b).buf k).dev = (c.buf k).dev ∧ ((c.ref b).buf k).blockno = (c.buf k).blockno :=
  Bcache.key_setBuf (x := { c.buf b with refcnt := (c.buf b).refcnt + 1 }) rfl rfl k

theorem Bcache.key_unref (c : Bcache) (b k : BufNo) :
    ((c.unref b).buf k).dev = (c.buf k).dev ∧ ((c.unref b).buf k).blockno = (c.buf k).blockno :=
  Bcache.key_setBuf (x := { c.buf b with refcnt := (c.buf b).refcnt - 1 }) rfl rfl k

theorem Bcache.Keyed.of_key (h : c.Keyed)
    (hkey : ∀ k, (c'.buf k).dev = (c.buf k).dev ∧ (c'.buf k).blockno = (c.buf k).blockno) : c'.Keyed := by
  intro b b' hb hdev hno
  rw [(hkey b).1] at hb hdev
  rw [(hkey b').1] at hdev
  rw [(hkey b).2, (hkey b').2] at hno
  exact h b b' hb hdev hno

theorem Bcache.Keyed.recycle (h : c.Keyed) (hno : ∀ b, (c.buf b).has dev blockno = false) (b : BufNo) :
    (c.recycle b dev blockno).Keyed := by
  have hmiss : ∀ k, ¬ ((c.buf k).dev = dev ∧ (c.buf k).blockno = blockno) := by
    intro k
    simpa [CacheBuf.has] using hno k
  intro k k' hk hdev hbl
  by_cases hkb : k = b
  · by_cases hkb' : k' = b
    · rw [hkb, hkb']
    · subst hkb
      simp only [Bcache.recycle, Bcache.setBuf, update_self, update_of_ne hkb'] at hdev hbl
      exact absurd ⟨hdev.symm, hbl.symm⟩ (hmiss k')
  · by_cases hkb' : k' = b
    · subst hkb'
      simp only [Bcache.recycle, Bcache.setBuf, update_self, update_of_ne hkb] at hdev hbl
      exact absurd ⟨hdev, hbl⟩ (hmiss k)
    · simp only [Bcache.recycle, Bcache.setBuf, update_of_ne hkb, update_of_ne hkb'] at hk hdev hbl
      exact h k k' hk hdev hbl

/-- **A call keeps the list and the blocks in order**, and a buffer that is referred to keeps its block. -/
theorem Bcache.Lists.step (h : c.Lists l) (hkey : c.Keyed) {op : CacheOp} (hstep : c.step op = some c') :
    (∃ l', c'.Lists l') ∧ c'.Keyed ∧
      ∀ b, (c.buf b).refcnt ≠ 0 → (c'.buf b).dev = (c.buf b).dev ∧ (c'.buf b).blockno = (c.buf b).blockno := by
  have hsame : (∀ k, (c'.buf k).dev = (c.buf k).dev ∧ (c'.buf k).blockno = (c.buf k).blockno) → (∃ l', c'.Lists l') →
      (∃ l', c'.Lists l') ∧ c'.Keyed ∧
        ∀ b, (c.buf b).refcnt ≠ 0 → (c'.buf b).dev = (c.buf b).dev ∧ (c'.buf b).blockno = (c.buf b).blockno :=
    fun hk hl => ⟨hl, hkey.of_key hk, fun b _ => hk b⟩
  cases op with
  | bget dev blockno =>
    simp only [Bcache.step, Option.map_eq_some_iff] at hstep
    obtain ⟨⟨b, c''⟩, hget, rfl⟩ := hstep
    rcases h.bget dev blockno with ⟨b', -, heq⟩ | ⟨hmiss, ⟨l1, b', l2, -, hfree, -, heq⟩ | ⟨-, heq⟩⟩
    · rw [heq] at hget
      cases hget
      exact hsame (c.key_ref b) ⟨l, h⟩
    · rw [heq] at hget
      cases hget
      refine ⟨⟨l, h⟩, hkey.recycle hmiss b, fun k hk => ?_⟩
      have hkb : k ≠ b := by
        rintro rfl
        exact hk hfree
      simp [Bcache.recycle, Bcache.setBuf, hkb]
    · rw [heq] at hget
      cases hget
  | brelse b =>
    cases hstep
    refine hsame (fun k => ?_) (h.brelse b)
    rw [Bcache.buf_brelse]
    exact c.key_unref b k
  | bpin b =>
    cases hstep
    exact hsame (c.key_ref b) ⟨l, h⟩
  | bunpin b =>
    cases hstep
    exact hsame (c.key_unref b) ⟨l, h⟩

theorem linked_foldl {L : Links BufNo} {l bs : List BufNo} (h : L.Linked l) (hbs : bs.Nodup) (hne : ∀ b ∈ bs, b ∉ l) :
    (bs.foldl Links.pushFront L).Linked (bs.reverse ++ l) := by
  induction bs generalizing L l with
  | nil => exact h
  | cons b bs ih =>
    rw [List.nodup_cons] at hbs
    rw [List.foldl_cons, List.reverse_cons, List.append_assoc]
    refine ih (h.pushFront (hne b List.mem_cons_self)) hbs.2 fun x hx => ?_
    rw [List.singleton_append, List.mem_cons, not_or]
    refine ⟨?_, hne x (List.mem_cons_of_mem _ hx)⟩
    rintro rfl
    exact hbs.1 hx

theorem lists_binit (links : Links BufNo) : (binit links).Lists (List.finRange NBUF).reverse := by
  refine ⟨?_, fun b => by simp⟩
  have h := linked_foldl links.linked_clear (List.nodup_finRange NBUF) fun b _ => List.not_mem_nil
  rwa [List.append_nil] at h

theorem invariant_of_reachable (h : cacheMachine.Reachable c) : (∃ l, c.Lists l) ∧ c.Keyed := by
  apply Reachable.invariant (I := fun c => (∃ l, c.Lists l) ∧ c.Keyed) _ _ h
  · rintro c ⟨links, rfl⟩
    exact ⟨⟨_, lists_binit links⟩, fun b b' hb => absurd rfl hb⟩
  · rintro c op c' - ⟨⟨l, hl⟩, hkey⟩ hstep
    obtain ⟨hl', hkey', -⟩ := hl.step hkey hstep
    exact ⟨hl', hkey'⟩

end Steps

/-- **The buffer cache**: after any calls the pointers link every buffer, once, in a ring in both directions; no two
buffers have the same block of a device other than `0`; whatever is called next, a buffer that is referred to keeps its
block; and a `bget` for a block that is not cached takes, of the buffers that nobody refers to, the one nearest to the end
of the list, if there is one. -/
theorem cache_structure {c : Bcache} (h : cacheMachine.Reachable c) :
    ∃ l : List BufNo, c.links.Linked l ∧ (∀ b, l.count b = 1) ∧
      (∀ b b', (c.buf b).dev ≠ 0 → (c.buf b).dev = (c.buf b').dev → (c.buf b).blockno = (c.buf b').blockno → b = b') ∧
      (∀ op c', c.step op = some c' → ∀ b, 0 < (c.buf b).refcnt →
        (c'.buf b).dev = (c.buf b).dev ∧ (c'.buf b).blockno = (c.buf b).blockno) ∧
      ∀ dev blockno, (∀ b, ¬ ((c.buf b).dev = dev ∧ (c.buf b).blockno = blockno)) → (∃ b, (c.buf b).refcnt = 0) →
        ∃ l₁ b l₂, l = l₁ ++ b :: l₂ ∧ (c.buf b).refcnt = 0 ∧ (∀ x ∈ l₂, (c.buf x).refcnt ≠ 0) ∧
          c.bget dev blockno = some (b, c.recycle b dev blockno) := by
  obtain ⟨⟨l, hl⟩, hkey⟩ := invariant_of_reachable h
  refine ⟨l, hl.1, fun b => List.count_eq_one_of_mem hl.1.1 (hl.2 b), hkey, fun op c' hstep b hb => ?_,
    fun dev blockno hmiss ⟨k, hk⟩ => ?_⟩
  · exact (hl.step hkey hstep).2.2 b (UInt32.pos_iff_ne_zero.mp hb)
  · rcases hl.bget dev blockno with ⟨b, hb, -⟩ | ⟨-, hfree | ⟨hused, -⟩⟩
    · exact absurd (by simpa [CacheBuf.has] using hb) (hmiss b)
    · exact hfree
    · exact absurd hk (hused k)

/-- Block `40` is got, and then block `41`. -/
theorem cache_structure_of_bget :
    ∃ c l, cacheMachine.Reachable c ∧ (c.buf 0).blockno = 40 ∧ (c.buf 0).refcnt = 1 ∧ c.links.Linked l ∧
      ∃ l₁ b l₂, l = l₁ ++ b :: l₂ ∧ (c.buf b).refcnt = 0 ∧ (∀ x ∈ l₂, (c.buf x).refcnt ≠ 0) ∧
        c.bget 1 41 = some (b, c.recycle b 1 41) := by
  have hget : (((binit ⟨fun _ => none, fun _ => none⟩).step (.bget 1 40)).map fun c =>
      decide ((c.buf 0).blockno = 40 ∧ (c.buf 0).refcnt = 1 ∧ (c.buf 1).refcnt = 0 ∧
        ∀ b, ¬ ((c.buf b).dev = 1 ∧ (c.buf b).blockno = 41))) = some true := by
    decide +kernel
  obtain ⟨c, hc, hf⟩ := Option.map_eq_some_iff.mp hget
  obtain ⟨hno, href, hfree, hmiss⟩ := of_decide_eq_true hf
  have hstart : cacheMachine.Reachable (binit ⟨fun _ => none, fun _ => none⟩) := .start ⟨_, rfl⟩
  have hreach : cacheMachine.Reachable c := hstart.snoc hc
  obtain ⟨l, hl, -, -, -, hlru⟩ := cache_structure hreach
  exact ⟨c, l, hreach, hno, href, hl, hlru 1 41 hmiss ⟨1, hfree⟩⟩

/-! ### The list of the machine -/

/-- The cache has the list and the buffers of the machine's store. There is only one device. -/
structure Mirrors (c : Bcache) (s : Store) : Prop where
  lru : c.Lists s.lru
  refcnt : ∀ k, (c.buf k).refcnt.toNat = (s.buf k).refcnt
  valid : ∀ k, (c.buf k).valid = (s.buf k).valid
  block : ∀ k, (s.buf k).block = if (c.buf k).dev = 1 then some (c.buf k).blockno.toNat else none

section Mirrors

variable {c : Bcache} {s t : Store} {a : Slot} {k : BufNo} {b : UInt32}

theorem mirrors_cold (links : Links BufNo) (disk : ℕ → Block) : Mirrors (binit links) (.cold disk) :=
  ⟨lists_binit links, fun _ => rfl, fun _ => rfl, fun _ => rfl⟩

variable (h : Mirrors c s)

include h

theorem Mirrors.has_iff (k : BufNo) : (c.buf k).has 1 b = decide ((s.buf k).block = some b.toNat) := by
  rw [h.block k, CacheBuf.has]
  by_cases hd : (c.buf k).dev = 1
  · simp [hd, UInt32.toNat_inj]
  · simp [hd]

theorem Mirrors.free_iff (k : BufNo) :
    decide ((c.buf k).refcnt = 0) = decide ((s.buf k).refcnt = 0) := by
  rw [← h.refcnt k, decide_eq_decide, ← UInt32.toNat_inj]
  rfl

theorem Mirrors.setBuf {x : CacheBuf} {y : Buf} (hlru : t.lru = s.lru) (hbuf : t.buf = update s.buf k y)
    (href : x.refcnt.toNat = y.refcnt) (hvalid : x.valid = y.valid)
    (hblock : y.block = if x.dev = 1 then some x.blockno.toNat else none) : Mirrors (c.setBuf k x) t := by
  refine ⟨hlru ▸ h.lru, fun k' => ?_, fun k' => ?_, fun k' => ?_⟩ <;> rw [hbuf] <;> by_cases hk : k' = k
  · simpa [Bcache.setBuf, hk] using href
  · simpa [Bcache.setBuf, hk] using h.refcnt k'
  · simpa [Bcache.setBuf, hk] using hvalid
  · simpa [Bcache.setBuf, hk] using h.valid k'
  · simpa [Bcache.setBuf, hk] using hblock
  · simpa [Bcache.setBuf, hk] using h.block k'

/-- One reference more on both sides, if the count does not wrap around. -/
theorem Mirrors.ref (hk : (s.buf k).refcnt + 1 < 2 ^ 32) (hlru : t.lru = s.lru)
    (hbuf : t.buf = update s.buf k { s.buf k with refcnt := (s.buf k).refcnt + 1 }) : Mirrors (c.ref k) t := by
  refine h.setBuf hlru hbuf ?_ (h.valid k) (h.block k)
  rw [← h.refcnt k] at hk ⊢
  rw [UInt32.toNat_add]
  exact Nat.mod_eq_of_lt hk

theorem Mirrors.unref (hk : 0 < (s.buf k).refcnt) (hlru : t.lru = s.lru)
    (hbuf : t.buf = update s.buf k { s.buf k with refcnt := (s.buf k).refcnt - 1 }) : Mirrors (c.unref k) t := by
  refine h.setBuf hlru hbuf ?_ (h.valid k) (h.block k)
  rw [← h.refcnt k] at hk ⊢
  exact UInt32.toNat_sub_of_le _ _ (UInt32.le_iff_toNat_le.mpr hk)

/-- **`bget`** finds the same buffer on both sides. -/
theorem Mirrors.bget {L : LogArea} (hx : s.exec L a (.bget b.toNat) = some (k, t))
    (hk : (s.buf k).refcnt + 1 < 2 ^ 32) : ∃ c', c.bget 1 b = some (k, c') ∧ Mirrors c' t := by
  have hcached : c.findCached 1 b = some (s.findCached b.toNat) := by
    rw [h.lru.findCached]
    simp only [h.has_iff]
    rfl
  have hfree : c.findFree = some s.findFree := by
    rw [h.lru.findFree]
    simp only [h.free_iff]
    rfl
  rw [Bcache.bget, hcached, Option.bind_some]
  simp only [Store.exec] at hx
  split at hx
  · rename_i k' hf
    cases hx
    rw [hf]
    exact ⟨c.ref k, rfl, h.ref hk rfl rfl⟩
  · rename_i hf
    rw [hf, Bcache.bgetCached, hfree, Option.bind_some]
    split at hx
    · rename_i k' hr
      cases hx
      rw [hr]
      exact ⟨_, rfl, h.setBuf rfl rfl rfl rfl (by simp)⟩
    · cases hx

/-- **`brelse`** moves the buffer to the front on both sides. -/
theorem Mirrors.brelse {L : LogArea} (hx : s.exec L a (.unref k) = some ((), t))
    (hk : 0 < (s.buf k).refcnt) : Mirrors (c.brelse k) t := by
  cases hx
  have hun : Mirrors (c.unref k) (s.setBuf k { s.buf k with refcnt := (s.buf k).refcnt - 1 }) := h.unref hk rfl rfl
  have hzero : ((c.unref k).buf k).refcnt = 0 ↔ (s.buf k).refcnt - 1 = 0 := by
    rw [← UInt32.toNat_inj, hun.refcnt k]
    simp [Store.setBuf]
  unfold Bcache.brelse
  dsimp only
  by_cases hz : (s.buf k).refcnt - 1 = 0
  · rw [if_pos (hzero.mpr hz)]
    obtain ⟨l1, l2, hl⟩ := List.append_of_mem (h.lru.2 k)
    have hnd := h.lru.1.1
    rw [hl] at hnd
    have hmem := (List.nodup_cons.mp (List.nodup_middle.mp hnd)).1
    have herase : s.lru.erase k = l1 ++ l2 := by
      rw [hl, List.erase_append_right _ fun h => hmem (List.mem_append_left _ h), List.erase_cons_head]
    refine ⟨⟨?_, fun x => ?_⟩, hun.refcnt, hun.valid, hun.block⟩
    · have hlinked := hun.lru.1
      change (c.unref k).links.Linked s.lru at hlinked
      rw [hl] at hlinked
      simpa [hz, herase] using hlinked.unlink.pushFront hmem
    · have hx := h.lru.2 x
      rw [hl] at hx
      simp only [hz, if_true, herase, List.mem_cons, List.mem_append] at hx ⊢
      tauto
  · rw [if_neg (hzero.not.mpr hz)]
    refine ⟨?_, hun.refcnt, hun.valid, hun.block⟩
    simp only [hz, if_false]
    exact hun.lru

/-- **`bunpin`**. -/
theorem Mirrors.bunpin {L : LogArea} (hx : s.exec L a (.bunpin k) = some ((), t))
    (hk : 0 < (s.buf k).refcnt) : Mirrors (c.bunpin k) t := by
  cases hx
  exact h.unref hk rfl rfl

/-- **`bpin`**, in `log_write` if the block is not in the log. -/
theorem Mirrors.bpin {L : LogArea} (hx : s.exec L a (.logWrite k) = some ((), t))
    (hk : (s.buf k).refcnt + 1 < 2 ^ 32) : Mirrors c t ∨ Mirrors (c.bpin k) t := by
  simp only [Store.exec] at hx
  split at hx
  · obtain ⟨b, -, hx⟩ := Option.map_eq_some_iff.mp hx
    split at hx
    · cases hx
      exact .inl h
    · cases hx
      exact .inr (h.ref hk rfl rfl)
  · cases hx

end Mirrors

end Xv6Shmem.Disk
