import Xv6Shmem.Disk.Machine

/-!
# The discipline of the buffers and of the log

A buffer is read and changed only by the process that holds its sleep-lock, and the disk is
written only by the process that commits or recovers, in an order of its own: the blocks of
the log, the header, the blocks at home, and the header again.

The rules follow a process through its code with what it knows: of the buffers that it holds,
which block each is for, what it has seen of the data and whether it has changed it; and, if it
is the one that commits or recovers, how far it is.

## What is proved

* `writeLogFrom_spec`, `installTrans_spec`, `commit_spec`, `recoverFromLog_spec` — the functions
  of the log keep to the order.
* `call_spec` — so does every call, and it ends with what the process has in hand.
-/

namespace Xv6Shmem.Disk

open Function Kernel Prog

/-- What a process knows of a buffer that it holds. -/
structure Own where
  /-- The block. -/
  block : ℕ
  /-- Whether the buffer is valid. -/
  valid : Option Bool
  /-- The data. -/
  know : Option Block
  /-- The data on the disk, when the process has changed that of the buffer. -/
  was : Option Block
  /-- It has changed the data, and neither written nor logged it. -/
  dirty : Bool

/-- How far the process is that commits or recovers. -/
inductive Job where
  /-- It does neither. -/
  | none
  /-- Before the header is read. -/
  | boot
  /-- The first `t` blocks of the transaction are in the log. -/
  | log (l : List ℕ) (t : ℕ)
  /-- The header names the transaction; the first `w` blocks are at home, and the first `u` are not pinned. -/
  | install (l : List ℕ) (w u : ℕ) (recovering : Bool)
  /-- All blocks are at home, and the header names the transaction still. -/
  | clear (l : List ℕ)
  /-- The header is empty again. -/
  | done

/-- What a process knows. -/
structure Ctx where
  /-- The buffers that it holds. -/
  own : BufNo → Option Own
  /-- A buffer that it has a reference to and does not hold, with its block. -/
  loose : Option (BufNo × ℕ)
  /-- It is within an operation. -/
  inOp : Bool
  /-- How far it is. -/
  job : Job
  /-- It is in `install_trans`. -/
  inst : Bool
  /-- It recovers. -/
  boot : Bool
  /-- The blocks that the operation has logged. -/
  logged : List ℕ

/-- Another thing is known of a buffer. -/
def Ctx.set (g : Ctx) (k : BufNo) (o : Option Own) : Ctx := { g with own := update g.own k o }

/-- It holds a valid buffer for the block, knows the data, and has not changed it. -/
def Ctx.Holds (g : Ctx) (b : ℕ) (d : Block) : Prop :=
  ∃ k o, g.own k = some o ∧ o.block = b ∧ o.valid = some true ∧ o.know = some d ∧ o.dirty = false

/-- What it has changed it has written or logged. -/
def Ctx.Saved (g : Ctx) : Prop := ∀ k o, g.own k = some o → o.dirty = false

/-- The process that recovers has at most one buffer when it gets another, and that is for another block. -/
def Ctx.MayRead (g : Ctx) (b : ℕ) : Prop :=
  g.boot = true → (∀ k o, g.own k = some o → o.block ≠ b) ∧ ∃ k₀, ∀ k, g.own k ≠ none → k = k₀

/-- A buffer that was just read. -/
def Own.fresh (b : ℕ) : Own := ⟨b, some true, none, none, false⟩

section Rules

variable (L : LogArea) (strict : Bool) (cap : Option ℕ)

/-- What is known of a buffer when its data is changed. Outside the log the disk may differ from the buffer. -/
def Own.change (o : Own) (d : Block) : Own :=
  { o with know := some d, was := if L.Home o.block then none else if o.dirty then o.was else o.know, dirty := true }

/-- Who may change the data of a buffer for block `b` to `d`. -/
inductive MaySet (g : Ctx) (b : ℕ) (d : Block) : Prop where
  /-- An operation, outside the log. -/
  | op (hj : g.job = .none) (ho : g.inOp = true) (hb : L.Home b)
  /-- The process that commits, in the log. -/
  | log (hj : g.job ≠ .none) (hb : ¬ L.Home b)
  /-- The process that commits, with the data of the block from the log. -/
  | install {l : List ℕ} {w u : ℕ} {r : Bool} (hj : g.job = .install l w u r) (hb : l[w]? = some b)
    (hd : g.Holds (L.start + w + 1) d)

/-- Who may write a buffer with data `d` to the disk, and how far it is then. -/
inductive MayWrite (g : Ctx) (o : Own) (d : Block) : Job → Prop where
  | log {l : List ℕ} {t b : ℕ} (hj : g.job = .log l t) (hb : l[t]? = some b) (ho : o.block = L.start + t + 1)
    (hd : g.Holds b d) : MayWrite g o d (.log l (t + 1))
  | head {l : List ℕ} (hj : g.job = .log l l.length) (ho : o.block = L.start) (hd : header d = l) :
    MayWrite g o d (.install l 0 0 false)
  | install {l : List ℕ} {w u : ℕ} {r : Bool} (hj : g.job = .install l w u r) (hi : g.inst = true)
    (hb : l[w]? = some o.block) (hd : g.Holds (L.start + w + 1) d) : MayWrite g o d (.install l (w + 1) u r)
  | clear {l : List ℕ} {d₀ : Block} (hj : g.job = .clear l) (ho : o.block = L.start) (hw : o.was = some d₀)
    (hd : d = putHeader [] d₀) : MayWrite g o d .done

/-- `log.lh`, as the process that commits knows it. -/
def Job.lh : Job → Option (List ℕ)
  | .log l _ | .install l _ _ _ => some l
  | .clear _ | .done => some []
  | .none | .boot => Option.none

/-- The rules. If they are `strict`, an operation too gives back a buffer only after it has logged what it changed.
If there is a `cap`, no operation logs more blocks than that. -/
def rules : Rules Cmd.Res Ctx
  | .bget b, Q, g =>
    g.loose = none ∧ g.MayRead b ∧ ∀ k, (g.boot = true → g.own k = none) → Q k { g with loose := some (k, b) }
  | .acquiresleep k, Q, g =>
    ∃ b, g.loose = some (k, b) ∧ (g.boot = true → g.own k = none) ∧
      (g.own k = none → Q () { g.set k (some ⟨b, none, none, none, false⟩) with loose := none })
  | .valid k, Q, g =>
    ∃ o, g.own k = some o ∧ (o.valid ≠ some false → Q true (g.set k (some { o with valid := some true }))) ∧
      (o.valid ≠ some true → Q false (g.set k (some { o with valid := some false })))
  | .readDisk k, Q, g =>
    ∃ o, g.own k = some o ∧ o.valid = some false ∧ Q () (g.set k (some (.fresh o.block)))
  | .writeDisk k, Q, g =>
    ∃ o d j, g.own k = some o ∧ o.valid = some true ∧ o.know = some d ∧ MayWrite L g o d j ∧
      Q () { g.set k (some { o with was := none, dirty := false }) with job := j }
  | .data k, Q, g =>
    ∃ o, g.own k = some o ∧ o.valid = some true ∧
      ∀ d, o.know = none ∨ o.know = some d → Q d (g.set k (some { o with know := some d }))
  | .setData k d, Q, g =>
    ∃ o, g.own k = some o ∧ o.valid = some true ∧ MaySet L g o.block d ∧
      Q () (g.set k (some (o.change L d)))
  | .releasesleep k, Q, g =>
    ∃ o, g.own k = some o ∧ g.loose = none ∧ (g.job ≠ .none ∨ strict = true → o.dirty = false) ∧
      Q () { g.set k none with loose := some (k, o.block) }
  | .unref k, Q, g => ∃ b, g.loose = some (k, b) ∧ Q () { g with loose := none }
  | .bunpin k, Q, g =>
    ∃ o l w u, g.own k = some o ∧ g.job = .install l w u false ∧ g.inst = true ∧ u < w ∧ l[u]? = some o.block ∧
      Q () { g with job := .install l w (u + 1) false }
  | .beginOp, Q, g => g.inOp = false ∧ g.job = .none ∧ Q () { g with inOp := true, logged := [] }
  | .endOp, Q, g =>
    g.inOp = true ∧ g.job = .none ∧ g.Saved ∧ Q false { g with inOp := false } ∧
      ∀ l, LogOk L l → Q true { g with inOp := false, job := .log l 0 }
  | .logWrite k, Q, g =>
    ∃ o, g.own k = some o ∧ g.inOp = true ∧ g.job = .none ∧ o.valid = some true ∧ L.Home o.block ∧
      (∀ n, cap = some n → (g.logged.insert o.block).length ≤ n) ∧
      Q () { g.set k (some { o with was := none, dirty := false }) with logged := g.logged.insert o.block }
  | .lh, Q, g => ∃ l, g.job.lh = some l ∧ Q l g
  | .setLh l', Q, g =>
    g.job = .boot ∧ (∃ d, g.Holds L.start d ∧ l' = header d) ∧ (LogOk L l' → Q () { g with job := .install l' 0 0 true }) ∨
    ∃ l u r, g.job = .install l l.length u r ∧ g.inst = true ∧ l' = [] ∧ (r = false → u = l.length) ∧ g.Saved ∧
      Q () { g with job := .clear l }
  | .endCommit, Q, g =>
    (g.job = .done ∨ g.job = .log [] 0) ∧ g.inst = false ∧ g.boot = false ∧ g.Saved ∧ Q () { g with job := .none }
  | .installing b, Q, g =>
    (∃ l r, b = true ∧ g.job = .install l 0 0 r) ∧ Q () { g with inst := true } ∨
    (∃ l, b = false ∧ g.job = .clear l) ∧ Q () { g with inst := false }
  | .ready, Q, g =>
    g.job = .done ∧ g.inst = false ∧ g.boot = true ∧ g.Saved ∧ Q () { g with job := .none, boot := false }

/-- What a process that knew `g` knows after a command, by the rules. -/
def Ctx.Next (g : Ctx) : (c : Cmd) → c.Res → Ctx → Prop
  | .bget b, k, g' => g' = { g with loose := some (k, b) }
  | .acquiresleep k, _, g' =>
    ∃ b, g.own k = none ∧ g' = { g.set k (some ⟨b, none, none, none, false⟩) with loose := none }
  | .valid k, v, g' => ∃ o, g.own k = some o ∧ g' = g.set k (some { o with valid := some v })
  | .readDisk k, _, g' => ∃ o, g.own k = some o ∧ o.valid = some false ∧ g' = g.set k (some (.fresh o.block))
  | .writeDisk k, _, g' =>
    ∃ o d j, g.own k = some o ∧ o.know = some d ∧ MayWrite L g o d j ∧
      g' = { g.set k (some { o with was := none, dirty := false }) with job := j }
  | .data k, d, g' => ∃ o, g.own k = some o ∧ g' = g.set k (some { o with know := some d })
  | .setData k d, _, g' => ∃ o, g.own k = some o ∧ g' = g.set k (some (o.change L d))
  | .releasesleep k, _, g' =>
    ∃ o, g.own k = some o ∧ (g.job ≠ .none → o.dirty = false) ∧ g' = { g.set k none with loose := some (k, o.block) }
  | .unref _, _, g' => g' = { g with loose := none }
  | .bunpin _, _, g' => ∃ l w u, g.job = .install l w u false ∧ g' = { g with job := .install l w (u + 1) false }
  | .beginOp, _, g' => g' = { g with inOp := true, logged := [] }
  | .endOp, _, g' => g' = { g with inOp := false } ∨ ∃ l, g' = { g with inOp := false, job := .log l 0 }
  | .logWrite k, _, g' =>
    ∃ o, g.own k = some o ∧
      g' = { g.set k (some { o with was := none, dirty := false }) with logged := g.logged.insert o.block }
  | .lh, _, g' => g' = g
  | .setLh l', _, g' =>
    g.job = .boot ∧ g' = { g with job := .install l' 0 0 true } ∨
    ∃ l u r, g.job = .install l l.length u r ∧ l' = [] ∧ g' = { g with job := .clear l }
  | .endCommit, _, g' => (g.job = .done ∨ g.job = .log [] 0) ∧ g' = { g with job := .none }
  | .installing b, _, g' => g' = { g with inst := b }
  | .ready, _, g' => g.job = .done ∧ g' = { g with job := .none, boot := false }

/-- The rules say what a process knows after a command. -/
theorem rules_next {c : Cmd} {Q : c.Res → Ctx → Prop} {g : Ctx} (h : rules L strict cap c Q g) :
    rules L strict cap c (fun r g' => Q r g' ∧ g.Next L c r g') g := by
  cases c with
  | bget b => exact ⟨h.1, h.2.1, fun k hk => ⟨h.2.2 k hk, rfl⟩⟩
  | acquiresleep k =>
    obtain ⟨b, hb, hf, h⟩ := h
    exact ⟨b, hb, hf, fun hk => ⟨h hk, b, hk, rfl⟩⟩
  | valid k =>
    obtain ⟨o, ho, h, h'⟩ := h
    exact ⟨o, ho, fun hv => ⟨h hv, o, ho, rfl⟩, fun hv => ⟨h' hv, o, ho, rfl⟩⟩
  | readDisk k =>
    obtain ⟨o, ho, hv, h⟩ := h
    exact ⟨o, ho, hv, h, o, ho, hv, rfl⟩
  | writeDisk k =>
    obtain ⟨o, d, j, ho, hv, hd, hw, h⟩ := h
    exact ⟨o, d, j, ho, hv, hd, hw, h, o, d, j, ho, hd, hw, rfl⟩
  | data k =>
    obtain ⟨o, ho, hv, h⟩ := h
    exact ⟨o, ho, hv, fun d hd => ⟨h d hd, o, ho, rfl⟩⟩
  | setData k d =>
    obtain ⟨o, ho, hv, hs, h⟩ := h
    exact ⟨o, ho, hv, hs, h, o, ho, rfl⟩
  | releasesleep k =>
    obtain ⟨o, ho, hl, hd, h⟩ := h
    exact ⟨o, ho, hl, hd, h, o, ho, fun hj => hd (.inl hj), rfl⟩
  | unref k =>
    obtain ⟨b, hb, h⟩ := h
    exact ⟨b, hb, h, rfl⟩
  | bunpin k =>
    obtain ⟨o, l, w, u, ho, hj, hi, hu, hb, h⟩ := h
    exact ⟨o, l, w, u, ho, hj, hi, hu, hb, h, l, w, u, hj, rfl⟩
  | beginOp => exact ⟨h.1, h.2.1, h.2.2, rfl⟩
  | endOp =>
    obtain ⟨ho, hj, hd, h, h'⟩ := h
    exact ⟨ho, hj, hd, ⟨h, .inl rfl⟩, fun l hl => ⟨h' l hl, .inr ⟨l, rfl⟩⟩⟩
  | logWrite k =>
    obtain ⟨o, ho, hi, hj, hv, hb, hn, h⟩ := h
    exact ⟨o, ho, hi, hj, hv, hb, hn, h, o, ho, rfl⟩
  | lh =>
    obtain ⟨l, hl, h⟩ := h
    exact ⟨l, hl, h, rfl⟩
  | setLh l =>
    rcases h with ⟨hj, hd, h⟩ | ⟨l0, u, r, hj, hi, hl, hu, hs, h⟩
    · exact .inl ⟨hj, hd, fun hl => ⟨h hl, .inl ⟨hj, rfl⟩⟩⟩
    · exact .inr ⟨l0, u, r, hj, hi, hl, hu, hs, h, .inr ⟨l0, u, r, hj, hl, rfl⟩⟩
  | endCommit => exact ⟨h.1, h.2.1, h.2.2.1, h.2.2.2.1, h.2.2.2.2, h.1, rfl⟩
  | installing b =>
    rcases h with ⟨⟨l, r, rfl, hj⟩, h⟩ | ⟨⟨l, rfl, hj⟩, h⟩
    · exact .inl ⟨⟨l, r, rfl, hj⟩, h, rfl⟩
    · exact .inr ⟨⟨l, rfl, hj⟩, h, rfl⟩
  | ready => exact ⟨h.1, h.2.1, h.2.2.1, h.2.2.2.1, h.2.2.2.2, h.1, rfl⟩

end Rules

/-! ### `bio.c` -/

section Buffers

variable {L : LogArea} {strict : Bool} {cap : Option ℕ} {g : Ctx} {k : BufNo} {o : Own} {b : ℕ}

@[simp] theorem Ctx.set_own_self (g : Ctx) (k : BufNo) (o : Option Own) : (g.set k o).own k = o := by simp [Ctx.set]

theorem Ctx.set_own_of_ne (g : Ctx) (o : Option Own) {k k' : BufNo} (h : k' ≠ k) : (g.set k o).own k' = g.own k' := by
  simp [Ctx.set, h]

@[simp] theorem Ctx.set_job (g : Ctx) (k : BufNo) (o : Option Own) : (g.set k o).job = g.job := rfl

@[simp] theorem Ctx.set_set (g : Ctx) (k : BufNo) (o o' : Option Own) : (g.set k o).set k o' = g.set k o' := by
  simp [Ctx.set]

theorem wp_bread {Q : BufNo → Ctx → Prop} (hl : g.loose = none) (hm : g.MayRead b)
    (h : ∀ k, g.own k = none → Q k (g.set k (some (.fresh b)))) : (bread b).wp (rules L strict cap) Q g := by
  refine ⟨hl, hm, fun (k : BufNo) hf => ⟨b, rfl, hf, fun hk => ⟨_, Ctx.set_own_self _ _ _, fun _ => ?_, fun _ => ?_⟩⟩⟩
  · -- the data is there
    change Q k _
    convert h k hk using 1
    simp [Ctx.set, Own.fresh, hl]
  · refine ⟨_, Ctx.set_own_self _ _ _, rfl, ?_⟩
    change Q k _
    convert h k hk using 1
    simp [Ctx.set, hl]

theorem wp_brelse {Q : Unit → Ctx → Prop} (ho : g.own k = some o) (hl : g.loose = none)
    (hd : g.job ≠ .none ∨ strict = true → o.dirty = false) (h : Q () (g.set k none)) : (brelse k).wp (rules L strict cap) Q g := by
  refine ⟨o, ho, hl, hd, o.block, rfl, ?_⟩
  change Q () _
  convert h using 1
  simp [Ctx.set, hl]

variable (ho : g.own k = some o) (hv : o.valid = some true)

include ho hv

theorem wp_data {Q : Block → Ctx → Prop}
    (h : ∀ d, o.know = none ∨ o.know = some d → Q d (g.set k (some { o with know := some d }))) :
    (data k).wp (rules L strict cap) Q g :=
  ⟨o, ho, hv, h⟩

theorem wp_setData {d : Block} {Q : Unit → Ctx → Prop}
    (hm : MaySet L g o.block d)
    (h : Q () (g.set k (some (o.change L d)))) :
    (setData k d).wp (rules L strict cap) Q g :=
  ⟨o, ho, hv, hm, h⟩

theorem wp_bwrite {d : Block} {j : Job} {Q : Unit → Ctx → Prop}
    (hd : o.know = some d) (hm : MayWrite L g o d j)
    (h : Q () { g.set k (some { o with was := none, dirty := false }) with job := j }) :
    (bwrite k).wp (rules L strict cap) Q g :=
  ⟨o, d, j, ho, hv, hd, hm, h⟩

end Buffers

/-! ### `log.c` -/

section Log

variable {L : LogArea} {strict : Bool} {cap : Option ℕ} {g : Ctx} {l : List ℕ} {Q : Unit → Ctx → Prop}

theorem not_home_start : ¬ L.Home L.start := fun h => h.2.1 rfl

theorem logOk_nil : LogOk L [] := ⟨List.nodup_nil, by simp, Nat.zero_le _, Nat.zero_le _⟩

/-- So are the blocks after it, as many as a transaction has. -/
theorem LogOk.not_home (h : LogOk L l) {t : ℕ} (ht : t < l.length) : ¬ L.Home (L.start + t + 1) := by
  intro hb
  have hs := h.2.2.2
  have := hb.2.2
  omega

theorem LogOk.header_putHeader (h : LogOk L l) (d : Block) : header (putHeader l d) = l :=
  Disk.header_putHeader h.2.2.1 fun b hb => (h.2.1 b hb).1

theorem getElem?_of_drop_cons {t b : ℕ} {rest : List ℕ} (h : l.drop t = b :: rest) :
    t < l.length ∧ l[t]? = some b ∧ l.drop (t + 1) = rest := by
  have hb : l[t]? = some b := by
    rw [← List.head?_drop, h, List.head?_cons]
  refine ⟨(List.getElem?_eq_some_iff.mp hb).1, hb, ?_⟩
  rw [← List.drop_drop, h, List.drop_one, List.tail_cons]

theorem length_of_drop_nil {t : ℕ} (h : l.drop t = []) (ht : t ≤ l.length) : t = l.length :=
  le_antisymm ht (List.drop_eq_nil_iff.mp h)

/-- Nothing but the buffers that are held and the job is different. -/
structure Ctx.Same (g' g : Ctx) : Prop where
  loose : g'.loose = g.loose
  inOp : g'.inOp = g.inOp
  inst : g'.inst = g.inst
  boot : g'.boot = g.boot
  logged : g'.logged = g.logged

theorem Ctx.set_none_two {g' : Ctx} {k k' : BufNo} (hk : g.own k = none) (hk' : g.own k' = none)
    (h : ∀ x, x ≠ k → x ≠ k' → g'.own x = g.own x) (hs : g'.Same g) :
    (g'.set k none).set k' none = { g with job := g'.job } := by
  simp only [Ctx.set, Ctx.mk.injEq, hs.loose, hs.inOp, hs.inst, hs.boot, hs.logged, and_true]
  funext x
  by_cases hx' : x = k'
  · simp [hx', hk']
  · by_cases hx : x = k
    · simp [hx, hk, update_apply]
    · simp [hx, hx', h x hx hx']

theorem wp_brelse_two {α : Type} {x : Code α} {Q : α → Ctx → Prop} {g' : Ctx} {k k' : BufNo} {o p : Own}
    (hk : g.own k = none) (hk' : g.own k' = none) (hne : k ≠ k') (h₁ : g'.own k = some o) (h₂ : g'.own k' = some p)
    (hd : o.dirty = false) (hd' : p.dirty = false) (h : ∀ x, x ≠ k → x ≠ k' → g'.own x = g.own x)
    (hl : g.loose = none) (hs : g'.Same g)
    (hx : x.wp (rules L strict cap) Q { g with job := g'.job }) :
    (do
      brelse k
      brelse k'
      x).wp (rules L strict cap) Q g' := by
  rw [wp_bind]
  refine wp_brelse h₁ (hs.loose.trans hl) (fun _ => hd) ?_
  rw [wp_bind]
  refine wp_brelse ?_ (hs.loose.trans hl) (fun _ => hd') ?_
  · rw [Ctx.set_own_of_ne _ _ hne.symm, h₂]
  · rw [Ctx.set_none_two hk hk' h hs]
    exact hx

/-- A block is copied from one buffer to another, and that is written. -/
theorem wp_copy {α : Type} {x : Code α} {Q : α → Ctx → Prop} {src dst : BufNo} {b c : ℕ} {j : Job}
    (hsrc : g.own src = some (.fresh b)) (hdst : g.own dst = some (.fresh c)) (hne : src ≠ dst)
    (hm : ∀ d g', g'.job = g.job → g'.Holds b d → MaySet L g' c d)
    (hw : ∀ d g' o, g'.job = g.job → g'.inst = g.inst → g'.Holds b d → o.block = c → MayWrite L g' o d j)
    (h : ∀ d, x.wp (rules L strict cap) Q
      { (g.set src (some { Own.fresh b with know := some d })).set dst (some { Own.fresh c with know := some d }) with
        job := j }) :
    (do
      let d ← data src
      setData dst d
      bwrite dst
      x).wp (rules L strict cap) Q g := by
  rw [wp_bind]
  refine wp_data hsrc rfl fun d _ => ?_
  have hold : ∀ o, ((g.set src (some { Own.fresh b with know := some d })).set dst o).Holds b d := by
    intro o
    refine ⟨src, { Own.fresh b with know := some d }, ?_, rfl, rfl, rfl, rfl⟩
    rw [Ctx.set_own_of_ne _ _ hne, Ctx.set_own_self]
  rw [wp_bind]
  refine wp_setData (o := .fresh c) ?_ rfl (hm d _ rfl ?_) ?_
  · rw [Ctx.set_own_of_ne _ _ hne.symm, hdst]
  · exact ⟨src, _, Ctx.set_own_self _ _ _, rfl, rfl, rfl, rfl⟩
  rw [wp_bind]
  refine wp_bwrite (Ctx.set_own_self _ _ _) rfl rfl (hw d _ _ rfl rfl (hold _) rfl) ?_
  rw [Ctx.set_set]
  exact h d

theorem Ctx.mayRead_of_none (h : g.boot = true → ∀ k, g.own k = none) (b : ℕ) : g.MayRead b := by
  intro hb
  refine ⟨fun k o ho => ?_, 0, fun k hk => absurd (h hb k) hk⟩
  rw [h hb k] at ho
  cases ho

theorem Ctx.mayRead_of_one {k : BufNo} {o : Own} {b : ℕ} (h : g.boot = true → ∀ k, g.own k = none) (hb : o.block ≠ b) :
    (g.set k (some o)).MayRead b := by
  intro hboot
  have hnone := h hboot
  refine ⟨fun x o' ho' => ?_, k, fun x hx => ?_⟩
  · by_cases hxk : x = k
    · subst hxk
      rw [Ctx.set_own_self, Option.some.injEq] at ho'
      exact ho' ▸ hb
    · rw [Ctx.set_own_of_ne _ _ hxk, hnone x] at ho'
      cases ho'
  · by_contra hxk
    rw [Ctx.set_own_of_ne _ _ hxk] at hx
    exact hx (hnone x)

/-- **The loop of `write_log`**: block after block. -/
theorem writeLogFrom_spec (hok : LogOk L l) {rest : List ℕ} {t : ℕ} (hr : l.drop t = rest)
    (ht : t ≤ l.length) (hl : g.loose = none) (hboot : g.boot = false) (hj : g.job = .log l t) (h : Q () { g with job := .log l l.length }) :
    (writeLogFrom L t rest).wp (rules L strict cap) Q g := by
  induction rest generalizing t g with
  | nil =>
    have : t = l.length := length_of_drop_nil hr ht
    subst this
    rw [writeLogFrom, wp_pure]
    rw [← hj] at h
    exact h
  | cons b rest ih =>
    obtain ⟨hlt, hb, hrest⟩ := getElem?_of_drop_cons hr
    have hmay : ∀ g' : Ctx, g'.boot = g.boot → ∀ b, g'.MayRead b := by
      intro g' hg' b hb
      rw [hg', hboot] at hb
      cases hb
    rw [writeLogFrom, wp_bind]
    refine wp_bread hl (hmay _ rfl _) fun dst hdst => ?_
    rw [wp_bind]
    refine wp_bread hl (hmay (g.set dst _) rfl b) fun src hsrc => ?_
    have hne : src ≠ dst := by
      rintro rfl
      rw [Ctx.set_own_self] at hsrc
      cases hsrc
    rw [Ctx.set_own_of_ne _ _ hne] at hsrc
    refine wp_copy (c := L.start + t + 1) (j := .log l (t + 1)) (Ctx.set_own_self _ _ _) ?_ hne ?_ ?_ fun d => ?_
    · rw [Ctx.set_own_of_ne _ _ hne.symm, Ctx.set_own_self]
    · intro d g' hj' _
      refine .log ?_ (hok.not_home hlt)
      rw [hj', Ctx.set_job, Ctx.set_job, hj]
      exact Job.noConfusion
    · intro d g' o hj' _ hd ho
      exact .log (hj'.trans hj) hb ho hd
    refine wp_brelse_two (o := { Own.fresh b with know := some d }) (p := { Own.fresh (L.start + t + 1) with know := some d })
      hsrc hdst hne ?_ ?_ rfl rfl ?_ hl ⟨rfl, rfl, rfl, rfl, rfl⟩ (ih hrest hlt hl hboot rfl h)
    · simp [Ctx.set, hne]
    · simp [Ctx.set]
    · intro x hx hx'
      simp [Ctx.set, hx, hx']

/-- **The loop of `install_trans`**. -/
theorem installFrom_spec (hok : LogOk L l) {r : Bool} {rest : List ℕ} {w : ℕ}
    (hr : l.drop w = rest) (hw : w ≤ l.length) (hl : g.loose = none) (hi : g.inst = true)
    (hboot : g.boot = true → ∀ k, g.own k = none)
    (hj : g.job = .install l w (if r then 0 else w) r)
    (h : Q () { g with job := .install l l.length (if r then 0 else l.length) r }) :
    (installFrom L r w rest).wp (rules L strict cap) Q g := by
  induction rest generalizing w g with
  | nil =>
    have : w = l.length := length_of_drop_nil hr hw
    subst this
    rw [installFrom, wp_pure]
    rw [← hj] at h
    exact h
  | cons b rest ih =>
    obtain ⟨hlt, hb, hrest⟩ := getElem?_of_drop_cons hr
    have hne' : L.start + w + 1 ≠ b := fun he => hok.not_home hlt (he ▸ hok.2.1 b (List.mem_of_getElem? hb))
    rw [installFrom, wp_bind]
    refine wp_bread hl (Ctx.mayRead_of_none hboot _) fun lbuf hlbuf => ?_
    rw [wp_bind]
    refine wp_bread hl (Ctx.mayRead_of_one hboot hne') fun dbuf hdbuf => ?_
    have hne : dbuf ≠ lbuf := by
      rintro rfl
      rw [Ctx.set_own_self] at hdbuf
      cases hdbuf
    rw [Ctx.set_own_of_ne _ _ hne] at hdbuf
    refine wp_copy (b := L.start + w + 1) (j := .install l (w + 1) (if r then 0 else w) r) ?_ (Ctx.set_own_self _ _ _)
      hne.symm ?_ ?_ fun d => ?_
    · rw [Ctx.set_own_of_ne _ _ hne.symm, Ctx.set_own_self]
    · intro d g' hj' hd
      exact .install (hj'.trans hj) hb hd
    · intro d g' o hj' hi' hd ho
      exact .install (hj'.trans hj) (hi'.trans hi) (ho ▸ hb) hd
    -- the blocks that are given back do not depend on whether the block is unpinned
    have htail : ∀ g' : Ctx, g'.job = .install l (w + 1) (if r then 0 else w + 1) r →
        g'.own = update (update g.own lbuf (some { Own.fresh (L.start + w + 1) with know := some d }))
          dbuf (some { Own.fresh b with know := some d }) →
        g'.Same g →
        (do
          brelse lbuf
          brelse dbuf
          installFrom L r (w + 1) rest).wp (rules L strict cap) Q g' := by
      intro g' hj' hown hs
      refine wp_brelse_two (o := { Own.fresh (L.start + w + 1) with know := some d })
        (p := { Own.fresh b with know := some d }) hlbuf hdbuf hne.symm ?_ ?_ rfl rfl ?_ hl hs ?_
      · simp [hown, hne.symm]
      · simp [hown]
      · intro x hx hx'
        simp [hown, hx, hx']
      · exact ih hrest hlt hl hi hboot hj' h
    have hown : ((((g.set lbuf (some (Own.fresh (L.start + w + 1)))).set dbuf (some (Own.fresh b))).set lbuf
        (some { Own.fresh (L.start + w + 1) with know := some d })).set dbuf (some { Own.fresh b with know := some d })).own =
        update (update g.own lbuf (some { Own.fresh (L.start + w + 1) with know := some d })) dbuf
          (some { Own.fresh b with know := some d }) := by
      funext x
      by_cases hx : x = dbuf
      · simp [Ctx.set, hx]
      · by_cases hx' : x = lbuf
        · simp [Ctx.set, hx', hne.symm]
        · simp [Ctx.set, hx, hx']
    cases r with
    | true => exact htail _ rfl hown ⟨rfl, rfl, rfl, rfl, rfl⟩
    | false =>
      rw [if_pos rfl, wp_bind]
      refine ⟨{ Own.fresh b with know := some d }, l, w + 1, w, ?_, rfl, hi, Nat.lt_succ_self w, hb, ?_⟩
      · simp [Ctx.set]
      · exact htail _ rfl hown ⟨rfl, rfl, rfl, rfl, rfl⟩

/-- **`install_trans`**, with the assignment that follows it. -/
theorem installTrans_spec (hok : LogOk L l) {r : Bool} (hl : g.loose = none)
    (hi : g.inst = false) (hs : g.Saved) (hboot : g.boot = true → ∀ k, g.own k = none) (hj : g.job = .install l 0 0 r) (h : Q () { g with job := .clear l }) :
    (installTrans L r).wp (rules L strict cap) Q g := by
  rw [installTrans, wp_bind]
  refine .inl ⟨⟨l, r, rfl, hj⟩, ?_⟩
  change (_ : Code Unit).wp (rules L strict cap) Q _
  rw [wp_bind]
  refine ⟨l, by simp [hj, Job.lh], ?_⟩
  change (_ : Code Unit).wp (rules L strict cap) Q _
  rw [wp_bind]
  refine installFrom_spec hok List.drop_zero (Nat.zero_le _) hl rfl hboot ?_ ?_
  · simp [hj]
  rw [wp_bind]
  refine .inr ⟨l, _, r, rfl, rfl, rfl, fun hr => by simp [hr], hs, ?_⟩
  refine .inr ⟨⟨l, rfl, rfl⟩, ?_⟩
  rw [hi] at h
  exact h

/-- **`write_head`**: the header that is written is that of `log.lh`. -/
theorem writeHead_spec {j : Job} (hl : g.loose = none)
    (hboot : g.boot = true → ∀ k, g.own k = none) (hjl : g.job.lh = some l)
    (hw : ∀ d g' o, g'.job = g.job → o.block = L.start → o.was = some d → MayWrite L g' o (putHeader l d) j)
    (h : Q () { g with job := j }) : (writeHead L).wp (rules L strict cap) Q g := by
  have hj : g.job ≠ .none := by
    intro hj
    rw [hj] at hjl
    cases hjl
  rw [writeHead, wp_bind]
  refine wp_bread hl (Ctx.mayRead_of_none hboot _) fun k hk => ?_
  rw [wp_bind]
  refine wp_data (Ctx.set_own_self _ _ _) rfl fun d _ => ?_
  rw [wp_bind]
  refine ⟨l, hjl, ?_⟩
  change (_ : Code Unit).wp (rules L strict cap) Q _
  rw [wp_bind]
  refine wp_setData (Ctx.set_own_self _ _ _) rfl (.log hj not_home_start) ?_
  rw [wp_bind]
  refine wp_bwrite (Ctx.set_own_self _ _ _) rfl rfl (hw d _ _ rfl rfl ?_) ?_
  · simp [Own.change, Own.fresh, not_home_start]
  refine wp_brelse (Ctx.set_own_self _ _ _) hl (fun _ => rfl) ?_
  convert h using 1
  simp [Ctx.set, ← hk]

/-- **`commit`**: at the end the header is empty, if there was something to commit. -/
theorem commit_spec (hok : LogOk L l) (hl : g.loose = none) (hi : g.inst = false)
    (hs : g.Saved) (hb : g.boot = false)
    (hj : g.job = .log l 0) (h : ∀ j, j = .done ∨ j = .log [] 0 → Q () { g with job := j }) :
    (commit L).wp (rules L strict cap) Q g := by
  have hboot : g.boot = true → ∀ k, g.own k = none := by
    intro hb'
    rw [hb] at hb'
    cases hb'
  rw [commit, wp_bind]
  refine ⟨l, by simp [hj, Job.lh], ?_⟩
  change (_ : Code Unit).wp (rules L strict cap) Q _
  by_cases hnil : l = []
  · subst hnil
    rw [if_neg (fun h => h rfl), wp_pure]
    have := h _ (.inr rfl)
    rwa [← hj] at this
  · rw [if_pos hnil, wp_bind, writeLog, wp_bind]
    refine ⟨l, by simp [hj, Job.lh], ?_⟩
    refine writeLogFrom_spec hok List.drop_zero (Nat.zero_le _) hl hb hj ?_
    rw [wp_bind]
    refine writeHead_spec (j := .install l 0 0 false) hl hboot rfl ?_ ?_
    · intro d g' o hj' ho _
      exact .head hj' ho (hok.header_putHeader d)
    rw [wp_bind]
    refine installTrans_spec hok hl hi hs hboot rfl ?_
    refine writeHead_spec (j := .done) hl hboot rfl ?_ (h _ (.inl rfl))
    intro d g' o hj' ho hw
    exact .clear hj' ho hw rfl

/-- **`recover_from_log`**. -/
theorem recoverFromLog_spec (hl : g.loose = none) (hi : g.inst = false) (hb : g.boot = true)
    (hnone : ∀ k, g.own k = none) (hj : g.job = .boot) (h : Q () { g with job := .none, boot := false }) :
    (recoverFromLog L).wp (rules L strict cap) Q g := by
  have hs : g.Saved := by
    intro k o ho
    rw [hnone k] at ho
    cases ho
  have hboot : g.boot = true → ∀ k, g.own k = none := fun _ => hnone
  rw [recoverFromLog, wp_bind, readHead, wp_bind]
  refine wp_bread hl (Ctx.mayRead_of_none hboot _) fun k hk => ?_
  rw [wp_bind]
  refine wp_data (Ctx.set_own_self _ _ _) rfl fun d _ => ?_
  rw [wp_bind]
  refine .inl ⟨hj, ⟨d, ⟨k, _, Ctx.set_own_self _ _ _, rfl, rfl, rfl, rfl⟩, rfl⟩, fun hok => ?_⟩
  refine wp_brelse (Ctx.set_own_self _ _ _) hl (fun _ => rfl) ?_
  have hg : ({ (g.set k (some (Own.fresh L.start))).set k (some { Own.fresh L.start with know := some d }) with
      job := .install (header d) 0 0 true } : Ctx).set k none = { g with job := .install (header d) 0 0 true } := by
    simp [Ctx.set, ← hk]
  rw [hg, wp_bind]
  refine installTrans_spec hok hl hi hs hboot rfl ?_
  rw [wp_bind]
  refine writeHead_spec (j := .done) hl hboot rfl ?_ ?_
  · intro d g' o hj' ho hw
    exact .clear hj' ho hw rfl
  · exact ⟨rfl, hi, hb, hs, h⟩

end Log

/-! ### Calls -/

/-- What a process has in hand is what it knows that it holds. -/
structure Client.Ok (c : Client) (g : Ctx) : Prop where
  inOp : g.inOp = c.inOp
  job : g.job = .none
  inst : g.inst = false
  boot : g.boot = false
  loose : g.loose = none
  logged : g.logged = c.logged
  none : ∀ k, c.own k = none → g.own k = none
  own : ∀ k b, c.own k = some b → ∃ o, g.own k = some o ∧ o.block = b ∧ o.valid = some true ∧ (o.dirty = true → c.dirty k = true)

theorem Client.ok_idle : Client.idle.Ok ⟨fun _ => none, none, false, .none, false, false, []⟩ :=
  ⟨rfl, rfl, rfl, rfl, rfl, rfl, fun _ _ => rfl, fun _ _ h => by cases h⟩

theorem Client.Ok.set {g : Ctx} {c c' : Client} {k : BufNo} {o : Option Own} (hc : c.Ok g) (hi : c'.inOp = c.inOp)
    (hl : c'.logged = c.logged) (hx : ∀ x, x ≠ k → c'.own x = c.own x ∧ c'.dirty x = c.dirty x) (hnone : c'.own k = .none → o = .none)
    (hsome : ∀ b, c'.own k = some b →
      ∃ o', o = some o' ∧ o'.block = b ∧ o'.valid = some true ∧ (o'.dirty = true → c'.dirty k = true)) :
    c'.Ok (g.set k o) where
  inOp := hc.inOp.trans hi.symm
  job := hc.job
  inst := hc.inst
  boot := hc.boot
  loose := hc.loose
  logged := hc.logged.trans hl.symm
  none := by
    intro x hxn
    by_cases hxk : x = k
    · subst hxk
      rw [Ctx.set_own_self]
      exact hnone hxn
    · rw [Ctx.set_own_of_ne _ _ hxk]
      rw [(hx x hxk).1] at hxn
      exact hc.none x hxn
  own := by
    intro x b hxb
    by_cases hxk : x = k
    · subst hxk
      rw [Ctx.set_own_self]
      exact hsome b hxb
    · rw [(hx x hxk).1] at hxb
      rw [Ctx.set_own_of_ne _ _ hxk, (hx x hxk).2]
      exact hc.own x b hxb

/-- **Every call** keeps to the rules, and ends with what the process has in hand. -/
theorem call_spec {L : LogArea} {strict : Bool} {cap : Option ℕ} {g : Ctx} {c : Client} {call : Call} (hc : c.Ok g) (ha : c.Allows L call)
    (hs : strict = true → ∀ k, call = .brelse k → c.dirty k = false)
    (hcap : ∀ n, cap = some n → ∀ k b, call = .logWrite k → c.own k = some b → (c.logged.insert b).length ≤ n) :
    (call.code L c).wp (rules L strict cap) Client.Ok g := by
  cases call with
  | beginOp =>
    refine ⟨hc.inOp.trans ha, hc.job, ?_⟩
    exact { hc with inOp := rfl, logged := rfl }
  | endOp =>
    obtain ⟨ho, hd⟩ := ha
    have hclean : g.Saved := by
      intro k o hk
      cases hb : c.own k with
      | none =>
        rw [hc.none k hb] at hk
        cases hk
      | some b =>
        obtain ⟨o', ho', -, -, hdirty⟩ := hc.own k b hb
        rw [hk] at ho'
        cases ho'
        have hcd := hd k (by simp [hb])
        cases hod : o.dirty with
        | false => rfl
        | true =>
          rw [hdirty hod] at hcd
          cases hcd
    rw [Call.code, wp_bind]
    refine ⟨hc.inOp.trans ho, hc.job, hclean, ?_, fun l hl => ?_⟩
    · exact { hc with inOp := rfl }
    · change (commit L >>= fun _ => endCommit >>= fun _ => pure { c with inOp := false } : Code Client).wp (rules L strict cap) _ _
      rw [wp_bind]
      refine commit_spec hl hc.loose hc.inst hclean hc.boot rfl fun j hj => ?_
      refine ⟨hj, hc.inst, hc.boot, hclean, ?_⟩
      exact { hc with inOp := rfl, job := rfl }
  | bread b =>
    have hmay : g.MayRead b := by
      intro hb
      rw [hc.boot] at hb
      cases hb
    refine wp_bind.mpr (wp_bread hc.loose hmay fun k hk => ?_)
    refine hc.set rfl rfl (fun x hx => by simp [hx]) (fun h => by simp at h) fun b' hb' => ?_
    simp only [update_self, Option.some.injEq] at hb'
    exact ⟨_, rfl, hb', rfl, fun h => by cases h⟩
  | modify k d =>
    obtain ⟨ho, b, hb, hhome⟩ := ha
    obtain ⟨o, hk, hob, hv, -⟩ := hc.own k b hb
    refine wp_bind.mpr (wp_setData hk hv (.op hc.job (hc.inOp.trans ho) (hob ▸ hhome)) ?_)
    refine hc.set rfl rfl (fun x hx => by simp [hx]) (fun h => by simp [hb] at h) fun b' hb' => ?_
    rw [hb, Option.some.injEq] at hb'
    exact ⟨_, rfl, hob.trans hb', hv, fun _ => by simp⟩
  | logWrite k =>
    obtain ⟨ho, b, hb, hhome⟩ := ha
    obtain ⟨o, hk, hob, hv, -⟩ := hc.own k b hb
    refine wp_bind.mpr ⟨o, hk, hc.inOp.trans ho, hc.job, hv, hob ▸ hhome, fun n hn => ?_, ?_⟩
    · rw [hc.logged, hob]
      exact hcap n hn k b rfl hb
    have hset : { c with dirty := update c.dirty k false }.Ok (g.set k (some { o with was := none, dirty := false })) := by
      refine hc.set rfl rfl (fun x hx => by simp [hx]) (fun h => by simp [hb] at h) fun b' hb' => ?_
      rw [hb, Option.some.injEq] at hb'
      exact ⟨_, rfl, hob.trans hb', hv, fun h => by cases h⟩
    refine { hset with logged := ?_ }
    simp [hb, hc.logged, hob]
  | brelse k =>
    obtain ⟨b, hb⟩ := Option.ne_none_iff_exists'.mp ha
    obtain ⟨o, hk, -, -, hd⟩ := hc.own k b hb
    have hclean : (g.job ≠ .none ∨ strict = true) → o.dirty = false := by
      rintro (hj | hst)
      · exact absurd hc.job hj
      · cases hod : o.dirty with
        | false => rfl
        | true => rw [← hs hst k rfl, hd hod]
    refine wp_bind.mpr (wp_brelse hk hc.loose hclean ?_)
    exact hc.set rfl rfl (fun x hx => by simp [hx]) (fun _ => rfl) fun b' hb' => by simp at hb'

end Xv6Shmem.Disk
