import Xv6Shmem.Disk.Pinning

/-!
# Room in the log

`begin_op` admits an operation if the blocks that are logged, and `MAXOPBLOCKS` for each
operation, are no more than `LOGSIZE`. `mkfs` makes a log of `LOGSIZE` blocks, the header among
them, and `log_write` panics when there are `log.size - 1`: three operations of `MAXOPBLOCKS`
blocks are one too many. The test comes before the search for the block, so that a block that
is in the log already is refused too.

With one block less for each operation there is room.

## What is proved

* `Room.step` — a command keeps the room that the operations may still use.
* `log_space` — no panic, if operations log at most `MAXOPBLOCKS - 1` blocks.
* `transaction_too_big` — a run of three operations that panics.
-/

namespace Xv6Shmem.Disk

open Function Kernel Prog LTS

/-- A process is about to call `log_write`, and it will panic: "too big a transaction". -/
def TooBig (L : LogArea) (s : DiskState) : Prop :=
  ∃ a k f, s.code a = .op (.logWrite k) f ∧ (LOGSIZE ≤ s.store.lh.length ∨ L.size ≤ s.store.lh.length + 1)

section Room

variable {L : LogArea} {strict : Bool} {s s' : Store} {G : Slot → Ctx} {stale stale' : BufNo → Prop}
  {w w' : Option Slot} {j j' : Job} {a : Slot} {g : Ctx}

/-- What the operation may still log. -/
def Ctx.left (g : Ctx) : ℕ := if g.inOp then 9 - g.logged.length else 0

/-- There is room for what is logged, and for what the operations may still log. -/
structure Room (s : Store) (G : Slot → Ctx) (w : Option Slot) : Prop where
  logged : ∀ a, (G a).inOp = true → ∀ b ∈ (G a).logged, b ∈ s.lh
  room : s.ready = true → s.lh.length + ∑ a, (G a).left ≤ 28
  empty : s.ready = true → s.outstanding = 0 → w = none → s.lh = []

theorem sum_left_of_quiet (h : ∀ a, (G a).inOp = false) : ∑ a, (G a).left = 0 :=
  Finset.sum_eq_zero fun a _ => by simp [Ctx.left, h a]

/-- Each operation has at most nine blocks left. -/
theorem sum_left_le (h : Ops s G w j) : ∑ a, (G a).left ≤ 9 * s.outstanding := by
  rw [h.ops, Finset.mul_sum]
  refine Finset.sum_le_sum fun a _ => ?_
  unfold Ctx.left
  split <;> simp

theorem length_insert_of_mem {l : List ℕ} {b : ℕ} (h : b ∈ l) : (l.insert b).length = l.length := by
  rw [List.insert_of_mem h]

theorem length_insert_of_not_mem {l : List ℕ} {b : ℕ} (h : b ∉ l) : (l.insert b).length = l.length + 1 := by
  rw [List.insert_of_not_mem h, List.length_cons]

/-- **A command keeps the room**, if no operation logs more than nine blocks. -/
theorem Room.step {c : Cmd} (h : Room s G w) (hs : Sound L s G stale w j)
    (ha : After L strict (some (MAXOPBLOCKS - 1)) c s G stale w a g s' stale' w' j') :
    Room s' (update G a g) w' := by
  have hsum := sum_update (G := G) (a := a) (g := g) Ctx.left
  cases ha.op with
  | keep hi hl ho hlh =>
    have hleft : g.left = (G a).left := by rw [Ctx.left, Ctx.left, hi, hl]
    rw [hleft, Nat.add_right_cancel_iff] at hsum
    rcases hlh with ⟨hlh, rfl, hr⟩ | ⟨hj, hlh⟩
    · refine ⟨?_, ?_, ?_⟩
      · rw [hlh]
        refine (forall_update_iff G fun _ c => c.inOp = true → ∀ b ∈ c.logged, b ∈ s.lh).mpr
          ⟨?_, fun b _ => h.logged b⟩
        rw [hi, hl]
        exact h.logged a
      · rw [hr, hlh, hsum]
        exact h.room
      · rw [hr, hlh, ho]
        exact h.empty
    · -- the process commits or recovers, and nobody is in an operation
      obtain ⟨rfl, rfl⟩ := hs.ops.worker rfl hj
      have hquiet := hs.ops.quiet (by simp)
      have hzero := sum_left_of_quiet hquiet
      refine ⟨?_, fun hr => ?_, fun hr _ _ => ?_⟩
      · refine (forall_update_iff G fun _ c => c.inOp = true → ∀ b ∈ c.logged, b ∈ s'.lh).mpr ⟨?_, fun b _ => ?_⟩
        · rw [hi, hquiet a]
          exact fun hf => by cases hf
        · rw [hquiet b]
          exact fun hf => by cases hf
      · rcases hlh with hlh | hlh
        · rw [hlh, hsum, hzero]
          decide
        · rw [hlh] at hr
          cases hr
      · rcases hlh with hlh | hlh
        · exact hlh
        · rw [hlh] at hr
          cases hr
  | beginOp hi hi' hl hlh hw ho hr hroom =>
    refine ⟨?_, fun _ => ?_, fun _ h0 => ?_⟩
    · rw [hlh]
      refine (forall_update_iff G fun _ c => c.inOp = true → ∀ b ∈ c.logged, b ∈ s.lh).mpr
        ⟨?_, fun b _ => h.logged b⟩
      rw [hl]
      exact fun _ b hb => by cases hb
    · have hle := sum_left_le hs.ops
      have hg : g.left = 9 := by simp [Ctx.left, hi', hl]
      have hz : (G a).left = 0 := by simp [Ctx.left, hi]
      have hempty := h.empty hr
      have hroom' : s.lh.length + (s.outstanding + 1) * 10 ≤ 30 := hroom
      rw [hlh]
      by_cases h0 : s.outstanding = 0
      · rw [hempty h0 hw] at hroom' ⊢
        rw [List.length_nil]
        omega
      · omega
    · rw [ho] at h0
      cases h0
  | endOp hi hi' hlh hr ho =>
    refine ⟨?_, fun _ => ?_, fun _ h0 hw => ?_⟩
    · rw [hlh]
      refine (forall_update_iff G fun _ c => c.inOp = true → ∀ b ∈ c.logged, b ∈ s.lh).mpr
        ⟨?_, fun b _ => h.logged b⟩
      rw [hi']
      exact fun hf => by cases hf
    · have hg : g.left = 0 := by simp [Ctx.left, hi']
      have := h.room hr
      rw [hlh]
      omega
    · rcases ho with ho | ho
      · exact absurd h0 ho
      · exact absurd hw ho
  | logWrite b hi hi' hl hcap hlh hr ho =>
    have hcap' : ((G a).logged.insert b).length ≤ 9 := hcap 9 rfl
    refine ⟨?_, fun hr' => ?_, fun _ h0 => absurd h0 ho⟩
    · have hmono : ∀ c ∈ s.lh, c ∈ s'.lh := by
        intro c hc
        rw [hlh]
        split
        · exact hc
        · exact List.mem_append_left _ hc
      have hb : b ∈ s'.lh := by
        rw [hlh]
        split
        · assumption
        · simp
      refine (forall_update_iff G fun _ c => c.inOp = true → ∀ b ∈ c.logged, b ∈ s'.lh).mpr
        ⟨fun _ c hc => ?_, fun c _ hc n hn => hmono n (h.logged c hc n hn)⟩
      rw [hl, List.mem_insert_iff] at hc
      rcases hc with rfl | hc
      · exact hb
      · exact hmono c (h.logged a hi c hc)
    · rw [hr] at hr'
      have hroom := h.room hr'
      have hga : (G a).left = 9 - (G a).logged.length := by simp [Ctx.left, hi]
      have hg : g.left = 9 - ((G a).logged.insert b).length := by simp [Ctx.left, hi', hl]
      rw [hlh]
      by_cases hmem : b ∈ (G a).logged
      · rw [if_pos (h.logged a hi b hmem)]
        rw [length_insert_of_mem hmem] at hg
        omega
      · rw [length_insert_of_not_mem hmem] at hg hcap'
        split
        · omega
        · rw [List.length_append, List.length_singleton]
          omega

theorem room_cold {disk : ℕ → Block} : Room (.cold disk) Ctx.atBoot (some 0) := by
  have hin : ∀ a, (Ctx.atBoot a).inOp = false := by
    intro a
    unfold Ctx.atBoot
    split <;> rfl
  refine ⟨fun a ha => ?_, ?_, ?_⟩
  · rw [hin] at ha
    cases ha
  · intro hr
    cases hr
  · intro hr
    cases hr

end Room

theorem Sound.length_lh {L : LogArea} {s : Store} {G : Slot → Ctx} {stale : BufNo → Prop} {w : Option Slot} {j : Job}
    (h : Sound L s G stale w j) : s.lh.length ≤ L.size - 1 := by
  have hok := h.ok
  cases j with
  | none => exact hok.1.2.2.2
  | log l t =>
    rw [hok.1]
    exact hok.2.1.2.2.2
  | install l n u r =>
    rw [hok.1]
    exact hok.2.1.2.2.2
  | boot =>
    rw [hok.1]
    exact Nat.zero_le _
  | clear l =>
    rw [hok.1]
    exact Nat.zero_le _
  | done =>
    rw [hok.1]
    exact Nat.zero_le _

/-- **There is room in the log**, on a disk that `mkfs` made, if operations log at most `MAXOPBLOCKS - 1` different
blocks: `log_write` does not panic, and the blocks of the log that are used are in the log. -/
theorem log_space {start : ℕ} {s : DiskState}
    (h : ((diskMachine ⟨start, LOGSIZE⟩).restrict (LogsAtMost (MAXOPBLOCKS - 1))).Reachable s) :
    ¬ TooBig ⟨start, LOGSIZE⟩ s ∧ ∀ i < s.store.lh.length, start + i + 1 < start + LOGSIZE := by
  have hinv : ∃ G stale w j, DiskSound ⟨start, LOGSIZE⟩ false (some (MAXOPBLOCKS - 1)) s G stale w j ∧ Room s.store G w := by
    apply Reachable.invariant (I := fun s => ∃ G stale w j,
      DiskSound ⟨start, LOGSIZE⟩ false (some (MAXOPBLOCKS - 1)) s G stale w j ∧ Room s.store G w) _ _ h
    · rintro s ⟨disk, hd, rfl⟩
      exact ⟨_, _, _, _, diskSound_boot hd, room_cold⟩
    · rintro s act t - ⟨G, stale, w, j, hs, hroom⟩ ⟨hcap, hstep⟩
      obtain ⟨G', stale', w', j', h', hroom', -⟩ := hs.step (P := Room) hroom (fun _ => room_cold)
        (fun _ _ _ _ _ _ _ _ _ _ _ _ hs ha hr => hr.step hs ha) hstep (fun hf => by cases hf) fun n hn => by
          cases hn
          exact hcap
      exact ⟨G', stale', w', j', h', hroom'⟩
  obtain ⟨G, stale, w, j, hs, hroom⟩ := hinv
  refine ⟨?_, fun i hi => ?_⟩
  · rintro ⟨a, k, f, hcode, hbig⟩
    have hwp := hs.code a
    rw [hcode, wp_op] at hwp
    obtain ⟨o, -, -, hj, -⟩ := hwp
    have hready := (hs.ready_or_job hcode).resolve_right fun hne => hne hj
    have := hroom.room hready
    have hbig' : 30 ≤ s.store.lh.length ∨ 30 ≤ s.store.lh.length + 1 := hbig
    omega
  · have := hs.sound.length_lh
    have hsize : s.store.lh.length ≤ 29 := this
    change start + i + 1 < start + 30
    omega

/-! ### Two runs -/

/-- The step does not make an operation log more than `n` blocks, as a test. -/
def logsAtMost (n : ℕ) (s : DiskState) : Act → Bool
  | .begin a (.logWrite k) =>
    match s.code a with
    | .ret c => (c.own k).all fun b => decide ((c.logged.insert b).length ≤ n)
    | .op _ _ => true
  | _ => true

theorem logsAtMost_of {n : ℕ} {s : DiskState} {act : Act} (h : logsAtMost n s act = true) : LogsAtMost n s act := by
  rintro a k c b rfl hcode hb
  simpa [logsAtMost, hcode, hb] using h

/-- A process reads a block into a buffer and logs it. -/
def logOne (a : Slot) (b : ℕ) (k : BufNo) : List Act :=
  [.begin a (.bread b)] ++ List.replicate 4 (.run a) ++ [.begin a (.logWrite k)]

/-- It has logged the block, and gives the buffer back. -/
def logDone (a : Slot) (k : BufNo) : List Act := [.run a, .begin a (.brelse k), .run a, .run a]

/-- After recovery three processes begin an operation, and two of them log ten blocks and the third nine. -/
def threeOps : List Act :=
  List.replicate 22 (.run 0) ++ [.begin 0 .beginOp, .run 0, .begin 1 .beginOp, .run 1, .begin 2 .beginOp, .run 2] ++
    (List.range 29).flatMap fun i =>
      logOne (Fin.ofNat _ (i / 10)) (40 + i) (Fin.ofNat _ (i + 1)) ++ logDone (Fin.ofNat _ (i / 10)) (Fin.ofNat _ (i + 1))

/-- The next command is `log_write`. -/
def nextIsLogWrite : Code Client → Bool
  | .op (.logWrite _) _ => true
  | _ => false

theorem op_of_nextIsLogWrite {x : Code Client} (h : nextIsLogWrite x = true) : ∃ k f, x = .op (.logWrite k) f := by
  cases x with
  | ret c => cases h
  | op c f =>
    cases c with
    | logWrite k => exact ⟨k, f, rfl⟩
    | _ => cases h

theorem log_space_of_logBlock :
    ∃ s, ((diskMachine mkfsLog).restrict (LogsAtMost (MAXOPBLOCKS - 1))).Reachable s ∧ s.store.lh = [40] ∧
      ¬ TooBig mkfsLog s := by
  have hcheck : ((DiskState.boot mkfsLog blankDisk).runs mkfsLog (logsAtMost (MAXOPBLOCKS - 1)) logBlock).map (fun t =>
      decide (t.store.lh = [40])) = some true := by decide +kernel
  obtain ⟨s, hs, hf⟩ := Option.map_eq_some_iff.mp hcheck
  have hreach := reachable_of_runs (fun _ _ => logsAtMost_of) hs (.start ⟨blankDisk, headerOk_blankDisk, rfl⟩)
  exact ⟨s, hreach, of_decide_eq_true hf, (log_space hreach).1⟩

/-- **Three operations of ten blocks are too many**: the thirtieth block is refused. -/
theorem transaction_too_big :
    ∃ s, ((diskMachine mkfsLog).restrict (LogsAtMost MAXOPBLOCKS)).Reachable s ∧ TooBig mkfsLog s := by
  have hcheck : ((DiskState.boot mkfsLog blankDisk).runs mkfsLog (logsAtMost MAXOPBLOCKS)
      (threeOps ++ logOne 2 69 0)).map (fun t => decide (t.store.lh.length = 29) && nextIsLogWrite (t.code 2)) =
      some true := by decide +kernel
  obtain ⟨s, hs, hf⟩ := Option.map_eq_some_iff.mp hcheck
  rw [Bool.and_eq_true, decide_eq_true_eq] at hf
  obtain ⟨k, f, hcode⟩ := op_of_nextIsLogWrite hf.2
  refine ⟨s, reachable_of_runs (fun _ _ => logsAtMost_of) hs (.start ⟨blankDisk, headerOk_blankDisk, rfl⟩), 2, k, f, hcode, ?_⟩
  rw [hf.1]
  exact .inr le_rfl

end Xv6Shmem.Disk
