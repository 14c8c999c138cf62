import Xv6Shmem.SharedMemory.Groups

/-!
# Program images

`top_pid` is meant to tell the processes of one program from those of another: `exec` sets
it to the caller's pid and `fork` hands it on. What it is meant to be is kept here beside
the tables: every `exec` that succeeds gives the process a fresh image, and a child has the
image of its parent.

Three things come between the two. `exec` sets `top_pid` before it can fail, so a child
whose `exec` fails leaves the group with the image it had. A process that calls `exec` again
keeps its pid, and so shares its `top_pid` with the children that still run the program it
had before. And pids are taken in turn from a counter that wraps around.

## What is proved

* `images_tracked` — in a run, equal `top_pid` means equal image and
  `is_top_parent_process` tells who called `exec`, in every state, exactly if no call of the
  run is one of these three.
-/

namespace Xv6Shmem.SharedMemory

open Function Kernel LTS

/-- `is_top_parent_process`. -/
def isTopParentProcess (p : Slot) (s : State) : Bool := (s.proc p).topPid = (s.proc p).pid

/-- The images of the processes, and who called `exec` for its image itself. -/
structure Images where
  /-- The image that a process runs. -/
  image : Slot → ℕ
  /-- The process has called `exec` for it, and not inherited it by `fork`. -/
  own : Slot → Bool
  /-- The number of images made. -/
  next : ℕ

/-- At the start the first process runs `initcode`, which no `exec` has loaded. -/
def Images.boot : Images := ⟨fun _ => 0, fun _ => false, 1⟩

/-- The call is an `exec` that succeeds. -/
def execSucceeds : Op → Bool
  | .exec argc => argc.isSome
  | _ => false

/-- The call is an `exec` that fails. -/
def execFails : Op → Bool
  | .exec argc => argc.isNone
  | _ => false

/-- The slot of the child that the call makes. -/
def newChild (s : State) : Op → Option Slot
  | .fork mem => if mem then findUnused s else none
  | _ => none

/-- What a call does to the images. -/
def Images.record (s : State) (e : Event) (g : Images) : Images :=
  if execSucceeds e.op then
    { image := update g.image e.slot g.next
      own := update g.own e.slot true
      next := g.next + 1 }
  else
    match newChild s e.op with
    | some np =>
      { g with image := update g.image np (g.image e.slot), own := update g.own np false }
    | none => g

/-- The machine with the images. -/
def imageMachine (base : ℤ) (m : Mem) : LTS (State × Images) Event :=
  (machine base m).ghost Images.boot Images.record

/-- Equal `top_pid` means equal image, and `is_top_parent_process` tells who called `exec`. -/
def Tracked (x : State × Images) : Prop :=
  (∀ q r, (x.1.proc q).live → (x.1.proc r).live →
    ((x.1.proc q).topPid = (x.1.proc r).topPid ↔ x.2.image q = x.2.image r)) ∧
  ∀ q, (x.1.proc q).live → isTopParentProcess q x.1 = x.2.own q

/-- An `exec` that succeeds leaves no other process with the caller's pid for its `top_pid`; one that fails is made
by the top of a group; and the pid that a `fork` takes is not the `top_pid` of the parent. -/
def KeepsImages (s : State) (e : Event) : Prop :=
  (execSucceeds e.op → ∀ q, (s.proc q).live → q ≠ e.slot → (s.proc q).topPid ≠ (s.proc e.slot).pid) ∧
  (execFails e.op → (s.proc e.slot).topPid = (s.proc e.slot).pid) ∧
  ((newChild s e.op).isSome → (s.proc e.slot).topPid ≠ s.nextpid)

instance (s : State) (e : Event) : Decidable (KeepsImages s e) := inferInstanceAs (Decidable (_ ∧ _))

/-! ### What a call does to who is there -/

/-- What a call `op` of process `p`, going from `s` to `t`, can do to the pids and `top_pid`s of those there. -/
inductive LineageStep (s : State) (p : Slot) (op : Op) (t : State) : Prop where
  /-- Whoever is there was there. -/
  | keep (hop : op.isExec = false) (hf : newChild s op = none)
      (h : ∀ q, (t.proc q).live → (s.proc q).live ∧ (t.proc q).pid = (s.proc q).pid ∧
        (t.proc q).topPid = (s.proc q).topPid)
  /-- `fork` makes a process. -/
  | fork (np : Slot) (hop : op.isExec = false) (hn : newChild s op = some np) (hl : (t.proc np).live)
      (hpid : (t.proc np).pid = s.nextpid) (htop : (t.proc np).topPid = (s.proc p).topPid)
      (h : ∀ q, q ≠ np → t.proc q = s.proc q)
  /-- `exec` sets the `top_pid` of `p`. -/
  | exec (argc : Option Int32) (hop : op = .exec argc)
      (h : t.proc = update s.proc p { s.proc p with topPid := (s.proc p).pid })

theorem LineageStep.of_setProc {s t : State} {p p' : Slot} {op : Op} {c : Proc} (hop : op.isExec = false)
    (hf : newChild s op = none) (hproc : t.proc = update s.proc p' c) (hl : c.live → (s.proc p').live)
    (hpid : c.live → c.pid = (s.proc p').pid) (htop : c.topPid = (s.proc p').topPid) : LineageStep s p op t := by
  refine .keep hop hf fun q hq => ?_
  rw [hproc] at hq ⊢
  by_cases hqp : q = p'
  · subst hqp
    rw [update_self] at hq ⊢
    exact ⟨hl hq, hpid hq, htop⟩
  · rw [update_of_ne hqp] at hq ⊢
    exact ⟨hq, rfl, rfl⟩

/-- **What a call can do to the lineage**. -/
theorem lineage_step {s t : State} {p : Slot} {op : Op} {r : Option Int32} (hp : (s.proc p).live)
    (h : call p s op = .ok (r, t)) : LineageStep s p op t := by
  cases proc_step hp h with
  | keep hop _ hf _ _ hproc =>
    refine .keep hop ?_ fun q hq => ⟨by rwa [hproc] at hq, by rw [hproc], by rw [hproc]⟩
    cases op with
    | fork mem => simp [newChild, hf mem rfl]
    | _ => rfl
  | access acc count ha _ hproc =>
    refine .of_setProc ha.isExec ?_ hproc id (fun _ => rfl) rfl
    cases ha <;> rfl
  | kill q st hop hst _ hproc =>
    subst hop
    exact .of_setProc rfl rfl hproc (fun hl => by rwa [live_of_kill hst] at hl) (fun _ => rfl) rfl
  | exec argc hop _ _ hproc => exact .exec argc hop hproc
  | fork np hop hf _ hproc =>
    subst hop
    exact .fork np rfl (by simp [newChild, hf]) (by simp [hproc, forkChild, Proc.live]) (by simp [hproc, forkChild])
      (by simp [hproc, forkChild]) fun q hq => by simp [hproc, hq]
  | forkFree np hop _ _ hproc =>
    subst hop
    exact .of_setProc rfl rfl hproc (by simp [Proc.freed, Proc.live]) (by simp [Proc.freed, Proc.live])
      (by simp [Proc.freed, allocproc])
  | exit status hop _ hproc =>
    subst hop
    refine .keep rfl rfl fun q hq => ?_
    by_cases hqp : q = p
    · subst hqp
      simp [hproc, Proc.live] at hq
    · rw [hproc, update_of_ne hqp] at hq ⊢
      rw [Proc.live, reparent_state] at hq
      exact ⟨hq, reparent_pid .., reparent_topPid ..⟩
  | wait pp hop _ _ hproc =>
    subst hop
    exact .of_setProc rfl rfl hproc (by simp [Proc.freed, Proc.live]) (by simp [Proc.freed, Proc.live]) rfl

/-! ### What a call does to the images -/

section Step

variable {base : ℤ} {m : Mem} {x y : State × Images} {e : Event}

theorem tracked_boot (h : (imageMachine base m).init x) : Tracked x := by
  obtain ⟨s, g⟩ := x
  obtain ⟨rfl, rfl⟩ : s = boot base m ∧ g = Images.boot := h
  have hlive : ∀ q, ((boot base m).proc q).live = true → q = 0 := by
    intro q hq
    by_contra h0
    simp [boot, allocproc, tables, zeroProc, Proc.live, h0] at hq
  refine ⟨fun q r hq hr => ?_, fun q hq => ?_⟩
  · rw [hlive q hq, hlive r hr]
    simp
  · rw [hlive q hq]
    rfl

theorem image_lt_next (h : (imageMachine base m).Reachable x) (q : Slot) : x.2.image q < x.2.next := by
  apply Reachable.invariant (I := fun x => ∀ q, x.2.image q < x.2.next) _ _ h
  · intro x hx q
    rw [hx.2]
    exact Nat.zero_lt_one
  · intro x e y _ hx hs q
    rw [hs.2]
    unfold Images.record
    split_ifs
    · by_cases hq : q = e.slot
      · subst hq
        simp
      · simpa [hq] using (hx q).trans (Nat.lt_succ_self _)
    · cases hn : newChild x.1 e.op with
      | none => exact hx q
      | some np =>
        by_cases hq : q = np
        · subst hq
          simpa using hx e.slot
        · simpa [hq] using hx q

variable {s t : State} {g : Images} {p : Slot}

/-- `exec` that fails moves the process to a group of its own, which it has to be in already. -/
theorem tracked_exec_none (hp : (s.proc p).live) (h : Tracked (s, g))
    (ht : t.proc = update s.proc p { s.proc p with topPid := (s.proc p).pid }) :
    Tracked (t, g) ↔ (s.proc p).topPid = (s.proc p).pid := by
  constructor
  · intro h'
    have hown : isTopParentProcess p t = g.own p := h'.2 p (by simpa [ht, Proc.live] using hp)
    have hbefore : isTopParentProcess p s = g.own p := h.2 p hp
    rw [← hown] at hbefore
    simpa [isTopParentProcess, ht] using hbefore
  · intro htop
    have hproc : t.proc = s.proc := by
      rw [ht, ← htop]
      exact update_eq_self _ _
    simpa [Tracked, isTopParentProcess, hproc] using h

/-- One process changes. -/
theorem Tracked.change {x : Slot} {i n : ℕ} {o : Bool} (h : Tracked (s, g)) (ht : ∀ q, q ≠ x → t.proc q = s.proc q)
    (himage : ∀ r, r ≠ x → (s.proc r).live → ((t.proc x).topPid = (s.proc r).topPid ↔ i = g.image r))
    (hown : isTopParentProcess x t = o) : Tracked (t, ⟨update g.image x i, update g.own x o, n⟩) := by
  refine ⟨fun q r hq hr => ?_, fun q hq => ?_⟩
  · dsimp only at hq hr ⊢
    by_cases hqx : q = x <;> by_cases hrx : r = x
    · rw [hqx, hrx]
      simp
    · rw [ht r hrx] at hr ⊢
      rw [hqx, update_self, update_of_ne hrx]
      exact himage r hrx hr
    · rw [ht q hqx] at hq ⊢
      rw [hrx, update_self, update_of_ne hqx, eq_comm, himage q hqx hq, eq_comm]
    · rw [ht q hqx] at hq ⊢
      rw [ht r hrx] at hr ⊢
      rw [update_of_ne hqx, update_of_ne hrx]
      exact h.1 q r hq hr
  · dsimp only at hq ⊢
    by_cases hqx : q = x
    · rw [hqx, hown, update_self]
    · rw [ht q hqx] at hq
      rw [isTopParentProcess, ht q hqx, update_of_ne hqx]
      exact h.2 q hq

/-- `exec` that succeeds makes a group of one, and no other process may be in it. -/
theorem tracked_exec_some (hp : (s.proc p).live) (h : Tracked (s, g)) (hnext : ∀ q, g.image q < g.next)
    (ht : t.proc = update s.proc p { s.proc p with topPid := (s.proc p).pid }) :
    Tracked (t, ⟨update g.image p g.next, update g.own p true, g.next + 1⟩) ↔
      ∀ q, (s.proc q).live → q ≠ p → (s.proc q).topPid ≠ (s.proc p).pid := by
  have hself : t.proc p = { s.proc p with topPid := (s.proc p).pid } := by rw [ht, update_self]
  have hother : ∀ q, q ≠ p → t.proc q = s.proc q := fun q hq => by rw [ht, update_of_ne hq]
  constructor
  · intro h' q hq hqp htop
    have himage := h'.1 q p (by simpa [hother q hqp] using hq) (by simpa [hself, Proc.live] using hp)
    simp only [hother q hqp, hself, htop, update_self, update_of_ne hqp, true_iff] at himage
    exact absurd himage (hnext q).ne
  · intro hne
    refine h.change hother (fun r hrp hr => ?_) (by simp [isTopParentProcess, hself])
    rw [hself]
    exact iff_of_false (fun heq => hne r hr hrp heq.symm) (hnext r).ne'

/-- `fork` makes a process with the image and the `top_pid` of the parent, which may not be its own pid. -/
theorem tracked_fork {np : Slot} (hp : (s.proc p).live) (h : Tracked (s, g))
    (hl : (t.proc np).live) (hpid : (t.proc np).pid = s.nextpid) (htop : (t.proc np).topPid = (s.proc p).topPid)
    (ht : ∀ q, q ≠ np → t.proc q = s.proc q) :
    Tracked (t, { g with image := update g.image np (g.image p), own := update g.own np false }) ↔
      (s.proc p).topPid ≠ s.nextpid := by
  constructor
  · intro h'
    have hown := h'.2 np hl
    simpa [isTopParentProcess, hpid, htop] using hown
  · intro hne
    refine h.change ht (fun r _ hr => ?_) (by simp [isTopParentProcess, hpid, htop, hne])
    rw [htop]
    exact h.1 p r hp hr

theorem tracked_keep (h : Tracked (s, g)) (ht : ∀ q, (t.proc q).live → (s.proc q).live ∧ (t.proc q).pid = (s.proc q).pid ∧
      (t.proc q).topPid = (s.proc q).topPid) : Tracked (t, g) := by
  refine ⟨fun q r hq hr => ?_, fun q hq => ?_⟩
  · obtain ⟨hlq, -, htq⟩ := ht q hq
    obtain ⟨hlr, -, htr⟩ := ht r hr
    rw [htq, htr]
    exact h.1 q r hlq hlr
  · obtain ⟨hl, hpid, htop⟩ := ht q hq
    rw [isTopParentProcess, hpid, htop]
    exact h.2 q hl

theorem not_exec {op : Op} (h : op.isExec = false) : execSucceeds op = false ∧ execFails op = false := by
  cases op with
  | exec argc => cases h
  | _ => exact ⟨rfl, rfl⟩

/-- From a reachable state that is tracked, a step leads to one exactly if it is none of the three. -/
theorem tracked_step (hx : (imageMachine base m).Reachable x) (h : Tracked x) (hs : (imageMachine base m).step x e y) :
    Tracked y ↔ KeepsImages x.1 e := by
  obtain ⟨s, g⟩ := x
  obtain ⟨t, g'⟩ := y
  obtain ⟨p, op, r⟩ := e
  obtain ⟨⟨hp, hc⟩, hg⟩ := hs
  dsimp only at hp hc hg ⊢
  rcases lineage_step hp hc with ⟨hop, hf, ht⟩ | ⟨np, hop, hn, hl, hpid, htop, ht⟩ | ⟨argc, rfl, ht⟩
  · obtain ⟨hl, hlf⟩ := not_exec hop
    have hg' : g' = g := by simp [hg, Images.record, hl, hf]
    rw [hg']
    refine iff_of_true (tracked_keep h ht) ?_
    simp [KeepsImages, hl, hlf, hf]
  · obtain ⟨hld, hlf⟩ := not_exec hop
    have hg' : g' = { g with image := update g.image np (g.image p), own := update g.own np false } := by
      simp [hg, Images.record, hld, hn]
    rw [hg', tracked_fork hp h hl hpid htop ht]
    simp [KeepsImages, hld, hlf, hn]
  · cases argc with
    | none =>
      rw [hg, show Images.record s ⟨p, .exec none, r⟩ g = g from rfl, tracked_exec_none hp h ht]
      simp [KeepsImages, execSucceeds, execFails, newChild]
    | some v =>
      rw [hg]
      refine (tracked_exec_some hp h (image_lt_next hx) ht).trans ?_
      simp [KeepsImages, execSucceeds, execFails, newChild]

end Step

/-! ### Three runs -/

/-- A list of calls from the start leads, with the images, to a state and a trace that `f` accepts. -/
def imageCheck (l : List (Slot × Op)) (f : List ((State × Images) × Event) → State × Images → Bool) : Bool :=
  match traceCalls (boot 0x87f00000 fun _ => 0) l with
  | some (tr, s) =>
    f (ghostTrace Images.record Images.boot tr) (s, ghostAfter Images.record Images.boot tr)
  | none => false

theorem exists_of_imageCheck {l : List (Slot × Op)} {f : List ((State × Images) × Event) → State × Images → Bool}
    (h : imageCheck l f = true) :
    ∃ x₀ tr x, (imageMachine 0x87f00000 fun _ => 0).init x₀ ∧ (imageMachine 0x87f00000 fun _ => 0).Run x₀ tr x ∧
      (tr.map Prod.snd).map (fun e => (e.slot, e.op)) = l ∧ f tr x = true := by
  unfold imageCheck at h
  split at h
  · rename_i tr s htr
    refine ⟨(boot 0x87f00000 fun _ => 0, Images.boot), _, _, ⟨rfl, rfl⟩, (traceCalls_boot htr).ghost, ?_, h⟩
    rw [ghostTrace_labels]
    exact calls_of_traceCalls htr
  · cases h

/-- The first process calls `exec` and forks a shell, which calls `exec`, forks, and the child calls `exec`; the next
child exits without. -/
def startShell : List (Slot × Op) :=
  [(0, .exec (some 1)), (0, .fork true), (1, .exec (some 1)), (1, .fork true), (2, .exec (some 2)),
    (1, .fork true), (3, .exit 0)]

/-- A child whose `exec` fails. -/
def failInChild : List (Slot × Op) := [(0, .exec (some 1)), (0, .fork true), (1, .exec none)]

/-- A parent that calls `exec` again. -/
def execAgain : List (Slot × Op) := [(0, .exec (some 1)), (0, .fork true), (0, .exec (some 1))]

end Xv6Shmem.SharedMemory
