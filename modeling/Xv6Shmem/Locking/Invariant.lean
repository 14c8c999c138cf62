import Xv6Shmem.Locking.Discipline

/-!
# What the threads hold and know

In every reachable state each thread has code that keeps to the discipline, from what it
really holds and what really is the case. A thread that has a CPU holds the locks that it
thinks it holds; one that has none will have its own lock, or that of the process that its
CPU runs, when it goes on. No two threads know of the same slot, so what one does to a slot
is never against what another one relies on.

## What is proved

* one lemma for each command, and `Sound.step` from them — a step keeps the invariant.
* `sound_of_reachable` — the invariant.
-/

namespace Xv6Shmem.Locking

open Function (update update_self update_of_ne update_eq_self)
open Kernel Prog LTS

/-- Thread `a` knows of slot `q`, and relies on it. A process that has no CPU does not rely on being `RUNNING`. -/
def Relies (s : LockState) (G : Agent → Ctx) (a : Agent) (q : Slot) : Prop :=
  (G a).know q ≠ none ∧ (s.active a = true ∨ a ≠ .proc q)

/-- The code `x` of thread `a` keeps to the discipline from what the thread holds and knows. -/
structure ThreadOk (a : Agent) (x : Code Label) (n : ℕ) (g : Ctx) : Prop where
  /-- The code keeps to the discipline. -/
  code : x.wp (rules a) (LabelOk a) g
  /-- No lock is held twice. -/
  nodup : g.held.Nodup
  /-- What is known without the lock does not change. -/
  stable : ∀ q st, g.know q = some st → .proc q ∈ g.held ∨ Stable a q st
  /-- `noff` counts the locks. -/
  noff : n = g.held.length

/-- Each thread keeps to the discipline from what it holds and knows, and that is as it is. -/
structure Sound (s : LockState) (G : Agent → Ctx) : Prop where
  /-- The thread keeps to the discipline. -/
  thread : ∀ a, ThreadOk a (s.code a) (s.noff a) (G a)
  /-- Who holds a lock has a CPU, and has it among its locks. -/
  held : ∀ a l, s.holder l = some a → s.active a = true ∧ l ∈ (G a).held
  /-- The locks of a thread that has a CPU are held by it, unless a lock was made new. -/
  mine : ∀ a l, s.active a = true → l ∈ (G a).held → l.isPage = false → s.holder l = some a
  /-- A process without a CPU will go on with its own lock. -/
  parked : ∀ p, s.active (.proc p) = false → (G (.proc p)).held = [.proc p] ∧ (G (.proc p)).know p = some .running
  /-- A scheduler whose CPU runs a process will go on with the lock of the process. -/
  lent : ∀ c q, s.on c = some q → (G (.cpu c)).held = [.proc q] ∧ (G (.cpu c)).know q = none
  /-- What is known is so. -/
  known : ∀ a q st, (G a).know q = some st → (s.active a = true ∨ a ≠ .proc q) → s.state q = st
  /-- Only one thread knows of a slot. -/
  sole : ∀ a b q, Relies s G a q → Relies s G b q → a = b
  /-- A process knows of itself. -/
  self : ∀ p, (G (.proc p)).know p ≠ none
  /-- No two CPUs run one process. -/
  one : ∀ c c' p, s.on c = some p → s.on c' = some p → c = c'

section Steps

variable {s t : LockState} {G : Agent → Ctx} {a : Agent} {g : Ctx} {k : Unit → Code Label} {q : Slot} {x : Code Label}

theorem active_proc_iff {p : Slot} : s.active (.proc p) = true ↔ ∃ c, s.on c = some p := by
  simp [LockState.active, LockState.cpuOf]

theorem active_congr (hon : t.on = s.on) (b : Agent) : t.active b = s.active b := by
  cases b <;> simp [LockState.active, LockState.cpuOf, hon]

variable (h : Sound s G)

include h

theorem Sound.code (a : Agent) : (s.code a).wp (rules a) (LabelOk a) (G a) := (h.thread a).code

theorem Sound.nodup (a : Agent) : (G a).held.Nodup := (h.thread a).nodup

theorem Sound.stable (a : Agent) :
    ∀ q st, (G a).know q = some st → .proc q ∈ (G a).held ∨ Stable a q st := (h.thread a).stable

theorem Sound.noff (a : Agent) : s.noff a = (G a).held.length := (h.thread a).noff

/-- One thread goes on with `x`, and the others stay as they are. -/
theorem Sound.threads (hcode : t.code = update s.code a x)
    (hnoff : ∀ b, b ≠ a → t.noff b = s.noff b) (ha : ThreadOk a x (t.noff a) g) :
    ∀ b, ThreadOk b (t.code b) (t.noff b) (update G a g b) := by
  intro b
  by_cases hb : b = a
  · subst hb
    rw [hcode, update_self, update_self]
    exact ha
  · rw [hcode, hnoff b hb, update_of_ne hb, update_of_ne hb]
    exact h.thread b

/-- **A step of thread `a` alone**: it changes what it holds and knows, the locks and the states, but no switch is
made, and what others hold and rely on stays. -/
theorem Sound.move (ha : s.active a = true)
    (hon : t.on = s.on) (hcode : t.code = update s.code a x)
    (hnoff : t.noff = update s.noff a g.held.length)
    (hx : x.wp (rules a) (LabelOk a) g) (hnodup : g.held.Nodup)
    (hstable : ∀ q st, g.know q = some st → .proc q ∈ g.held ∨ Stable a q st)
    (hheld : ∀ l, t.holder l = some a → l ∈ g.held)
    (hmine : ∀ l ∈ g.held, l.isPage = false → t.holder l = some a)
    (hothers : ∀ b l, b ≠ a → t.holder l = some b → s.holder l = some b)
    (hothers' : ∀ b l, b ≠ a → l.isPage = false → s.holder l = some b → t.holder l = some b)
    (hknown : ∀ q st, g.know q = some st → t.state q = st)
    (hstate : ∀ b q, b ≠ a → Relies s G b q → t.state q = s.state q)
    (hsole : ∀ b q, b ≠ a → Relies s G b q → g.know q = none)
    (hself : ∀ p, a = .proc p → g.know p ≠ none) : Sound t (update G a g) := by
  have hact := active_congr hon
  have hrel : ∀ b q, b ≠ a → Relies t (update G a g) b q → Relies s G b q := by
    intro b q hb hr
    rw [Relies, update_of_ne hb, hact] at hr
    exact hr
  constructor
  case thread =>
    refine h.threads hcode (fun b hb => by rw [hnoff, update_of_ne hb]) ⟨hx, hnodup, hstable, ?_⟩
    rw [hnoff, update_self]
  case held =>
    intro b l hl
    rw [hact]
    by_cases hb : b = a
    · subst hb
      rw [update_self]
      exact ⟨ha, hheld l hl⟩
    · rw [update_of_ne hb]
      exact h.held b l (hothers b l hb hl)
  case mine =>
    intro b l hb hl hp
    rw [hact] at hb
    by_cases hba : b = a
    · subst hba
      rw [update_self] at hl
      exact hmine l hl hp
    · rw [update_of_ne hba] at hl
      exact hothers' b l hba hp (h.mine b l hb hl hp)
  case parked =>
    intro p hp
    rw [hact] at hp
    have hpa : Agent.proc p ≠ a := by
      rintro rfl
      rw [ha] at hp
      cases hp
    rw [update_of_ne hpa]
    exact h.parked p hp
  case lent =>
    intro c q hc
    rw [hon] at hc
    have hca : Agent.cpu c ≠ a := by
      rintro rfl
      simp [LockState.active, hc] at ha
    rw [update_of_ne hca]
    exact h.lent c q hc
  case known =>
    intro b q st hk hb
    rw [hact] at hb
    by_cases hba : b = a
    · subst hba
      rw [update_self] at hk
      exact hknown q st hk
    · rw [update_of_ne hba] at hk
      rw [hstate b q hba ⟨by simp [hk], hb⟩]
      exact h.known b q st hk hb
  case sole =>
    intro b b' q hb hb'
    by_cases hba : b = a <;> by_cases hba' : b' = a
    · rw [hba, hba']
    · refine absurd (hsole b' q hba' (hrel b' q hba' hb')) ?_
      subst hba
      have := hb.1
      rwa [update_self] at this
    · refine absurd (hsole b q hba (hrel b q hba hb)) ?_
      subst hba'
      have := hb'.1
      rwa [update_self] at this
    · exact h.sole b b' q (hrel b q hba hb) (hrel b' q hba' hb')
  case self =>
    intro p
    by_cases hpa : Agent.proc p = a
    · subst hpa
      rw [update_self]
      exact hself p rfl
    · rw [update_of_ne hpa]
      exact h.self p
  case one =>
    intro c c' p hc hc'
    rw [hon] at hc hc'
    exact h.one c c' p hc hc'

theorem Sound.go (ha : s.active a = true)
    (hx : x.wp (rules a) (LabelOk a) (G a)) : Sound (s.go a x) G := by
  have hu := h.move (t := s.go a x) (g := G a) ha rfl rfl
    (by rw [← h.noff a]; exact (update_eq_self a s.noff).symm) hx (h.nodup a) (h.stable a)
    (fun l hl => (h.held a l hl).2) (fun l hl hp => h.mine a l ha hl hp) (fun _ _ _ hl => hl) (fun _ _ _ _ hl => hl)
    (fun q st hk => h.known a q st hk (.inl ha)) (fun _ _ _ _ => rfl)
    (fun b q hb hr => by
      by_contra hk
      exact hb (h.sole b a q hr ⟨hk, .inl ha⟩))
    (fun p hp => by subst hp; exact h.self p)
  rwa [update_eq_self] at hu

/-- Who relies on a slot whose lock is among its locks has a CPU. -/
theorem Sound.active_of_relies (hr : Relies s G a q) (hq : .proc q ∈ (G a).held) :
    s.active a = true := by
  rcases hr.2 with ha | hne
  · exact ha
  · by_contra hina
    rw [Bool.not_eq_true] at hina
    cases a with
    | proc p =>
      rw [(h.parked p hina).1, List.mem_singleton] at hq
      exact hne (by rw [Lock.proc.inj hq])
    | cpu c =>
      obtain ⟨q', hq'⟩ : ∃ q', s.on c = some q' := by
        rw [← Option.ne_none_iff_exists']
        simpa [LockState.active] using hina
      obtain ⟨hheld, hknow⟩ := h.lent c q' hq'
      rw [hheld, List.mem_singleton] at hq
      rw [← Lock.proc.inj hq] at hknow
      exact hr.1 hknow

/-- What another thread relies on under a lock, this one does not have the lock of; without the lock it is stable. -/
theorem Sound.stable_of_relies (ha : s.active a = true) {b : Agent} (hba : b ≠ a)
    (hr : Relies s G b q) (hq : .proc q ∈ (G a).held) : Stable b q (s.state q) := by
  obtain ⟨st, hst⟩ := Option.ne_none_iff_exists'.mp hr.1
  rw [h.known b q st hst hr.2]
  rcases h.stable b q st hst with hmem | hstable
  · have hb := h.active_of_relies hr hmem
    have h1 := h.mine b _ hb hmem rfl
    have h2 := h.mine a _ ha hq rfl
    rw [h1] at h2
    exact absurd (Option.some.inj h2) hba
  · exact hstable

omit h

theorem Allowed.not_mem {held : List Lock} {l : Lock} (h : Allowed a held l) : l ∉ held := by
  intro hl
  cases l with
  | wait | chan _ | page _ =>
    rw [show held = [] from h] at hl
    cases hl
  | state i =>
    rcases h _ hl with hw | ⟨-, p, -, hp⟩
    · cases hw
    · cases hp
  | proc q =>
    rcases h _ hl with ho | ⟨-, i, hi⟩
    · cases ho
    · cases hi
  | pid | kmem | ftable | itable => cases (h _ hl).1

include h

variable (ha : s.active a = true)

include ha

theorem Sound.sole_know {b : Agent} (hba : b ≠ a)
    (hr : Relies s G b q) : (G a).know q = none := by
  by_contra hk
  exact hba (h.sole b a q hr ⟨hk, .inl ha⟩)

theorem Sound.acquire {l : Lock}
    (hcode : s.code a = .op (.acquire l) k) (hl : s.holder l = none) :
    ∃ G', Sound (LockState.go { s with
      holder := update s.holder l (some a), noff := update s.noff a (s.noff a + 1) } a (k ())) G' := by
  have hsafe := h.code a
  rw [hcode] at hsafe
  obtain ⟨hal, hk⟩ := hsafe
  refine ⟨_, h.move (g := { G a with held := l :: (G a).held }) ha rfl rfl ?_ hk ?_ ?_ ?_ ?_ ?_ ?_ ?_ ?_ ?_ ?_⟩
  · rw [h.noff a]
    rfl
  · exact List.nodup_cons.mpr ⟨hal.not_mem, h.nodup a⟩
  · intro q st hk
    rcases h.stable a q st hk with hm | hs
    · exact .inl (List.mem_cons_of_mem _ hm)
    · exact .inr hs
  · intro l' hl'
    by_cases hll : l' = l
    · rw [hll]
      exact List.mem_cons_self
    · refine List.mem_cons_of_mem _ (h.held a l' ?_).2
      simpa [LockState.go, update_of_ne hll] using hl'
  · intro l' hl' hp
    by_cases hll : l' = l
    · subst hll
      simp [LockState.go]
    · have hmem := (List.mem_cons.mp hl').resolve_left hll
      simpa [LockState.go, update_of_ne hll] using h.mine a l' ha hmem hp
  · intro b l' hb hl'
    by_cases hll : l' = l
    · subst hll
      simp [LockState.go] at hl'
      exact absurd hl'.symm hb
    · simpa [LockState.go, update_of_ne hll] using hl'
  · intro b l' hb _ hl'
    have hll : l' ≠ l := by
      rintro rfl
      rw [hl] at hl'
      cases hl'
    simpa [LockState.go, update_of_ne hll] using hl'
  · exact fun q st hk => h.known a q st hk (.inl ha)
  · exact fun _ _ _ _ => rfl
  · exact fun b q hb hr => h.sole_know ha hb hr
  · rintro p rfl
    exact h.self p

/-- What is known when a lock is given back: under the lock of slot `q` that was, only what does not change. -/
theorem Sound.release_know {l : Lock} {know : Slot → Option ProcState}
    (hknow : ∀ q st, know q = some st → (G a).know q = some st)
    (hforget : ∀ q st, know q = some st → l = .proc q → Stable a q st)
    (hself : ∀ p, a = .proc p → know p ≠ none) (hl : s.holder l = some a)
    (hx : x.wp (rules a) (LabelOk a) ⟨(G a).held.erase l, know⟩) :
    ∃ G', Sound (LockState.go { s with
      holder := update s.holder l none, noff := update s.noff a (s.noff a - 1) } a x) G' := by
  have hmem := (h.held a l hl).2
  refine ⟨_, h.move (g := ⟨(G a).held.erase l, know⟩) ha rfl rfl ?_ hx ?_ ?_ ?_ ?_ ?_ ?_ ?_ ?_ ?_ hself⟩
  · rw [h.noff a]
    dsimp only
    rw [List.length_erase_of_mem hmem]
    rfl
  · exact (h.nodup a).erase l
  · intro q st hk
    by_cases hlq : l = .proc q
    · exact .inr (hforget q st hk hlq)
    · rcases h.stable a q st (hknow q st hk) with hm | hs
      · exact .inl ((h.nodup a).mem_erase_iff.mpr ⟨fun h => hlq h.symm, hm⟩)
      · exact .inr hs
  · intro l' hl'
    by_cases hll : l' = l
    · subst hll
      simp [LockState.go] at hl'
    · refine (h.nodup a).mem_erase_iff.mpr ⟨hll, (h.held a l' ?_).2⟩
      simpa [LockState.go, update_of_ne hll] using hl'
  · intro l' hl' hp
    obtain ⟨hll, hm⟩ := (h.nodup a).mem_erase_iff.mp hl'
    simpa [LockState.go, update_of_ne hll] using h.mine a l' ha hm hp
  · intro b l' hb hl'
    by_cases hll : l' = l
    · subst hll
      simp [LockState.go] at hl'
    · simpa [LockState.go, update_of_ne hll] using hl'
  · intro b l' hb _ hl'
    have hll : l' ≠ l := by
      rintro rfl
      rw [hl] at hl'
      exact hb (Option.some.inj hl').symm
    simpa [LockState.go, update_of_ne hll] using hl'
  · exact fun q st hk => h.known a q st (hknow q st hk) (.inl ha)
  · exact fun _ _ _ _ => rfl
  · intro b q hb hr
    by_contra hk
    obtain ⟨st, hst⟩ := Option.ne_none_iff_exists'.mp hk
    have := h.sole_know ha hb hr
    rw [hknow q st hst] at this
    cases this

theorem Sound.release {l : Lock}
    (hcode : s.code a = .op (.release l) k) (hl : s.holder l = some a) :
    ∃ G', Sound (LockState.go { s with
      holder := update s.holder l none, noff := update s.noff a (s.noff a - 1) } a (k ())) G' := by
  have hsafe := h.code a
  rw [hcode] at hsafe
  by_cases hproc : ∃ q, l = .proc q
  · obtain ⟨q, rfl⟩ := hproc
    obtain ⟨hrun, hk⟩ := hsafe
    refine h.release_know ha (fun q' st hst => ?_) (fun q' st hst hqq => ?_) (fun p hp => ?_) hl hk
    · by_cases hqq : q' = q
      · subst hqq
        rw [update_self, Ctx.forget, Option.filter_eq_some_iff] at hst
        exact hst.1
      · rwa [update_of_ne hqq] at hst
    · cases hqq
      rw [update_self, Ctx.forget, Option.filter_eq_some_iff] at hst
      exact of_decide_eq_true hst.2
    · by_cases hpq : p = q
      · subst hpq hp
        rw [update_self, Ctx.forget, hrun rfl, filter_stable_self]
        simp
      · rw [update_of_ne hpq]
        subst hp
        exact h.self p
  · have hproc' : ∀ q, l ≠ .proc q := fun q hq => hproc ⟨q, hq⟩
    have hk : (k ()).wp (rules a) (LabelOk a) ⟨(G a).held.erase l, (G a).know⟩ := by
      cases l with
      | proc q => exact absurd rfl (hproc' q)
      | _ => exact hsafe
    refine h.release_know ha (fun _ _ hst => hst) (fun q _ _ hq => absurd hq (hproc' q)) (fun p hp => ?_) hl hk
    subst hp
    exact h.self p

theorem Sound.initlock {l : Lock}
    (hcode : s.code a = .op (.initlock l) k) :
    ∃ G', Sound (LockState.go { s with holder := update s.holder l none } a (k ())) G' := by
  have hsafe := h.code a
  rw [hcode] at hsafe
  obtain ⟨hpage, hk⟩ := hsafe
  have hne : ∀ l' : Lock, l'.isPage = false → l' ≠ l := by
    rintro l' hl' rfl
    rw [hpage] at hl'
    cases hl'
  refine ⟨_, h.move (g := G a) ha rfl rfl ?_ hk (h.nodup a) (h.stable a) ?_ ?_ ?_ ?_ ?_ ?_ ?_ ?_⟩
  · rw [← h.noff a, update_eq_self]
    rfl
  · intro l' hl'
    by_cases hll : l' = l
    · subst hll
      simp [LockState.go] at hl'
    · refine (h.held a l' ?_).2
      simpa [LockState.go, update_of_ne hll] using hl'
  · intro l' hl' hp
    simpa [LockState.go, update_of_ne (hne l' hp)] using h.mine a l' ha hl' hp
  · intro b l' hb hl'
    by_cases hll : l' = l
    · subst hll
      simp [LockState.go] at hl'
    · simpa [LockState.go, update_of_ne hll] using hl'
  · intro b l' hb hp hl'
    simpa [LockState.go, update_of_ne (hne l' hp)] using hl'
  · exact fun q st hk => h.known a q st hk (.inl ha)
  · exact fun _ _ _ _ => rfl
  · exact fun b q hb hr => h.sole_know ha hb hr
  · rintro p rfl
    exact h.self p

/-- A thread that has the lock of slot `q` learns or sets its state, `st`. -/
theorem Sound.learn {st : ProcState}
    (hq : .proc q ∈ (G a).held) (hsole : ∀ b, b ≠ a → ¬ Relies s G b q)
    (hx : x.wp (rules a) (LabelOk a) { G a with know := update (G a).know q (some st) }) :
    ∃ G', Sound (LockState.go { s with state := update s.state q st } a x) G' := by
  refine ⟨_, h.move (g := { G a with know := update (G a).know q (some st) }) ha rfl rfl ?_ hx (h.nodup a)
    ?_ ?_ ?_ ?_ ?_ ?_ ?_ ?_ ?_⟩
  · rw [← h.noff a, update_eq_self]
    rfl
  · intro q' st' hk
    by_cases hqq : q' = q
    · rw [hqq]
      exact .inl hq
    · dsimp only at hk
      rw [update_of_ne hqq] at hk
      exact h.stable a q' st' hk
  · exact fun l hl => (h.held a l hl).2
  · exact fun l hl hp => h.mine a l ha hl hp
  · exact fun _ _ _ hl => hl
  · exact fun _ _ _ _ hl => hl
  · intro q' st' hk
    dsimp only at hk
    by_cases hqq : q' = q
    · subst hqq
      rw [update_self] at hk
      simpa [LockState.go] using Option.some.inj hk
    · rw [update_of_ne hqq] at hk
      simpa [LockState.go, update_of_ne hqq] using h.known a q' st' hk (.inl ha)
  · intro b q' hb hr
    have hqq : q' ≠ q := by
      rintro rfl
      exact hsole b hb hr
    simp [LockState.go, update_of_ne hqq]
  · intro b q' hb hr
    have hqq : q' ≠ q := by
      rintro rfl
      exact hsole b hb hr
    dsimp only
    rw [update_of_ne hqq]
    exact h.sole_know ha hb hr
  · rintro p rfl
    by_cases hpq : p = q
    · subst hpq
      simp
    · dsimp only
      rw [update_of_ne hpq]
      exact h.self p

theorem Sound.test {st : ProcState} {k : Bool → Code Label}
    (hcode : s.code a = .op (.test q st) k) : ∃ G', Sound (s.go a (k (decide (s.state q = st)))) G' := by
  have hsafe := h.code a
  rw [hcode] at hsafe
  obtain ⟨hq, hused, hrun, htrue, hfalse⟩ := hsafe
  by_cases hst : s.state q = st
  · rw [decide_eq_true hst]
    have hsole : ∀ b, b ≠ a → ¬ Relies s G b q := by
      intro b hb hr
      rcases h.stable_of_relies ha hb hr hq with ⟨hu, -⟩ | ⟨hr', -⟩
      · exact hused (hst ▸ hu)
      · exact hrun (hst ▸ hr')
    have hknow : (G a).know q = none ∨ (G a).know q = some st := by
      cases hk : (G a).know q with
      | none => exact .inl rfl
      | some st' => rw [← hst, h.known a q st' hk (.inl ha)]; exact .inr rfl
    have := h.learn ha hq hsole (htrue hknow)
    rwa [show update s.state q st = s.state from hst ▸ update_eq_self ..] at this
  · rw [decide_eq_false hst]
    exact ⟨G, h.go ha hfalse⟩

theorem Sound.set {st : ProcState}
    (hcode : s.code a = .op (.set q st) k) :
    ∃ G', Sound (LockState.go { s with state := update s.state q st } a (k ())) G' := by
  have hsafe := h.code a
  rw [hcode] at hsafe
  obtain ⟨hq, ⟨st0, hk, -⟩, hx⟩ := hsafe
  refine h.learn ha hq (fun b hb hr => ?_) hx
  have := h.sole_know ha hb hr
  rw [hk] at this
  cases this

omit ha

/-- A process that has no CPU is made to start in `forkret`. -/
theorem Sound.restart (hq : s.active (.proc q) = false) :
    Sound { s with noff := update s.noff (.proc q) 1, code := update s.code (.proc q) (forkret q) }
      (update G (.proc q) ⟨[.proc q], selfKnow q⟩) := by
  have hnot : ∀ b, s.active b = true → b ≠ .proc q := by
    rintro b hb rfl
    rw [hq] at hb
    cases hb
  have hrel : ∀ b q', Relies s (update G (.proc q) ⟨[.proc q], selfKnow q⟩) b q' → b ≠ .proc q := by
    rintro b q' ⟨hk, hact⟩ rfl
    rw [update_self] at hk
    by_cases hqq : q' = q
    · subst hqq
      rcases hact with hact | hne
      · exact hnot _ hact rfl
      · exact hne rfl
    · exact hk (selfKnow_of_ne hqq)
  constructor
  case thread =>
    refine h.threads rfl (fun b hb => update_of_ne hb ..) ⟨forkret_spec, List.nodup_singleton _, ?_, ?_⟩
    · intro q' st hk
      by_cases hqq : q' = q
      · rw [hqq]
        exact .inl (List.mem_singleton_self _)
      · dsimp only at hk
        rw [selfKnow_of_ne hqq] at hk
        cases hk
    · exact update_self ..
  case held =>
    intro b l hl
    obtain ⟨hact, hm⟩ := h.held b l hl
    rw [update_of_ne (hnot b hact)]
    exact ⟨hact, hm⟩
  case mine =>
    intro b l hb hl hp
    rw [update_of_ne (hnot b hb)] at hl
    exact h.mine b l hb hl hp
  case parked =>
    intro p hp
    by_cases hpq : p = q
    · subst hpq
      rw [update_self]
      exact ⟨rfl, selfKnow_self p⟩
    · rw [update_of_ne fun h => hpq (Agent.proc.inj h)]
      exact h.parked p hp
  case lent =>
    intro c q' hc
    rw [update_of_ne (by simp)]
    exact h.lent c q' hc
  case known =>
    intro b q' st hk hb
    have hbq := hrel b q' ⟨by simp [hk], hb⟩
    rw [update_of_ne hbq] at hk
    exact h.known b q' st hk hb
  case sole =>
    intro b b' q' hb hb'
    have hbq := hrel b q' hb
    have hbq' := hrel b' q' hb'
    rw [Relies, update_of_ne hbq] at hb
    rw [Relies, update_of_ne hbq'] at hb'
    exact h.sole b b' q' hb hb'
  case self =>
    intro p
    by_cases hpq : p = q
    · subst hpq
      rw [update_self]
      simp
    · rw [update_of_ne fun h => hpq (Agent.proc.inj h)]
      exact h.self p
  case one => exact h.one

theorem Sound.start (ha : s.active a = true)
    (hcode : s.code a = .op (.start q) k) :
    ∃ G', Sound (LockState.go { s with
      noff := update s.noff (.proc q) 1, code := update s.code (.proc q) (forkret q) } a (k ())) G' := by
  have hsafe := h.code a
  rw [hcode] at hsafe
  obtain ⟨hne, hk, hx⟩ := hsafe
  have hq : s.active (.proc q) = false := by
    by_contra hact
    rw [Bool.not_eq_false] at hact
    exact hne (h.sole a (.proc q) q ⟨by simp [hk], .inl ha⟩ ⟨h.self q, .inl hact⟩)
  refine ⟨_, (h.restart hq).go ha ?_⟩
  rw [update_of_ne hne]
  exact hx

omit h

/-- Who has a CPU after CPU `c` has changed what it runs. -/
theorem active_proc_of_on {c : Fin NCPU} {p : Slot} {o : Option Slot} (hon : t.on = update s.on c o)
    (hp : s.on c ≠ some p) (hp' : o ≠ some p) : t.active (.proc p) = s.active (.proc p) := by
  rw [Bool.eq_iff_iff, active_proc_iff, active_proc_iff]
  constructor
  · rintro ⟨c', hc'⟩
    refine ⟨c', ?_⟩
    by_cases hcc : c' = c
    · subst hcc
      rw [hon, update_self] at hc'
      exact absurd hc' hp'
    · rwa [hon, update_of_ne hcc] at hc'
  · rintro ⟨c', hc'⟩
    refine ⟨c', ?_⟩
    have hcc : c' ≠ c := by
      rintro rfl
      exact hp hc'
    rwa [hon, update_of_ne hcc]

theorem active_cpu_of_ne {c c' : Fin NCPU} {o : Option Slot} (hon : t.on = update s.on c o) (hcc : c' ≠ c) :
    t.active (.cpu c') = s.active (.cpu c') := by
  simp [LockState.active, hon, update_of_ne hcc]

include h

/-- A CPU goes from `x` to `y`, and with it the only lock of `x`. -/
theorem Sound.handOver {x y : Agent} {l₀ : Lock} (hyx : y ≠ x)
    (hholder : t.holder = update s.holder l₀ (some y)) (hact : ∀ b, b ≠ x → b ≠ y → t.active b = s.active b)
    (hx : t.active x = false) (hy : s.active y = false) (hy' : t.active y = true) (hheld : (G x).held = [l₀])
    (hlent : (G y).held = [l₀]) (hl : s.holder l₀ = some x) :
    (∀ b l, t.holder l = some b → t.active b = true ∧ l ∈ (update G x g b).held) ∧
      ∀ b l, t.active b = true → l ∈ (update G x g b).held → l.isPage = false → t.holder l = some b := by
  refine ⟨fun b l hlb => ?_, fun b l hb hlb hpage => ?_⟩
  · by_cases hll : l = l₀
    · subst hll
      rw [hholder, update_self] at hlb
      cases hlb
      rw [update_of_ne hyx, hlent]
      exact ⟨hy', List.mem_singleton_self _⟩
    · rw [hholder, update_of_ne hll] at hlb
      obtain ⟨hb, hm⟩ := h.held b l hlb
      have hbx : b ≠ x := by
        rintro rfl
        rw [hheld, List.mem_singleton] at hm
        exact hll hm
      have hby : b ≠ y := by
        rintro rfl
        rw [hy] at hb
        cases hb
      rw [hact b hbx hby, update_of_ne hbx]
      exact ⟨hb, hm⟩
  · have hbx : b ≠ x := by
      rintro rfl
      rw [hx] at hb
      cases hb
    rw [update_of_ne hbx] at hlb
    by_cases hby : b = y
    · subst hby
      rw [hlent, List.mem_singleton] at hlb
      rw [hlb, hholder, update_self]
    · rw [hact b hbx hby] at hb
      have hsl := h.mine b l hb hlb hpage
      have hll : l ≠ l₀ := by
        rintro rfl
        rw [hl] at hsl
        exact hbx (Option.some.inj hsl).symm
      rwa [hholder, update_of_ne hll]

/-- A process goes to the scheduler of its CPU, which gets the lock of the process. -/
theorem Sound.sched {p : Slot} {c : Fin NCPU} (hc : s.on c = some p)
    (hcode : s.code (.proc p) = .op .sched k) (hl : s.holder (.proc p) = some (.proc p)) :
    ∃ G', Sound (LockState.go { s with
      on := update s.on c none, holder := update s.holder (.proc p) (some (.cpu c)) } (.proc p) (k ())) G' := by
  have hsafe := h.code (.proc p)
  rw [hcode] at hsafe
  obtain ⟨p', hpp, hheld, -, hx⟩ := hsafe
  cases hpp
  set t := LockState.go { s with
    on := update s.on c none, holder := update s.holder (.proc p) (some (.cpu c)) } (.proc p) (k ()) with ht
  set g : Ctx := ⟨(G (.proc p)).held, update (G (.proc p)).know p (some .running)⟩
  have hg : g.know = update (G (.proc p)).know p (some .running) := rfl
  obtain ⟨hlent, hnone⟩ := h.lent c p hc
  have hon : t.on = update s.on c none := rfl
  have hholder : t.holder = update s.holder (.proc p) (some (.cpu c)) := rfl
  have hp : t.active (.proc p) = false := by
    rw [← Bool.not_eq_true, active_proc_iff]
    rintro ⟨c', hc'⟩
    by_cases hcc : c' = c
    · rw [hon, hcc, update_self] at hc'
      cases hc'
    · rw [hon, update_of_ne hcc] at hc'
      exact hcc (h.one c' c p hc' hc)
  have hcpu : t.active (.cpu c) = true := by simp [LockState.active, hon]
  -- whoever else has a CPU had it before, and the other way round
  have hact : ∀ b, b ≠ .proc p → b ≠ .cpu c → t.active b = s.active b := by
    intro b hb hbc
    cases b with
    | proc q =>
      refine active_proc_of_on hon ?_ (by simp)
      rw [hc]
      exact fun hq => hb (by rw [Option.some.inj hq])
    | cpu c' => exact active_cpu_of_ne hon fun hcc => hbc (by rw [hcc])
  have hrel : ∀ b q, Relies t (update G (.proc p) g) b q → Relies s G b q := by
    intro b q hr
    by_cases hb : b = .proc p
    · subst hb
      obtain ⟨hk, hr⟩ := hr
      rw [update_self] at hk
      have hne := hr.resolve_left (by rw [hp]; simp)
      refine ⟨?_, .inr hne⟩
      rwa [hg, update_of_ne fun hq => hne (by rw [hq])] at hk
    · obtain ⟨hk, hr⟩ := hr
      rw [update_of_ne hb] at hk
      refine ⟨hk, ?_⟩
      by_cases hbc : b = .cpu c
      · subst hbc
        exact .inr (by simp)
      · rwa [hact b hb hbc] at hr
  have hover := h.handOver (g := g) (x := .proc p) (y := .cpu c) (by simp) hholder hact hp (by simp [LockState.active, hc]) hcpu
    hheld hlent hl
  refine ⟨update G (.proc p) g, ?_⟩
  constructor
  case thread =>
    refine h.threads rfl (fun _ _ => rfl) ⟨hx, h.nodup _, fun q st hk => ?_, h.noff _⟩
    by_cases hq : q = p
    · left
      rw [hq]
      show _ ∈ (G (.proc p)).held
      rw [hheld]
      exact List.mem_singleton_self _
    · rw [hg, update_of_ne hq] at hk
      exact h.stable _ q st hk
  case held => exact hover.1
  case mine => exact hover.2
  case parked =>
    intro q hq
    by_cases hqp : q = p
    · subst hqp
      rw [update_self]
      exact ⟨hheld, by rw [hg, update_self]⟩
    · have hne : Agent.proc q ≠ .proc p := fun hqq => hqp (Agent.proc.inj hqq)
      rw [hact _ hne (by simp)] at hq
      rw [update_of_ne hne]
      exact h.parked q hq
  case lent =>
    intro c' q hc'
    have hcc : c' ≠ c := by
      rintro rfl
      rw [hon, update_self] at hc'
      cases hc'
    rw [hon, update_of_ne hcc] at hc'
    rw [update_of_ne (by simp)]
    exact h.lent c' q hc'
  case known =>
    intro b q st hk hb
    have hr := hrel b q ⟨by rw [hk]; simp, hb⟩
    by_cases hbp : b = .proc p
    · subst hbp
      have hne := hb.resolve_left (by rw [hp]; simp)
      rw [update_self, hg, update_of_ne fun hq => hne (by rw [hq])] at hk
      exact h.known _ q st hk hr.2
    · rw [update_of_ne hbp] at hk
      exact h.known b q st hk hr.2
  case sole => exact fun b b' q hb hb' => h.sole b b' q (hrel b q hb) (hrel b' q hb')
  case self =>
    intro q
    by_cases hqp : q = p
    · subst hqp
      rw [update_self, hg, update_self]
      simp
    · rw [update_of_ne fun hqq => hqp (Agent.proc.inj hqq)]
      exact h.self q
  case one =>
    have hs : ∀ c' q, t.on c' = some q → s.on c' = some q := by
      intro c' q hc'
      by_cases hcc : c' = c
      · rw [hon, hcc, update_self] at hc'
        cases hc'
      · rwa [hon, update_of_ne hcc] at hc'
    exact fun c1 c2 q h1 h2 => h.one c1 c2 q (hs c1 q h1) (hs c2 q h2)

theorem Sound.switchTo {c : Fin NCPU} (hc : s.on c = none)
    (hcode : s.code (.cpu c) = .op (.switchTo q) k) :
    ∃ G', Sound (LockState.go { s with
      on := update s.on c (some q), holder := update s.holder (.proc q) (some (.proc q)) }
        (.cpu c) (k ())) G' := by
  have hsafe := h.code (.cpu c)
  rw [hcode] at hsafe
  obtain ⟨-, hheld, hrun, hx⟩ := hsafe
  set t := LockState.go { s with
    on := update s.on c (some q), holder := update s.holder (.proc q) (some (.proc q)) }
      (.cpu c) (k ()) with ht
  set g : Ctx := ⟨(G (.cpu c)).held, update (G (.cpu c)).know q none⟩
  have hg : g.know = update (G (.cpu c)).know q none := rfl
  have hon : t.on = update s.on c (some q) := rfl
  have hholder : t.holder = update s.holder (.proc q) (some (.proc q)) := rfl
  have hac : s.active (.cpu c) = true := by simp [LockState.active, hc]
  have hrel₀ : Relies s G (.cpu c) q := ⟨by rw [hrun]; simp, .inl hac⟩
  have hq : s.active (.proc q) = false := by
    by_contra hact
    rw [Bool.not_eq_false] at hact
    cases h.sole (.cpu c) (.proc q) q hrel₀ ⟨h.self q, .inl hact⟩
  obtain ⟨hparked, hself⟩ := h.parked q hq
  have hl : s.holder (.proc q) = some (.cpu c) :=
    h.mine _ _ hac (by rw [hheld]; exact List.mem_singleton_self _) rfl
  have hcpu : t.active (.cpu c) = false := by simp [LockState.active, hon]
  have hact : ∀ b, b ≠ .proc q → b ≠ .cpu c → t.active b = s.active b := by
    intro b hb hbc
    cases b with
    | proc p =>
      refine active_proc_of_on hon (by rw [hc]; simp) ?_
      exact fun hp => hb (by rw [Option.some.inj hp])
    | cpu c' => exact active_cpu_of_ne hon fun hcc => hbc (by rw [hcc])
  -- the process relies on what the scheduler knew; everybody else on what they relied on
  have hrel : ∀ b r, Relies t (update G (.cpu c) g) b r →
      (b = .proc q ∧ r = q) ∨ (Relies s G b r ∧ ¬ (b = .cpu c ∧ r = q)) := by
    intro b r hr
    by_cases hbc : b = .cpu c
    · subst hbc
      obtain ⟨hk, -⟩ := hr
      rw [update_self, hg] at hk
      have hrq : r ≠ q := by
        rintro rfl
        simp at hk
      rw [update_of_ne hrq] at hk
      exact .inr ⟨⟨hk, .inl hac⟩, fun h => hrq h.2⟩
    · obtain ⟨hk, hr⟩ := hr
      rw [update_of_ne hbc] at hk
      by_cases hbq : b = .proc q
      · by_cases hrq : r = q
        · exact .inl ⟨hbq, hrq⟩
        · refine .inr ⟨⟨hk, .inr ?_⟩, fun h => hbc h.1⟩
          rw [hbq]
          exact fun h => hrq (Agent.proc.inj h).symm
      · rw [hact b hbq hbc] at hr
        exact .inr ⟨⟨hk, hr⟩, fun h => hbc h.1⟩
  have hover := h.handOver (g := g) (x := .cpu c) (y := .proc q) (by simp) hholder (fun b hc hq => hact b hq hc) hcpu hq
    (active_proc_iff.mpr ⟨c, by rw [hon, update_self]⟩) hheld hparked hl
  refine ⟨update G (.cpu c) g, ?_⟩
  constructor
  case thread =>
    refine h.threads rfl (fun _ _ => rfl) ⟨hx, h.nodup _, fun r st hk => ?_, h.noff _⟩
    have hrq : r ≠ q := by
      rintro rfl
      simp [hg] at hk
    rw [hg, update_of_ne hrq] at hk
    exact h.stable _ r st hk
  case held => exact hover.1
  case mine => exact hover.2
  case parked =>
    intro p hp
    have hpq : p ≠ q := by
      rintro rfl
      rw [← Bool.not_eq_true, active_proc_iff] at hp
      exact hp ⟨c, by rw [hon, update_self]⟩
    rw [hact _ (fun h => hpq (Agent.proc.inj h)) (by simp)] at hp
    rw [update_of_ne (by simp)]
    exact h.parked p hp
  case lent =>
    intro c' r hc'
    by_cases hcc : c' = c
    · subst hcc
      rw [hon, update_self] at hc'
      cases hc'
      rw [update_self]
      exact ⟨hheld, by rw [hg, update_self]⟩
    · rw [hon, update_of_ne hcc] at hc'
      rw [update_of_ne fun h => hcc (Agent.cpu.inj h)]
      exact h.lent c' r hc'
  case known =>
    intro b r st hk hb
    rcases hrel b r ⟨by rw [hk]; simp, hb⟩ with ⟨rfl, rfl⟩ | ⟨hr, hne⟩
    · rw [update_of_ne (by simp), hself] at hk
      rw [← Option.some.inj hk]
      exact h.known _ _ _ hrun (.inl hac)
    · by_cases hbc : b = .cpu c
      · subst hbc
        rw [update_self, hg, update_of_ne fun hrq => hne ⟨rfl, hrq⟩] at hk
        exact h.known _ r st hk hr.2
      · rw [update_of_ne hbc] at hk
        exact h.known b r st hk hr.2
  case sole =>
    intro b b' r hb hb'
    rcases hrel b r hb with ⟨rfl, rfl⟩ | ⟨hs, hne⟩ <;> rcases hrel b' r hb' with ⟨rfl, hrq⟩ | ⟨hs', hne'⟩
    · rfl
    · exact absurd ⟨h.sole b' _ _ hs' hrel₀, rfl⟩ hne'
    · subst hrq
      exact absurd ⟨h.sole b _ _ hs hrel₀, rfl⟩ hne
    · exact h.sole b b' r hs hs'
  case self =>
    intro p
    rw [update_of_ne (by simp)]
    exact h.self p
  case one =>
    have hs : ∀ c' p, t.on c' = some p → c' ≠ c → s.on c' = some p := by
      intro c' p hc' hcc
      rwa [hon, update_of_ne hcc] at hc'
    have hqs : ∀ c', s.on c' ≠ some q := by
      intro c' hc'
      have := active_proc_iff.mpr ⟨c', hc'⟩
      rw [hq] at this
      cases this
    have hcq : ∀ p, t.on c = some p → p = q := by
      intro p hp
      rw [hon, update_self] at hp
      exact (Option.some.inj hp).symm
    intro c1 c2 p h1 h2
    by_cases hc1 : c1 = c <;> by_cases hc2 : c2 = c
    · rw [hc1, hc2]
    · subst hc1
      rw [hcq p h1] at h2
      exact absurd (hs c2 q h2 hc2) (hqs c2)
    · subst hc2
      rw [hcq p h2] at h1
      exact absurd (hs c1 q h1 hc1) (hqs c1)
    · exact h.one c1 c2 p (hs c1 p h1 hc1) (hs c2 p h2 hc2)

/-- **Every step keeps the invariant**. -/
theorem Sound.step {act : Act} (hs : s.step act = some t) : ∃ G', Sound t G' := by
  cases act with
  | run a n =>
    rw [LockState.step] at hs
    split_ifs at hs with ha
    rw [LockState.run] at hs
    split at hs
    · rename_i l hcode
      obtain ⟨x, hx, rfl⟩ := Option.map_eq_some_iff.mp hs
      have hl := h.code a
      rw [hcode] at hl
      exact ⟨G, h.go ha (label_spec hx hl)⟩
    · rename_i c k hcode
      obtain ⟨⟨r, t'⟩, hr, rfl⟩ := Option.map_eq_some_iff.mp hs
      cases c with
      | acquire l =>
        simp only [LockState.exec] at hr
        split_ifs at hr with hl
        cases hr
        exact h.acquire ha hcode hl
      | release l =>
        simp only [LockState.exec] at hr
        split_ifs at hr with hl
        cases hr
        exact h.release ha hcode hl
      | initlock l =>
        cases hr
        exact h.initlock ha hcode
      | test q st =>
        cases hr
        exact h.test ha hcode
      | set q st =>
        cases hr
        exact h.set ha hcode
      | ask =>
        cases hr
        have hl := h.code a
        rw [hcode] at hl
        exact ⟨G, h.go ha (hl _)⟩
      | count =>
        cases hr
        have hl := h.code a
        rw [hcode] at hl
        exact ⟨G, h.go ha (hl _)⟩
      | start q =>
        cases hr
        exact h.start ha hcode
      | sched =>
        cases a with
        | cpu c => cases hr
        | proc p =>
          simp only [LockState.exec] at hr
          split_ifs at hr with hl
          obtain ⟨c, hc, hr⟩ := Option.map_eq_some_iff.mp hr
          cases hr
          have hon : s.on c = some p := by
            have := List.find?_some hc
            simpa using this
          exact h.sched hon hcode hl.1
      | switchTo q =>
        cases a with
        | proc p => cases hr
        | cpu c =>
          cases hr
          refine h.switchTo ?_ hcode
          simpa [LockState.active] using ha
      | panic => cases hr
  | begin p call =>
    simp only [LockState.step] at hs
    split at hs
    · rename_i hcode
      split_ifs at hs with ha
      cases hs
      have hl := h.code (.proc p)
      rw [hcode] at hl
      refine ⟨G, h.go ha ?_⟩
      rw [show G (.proc p) = _ from hl]
      exact call_spec call
    · cases hs
  | interrupt a c =>
    simp only [LockState.step] at hs
    split_ifs at hs with ha
    cases hs
    have hheld : (G a).held = [] := List.eq_nil_of_length_eq_zero ((h.noff a).symm.trans ha.2)
    refine ⟨G, h.go ha.1 (wp_bind.mpr (wp_wakeupOn hheld (fun q st _ hk => ?_) (h.code a)))⟩
    refine (h.stable a q st hk).resolve_left ?_
    rw [hheld]
    exact List.not_mem_nil
  | timer p =>
    simp only [LockState.step] at hs
    split_ifs at hs with ha
    cases hs
    have hheld : (G (.proc p)).held = [] := List.eq_nil_of_length_eq_zero ((h.noff _).symm.trans ha.2)
    refine ⟨G, h.go ha.1 (wp_bind.mpr ?_)⟩
    obtain ⟨st, hst⟩ := Option.ne_none_iff_exists'.mp (h.self p)
    have hrun : (G (.proc p)).know p = some .running := by
      rcases h.stable _ p st hst with hm | ⟨-, hne⟩ | ⟨rfl, -⟩
      · rw [hheld] at hm
        cases hm
      · exact absurd rfl hne
      · exact hst
    have hx := h.code (.proc p)
    cases hG : G (.proc p) with
    | mk held know =>
      rw [hG] at hheld hrun hx
      dsimp only at hheld hrun
      subst hheld
      exact wp_yield hrun hx

end Steps

/-! ### Every reachable state -/

theorem sound_boot : Sound .boot fun a =>
    match a with
    | .proc p => ⟨[.proc p], selfKnow p⟩
    | .cpu _ => ⟨[], fun _ => none⟩ := by
  have hactive : ∀ p, LockState.boot.active (.proc p) = false := by
    intro p
    rw [← Bool.not_eq_true, active_proc_iff]
    rintro ⟨c, hc⟩
    cases hc
  have hcpu : ∀ b : Agent, LockState.boot.active b = true → ∃ c, b = .cpu c := by
    intro b hb
    cases b with
    | proc p =>
      rw [hactive p] at hb
      cases hb
    | cpu c => exact ⟨c, rfl⟩
  have hrel : ∀ a q, ¬ Relies .boot (fun a =>
      match a with
      | .proc p => ⟨[.proc p], selfKnow p⟩
      | .cpu _ => ⟨[], fun _ => none⟩) a q := by
    rintro a q ⟨hk, hq⟩
    cases a with
    | proc p =>
      by_cases hqp : q = p
      · subst hqp
        rw [hactive q] at hq
        simp at hq
      · exact hk (selfKnow_of_ne hqp)
    | cpu c => exact hk rfl
  constructor
  case thread =>
    intro a
    cases a with
    | proc p =>
      refine ⟨?_, List.nodup_singleton _, fun q st hk => ?_, rfl⟩
      · simp only [LockState.boot]
        split_ifs
        · exact forkret_spec
        · exact wp_panic
      · by_cases hqp : q = p
        · rw [hqp]
          exact .inl (List.mem_singleton_self _)
        · dsimp only at hk
          rw [selfKnow_of_ne hqp] at hk
          cases hk
    | cpu c =>
      refine ⟨rfl, List.nodup_nil, fun q st hk => ?_, rfl⟩
      cases hk
  case held =>
    intro a l hl
    cases hl
  case mine =>
    intro b l hb hl
    obtain ⟨c, rfl⟩ := hcpu b hb
    cases hl
  case parked => exact fun p _ => ⟨rfl, selfKnow_self p⟩
  case lent =>
    intro c q hc
    cases hc
  case known => exact fun a q st hk hq => absurd ⟨by rw [hk]; simp, hq⟩ (hrel a q)
  case sole => exact fun a b q ha => absurd ha (hrel a q)
  case self =>
    intro p
    simp
  case one =>
    intro c c' p hc
    cases hc

/-- **The invariant**. -/
theorem sound_of_reachable {s : LockState} (h : lockMachine.Reachable s) : ∃ G, Sound s G := by
  apply Reachable.invariant (I := fun s => ∃ G, Sound s G) _ _ h
  · rintro s rfl
    exact ⟨_, sound_boot⟩
  · rintro s act t _ ⟨G, hG⟩ hs
    exact hG.step hs

end Xv6Shmem.Locking
