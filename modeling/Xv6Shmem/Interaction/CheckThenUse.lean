import Xv6Shmem.Interaction.Children

/-!
# Check, then use

`shmem_write_int` and `shmem_read_int` look at the state of the page and at the access of
the process, and store or load after that, without `state_lock`. Nothing that would matter
to them happens in between: the process is counted as a user of the page, so nobody finds
the counter at `0` and clears the page, and nobody finds the page `NOT_SET` and sets it.

That rests on the counter, so on no update being lost. The critical sections of
`state_lock` and the updates of `fork` are taken as atomic: while one process is inside,
no other takes a step.
-/

namespace Xv6Shmem.Interaction

open Kernel Tally LTS

/-- The process holds `state_lock` of a page, or is in `fork` between the flag of the child and the counter. -/
def Pc.inside : Pc → Bool
  | .enter _ _ | .mark _ _ | .marked _ _ | .load _ _ | .store _ _ _ | .finish _ _ | .leave _ _ | .unlock _ _
  | .forkLoad _ _ | .forkStore _ _ _ => true
  | _ => false

/-- A step is taken while no other process is inside a critical section or an update of `fork`. -/
def SectionsAtomic (s : IState) (e : Slot × Act) : Prop := ∀ q, q ≠ e.1 → (s.pc q).inside = false

instance (s : IState) (e : Slot × Act) : Decidable (SectionsAtomic s e) := inferInstanceAs (Decidable (∀ _, _))

theorem Pc.inside_of_loaded {c : Pc} {i : PageNo} (h : c.loaded = some i) : c.inside = true := by
  cases c <;> cases h <;> rfl

theorem Pc.loaded_of_forkLoaded {c : Pc} {i : PageNo} (h : c.forkLoaded = some i) : c.loaded = some i := by
  cases c <;> cases h
  rfl

theorem SectionsAtomic.updatesApart {s : IState} {e : Slot × Act} (h : SectionsAtomic s e) : UpdatesApart s e := by
  have hnone : ∀ q i, (s.pc e.1).loaded = none → (s.pc q).loaded ≠ some i := fun q i he hq => by
    by_cases hqe : q = e.1
    · rw [hqe, he] at hq
      cases hq
    · have hin := h q hqe
      rw [Pc.inside_of_loaded hq] at hin
      cases hin
  intro _ i
  constructor
  · intro hl q hq
    refine hnone q i ?_ (Pc.loaded_of_forkLoaded hq)
    revert hl
    cases s.pc e.1 <;> first | exact fun _ => rfl | nofun
  · intro hl q
    refine hnone q i ?_
    revert hl
    cases s.pc e.1 <;> first | exact fun _ => rfl | nofun

theorem Pc.saw_of_passed {c : Pc} {x : PageNo × PageState} (h : c.passed = some x) : c.saw = some x := by
  cases c <;> cases h <;> rfl

/-- Behind the check of the access, the process has access. -/
theorem Placed.access_of_passed {s : IState} {p : Slot} {i : PageNo} {st : PageState} (h : Placed s)
    (hp : (s.pc p).passed = some (i, st)) : (s.kern.proc p).shmemAccess i = true := by
  have ha := h.here p
  revert hp ha
  cases s.pc p with
  | writeChecked j _ _ => rintro ⟨⟩ ha; exact ha
  | writeLock j _ _ => rintro ⟨⟩ ha; exact ha
  | writeStore j _ _ => rintro ⟨⟩ ha; exact ha
  | readState j _ _ => rintro ⟨⟩ ha; exact ha
  | readLock j _ _ => rintro ⟨⟩ ha; exact ha
  | readLoad j _ _ _ => rintro ⟨⟩ ha; exact ha
  | _ => rintro ⟨⟩

/-- The first process sets page `0` and forks. The child checks, to write; then the first process gives its
access up. -/
def releaseDuringWrite : List (Slot × Act) :=
  (0, .call (.set true) 0) :: steps 8 0 ++ (0, .fork 1) :: steps 11 0 ++ (1, .write 0 3 7) :: steps 3 1 ++
    (0, .call .release 0) :: steps 8 0

end Xv6Shmem.Interaction
