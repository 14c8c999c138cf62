import Xv6Shmem.Theory.Program

/-!
# Programs that run alone

A machine that runs a single program gives every command an answer and a next state, or stops
with a fault. `run` runs a program on it. The rules of such a machine are exact: what is wanted
after a command must hold of the answer and the state that it leads to, and the faults that may
happen are those of a set `E`.

## What is proved

* `wp_exact_iff` — the rules carried through a program say what its run does.
* `wp_of_account` — what an `Account` says of a program is so of its run, if the account is right
  about each command.
* `post_of_guarded` — the rules with a condition on each command say what the run does, also if it ends with
  a fault.
-/

namespace Prog

variable {C : Type} {R : C → Type} {α β σ ε γ : Type}

/-- What each command does. -/
abbrev Exec {C : Type} (R : C → Type) (σ ε : Type) := (c : C) → σ → Except ε (R c × σ)

/-- The run of a program. -/
def run (exec : Exec R σ ε) : Prog R α → σ → Except ε (α × σ)
  | .ret a, s => .ok (a, s)
  | .op c k, s =>
    match exec c s with
    | .ok (r, t) => (k r).run exec t
    | .error e => .error e

/-- `Q` holds of an outcome, if it is none of the faults in `E`. -/
def Post (E : ε → Prop) (Q : α → σ → Prop) : Except ε (α × σ) → Prop
  | .ok (a, t) => Q a t
  | .error e => E e

/-- The rules of a machine. -/
def exact (exec : Exec R σ ε) (E : ε → Prop) : Rules R σ := fun c Q s => Post E Q (exec c s)

variable {exec : Exec R σ ε} {E : ε → Prop} {s t : σ} {x : Prog R α}

theorem Post.mono {Q Q' : α → σ → Prop} {x : Except ε (α × σ)} (h : Post E Q x) (hQ : ∀ a t, Q a t → Q' a t) : Post E Q' x := by
  cases x with
  | error e => exact h
  | ok y => exact hQ y.1 y.2 h

theorem monotone_exact : Monotone (exact exec E) := fun _ _ _ _ hQ h => h.mono hQ

/-- **The rules say what the run does**. -/
theorem wp_exact_iff {Q : α → σ → Prop} : x.wp (exact exec E) Q s ↔ Post E Q (x.run exec s) := by
  induction x generalizing s with
  | ret a => rfl
  | op c k ih =>
    rw [wp_op, exact, run]
    cases exec c s with
    | error e => rfl
    | ok y => exact ih y.1

/-- Weakening. -/
theorem wp_exact_mono {Q Q' : α → σ → Prop} (h : x.wp (exact exec E) Q s) (hQ : ∀ a t, Q a t → Q' a t) :
    x.wp (exact exec E) Q' s :=
  wp_mono monotone_exact hQ h

/-- A sequence, from what is known of its first part. -/
theorem wp_bind_of {f : α → Prog R β} {P : α → σ → Prop} {Q : β → σ → Prop} (hx : x.wp (exact exec E) P s)
    (hf : ∀ a t, P a t → (f a).wp (exact exec E) Q t) : (x >>= f).wp (exact exec E) Q s :=
  wp_bind.mpr (wp_exact_mono hx hf)

/-- The account `A` is right about the machine, where `Rel` relates states and what is tracked. -/
def Account.Sound (A : Account R γ) (exec : Exec R σ ε) (Rel : σ → γ → Prop) : Prop :=
  ∀ c s g r t, Rel s g → A.req c g → exec c s = .ok (r, t) → A.can c r g ∧ Rel t (A.after c r g)

/-- **What an account says of a program** is so of its run. -/
theorem wp_of_account {A : Account R γ} {Rel : σ → γ → Prop} (hA : A.Sound exec Rel) {Q : α → γ → Prop} {g : γ}
    (h : x.wp A.rules Q g) (hs : Rel s g) :
    x.wp (exact exec fun _ => True) (fun a t => ∃ g', Rel t g' ∧ Q a g') s := by
  induction x generalizing s g with
  | ret a => exact ⟨g, hs, h⟩
  | op c k ih =>
    obtain ⟨hreq, hall⟩ := h
    rw [wp_op, exact]
    cases hc : exec c s with
    | error e => trivial
    | ok y =>
      obtain ⟨hcan, hrel⟩ := hA c s g y.1 y.2 hs hreq hc
      exact ih y.1 (hall y.1 hcan) hrel

/-! ### Conditions on commands -/

/-- The rules of a machine, with a condition `W` on each command and the state in which it is done. -/
def guarded (exec : Exec R σ ε) (E : ε → Prop) (W : C → σ → Prop) : Rules R σ := fun c Q s => W c s ∧ Post E Q (exec c s)

variable {W : C → σ → Prop}

theorem monotone_guarded : Monotone (guarded exec E W) := fun _ _ _ _ hQ h => ⟨h.1, h.2.mono hQ⟩

/-- **The rules with conditions say what the run does**. -/
theorem post_of_guarded {Q : α → σ → Prop} (h : x.wp (guarded exec E W) Q s) : Post E Q (x.run exec s) := by
  induction x generalizing s with
  | ret a => exact h
  | op c k ih =>
    obtain ⟨-, h⟩ := h
    rw [run]
    cases hc : exec c s with
    | error e =>
      rw [hc] at h
      exact h
    | ok y =>
      rw [hc] at h
      exact ih y.1 h

/-- **What the commands of a program keep**, the program keeps. -/
theorem wp_of_only {P : C → Prop} {I : σ → Prop} (hE : ∀ e, E e) (hW : ∀ c s, P c → W c s)
    (hI : ∀ c s r t, P c → I s → exec c s = .ok (r, t) → I t) (hx : x.Only P) (hs : I s) :
    x.wp (guarded exec E W) (fun _ => I) s := by
  induction x generalizing s with
  | ret a => exact hs
  | op c k ih =>
    refine ⟨hW c s hx.1, ?_⟩
    cases hc : exec c s with
    | error e => exact hE e
    | ok y => exact ih y.1 (hx.2 y.1) (hI c s y.1 y.2 hx.1 hs hc)

end Prog
