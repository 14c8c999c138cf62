import Mathlib.Init

/-!
# Programs over an interface

A program issues commands and goes on with the answers: it is a tree whose inner nodes are
commands, with a branch for each answer, and whose leaves are results. Nothing is said here
about what a command does. A machine gives the commands a meaning and runs programs step by
step, alone or interleaved with others; a proof gives each command a rule, and `wp` carries
the rules through a program.

A rule takes what is wanted after the command, for each answer, to what is needed before it.
It speaks of whatever the proof keeps track of, a type `γ`, which need not be the machine's
state.

## What is proved

* `wp_bind` — sequences; `wp_forM` — loops, from what each turn keeps.
* `wp_mono` — what is wanted may be weakened, if the rules allow it.
* `only_bind` — programs that issue certain commands only.

The rules of an `Account` say what is needed for a command, which answers are possible, and what
is tracked afterwards, each on its own.
-/

variable {C : Type} {R : C → Type} {α β γ : Type}

/-- A program: it returns, or issues a command and goes on with the answer. -/
inductive Prog {C : Type} (R : C → Type) (α : Type) : Type where
  /-- The result. -/
  | ret (a : α)
  /-- A command, and what comes after it. -/
  | op (c : C) (k : R c → Prog R α)

namespace Prog

/-- One program after another. -/
def bind (x : Prog R α) (f : α → Prog R β) : Prog R β :=
  match x with
  | .ret a => f a
  | .op c k => .op c fun r => (k r).bind f

/-- A single command. -/
def call (c : C) : Prog R (R c) := .op c .ret

instance : Monad (Prog R) where
  pure := .ret
  bind := bind

theorem op_bind (c : C) (k : R c → Prog R α) (f : α → Prog R β) :
    (Prog.op c k >>= f) = .op c fun r => k r >>= f := rfl

theorem bind_ret (x : Prog R α) : (x >>= Prog.ret) = x := by
  induction x with
  | ret a => rfl
  | op c k ih => exact congrArg (Prog.op c) (funext ih)

theorem bind_bind (x : Prog R α) (f : α → Prog R β) {δ : Type} (g : β → Prog R δ) :
    (x >>= f >>= g) = x >>= fun a => f a >>= g := by
  induction x with
  | ret a => rfl
  | op c k ih => exact congrArg (Prog.op c) (funext ih)

instance : LawfulMonad (Prog R) :=
  LawfulMonad.mk' (Prog R) (fun x => bind_ret x) (fun _ _ => rfl) fun x f g => bind_bind x f g

/-! ### Rules -/

/-- A rule for each command. -/
abbrev Rules {C : Type} (R : C → Type) (γ : Type) := (c : C) → (R c → γ → Prop) → γ → Prop

/-- What is needed before a program so that `Q` holds of its result and of what is tracked after it. -/
def wp (S : Rules R γ) : Prog R α → (α → γ → Prop) → γ → Prop
  | .ret a, Q, g => Q a g
  | .op c k, Q, g => S c (fun r => (k r).wp S Q) g

variable {S : Rules R γ} {g : γ} {Q : α → γ → Prop} {c : C} {P : C → Prop}

theorem wp_pure {a : α} : (pure a : Prog R α).wp S Q g ↔ Q a g := Iff.rfl

theorem wp_op {k : R c → Prog R α} :
    (Prog.op c k).wp S Q g ↔ S c (fun r => (k r).wp S Q) g := Iff.rfl

/-- **A sequence**. -/
theorem wp_bind {x : Prog R α} {f : α → Prog R β} {Q : β → γ → Prop} :
    (x >>= f).wp S Q g ↔ x.wp S (fun a => (f a).wp S Q) g := by
  induction x generalizing g with
  | ret a => rfl
  | op c k ih =>
    have hk : (fun r => (k r >>= f).wp S Q) = fun r => (k r).wp S fun a => (f a).wp S Q := by
      funext r g'
      exact propext (ih r)
    rw [op_bind, wp_op, wp_op, hk]

/-- The rules keep what follows from what is wanted. -/
def Monotone (S : Rules R γ) : Prop :=
  ∀ c (Q Q' : R c → γ → Prop) g, (∀ r g', Q r g' → Q' r g') → S c Q g → S c Q' g

/-- **Weakening**. -/
theorem wp_mono (hS : Monotone S) {x : Prog R α} {Q Q' : α → γ → Prop} (hQ : ∀ a g', Q a g' → Q' a g')
    (h : x.wp S Q g) : x.wp S Q' g := by
  induction x generalizing g with
  | ret a => exact hQ a g h
  | op c k ih => exact hS c _ _ g (fun r g' hr => ih r hr) h

/-- **A loop**: what each turn keeps, the loop keeps. -/
theorem wp_forM {ι : Type} (hS : Monotone S) {xs : List ι} {f : ι → Prog R PUnit} {I : γ → Prop}
    (hf : ∀ x ∈ xs, ∀ g, I g → (f x).wp S (fun _ => I) g) (h : I g) : (forM xs f : Prog R PUnit).wp S (fun _ => I) g := by
  induction xs generalizing g with
  | nil => exact h
  | cons x xs ih =>
    rw [List.forM_cons, wp_bind]
    refine wp_mono hS (fun _ g' hg' => ?_) (hf x List.mem_cons_self g h)
    exact ih (fun y hy => hf y (List.mem_cons_of_mem _ hy)) hg'

/-! ### Commands that a program issues -/

/-- A program that only issues commands of which `P` holds. -/
def Only (P : C → Prop) : Prog R α → Prop
  | .ret _ => True
  | .op c k => P c ∧ ∀ r, (k r).Only P

theorem only_pure (a : α) : (pure a : Prog R α).Only P := trivial

theorem only_call (h : P c) : (call c : Prog R (R c)).Only P := ⟨h, fun _ => trivial⟩

theorem only_bind {x : Prog R α} {f : α → Prog R β} (hx : x.Only P) (hf : ∀ a, (f a).Only P) :
    (x >>= f).Only P := by
  induction x with
  | ret a => exact hf a
  | op c k ih => exact ⟨hx.1, fun r => ih r (hx.2 r)⟩

/-! ### Accounts -/

/-- What is tracked is a function of the commands and the answers. -/
structure Account {C : Type} (R : C → Type) (γ : Type) where
  /-- What is needed for a command. -/
  req : C → γ → Prop
  /-- The answers that are possible. -/
  can : (c : C) → R c → γ → Prop
  /-- What is tracked after the command. -/
  after : (c : C) → R c → γ → γ

/-- The rules of an account. -/
def Account.rules (A : Account R γ) : Rules R γ := fun c Q g => A.req c g ∧ ∀ r, A.can c r g → Q r (A.after c r g)

end Prog
