import Mathlib.Init

/-!
# Outcomes of programs that may fail

`Outcome Q E x` says what a program that may fail does: if `x` returns a value, the value
has `Q`, and if it fails, its error has `E`. So one statement about a program says both
what it computes and how it can go wrong; with `E` empty it cannot.

The rules follow the program: one for a sequence, one for a loop over a list.
-/

universe u v w

variable {α : Type u} {β : Type v} {ι : Type w} {ε : Type}

/-- What `x` returns has `Q`, and what it fails with has `E`. -/
inductive Outcome (Q : α → Prop) (E : ε → Prop) : Except ε α → Prop where
  /-- It returns. -/
  | ok {a : α} : Q a → Outcome Q E (.ok a)
  /-- It fails. -/
  | error {e : ε} : E e → Outcome Q E (.error e)

namespace Outcome

variable {Q Q' : α → Prop} {E E' : ε → Prop} {x : Except ε α}

theorem mono (h : Outcome Q E x) (hQ : ∀ a, Q a → Q' a) (hE : ∀ e, E e → E' e) : Outcome Q' E' x := by
  cases h with
  | ok ha => exact .ok (hQ _ ha)
  | error he => exact .error (hE _ he)

theorem imp (h : Outcome Q E x) (hQ : ∀ a, Q a → Q' a) : Outcome Q' E x := h.mono hQ fun _ he => he

/-- **A sequence**: the first part, then the second from what the first returned. -/
theorem bind {γ : Type u} {R : γ → Prop} {y : Except ε γ} {f : γ → Except ε α} (hy : Outcome R E y)
    (hf : ∀ c, R c → Outcome Q E (f c)) : Outcome Q E (y >>= f) := by
  cases hy with
  | ok hc => exact hf _ hc
  | error he => exact .error he

/-- **A loop**: what each turn keeps, the loop keeps. -/
theorem foldlM {f : α → ι → Except ε α} {l : List ι} {s : α} (hs : Q s)
    (hf : ∀ i ∈ l, ∀ s, Q s → Outcome Q E (f s i)) : Outcome Q E (l.foldlM f s) := by
  induction l generalizing s with
  | nil => exact .ok hs
  | cons i l ih =>
    rw [List.foldlM_cons]
    exact bind (hf i List.mem_cons_self s hs) fun s' hs' =>
      ih hs' fun j hj => hf j (List.mem_cons_of_mem _ hj)

theorem bind_ok {γ : Type u} {y : Except ε γ} {f : γ → Except ε α} {a : α} (h : y >>= f = .ok a) :
    ∃ c, y = .ok c ∧ f c = .ok a := by
  cases y with
  | ok c => exact ⟨c, rfl, h⟩
  | error e => cases h

theorem of_ok {a : α} (h : Outcome Q E x) (hx : x = .ok a) : Q a := by
  subst hx
  cases h with
  | ok ha => exact ha

theorem of_error {e : ε} (h : Outcome Q E x) (hx : x = .error e) : E e := by
  subst hx
  cases h with
  | error he => exact he

/-- A program that cannot fail returns. -/
theorem exists_ok (h : Outcome Q (fun _ => False) x) : ∃ a, x = .ok a ∧ Q a := by
  cases h with
  | ok ha => exact ⟨_, rfl, ha⟩
  | error he => exact he.elim

end Outcome
