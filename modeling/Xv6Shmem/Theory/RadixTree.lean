import Mathlib.Data.List.FinRange
import Mathlib.Logic.Function.Basic
import Xv6Shmem.Theory.Outcome

/-!
# Tables of tables

A radix tree of fixed depth: a table at level `0` has values in its entries, a table at
a higher level has tables of the level below. Each table has a name, the place it is
kept in. A key gives the entry to take at each level.

Tables are made and removed through a store `σ` that the caller supplies: `grow` makes
the tables on the way to a key, taking a name from the store for each and stopping where
it has none left, and `drain` gives the names of all tables back.

## What is proved

* `lookup_set_self`, `lookup_set_of_ne`, `lookup_grow` — read as a map from keys to
  values, a tree is changed by a write at the key written and nowhere else, and is not
  changed by making tables.
* `grow_flag` — `grow` goes through exactly if the store has enough names.
* `grow_rule`, `drain_outcome` — what the store keeps with every name it gives and gets
  back, it keeps through `grow` and `drain`; and a tree without values can be taken apart.
-/

namespace Radix

open Function

/-- A table at level `n`: its name, and its `w` entries. -/
def Table (w : ℕ) (α β : Type) : ℕ → Type
  | 0 => β × (Fin w → Option α)
  | n + 1 => β × (Fin w → Option (Table w α β n))

namespace Table

variable {w : ℕ} {α β σ ε : Type}

/-- A table with no entries. -/
def empty (b : β) : (n : ℕ) → Table w α β n
  | 0 => (b, fun _ => none)
  | _ + 1 => (b, fun _ => none)

/-- The value at a key. -/
def lookup (k : ℕ → Fin w) : (n : ℕ) → Table w α β n → Option α
  | 0, t => t.2 (k 0)
  | n + 1, t => (t.2 (k (n + 1))).bind (lookup k n)

/-- All the tables on the way to a key are there. -/
def reaches (k : ℕ → Fin w) : (n : ℕ) → Table w α β n → Bool
  | 0, _ => true
  | n + 1, t => (t.2 (k (n + 1))).any (reaches k n)

/-- Write the value at a key, if all the tables on the way to it are there. -/
def set (k : ℕ → Fin w) (v : Option α) : (n : ℕ) → Table w α β n → Table w α β n
  | 0, t => (t.1, update t.2 (k 0) v)
  | n + 1, t => (t.1, update t.2 (k (n + 1)) ((t.2 (k (n + 1))).map (set k v n)))

/-- Make the tables on the way to a key that are not there, from the top down. The tables
made stay if the store runs out of names; the flag says whether it did not. -/
def grow (take : σ → Option (β × σ)) (k : ℕ → Fin w) :
    (n : ℕ) → Table w α β n → σ → Bool × Table w α β n × σ
  | 0, t, s => (true, t, s)
  | n + 1, t, s =>
    match t.2 (k (n + 1)) with
    | some c =>
      let r := grow take k n c s
      (r.1, (t.1, update t.2 (k (n + 1)) (some r.2.1)), r.2.2)
    | none =>
      match take s with
      | none => (false, t, s)
      | some (b, s) =>
        let r := grow take k n (empty b n) s
        (r.1, (t.1, update t.2 (k (n + 1)) (some r.2.1)), r.2.2)

/-- How many tables on the way to a key are not there. -/
def missing (k : ℕ → Fin w) : (n : ℕ) → Table w α β n → ℕ
  | 0, _ => 0
  | n + 1, t =>
    match t.2 (k (n + 1)) with
    | some c => missing k n c
    | none => n + 1

/-- Take a tree apart, a table after those below it; a value left in it is an error. -/
def drain (give : β → σ → Except ε σ) (bad : ε) : (n : ℕ) → Table w α β n → σ → Except ε σ
  | 0, t, s => if ∀ i, (t.2 i).isNone then give t.1 s else .error bad
  | n + 1, t, s => do
    let s ← (List.finRange w).foldlM (fun s i =>
      match t.2 i with
      | none => .ok s
      | some c => drain give bad n c s) s
    give t.1 s

/-- The names of all tables satisfy `P`. -/
def All (P : β → Prop) : (n : ℕ) → Table w α β n → Prop
  | 0, t => P t.1
  | n + 1, t => P t.1 ∧ ∀ i c, t.2 i = some c → All P n c

/-! ### The tree as a map -/

section Map

variable {k k' : ℕ → Fin w}

theorem lookup_empty (b : β) (n : ℕ) : lookup k n (empty b n : Table w α β n) = none := by
  cases n <;> rfl

theorem reaches_of_lookup {n : ℕ} {t : Table w α β n} {v : α} (h : lookup k n t = some v) :
    reaches k n t = true := by
  induction n with
  | zero => rfl
  | succ n ih =>
    obtain ⟨c, hc, hv⟩ := Option.bind_eq_some_iff.mp h
    rw [reaches, hc]
    exact ih hv

/-- A write is read back. -/
theorem lookup_set_self {v : Option α} {n : ℕ} {t : Table w α β n} (h : reaches k n t = true) :
    lookup k n (set k v n t) = v := by
  induction n with
  | zero => simp [lookup, set]
  | succ n ih =>
    rw [reaches, Option.any_eq_true] at h
    obtain ⟨c, hc, hr⟩ := h
    simp only [lookup, set, update_self, hc, Option.map_some, Option.bind_some]
    exact ih hr

/-- A write is not seen at another key. -/
theorem lookup_set_of_ne {v : Option α} {n : ℕ} {t : Table w α β n} (h : ∃ l ≤ n, k l ≠ k' l) :
    lookup k' n (set k v n t) = lookup k' n t := by
  induction n with
  | zero =>
    obtain ⟨l, hl, hne⟩ := h
    rw [Nat.le_zero.mp hl] at hne
    simp [lookup, set, update_of_ne (Ne.symm hne)]
  | succ n ih =>
    by_cases htop : k (n + 1) = k' (n + 1)
    · -- the same entry here, so the keys differ further down
      have hlow : ∃ l ≤ n, k l ≠ k' l := by
        obtain ⟨l, hl, hne⟩ := h
        refine ⟨l, Nat.le_of_lt_succ (lt_of_le_of_ne hl ?_), hne⟩
        rintro rfl
        exact hne htop
      simp only [lookup, set, htop, update_self]
      cases t.2 (k' (n + 1)) with
      | none => rfl
      | some c => exact ih hlow
    · simp only [lookup, set, update_of_ne (Ne.symm htop)]

end Map

/-! ### Making tables -/

section Grow

variable {take : σ → Option (β × σ)} {k k' : ℕ → Fin w}

variable {n : ℕ} {t : Table w α β n}

/-- Making tables does not change the map. -/
theorem lookup_grow {s : σ} :
    lookup k' n (grow take k n t s).2.1 = lookup k' n t := by
  induction n generalizing s with
  | zero => rfl
  | succ n ih =>
    cases hc : t.2 (k (n + 1)) with
    | some c =>
      simp only [grow, hc, lookup]
      by_cases htop : k' (n + 1) = k (n + 1)
      · rw [htop, update_self, hc]
        exact ih
      · rw [update_of_ne htop]
    | none =>
      cases hs : take s with
      | none => simp only [grow, hc, hs]
      | some x =>
        simp only [grow, hc, hs, lookup]
        by_cases htop : k' (n + 1) = k (n + 1)
        · rw [htop, update_self, hc, Option.bind_some, ih, lookup_empty]
          rfl
        · rw [update_of_ne htop]

/-- If the names lasted, all the tables on the way are there. -/
theorem reaches_grow {s : σ} (h : (grow take k n t s).1 = true) :
    reaches k n (grow take k n t s).2.1 = true := by
  induction n generalizing s with
  | zero => rfl
  | succ n ih =>
    cases hc : t.2 (k (n + 1)) with
    | some c =>
      simp only [grow, hc] at h ⊢
      simp only [reaches, update_self, Option.any_some]
      exact ih h
    | none =>
      cases hs : take s with
      | none =>
        simp only [grow, hc, hs] at h
        cases h
      | some x =>
        simp only [grow, hc, hs] at h ⊢
        simp only [reaches, update_self, Option.any_some]
        exact ih h

theorem missing_empty (b : β) (n : ℕ) : missing k n (empty b n : Table w α β n) = n := by
  cases n <;> rfl

/-- The names last exactly if the store has as many as there are tables missing. -/
theorem grow_flag (room : σ → ℕ) (hnone : ∀ s, take s = none → room s = 0)
    (hsome : ∀ s b s', take s = some (b, s') → room s = room s' + 1) {s : σ} :
    (grow take k n t s).1 = true ↔ missing k n t ≤ room s := by
  induction n generalizing s with
  | zero => simp [grow, missing]
  | succ n ih =>
    cases hc : t.2 (k (n + 1)) with
    | some c =>
      simp only [grow, missing, hc]
      exact ih
    | none =>
      cases hs : take s with
      | none =>
        simp only [grow, missing, hc, hs, hnone s hs]
        simp
      | some x =>
        simp only [grow, missing, hc, hs]
        rw [ih, missing_empty, hsome s x.1 x.2 hs]
        omega

theorem all_empty {P : β → Prop} {b : β} (h : P b) (n : ℕ) : All P n (empty b n : Table w α β n) := by
  cases n with
  | zero => exact h
  | succ n => exact ⟨h, nofun⟩

theorem All.update {P : β → Prop} {t : Table w α β (n + 1)} (h : All P (n + 1) t) {i : Fin w}
    {c : Option (Table w α β n)} (hc : ∀ d, c = some d → All P n d) :
    All P (n + 1) ((t.1, Function.update t.2 i c) : Table w α β (n + 1)) := by
  refine ⟨h.1, fun j d (hd : Function.update t.2 i c j = some d) => ?_⟩
  by_cases hj : j = i
  · rw [hj, update_self] at hd
    exact hc d hd
  · rw [update_of_ne hj] at hd
    exact h.2 j d hd

/-- **The rule for making tables**: what the store keeps while it gives names with `P`, it keeps
through `grow`, and the names in the tree have `P`. -/
theorem grow_rule {I : σ → Prop} {P : β → Prop}
    (htake : ∀ s b s', I s → take s = some (b, s') → P b ∧ I s') {s : σ}
    (ht : All P n t) (hs : I s) :
    All P n (grow take k n t s).2.1 ∧ I (grow take k n t s).2.2 := by
  induction n generalizing s with
  | zero => exact ⟨ht, hs⟩
  | succ n ih =>
    cases hc : t.2 (k (n + 1)) with
    | some c =>
      obtain ⟨ha, hi⟩ := ih (ht.2 _ c hc) hs
      simp only [grow, hc]
      exact ⟨ht.update fun d hd => Option.some.inj hd ▸ ha, hi⟩
    | none =>
      cases hx : take s with
      | none =>
        simp only [grow, hc, hx]
        exact ⟨ht, hs⟩
      | some x =>
        obtain ⟨hb, hi⟩ := htake s x.1 x.2 hs hx
        obtain ⟨ha, hi⟩ := ih (all_empty hb n) hi
        simp only [grow, hc, hx]
        exact ⟨ht.update fun d hd => Option.some.inj hd ▸ ha, hi⟩

end Grow

/-! ### Taking a tree apart -/

section Drain

variable {give : β → σ → Except ε σ} {bad : ε} {I : σ → Prop} {P : β → Prop} {E : ε → Prop}

/-- A value in a table below is a value of the tree. -/
theorem lookup_through {n : ℕ} {t : Table w α β (n + 1)} {i : Fin w} {c : Table w α β n}
    (hc : t.2 i = some c) (k : ℕ → Fin w) :
    lookup (update k (n + 1) i) (n + 1) t = lookup k n c := by
  have hlow : ∀ m ≤ n, ∀ d : Table w α β m, lookup (update k (n + 1) i) m d = lookup k m d := by
    intro m hm d
    induction m with
    | zero => simp [lookup]
    | succ m ih =>
      have hne : m + 1 ≠ n + 1 := by omega
      simp only [lookup, update_of_ne hne]
      cases d.2 (k (m + 1)) with
      | none => rfl
      | some e => exact ih (by omega) e
  simp only [lookup, update_self, hc, Option.bind_some]
  exact hlow n le_rfl c

/-- **Taking a tree apart**: what the store keeps while it gets names with `P` back, it keeps
through `drain`; and `drain` itself fails only if the tree has a value. -/
theorem drain_outcome (hgive : ∀ b s, P b → I s → Outcome I E (give b s)) {n : ℕ}
    {t : Table w α β n} {s : σ} (ht : All P n t) (hs : I s) :
    Outcome I (fun e => E e ∨ (e = bad ∧ ∃ k v, lookup k n t = some v)) (drain give bad n t s) := by
  induction n generalizing s with
  | zero =>
    unfold drain
    split_ifs with hnone
    · exact (hgive _ _ ht hs).mono (fun _ h => h) fun _ => .inl
    · rw [not_forall] at hnone
      obtain ⟨i, hi⟩ := hnone
      obtain ⟨v, hv⟩ := Option.ne_none_iff_exists'.mp (Option.isNone_iff_eq_none.not.mp hi)
      exact .error (.inr ⟨rfl, fun _ => i, v, hv⟩)
  | succ n ih =>
    unfold drain
    refine Outcome.bind (Outcome.foldlM hs fun i _ u hu => ?_) fun u hu =>
      (hgive _ _ ht.1 hu).mono (fun _ h => h) fun _ => .inl
    cases hc : t.2 i with
    | none => exact .ok hu
    | some c =>
      refine (ih (ht.2 i c hc) hu).mono (fun _ h => h) fun e he => he.imp_right ?_
      rintro ⟨rfl, k, v, hv⟩
      exact ⟨rfl, _, v, (lookup_through hc k).trans hv⟩

end Drain

end Table

end Radix
