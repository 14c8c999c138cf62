import Mathlib.Algebra.BigOperators.Fin
import Mathlib.Algebra.BigOperators.Group.Finset.Piecewise
import Mathlib.Algebra.Order.Group.Multiset
import Mathlib.Algebra.Order.BigOperators.Group.Finset
import Mathlib.Data.Fintype.BigOperators
import Mathlib.Tactic.Abel
import Xv6Shmem.Theory.RadixTree

/-!
# The places a tree is kept in

The names of the tables of a radix tree as a multiset: how often each name is used counts. A write moves no
name, and making tables moves names from the store into the tree.

## What is proved

* `names_set` — a write.
* `names_grow` — making tables.
* `all_of_names` — what holds of all names.
* `drain_names` — taking a tree apart gives all its names back.
* `leafName_ne` — if the names are all different, different keys end in different tables, or at different
  entries of one.
-/

namespace Radix.Table

open Function

variable {w : ℕ} {α β γ σ ε : Type}

/-- The name of a table. -/
def name : (n : ℕ) → Table w α β n → β
  | 0, t => t.1
  | _ + 1, t => t.1

/-- The names of all tables. -/
def names : (n : ℕ) → Table w α β n → Multiset β
  | 0, t => {t.1}
  | n + 1, t => {t.1} + ∑ i, (t.2 i).elim 0 (names n)

/-- The name of the table a key ends in. -/
def leafName (k : ℕ → Fin w) : (n : ℕ) → Table w α β n → Option β
  | 0, t => some t.1
  | n + 1, t => (t.2 (k (n + 1))).bind (leafName k n)

/-! ### One entry of a table -/

section Sums

variable {δ : Type} [AddCommMonoid γ]

/-- A sum over the entries of a table, with one of them set apart. -/
theorem sum_entries (g : δ → γ) (f : Fin w → Option δ) (i : Fin w) :
    ∑ j, (f j).elim 0 g = (f i).elim 0 g + ∑ j ∈ Finset.univ.erase i, (f j).elim 0 g :=
  (Finset.add_sum_erase _ _ (Finset.mem_univ i)).symm

theorem sum_update (g : δ → γ) (f : Fin w → Option δ) (i : Fin w) (v : Option δ) :
    ∑ j, (update f i v j).elim 0 g = v.elim 0 g + ∑ j ∈ Finset.univ.erase i, (f j).elim 0 g := by
  rw [sum_entries g _ i, update_self]
  congr 1
  refine Finset.sum_congr rfl fun j hj => ?_
  rw [update_of_ne (Finset.ne_of_mem_erase hj)]

end Sums

/-! ### Names -/

section Names

variable {k k' : ℕ → Fin w} {n : ℕ} {take : σ → Option (β × σ)}

theorem name_mem_names (t : Table w α β n) : t.name n ∈ names n t := by
  cases n with
  | zero => exact Multiset.mem_singleton_self _
  | succ n => exact Multiset.mem_add.mpr (.inl (Multiset.mem_singleton_self _))

theorem fst_mem_names (t : Table w α β (n + 1)) : t.1 ∈ names (n + 1) t := name_mem_names t

theorem names_empty (b : β) (n : ℕ) : names n (empty b n : Table w α β n) = {b} := by
  cases n with
  | zero => rfl
  | succ n => simp [names, empty]

@[simp] theorem name_empty (b : β) (n : ℕ) : name n (empty b n : Table w α β n) = b := by
  cases n <;> rfl

@[simp] theorem name_set {v : Option α} {t : Table w α β n} : name n (set k v n t) = name n t := by
  cases n <;> rfl

theorem names_set {v : Option α} {t : Table w α β n} : names n (set k v n t) = names n t := by
  induction n with
  | zero => rfl
  | succ n ih =>
    simp only [names, set]
    rw [sum_update, sum_entries _ t.2 (k (n + 1))]
    cases t.2 (k (n + 1)) with
    | none => rfl
    | some c => simp only [Option.map_some, Option.elim_some, ih]

theorem names_grow (pages : σ → Multiset β)
    (htake : ∀ s b s', take s = some (b, s') → pages s = b ::ₘ pages s') {n : ℕ} {t : Table w α β n} {s : σ} :
    names n (grow take k n t s).2.1 + pages (grow take k n t s).2.2 = names n t + pages s := by
  induction n generalizing s with
  | zero => rfl
  | succ n ih =>
    cases hc : t.2 (k (n + 1)) with
    | some c =>
      have hrec := ih (t := c) (s := s)
      simp only [grow, hc, names]
      rw [sum_update, sum_entries _ t.2 (k (n + 1)), hc, Option.elim_some, Option.elim_some]
      calc _ = (names n (grow take k n c s).2.1 + pages (grow take k n c s).2.2) +
              ({t.1} + ∑ j ∈ Finset.univ.erase (k (n + 1)), (t.2 j).elim 0 (names n)) := by abel
        _ = _ := by rw [hrec]; abel
    | none =>
      cases hs : take s with
      | none => simp only [grow, hc, hs]
      | some x =>
        have hrec := ih (t := empty x.1 n) (s := x.2)
        simp only [grow, hc, hs, names]
        rw [sum_update, sum_entries _ t.2 (k (n + 1)), hc, Option.elim_some, Option.elim_none, htake s x.1 x.2 hs]
        calc _ = (names n (grow take k n (empty x.1 n) x.2).2.1 + pages (grow take k n (empty x.1 n) x.2).2.2) +
                ({t.1} + ∑ j ∈ Finset.univ.erase (k (n + 1)), (t.2 j).elim 0 (names n)) := by abel
          _ = ({x.1} + pages x.2) + ({t.1} + ∑ j ∈ Finset.univ.erase (k (n + 1)), (t.2 j).elim 0 (names n)) := by
              rw [hrec, names_empty]
          _ = _ := by rw [Multiset.singleton_add, zero_add]; abel

@[simp] theorem name_grow {t : Table w α β n} {s : σ} :
    name n (grow take k n t s).2.1 = name n t := by
  cases n with
  | zero => rfl
  | succ n =>
    cases hc : t.2 (k (n + 1)) with
    | some c => simp only [grow, hc, name]
    | none =>
      cases hs : take s with
      | none => simp only [grow, hc, hs]
      | some x => simp only [grow, hc, hs, name]

theorem names_le_of_entry {t : Table w α β (n + 1)} {i : Fin w} {c : Table w α β n} (hc : t.2 i = some c) :
    names n c ≤ names (n + 1) t := by
  simp only [names]
  rw [sum_entries _ t.2 i, hc, Option.elim_some]
  exact (Multiset.le_add_right _ _).trans (Multiset.le_add_left _ _)

theorem all_of_names {P : β → Prop} {t : Table w α β n} (h : ∀ b ∈ names n t, P b) : All P n t := by
  induction n with
  | zero => exact h _ (name_mem_names t)
  | succ n ih =>
    exact ⟨h _ (fst_mem_names t), fun i c hc => ih fun b hb => h b (Multiset.mem_of_le (names_le_of_entry hc) hb)⟩

theorem leafName_mem {t : Table w α β n} {b : β} (h : leafName k n t = some b) : b ∈ names n t := by
  induction n with
  | zero =>
    cases h
    exact Multiset.mem_singleton_self _
  | succ n ih =>
    obtain ⟨c, hc, hb⟩ := Option.bind_eq_some_iff.mp h
    exact Multiset.mem_of_le (names_le_of_entry hc) (ih hb)

theorem disjoint_of_nodup {t : Table w α β (n + 1)} (hd : (names (n + 1) t).Nodup) {i j : Fin w} (hij : i ≠ j)
    {c d : Table w α β n} (hc : t.2 i = some c) (hj : t.2 j = some d) : Disjoint (names n c) (names n d) := by
  simp only [names] at hd
  rw [sum_entries _ t.2 i, hc, Option.elim_some] at hd
  have hle : names n d ≤ ∑ l ∈ Finset.univ.erase i, (t.2 l).elim 0 (names n) := by
    have hmem : j ∈ Finset.univ.erase i := Finset.mem_erase.mpr ⟨hij.symm, Finset.mem_univ j⟩
    have hsingle := Finset.single_le_sum (f := fun l => (t.2 l).elim 0 (names n)) (fun _ _ => zero_le) hmem
    simpa [hj] using hsingle
  have hsum := (Multiset.nodup_add.mp (Multiset.nodup_add.mp hd).2.1).2.2
  exact hsum.mono_right hle

/-- The name of a table is not a name below it, if they are all different. -/
theorem name_not_mem {t : Table w α β (n + 1)} (hd : (names (n + 1) t).Nodup) {i : Fin w} {c : Table w α β n}
    (hc : t.2 i = some c) : t.1 ∉ names n c := by
  intro hmem
  simp only [names] at hd
  rw [sum_entries _ t.2 i, hc, Option.elim_some] at hd
  have hdis := (Multiset.nodup_add.mp hd).2.2
  exact Multiset.disjoint_left.mp hdis (Multiset.mem_singleton_self _) (Multiset.mem_add.mpr (.inl hmem))

/-- **Different keys end in different places**: if the names are all different, keys that do not differ at level `0`
only end in different tables. -/
theorem leafName_ne {t : Table w α β n} (hd : (names n t).Nodup) {b b' : β} (hb : leafName k n t = some b)
    (hb' : leafName k' n t = some b') (hne : ∃ l, l ≤ n ∧ l ≠ 0 ∧ k l ≠ k' l) : b ≠ b' := by
  induction n with
  | zero =>
    obtain ⟨l, hl, hl0, -⟩ := hne
    exact absurd (Nat.le_zero.mp hl) hl0
  | succ n ih =>
    obtain ⟨c, hc, hcb⟩ := Option.bind_eq_some_iff.mp hb
    obtain ⟨d, hd', hdb⟩ := Option.bind_eq_some_iff.mp hb'
    by_cases htop : k (n + 1) = k' (n + 1)
    · rw [htop, hd'] at hc
      cases hc
      refine ih (Multiset.nodup_of_le (names_le_of_entry hd') hd) hcb hdb ?_
      obtain ⟨l, hl, hl0, hkl⟩ := hne
      refine ⟨l, Nat.le_of_lt_succ (lt_of_le_of_ne hl ?_), hl0, hkl⟩
      rintro rfl
      exact hkl htop
    · intro he
      subst he
      exact Multiset.disjoint_left.mp (disjoint_of_nodup hd htop hc hd') (leafName_mem hcb) (leafName_mem hdb)

/-- Making tables leaves the tables that are there in their places. -/
theorem leafName_grow {t : Table w α β n} {s : σ} {b : β}
    (h : leafName k' n t = some b) : leafName k' n (grow take k n t s).2.1 = some b := by
  induction n generalizing s with
  | zero => exact h
  | succ n ih =>
    obtain ⟨d, hd, hb⟩ := Option.bind_eq_some_iff.mp h
    cases hc : t.2 (k (n + 1)) with
    | some c =>
      simp only [grow, hc, leafName]
      by_cases htop : k' (n + 1) = k (n + 1)
      · rw [htop, hc] at hd
        cases hd
        rw [htop, update_self, Option.bind_some]
        exact ih hb
      · rw [update_of_ne htop, hd]
        exact hb
    | none =>
      have htop : k' (n + 1) ≠ k (n + 1) := by
        intro htop
        rw [htop, hc] at hd
        cases hd
      cases hs : take s with
      | none => simpa only [grow, hc, hs] using h
      | some x =>
        simp only [grow, hc, hs, leafName]
        rw [update_of_ne htop, hd]
        exact hb

theorem leafName_isSome {t : Table w α β n} : (leafName k n t).isSome = reaches k n t := by
  induction n with
  | zero => rfl
  | succ n ih =>
    simp only [leafName, reaches]
    cases t.2 (k (n + 1)) with
    | none => rfl
    | some c => exact ih

end Names

/-! ### Taking a tree apart -/

/-- A fold that gives back what each turn says gives back the sum. -/
theorem foldlM_pages {ι : Type} {step : σ → ι → Except ε σ} {pages : σ → Multiset β} {g : ι → Multiset β}
    (hstep : ∀ s i s', step s i = .ok s' → pages s' = g i + pages s) {l : List ι} {s s' : σ}
    (h : l.foldlM step s = .ok s') : pages s' = (l.map g).sum + pages s := by
  induction l generalizing s with
  | nil =>
    cases h
    simp
  | cons i l ih =>
    rw [List.foldlM_cons] at h
    obtain ⟨u, hu, hrest⟩ := Outcome.bind_ok h
    rw [ih hrest, hstep s i u hu, List.map_cons, List.sum_cons]
    abel

/-- **Taking a tree apart** gives all its names back. -/
theorem drain_names {give : β → σ → Except ε σ} {bad : ε} (pages : σ → Multiset β)
    (hgive : ∀ b s s', give b s = .ok s' → pages s' = b ::ₘ pages s) {n : ℕ} {t : Table w α β n} {s s' : σ}
    (h : drain give bad n t s = .ok s') : pages s' = names n t + pages s := by
  induction n generalizing s s' with
  | zero =>
    unfold drain at h
    split at h
    · rw [hgive _ _ _ h, names, Multiset.singleton_add]
    · cases h
  | succ n ih =>
    unfold drain at h
    obtain ⟨u, hu, hgo⟩ := Outcome.bind_ok h
    have hfold : pages u = ((List.finRange w).map fun i => (t.2 i).elim 0 (names n)).sum + pages s := by
      refine foldlM_pages (fun v i v' hv => ?_) hu
      cases hc : t.2 i with
      | none =>
        rw [hc] at hv
        cases hv
        simp
      | some c =>
        rw [hc] at hv
        exact ih hv
    rw [hgive _ _ _ hgo, hfold, names, ← Fin.sum_univ_def, ← Multiset.singleton_add]
    abel

-- the sums are over all entries of a table and must not be computed when terms are compared
attribute [irreducible] names

end Radix.Table
