import Mathlib.Data.List.Nodup
import Mathlib.Logic.Function.Basic

/-!
# Doubly linked rings

A ring of nodes with a head, linked in both directions. The nodes are those of a type `α`, and the
head is `none`, so that a pointer is an `Option α`. `Linked L l` says that the pointers `L` link the
nodes of `l` in this order, from the head and back to it.

## What is proved

* `Linked.unlink` — a node is taken out; `Linked.pushFront` — a node is put in after the head.
* `Linked.walk_next`, `Linked.walk_prev` — a search along the pointers ends, and is one through the
  list, from its front or from its back.
-/

/-- The pointers of the nodes and of the head. -/
structure Links (α : Type) where
  next : Option α → Option α
  prev : Option α → Option α

namespace Links

open Function

variable {α : Type}

/-- Between `x` and `y` there are the nodes of `l`, linked in both directions. -/
def Seg (L : Links α) : Option α → List α → Option α → Prop
  | x, [], y => L.next x = y ∧ L.prev y = x
  | x, a :: l, y => L.next x = some a ∧ L.prev (some a) = x ∧ L.Seg (some a) l y

/-- The nodes of `l` are linked in a ring with the head. -/
def Linked (L : Links α) (l : List α) : Prop := l.Nodup ∧ L.Seg none l none

/-- The other direction. -/
def flip (L : Links α) : Links α := ⟨L.prev, L.next⟩

variable {L L' : Links α} {x y : Option α} {l l₁ l₂ : List α} {b : α}

theorem seg_append : L.Seg x (l₁ ++ b :: l₂) y ↔ L.Seg x l₁ (some b) ∧ L.Seg (some b) l₂ y := by
  induction l₁ generalizing x with
  | nil => simp [Seg, and_assoc]
  | cons a l₁ ih => simp [Seg, ih, and_assoc]

theorem Seg.reverse (h : L.Seg x l y) : L.flip.Seg y l.reverse x := by
  induction l generalizing x with
  | nil => exact ⟨h.2, h.1⟩
  | cons a l ih =>
    obtain ⟨hnext, hprev, h⟩ := h
    rw [List.reverse_cons, seg_append]
    exact ⟨ih h, hprev, hnext⟩

theorem Linked.reverse (h : L.Linked l) : L.flip.Linked l.reverse := ⟨List.nodup_reverse.mpr h.1, h.2.reverse⟩

theorem Seg.congr (h : L.Seg x l y) (hnext : ∀ z, z = x ∨ (∃ a ∈ l, z = some a) → L'.next z = L.next z)
    (hprev : ∀ z, z = y ∨ (∃ a ∈ l, z = some a) → L'.prev z = L.prev z) : L'.Seg x l y := by
  induction l generalizing x with
  | nil => exact ⟨(hnext x (.inl rfl)).trans h.1, (hprev y (.inl rfl)).trans h.2⟩
  | cons a l ih =>
    refine ⟨(hnext x (.inl rfl)).trans h.1, (hprev _ (.inr ⟨a, List.mem_cons_self, rfl⟩)).trans h.2.1, ih h.2.2 ?_ ?_⟩
    · rintro z (rfl | ⟨c, hc, rfl⟩)
      · exact hnext _ (.inr ⟨a, List.mem_cons_self, rfl⟩)
      · exact hnext _ (.inr ⟨c, List.mem_cons_of_mem _ hc, rfl⟩)
    · rintro z (rfl | ⟨c, hc, rfl⟩)
      · exact hprev _ (.inl rfl)
      · exact hprev _ (.inr ⟨c, List.mem_cons_of_mem _ hc, rfl⟩)

/-- The first pointer leads to the first node, or to the end. -/
theorem Seg.next_mem (h : L.Seg x l y) : L.next x = y ∨ ∃ a ∈ l, L.next x = some a := by
  cases l with
  | nil => exact .inl h.1
  | cons a l => exact .inr ⟨a, List.mem_cons_self, h.1⟩

theorem Seg.prev_mem (h : L.Seg x l y) : L.prev y = x ∨ ∃ a ∈ l, L.prev y = some a := by
  rcases h.reverse.next_mem with hx | ⟨a, ha, hx⟩
  · exact .inl hx
  · exact .inr ⟨a, List.mem_reverse.mp ha, hx⟩

/-- Two segments are joined without the node between them, if the pointers of its neighbours are changed and no others. -/
theorem Seg.join (h₁ : L.Seg x l₁ (some b)) (h₂ : L.Seg (some b) l₂ y) (hnext : L'.next (L.prev (some b)) = L.next (some b))
    (hprev : L'.prev (L.next (some b)) = L.prev (some b))
    (hnext' : ∀ z, z ≠ L.prev (some b) → L'.next z = L.next z) (hprev' : ∀ z, z ≠ L.next (some b) → L'.prev z = L.prev z)
    (hx : ∀ a ∈ l₁ ++ l₂, x ≠ some a) (hy : ∀ a ∈ l₁ ++ l₂, y ≠ some a) (hnd : (l₁ ++ l₂).Nodup) :
    L'.Seg x (l₁ ++ l₂) y := by
  induction l₁ generalizing x with
  | nil =>
    have hxb : L.prev (some b) = x := h₁.2
    rw [hxb] at hnext hprev hnext'
    cases l₂ with
    | nil =>
      rw [h₂.1] at hnext hprev
      exact ⟨hnext, hprev⟩
    | cons c l₂ =>
      obtain ⟨hc, -, h₂⟩ := h₂
      rw [hc] at hnext hprev hprev'
      rw [List.nil_append, List.nodup_cons] at hnd
      refine ⟨hnext, hprev, h₂.congr (fun z hz => hnext' z ?_) (fun z hz => hprev' z ?_)⟩
      · rcases hz with rfl | ⟨a, ha, rfl⟩
        · exact (hx c List.mem_cons_self).symm
        · exact (hx a (List.mem_cons_of_mem _ ha)).symm
      · rcases hz with rfl | ⟨a, ha, rfl⟩
        · exact hy c List.mem_cons_self
        · rintro ⟨⟩
          exact hnd.1 ha
  | cons a l₁ ih =>
    obtain ⟨hxa, hax, h₁⟩ := h₁
    rw [List.cons_append, List.nodup_cons] at hnd
    have hlast : x ≠ L.prev (some b) := by
      rcases h₁.prev_mem with he | ⟨c, hc, he⟩
      · rw [he]
        exact hx a List.mem_cons_self
      · rw [he]
        exact hx c (by simp [hc])
    have hfirst : some a ≠ L.next (some b) := by
      rcases h₂.next_mem with he | ⟨c, hc, he⟩
      · rw [he]
        exact (hy a List.mem_cons_self).symm
      · rw [he]
        rintro ⟨⟩
        exact hnd.1 (List.mem_append_right _ hc)
    refine ⟨(hnext' x hlast).trans hxa, (hprev' _ hfirst).trans hax, ?_⟩
    refine ih h₁ (fun c hc => ?_) (fun c hc => hy c (List.mem_cons_of_mem _ hc)) hnd.2
    rintro ⟨⟩
    exact hnd.1 hc

/-! ### Searches -/

/-- A search along the pointers `f` that starts at a node and ends when it is back at the head, for at most `n` nodes. The
answer is `none` if it has not come to an end. -/
def walk (f : Option α → Option α) (p : α → Bool) : ℕ → Option α → Option (Option α)
  | 0, _ => none
  | _ + 1, none => some none
  | n + 1, some a => if p a then some (some a) else walk f p n (f (some a))

theorem Seg.walk_next {p : α → Bool} {n : ℕ} (h : L.Seg x l none) (hn : l.length < n) :
    walk L.next p n (L.next x) = some (l.find? p) := by
  induction l generalizing x n with
  | nil =>
    obtain ⟨n, rfl⟩ := Nat.exists_eq_succ_of_ne_zero (Nat.ne_zero_of_lt hn)
    rw [h.1]
    rfl
  | cons a l ih =>
    obtain ⟨n, rfl⟩ := Nat.exists_eq_succ_of_ne_zero (Nat.ne_zero_of_lt hn)
    rw [h.1, walk, List.find?_cons]
    cases hp : p a with
    | true => rfl
    | false => exact ih h.2.2 (Nat.lt_of_succ_lt_succ hn)

/-- **A search from the front.** -/
theorem Linked.walk_next {p : α → Bool} {n : ℕ} (h : L.Linked l) (hn : l.length < n) :
    walk L.next p n (L.next none) = some (l.find? p) :=
  h.2.walk_next hn

/-- **A search from the back.** -/
theorem Linked.walk_prev {p : α → Bool} {n : ℕ} (h : L.Linked l) (hn : l.length < n) :
    walk L.prev p n (L.prev none) = some (l.reverse.find? p) :=
  h.reverse.walk_next (by rwa [List.length_reverse])

/-! ### Changes -/

variable [DecidableEq α]

/-- `x->next = y`. -/
def setNext (L : Links α) (x y : Option α) : Links α := { L with next := update L.next x y }

/-- `x->prev = y`. -/
def setPrev (L : Links α) (x y : Option α) : Links α := { L with prev := update L.prev x y }

/-- A ring without nodes. -/
def clear (L : Links α) : Links α := (L.setPrev none none).setNext none none

/-- Take a node out: `b->next->prev = b->prev; b->prev->next = b->next`. -/
def unlink (L : Links α) (b : α) : Links α :=
  let L₁ := L.setPrev (L.next (some b)) (L.prev (some b))
  L₁.setNext (L₁.prev (some b)) (L₁.next (some b))

/-- Put a node in after the head: `b->next = head->next; b->prev = head; head->next->prev = b; head->next = b`. -/
def pushFront (L : Links α) (b : α) : Links α :=
  let L₁ := L.setNext (some b) (L.next none)
  let L₂ := L₁.setPrev (some b) none
  let L₃ := L₂.setPrev (L₂.next none) (some b)
  L₃.setNext none (some b)

theorem linked_clear (L : Links α) : L.clear.Linked [] := by
  simp [Linked, Seg, clear, setNext, setPrev]

/-- **A node is put in.** -/
theorem Linked.pushFront (h : L.Linked l) (hb : b ∉ l) : (L.pushFront b).Linked (b :: l) := by
  refine ⟨List.nodup_cons.mpr ⟨hb, h.1⟩, ?_⟩
  have hnext : (L.pushFront b).next = update (update L.next (some b) (L.next none)) none (some b) := rfl
  have hprev : (L.pushFront b).prev = update (update L.prev (some b) none) (L.next none) (some b) := by
    simp [Links.pushFront, setNext, setPrev]
  have hhead : L.next none ≠ some b := by
    rcases h.2.next_mem with he | ⟨a, ha, he⟩
    · simp [he]
    · rw [he]
      rintro ⟨⟩
      exact hb ha
  refine ⟨by simp [hnext], by simp [hprev, hhead.symm], ?_⟩
  obtain ⟨hnd, hseg⟩ := h
  cases l with
  | nil => exact ⟨by simp [hnext, hseg.1], by simp [hprev, hseg.1]⟩
  | cons c l =>
    obtain ⟨hc, -, hseg⟩ := hseg
    rw [List.nodup_cons] at hnd
    refine ⟨by simp [hnext, hc], by simp [hprev, hc], hseg.congr ?_ ?_⟩
    · rintro z hz
      have hz' : z ≠ none ∧ z ≠ some b := by
        rcases hz with rfl | ⟨a, ha, rfl⟩
        · refine ⟨by simp, ?_⟩
          rintro ⟨⟩
          exact hb List.mem_cons_self
        · refine ⟨by simp, ?_⟩
          rintro ⟨⟩
          exact hb (List.mem_cons_of_mem _ ha)
      simp [hnext, hz'.1, hz'.2]
    · rintro z hz
      have hz' : z ≠ some c ∧ z ≠ some b := by
        rcases hz with rfl | ⟨a, ha, rfl⟩
        · simp
        · refine ⟨?_, ?_⟩
          · rintro ⟨⟩
            exact hnd.1 ha
          · rintro ⟨⟩
            exact hb (List.mem_cons_of_mem _ ha)
      simp [hprev, hc, hz'.1, hz'.2]

/-- **A node is taken out.** -/
theorem Linked.unlink (h : L.Linked (l₁ ++ b :: l₂)) : (L.unlink b).Linked (l₁ ++ l₂) := by
  obtain ⟨hnd, hseg⟩ := h
  obtain ⟨h1, h2⟩ := seg_append.mp hseg
  have hnd' : (l₁ ++ l₂).Nodup := (List.nodup_middle.mp hnd).of_cons
  have hb : b ∉ l₁ ++ l₂ := (List.nodup_cons.mp (List.nodup_middle.mp hnd)).1
  have hself : L.next (some b) ≠ some b := by
    rcases h2.next_mem with he | ⟨c, hc, he⟩
    · simp [he]
    · rw [he]
      rintro ⟨⟩
      exact hb (List.mem_append_right _ hc)
  have hnext : (L.unlink b).next = update L.next (L.prev (some b)) (L.next (some b)) := by
    simp [Links.unlink, setNext, setPrev, hself.symm]
  have hprev : (L.unlink b).prev = update L.prev (L.next (some b)) (L.prev (some b)) := rfl
  refine ⟨hnd', h1.join h2 ?_ ?_ (fun z hz => ?_) (fun z hz => ?_) (by simp) (by simp) hnd'⟩
  · simp [hnext]
  · simp [hprev]
  · simp [hnext, hz]
  · simp [hprev, hz]

end Links
