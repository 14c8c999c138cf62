import Mathlib.Logic.Relation
import Mathlib.Order.Basic

/-!
# Locks without cycles

Agents hold locks and wait for locks. One blocks another if it holds what the other waits
for. If every agent that waits for a lock someone holds has only locks of smaller rank, no
agent blocks itself through others. The rank is a number for each lock; it may be chosen
anew in each state of the system, so it may depend on who holds what.
-/

variable {A L : Type*}

/-- `a` holds a lock that `b` waits for. -/
def Blocks (holds waits : A → L → Prop) (a b : A) : Prop := ∃ l, holds a l ∧ waits b l

/-- Whoever waits for a lock that someone holds has only locks of smaller rank. -/
def Ranked (holds waits : A → L → Prop) (rank : L → ℕ) : Prop :=
  ∀ a b l l', holds a l → waits b l → holds b l' → rank l' < rank l

/-- Along a chain, the lock waited for at its end has a smaller rank than the one waited for at its start. -/
theorem Ranked.lt_of_chain {holds waits : A → L → Prop} {rank : L → ℕ} (h : Ranked holds waits rank) {a b : A}
    (hab : Relation.TransGen (Blocks holds waits) a b) :
    ∃ c l, holds c l ∧ waits b l ∧ ∀ d l', holds d l' → waits a l' → rank l < rank l' := by
  induction hab with
  | single hb =>
    obtain ⟨l, hl, hw⟩ := hb
    exact ⟨a, l, hl, hw, fun d l' hd ha => h d a l' l hd ha hl⟩
  | @tail b c _ hc ih =>
    obtain ⟨d, l, hd, hb, hlt⟩ := ih
    obtain ⟨l', hl', hw⟩ := hc
    exact ⟨b, l', hl', hw, fun e m he ha => Nat.lt_trans (h d b l l' hd hb hl') (hlt e m he ha)⟩

/-- **No cycle**: no agent blocks itself, directly or through others. -/
theorem Ranked.acyclic {holds waits : A → L → Prop} {rank : L → ℕ} (h : Ranked holds waits rank) (a : A) :
    ¬ Relation.TransGen (Blocks holds waits) a a := by
  intro haa
  obtain ⟨c, l, hc, hw, hlt⟩ := h.lt_of_chain haa
  exact Nat.lt_irrefl _ (hlt c l hc hw)
