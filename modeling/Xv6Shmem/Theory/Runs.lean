import Mathlib.Data.List.Induction

/-!
# Runs of a labelled transition system

A system is a start condition and a step relation with labels. A run is kept
together with its trace: for each step, the state before it and its label, first
step first. So what a step was, and from which state it was taken, can both be
said of a run after it has happened, and a condition on the steps of a run is a
condition on the entries of its trace.

## What is proved

* `Reachable.invariant` — the invariant rule: what holds at the start and is
  kept by every step holds in every reachable state.
* `run_restrict_iff` — a run all of whose steps meet `C` is a run of the system
  restricted to the steps that meet `C`.
* `Run.before` — a step of a run follows a run that led to the state it was taken from.
* `Run.always_iff` — the rule for an exact condition: if, from a reachable state
  with property `P`, a step keeps `P` exactly when it meets `C`, then a run has
  `P` in every state it visits exactly when all its steps meet `C`.
* `Run.since` — what steps that meet `C` preserve as long as `Q` holds is preserved by a
  run of such steps that visits only states with `Q`.
* `run_of_traceOf` — where the steps are computed, a list of actions can be run.
-/

universe u v

/-- A labelled transition system. -/
structure LTS (σ : Type u) (α : Type v) where
  /-- The states it may start in. -/
  init : σ → Prop
  /-- A step, with its label. -/
  step : σ → α → σ → Prop

namespace LTS

variable {σ : Type u} {α : Type v} {M : LTS σ α}

/-- `Run M s tr t`: the system goes from `s` to `t`; the trace `tr` has an entry
for each step, the state it was taken from and its label. -/
inductive Run (M : LTS σ α) (s : σ) : List (σ × α) → σ → Prop where
  /-- No step. -/
  | nil : Run M s [] s
  /-- One more step. -/
  | snoc {t u : σ} {tr : List (σ × α)} {a : α} :
      Run M s tr t → M.step t a u → Run M s (tr ++ [(t, a)]) u

/-- The states a run visits: those its steps were taken from, and the last. -/
def visited (tr : List (σ × α)) (t : σ) : List σ := tr.map Prod.fst ++ [t]

variable {tr : List (σ × α)} {t u s : σ} {x : σ × α} {C : σ → α → Prop}

@[simp] theorem mem_visited :
    u ∈ visited tr t ↔ (∃ a, (u, a) ∈ tr) ∨ u = t := by
  simp [visited]

/-- A state some run from a start leads to. -/
def Reachable (M : LTS σ α) (t : σ) : Prop := ∃ s tr, M.init s ∧ Run M s tr t

theorem Reachable.start (h : M.init s) : M.Reachable s := ⟨s, [], h, .nil⟩

theorem Reachable.snoc {a : α} (h : M.Reachable s) (hs : M.step s a t) : M.Reachable t := by
  obtain ⟨s0, tr, h0, hr⟩ := h
  exact ⟨s0, tr ++ [(s, a)], h0, .snoc hr hs⟩

/-- **The invariant rule**. The step may use that the state it is taken from is
reachable. -/
theorem Reachable.invariant {I : σ → Prop} (h₀ : ∀ s, M.init s → I s)
    (hstep : ∀ s a t, M.Reachable s → I s → M.step s a t → I t) {t : σ} (h : M.Reachable t) :
    I t := by
  obtain ⟨s, tr, hs, hr⟩ := h
  induction hr with
  | nil => exact h₀ _ hs
  | snoc hr ha ih => exact hstep _ _ _ ⟨s, _, hs, hr⟩ ih ha

theorem Run.cons {a : α} (ha : M.step s a t) (h : M.Run t tr u) :
    M.Run s ((s, a) :: tr) u := by
  induction h with
  | nil => exact .snoc .nil ha
  | snoc _ hb ih => exact .snoc ih hb

theorem Run.last (h : M.Run s (tr ++ [x]) t) :
    M.Run s tr x.1 ∧ M.step x.1 x.2 t := by
  generalize htr : tr ++ [x] = tr' at h
  cases h with
  | nil => simp at htr
  | snoc hr ha =>
    obtain ⟨rfl, hx⟩ := List.append_inj' htr rfl
    cases hx
    exact ⟨hr, ha⟩

/-- A step of a run, and the run before it. -/
theorem Run.before {tr₁ tr₂ : List (σ × α)} (h : M.Run s (tr₁ ++ x :: tr₂) t) :
    M.Run s tr₁ x.1 ∧ ∃ u, M.step x.1 x.2 u := by
  induction tr₂ using List.reverseRecOn generalizing t with
  | nil => exact ⟨h.last.1, t, h.last.2⟩
  | append_singleton tr₂ y ih =>
    rw [← List.cons_append, ← List.append_assoc] at h
    exact ih h.last.1

theorem Run.reachable (hs : M.Reachable s) (h : M.Run s tr t) :
    M.Reachable t := by
  induction h with
  | nil => exact hs
  | snoc _ ha ih => exact ih.snoc ha

/-- Every state a run from a reachable state visits is reachable. -/
theorem Run.reachable_of_mem (hs : M.Reachable s) (h : M.Run s tr t) (hu : u ∈ visited tr t) : M.Reachable u := by
  induction h generalizing u with
  | nil =>
    simp only [mem_visited, List.not_mem_nil, exists_false, false_or] at hu
    exact hu ▸ hs
  | @snoc t' u' tr a hr ha ih =>
    rw [mem_visited] at hu
    rcases hu with ⟨b, hb⟩ | rfl
    · rcases List.mem_append.mp hb with hb | hb
      · exact ih (mem_visited.mpr (.inl ⟨b, hb⟩))
      · simp only [List.mem_singleton, Prod.mk.injEq] at hb
        exact ih (mem_visited.mpr (.inr hb.1))
    · exact (hr.reachable hs).snoc ha

/-! ### Conditions on the history of a step -/

/-- `P` holds of each entry of a trace and the trace before it. -/
def Throughout (P : List (σ × α) → σ × α → Prop) (tr : List (σ × α)) : Prop :=
  ∀ tr₁ x tr₂, tr = tr₁ ++ x :: tr₂ → P tr₁ x

theorem throughout_iff {P : List (σ × α) → σ × α → Prop} :
    Throughout P tr ↔ ∀ n, ∀ h : n < tr.length, P (tr.take n) tr[n] := by
  constructor
  · intro h n hn
    refine h (tr.take n) tr[n] (tr.drop (n + 1)) ?_
    rw [← List.drop_eq_getElem_cons hn, List.take_append_drop]
  · rintro h tr1 x tr2 rfl
    have hn := h tr1.length (by simp)
    simpa using hn

instance {P : List (σ × α) → σ × α → Prop} [∀ tr x, Decidable (P tr x)] (tr : List (σ × α)) :
    Decidable (Throughout P tr) :=
  decidable_of_iff _ throughout_iff.symm

/-! ### Conditions on steps -/

/-- The system that takes only those steps that meet `C`, a condition on the
state before the step and its label. -/
def restrict (M : LTS σ α) (C : σ → α → Prop) : LTS σ α := ⟨M.init, fun s a t => C s a ∧ M.step s a t⟩

/-- A run of the restricted system is a run all of whose steps meet the condition. -/
theorem run_restrict_iff :
    (M.restrict C).Run s tr t ↔ M.Run s tr t ∧ ∀ x ∈ tr, C x.1 x.2 := by
  constructor
  · intro h
    induction h with
    | nil => exact ⟨.nil, by simp⟩
    | snoc _ ha ih =>
      refine ⟨.snoc ih.1 ha.2, fun x hx => ?_⟩
      rcases List.mem_append.mp hx with hx | hx
      · exact ih.2 x hx
      · rw [List.mem_singleton] at hx; subst hx; exact ha.1
  · rintro ⟨h, hC⟩
    induction h with
    | nil => exact .nil
    | snoc _ ha ih =>
      refine .snoc (ih fun x hx => hC x (List.mem_append_left _ hx)) ⟨?_, ha⟩
      exact hC _ (List.mem_append_right _ (List.mem_singleton_self _))

theorem Reachable.of_restrict (h : (M.restrict C).Reachable t) :
    M.Reachable t := by
  obtain ⟨s, tr, hs, hr⟩ := h
  exact ⟨s, tr, hs, (run_restrict_iff.mp hr).1⟩

/-- What steps that meet `C` reach, steps that meet a weaker condition reach. -/
theorem Reachable.restrict_mono {D : σ → α → Prop} (hCD : ∀ s a, C s a → D s a) {t : σ}
    (h : (M.restrict C).Reachable t) : (M.restrict D).Reachable t := by
  obtain ⟨s, tr, hs, hr⟩ := h
  obtain ⟨hr, hC⟩ := run_restrict_iff.mp hr
  exact ⟨s, tr, hs, run_restrict_iff.mpr ⟨hr, fun x hx => hCD _ _ (hC x hx)⟩⟩

/-- **The rule for an exact condition**: if from a reachable state with `P` a step
keeps `P` exactly when it meets `C`, then a run visits only states with `P` exactly
when all its steps meet `C`. -/
theorem Run.always_iff {P : σ → Prop} (h₀ : ∀ s, M.init s → P s)
    (hstep : ∀ s a t, M.Reachable s → P s → M.step s a t → (P t ↔ C s a)) {s t : σ}
    {tr : List (σ × α)} (hs : M.init s) (h : M.Run s tr t) :
    (∀ u ∈ visited tr t, P u) ↔ ∀ x ∈ tr, C x.1 x.2 := by
  induction h with
  | nil => simpa [visited] using h₀ _ hs
  | @snoc t u tr a hr ha ih =>
    have hiff := hstep t a u ⟨s, tr, hs, hr⟩
    constructor
    · intro hP x hx
      have hpre : ∀ w ∈ visited tr t, P w := by
        intro w hw
        refine hP w (mem_visited.mpr (.inl ?_))
        rcases mem_visited.mp hw with ⟨b, hb⟩ | rfl
        · exact ⟨b, List.mem_append_left _ hb⟩
        · exact ⟨a, List.mem_append_right _ (List.mem_singleton_self _)⟩
      rcases List.mem_append.mp hx with hx | hx
      · exact ih.mp hpre x hx
      · rw [List.mem_singleton] at hx
        subst hx
        exact (hiff (hpre t (by simp)) ha).mp (hP u (by simp))
    · intro hC w hw
      have hpre := ih.mpr fun x hx => hC x (List.mem_append_left _ hx)
      have hlast : C t a := hC (t, a) (List.mem_append_right _ (List.mem_singleton_self _))
      rcases mem_visited.mp hw with ⟨b, hb⟩ | rfl
      · rcases List.mem_append.mp hb with hb | hb
        · exact hpre w (mem_visited.mpr (.inl ⟨b, hb⟩))
        · simp only [List.mem_singleton, Prod.mk.injEq] at hb
          exact hpre w (by simp [hb.1])
      · exact (hiff (hpre t (by simp)) ha).mpr hlast

/-- **The rule for what holds meanwhile**: if a step that meets `C`, between reachable states
with `Q`, keeps `R`, then a run of such steps that visits only states with `Q` and starts
with `R` visits only states with `R`. -/
theorem Run.since {Q R : σ → Prop} (hstep : ∀ s a t, M.Reachable s → C s a → M.step s a t → Q s → Q t → R s → R t) {s t : σ}
    {tr : List (σ × α)} (hs : M.Reachable s) (hR : R s) (h : (M.restrict C).Run s tr t)
    (hQ : ∀ u ∈ visited tr t, Q u) : ∀ u ∈ visited tr t, R u := by
  induction h with
  | nil =>
    intro u hu
    simp only [visited, List.map_nil, List.nil_append, List.mem_singleton] at hu
    exact hu ▸ hR
  | @snoc t u tr a hr ha ih =>
    have hpre : ∀ w ∈ visited tr t, w ∈ visited (tr ++ [(t, a)]) u := by
      intro w hw
      refine mem_visited.mpr (.inl ?_)
      rcases mem_visited.mp hw with ⟨b, hb⟩ | rfl
      · exact ⟨b, List.mem_append_left _ hb⟩
      · exact ⟨a, List.mem_append_right _ (List.mem_singleton_self _)⟩
    have hbefore := ih fun w hw => hQ w (hpre w hw)
    have ht : t ∈ visited tr t := by simp
    have hlast : R u := by
      refine hstep t a u ?_ ha.1 ha.2 (hQ t (hpre t ht)) (hQ u (by simp)) (hbefore t ht)
      exact Run.reachable hs (run_restrict_iff.mp hr).1
    intro w hw
    rcases mem_visited.mp hw with ⟨b, hb⟩ | rfl
    · rcases List.mem_append.mp hb with hb | hb
      · exact hbefore w (mem_visited.mpr (.inl ⟨b, hb⟩))
      · simp only [List.mem_singleton, Prod.mk.injEq] at hb
        exact hbefore w (by simp [hb.1])
    · exact hlast

/-! ### Ghost variables -/

/-- The system with a variable that starts as `g₀` and records the steps by `f`, which may look at the state
before the step and at its label. It never keeps a step from being taken. -/
def ghost {γ : Type*} (M : LTS σ α) (g₀ : γ) (f : σ → α → γ → γ) : LTS (σ × γ) α where
  init := fun x => M.init x.1 ∧ x.2 = g₀
  step := fun x a y => M.step x.1 a y.1 ∧ y.2 = f x.1 a x.2

/-- The variable after a run. -/
def ghostAfter {γ : Type*} (f : σ → α → γ → γ) (g : γ) (tr : List (σ × α)) : γ :=
  tr.foldl (fun g x => f x.1 x.2 g) g

/-- The trace of a run with the variable beside the states. -/
def ghostTrace {γ : Type*} (f : σ → α → γ → γ) (g : γ) : List (σ × α) → List ((σ × γ) × α)
  | [] => []
  | x :: tr => ((x.1, g), x.2) :: ghostTrace f (f x.1 x.2 g) tr

theorem ghostTrace_append {γ : Type*} {f : σ → α → γ → γ} {g : γ} :
    ghostTrace f g (tr ++ [x]) = ghostTrace f g tr ++ [((x.1, ghostAfter f g tr), x.2)] := by
  induction tr generalizing g with
  | nil => rfl
  | cons y tr ih =>
    rw [List.cons_append, ghostTrace, ih]
    rfl

/-- The variable leaves the labels as they are. -/
theorem ghostTrace_labels {γ : Type*} {f : σ → α → γ → γ} {g : γ} :
    (ghostTrace f g tr).map Prod.snd = tr.map Prod.snd := by
  induction tr generalizing g with
  | nil => rfl
  | cons x tr ih => rw [ghostTrace, List.map_cons, ih, List.map_cons]

/-- Every run is one of the system with the variable. -/
theorem Run.ghost {γ : Type*} {g₀ g : γ} {f : σ → α → γ → γ} (h : M.Run s tr t) :
    (M.ghost g₀ f).Run (s, g) (ghostTrace f g tr) (t, ghostAfter f g tr) := by
  induction h with
  | nil => exact .nil
  | snoc _ ha ih =>
    rw [ghostTrace_append]
    refine .snoc ih ⟨ha, ?_⟩
    rw [ghostAfter, List.foldl_append]
    rfl

/-! ### Steps that are computed -/

/-- The trace of the actions `as` and the state after them, if each of them passes the test and can be taken. -/
def traceOf (step : σ → α → Option σ) (p : σ → α → Bool) (s : σ) : List α → Option (List (σ × α) × σ)
  | [] => some ([], s)
  | a :: as =>
    if p s a then (step s a).bind fun t => (traceOf step p t as).map fun x => ((s, a) :: x.1, x.2) else none

/-- What was computed is a run. -/
theorem run_of_traceOf {step : σ → α → Option σ} {p : σ → α → Bool}
    (hM : ∀ s a t, p s a = true → step s a = some t → M.step s a t) {s t : σ} {as : List α} {tr : List (σ × α)}
    (h : traceOf step p s as = some (tr, t)) : M.Run s tr t := by
  induction as generalizing s tr with
  | nil =>
    cases h
    exact .nil
  | cons a as ih =>
    rw [traceOf, Option.ite_none_right_eq_some] at h
    obtain ⟨hp, h⟩ := h
    obtain ⟨u, hu, h⟩ := Option.bind_eq_some_iff.mp h
    obtain ⟨⟨tr', t'⟩, hx, he⟩ := Option.map_eq_some_iff.mp h
    cases he
    exact (ih hx).cons (hM s a u hp hu)

theorem exists_run_of_traceOf {step : σ → α → Option σ} {p : σ → α → Bool}
    (hM : ∀ s a t, p s a = true → step s a = some t → M.step s a t) {s : σ} {as : List α} {f : List (σ × α) × σ → Bool}
    (h : (traceOf step p s as).map f = some true) : ∃ tr t, M.Run s tr t ∧ f (tr, t) = true := by
  obtain ⟨⟨tr, t⟩, htr, hf⟩ := Option.map_eq_some_iff.mp h
  exact ⟨tr, t, run_of_traceOf hM htr, hf⟩

end LTS
