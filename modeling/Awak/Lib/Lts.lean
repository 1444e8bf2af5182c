/-
  Transition systems with a partial step function, and the runs whose steps
  all meet a condition.

  The threads of a concurrent program are interleaved by letting the label
  name the thread that moves; `step s a = none` means that the move `a` is
  not enabled in `s`.

  * `Reach S C s`: some run of `S` ends in `s`, and each of its steps
    satisfies the condition `C` on the state before it and its label;
  * `Reach.inv`: the induction rule for invariants;
  * `Reach.map`: stuttering simulation along a state abstraction, which lifts
    the invariants of a component to a system that contains it;
  * `Reach.simulate`: forward simulation along a relation, where a step is matched
    by a run;
  * `monitor`: a system together with a record of its run;
  * `trace`, `Emits`: a system with the events of its run, and
    `trace_simulate`: trace inclusion by a simulation that keeps the events.
-/
import Mathlib.Tactic

-- The threads of concrete runs are numerals of these types.  The instances have
-- names, so that the definition of a run needs no auxiliary lemma for them.
instance neZero_one : NeZero 1 := ⟨one_ne_zero⟩

instance neZero_two : NeZero 2 := ⟨two_ne_zero⟩

/-- A labelled transition system with a partial step function. -/
structure Lts (σ α : Type) where
  init : σ → Prop
  step : σ → α → Option σ

namespace Lts

variable {σ τ α β : Type}

/-- The states reached by the runs of `S` whose steps all satisfy `C`. -/
inductive Reach (S : Lts σ α) (C : σ → α → Prop) : σ → Prop
  | init {s : σ} : S.init s → Reach S C s
  | step {s s' : σ} {a : α} : Reach S C s → C s a → S.step s a = some s' → Reach S C s'

/-- The states reached by any run. -/
abbrev Reachable (S : Lts σ α) : σ → Prop := Reach S fun _ _ => True

/-- Execute a list of labels. -/
def run (S : Lts σ α) : σ → List α → Option σ
  | s, [] => some s
  | s, a :: as => (S.step s a).bind fun s' => run S s' as

/-- The steps of the run with labels `as` from `s` satisfy `C`. -/
def Meets (S : Lts σ α) (C : σ → α → Prop) : σ → List α → Prop
  | _, [] => True
  | s, a :: as => C s a ∧ ∀ s', S.step s a = some s' → Meets S C s' as

instance (S : Lts σ α) (C : σ → α → Prop) [∀ s a, Decidable (C s a)] :
    ∀ (as : List α) (s : σ), Decidable (S.Meets C s as)
  | [], _ => isTrue trivial
  | a :: as, s =>
    match hs : S.step s a with
    | none => decidable_of_iff (C s a) (by simp [Meets, hs])
    | some s' =>
      have := instDecidableMeets S C as s'
      decidable_of_iff (C s a ∧ S.Meets C s' as) (by simp [Meets, hs])

variable {S : Lts σ α} {T : Lts τ β} {C : σ → α → Prop} {D : τ → β → Prop}

/-- **Invariants**: what holds initially and is preserved by each step of the
    runs considered holds in every state they reach. -/
theorem Reach.inv {P : σ → Prop} (h₀ : ∀ s, S.init s → P s)
    (h₁ : ∀ s a s', Reach S C s → P s → C s a → S.step s a = some s' → P s') {s : σ}
    (h : Reach S C s) : P s := by
  induction h with
  | init hs => exact h₀ _ hs
  | step hr hc hs ih => exact h₁ _ _ _ hr ih hc hs

/-- Runs that meet a condition meet a weaker one. -/
theorem Reach.mono {C' : σ → α → Prop} (hC : ∀ s a, C s a → C' s a) {s : σ}
    (h : Reach S C s) : Reach S C' s := by
  induction h with
  | init hs => exact .init hs
  | step _ hc hs ih => exact .step ih (hC _ _ hc) hs

/-- **Simulation**: if each step of `S` is a stutter or a step of `T` under
    the abstraction `f`, then `f` maps reached states to reached states. -/
theorem Reach.map {f : σ → τ} (h₀ : ∀ s, S.init s → T.init (f s))
    (h₁ : ∀ s a s', Reach S C s → C s a → S.step s a = some s' →
      f s' = f s ∨ ∃ b, D (f s) b ∧ T.step (f s) b = some (f s')) {s : σ}
    (h : Reach S C s) : Reach T D (f s) := by
  induction h with
  | init hs => exact .init (h₀ _ hs)
  | step hr hc hs ih =>
    rcases h₁ _ _ _ hr hc hs with he | ⟨b, hb, ht⟩
    · rw [he]; exact ih
    · exact .step ih hb ht

/-- The runs of `S` from a state, whose steps satisfy `C`. -/
abbrev Runs (S : Lts σ α) (C : σ → α → Prop) : σ → σ → Prop :=
  Relation.ReflTransGen fun s s' => ∃ a, C s a ∧ S.step s a = some s'

theorem Runs.single {s s' : σ} {a : α} (hc : C s a) (hs : S.step s a = some s') : S.Runs C s s' :=
  Relation.ReflTransGen.single ⟨a, hc, hs⟩

theorem Reach.runs {s s' : σ} (h : Reach S C s) (hr : S.Runs C s s') : Reach S C s' := by
  induction hr with
  | refl => exact h
  | tail _ hstep ih =>
    obtain ⟨a, hc, hs⟩ := hstep
    exact .step ih hc hs

/-- **Forward simulation**: if each step of `S` is matched by a run of `T` that keeps the
    relation `R`, then each reached state of `S` is related to one of `T`. -/
theorem Reach.simulate {R : σ → τ → Prop} (h₀ : ∀ s, S.init s → ∃ t, T.init t ∧ R s t)
    (h₁ : ∀ s a s' t, Reach T D t → R s t → C s a → S.step s a = some s' →
      ∃ t', T.Runs D t t' ∧ R s' t') {s : σ} (h : Reach S C s) : ∃ t, Reach T D t ∧ R s t := by
  induction h with
  | init hs =>
    obtain ⟨t, ht, hr⟩ := h₀ _ hs
    exact ⟨t, .init ht, hr⟩
  | step _ hc hs ih =>
    obtain ⟨t, ht, hr⟩ := ih
    obtain ⟨t', hrun, hr'⟩ := h₁ _ _ _ _ ht hr hc hs
    exact ⟨t', ht.runs hrun, hr'⟩

/-- A system together with a record of its run, which restricts no step. -/
def monitor {γ : Type} (S : Lts σ α) (g₀ : γ) (record : γ → σ → α → γ) : Lts (σ × γ) α where
  init p := S.init p.1 ∧ p.2 = g₀
  step p a := (S.step p.1 a).map fun s' => (s', record p.2 p.1 a)

theorem monitor_step {γ : Type} {g₀ : γ} {record : γ → σ → α → γ} {p p' : σ × γ} {a : α}
    (h : (S.monitor g₀ record).step p a = some p') :
    S.step p.1 a = some p'.1 ∧ p'.2 = record p.2 p.1 a := by
  obtain ⟨s', hs, rfl⟩ := Option.map_eq_some_iff.1 h
  exact ⟨hs, rfl⟩

/-- The states of the system that a monitored run passes are reached without the record. -/
theorem monitor_reach {γ : Type} {g₀ : γ} {record : γ → σ → α → γ} {p : σ × γ}
    (h : (S.monitor g₀ record).Reach (fun p a => C p.1 a) p) : S.Reach C p.1 := by
  induction h with
  | init hp => exact .init hp.1
  | step _ hc hs ih => exact .step ih hc (monitor_step hs).1

/-- A record can be kept along any run. -/
theorem Reach.monitor {γ : Type} (g₀ : γ) (record : γ → σ → α → γ) {s : σ} (h : S.Reach C s) :
    ∃ g, (S.monitor g₀ record).Reach (fun p a => C p.1 a) (s, g) := by
  induction h with
  | init hs => exact ⟨g₀, .init ⟨hs, rfl⟩⟩
  | @step s s' a _ hc hs ih =>
    obtain ⟨g, ih⟩ := ih
    have hstep : (S.monitor g₀ record).step (s, g) a = some (s', record g s a) := by
      simp only [Lts.monitor, hs, Option.map_some]
    exact ⟨_, .step ih hc hstep⟩

/-- A system together with the events of its run. -/
def trace {ε : Type} (S : Lts σ α) (ev : σ → α → List ε) : Lts (σ × List ε) α :=
  S.monitor [] fun es s a => es ++ ev s a

/-- The runs of `S` with these events. -/
inductive Emits {ε : Type} (S : Lts σ α) (ev : σ → α → List ε) : σ → List ε → σ → Prop
  | refl (s : σ) : Emits S ev s [] s
  | step {s s' s'' : σ} {a : α} {es : List ε} :
    S.step s a = some s' → Emits S ev s' es s'' → Emits S ev s (ev s a ++ es) s''

section Traces
variable {ε : Type} {ev : σ → α → List ε} {ev' : τ → β → List ε}

theorem Emits.trans {s s' s'' : σ} {es es' : List ε} (h : S.Emits ev s es s')
    (h' : S.Emits ev s' es' s'') : S.Emits ev s (es ++ es') s'' := by
  induction h with
  | refl => exact h'
  | step hs _ ih =>
    rw [List.append_assoc]
    exact .step hs (ih h')

theorem Emits.single {s s' : σ} {a : α} {es : List ε} (hs : S.step s a = some s')
    (he : ev s a = es) : S.Emits ev s es s' := by
  have h : S.Emits ev s (ev s a ++ []) s' := .step hs (.refl s')
  rwa [List.append_nil, he] at h

theorem Emits.reach {s s' : σ} {es es₀ : List ε} (h : S.Emits ev s es s')
    (hr : (S.trace ev).Reachable (s, es₀)) : (S.trace ev).Reachable (s', es₀ ++ es) := by
  induction h generalizing es₀ with
  | refl => rwa [List.append_nil]
  | @step s s' s'' a es hs _ ih =>
    rw [← List.append_assoc]
    refine ih (.step hr trivial (a := a) ?_)
    simp only [trace, Lts.monitor, hs, Option.map_some]

variable (ev') in
/-- **Trace inclusion**: if each step of `S` is matched by a run of `T` with the same events
    that keeps the relation `R`, then `T` has each trace of `S`. -/
theorem trace_simulate {R : σ → τ → Prop} (h₀ : ∀ s, S.init s → ∃ t, T.init t ∧ R s t)
    (h₁ : ∀ s a s' t, S.Reachable s → R s t → S.step s a = some s' →
      ∃ t', T.Emits ev' t (ev s a) t' ∧ R s' t') {p : σ × List ε}
    (h : (S.trace ev).Reachable p) : ∃ t, (T.trace ev').Reachable (t, p.2) ∧ R p.1 t := by
  induction h with
  | @init p hp =>
    obtain ⟨t, ht, hr⟩ := h₀ _ hp.1
    exact ⟨t, .init ⟨ht, hp.2⟩, hr⟩
  | @step p p' a hp _ hs ih =>
    obtain ⟨t, ht, hr⟩ := ih
    obtain ⟨hstep, hrecord⟩ := monitor_step hs
    have hreach : S.Reachable p.1 := monitor_reach (C := fun _ _ => True) hp
    obtain ⟨t', hemits, hr'⟩ := h₁ _ _ _ _ hreach hr hstep
    exact ⟨t', hrecord ▸ hemits.reach ht, hr'⟩

end Traces

/-- Executing labels from a reached state reaches the resulting state. -/
theorem Reach.run {s s' : σ} (h : Reach S C s) :
    ∀ {as : List α}, S.Meets C s as → S.run s as = some s' → Reach S C s' := by
  intro as
  induction as generalizing s with
  | nil => intro _ hs; cases hs; exact h
  | cons a as ih =>
    rintro ⟨hc, hm⟩ hs
    obtain ⟨t, ht, hs⟩ := Option.bind_eq_some_iff.1 hs
    exact ih (.step h hc ht) (hm t ht) hs

/-- Executing labels is a run. -/
theorem Runs.of_run {s s' : σ} : ∀ {as : List α}, S.Meets C s as → S.run s as = some s' →
    S.Runs C s s' := by
  intro as
  induction as generalizing s with
  | nil => intro _ hs; cases hs; exact .refl
  | cons a as ih =>
    rintro ⟨hc, hm⟩ hs
    obtain ⟨t, ht, hs⟩ := Option.bind_eq_some_iff.1 hs
    exact .head ⟨a, hc, ht⟩ (ih (hm t ht) hs)

/-- A run that can be executed ends in a state with the properties found there. -/
theorem exists_run {s : σ} {as : List α} {P : σ → Prop} [DecidablePred P]
    (h : (S.run s as).any fun s' => decide (P s')) : ∃ s', S.run s as = some s' ∧ P s' := by
  cases hs : S.run s as with
  | none => rw [hs] at h; cases h
  | some s' => rw [hs] at h; exact ⟨s', rfl, of_decide_eq_true h⟩

theorem meets_true : ∀ (s : σ) (as : List α), S.Meets (fun _ _ => True) s as
  | _, [] => trivial
  | _, _ :: as => ⟨trivial, fun s' _ => meets_true s' as⟩

end Lts
