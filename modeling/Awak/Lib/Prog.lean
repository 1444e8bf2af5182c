/-
  Programs over the atomic operations of a shared state, and a logic for
  running them among other threads.

  A program is a tree of operations; an operation reads and updates the state
  in one step, and what the program does next depends on what it has read.
  There are no unbounded loops, so every program ends.

  * `run`: the program runs alone;
  * `Keeps I`: every operation of the program keeps `I`;
  * `Runs`: the steps of a system do what the program does;
  * `Wp R G E p Q s`: whatever the other threads do between the operations of
    `p`, as far as each of their steps is in `R`, every operation of `p` is in
    `G`, and `p` ends in `Q` or panics in `E`.
-/
import Mathlib.Tactic

/-- A program with results in `α` over the state `σ`. -/
inductive Prog (σ α : Type) where
  | ret (a : α)
  | panic
  /-- the operation `upd`, after which `next` is run -/
  | act (next : σ → Prog σ α) (upd : σ → σ)

namespace Prog

variable {σ α β : Type}

/-- One program after the other; a panic ends both. -/
protected def bind : Prog σ α → (α → Prog σ β) → Prog σ β
  | ret a, f => f a
  | panic, _ => panic
  | act next upd, f => act (fun s => (next s).bind f) upd

instance : Monad (Prog σ) where
  pure := ret
  bind := Prog.bind

/-- One atomic operation. -/
def atom (f : σ → α × σ) : Prog σ α := act (fun s => ret (f s).1) fun s => (f s).2

/-! ## Running alone -/

/-- The result of a program that runs alone, `none` if it panics, and the state
    it leaves. -/
def run : Prog σ α → σ → Option α × σ
  | ret a, s => (some a, s)
  | panic, s => (none, s)
  | act next upd, s => (next s).run (upd s)

@[simp] theorem run_pure (a : α) (s : σ) : (pure a : Prog σ α).run s = (some a, s) := rfl

@[simp] theorem run_atom (f : σ → α × σ) (s : σ) : (atom f).run s = (some (f s).1, (f s).2) := rfl

theorem run_bind {p : Prog σ α} {f : α → Prog σ β} {s t : σ} {a : α}
    (h : p.run s = (some a, t)) : (p >>= f).run s = (f a).run t := by
  induction p generalizing s with
  | ret b => cases h; rfl
  | panic => cases h
  | act next upd ih => exact ih s h

theorem of_run_bind {p : Prog σ α} {f : α → Prog σ β} {s u : σ} {b : β}
    (h : (p >>= f).run s = (some b, u)) :
    ∃ a t, p.run s = (some a, t) ∧ (f a).run t = (some b, u) := by
  induction p generalizing s with
  | ret a => exact ⟨a, s, rfl, h⟩
  | panic => cases h
  | act next upd ih => exact ih s h

/-! ## What every operation keeps -/

/-- Every operation of the program keeps `I`. -/
def Keeps (I : σ → Prop) : Prog σ α → Prop
  | ret _ | panic => True
  | act next upd => ∀ s, (I s → I (upd s)) ∧ (next s).Keeps I

theorem Keeps.pure {I : σ → Prop} {a : α} : (pure a : Prog σ α).Keeps I := trivial

theorem Keeps.atom {I : σ → Prop} {f : σ → α × σ} (h : ∀ s, I s → I (f s).2) :
    (atom f).Keeps I := fun s => ⟨h s, trivial⟩

theorem Keeps.bind {I : σ → Prop} {p : Prog σ α} {f : α → Prog σ β} (hp : p.Keeps I)
    (hf : ∀ a, (f a).Keeps I) : (p >>= f).Keeps I := by
  induction p with
  | ret a => exact hf a
  | panic => trivial
  | act next upd ih => exact fun s => ⟨(hp s).1, ih s (hp s).2⟩

/-! ## Programs and the steps of a system -/

section Steps
variable {τ : Type} {next : τ → τ → Prop} {M : τ → σ → Prop}

/-- The system with the steps `next` does from `x` what `p` does to the state that
    `x` stands for by `M`, and then satisfies `Q`. -/
def Runs (next : τ → τ → Prop) (M : τ → σ → Prop) (p : Prog σ α) (x : τ) (Q : α → τ → Prop) :
    Prop :=
  ∀ s, M x s → ∀ a t, p.run s = (some a, t) →
    ∃ y, Relation.ReflTransGen next x y ∧ M y t ∧ Q a y

theorem Runs.pure {a : α} {x : τ} {Q : α → τ → Prop} (h : Q a x) :
    Runs next M (pure a : Prog σ α) x Q := by
  intro s hs b t hrun
  cases hrun
  exact ⟨x, .refl, hs, h⟩

theorem Runs.panic {x : τ} {Q : α → τ → Prop} : Runs next M (panic : Prog σ α) x Q := by
  intro s hs a t hrun
  cases hrun

theorem Runs.bind {p : Prog σ α} {f : α → Prog σ β} {x : τ} {Q : β → τ → Prop}
    (h : Runs next M p x fun a y => Runs next M (f a) y Q) : Runs next M (p >>= f) x Q := by
  intro s hs b u hrun
  obtain ⟨a, t, hp, hf⟩ := of_run_bind hrun
  obtain ⟨y, hy, ht, hf'⟩ := h s hs a t hp
  obtain ⟨z, hz, hu, hQ⟩ := hf' t ht b u hf
  exact ⟨z, hy.trans hz, hu, hQ⟩

theorem Runs.mono {p : Prog σ α} {x : τ} {Q Q' : α → τ → Prop} (h : Runs next M p x Q)
    (hQ : ∀ a y, Q a y → Q' a y) : Runs next M p x Q' := by
  intro s hs a t hrun
  obtain ⟨y, hy, ht, hq⟩ := h s hs a t hrun
  exact ⟨y, hy, ht, hQ a y hq⟩

/-- One operation. -/
theorem Runs.atom {f : σ → α × σ} {x : τ} {Q : α → τ → Prop}
    (h : ∀ s, M x s → ∃ y, Relation.ReflTransGen next x y ∧ M y (f s).2 ∧ Q (f s).1 y) :
    Runs next M (atom f) x Q := by
  intro s hs a t hrun
  cases hrun
  exact h s hs

/-- The system moves on, and the program does not. -/
theorem Runs.steps {p : Prog σ α} {x y : τ} {Q : α → τ → Prop}
    (hxy : Relation.ReflTransGen next x y) (hM : ∀ s, M x s → M y s) (h : Runs next M p y Q) :
    Runs next M p x Q := by
  intro s hs a t hrun
  obtain ⟨z, hz, ht, hq⟩ := h s (hM s hs) a t hrun
  exact ⟨z, hxy.trans hz, ht, hq⟩

end Steps

/-! ## Running among other threads -/

section Logic
variable {R G : σ → σ → Prop} {E : σ → Prop}

/-- `p`, started in `s` among threads whose steps are in `R`, does operations
    that are in `G` and ends in `Q`; where it panics, `E` holds. -/
def Wp (R G : σ → σ → Prop) (E : σ → Prop) : Prog σ α → (α → σ → Prop) → σ → Prop
  | ret a, Q, s => Q a s
  | panic, _, s => E s
  | act next upd, Q, s => ∀ t, R s t → G t (upd t) ∧ Wp R G E (next t) Q (upd t)

theorem Wp.mono {p : Prog σ α} {Q Q' : α → σ → Prop} (hQ : ∀ a t, Q a t → Q' a t) {s : σ}
    (h : p.Wp R G E Q s) : p.Wp R G E Q' s := by
  induction p generalizing s with
  | ret a => exact hQ a s h
  | panic => exact h
  | act next upd ih => exact fun t ht => ⟨(h t ht).1, ih t (h t ht).2⟩

theorem Wp.bind {p : Prog σ α} {f : α → Prog σ β} {Q : β → σ → Prop} {s : σ}
    (h : p.Wp R G E (fun a t => (f a).Wp R G E Q t) s) : (p >>= f).Wp R G E Q s := by
  induction p generalizing s with
  | ret a => exact h
  | panic => exact h
  | act next upd ih => exact fun t ht => ⟨(h t ht).1, ih t (h t ht).2⟩

theorem Wp.pure {a : α} {Q : α → σ → Prop} {s : σ} (h : Q a s) :
    (pure a : Prog σ α).Wp R G E Q s := h

theorem Wp.panic {Q : α → σ → Prop} {s : σ} (h : E s) : (panic : Prog σ α).Wp R G E Q s := h

theorem Wp.atom {f : σ → α × σ} {Q : α → σ → Prop} {s : σ}
    (h : ∀ t, R s t → G t (f t).2 ∧ Q (f t).1 (f t).2) : (atom f).Wp R G E Q s := h

/-- What the other threads and the operations of the program keep holds at its end. -/
theorem Wp.keeps {I : σ → Prop} (hR : ∀ s t, R s t → I s → I t) {p : Prog σ α}
    (hp : p.Keeps I) {Q : α → σ → Prop} {s : σ} (h : p.Wp R G E Q s) (hs : I s) :
    p.Wp R G E (fun a t => Q a t ∧ I t) s := by
  induction p generalizing s with
  | ret a => exact ⟨h, hs⟩
  | panic => exact h
  | act next upd ih =>
    refine fun t ht => ⟨(h t ht).1, ih t (hp t).2 (h t ht).2 ?_⟩
    exact (hp t).1 (hR s t ht hs)

/-- A program of one operation. -/
def Atomic (p : Prog σ α) : Prop :=
  ∃ next upd, p = act next upd ∧ ∀ s, (∃ a, next s = ret a) ∨ next s = panic

theorem atomic_atom (f : σ → α × σ) : (atom f).Atomic :=
  ⟨_, _, rfl, fun s => Or.inl ⟨(f s).1, rfl⟩⟩

/-- One operation is known by how it runs alone. -/
theorem Wp.atomic {p : Prog σ α} (hp : p.Atomic) {Q : α → σ → Prop} {s : σ}
    (h : ∀ t, R s t → G t (p.run t).2 ∧ (∀ a, (p.run t).1 = some a → Q a (p.run t).2) ∧
      ((p.run t).1 = none → E (p.run t).2)) : p.Wp R G E Q s := by
  obtain ⟨next, upd, rfl, hnext⟩ := hp
  intro t ht
  obtain ⟨hG, hQ, hE⟩ := h t ht
  rcases hnext t with ⟨a, ha⟩ | ha
  · simp only [run, ha] at hG hQ ⊢
    exact ⟨hG, hQ a rfl⟩
  · simp only [run, ha] at hG hE ⊢
    exact ⟨hG, hE trivial⟩

/-- The other threads may move before the first operation, if they keep `E`. -/
theorem Wp.rely (hR : ∀ r s t, R r s → R s t → R r t) (hE : ∀ s t, E s → R s t → E t)
    {p : Prog σ α} (hp : ∀ a, p ≠ ret a) {Q : α → σ → Prop} {s t : σ} (h : p.Wp R G E Q s)
    (hst : R s t) : p.Wp R G E Q t := by
  cases p with
  | ret a => exact absurd rfl (hp a)
  | panic => exact hE s t h hst
  | act next upd => exact fun u hu => h u (hR s t u hst hu)

end Logic

end Prog
