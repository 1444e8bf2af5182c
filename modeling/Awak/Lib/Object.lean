/-
  An object whose methods are programs over a shared state, among other threads.

  The owner of the object calls one method after the other.  A call takes the
  object in the form it has, does its operations on the shared state one by one,
  and returns an answer and the object in a new form; a method may not be
  callable in every form.  Between any two operations, and between two calls,
  other threads move.

  * `Object.system`: the object among the other threads;
  * `Object.Contract`: what is known of the object between two calls, of the
    answer of a call, and of a call that panics, in terms of the calls before it;
  * `Contract.reach`: in every run each call has answered as the contract says,
    and so is an object between two calls or in a panic.

  A panic ends the run of the object, not that of the other threads.
-/
import Awak.Lib.History
import Awak.Lib.Lts
import Awak.Lib.Prog

open History

/-- An object with forms `ρ` over the shared state `σ`; its methods, with their
    arguments, are `κ` and their answers `ο`.  The other threads make the moves `μ`. -/
structure Object (σ ρ κ ο μ : Type) where
  call : κ → ρ → Option (Prog σ (ο × ρ))
  move : σ → μ → Option σ

namespace Object

variable {σ ρ κ ο μ : Type}

/-- Where the owner is: between two calls, or in one. -/
inductive Place (σ ρ κ ο : Type) where
  | rest (x : ρ)
  | busy (k : κ) (p : Prog σ (ο × ρ))

/-- The shared state, the object, and the calls that have returned. -/
structure State (σ ρ κ ο : Type) where
  shared : σ
  place : Place σ ρ κ ο
  calls : List (κ × ο)

/-- A call, the next operation of the one in progress, or a move of the others. -/
inductive Act (κ μ : Type) where
  | call (k : κ)
  /-- the next operation of the call in progress -/
  | next
  | other (m : μ)

/-- Go on with the call `k`. -/
def State.go (s : State σ ρ κ ο) (k : κ) : Prog σ (ο × ρ) → State σ ρ κ ο
  | .ret out => { s with place := .rest out.2, calls := s.calls ++ [(k, out.1)] }
  | p => { s with place := .busy k p }

variable (O : Object σ ρ κ ο μ)

/-- One such move; a call begins only when none is in progress. -/
def step (s : State σ ρ κ ο) : Act κ μ → Option (State σ ρ κ ο)
  | .call k =>
    match s.place with
    | .rest x => (O.call k x).map (s.go k)
    | .busy _ _ => none
  | .next =>
    match s.place with
    | .busy k (.act next upd) =>
      some (State.go { s with shared := upd s.shared } k (next s.shared))
    | _ => none
  | .other m => (O.move s.shared m).map fun t => { s with shared := t }

/-- The object starts in the form `x₀`, the shared state in `s₀`. -/
def system (x₀ : ρ) (s₀ : σ) : Lts (State σ ρ κ ο) (Act κ μ) where
  init s := s = ⟨s₀, .rest x₀, []⟩
  step := O.step

/-- The object between two calls. -/
def State.resting (s : State σ ρ κ ο) : Option ρ :=
  match s.place with
  | .rest x => some x
  | .busy _ _ => none

/-- The call that has panicked. -/
def State.panicked (s : State σ ρ κ ο) : Option κ :=
  match s.place with
  | .busy k .panic => some k
  | _ => none

/-- What is known of an object, whatever the other threads do, as far as their moves are
    in `R`; its own operations are in `G`. -/
structure Contract (R G : σ → σ → Prop) where
  /-- the answer of a call, after the calls `h` -/
  Ok (h : List (κ × ο)) (e : κ × ο) : Prop
  /-- the object in the form `x` between two calls, after the calls `h` -/
  Rest (h : List (κ × ο)) (x : ρ) (s : σ) : Prop
  /-- the call `k`, after the calls `h`, has panicked -/
  Panics (h : List (κ × ο)) (k : κ) (s : σ) : Prop
  refl : ∀ s, R s s
  trans : ∀ r s t, R r s → R s t → R r t
  move : ∀ s m t, O.move s m = some t → R s t
  stable : ∀ h x s t, Rest h x s → R s t → Rest h x t
  panics : ∀ h k s t, Panics h k s → R s t → Panics h k t
  call : ∀ h k x s p, Rest h x s → O.call k x = some p →
    p.Wp R G (Panics h k) (fun out t => Ok h (k, out.1) ∧ Rest (h ++ [(k, out.1)]) out.2 t) s

namespace Contract

variable {O} {R G : σ → σ → Prop} (C : O.Contract R G) {s s' : State σ ρ κ ο}

/-- What a call leaves when it returns. -/
def Post (h : List (κ × ο)) (k : κ) (out : ο × ρ) (t : σ) : Prop :=
  C.Ok h (k, out.1) ∧ C.Rest (h ++ [(k, out.1)]) out.2 t

/-- What is known at each place. -/
def PlaceOk (s : State σ ρ κ ο) : Prop :=
  match s.place with
  | .rest x => C.Rest s.calls x s.shared
  | .busy k p => (∀ out, p ≠ .ret out) ∧ p.Wp R G (C.Panics s.calls k) (C.Post s.calls k) s.shared

/-- The invariant of a run. -/
structure Inv (s : State σ ρ κ ο) : Prop where
  calls : Each C.Ok s.calls
  place : C.PlaceOk s

variable {C}

theorem Inv.go (hc : Each C.Ok s.calls) {k : κ} {p : Prog σ (ο × ρ)}
    (hp : p.Wp R G (C.Panics s.calls k) (C.Post s.calls k) s.shared) : C.Inv (s.go k p) := by
  cases p with
  | ret out => exact ⟨hc.concat hp.1, hp.2⟩
  | panic => exact ⟨hc, by simp, hp⟩
  | act next upd => exact ⟨hc, by simp, hp⟩

theorem Inv.other (h : C.Inv s) {t : σ} (ht : R s.shared t) : C.Inv { s with shared := t } := by
  refine ⟨h.calls, ?_⟩
  have hplace := h.place
  unfold PlaceOk at hplace ⊢
  dsimp only
  cases hs : s.place with
  | rest x =>
    rw [hs] at hplace
    exact C.stable _ _ _ _ hplace ht
  | busy k p =>
    rw [hs] at hplace
    exact ⟨hplace.1, hplace.2.rely C.trans (C.panics _ _) hplace.1 ht⟩

theorem Inv.step (h : C.Inv s) {a : Act κ μ} (hs : O.step s a = some s') : C.Inv s' := by
  have hplace := h.place
  unfold PlaceOk at hplace
  cases a with
  | call k =>
    simp only [Object.step] at hs
    split at hs
    next x hx =>
      rw [hx] at hplace
      obtain ⟨p, hp, rfl⟩ := Option.map_eq_some_iff.1 hs
      exact Inv.go h.calls (C.call _ _ _ _ _ hplace hp)
    next => cases hs
  | next =>
    simp only [Object.step] at hs
    split at hs
    next k next upd hx =>
      cases hs
      rw [hx] at hplace
      exact Inv.go (s := { s with shared := upd s.shared }) h.calls
        (hplace.2 s.shared (C.refl _)).2
    next => cases hs
  | other m =>
    obtain ⟨t, ht, rfl⟩ := Option.map_eq_some_iff.1 hs
    exact h.other (C.move _ _ _ ht)

/-- **Every run keeps the contract.** -/
theorem reach (C : O.Contract R G) {x₀ : ρ} {s₀ : σ} (h₀ : C.Rest [] x₀ s₀)
    (h : (O.system x₀ s₀).Reachable s) :
    Each C.Ok s.calls ∧ (∀ x, s.resting = some x → C.Rest s.calls x s.shared) ∧
      ∀ k, s.panicked = some k → C.Panics s.calls k s.shared := by
  have hinv : C.Inv s := by
    refine h.inv (P := C.Inv) ?_ fun s a s' _ hi _ hs => hi.step hs
    rintro _ rfl
    exact ⟨each_nil, h₀⟩
  have hplace := hinv.place
  refine ⟨hinv.calls, fun x hx => ?_, fun k hk => ?_⟩
  · unfold State.resting at hx
    split at hx <;> cases hx
    next hs =>
      rw [PlaceOk, hs] at hplace
      exact hplace
  · unfold State.panicked at hk
    split at hk <;> cases hk
    next hs =>
      rw [PlaceOk, hs] at hplace
      exact hplace.2

end Contract

end Object
