/-
  The life of an `Async` of `io/mod.rs`: `Async::new`, `Async::into_inner` and `drop`,
  with `insert_io` and `remove_io` of `io/reactor.rs`.

  A section under the lock of `sources` is one step.  Both branches of `into_inner`
  drop `self` when it returns, and `drop` calls `remove_io` whether or not the handle
  was taken.  The slab gives out any vacant key; `Slab::remove` panics on a vacant key,
  which poisons the lock, so that every later `sources.lock().unwrap()` panics.
  `removals` records the calls of `sources.remove(key)`: the `Async` they are for and
  what the slab held.

  * `Exact`: each source is removed at most once, by its own `Async`, and the occupied
    keys are those of the `Async` values alive and not taken apart;
  * `deregistered_once`: this holds while `into_inner` is not called, and is broken
    by every call of it;
  * `deregistered_twice`: the two ways in which that shows.
-/
import Awak.Lib.Lts

namespace Awak

variable {κ : Type}

/-- How far an `Async` has got. -/
inductive Async.Phase where
  | live
  /-- `into_inner` has taken the handle and called `remove_io`, with this result -/
  | taken (ok : Bool)
  | dropped
  deriving DecidableEq

/-- An `Async`: the key of its source, and what has been called on it. -/
structure Async where
  key : ℕ
  phase : Async.Phase
  deriving DecidableEq

namespace Async

/-- The slab of `sources`, the objects, and the removals so far. -/
structure State (κ : Type) where
  slab : ℕ → Option κ
  async : κ → Option Async
  /-- the lock of `sources` is poisoned -/
  poisoned : Bool
  removals : List (κ × Option κ)

/-- Nothing is registered. -/
def init : State κ := ⟨fun _ => none, fun _ => none, false, []⟩

/-- The calls of `Async::new` in which `poller.insert` succeeds, of `into_inner`, whose
    `poller.remove` may fail, and of `drop`. -/
inductive Act (κ : Type) where
  | new (x : κ) (key : ℕ)
  | intoInner (x : κ) (ok : Bool)
  | drop (x : κ)

section Steps
variable [DecidableEq κ]

/-- The object of `x` becomes `v`. -/
def State.set (s : State κ) (x : κ) (v : Async) : State κ :=
  { s with async := Function.update s.async x (some v) }

/-- `Reactor::insert_io`, under the lock. -/
def State.insertIo (s : State κ) (x : κ) (key : ℕ) : State κ :=
  { s with slab := Function.update s.slab key (some x) }

/-- `Reactor::remove_io` for the source of `x`. -/
def State.removeIo (s : State κ) (x : κ) (key : ℕ) : State κ :=
  { s with
    slab := Function.update s.slab key none
    poisoned := s.poisoned || (s.slab key).isNone
    removals := s.removals ++ [(x, s.slab key)] }

/-- `Async::new`, `into_inner`, `drop`, and the panics with the lock held. -/
def step (s : State κ) : Act κ → Option (State κ)
  | .new x key =>
    if s.async x = none ∧ s.slab key = none ∧ s.poisoned = false then
      some ((s.insertIo x key).set x ⟨key, .live⟩)
    else none
  | .intoInner x ok =>
    match s.async x with
    | some ⟨key, .live⟩ =>
      if s.poisoned = false then some ((s.removeIo x key).set x ⟨key, .taken ok⟩) else none
    | _ => none
  | .drop x =>
    match s.async x with
    | some ⟨key, .live⟩ | some ⟨key, .taken _⟩ =>
      if s.poisoned = false then some ((s.removeIo x key).set x ⟨key, .dropped⟩) else none
    | _ => none

/-- Any number of objects, in any order of calls. -/
def system : Lts (State κ) (Act κ) where
  init s := s = init
  step := step

end Steps

/-- Sources are deregistered exactly once. -/
structure Exact (s : State κ) : Prop where
  once : (s.removals.map Prod.fst).Nodup
  own : ∀ e ∈ s.removals, e.2 = some e.1
  poisoned : s.poisoned = false
  slab : ∀ k x, s.slab k = some x ↔ s.async x = some ⟨k, .live⟩

/-- `into_inner` is not called. -/
def KeepsHandle : Act κ → Prop
  | .intoInner _ _ => False
  | _ => True

instance : DecidablePred (KeepsHandle : Act κ → Prop)
  | .new _ _ => isTrue trivial
  | .intoInner _ _ => isFalse id
  | .drop _ => isTrue trivial

/-- No `Async` is taken apart, and only the dropped ones have been removed. -/
structure Inv (s : State κ) : Prop extends Exact s where
  kept : ∀ x key ok, s.async x ≠ some ⟨key, .taken ok⟩
  gone : ∀ e ∈ s.removals, ∃ key, s.async e.1 = some ⟨key, .dropped⟩

theorem inv_init : Inv (init : State κ) := by
  constructor
  · constructor <;> simp [init]
  · simp [init]
  · simp [init]

section Steps
variable [DecidableEq κ] {s s' : State κ} {x : κ} {key : ℕ}

theorem set_async (s : State κ) (x : κ) (v : Async) (y : κ) :
    (s.set x v).async y = if y = x then some v else s.async y := by
  by_cases hy : y = x
  · subst hy; simp [State.set]
  · simp [State.set, hy]

/-- The key of a live `Async` is removed from the slab. -/
theorem Inv.removeIo (h : Inv s) (hx : s.async x = some ⟨key, .live⟩) :
    Inv ((s.removeIo x key).set x ⟨key, .dropped⟩) := by
  have hk : s.slab key = some x := (h.slab key x).2 hx
  have hnew : ∀ e ∈ s.removals, e.1 ≠ x := by
    intro e he hex
    obtain ⟨key', hd⟩ := h.gone e he
    rw [hex, hx] at hd; cases hd
  refine { once := ?_, own := ?_, poisoned := ?_, slab := ?_, kept := ?_, gone := ?_ }
  · show ((s.removals ++ [(x, s.slab key)]).map Prod.fst).Nodup
    rw [List.map_append]
    refine List.nodup_append.2 ⟨h.once, List.nodup_singleton _, ?_⟩
    intro y hy z hz hyz
    obtain ⟨e, he, rfl⟩ := List.mem_map.1 hy
    exact hnew e he (hyz.trans (List.mem_singleton.1 hz))
  · intro e he
    rcases List.mem_append.1 he with he | he
    · exact h.own e he
    · rw [List.mem_singleton.1 he]; exact hk
  · show (s.poisoned || (s.slab key).isNone) = false
    rw [h.poisoned, hk]; rfl
  · intro k y
    rw [set_async]
    show Function.update s.slab key none k = some y ↔ _
    by_cases hkk : k = key
    · subst hkk
      rw [Function.update_self]
      split_ifs with hy
      · simp
      · refine iff_of_false (by simp) fun hl => hy ?_
        exact Option.some_inj.1 (((h.slab k y).2 hl).symm.trans hk)
    · rw [Function.update_of_ne hkk, h.slab k y]
      split_ifs with hy
      · subst hy
        rw [hx]
        simp [Ne.symm hkk]
      · rfl
  · intro y k ok
    rw [set_async]
    split_ifs
    · simp
    · exact h.kept y k ok
  · intro e he
    rw [set_async]
    rcases List.mem_append.1 he with he | he
    · rw [if_neg (hnew e he)]; exact h.gone e he
    · rw [List.mem_singleton.1 he, if_pos rfl]; exact ⟨key, rfl⟩

theorem Inv.insertIo (h : Inv s) (hx : s.async x = none) (hk : s.slab key = none) :
    Inv ((s.insertIo x key).set x ⟨key, .live⟩) := by
  refine { once := h.once, own := h.own, poisoned := h.poisoned, slab := ?_, kept := ?_, gone := ?_ }
  · intro k y
    rw [set_async]
    show Function.update s.slab key (some x) k = some y ↔ _
    by_cases hkk : k = key
    · subst hkk
      rw [Function.update_self]
      split_ifs with hy
      · simp [hy]
      · refine iff_of_false (fun he => hy (Option.some_inj.1 he).symm) fun hl => ?_
        rw [(h.slab k y).2 hl] at hk; cases hk
    · rw [Function.update_of_ne hkk, h.slab k y]
      split_ifs with hy
      · subst hy
        rw [hx]
        simp [Ne.symm hkk]
      · rfl
  · intro y k ok
    rw [set_async]
    split_ifs
    · simp
    · exact h.kept y k ok
  · intro e he
    obtain ⟨k, hd⟩ := h.gone e he
    rw [set_async]
    split_ifs with hy
    · rw [hy, hx] at hd; cases hd
    · exact ⟨k, hd⟩

theorem Inv.step (h : Inv s) {a : Act κ} (ha : KeepsHandle a) (hs : Async.step s a = some s') :
    Inv s' := by
  cases a with
  | new x key =>
    obtain ⟨⟨hx, hk, -⟩, hs⟩ := Option.ite_none_right_eq_some.1 hs
    cases hs
    exact h.insertIo hx hk
  | intoInner x ok => exact ha.elim
  | drop x =>
    simp only [Async.step] at hs
    split at hs
    next key hx =>
      obtain ⟨-, hs⟩ := Option.ite_none_right_eq_some.1 hs
      cases hs
      exact h.removeIo hx
    next key ok hx => exact absurd hx (h.kept x key ok)
    next => cases hs

theorem inv_reach (h : system.Reach (fun _ => KeepsHandle) s) : Inv s := by
  refine h.inv (P := Inv) ?_ ?_
  · rintro _ rfl
    exact inv_init
  · intro s a s' _ hi ha hs
    exact hi.step ha hs

/-- When `self` is dropped after `into_inner`, its key is removed again. -/
theorem removed_twice (h : Exact s) {ok : Bool} (hs : step s (.intoInner x ok) = some s') :
    ∃ s'', step s' (.drop x) = some s'' ∧ ¬ Exact s'' := by
  simp only [step] at hs
  split at hs
  next key hx =>
    obtain ⟨-, hs⟩ := Option.ite_none_right_eq_some.1 hs
    cases hs
    have hk : s.slab key = some x := (h.slab key x).2 hx
    have hx' : ((s.removeIo x key).set x ⟨key, .taken ok⟩).async x = some ⟨key, .taken ok⟩ := by
      rw [set_async, if_pos rfl]
    have hp : ((s.removeIo x key).set x ⟨key, .taken ok⟩).poisoned = false := by
      show (s.poisoned || (s.slab key).isNone) = false
      rw [h.poisoned, hk]; rfl
    refine ⟨_, by simp only [step, hx']; exact if_pos hp, fun hex => ?_⟩
    -- the two removals are the last entries of the record
    have hnodup : (s.removals.map Prod.fst ++ [x, x]).Nodup := by
      simpa [State.set, State.removeIo] using hex.once
    exact absurd (List.nodup_append.1 hnodup).2.1 (by simp)
  next => cases hs

/-- **Sources are deregistered exactly once** while no `Async` is taken apart by `into_inner`;
    every call of `into_inner` breaks this when it drops `self`. -/
theorem deregistered_once (h : system.Reach (fun _ => KeepsHandle) s) :
    Exact s ∧ ∀ x ok s', step s (.intoInner x ok) = some s' →
      ∃ s'', step s' (.drop x) = some s'' ∧ ¬ Exact s'' :=
  ⟨(inv_reach h).toExact, fun _ _ _ hs => removed_twice (inv_reach h).toExact hs⟩

end Steps

/-- A key is used again after its `Async` was dropped. -/
def reuseKey : List (Act ℕ) := [.new 0 0, .new 1 1, .drop 0, .new 2 0, .drop 1]

theorem deregistered_once_reused : ∃ s : State ℕ, system.run init reuseKey = some s ∧
    s.removals = [(0, some 0), (1, some 1)] ∧ s.slab 0 = some 2 ∧ Exact s := by
  have hrun : ∃ s : State ℕ, system.run init reuseKey = some s ∧
      s.removals = [(0, some 0), (1, some 1)] ∧ s.slab 0 = some 2 :=
    Lts.exists_run (by decide +kernel)
  obtain ⟨s, hs, hr, hk⟩ := hrun
  have hm : system.Meets (fun _ => KeepsHandle) (init : State ℕ) reuseKey := by decide +kernel
  exact ⟨s, hs, hr, hk, (deregistered_once (.run (.init rfl) hm hs)).1⟩

/-- `into_inner` returns and `self` is dropped: the key is vacant, and the panic poisons the
    lock.  If another thread has inserted a source in between, it is that one which is
    removed. -/
theorem deregistered_twice :
    (∃ s : State ℕ, system.run init [.new 0 0, .intoInner 0 true, .drop 0] = some s ∧
      ¬ Exact s ∧ s.poisoned = true) ∧
    ∃ s : State ℕ, system.run init [.new 0 0, .intoInner 0 true, .new 1 0, .drop 0] = some s ∧
      ¬ Exact s ∧ s.async 1 = some ⟨0, .live⟩ ∧ s.slab 0 = none := by
  have h₁ : ∃ s : State ℕ, system.run init [.new 0 0, .intoInner 0 true, .drop 0] = some s ∧
      s.poisoned = true := Lts.exists_run (by decide +kernel)
  have h₂ : ∃ s : State ℕ,
      system.run init [.new 0 0, .intoInner 0 true, .new 1 0, .drop 0] = some s ∧
      s.async 1 = some ⟨0, .live⟩ ∧ s.slab 0 = none := Lts.exists_run (by decide +kernel)
  obtain ⟨s, hs, hp⟩ := h₁
  obtain ⟨s', hs', hl, hk⟩ := h₂
  refine ⟨⟨s, hs, fun h => ?_, hp⟩, s', hs', fun h => ?_, hl, hk⟩
  · exact absurd (h.poisoned.symm.trans hp) (by decide)
  · exact absurd (hk.symm.trans ((h.slab 0 1).2 hl)) (by decide)

end Async
end Awak
