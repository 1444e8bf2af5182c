/-
  `Queue` of `queue.rs`: a bounded FIFO behind a lock.

  Each of `push`, `pop` and `len` is one lock section, so one step of the
  systems that use a queue.  The length stored next to the deque is the length
  of the deque, and never exceeds the capacity; `inner.length += 1` does not
  overflow, since it is guarded by `capacity ≠ length`.
-/
import Mathlib.Tactic

namespace Awak

/-- A queue with its stored length and its capacity. -/
structure Queue (T : Type) where
  queue : List T
  length : ℕ
  capacity : ℕ
  length_eq : length = queue.length
  length_le : length ≤ capacity

namespace Queue

variable {T : Type}

/-- `Queue::bound`. -/
def bound (n : ℕ) : Queue T := ⟨[], 0, n, rfl, Nat.zero_le n⟩

/-- `Queue::unbound`: the capacity is `usize::MAX`. -/
def unbound : Queue T := bound (2 ^ 64 - 1)

/-- `Queue::pop`, with `none` for `ErrorEmpty`. -/
def pop (q : Queue T) : Option (T × Queue T) :=
  match hq : q.queue with
  | [] => none
  | t :: rest => some (t, {
      queue := rest
      length := q.length - 1
      capacity := q.capacity
      length_eq := by rw [q.length_eq, hq]; rfl
      length_le := (Nat.sub_le _ _).trans q.length_le })

/-- `Queue::push`, with `none` for `ErrorFull`. -/
def push (q : Queue T) (t : T) : Option (Queue T) :=
  if h : q.capacity = q.length then none
  else some {
    queue := q.queue ++ [t]
    length := q.length + 1
    capacity := q.capacity
    length_eq := by rw [q.length_eq, List.length_append]; rfl
    length_le := by have := q.length_le; omega }

/-- `Queue::len`. -/
def len (q : Queue T) : ℕ := q.length

variable {q q' : Queue T} {t : T}

theorem queue_length_le (q : Queue T) : q.queue.length ≤ q.capacity :=
  q.length_eq ▸ q.length_le

theorem pop_some (h : q.pop = some (t, q')) :
    q.queue = t :: q'.queue ∧ q'.capacity = q.capacity := by
  unfold pop at h
  split at h
  · cases h
  next hq => cases h; exact ⟨hq, rfl⟩

theorem pop_none (h : q.pop = none) : q.queue = [] := by
  unfold pop at h
  split at h
  next hq => exact hq
  next => cases h

theorem push_some (h : q.push t = some q') :
    q'.queue = q.queue ++ [t] ∧ q'.capacity = q.capacity := by
  unfold push at h
  split at h <;> cases h
  exact ⟨rfl, rfl⟩

theorem push_none (h : q.push t = none) : q.queue.length = q.capacity := by
  unfold push at h
  split at h
  next hc => rw [hc, q.length_eq]
  next => cases h

end Queue
end Awak
