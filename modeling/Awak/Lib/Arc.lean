/-
  Reference-counted allocations.

  A heap has a strong count for each allocation.  Cloning a reference adds one to
  the count, dropping it takes one off and frees the allocation with the last one;
  both, and any access through a reference, are undefined on a pointer that is not
  allocated, which is `none` here.

  * `Heap.Owned h n`: the allocations of `h` are those with an owner, and their
    counts are the numbers `n` of their owners; then the operations of an owner are
    defined, and change the numbers as they should.
-/
import Mathlib.Tactic

namespace Arc

/-- The strong counts of the allocations. -/
structure Heap (P : Type) where
  strong : P → Option ℕ

namespace Heap

variable {P : Type} [DecidableEq P]

/-- `Arc::new`, at a pointer that is not allocated. -/
def new (h : Heap P) (p : P) : Heap P := ⟨Function.update h.strong p (some 1)⟩

/-- `Arc::clone`. -/
def clone (h : Heap P) (p : P) : Option (Heap P) :=
  match h.strong p with
  | some n => some ⟨Function.update h.strong p (some (n + 1))⟩
  | none => none

/-- `drop` of an `Arc`. -/
def drop (h : Heap P) (p : P) : Option (Heap P) :=
  match h.strong p with
  | some n => some ⟨Function.update h.strong p (if n = 1 then none else some (n - 1))⟩
  | none => none

/-- `p` can be dereferenced. -/
def live (h : Heap P) (p : P) : Bool := (h.strong p).isSome

/-- Exactly the pointers with an owner are allocated, with the number of owners as count. -/
def Owned (h : Heap P) (n : P → ℕ) : Prop :=
  ∀ p, h.strong p = if n p = 0 then none else some (n p)

variable {h : Heap P} {n : P → ℕ} {p : P}

omit [DecidableEq P] in
theorem Owned.live (ho : h.Owned n) (hp : n p ≠ 0) : h.live p = true := by
  rw [Heap.live, ho p, if_neg hp]
  rfl

omit [DecidableEq P] in
theorem Owned.free_iff (ho : h.Owned n) : h.strong p = none ↔ n p = 0 := by
  rw [ho p]
  split_ifs with hp
  · exact iff_of_true rfl hp
  · exact iff_of_false (by simp) hp

theorem Owned.new (ho : h.Owned n) {n' : P → ℕ} (hn : n' = Function.update n p 1) :
    (h.new p).Owned n' := by
  intro q
  rw [hn]
  by_cases hq : q = p
  · subst hq
    simp [Heap.new]
  · simp only [Heap.new, Function.update_of_ne hq]
    exact ho q

theorem Owned.clone (ho : h.Owned n) (hp : n p ≠ 0) {n' : P → ℕ}
    (hn : n' = Function.update n p (n p + 1)) : ∃ h', h.clone p = some h' ∧ h'.Owned n' := by
  have hs : h.strong p = some (n p) := by rw [ho p, if_neg hp]
  refine ⟨⟨Function.update h.strong p (some (n p + 1))⟩, by simp only [Heap.clone, hs], fun q => ?_⟩
  rw [hn]
  by_cases hq : q = p
  · subst hq
    simp
  · simp only [Function.update_of_ne hq]
    exact ho q

theorem Owned.drop (ho : h.Owned n) (hp : n p ≠ 0) {n' : P → ℕ}
    (hn : n' = Function.update n p (n p - 1)) : ∃ h', h.drop p = some h' ∧ h'.Owned n' := by
  have hs : h.strong p = some (n p) := by rw [ho p, if_neg hp]
  refine ⟨⟨Function.update h.strong p (if n p = 1 then none else some (n p - 1))⟩,
    by simp only [Heap.drop, hs], fun q => ?_⟩
  rw [hn]
  by_cases hq : q = p
  · subst hq
    have hone : n q - 1 = 0 ↔ n q = 1 := by omega
    simp only [Function.update_self, hone]
  · simp only [Function.update_of_ne hq]
    exact ho q

end Heap

end Arc
