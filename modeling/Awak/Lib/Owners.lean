/-
  Items that each have exactly one owner.

  Each of any number of owners has at most one item.  `Exact l f` says that the
  items in `l` are those that the owners have by `f`, each of them once.

  * `Exact.acquire`, `Exact.release`: an owner takes a new item, or gives its item up;
  * `Exact.existsUnique`: an item has exactly one owner.
-/
import Mathlib.Tactic

namespace Owners

variable {ι α : Type}

/-- The items `l` are owned, each by one owner, and nothing else is. -/
structure Exact (l : List α) (f : ι → Option α) : Prop where
  nodup : l.Nodup
  mem : ∀ i a, f i = some a → a ∈ l
  owner : ∀ a ∈ l, ∃ i, f i = some a
  unique : ∀ i j a, f i = some a → f j = some a → i = j

namespace Exact

variable {l : List α} {f : ι → Option α}

theorem nil : Exact ([] : List α) (fun _ : ι => none) where
  nodup := List.nodup_nil
  mem := by simp
  owner := by simp
  unique := by simp

theorem existsUnique (h : Exact l f) {a : α} (ha : a ∈ l) : ∃! i, f i = some a := by
  obtain ⟨i, hi⟩ := h.owner a ha
  exact ⟨i, hi, fun j hj => h.unique j i a hj hi⟩

variable [DecidableEq ι]

/-- An owner without an item takes a new one. -/
theorem acquire (h : Exact l f) {i : ι} {a : α} (hi : f i = none) (ha : a ∉ l) :
    Exact (a :: l) (Function.update f i (some a)) := by
  have hnew : ∀ j b, Function.update f i (some a) j = some b →
      j = i ∧ b = a ∨ j ≠ i ∧ f j = some b := by
    intro j b hj
    by_cases hji : j = i
    · subst hji
      rw [Function.update_self, Option.some.injEq] at hj
      exact Or.inl ⟨rfl, hj.symm⟩
    · rw [Function.update_of_ne hji] at hj
      exact Or.inr ⟨hji, hj⟩
  refine ⟨List.nodup_cons.2 ⟨ha, h.nodup⟩, fun j b hj => ?_, fun b hb => ?_,
    fun j k b hj hk => ?_⟩
  · rcases hnew j b hj with ⟨-, rfl⟩ | ⟨-, hj⟩
    · exact List.mem_cons_self
    · exact List.mem_cons_of_mem _ (h.mem j b hj)
  · rcases List.mem_cons.1 hb with rfl | hb
    · exact ⟨i, Function.update_self ..⟩
    · obtain ⟨j, hj⟩ := h.owner b hb
      have hji : j ≠ i := by
        rintro rfl
        rw [hi] at hj; cases hj
      exact ⟨j, by rwa [Function.update_of_ne hji]⟩
  · rcases hnew j b hj with ⟨hji, rfl⟩ | ⟨-, hj⟩ <;> rcases hnew k b hk with ⟨hki, hb⟩ | ⟨-, hk⟩
    · rw [hji, hki]
    · exact absurd (h.mem k b hk) ha
    · exact absurd (h.mem j b hj) (hb ▸ ha)
    · exact h.unique j k b hj hk

/-- An owner gives its item up. -/
theorem release [DecidableEq α] (h : Exact l f) {i : ι} {a : α} (hi : f i = some a) :
    Exact (l.erase a) (Function.update f i none) := by
  have hold : ∀ j b, Function.update f i none j = some b → j ≠ i ∧ f j = some b := by
    intro j b hj
    by_cases hji : j = i
    · subst hji
      rw [Function.update_self] at hj; cases hj
    · exact ⟨hji, by rwa [Function.update_of_ne hji] at hj⟩
  refine ⟨h.nodup.erase a, fun j b hj => ?_, fun b hb => ?_, fun j k b hj hk => ?_⟩
  · obtain ⟨hji, hj⟩ := hold j b hj
    refine h.nodup.mem_erase_iff.2 ⟨?_, h.mem j b hj⟩
    rintro rfl
    exact hji (h.unique j i b hj hi)
  · obtain ⟨hba, hb⟩ := h.nodup.mem_erase_iff.1 hb
    obtain ⟨j, hj⟩ := h.owner b hb
    have hji : j ≠ i := by
      rintro rfl
      exact hba (Option.some_inj.1 (hj.symm.trans hi))
    exact ⟨j, by rwa [Function.update_of_ne hji]⟩
  · exact h.unique j k b (hold j b hj).2 (hold k b hk).2

/-- An owner that keeps its item. -/
theorem keep (h : Exact l f) {i : ι} {o : Option α} (hi : f i = o) :
    Exact l (Function.update f i o) := by
  rwa [← hi, Function.update_eq_self]

end Exact

end Owners
