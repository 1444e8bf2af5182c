/-
  Counting what is kept in finitely many places.

  To show that an item is always in exactly one of several places, it is
  enough that its count over all places never changes: `sum_update` gives the
  change of such a sum when one place changes, and `existsUnique_of_sum` reads
  the result off a total of one.
-/
import Mathlib.Tactic

namespace Ledger

variable {ι β α : Type} [Fintype ι]

theorem sum_update [DecidableEq ι] {M : Type} [AddCommMonoid M] (f : β → M) (g : ι → β) (i : ι)
    (x : β) : ∑ j, f (Function.update g i x j) + f (g i) = ∑ j, f (g j) + f x := by
  have hother : ∑ j ∈ Finset.univ.erase i, f (Function.update g i x j) =
      ∑ j ∈ Finset.univ.erase i, f (g j) := by
    refine Finset.sum_congr rfl fun j hj => ?_
    rw [Function.update_of_ne (Finset.ne_of_mem_erase hj)]
  rw [← Finset.add_sum_erase Finset.univ (fun j => f (Function.update g i x j)) (Finset.mem_univ i),
    ← Finset.add_sum_erase Finset.univ (fun j => f (g j)) (Finset.mem_univ i), hother,
    Function.update_self]
  abel

/-- A total of one means exactly one place, and one copy there. -/
theorem existsUnique_of_sum [DecidableEq α] {c : ι → List α} {a : α}
    (h : ∑ i, (c i).count a = 1) : ∃! i, a ∈ c i := by
  have hle : ∀ i j, i ≠ j → (c i).count a + (c j).count a ≤ 1 := by
    classical
    intro i j hij
    have hsub := Finset.sum_le_univ_sum_of_nonneg (s := {i, j}) (f := fun k => (c k).count a)
      fun _ => Nat.zero_le _
    rw [Finset.sum_pair hij] at hsub
    omega
  obtain ⟨i, -, hi⟩ := Finset.exists_ne_zero_of_sum_ne_zero (h.trans_ne one_ne_zero)
  refine ⟨i, List.count_pos_iff.1 (Nat.pos_of_ne_zero hi), fun j hj => ?_⟩
  by_contra hne
  have := hle j i hne
  have := List.count_pos_iff.2 hj
  omega

theorem nodup_of_sum [DecidableEq α] {c : ι → List α} (h : ∀ a, ∑ i, (c i).count a ≤ 1) (i : ι) :
    (c i).Nodup := by
  refine List.nodup_iff_count_le_one.2 fun a => ?_
  exact (Finset.single_le_sum (f := fun j => (c j).count a) (fun _ _ => Nat.zero_le _)
    (Finset.mem_univ i)).trans (h a)

end Ledger
