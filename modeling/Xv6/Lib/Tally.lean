import Mathlib.Data.Fintype.BigOperators

/-!
# Sums over a table with one entry changed

What a family of parties holds together is a sum over them. When one party moves, the others'
share stays: `exists_rest` names it, and `sum_update_add` compares the sums before and after.
A part of the entries that the change leaves alone is the same throughout (`update_proj`).
-/

namespace Xv6.Lib

open Function (update update_eq_self update_of_ne update_self)

/-- A change of one entry that keeps a part of it keeps that part everywhere. -/
theorem update_proj {ι β γ : Type*} [DecidableEq ι] (π : β → γ) {g : ι → β} {i : ι} {x : β}
    (h : π x = π (g i)) (j : ι) : π (update g i x j) = π (g j) := by
  by_cases hj : j = i
  · rw [hj, update_self, h]
  · rw [update_of_ne hj]

variable {ι β M : Type*} [Fintype ι] [DecidableEq ι] [AddCommMonoid M] (f : β → M) (g : ι → β)
  (i : ι)

/-- What all entries but one contribute to a sum. -/
theorem exists_rest : ∃ r, ∀ x, ∑ j, f (update g i x j) = r + f x := by
  refine ⟨∑ j ∈ Finset.univ.erase i, f (g j), fun x => ?_⟩
  rw [← Finset.sum_erase_add _ _ (Finset.mem_univ i), update_self]
  congr 1
  refine Finset.sum_congr rfl fun j hj => ?_
  rw [update_of_ne (Finset.ne_of_mem_erase hj)]

theorem sum_update_add (x : β) : ∑ j, f (update g i x j) + f (g i) = ∑ j, f (g j) + f x := by
  obtain ⟨r, hr⟩ := exists_rest f g i
  have hg := hr (g i)
  rw [update_eq_self] at hg
  rw [hr x, hg, add_right_comm]

end Xv6.Lib
