import Mathlib.Algebra.BigOperators.Group.Finset.Basic
import Mathlib.Algebra.Order.BigOperators.Group.Finset

/-! Sums over a finite table of entries: what a change of one entry does to them. -/

namespace Laboratorio

open Function

variable {ι κ : Type*} [Fintype ι]

theorem sum_update [DecidableEq ι] {M : Type*} [AddCommMonoid M] (f : ι → κ) (i : ι) (x : κ) (w : κ → M) :
    ∑ j, w (update f i x j) + w (f i) = ∑ j, w (f j) + w x := by
  have hrest : ∑ j ∈ Finset.univ.erase i, w (update f i x j) = ∑ j ∈ Finset.univ.erase i, w (f j) := by
    apply Finset.sum_congr rfl
    intro j hj
    rw [update_of_ne (Finset.ne_of_mem_erase hj)]
  rw [← Finset.add_sum_erase _ _ (Finset.mem_univ i), ← Finset.add_sum_erase _ (fun j => w (f j)) (Finset.mem_univ i),
    hrest, update_self]
  ac_rfl

theorem sum_le_card {w : κ → Nat} (hw : ∀ x, w x ≤ 1) (f : ι → κ) : ∑ j, w (f j) ≤ Fintype.card ι := by
  calc ∑ j, w (f j) ≤ ∑ _j : ι, 1 := Finset.sum_le_sum fun j _ => hw (f j)
    _ = Fintype.card ι := (Finset.card_eq_sum_ones _).symm

end Laboratorio
