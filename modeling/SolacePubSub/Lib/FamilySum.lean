import Mathlib.Algebra.BigOperators.Group.Finset.Basic
import Mathlib.Algebra.Order.BigOperators.Group.Finset
import Mathlib.Data.Fintype.BigOperators

/-!
# Sums over a family of which one member changes

A total over the members of a finite family, and what becomes of it when one
member is replaced.
-/

namespace FamilySum
variable {ι α M : Type*} [Fintype ι] [DecidableEq ι]

theorem sum_update_add [AddCommMonoid M] (f : α → M) (g : ι → α) (i : ι) (a : α) :
    (∑ k, f (Function.update g i a k)) + f (g i) = (∑ k, f (g k)) + f a := by
  have hrest : ∑ k ∈ Finset.univ.erase i, f (Function.update g i a k) =
      ∑ k ∈ Finset.univ.erase i, f (g k) := by
    apply Finset.sum_congr rfl
    intro k hk
    rw [Function.update_of_ne (Finset.ne_of_mem_erase hk)]
  calc (∑ k, f (Function.update g i a k)) + f (g i)
      = f a + ∑ k ∈ Finset.univ.erase i, f (g k) + f (g i) := by
        rw [← Finset.add_sum_erase _ _ (Finset.mem_univ i), Function.update_self, hrest]
    _ = f a + (f (g i) + ∑ k ∈ Finset.univ.erase i, f (g k)) := by
        rw [add_assoc, add_comm (f (g i))]
    _ = (∑ k, f (g k)) + f a := by
        rw [Finset.add_sum_erase _ (fun k => f (g k)) (Finset.mem_univ i), add_comm]

theorem sum_update_balance [AddCancelCommMonoid M] (f : α → M) (g : ι → α) (i : ι) (a : α)
    {x y : M} (h : f a + x = f (g i) + y) :
    (∑ k, f (Function.update g i a k)) + x = (∑ k, f (g k)) + y := by
  apply add_right_cancel (b := f (g i))
  calc (∑ k, f (Function.update g i a k)) + x + f (g i)
      = (∑ k, f (Function.update g i a k)) + f (g i) + x := add_right_comm _ _ _
    _ = (∑ k, f (g k)) + (f a + x) := by rw [sum_update_add, add_assoc]
    _ = (∑ k, f (g k)) + y + f (g i) := by rw [h, add_assoc, add_comm y]

theorem sum_add_le [AddCommMonoid M] [PartialOrder M] [IsOrderedAddMonoid M] {f g : ι → M} (i : ι)
    {x y : M} (hi : f i + x ≤ g i + y) (hothers : ∀ k, k ≠ i → f k ≤ g k) :
    (∑ k, f k) + x ≤ (∑ k, g k) + y := by
  have hrest : ∑ k ∈ Finset.univ.erase i, f k ≤ ∑ k ∈ Finset.univ.erase i, g k :=
    Finset.sum_le_sum fun k hk => hothers k (Finset.ne_of_mem_erase hk)
  calc (∑ k, f k) + x = f i + x + ∑ k ∈ Finset.univ.erase i, f k := by
        rw [← Finset.add_sum_erase _ f (Finset.mem_univ i), add_right_comm]
    _ ≤ g i + y + ∑ k ∈ Finset.univ.erase i, g k := add_le_add hi hrest
    _ = (∑ k, g k) + y := by
        rw [← Finset.add_sum_erase _ g (Finset.mem_univ i), add_right_comm]

end FamilySum
