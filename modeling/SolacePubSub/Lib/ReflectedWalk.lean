import Mathlib.Algebra.BigOperators.Group.List.Basic
import Mathlib.Algebra.Order.Group.Defs
import Mathlib.Data.List.Induction

/-!
# Walks reflected at zero

The level of a store that is filled and drained by the increments of a list and
cannot fall below zero, such as the work in front of a server. It stays below a
bound exactly if no stretch of increments adds up to more than the bound.
-/

namespace ReflectedWalk
variable {G : Type*} [AddCommGroup G] [LinearOrder G]

def level (ds : List G) : G := ds.foldl (fun w d => max 0 (w + d)) 0

@[simp] theorem level_nil : level ([] : List G) = 0 := rfl

theorem level_concat (ds : List G) (d : G) : level (ds ++ [d]) = max 0 (level ds + d) := by
  simp [level]

variable [IsOrderedAddMonoid G]

theorem level_le_iff (ds : List G) (c : G) : level ds ≤ c ↔ ∀ t, t <:+ ds → t.sum ≤ c := by
  induction ds using List.reverseRecOn generalizing c with
  | nil => simp
  | append_singleton ds d ih =>
    rw [level_concat, max_le_iff, ← le_sub_iff_add_le, ih]
    constructor
    · intro hle t ht
      obtain ⟨h0, h⟩ := hle
      rcases List.suffix_concat_iff.mp ht with rfl | ⟨u, rfl, hu⟩
      · exact h0
      · rw [List.sum_append, List.sum_singleton]
        exact le_sub_iff_add_le.mp (h u hu)
    · intro h
      refine ⟨h [] List.nil_suffix, ?_⟩
      intro u hu
      have hud := h (u ++ [d]) (List.suffix_concat_iff.mpr (Or.inr ⟨u, rfl, hu⟩))
      rw [List.sum_append, List.sum_singleton] at hud
      exact le_sub_iff_add_le.mpr hud

theorem levels_le_iff (ds : List G) (c : G) :
    (∀ p, p <+: ds → level p ≤ c) ↔ ∀ t, t <:+: ds → t.sum ≤ c := by
  constructor
  · intro h t ht
    obtain ⟨p, htp, hp⟩ := List.infix_iff_suffix_prefix.mp ht
    exact (level_le_iff p c).mp (h p hp) t htp
  · intro h p hp
    rw [level_le_iff]
    intro t ht
    exact h t (List.infix_iff_suffix_prefix.mpr ⟨p, ht, hp⟩)

end ReflectedWalk
