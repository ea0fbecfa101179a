import Mathlib.Data.Set.Basic
import Mathlib.Logic.Relation

/-!
# At-least-once channels

A channel stores items, holds some of them and has finished some of them. The
discipline of a step is that a newly stored item is held and that an item the
channel lets go has been finished. Nothing else is prescribed: an item may be
finished any number of times, while it is held or after. Every stored item is
then, after any number of steps, held or finished.
-/

structure DeliveryChannel (α : Type*) where
  stored : Set α
  held : Set α
  finished : Set α

namespace DeliveryChannel
variable {α : Type*}

structure Step (c d : DeliveryChannel α) : Prop where
  stored_held : d.stored ⊆ c.stored ∪ d.held
  held_kept : c.held ⊆ d.held ∪ d.finished
  finished_kept : c.finished ⊆ d.finished

def Safe (c : DeliveryChannel α) : Prop := c.stored ⊆ c.held ∪ c.finished

theorem Step.safe {c d : DeliveryChannel α} (h : Step c d) (hc : c.Safe) : d.Safe := by
  intro x hx
  rcases h.stored_held hx with hs | hd
  · rcases hc hs with hh | hf
    · exact h.held_kept hh
    · exact Or.inr (h.finished_kept hf)
  · exact Or.inl hd

theorem safe_of_steps {c d : DeliveryChannel α} (h : Relation.ReflTransGen Step c d)
    (hc : c.Safe) : d.Safe := by
  induction h with
  | refl => exact hc
  | tail _ hs ih => exact hs.safe ih

end DeliveryChannel
