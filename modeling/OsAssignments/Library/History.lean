import Mathlib.Data.List.Basic

/-!
# Histories

A history lists events, newest first. A statement about every event may speak of the
events before it; it is proved for a history by going through its events.
-/

namespace OsAssignments

variable {α : Type} {Φ : α → List α → Prop}

/-- Every event of a history is in the given relation to the events before it. -/
inductive Each (Φ : α → List α → Prop) : List α → Prop
  | nil : Each Φ []
  | cons {x : α} {older : List α} : Φ x older → Each Φ older → Each Φ (x :: older)

theorem each_cons {x : α} {older : List α} : Each Φ (x :: older) ↔ Φ x older ∧ Each Φ older := by
  constructor
  · rintro (_ | ⟨hx, holder⟩)
    exact ⟨hx, holder⟩
  · rintro ⟨hx, holder⟩
    exact .cons hx holder

instance Each.decidable [∀ x older, Decidable (Φ x older)] :
    ∀ history : List α, Decidable (Each Φ history)
  | [] => isTrue .nil
  | x :: older =>
    have : Decidable (Each Φ older) := Each.decidable older
    decidable_of_iff (Φ x older ∧ Each Φ older) each_cons.symm

/-- The events before some event of a history are a history too. -/
theorem Each.of_suffix {h h' : List α} (hh : Each Φ h) (hs : h' <:+ h) : Each Φ h' := by
  obtain ⟨newer, rfl⟩ := hs
  induction newer with
  | nil => exact hh
  | cons x newer ih => exact ih (each_cons.mp hh).2

end OsAssignments
