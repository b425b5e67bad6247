import Mathlib

/-!
# Lists side by side

What two lists that are related element by element tell about each other: what is related to an element of
one is an element of the other, and what is measured of both alike has the same list of measures.
-/

namespace RhythmTiles

variable {A B C : Type} {rel : A → B → Prop} {f : A → C} {g : B → C} {as : List A} {bs : List B}

theorem exists_of_mem_left (h : List.Forall₂ rel as bs) {a : A} (ha : a ∈ as) :
    ∃ b ∈ bs, rel a b := by
  obtain ⟨i, hi, rfl⟩ := List.getElem_of_mem ha
  have hi' : i < bs.length := h.length_eq ▸ hi
  exact ⟨bs[i], List.getElem_mem hi', h.get hi hi'⟩

theorem exists_of_mem_right (h : List.Forall₂ rel as bs) {b : B} (hb : b ∈ bs) :
    ∃ a ∈ as, rel a b := by
  obtain ⟨a, ha, hrel⟩ := exists_of_mem_left h.flip hb
  exact ⟨a, ha, hrel⟩

/-- Lists that agree in what is measured of them have the same measures. -/
theorem map_eq_map_of_forall₂ (h : List.Forall₂ (fun a b => f a = g b) as bs) : as.map f = bs.map g := by
  rw [← List.forall₂_eq_eq_eq, List.forall₂_map_left_iff, List.forall₂_map_right_iff]
  exact h

theorem forall₂_and_of_map_eq (h : List.Forall₂ rel as bs) (hmap : as.map f = bs.map g) :
    List.Forall₂ (fun a b => rel a b ∧ f a = g b) as bs := by
  induction h with
  | nil => exact .nil
  | cons hone _ ih =>
    obtain ⟨hhead, htail⟩ := List.cons.inj hmap
    exact .cons ⟨hone, hhead⟩ (ih htail)

end RhythmTiles
