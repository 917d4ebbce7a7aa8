import Mathlib.Data.List.Nodup
import Mathlib.Logic.Function.Basic

namespace Base

/-- No item is owned twice, by one owner or by two. -/
structure Exclusive {ι α : Type*} (owned : ι → List α) : Prop where
  nodup : ∀ i, (owned i).Nodup
  apart : ∀ i j, i ≠ j → (owned i).Disjoint (owned j)

namespace Exclusive

variable {ι α : Type*} {owned owned' : ι → List α} {i : ι}

theorem empty (none : ∀ i, owned i = []) : Exclusive owned :=
  ⟨fun i => by simp [none i], fun i j _ => by simp [none i]⟩

theorem owner_unique (own : Exclusive owned) {j : ι} {a : α} (mine : a ∈ owned i)
    (yours : a ∈ owned j) : i = j := by
  by_contra differ
  exact own.apart i j differ mine yours

/-- Owners keep what they have, except for one that gets new items nobody owns. -/
theorem give (own : Exclusive owned) {fresh : List α} (nodup : fresh.Nodup)
    (unowned : ∀ j, (owned j).Disjoint fresh) (gains : owned' i = owned i ++ fresh)
    (others : ∀ j, j ≠ i → owned' j = owned j) : Exclusive owned' := by
  have apartFrom (j : ι) (differ : j ≠ i) : (owned' i).Disjoint (owned' j) := by
    rw [gains, others j differ, List.disjoint_append_left]
    exact ⟨own.apart i j differ.symm, List.disjoint_symm (unowned j)⟩
  constructor
  · intro j
    by_cases same : j = i
    · rw [same, gains]
      exact (own.nodup i).append nodup (unowned i)
    · rw [others j same]
      exact own.nodup j
  · intro j k differ
    by_cases first : j = i
    · subst first
      exact apartFrom k differ.symm
    · by_cases second : k = i
      · subst second
        exact List.disjoint_symm (apartFrom j first)
      · rw [others j first, others k second]
        exact own.apart j k differ

theorem shrink (own : Exclusive owned) (fewer : ∀ j, (owned' j).Sublist (owned j)) :
    Exclusive owned' :=
  ⟨fun j => (own.nodup j).sublist (fewer j),
    fun j k differ _ left right => own.apart j k differ ((fewer j).subset left) ((fewer k).subset right)⟩

theorem drop (own : Exclusive owned) (gone : owned' i = [])
    (others : ∀ j, j ≠ i → owned' j = owned j) : Exclusive owned' := by
  refine own.shrink fun j => ?_
  by_cases same : j = i
  · rw [same, gone]
    exact List.nil_sublist _
  · rw [others j same]

end Exclusive

end Base
