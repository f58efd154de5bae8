import Mathlib.Data.List.Basic
import Mathlib.Order.Lattice

/-!
# The first maximum of a list

Keeping an item until a strictly greater one comes along leaves the first
maximum.  Its rank is that of the list's maximum, whatever the order of the
list.
-/

namespace FirstMaximum

variable {α β γ : Type}
variable [LinearOrder γ]

/-- An item that is greater than all before it, and than none after it. -/
def IsFirst
    (rank : α → γ)
    (items : List α)
    (chosen : α) : Prop :=
  ∃ before later,
    items = before ++ chosen :: later ∧
      (∀ item ∈ before, rank item < rank chosen) ∧
      ∀ item ∈ later, rank item ≤ rank chosen

namespace IsFirst

variable {rank : α → γ}
variable {items : List α}
variable {chosen item : α}

/-- The only item is the first maximum. -/
theorem singleton : IsFirst rank [item] item :=
  ⟨[], [], rfl, by simp, by simp⟩

/-- The first maximum is one of the items. -/
theorem mem (first : IsFirst rank items chosen) : chosen ∈ items := by
  obtain ⟨before, later, rfl, _, _⟩ := first
  simp

/-- No item is greater than the first maximum. -/
theorem le
    (first : IsFirst rank items chosen)
    (member : item ∈ items) :
    rank item ≤ rank chosen := by
  obtain ⟨before, later, rfl, smaller, atMost⟩ := first
  rcases List.mem_append.mp member with inBefore | rest
  · exact le_of_lt (smaller item inBefore)
  · rcases List.mem_cons.mp rest with same | inLater
    · rw [same]
    · exact atMost item inLater

/-- An item that is not greater leaves the first maximum in place. -/
theorem keep
    (first : IsFirst rank items chosen)
    (atMost : rank item ≤ rank chosen) :
    IsFirst rank (items ++ [item]) chosen := by
  obtain ⟨before, later, rfl, smaller, atMostLater⟩ := first
  refine ⟨before, later ++ [item], by simp, smaller, ?_⟩
  intro other member
  rcases List.mem_append.mp member with inLater | last
  · exact atMostLater other inLater
  · rw [List.mem_singleton.mp last]
    exact atMost

/-- A greater item takes the first maximum's place. -/
theorem replace
    (first : IsFirst rank items chosen)
    (greater : rank chosen < rank item) :
    IsFirst rank (items ++ [item]) item :=
  ⟨items, [], rfl,
    fun _ member => lt_of_le_of_lt (first.le member) greater, by simp⟩

/-- Only the ranks of the items matter. -/
theorem congr
    {rank' : α → γ}
    (same : ∀ item ∈ items, rank item = rank' item)
    (first : IsFirst rank items chosen) :
    IsFirst rank' items chosen := by
  have chosenSame := same chosen first.mem
  obtain ⟨before, later, rfl, smaller, atMost⟩ := first
  refine ⟨before, later, rfl, ?_, ?_⟩
  · intro item member
    rw [← same item (by simp [member]), ← chosenSame]
    exact smaller item member
  · intro item member
    rw [← same item (by simp [member]), ← chosenSame]
    exact atMost item member

/-- Lists of the same ranks, in any order, have first maxima of one rank. -/
theorem rank_eq_of_perm
    {rank' : β → γ}
    {items' : List β}
    {chosen' : β}
    (first : IsFirst rank items chosen)
    (first' : IsFirst rank' items' chosen')
    (same : List.Perm (items.map rank) (items'.map rank')) :
    rank chosen = rank' chosen' := by
  apply le_antisymm
  · have member : rank chosen ∈ items'.map rank' :=
      same.subset (List.mem_map_of_mem first.mem)
    obtain ⟨other, inItems, rankEq⟩ := List.mem_map.mp member
    rw [← rankEq]
    exact first'.le inItems
  · have member : rank' chosen' ∈ items.map rank :=
      same.symm.subset (List.mem_map_of_mem first'.mem)
    obtain ⟨other, inItems, rankEq⟩ := List.mem_map.mp member
    rw [← rankEq]
    exact first.le inItems

end IsFirst

end FirstMaximum
