import Mathlib

/-! # Counting references

How many of finitely many places refer to a given object. A reference count is
right when it equals such a tally; the lemmas say how one store changes it.
-/

namespace Ucore.Lib.Tally

variable {ι : Type u} {α : Type v} [DecidableEq α] {places : Finset ι} {f g : ι → Option α} {a : α}

def tally (places : Finset ι) (f : ι → Option α) (a : α) : Nat :=
  (places.filter fun i => f i = some a).card

theorem tally_congr (agree : ∀ i ∈ places, g i = f i) : tally places g a = tally places f a := by
  have same : places.filter (fun i => g i = some a) = places.filter fun i => f i = some a :=
    Finset.filter_congr fun i inside => by rw [agree i inside]
  rw [tally, tally, same]

theorem tally_pos_iff : 0 < tally places f a ↔ ∃ i ∈ places, f i = some a := by
  rw [tally, Finset.card_pos]
  simp [Finset.Nonempty]

theorem tally_eq_zero_iff : tally places f a = 0 ↔ ∀ i ∈ places, f i ≠ some a := by
  rw [tally, Finset.card_eq_zero, Finset.filter_eq_empty_iff]

/-- A store at one place moves at most one reference. -/
theorem tally_store [DecidableEq ι] {i : ι} (inside : i ∈ places)
    (agree : ∀ j ∈ places, j ≠ i → g j = f j) :
    tally places g a + (if f i = some a then 1 else 0) =
      tally places f a + (if g i = some a then 1 else 0) := by
  have split : ∀ h : ι → Option α, tally places h a =
      (if h i = some a then 1 else 0) + tally (places.erase i) h a := by
    intro h
    rw [tally, tally, ← Finset.insert_erase inside, Finset.filter_insert, Finset.erase_insert_eq_erase]
    split
    · rw [Finset.card_insert_of_notMem (by simp), Finset.erase_idem, Nat.add_comm]
    · rw [Finset.erase_idem, Nat.zero_add]
  have rest : tally (places.erase i) g a = tally (places.erase i) f a :=
    tally_congr fun j member => agree j (Finset.mem_of_mem_erase member) (Finset.ne_of_mem_erase member)
  rw [split g, split f, rest]
  omega

/-- One place more. -/
theorem tally_succ {h : Nat → Option α} (n : Nat) :
    tally (Finset.range (n + 1)) h a = tally (Finset.range n) h a + if h n = some a then 1 else 0 := by
  rw [tally, tally, Finset.range_add_one, Finset.filter_insert]
  split
  · exact Finset.card_insert_of_notMem (by simp)
  · rfl

theorem tally_disjoint [DecidableEq ι] {more : Finset ι} (apart : Disjoint places more) :
    tally (places ∪ more) f a = tally places f a + tally more f a := by
  rw [tally, tally, tally, Finset.filter_union]
  exact Finset.card_union_of_disjoint (Finset.disjoint_filter_filter apart)

/-- Places without references may be added. -/
theorem tally_union [DecidableEq ι] {more : Finset ι} (empty : ∀ i ∈ more, f i ≠ some a) :
    tally (places ∪ more) f a = tally places f a := by
  have absent : more.filter (fun i => f i = some a) = ∅ := Finset.filter_eq_empty_iff.mpr fun {i} => empty i
  rw [tally, tally, Finset.filter_union, absent, Finset.union_empty]

end Ucore.Lib.Tally
