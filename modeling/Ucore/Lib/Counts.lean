import Mathlib.Logic.Function.Basic
import Mathlib.Tactic.Common

/-! # Counts

A count for every object, and what taking and dropping references does to it. What is
taken and dropped again leaves the counts as they were, in whatever order.
-/

namespace Ucore.Lib.Counts

variable {ι : Type u} [DecidableEq ι] {counts : ι → Nat} {i j : ι}

/-- One more reference. -/
def gain (counts : ι → Nat) (i : ι) : ι → Nat := Function.update counts i (counts i + 1)

/-- One reference less. -/
def lose (counts : ι → Nat) (i : ι) : ι → Nat := Function.update counts i (counts i - 1)

@[simp] theorem gain_self (counts : ι → Nat) (i : ι) : gain counts i i = counts i + 1 := Function.update_self ..

theorem gain_of_ne (counts : ι → Nat) (other : j ≠ i) : gain counts i j = counts j := Function.update_of_ne other ..

@[simp] theorem lose_self (counts : ι → Nat) (i : ι) : lose counts i i = counts i - 1 := Function.update_self ..

theorem lose_of_ne (counts : ι → Nat) (other : j ≠ i) : lose counts i j = counts j := Function.update_of_ne other ..

theorem le_gain (counts : ι → Nat) (i j : ι) : counts j ≤ gain counts i j := by
  by_cases same : j = i
  · rw [same, gain_self]
    exact Nat.le_succ _
  · exact Nat.le_of_eq (gain_of_ne counts same).symm

@[simp] theorem lose_gain (counts : ι → Nat) (i : ι) : lose (gain counts i) i = counts := by
  funext k
  by_cases same : k = i
  · rw [same, lose_self, gain_self, Nat.add_sub_cancel]
  · rw [lose_of_ne _ same, gain_of_ne _ same]

/-- The older of two references is dropped. -/
theorem lose_gain_of_ne (counts : ι → Nat) (other : i ≠ j) : lose (gain counts j) i = gain (lose counts i) j := by
  funext k
  by_cases first : k = i
  · rw [first, lose_self, gain_of_ne _ other, gain_of_ne _ other, lose_self]
  · by_cases second : k = j
    · rw [second, lose_of_ne _ (Ne.symm other), gain_self, gain_self, lose_of_ne _ (Ne.symm other)]
    · rw [lose_of_ne _ first, gain_of_ne _ second, gain_of_ne _ second, lose_of_ne _ first]

end Ucore.Lib.Counts
