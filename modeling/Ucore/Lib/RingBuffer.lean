import Mathlib

/-! # Ring buffers

A queue kept in a fixed number of slots. Positions only grow, and what is sent at
position `i` is kept in slot `i % size`.
-/

namespace Ucore.Lib.RingBuffer

variable {α : Type u} {size : Nat} {slots : Nat → α} {sent : List α} {r : Nat}

/-- What was sent from position `r` on is in its slot. -/
structure Holds (size : Nat) (slots : Nat → α) (sent : List α) (r : Nat) : Prop where
  begun : r ≤ sent.length
  room : sent.length ≤ r + size
  kept : ∀ i, r ≤ i → i < sent.length → sent[i]? = some (slots (i % size))

/-- Positions less than a round apart have different slots. -/
theorem slot_ne {i j : Nat} (before : i < j) (round : j < i + size) : i % size ≠ j % size := by
  intro same
  have divides : size ∣ j - i := (Nat.modEq_iff_dvd' before.le).mp same
  exact absurd (Nat.le_of_dvd (Nat.sub_pos_of_lt before) divides) (by omega)

namespace Holds

theorem empty : Holds size slots [] 0 := ⟨le_rfl, Nat.zero_le _, by simp⟩

theorem push (holds : Holds size slots sent r) (free : sent.length < r + size) (a : α) :
    Holds size (Function.update slots (sent.length % size) a) (sent ++ [a]) r := by
  refine ⟨by simpa using holds.begun.trans (Nat.le_succ _), by simpa using free, fun i from_ before => ?_⟩
  rw [List.length_append, List.length_singleton] at before
  by_cases last : i = sent.length
  · rw [last, Function.update_self, List.getElem?_concat_length]
  · have old : i < sent.length := by omega
    rw [Function.update_of_ne (slot_ne old (by omega)), List.getElem?_append_left old]
    exact holds.kept i from_ old

theorem pop (holds : Holds size slots sent r) (unread : r < sent.length) :
    sent.take (r + 1) = sent.take r ++ [slots (r % size)] ∧ Holds size slots sent (r + 1) := by
  refine ⟨?_, unread, holds.room.trans (by omega), fun i from_ => holds.kept i (by omega)⟩
  rw [List.take_add_one, holds.kept r le_rfl unread]
  rfl

end Holds

/-- When the buffer is full, the next slot is that of the oldest item kept. -/
theorem overwrite_full (slots : Nat → α) (full : sent.length = r + size) (a : α) :
    Function.update slots (sent.length % size) a = slots ↔ a = slots (r % size) := by
  rw [full, Nat.add_mod_right, Function.update_eq_self_iff]

end Ucore.Lib.RingBuffer
