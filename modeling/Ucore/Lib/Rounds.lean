import Mathlib

/-! # Going round a list

A search goes round a list from behind a cursor, and the cursor moves to what it finds.
Entries may join at the start of the list and leave it anywhere. Until the search comes
to an entry that stays, it comes to no other one twice.
-/

namespace Ucore.Lib.Rounds

variable {α : Type u} [DecidableEq α] {xs before after : List α} {c x y z p : α}

/-- The entries in the order in which a search from behind `c` comes to them, with `c`
    last; from the start of the list, if `c` is not on it. -/
def around (xs : List α) (c : α) : List α :=
  if c ∈ xs then (xs.dropWhile (· ≠ c)).tail ++ xs.takeWhile (· ≠ c) ++ [c] else xs

theorem around_off (off : c ∉ xs) : around xs c = xs := if_neg off

theorem around_at (first : c ∉ before) : around (before ++ c :: after) c = after ++ before ++ [c] := by
  have skip : ∀ a ∈ before, decide (a ≠ c) = true := fun a inside =>
    decide_eq_true fun same => first (same ▸ inside)
  rw [around, if_pos (by simp), List.dropWhile_append_of_pos skip, List.takeWhile_append_of_pos skip,
    List.dropWhile_cons_of_neg (by simp), List.takeWhile_cons_of_neg (by simp), List.tail_cons, List.append_nil]

theorem around_perm (xs : List α) (c : α) : (around xs c).Perm xs := by
  by_cases member : c ∈ xs
  · obtain ⟨before, after, rfl, first⟩ := List.eq_append_cons_of_mem member
    rw [around_at first, List.append_assoc]
    exact (List.perm_append_comm.trans (by simp))
  · rw [around_off member]

theorem mem_around : x ∈ around xs c ↔ x ∈ xs := (around_perm xs c).mem_iff

theorem mem_of_found (found : around xs c = before ++ z :: after) : z ∈ xs := by
  rw [← mem_around (c := c), found]
  simp

/-- From where it finds `z`, the search goes on as it would have done. -/
theorem around_next (nodup : xs.Nodup) (found : around xs c = before ++ z :: after) :
    around xs z = after ++ before ++ [z] := by
  by_cases member : c ∈ xs
  · obtain ⟨front, back, rfl, first⟩ := List.eq_append_cons_of_mem member
    rw [around_at first, List.append_assoc] at found
    rcases List.append_eq_append_iff.mp found with ⟨middle, rfl, split⟩ | ⟨middle, rfl, split⟩
    · rcases List.eq_nil_or_concat after with rfl | ⟨after, last, rfl⟩
      · obtain ⟨rfl, rfl⟩ : front = middle ∧ c = z := by simpa using List.append_inj' split rfl
        rw [around_at first]
        simp
      · obtain ⟨rfl, rfl⟩ : front = middle ++ z :: after ∧ c = last := by
          rw [List.concat_eq_append, ← List.cons_append, ← List.append_assoc] at split
          simpa using List.append_inj' split rfl
        have apart : z ∉ middle := fun inside =>
          List.disjoint_of_nodup_append (List.nodup_append.mp nodup).1 inside List.mem_cons_self
        rw [List.append_assoc, List.cons_append, around_at apart]
        simp
    · cases middle with
      | nil =>
          have leading : ∀ (w : α) xs, around ([] ++ w :: xs) w = xs ++ [] ++ [w] :=
            fun _ _ => around_at List.not_mem_nil
          cases front with
          | nil =>
              obtain ⟨rfl, rfl⟩ := List.cons.inj split
              simpa using leading _ _
          | cons w front =>
              obtain ⟨rfl, rfl⟩ := List.cons.inj split
              simpa using leading _ (front ++ _ :: before)
      | cons w middle =>
          obtain ⟨rfl, rfl⟩ := List.cons.inj split
          have apart : z ∉ front ++ c :: before := by
            rw [← List.cons_append, ← List.append_assoc] at nodup
            exact fun inside => List.disjoint_of_nodup_append nodup inside List.mem_cons_self
          rw [← List.cons_append, ← List.append_assoc, around_at apart]
          simp
  · rw [around_off member] at found
    have apart : z ∉ before := by
      rw [found] at nodup
      exact fun inside => List.disjoint_of_nodup_append nodup inside List.mem_cons_self
    rw [found, around_at apart]

/-! ## What comes before an entry -/

/-- `x` comes before `p` on the way round the list. -/
def Precedes (xs : List α) (c x p : α) : Prop := [x, p].Sublist (around xs c)

omit [DecidableEq α] in
theorem pair_left {front back : List α} (sub : [x, p].Sublist (front ++ back)) (off : p ∉ back) :
    [x, p].Sublist front := by
  obtain ⟨l, r, split, left, right⟩ := List.sublist_append_iff.mp sub
  have nothing : r = [] := by
    rcases List.eq_nil_or_concat r with rfl | ⟨r, q, rfl⟩
    · rfl
    · rw [List.concat_eq_append, ← List.append_assoc] at split
      have ends : [x] ++ [p] = (l ++ r) ++ [q] := split
      obtain ⟨-, same⟩ := List.append_inj' ends rfl
      exact absurd (right.subset (by simp [List.cons.inj same])) off
  rw [nothing, List.append_nil] at split
  exact split ▸ left

omit [DecidableEq α] in
theorem pair_right {front back : List α} (sub : [x, p].Sublist (front ++ back)) (off : x ∉ front) :
    [x, p].Sublist back := by
  obtain ⟨l, r, split, left, right⟩ := List.sublist_append_iff.mp sub
  cases l with
  | nil => exact split ▸ right
  | cons y l =>
      obtain ⟨rfl, -⟩ := List.cons.inj split
      exact absurd (left.subset List.mem_cons_self) off

/-- Nothing comes after the cursor. -/
theorem cursor_last (nodup : xs.Nodup) (member : x ∈ xs) : ¬ Precedes xs x x p := by
  obtain ⟨before, after, rfl, first⟩ := List.eq_append_cons_of_mem member
  rw [Precedes, around_at first]
  have apart : x ∉ after ++ before := by
    have tail := (List.nodup_cons.mp (List.nodup_append.mp nodup).2.1).1
    simpa using ⟨tail, first⟩
  exact fun sub => by simpa using (pair_right sub apart).length_le

/-- When the search has found an entry before `p`, nothing new comes before `p`. -/
theorem precedes_next (nodup : xs.Nodup) (found : around xs c = before ++ z :: after) (later : p ∉ before)
    (other : p ≠ z) (precedes : Precedes xs z x p) : Precedes xs c x p := by
  rw [Precedes, around_next nodup found, List.append_assoc] at precedes
  rw [Precedes, found]
  have sub := pair_left precedes (by simp [later, other])
  exact sub.trans ((List.sublist_cons_self z after).trans (List.sublist_append_right before _))

/-- An entry joins. -/
theorem precedes_cons (new : y ∉ xs) (cursor : y ≠ c) (notX : x ≠ y) (notP : p ≠ y)
    (precedes : Precedes (y :: xs) c x p) : Precedes xs c x p := by
  have keep : ∀ l : List α, y ∉ l → l.filter (· ≠ y) = l := fun l off =>
    List.filter_eq_self.mpr fun a inside => decide_eq_true fun same => off (same ▸ inside)
  have old : (around (y :: xs) c).filter (· ≠ y) = around xs c := by
    by_cases member : c ∈ xs
    · obtain ⟨before, after, rfl, first⟩ := List.eq_append_cons_of_mem member
      have first' : c ∉ y :: before := by simp [cursor.symm, first]
      simp only [List.mem_append, List.mem_cons, not_or] at new
      rw [← List.cons_append, around_at first', around_at first]
      rw [List.filter_append, List.filter_append, keep after new.2.2,
        List.filter_cons_of_neg (by simp), keep before new.1, keep [c] (by simp [cursor])]
    · rw [around_off member, around_off (by simp [cursor.symm, member])]
      simpa using keep xs new
  have kept := precedes.filter (· ≠ y)
  rw [old] at kept
  simpa [Precedes, notX, notP] using kept

/-- An entry leaves. -/
theorem precedes_erase (cursor : z ≠ c) (precedes : Precedes (xs.erase z) c x p) : Precedes xs c x p := by
  refine precedes.trans ?_
  by_cases member : c ∈ xs
  · obtain ⟨before, after, rfl, first⟩ := List.eq_append_cons_of_mem member
    by_cases here : z ∈ before
    · rw [List.erase_append_left _ here, around_at first, around_at fun inside => first (List.mem_of_mem_erase inside)]
      exact ((List.Sublist.refl after).append (List.erase_sublist)).append_right [c]
    · rw [List.erase_append_right _ here, List.erase_cons_tail (by simpa using cursor.symm), around_at first,
        around_at first]
      exact ((List.erase_sublist).append_right before).append_right [c]
  · rw [around_off member, around_off fun inside => member (List.mem_of_mem_erase inside)]
    exact List.erase_sublist

end Ucore.Lib.Rounds
