import Mathlib

/-! # Delta lists

A list of entries in which each holds its distance from the one before it. An
entry is due after the sum of the distances up to its own.
-/

namespace Ucore.Lib.Deltas

variable {α : Type u}

/-- The sum of the distances of a run of entries. -/
def span (delta : α → Nat) (xs : List α) : Nat := (xs.map delta).sum

@[simp] theorem span_nil (delta : α → Nat) : span delta [] = 0 := rfl

@[simp] theorem span_cons (delta : α → Nat) (x : α) (xs : List α) :
    span delta (x :: xs) = delta x + span delta xs := by simp [span]

@[simp] theorem span_append (delta : α → Nat) (xs ys : List α) :
    span delta (xs ++ ys) = span delta xs + span delta ys := by simp [span]

theorem span_congr {delta delta' : α → Nat} {xs : List α}
    (same : ∀ x ∈ xs, delta' x = delta x) : span delta' xs = span delta xs :=
  congrArg List.sum (List.map_congr_left same)

theorem span_zero {delta : α → Nat} {zs : List α} (zero : ∀ z ∈ zs, delta z = 0) :
    span delta zs = 0 := by
  induction zs with
  | nil => rfl
  | cons z zs ih => simp_all

variable [DecidableEq α]

/-- The time after which `x` is due. -/
def due (delta : α → Nat) : List α → α → Option Nat
  | [], _ => none
  | y :: ys, x => if x = y then some (delta y) else (due delta ys x).map (delta y + ·)

@[simp] theorem due_nil (delta : α → Nat) (x : α) : due delta [] x = none := rfl

theorem due_cons (delta : α → Nat) (y : α) (ys : List α) (x : α) :
    due delta (y :: ys) x =
      if x = y then some (delta y) else (due delta ys x).map (delta y + ·) := rfl

theorem due_eq_none {delta : α → Nat} {xs : List α} {x : α} : due delta xs x = none ↔ x ∉ xs := by
  induction xs with
  | nil => simp
  | cons y ys ih =>
      rw [due_cons]
      split
      · simp_all
      · simp_all

theorem mem_iff_due {delta : α → Nat} {xs : List α} {x : α} :
    x ∈ xs ↔ ∃ t, due delta xs x = some t := by
  rw [← Option.ne_none_iff_exists', ne_eq, due_eq_none, not_not]

theorem due_congr {delta delta' : α → Nat} {xs : List α} (same : ∀ x ∈ xs, delta' x = delta x)
    (x : α) : due delta' xs x = due delta xs x := by
  induction xs with
  | nil => rfl
  | cons y ys ih =>
      rw [due_cons, due_cons, same y (by simp), ih fun z inside => same z (by simp [inside])]

theorem due_append (delta : α → Nat) (xs ys : List α) (x : α) :
    due delta (xs ++ ys) x =
      if x ∈ xs then due delta xs x else (due delta ys x).map (span delta xs + ·) := by
  induction xs with
  | nil => simp
  | cons y xs ih =>
      rw [List.cons_append, due_cons, due_cons, ih]
      by_cases first : x = y
      · simp [first]
      · by_cases inside : x ∈ xs
        · simp [first, inside]
        · simp only [first, inside, List.mem_cons, or_self, if_false, Option.map_map, span_cons]
          congr 1
          funext n
          simp only [Function.comp_apply]
          omega

/-! ## Rewriting one neighbour -/

/-- The distances once `x` stands in front of `ys`, `d` after the entry before it. -/
def spread (delta : α → Nat) (ys : List α) (x : α) (d : Nat) : α → Nat :=
  match ys with
  | [] => Function.update delta x d
  | y :: _ => Function.update (Function.update delta x d) y (delta y - d)

/-- The distances once `x` is gone from in front of `ys`. -/
def close (delta : α → Nat) (ys : List α) (x : α) : α → Nat :=
  match ys with
  | [] => delta
  | y :: _ => Function.update delta y (delta y + delta x)

theorem spread_of_ne {delta : α → Nat} {ys : List α} {x z : α} {d : Nat} (other : z ≠ x)
    (later : ys.head? ≠ some z) : spread delta ys x d z = delta z := by
  cases ys with
  | nil => simp [spread, other]
  | cons y ys => simp_all [spread, eq_comm]

theorem close_zero {delta : α → Nat} {x : α} (zero : delta x = 0) (ys : List α) :
    close delta ys x = delta := by
  cases ys <;> simp [close, zero]

theorem close_of_ne {delta : α → Nat} {ys : List α} {x z : α} (later : ys.head? ≠ some z) :
    close delta ys x z = delta z := by
  cases ys with
  | nil => rfl
  | cons y ys => simp_all [close, eq_comm]

theorem spread_le (delta : α → Nat) (ys : List α) (x : α) (d : Nat) (z : α) :
    spread delta ys x d z ≤ max (delta z) d := by
  cases ys with
  | nil =>
      rw [spread, Function.update_apply]
      split <;> omega
  | cons y ys =>
      rw [spread, Function.update_apply, Function.update_apply]
      split
      · rename_i same
        subst same
        omega
      · split <;> omega

theorem span_spread {delta : α → Nat} {xs ys : List α} {x : α} {d : Nat}
    (nodup : (xs ++ ys).Nodup) (fresh : x ∉ xs ++ ys) (fits : ∀ y ∈ ys.head?, d ≤ delta y) :
    span (spread delta ys x d) (xs ++ x :: ys) =
      if ys = [] then span delta xs + d else span delta (xs ++ ys) := by
  have notIn : x ∉ xs ∧ x ∉ ys := by simpa using fresh
  have before : ∀ w ∈ xs, spread delta ys x d w = delta w := fun w inside =>
    spread_of_ne (fun same => notIn.1 (same ▸ inside))
      fun first => (List.disjoint_of_nodup_append nodup) inside (List.mem_of_mem_head? first)
  rw [span_append, span_cons, span_congr before]
  cases ys with
  | nil => simp [spread]
  | cons y ys =>
      have ne : x ≠ y := fun same => notIn.2 (by simp [same])
      have room : d ≤ delta y := fits y (by simp)
      have rest : ∀ w ∈ ys, spread delta (y :: ys) x d w = delta w := by
        intro w inside
        refine spread_of_ne (fun same => notIn.2 (by simp [← same, inside])) ?_
        intro first
        have same : y = w := by simpa using first
        exact (List.nodup_cons.mp (List.nodup_append.mp nodup).2.1).1 (same ▸ inside)
      have head : spread delta (y :: ys) x d y = delta y - d := by simp [spread]
      have gap : spread delta (y :: ys) x d x = d := by simp [spread, ne]
      rw [span_cons, span_congr rest, head, gap, if_neg (by simp), span_append, span_cons]
      omega

theorem span_close {delta : α → Nat} {xs ys : List α} {x : α} (nodup : (xs ++ x :: ys).Nodup) :
    span (close delta ys x) (xs ++ ys) ≤ span delta (xs ++ x :: ys) := by
  have before : ∀ w ∈ xs, close delta ys x w = delta w := fun w inside =>
    close_of_ne fun first => (List.disjoint_of_nodup_append nodup) inside
      (by simp [List.mem_of_mem_head? first])
  rw [span_append, span_append, span_cons, span_congr before]
  cases ys with
  | nil => simp
  | cons y ys =>
      have later : (y :: ys).Nodup := (List.nodup_cons.mp (List.nodup_append.mp nodup).2.1).2
      have rest : ∀ w ∈ ys, close delta (y :: ys) x w = delta w := by
        intro w inside
        refine close_of_ne fun first => ?_
        have same : y = w := by simpa using first
        exact (List.nodup_cons.mp later).1 (same ▸ inside)
      have head : close delta (y :: ys) x y = delta y + delta x := by simp [close]
      rw [span_cons, span_cons, span_congr rest, head]
      omega

/-- Putting an entry in leaves the times of all others as they are. -/
theorem due_spread {delta : α → Nat} {xs ys : List α} {x : α} {d : Nat}
    (nodup : (xs ++ ys).Nodup) (fresh : x ∉ xs ++ ys) (fits : ∀ y ∈ ys.head?, d ≤ delta y) (z : α) :
    due (spread delta ys x d) (xs ++ x :: ys) z =
      if z = x then some (span delta xs + d) else due delta (xs ++ ys) z := by
  have notIn : x ∉ xs ∧ x ∉ ys := by simpa using fresh
  have apart : ∀ w ∈ xs, w ∉ ys := fun w first second => (List.disjoint_of_nodup_append nodup) first second
  have before : ∀ w ∈ xs, spread delta ys x d w = delta w := fun w inside =>
    spread_of_ne (fun same => notIn.1 (same ▸ inside))
      fun first => apart w inside (List.mem_of_mem_head? first)
  rw [due_append, due_append, due_congr before, span_congr before]
  by_cases itself : z = x
  · subst itself
    have here : spread delta ys z d z = d := by
      cases ys with
      | nil => simp [spread]
      | cons y ys =>
          have ne : z ≠ y := fun same => notIn.2 (by simp [same])
          simp [spread, ne]
    rw [if_neg notIn.1, due_cons, if_pos rfl, if_pos rfl, here]
    rfl
  · rw [if_neg itself, due_cons, if_neg itself]
    by_cases inside : z ∈ xs
    · rw [if_pos inside, if_pos inside]
    · rw [if_neg inside, if_neg inside, Option.map_map]
      cases ys with
      | nil => rfl
      | cons y ys =>
          have ne : x ≠ y := fun same => notIn.2 (by simp [same])
          have room : d ≤ delta y := fits y (by simp)
          have rest : ∀ w ∈ ys, spread delta (y :: ys) x d w = delta w := by
            intro w inside
            refine spread_of_ne (fun same => notIn.2 (by simp [← same, inside])) ?_
            intro first
            have same : y = w := by simpa using first
            exact (List.nodup_cons.mp (List.nodup_append.mp nodup).2.1).1 (same ▸ inside)
          have head : spread delta (y :: ys) x d y = delta y - d := by simp [spread]
          have gap : spread delta (y :: ys) x d x = d := by simp [spread, ne]
          rw [due_cons, due_cons, due_congr rest, head, gap]
          split
          · simp only [Option.map_some, Function.comp_apply]
            congr 1
            omega
          · rw [Option.map_map, Option.map_map]
            congr 1
            funext n
            simp only [Function.comp_apply]
            omega

/-- Taking an entry out leaves the times of all others as they are. -/
theorem due_close {delta : α → Nat} {xs ys : List α} {x z : α} (nodup : (xs ++ x :: ys).Nodup)
    (other : z ≠ x) : due (close delta ys x) (xs ++ ys) z = due delta (xs ++ x :: ys) z := by
  have apart : ∀ w ∈ xs, w ∉ ys := fun w first second =>
    (List.disjoint_of_nodup_append nodup) first (by simp [second])
  have before : ∀ w ∈ xs, close delta ys x w = delta w := fun w inside =>
    close_of_ne fun first => apart w inside (List.mem_of_mem_head? first)
  rw [due_append, due_append, due_congr before, span_congr before, due_cons, if_neg other,
    Option.map_map]
  cases ys with
  | nil => rfl
  | cons y ys =>
      have later : (y :: ys).Nodup := (List.nodup_cons.mp (List.nodup_append.mp nodup).2.1).2
      have rest : ∀ w ∈ ys, close delta (y :: ys) x w = delta w := by
        intro w inside
        refine close_of_ne fun first => ?_
        have same : y = w := by simpa using first
        exact (List.nodup_cons.mp later).1 (same ▸ inside)
      have head : close delta (y :: ys) x y = delta y + delta x := by simp [close]
      rw [due_cons, due_cons, due_congr rest, head]
      split
      · rfl
      · split
        · simp only [Option.map_some, Function.comp_apply]
          congr 1
          omega
        · rw [Option.map_map, Option.map_map]
          congr 1
          funext n
          simp only [Function.comp_apply]
          omega

/-! ## The passing of time -/

/-- When the first distance shrinks by one, so does every time. -/
theorem due_tick {delta : α → Nat} {y : α} {ys : List α} (nodup : (y :: ys).Nodup)
    (ahead : delta y ≠ 0) (x : α) :
    due delta (y :: ys) x =
      (due (Function.update delta y (delta y - 1)) (y :: ys) x).map (· + 1) := by
  have rest : ∀ w ∈ ys, Function.update delta y (delta y - 1) w = delta w := fun w inside =>
    Function.update_of_ne (fun same : w = y => (List.nodup_cons.mp nodup).1 (same ▸ inside)) _ _
  rw [due_cons, due_cons, due_congr rest, Function.update_self]
  split
  · simp only [Option.map_some]
    congr 1
    omega
  · rw [Option.map_map]
    congr 1
    funext n
    simp only [Function.comp_apply]
    omega

/-- Only the entries of the zero run at the front are due now. -/
theorem due_eq_zero {delta : α → Nat} {zs ys : List α} {x : α} (zero : ∀ z ∈ zs, delta z = 0)
    (ahead : ∀ y ∈ ys.head?, delta y ≠ 0) : due delta (zs ++ ys) x = some 0 ↔ x ∈ zs := by
  induction zs with
  | nil =>
      cases ys with
      | nil => simp
      | cons y ys =>
          have := ahead y rfl
          rw [List.nil_append, due_cons]
          split
          · simp [this]
          · simp [Option.map_eq_some_iff, this]
  | cons z zs ih =>
      rw [List.cons_append, due_cons, zero z (by simp)]
      split
      · simp_all
      · have later := ih fun w inside => zero w (by simp [inside])
        simp_all

theorem due_drop {delta : α → Nat} {zs ys : List α} {x : α} (zero : ∀ z ∈ zs, delta z = 0)
    (away : x ∉ zs) : due delta (zs ++ ys) x = due delta ys x := by
  rw [due_append, if_neg away, span_zero zero]
  simp

end Ucore.Lib.Deltas
