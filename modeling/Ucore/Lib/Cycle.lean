import Mathlib

/-! # Circular singly linked lists in memory

One pointer map holds the link of every node. A cycle is the list of nodes met on the way
from a node back to it, all distinct; any of its nodes can be taken for the first. Changes
replace a stretch of nodes by another one.
-/

namespace Ucore.Lib.Cycle

variable {α : Type u} {next next' : α → α} {head e : α} {xs ys old mid : List α}

/-- Each node but the last one points to the node behind it. -/
abbrev Path (next : α → α) (nodes : List α) : Prop := nodes.IsChain fun a b => next a = b

/-- Only the links of the nodes before the last one matter to a path. -/
theorem Path.congr {nodes : List α} (path : Path next nodes) (same : ∀ x ∈ nodes.dropLast, next' x = next x) :
    Path next' nodes := by
  induction nodes with
  | nil => exact .nil
  | cons a rest ih =>
      cases rest with
      | nil => exact .singleton a
      | cons b rest =>
          obtain ⟨step, path⟩ := List.isChain_cons_cons.mp path
          refine List.isChain_cons_cons.mpr ⟨?_, ih path fun x inside => same x ?_⟩
          · rw [same a (by simp), step]
          · rw [List.dropLast_cons_of_ne_nil (List.cons_ne_nil b rest)]
            exact List.mem_cons_of_mem a inside

theorem cons_concat (head : α) (xs : List α) : ∃ front, head :: xs = front ++ [xs.getLast?.getD head] := by
  rcases List.eq_nil_or_concat xs with rfl | ⟨xs, p, rfl⟩
  · exact ⟨[], rfl⟩
  · refine ⟨head :: xs, ?_⟩
    rw [List.concat_eq_append, List.getLast?_concat, Option.getD_some, List.cons_append]

theorem concat_cons (head : α) (ys : List α) : ∃ back, ys ++ [head] = ys.head?.getD head :: back := by
  cases ys with
  | nil => exact ⟨[], rfl⟩
  | cons y ys => exact ⟨ys ++ [head], rfl⟩

/-- From `head` the links lead through `xs` and back to `head`. -/
structure IsCycle (next : α → α) (head : α) (xs : List α) : Prop where
  nodup : (head :: xs).Nodup
  path : Path next (head :: (xs ++ [head]))

namespace IsCycle

/-- The cycle as seen from another of its nodes. -/
theorem rotate (cycle : IsCycle next head (xs ++ e :: ys)) : IsCycle next e (ys ++ head :: xs) where
  nodup := by
    have perm : ((head :: xs) ++ e :: ys).Perm ((e :: ys) ++ head :: xs) := List.perm_append_comm
    exact perm.nodup_iff.mp cycle.nodup
  path := by
    have path : Path next ((head :: xs) ++ e :: (ys ++ [head])) := by simpa using cycle.path
    obtain ⟨front, back⟩ := List.isChain_split.mp path
    have joined : Path next ((e :: ys) ++ head :: (xs ++ [e])) := List.isChain_split.mpr ⟨back, front⟩
    simpa using joined

/-- Any node of a cycle can be taken for the first. -/
theorem turn (cycle : IsCycle next head xs) (member : e ∈ head :: xs) :
    ∃ ws, IsCycle next e ws ∧ (e :: ws).Perm (head :: xs) := by
  rcases List.mem_cons.mp member with rfl | inside
  · exact ⟨xs, cycle, .refl _⟩
  · obtain ⟨before, after, rfl⟩ := List.append_of_mem inside
    have perm : ((e :: after) ++ head :: before).Perm ((head :: before) ++ e :: after) := List.perm_append_comm
    exact ⟨_, cycle.rotate, perm⟩

/-- The node behind a stretch of the cycle. -/
theorem next_before (cycle : IsCycle next head (xs ++ ys)) : next (xs.getLast?.getD head) = ys.head?.getD head := by
  have path : Path next ((head :: xs) ++ (ys ++ [head])) := by simpa using cycle.path
  obtain ⟨front, last⟩ := cons_concat head xs
  obtain ⟨back, first⟩ := concat_cons head ys
  rw [last, first, List.append_assoc] at path
  exact (List.isChain_cons_cons.mp (List.isChain_split.mp path).2).1

theorem next_eq (cycle : IsCycle next head (xs ++ e :: ys)) : next e = ys.head?.getD head := by
  have shifted : IsCycle next head ((xs ++ [e]) ++ ys) := by simpa using cycle
  simpa using shifted.next_before

theorem next_head (cycle : IsCycle next head xs) : next head = xs.head?.getD head := by
  have whole : IsCycle next head ([] ++ xs) := cycle
  exact whole.next_before

/-- No two nodes of a cycle point to the same node. -/
theorem injective (cycle : IsCycle next head xs) {x y : α} (first : x ∈ head :: xs) (second : y ∈ head :: xs)
    (same : next x = next y) : x = y := by
  obtain ⟨ws, turned, perm⟩ := cycle.turn first
  rcases List.mem_cons.mp (perm.mem_iff.mpr second) with rfl | inside
  · rfl
  · obtain ⟨before, after, rfl⟩ := List.append_of_mem inside
    have distinct := turned.nodup
    rw [turned.next_head, turned.next_eq] at same
    cases before with
    | nil =>
        cases after with
        | nil =>
            simp only [List.nil_append, List.head?_cons, Option.getD_some, List.head?_nil, Option.getD_none] at same
            exact same.symm
        | cons w after =>
            simp only [List.nil_append, List.head?_cons, Option.getD_some] at same
            simp [same] at distinct
    | cons z before =>
        cases after with
        | nil =>
            simp only [List.cons_append, List.head?_cons, Option.getD_some, List.head?_nil, Option.getD_none] at same
            simp [same] at distinct
        | cons w after =>
            simp only [List.cons_append, List.head?_cons, Option.getD_some] at same
            simp [same] at distinct

/-- A stretch of the cycle is replaced by another one. -/
theorem splice (cycle : IsCycle next head (xs ++ (old ++ ys))) (nodup : (head :: (xs ++ (mid ++ ys))).Nodup)
    (through : Path next' (xs.getLast?.getD head :: (mid ++ [ys.head?.getD head])))
    (others : ∀ x ∈ head :: (xs ++ ys), x ≠ xs.getLast?.getD head → next' x = next x) :
    IsCycle next' head (xs ++ (mid ++ ys)) where
  nodup := nodup
  path := by
    have distinct := cycle.nodup
    have path : Path next ((head :: xs) ++ (old ++ (ys ++ [head]))) := by simpa using cycle.path
    have goal : head :: (xs ++ (mid ++ ys) ++ [head]) = (head :: xs) ++ (mid ++ (ys ++ [head])) := by simp
    obtain ⟨front, last⟩ := cons_concat head xs
    obtain ⟨back, first⟩ := concat_cons head ys
    generalize xs.getLast?.getD head = p at last through others
    generalize ys.head?.getD head = n at first through
    rw [goal]
    rw [← List.cons_append, last] at distinct
    have apart : ∀ x ∈ front, x ≠ p := by
      rintro x inside rfl
      exact (List.disjoint_of_nodup_append (List.nodup_append.mp distinct).1) inside List.mem_cons_self
    have before : Path next' (front ++ [p]) := by
      rw [last] at path
      refine Path.congr (List.isChain_append.mp path).1 fun x inside => ?_
      rw [List.dropLast_concat] at inside
      refine others x ?_ (apart x inside)
      rw [← List.cons_append, last]
      simp [inside]
    have after : Path next' (n :: back) := by
      rw [← List.append_assoc] at path
      refine first ▸ Path.congr (List.isChain_append.mp path).2.1 fun x inside => ?_
      rw [List.dropLast_concat] at inside
      refine others x (by simp [inside]) ?_
      rintro rfl
      exact (List.disjoint_of_nodup_append distinct) (List.mem_append_right _ (List.mem_singleton_self x))
        (List.mem_append_right _ inside)
    have rest : Path next' ((p :: mid) ++ n :: back) := List.isChain_split.mpr ⟨through, after⟩
    rw [last, first, List.append_assoc, List.singleton_append]
    exact List.isChain_split.mpr ⟨before, rest⟩

end IsCycle

end Ucore.Lib.Cycle
