import Mathlib.Data.Tree.Basic
import Mathlib.Data.Finset.Basic
import Mathlib.Logic.Function.Basic
import Mathlib.Tactic.Common

/-! # Binary trees threaded through memory

Every node of a tree is a record with the addresses of its parent and its two children.
A memory holds a tree when the records at the tree's nodes say what the tree says. Only
the parent of the root is left open: it belongs to whatever the tree hangs from.
-/

namespace Ucore.Lib.LinkedTree

structure Entry (α : Type u) where
  parent : Option α
  left : Option α
  right : Option α

variable {α : Type u}

/-- The nodes from the root downwards. -/
def nodes : BinaryTree α → List α
  | .nil => []
  | .node x l r => x :: (nodes l ++ nodes r)

def root : BinaryTree α → Option α
  | .nil => none
  | .node x _ _ => some x

@[simp] theorem nodes_nil : nodes (.nil : BinaryTree α) = [] := rfl

@[simp] theorem nodes_node (x : α) (l r : BinaryTree α) : nodes (.node x l r) = x :: (nodes l ++ nodes r) := rfl

@[simp] theorem root_nil : root (.nil : BinaryTree α) = none := rfl

@[simp] theorem root_node (x : α) (l r : BinaryTree α) : root (.node x l r) = some x := rfl

theorem root_mem {t : BinaryTree α} {x : α} (top : root t = some x) : x ∈ nodes t := by
  cases t with
  | nil => cases top
  | node y l r =>
      cases top
      exact List.mem_cons_self

theorem length_nodes (t : BinaryTree α) : (nodes t).length = t.numNodes := by
  induction t with
  | nil => rfl
  | node x l r ihl ihr =>
      rw [nodes_node, List.length_cons, List.length_append, ihl, ihr, BinaryTree.numNodes]

/-- The nodes that hang from `x` know it. -/
def HangsFrom (m : α → Entry α) (x : α) (t : BinaryTree α) : Prop := ∀ c, root t = some c → (m c).parent = some x

/-- The memory holds the tree, but for the parent of its root. -/
def Linked (m : α → Entry α) : BinaryTree α → Prop
  | .nil => True
  | .node x l r =>
      ((m x).left = root l ∧ HangsFrom m x l ∧ Linked m l) ∧ ((m x).right = root r ∧ HangsFrom m x r ∧ Linked m r)

variable {m m' : α → Entry α}

theorem HangsFrom.congr {x : α} {t : BinaryTree α} (hangs : HangsFrom m x t)
    (same : ∀ c, root t = some c → (m' c).parent = (m c).parent) : HangsFrom m' x t :=
  fun c top => (same c top).trans (hangs c top)

theorem Linked.congr {t : BinaryTree α} (linked : Linked m t) (same : ∀ c ∈ nodes t, m' c = m c) :
    Linked m' t := by
  induction t with
  | nil => trivial
  | node x l r ihl ihr =>
      obtain ⟨⟨left, hangsl, inl⟩, right, hangsr, inr⟩ := linked
      have here : m' x = m x := same x List.mem_cons_self
      have samel : ∀ c ∈ nodes l, m' c = m c := fun c inside => same c (by simp [inside])
      have samer : ∀ c ∈ nodes r, m' c = m c := fun c inside => same c (by simp [inside])
      refine ⟨⟨?_, ?_, ihl inl samel⟩, ?_, ?_, ihr inr samer⟩
      · rw [here, left]
      · exact hangsl.congr fun c top => congrArg Entry.parent (samel c (root_mem top))
      · rw [here, right]
      · exact hangsr.congr fun c top => congrArg Entry.parent (samer c (root_mem top))

/-- What a duplicate-free node list says of the two subtrees. -/
theorem nodup_node {x : α} {l r : BinaryTree α} :
    (nodes (.node x l r)).Nodup ↔
      x ∉ nodes l ∧ x ∉ nodes r ∧ (nodes l).Nodup ∧ (nodes r).Nodup ∧ (nodes l).Disjoint (nodes r) := by
  rw [nodes_node, List.nodup_cons, List.mem_append, List.nodup_append']
  grind

/-- A subtree may change below its root without the rest of the tree noticing. -/
theorem Linked.replace_left {x : α} {l l' r : BinaryTree α} (linked : Linked m (.node x l r))
    (nodup : (nodes (.node x l r)).Nodup) (linked' : Linked m' l') (same : root l' = root l)
    (frame : ∀ c ∉ nodes l, m' c = m c) (parent : ∀ c, root l = some c → (m' c).parent = (m c).parent) :
    Linked m' (.node x l' r) := by
  obtain ⟨outl, -, -, -, apart⟩ := nodup_node.mp nodup
  obtain ⟨⟨left, hangsl, -⟩, right, hangsr, inr⟩ := linked
  have here : m' x = m x := frame x outl
  have samer : ∀ c ∈ nodes r, m' c = m c := fun c inside => frame c fun member => apart member inside
  refine ⟨⟨?_, ?_, linked'⟩, ?_, ?_, inr.congr samer⟩
  · rw [here, left, same]
  · intro c top
    rw [same] at top
    exact (parent c top).trans (hangsl c top)
  · rw [here, right]
  · exact hangsr.congr fun c top => congrArg Entry.parent (samer c (root_mem top))

theorem Linked.replace_right {x : α} {l r r' : BinaryTree α} (linked : Linked m (.node x l r))
    (nodup : (nodes (.node x l r)).Nodup) (linked' : Linked m' r') (same : root r' = root r)
    (frame : ∀ c ∉ nodes r, m' c = m c) (parent : ∀ c, root r = some c → (m' c).parent = (m c).parent) :
    Linked m' (.node x l r') := by
  obtain ⟨-, outr, -, -, apart⟩ := nodup_node.mp nodup
  obtain ⟨⟨left, hangsl, inl⟩, right, hangsr, -⟩ := linked
  have here : m' x = m x := frame x outr
  have samel : ∀ c ∈ nodes l, m' c = m c := fun c inside => frame c fun member => apart inside member
  refine ⟨⟨?_, ?_, inl.congr samel⟩, ?_, ?_, linked'⟩
  · rw [here, left]
  · exact hangsl.congr fun c top => congrArg Entry.parent (samel c (root_mem top))
  · rw [here, right, same]
  · intro c top
    rw [same] at top
    exact (parent c top).trans (hangsr c top)

/-! ## Order -/

/-- Every parent stands before its children. -/
def Ordered (le : α → α → Prop) : BinaryTree α → Prop
  | .nil => True
  | .node x l r => ((∀ c, root l = some c → le x c) ∧ Ordered le l) ∧ ((∀ c, root r = some c → le x c) ∧ Ordered le r)

end Ucore.Lib.LinkedTree
