import Ucore.Lib.LinkedTree
import Ucore.Libs.Assert

/-! # `skew_heap.h`

Skew heaps whose nodes sit inside other records. The functions patch the three pointers
of each node in place; over them stand the same operations on trees, which say what the
heap holds afterwards.
-/

namespace Ucore.Libs.SkewHeap

open Lib.LinkedTree Libs.Assert

variable {α : Type u}

/-! ## On trees -/

def merge (comp : α → α → Int) : BinaryTree α → BinaryTree α → BinaryTree α
  | .nil, b => b
  | .node x l r, .nil => .node x l r
  | .node x l r, .node y l' r' =>
      if comp x y = -1 then .node x (merge comp r (.node y l' r')) l
      else .node y (merge comp (.node x l r) r') l'
termination_by a b => a.numNodes + b.numNodes

theorem merge_perm (comp : α → α → Int) (a b : BinaryTree α) : (nodes (merge comp a b)).Perm (nodes a ++ nodes b) := by
  fun_induction merge comp a b with
  | case1 b => exact .refl _
  | case2 x l r => simp
  | case3 x l r y l' r' before ih =>
      rw [nodes_node, nodes_node, List.cons_append]
      refine List.Perm.cons x ?_
      calc nodes (merge comp r (.node y l' r')) ++ nodes l
        _ |>.Perm ((nodes r ++ nodes (.node y l' r')) ++ nodes l) := ih.append_right _
        _ |>.Perm (nodes l ++ (nodes r ++ nodes (.node y l' r'))) := List.perm_append_comm
        _ = nodes l ++ nodes r ++ nodes (.node y l' r') := (List.append_assoc ..).symm
  | case4 x l r y l' r' after ih =>
      rw [nodes_node]
      refine List.Perm.trans (List.Perm.cons y ?_) List.perm_middle.symm
      calc nodes (merge comp (.node x l r) r') ++ nodes l'
        _ |>.Perm ((nodes (.node x l r) ++ nodes r') ++ nodes l') := ih.append_right _
        _ = nodes (.node x l r) ++ (nodes r' ++ nodes l') := List.append_assoc ..
        _ |>.Perm (nodes (.node x l r) ++ (nodes l' ++ nodes r')) := List.perm_append_comm.append_left _

/-- The root of the merged heap is one of the two roots. -/
theorem root_merge {comp : α → α → Int} {a b : BinaryTree α} {c : α} (top : root (merge comp a b) = some c) :
    root a = some c ∨ root b = some c := by
  fun_cases merge comp a b with
  | case1 => exact .inr (by simpa [merge] using top)
  | case2 x l r => exact .inl (by simpa [merge] using top)
  | case3 x l r y l' r' before => exact .inl (by simpa [merge, before] using top)
  | case4 x l r y l' r' after => exact .inr (by simpa [merge, after] using top)

/-- `comp` answers `-1` exactly where the second node does not stand before the first one
    in a total preorder of the nodes at hand. -/
structure Compares (comp : α → α → Int) (le : α → α → Prop) (S : Set α) : Prop where
  total : ∀ a ∈ S, ∀ b ∈ S, le a b ∨ le b a
  trans : ∀ a ∈ S, ∀ b ∈ S, ∀ c ∈ S, le a b → le b c → le a c
  before : ∀ a ∈ S, ∀ b ∈ S, comp a b = -1 ↔ ¬ le b a

theorem Compares.le_of_before {comp : α → α → Int} {le : α → α → Prop} {S : Set α} (order : Compares comp le S)
    {a b : α} (ina : a ∈ S) (inb : b ∈ S) (before : comp a b = -1) : le a b :=
  (order.total a ina b inb).resolve_right ((order.before a ina b inb).mp before)

theorem Compares.le_of_not_before {comp : α → α → Int} {le : α → α → Prop} {S : Set α} (order : Compares comp le S)
    {a b : α} (ina : a ∈ S) (inb : b ∈ S) (after : comp a b ≠ -1) : le b a :=
  Classical.byContradiction fun apart => after ((order.before a ina b inb).mpr apart)

section Order

variable {comp : α → α → Int} {le : α → α → Prop} {S : Set α} (order : Compares comp le S)
include order

theorem merge_ordered {a b : BinaryTree α} (ina : ∀ c ∈ nodes a, c ∈ S) (inb : ∀ c ∈ nodes b, c ∈ S)
    (ordereda : Ordered le a) (orderedb : Ordered le b) : Ordered le (merge comp a b) := by
  fun_induction merge comp a b with
  | case1 b => exact orderedb
  | case2 x l r => exact ordereda
  | case3 x l r y l' r' before ih =>
      obtain ⟨left, right, inr⟩ := ordereda
      have first : le x y := order.le_of_before (ina x (root_mem rfl)) (inb y (root_mem rfl)) before
      refine ⟨⟨?_, ih (fun c inside => ina c (by simp [inside])) inb inr orderedb⟩, left⟩
      intro c top
      cases root_merge top with
      | inl top => exact right c top
      | inr top =>
          cases top
          exact first
  | case4 x l r y l' r' after ih =>
      obtain ⟨left, right, inr⟩ := orderedb
      have first : le y x := order.le_of_not_before (ina x (root_mem rfl)) (inb y (root_mem rfl)) after
      refine ⟨⟨?_, ih ina (fun c inside => inb c (by simp [inside])) ordereda inr⟩, left⟩
      intro c top
      cases root_merge top with
      | inl top =>
          cases top
          exact first
      | inr top => exact right c top

end Order

/-! ## In memory -/

variable [DecidableEq α]

abbrev Memory (α : Type u) := α → Entry α

def setParent (m : Memory α) (a : α) (p : Option α) : Memory α := Function.update m a { m a with parent := p }

def setLeft (m : Memory α) (a : α) (p : Option α) : Memory α := Function.update m a { m a with left := p }

def setRight (m : Memory α) (a : α) (p : Option α) : Memory α := Function.update m a { m a with right := p }

def skewHeapInit (a : α) (m : Memory α) : Memory α := Function.update m a ⟨none, none, none⟩

/-- `if (l) l->parent = p;` -/
def adopt (m : Memory α) (p : Option α) : Option α → Memory α
  | none => m
  | some l => setParent m l p

/-- The comparison is looked at for `-1` only. The fuel stands for the stack. -/
def skewHeapMerge (comp : α → α → Int) : Nat → Option α → Option α → Memory α → Result (Option α × Memory α)
  | 0, _, _, _ => .error .fuel
  | _ + 1, none, b, m => .ok (b, m)
  | _ + 1, some a, none, m => .ok (some a, m)
  | fuel + 1, some a, some b, m =>
      if comp a b = -1 then do
        let r := (m a).left
        let (l, m) ← skewHeapMerge comp fuel (m a).right (some b) m
        let m := setRight (setLeft m a l) a r
        pure (some a, adopt m (some a) l)
      else do
        let r := (m b).left
        let (l, m) ← skewHeapMerge comp fuel (some a) (m b).right m
        let m := setRight (setLeft m b l) b r
        pure (some b, adopt m (some b) l)

def skewHeapInsert (comp : α → α → Int) (fuel : Nat) (a : Option α) (b : α) (m : Memory α) :
    Result (Option α × Memory α) :=
  skewHeapMerge comp fuel a (some b) (skewHeapInit b m)

def skewHeapRemove (comp : α → α → Int) (fuel : Nat) (a : Option α) (b : α) (m : Memory α) :
    Result (Option α × Memory α) := do
  let p := (m b).parent
  let (rep, m) ← skewHeapMerge comp fuel (m b).left (m b).right m
  let m := adopt m p rep
  match p with
  | some p => if (m p).left = some b then pure (a, setLeft m p rep) else pure (a, setRight m p rep)
  | none => pure (rep, m)

/-! ### Removal on trees -/

def remove (comp : α → α → Int) (b : α) : BinaryTree α → BinaryTree α
  | .nil => .nil
  | .node x l r => if x = b then merge comp l r else .node x (remove comp b l) (remove comp b r)

theorem remove_root (comp : α → α → Int) (b : α) (l r : BinaryTree α) :
    remove comp b (.node b l r) = merge comp l r := if_pos rfl

theorem remove_node {comp : α → α → Int} {b x : α} {l r : BinaryTree α} (other : x ≠ b) :
    remove comp b (.node x l r) = .node x (remove comp b l) (remove comp b r) := if_neg other

theorem remove_of_notMem {comp : α → α → Int} {b : α} {t : BinaryTree α} (absent : b ∉ nodes t) :
    remove comp b t = t := by
  induction t with
  | nil => rfl
  | node x l r ihl ihr =>
      rw [nodes_node, List.mem_cons, List.mem_append, not_or, not_or] at absent
      obtain ⟨other, outl, outr⟩ := absent
      rw [remove_node (Ne.symm other), ihl outl, ihr outr]

theorem root_remove {comp : α → α → Int} {b : α} {t : BinaryTree α} (other : root t ≠ some b) :
    root (remove comp b t) = root t := by
  cases t with
  | nil => rfl
  | node x l r =>
      rw [remove_node fun same => other (congrArg some same)]
      rfl

theorem remove_perm {comp : α → α → Int} {b : α} {t : BinaryTree α} (nodup : (nodes t).Nodup) :
    (nodes (remove comp b t)).Perm ((nodes t).erase b) := by
  induction t with
  | nil => exact .refl _
  | node x l r ihl ihr =>
      obtain ⟨-, -, nodupl, nodupr, apart⟩ := nodup_node.mp nodup
      by_cases same : x = b
      · rw [same, remove_root, nodes_node, List.erase_cons_head]
        exact merge_perm comp l r
      · rw [remove_node same, nodes_node, nodes_node, List.erase_cons_tail (by simpa using same)]
        refine List.Perm.cons x (((ihl nodupl).append (ihr nodupr)).trans ?_)
        by_cases inside : b ∈ nodes l
        · rw [List.erase_append_left _ inside, List.erase_of_not_mem (apart inside)]
        · rw [List.erase_append_right _ inside, List.erase_of_not_mem inside]

/-- What stood before the root of a tree stands before the root it has after a removal. -/
theorem remove_head {comp : α → α → Int} {le : α → α → Prop} {S : Set α} (order : Compares comp le S) {b x : α}
    {t : BinaryTree α} (outer : x ∈ S) (within : ∀ c ∈ nodes t, c ∈ S) (ordered : Ordered le t)
    (head : ∀ c, root t = some c → le x c) : ∀ c, root (remove comp b t) = some c → le x c := by
  intro c top
  by_cases gone : root t = some b
  · cases t with
    | nil => cases gone
    | node y l r =>
        cases gone
        rw [remove_root] at top
        have inside : c ∈ nodes l ∨ c ∈ nodes r := (root_merge top).imp root_mem root_mem
        have child : le b c := (root_merge top).elim (ordered.1.1 c) (ordered.2.1 c)
        exact order.trans x outer b (within b (root_mem rfl)) c (within c (by simp [inside])) (head b rfl) child
  · exact head c ((root_remove gone).symm.trans top)

theorem remove_ordered {comp : α → α → Int} {le : α → α → Prop} {S : Set α} (order : Compares comp le S) {b : α}
    {t : BinaryTree α} (within : ∀ c ∈ nodes t, c ∈ S) (ordered : Ordered le t) : Ordered le (remove comp b t) := by
  induction t with
  | nil => trivial
  | node x l r ihl ihr =>
      obtain ⟨⟨headl, inl⟩, headr, inr⟩ := ordered
      have outer : x ∈ S := within x (root_mem rfl)
      have withinl : ∀ c ∈ nodes l, c ∈ S := fun c inside => within c (by simp [inside])
      have withinr : ∀ c ∈ nodes r, c ∈ S := fun c inside => within c (by simp [inside])
      by_cases same : x = b
      · rw [same, remove_root]
        exact merge_ordered order withinl withinr inl inr
      · rw [remove_node same]
        exact ⟨⟨remove_head order outer withinl inl headl, ihl withinl inl⟩,
          remove_head order outer withinr inr headr, ihr withinr inr⟩

/-! ### What the stores do -/

@[simp] theorem setLeft_self (m : Memory α) (a : α) (p : Option α) : setLeft m a p a = { m a with left := p } :=
  Function.update_self ..

@[simp] theorem setRight_self (m : Memory α) (a : α) (p : Option α) : setRight m a p a = { m a with right := p } :=
  Function.update_self ..

theorem setLeft_of_ne {m : Memory α} {a c : α} {p : Option α} (other : c ≠ a) : setLeft m a p c = m c :=
  Function.update_of_ne other ..

theorem setRight_of_ne {m : Memory α} {a c : α} {p : Option α} (other : c ≠ a) : setRight m a p c = m c :=
  Function.update_of_ne other ..

theorem adopt_of_notMem {m : Memory α} {p : Option α} {t : BinaryTree α} {c : α} (outside : c ∉ nodes t) :
    adopt m p (root t) c = m c := by
  cases t with
  | nil => rfl
  | node x l r => exact Function.update_of_ne (fun same => outside (by simp [same])) ..

theorem adopt_parent {m : Memory α} {p : Option α} {t : BinaryTree α} {c : α} (top : root t = some c) :
    (adopt m p (root t) c).parent = p := by
  rw [top]
  exact congrArg Entry.parent (Function.update_self c _ m)

theorem adopt_linked {m : Memory α} {p : Option α} {t : BinaryTree α} (linked : Linked m t)
    (nodup : (nodes t).Nodup) : Linked (adopt m p (root t)) t := by
  cases t with
  | nil => trivial
  | node x l r =>
      obtain ⟨outl, outr, -, -, -⟩ := nodup_node.mp nodup
      have here : adopt m p (some x) x = { m x with parent := p } := Function.update_self ..
      have elsewhere : ∀ c, c ≠ x → adopt m p (some x) c = m c := fun c other => Function.update_of_ne other ..
      have samel : ∀ c ∈ nodes l, adopt m p (some x) c = m c :=
        fun c inside => elsewhere c fun same => outl (same ▸ inside)
      have samer : ∀ c ∈ nodes r, adopt m p (some x) c = m c :=
        fun c inside => elsewhere c fun same => outr (same ▸ inside)
      obtain ⟨⟨left, hangsl, inl⟩, right, hangsr, inr⟩ := linked
      rw [root_node]
      refine ⟨⟨?_, ?_, inl.congr samel⟩, ?_, ?_, inr.congr samer⟩
      · rw [here]
        exact left
      · exact hangsl.congr fun c top => congrArg Entry.parent (samel c (root_mem top))
      · rw [here]
        exact right
      · exact hangsr.congr fun c top => congrArg Entry.parent (samer c (root_mem top))

/-- Two trees are hung from `x`, the first one of them with its parent still to be set. -/
theorem hang {m : Memory α} {x : α} {t l : BinaryTree α} (nodup : (nodes (.node x t l)).Nodup)
    (int : Linked m t) (inl : Linked m l) (hangs : HangsFrom m x l) :
    let m' := adopt (setRight (setLeft m x (root t)) x (root l)) (some x) (root t)
    Linked m' (.node x t l) ∧ (∀ c ∉ nodes (.node x t l), m' c = m c) ∧ (m' x).parent = (m x).parent := by
  intro m'
  obtain ⟨outt, outl, nodupt, -, apart⟩ := nodup_node.mp nodup
  have here : m' x = ⟨(m x).parent, root t, root l⟩ := by
    rw [show m' x = _ from adopt_of_notMem outt, setRight_self, setLeft_self]
  have before : ∀ c, c ≠ x → setRight (setLeft m x (root t)) x (root l) c = m c := fun c other => by
    rw [setRight_of_ne other, setLeft_of_ne other]
  have elsewhere : ∀ c, c ≠ x → c ∉ nodes t → m' c = m c := fun c other outside =>
    (adopt_of_notMem outside).trans (before c other)
  have samel : ∀ c ∈ nodes l, m' c = m c := fun c inside =>
    elsewhere c (fun same => outl (same ▸ inside)) fun member => apart member inside
  refine ⟨⟨⟨?_, ?_, ?_⟩, ?_, ?_, ?_⟩, ?_, ?_⟩
  · rw [here]
  · exact fun c top => adopt_parent top
  · exact adopt_linked (int.congr fun c inside => before c fun same => outt (same ▸ inside)) nodupt
  · rw [here]
  · exact hangs.congr fun c top => congrArg Entry.parent (samel c (root_mem top))
  · exact inl.congr samel
  · intro c outside
    rw [nodes_node, List.mem_cons, List.mem_append, not_or, not_or] at outside
    exact elsewhere c outside.1 outside.2.1
  · rw [here]

/-! ### Merging in memory -/

/-- What is left to do for `x` when the merge below it has brought forth `t` from the nodes `s`. -/
theorem hang_merged {m m₁ : Memory α} {x : α} {t l : BinaryTree α} {s : List α} (perm : (nodes t).Perm s)
    (nodup : (x :: (s ++ nodes l)).Nodup) (frame : ∀ c ∉ s, m₁ c = m c) (int : Linked m₁ t) (inl : Linked m l)
    (hangs : HangsFrom m x l) :
    let m' := adopt (setRight (setLeft m₁ x (root t)) x (root l)) (some x) (root t)
    Linked m' (.node x t l) ∧ (∀ c ∉ x :: (s ++ nodes l), m' c = m c) ∧ (m' x).parent = (m x).parent := by
  intro m'
  obtain ⟨outside, rest⟩ := List.nodup_cons.mp nodup
  obtain ⟨-, -, apart⟩ := List.nodup_append'.mp rest
  have whole : (nodes (.node x t l)).Perm (x :: (s ++ nodes l)) := (perm.append_right _).cons x
  have samel : ∀ c ∈ nodes l, m₁ c = m c := fun c inside => frame c fun member => apart member inside
  obtain ⟨linked, frame', parent⟩ := hang (whole.nodup_iff.mpr nodup) int (inl.congr samel)
    (hangs.congr fun c top => congrArg Entry.parent (samel c (root_mem top)))
  refine ⟨linked, ?_, ?_⟩
  · intro c away
    have off : c ∉ s := fun inside => away (by simp [inside])
    exact (frame' c fun inside => away (whole.subset inside)).trans (frame c off)
  · have off : x ∉ s := fun inside => outside (by simp [inside])
    exact parent.trans (congrArg Entry.parent (frame x off))

theorem skewHeapMerge_spec (comp : α → α → Int) {m : Memory α} {a b : BinaryTree α} (fuel : Nat) (ina : Linked m a)
    (inb : Linked m b) (nodup : (nodes a ++ nodes b).Nodup) (enough : a.numNodes + b.numNodes < fuel) :
    ∃ m', skewHeapMerge comp fuel (root a) (root b) m = .ok (root (merge comp a b), m') ∧
      Linked m' (merge comp a b) ∧ (∀ c ∉ nodes a ++ nodes b, m' c = m c) ∧
      ∀ c, root (merge comp a b) = some c → (m' c).parent = (m c).parent := by
  obtain _ | fuel := fuel
  · omega
  fun_induction merge comp a b generalizing fuel with
  | case1 b => exact ⟨m, rfl, inb, fun c _ => rfl, fun c _ => rfl⟩
  | case2 x l r => exact ⟨m, rfl, ina, fun c _ => rfl, fun c _ => rfl⟩
  | case3 x l r y l' r' before ih =>
      obtain ⟨⟨left, hangsl, inl⟩, right, -, inr⟩ := ina
      have below : r.numNodes + (BinaryTree.node y l' r').numNodes < fuel := by
        rw [BinaryTree.numNodes.eq_2 x] at enough
        omega
      obtain ⟨fuel, rfl⟩ : ∃ n, fuel = n + 1 := ⟨fuel - 1, by omega⟩
      have order : (nodes (.node x l r) ++ nodes (.node y l' r')).Perm
          (x :: ((nodes r ++ nodes (.node y l' r')) ++ nodes l)) := by
        rw [nodes_node, List.cons_append, List.append_assoc]
        exact List.Perm.cons x List.perm_append_comm
      have split := order.nodup_iff.mp nodup
      have rest := (List.nodup_append'.mp (List.nodup_cons.mp split).2).1
      obtain ⟨m₁, run, linked, frame, -⟩ := ih inr inb rest fuel below
      obtain ⟨linked', frame', parent⟩ := hang_merged (merge_perm comp r (.node y l' r')) split frame linked inl hangsl
      refine ⟨_, ?_, linked', fun c away => frame' c fun inside => away (order.symm.subset inside), ?_⟩
      · rw [root_node, root_node, skewHeapMerge, if_pos before, right, ← root_node y l' r', run, left]
        rfl
      · intro c top
        cases top
        exact parent
  | case4 x l r y l' r' after ih =>
      obtain ⟨⟨left, hangsl, inl⟩, right, -, inr⟩ := inb
      have below : (BinaryTree.node x l r).numNodes + r'.numNodes < fuel := by
        rw [BinaryTree.numNodes.eq_2 y] at enough
        omega
      obtain ⟨fuel, rfl⟩ : ∃ n, fuel = n + 1 := ⟨fuel - 1, by omega⟩
      have order : (nodes (.node x l r) ++ nodes (.node y l' r')).Perm
          (y :: ((nodes (.node x l r) ++ nodes r') ++ nodes l')) := by
        rw [nodes_node y, List.append_assoc]
        exact List.perm_middle.trans (List.Perm.cons y (List.perm_append_comm.append_left _))
      have split := order.nodup_iff.mp nodup
      have rest := (List.nodup_append'.mp (List.nodup_cons.mp split).2).1
      obtain ⟨m₁, run, linked, frame, -⟩ := ih ina inr rest fuel below
      obtain ⟨linked', frame', parent⟩ := hang_merged (merge_perm comp (.node x l r) r') split frame linked inl hangsl
      refine ⟨_, ?_, linked', fun c away => frame' c fun inside => away (order.symm.subset inside), ?_⟩
      · rw [root_node, root_node, skewHeapMerge, if_neg after, right, ← root_node x l r, run, left]
        rfl
      · intro c top
        cases top
        exact parent

/-! ### Removal in memory -/

/-- The two stores that put a merged heap in the place of the left child of `x`. -/
theorem hang_left {m : Memory α} {x : α} {t r : BinaryTree α} (nodup : (nodes (.node x t r)).Nodup)
    (int : Linked m t) (right : (m x).right = root r) (inr : Linked m r) (hangs : HangsFrom m x r) :
    let m' := setLeft (adopt m (some x) (root t)) x (root t)
    Linked m' (.node x t r) ∧ (∀ c ∉ nodes (.node x t r), m' c = m c) ∧ (m' x).parent = (m x).parent := by
  intro m'
  obtain ⟨outt, outr, nodupt, -, apart⟩ := nodup_node.mp nodup
  have here : m' x = { m x with left := root t } := by
    rw [show m' x = _ from setLeft_self .., adopt_of_notMem outt]
  have beside : ∀ c, c ≠ x → m' c = adopt m (some x) (root t) c := fun c other => setLeft_of_ne other
  have samer : ∀ c ∈ nodes r, m' c = m c := fun c inside =>
    (beside c fun same => outr (same ▸ inside)).trans (adopt_of_notMem fun member => apart member inside)
  refine ⟨⟨⟨?_, ?_, ?_⟩, ?_, ?_, inr.congr samer⟩, ?_, ?_⟩
  · rw [here]
  · intro c top
    rw [beside c fun same => outt (same ▸ root_mem top)]
    exact adopt_parent top
  · exact (adopt_linked int nodupt).congr fun c inside => beside c fun same => outt (same ▸ inside)
  · rw [here]
    exact right
  · exact hangs.congr fun c top => congrArg Entry.parent (samer c (root_mem top))
  · intro c outside
    rw [nodes_node, List.mem_cons, List.mem_append, not_or, not_or] at outside
    exact (beside c outside.1).trans (adopt_of_notMem outside.2.1)
  · rw [here]

theorem hang_right {m : Memory α} {x : α} {l t : BinaryTree α} (nodup : (nodes (.node x l t)).Nodup)
    (int : Linked m t) (left : (m x).left = root l) (inl : Linked m l) (hangs : HangsFrom m x l) :
    let m' := setRight (adopt m (some x) (root t)) x (root t)
    Linked m' (.node x l t) ∧ (∀ c ∉ nodes (.node x l t), m' c = m c) ∧ (m' x).parent = (m x).parent := by
  intro m'
  obtain ⟨outl, outt, -, nodupt, apart⟩ := nodup_node.mp nodup
  have here : m' x = { m x with right := root t } := by
    rw [show m' x = _ from setRight_self .., adopt_of_notMem outt]
  have beside : ∀ c, c ≠ x → m' c = adopt m (some x) (root t) c := fun c other => setRight_of_ne other
  have samel : ∀ c ∈ nodes l, m' c = m c := fun c inside =>
    (beside c fun same => outl (same ▸ inside)).trans (adopt_of_notMem fun member => apart inside member)
  refine ⟨⟨⟨?_, ?_, inl.congr samel⟩, ?_, ?_, ?_⟩, ?_, ?_⟩
  · rw [here]
    exact left
  · exact hangs.congr fun c top => congrArg Entry.parent (samel c (root_mem top))
  · rw [here]
  · intro c top
    rw [beside c fun same => outt (same ▸ root_mem top)]
    exact adopt_parent top
  · exact (adopt_linked int nodupt).congr fun c inside => beside c fun same => outt (same ▸ inside)
  · intro c outside
    rw [nodes_node, List.mem_cons, List.mem_append, not_or, not_or] at outside
    exact (beside c outside.1).trans (adopt_of_notMem outside.2.2)
  · rw [here]

/-- The children of the removed node, merged. -/
theorem merge_children (comp : α → α → Int) {m : Memory α} {b : α} {l r : BinaryTree α} (fuel : Nat)
    (linked : Linked m (.node b l r)) (nodup : (nodes (.node b l r)).Nodup)
    (enough : (BinaryTree.node b l r).numNodes ≤ fuel) :
    ∃ m', skewHeapMerge comp fuel (m b).left (m b).right m = .ok (root (merge comp l r), m') ∧
      Linked m' (merge comp l r) ∧ ∀ c ∉ nodes (.node b l r), m' c = m c := by
  obtain ⟨⟨left, -, inl⟩, right, -, inr⟩ := linked
  rw [BinaryTree.numNodes] at enough
  obtain ⟨m', run, linked, frame, -⟩ :=
    skewHeapMerge_spec comp fuel inl inr (List.nodup_cons.mp nodup).2 (by omega)
  exact ⟨m', by rw [left, right, run], linked, fun c off => frame c fun inside => off (List.mem_cons_of_mem b inside)⟩

/-- What `skew_heap_remove` leaves of the tree `t`, whose root it does not touch, as `t'`. -/
def Removes (comp : α → α → Int) (fuel : Nat) (m : Memory α) (b : α) (t t' : BinaryTree α) : Prop :=
  ∀ a, ∃ m', skewHeapRemove comp fuel a b m = .ok (a, m') ∧ Linked m' t' ∧ (∀ c ∉ nodes t, m' c = m c) ∧
    ∀ c, root t = some c → (m' c).parent = (m c).parent

theorem removes_leftChild {comp : α → α → Int} {m : Memory α} {b x : α} {l r s : BinaryTree α} {fuel : Nat}
    (linked : Linked m (.node x (.node b l r) s)) (nodup : (nodes (.node x (.node b l r) s)).Nodup)
    (enough : (BinaryTree.node b l r).numNodes ≤ fuel) :
    Removes comp fuel m b (.node x (.node b l r) s) (.node x (merge comp l r) s) := by
  intro a
  obtain ⟨outx, -, nodupb, -, apart⟩ := nodup_node.mp nodup
  obtain ⟨⟨left, hangs, inb⟩, right, hangss, ins⟩ := linked
  obtain ⟨m₁, run, linked₁, frame⟩ := merge_children comp fuel inb nodupb enough
  have perm := merge_perm comp l r
  have whole : (nodes (.node x (merge comp l r) s)).Perm (x :: ((nodes l ++ nodes r) ++ nodes s)) :=
    (perm.append_right (nodes s)).cons x
  have fewer : (x :: ((nodes l ++ nodes r) ++ nodes s)).Sublist (nodes (.node x (.node b l r) s)) :=
    List.Sublist.cons_cons x (List.sublist_cons_self b _)
  have here : m₁ x = m x := frame x outx
  have same : ∀ c ∈ nodes s, m₁ c = m c := fun c inside => frame c fun member => apart member inside
  obtain ⟨linked', frame', parent⟩ := hang_left (whole.nodup_iff.mpr (nodup.sublist fewer)) linked₁
    (by rw [here, right]) (ins.congr same) (hangss.congr fun c top => congrArg Entry.parent (same c (root_mem top)))
  have beside : x ∉ nodes (merge comp l r) := fun inside => outx (List.mem_cons_of_mem b (perm.subset inside))
  refine ⟨_, ?_, linked', ?_, ?_⟩
  · rw [skewHeapRemove, run, hangs b rfl]
    show (if (adopt m₁ (some x) (root (merge comp l r)) x).left = some b then _ else _) = _
    rw [adopt_of_notMem beside, here, left, root_node, if_pos rfl]
    rfl
  · intro c off
    have off' : c ∉ nodes (.node b l r) := fun inside => off (by simp_all)
    exact (frame' c fun inside => off (fewer.subset (whole.subset inside))).trans (frame c off')
  · intro c top
    cases top
    exact parent.trans (congrArg Entry.parent here)

theorem removes_rightChild {comp : α → α → Int} {m : Memory α} {b x : α} {l r s : BinaryTree α} {fuel : Nat}
    (linked : Linked m (.node x s (.node b l r))) (nodup : (nodes (.node x s (.node b l r))).Nodup)
    (enough : (BinaryTree.node b l r).numNodes ≤ fuel) :
    Removes comp fuel m b (.node x s (.node b l r)) (.node x s (merge comp l r)) := by
  intro a
  obtain ⟨-, outx, -, nodupb, apart⟩ := nodup_node.mp nodup
  obtain ⟨⟨left, hangss, ins⟩, right, hangs, inb⟩ := linked
  obtain ⟨m₁, run, linked₁, frame⟩ := merge_children comp fuel inb nodupb enough
  have perm := merge_perm comp l r
  have whole : (nodes (.node x s (merge comp l r))).Perm (x :: (nodes s ++ (nodes l ++ nodes r))) :=
    (perm.append_left (nodes s)).cons x
  have fewer : (x :: (nodes s ++ (nodes l ++ nodes r))).Sublist (nodes (.node x s (.node b l r))) :=
    List.Sublist.cons_cons x ((List.sublist_cons_self b _).append_left (nodes s))
  have here : m₁ x = m x := frame x outx
  have same : ∀ c ∈ nodes s, m₁ c = m c := fun c inside => frame c fun member => apart inside member
  obtain ⟨linked', frame', parent⟩ := hang_right (whole.nodup_iff.mpr (nodup.sublist fewer)) linked₁
    (by rw [here, left]) (ins.congr same) (hangss.congr fun c top => congrArg Entry.parent (same c (root_mem top)))
  have beside : x ∉ nodes (merge comp l r) := fun inside => outx (List.mem_cons_of_mem b (perm.subset inside))
  -- A node is the child of its parent on one side only.
  have notLeft : root s ≠ some b := fun top => apart (root_mem top) (root_mem rfl)
  refine ⟨_, ?_, linked', ?_, ?_⟩
  · rw [skewHeapRemove, run, hangs b rfl]
    show (if (adopt m₁ (some x) (root (merge comp l r)) x).left = some b then _ else _) = _
    rw [adopt_of_notMem beside, here, left, if_neg notLeft]
    rfl
  · intro c off
    have off' : c ∉ nodes (.node b l r) := fun inside => off (by simp_all)
    exact (frame' c fun inside => off (fewer.subset (whole.subset inside))).trans (frame c off')
  · intro c top
    cases top
    exact parent.trans (congrArg Entry.parent here)

/-- Removal of a node below the root: the heap keeps its root. -/
theorem skewHeapRemove_below {comp : α → α → Int} {m : Memory α} {b : α} {t : BinaryTree α} {fuel : Nat}
    (linked : Linked m t) (nodup : (nodes t).Nodup) (inside : b ∈ nodes t) (other : root t ≠ some b)
    (enough : t.numNodes ≤ fuel) : Removes comp fuel m b t (remove comp b t) := by
  induction t with
  | nil => cases inside
  | node x l r ihl ihr =>
      have apartx : x ≠ b := fun same => other (congrArg some same)
      obtain ⟨outl, outr, nodupl, nodupr, apart⟩ := nodup_node.mp nodup
      rw [BinaryTree.numNodes] at enough
      rw [nodes_node, List.mem_cons, List.mem_append] at inside
      rw [remove_node apartx]
      cases inside.resolve_left (Ne.symm apartx) with
      | inl member =>
          rw [remove_of_notMem (apart member)]
          by_cases top : root l = some b
          · obtain _ | ⟨_, ll, lr⟩ := l
            · cases member
            cases top
            rw [remove_root]
            exact removes_leftChild linked nodup (by omega)
          · intro a
            obtain ⟨m', run, linked', frame, parent⟩ := ihl linked.1.2.2 nodupl member top (by omega) a
            refine ⟨m', run, linked.replace_left nodup linked' (root_remove top) frame parent, ?_, ?_⟩
            · exact fun c off => frame c fun inside => off (by simp [inside])
            · intro c above
              cases above
              exact congrArg Entry.parent (frame x outl)
      | inr member =>
          rw [remove_of_notMem fun inside => apart inside member]
          by_cases top : root r = some b
          · obtain _ | ⟨_, rl, rr⟩ := r
            · cases member
            cases top
            rw [remove_root]
            exact removes_rightChild linked nodup (by omega)
          · intro a
            obtain ⟨m', run, linked', frame, parent⟩ := ihr linked.2.2.2 nodupr member top (by omega) a
            refine ⟨m', run, linked.replace_right nodup linked' (root_remove top) frame parent, ?_, ?_⟩
            · exact fun c off => frame c fun inside => off (by simp [inside])
            · intro c above
              cases above
              exact congrArg Entry.parent (frame x outr)

/-! ## Well-formed heaps -/

/-- A heap of exactly these nodes: parents and children know each other, no parent stands after
    its children, and the root has no parent. -/
def IsHeap (le : α → α → Prop) (m : Memory α) (a : Option α) (elems : Finset α) : Prop :=
  ∃ t, root t = a ∧ Linked m t ∧ (nodes t).Nodup ∧ (nodes t).toFinset = elems ∧ Ordered le t ∧
    ∀ c, a = some c → (m c).parent = none

variable {comp : α → α → Int} {le : α → α → Prop} {m : Memory α} {a : Option α} {b : α} {elems : Finset α}
  {fuel : Nat}

theorem numNodes_eq_card {t : BinaryTree α} (nodup : (nodes t).Nodup) : t.numNodes = (nodes t).toFinset.card := by
  rw [List.toFinset_card_of_nodup nodup, length_nodes]

theorem skewHeapInsert_spec (heap : IsHeap le m a elems) (new : b ∉ elems)
    (order : Compares comp le (insert b elems : Finset α)) (enough : elems.card + 1 < fuel) :
    ∃ a' m', skewHeapInsert comp fuel a b m = .ok (a', m') ∧ IsHeap le m' a' (insert b elems) ∧
      ∀ c ∉ insert b elems, m' c = m c := by
  obtain ⟨t, rfl, linked, nodup, rfl, ordered, orphan⟩ := heap
  have outside : b ∉ nodes t := fun inside => new (List.mem_toFinset.mpr inside)
  have away : ∀ c, c ≠ b → skewHeapInit b m c = m c := fun c other => Function.update_of_ne other ..
  have same : ∀ c ∈ nodes t, skewHeapInit b m c = m c := fun c inside => away c fun same => outside (same ▸ inside)
  have here : skewHeapInit b m b = ⟨none, none, none⟩ := Function.update_self ..
  have single : Linked (skewHeapInit b m) (.node b .nil .nil) := by
    refine ⟨⟨?_, nofun, trivial⟩, ?_, nofun, trivial⟩
    · rw [here, root_nil]
    · rw [here, root_nil]
  have both : (nodes t ++ nodes (.node b .nil .nil)).Nodup := by
    refine List.nodup_append'.mpr ⟨nodup, List.nodup_singleton b, ?_⟩
    exact List.disjoint_singleton.mpr outside
  have perm := merge_perm comp t (.node b .nil .nil)
  have elements : (nodes (merge comp t (.node b .nil .nil))).toFinset = insert b (nodes t).toFinset := by
    rw [List.toFinset_eq_of_perm _ _ perm, List.toFinset_append, Finset.union_comm]
    rfl
  have within : ∀ c ∈ nodes t, c ∈ insert b (nodes t).toFinset := fun c inside => by simp [inside]
  obtain ⟨m', run, linked', frame, parent⟩ := skewHeapMerge_spec comp fuel (linked.congr same) single both (by
    rw [numNodes_eq_card nodup]
    exact enough)
  refine ⟨_, m', run, ⟨_, rfl, linked', perm.nodup_iff.mpr both, elements, ?_, ?_⟩, ?_⟩
  · refine merge_ordered order within (fun c inside => ?_) ordered ⟨⟨nofun, trivial⟩, nofun, trivial⟩
    rw [List.mem_singleton.mp inside]
    exact Finset.mem_insert_self b _
  · intro c top
    rw [parent c top]
    cases root_merge top with
    | inl top => rw [same c (root_mem top), orphan c top]
    | inr top =>
        cases top
        rw [here]
  · intro c off
    rw [Finset.mem_insert, List.mem_toFinset, not_or] at off
    rw [frame c (by simp [off]), away c off.1]

theorem skewHeapRemove_spec (heap : IsHeap le m a elems) (inside : b ∈ elems) (order : Compares comp le elems)
    (enough : elems.card ≤ fuel) :
    ∃ a' m', skewHeapRemove comp fuel a b m = .ok (a', m') ∧ IsHeap le m' a' (elems.erase b) ∧
      ∀ c ∉ elems, m' c = m c := by
  obtain ⟨t, rfl, linked, nodup, rfl, ordered, orphan⟩ := heap
  rw [← numNodes_eq_card nodup] at enough
  rw [List.mem_toFinset] at inside
  have perm : (nodes (remove comp b t)).Perm ((nodes t).erase b) := remove_perm nodup
  have elements : (nodes (remove comp b t)).toFinset = (nodes t).toFinset.erase b := by
    rw [List.toFinset_eq_of_perm _ _ perm]
    ext c
    simp [nodup.mem_erase_iff]
  have nodup' : (nodes (remove comp b t)).Nodup := perm.nodup_iff.mpr (nodup.erase b)
  have ordered' := remove_ordered order (b := b) (fun c inside => List.mem_toFinset.mpr inside) ordered
  by_cases top : root t = some b
  · obtain _ | ⟨_, l, r⟩ := t
    · cases inside
    cases top
    have gone : (m b).parent = none := orphan b rfl
    rw [remove_root] at elements nodup' ordered'
    obtain ⟨m₁, run, linked₁, frame⟩ := merge_children comp fuel linked nodup enough
    refine ⟨root (merge comp l r), adopt m₁ none (root (merge comp l r)), ?_,
      ⟨_, rfl, ?_, nodup', elements, ordered', ?_⟩, ?_⟩
    · rw [skewHeapRemove, run, gone]
      rfl
    · exact adopt_linked linked₁ nodup'
    · exact fun c top => adopt_parent top
    · intro c off
      rw [List.mem_toFinset] at off
      have off' : c ∉ nodes (merge comp l r) := fun inside =>
        off (List.mem_cons_of_mem b ((merge_perm comp l r).subset inside))
      rw [adopt_of_notMem off', frame c off]
  · obtain ⟨m', run, linked', frame, parent⟩ := skewHeapRemove_below linked nodup inside top enough (root t)
    refine ⟨root t, m', run, ⟨_, root_remove top, linked', nodup', elements, ordered', ?_⟩, ?_⟩
    · exact fun c above => (parent c above).trans (orphan c above)
    · exact fun c off => frame c fun inside => off (List.mem_toFinset.mpr inside)

end Ucore.Libs.SkewHeap
