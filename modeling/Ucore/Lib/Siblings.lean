import Mathlib

/-! # Families of nodes

Each node points at its parent and at its first child, and the children of a node form a
row that ends at a node without an `older` one: `older` leads along the row and `younger`
back. Nodes join a row at its front and leave it anywhere.
-/

namespace Ucore.Lib.Siblings

/-- The four pointers of every node. -/
structure Kin (α : Type u) where
  parent : α → Option α
  child : α → Option α
  older : α → Option α
  younger : α → Option α

variable {α : Type u} {k k' : Kin α}

/-! ## Rows -/

/-- The first node of a row may have any `younger` one. -/
def Row (k : Kin α) : List α → Prop
  | [] => True
  | a :: rest => k.older a = rest.head? ∧ (∀ b, rest.head? = some b → k.younger b = some a) ∧ Row k rest

theorem Row.congr {row : List α} (is : Row k row) (older : ∀ a ∈ row, k'.older a = k.older a)
    (younger : ∀ a ∈ row.tail, k'.younger a = k.younger a) : Row k' row := by
  induction row with
  | nil => trivial
  | cons a rest ih =>
      obtain ⟨next, back, later⟩ := is
      refine ⟨(older a List.mem_cons_self).trans next, fun b first => ?_, ?_⟩
      · rw [younger b (List.mem_of_head? first), back b first]
      · exact ih later (fun b inside => older b (List.mem_cons_of_mem a inside))
          fun b inside => younger b (List.mem_of_mem_tail inside)

theorem Row.append {before after : List α} (is : Row k (before ++ after)) : Row k after := by
  induction before with
  | nil => exact is
  | cons a before ih => exact ih is.2.2

/-- What is before a node in the row of a node. -/
theorem Row.younger_eq {before after : List α} {x : α} (is : Row k (before ++ x :: after))
    (front : (before ++ x :: after).head? = some x → k.younger x = none) : k.younger x = before.getLast? := by
  cases before with
  | nil => exact front rfl
  | cons a before =>
      clear front
      induction before generalizing a with
      | nil => exact is.2.1 x rfl
      | cons b before ih =>
          rw [List.getLast?_cons_cons]
          exact ih b is.2.2

theorem Row.older_eq {before after : List α} {x : α} (is : Row k (before ++ x :: after)) : k.older x = after.head? :=
  is.append.1

/-- A node is taken out where its neighbours are linked. -/
theorem Row.unlink {before after : List α} {x : α} (is : Row k (before ++ x :: after)) (later : Row k' after)
    (older : ∀ a ∈ before.dropLast, k'.older a = k.older a)
    (younger : ∀ a ∈ before.tail, k'.younger a = k.younger a)
    (seam : ∀ a, before.getLast? = some a → k'.older a = after.head? ∧ ∀ b, after.head? = some b →
    k'.younger b = some a) :
    Row k' (before ++ after) := by
  induction before with
  | nil => exact later
  | cons a before ih =>
      cases before with
      | nil => exact ⟨(seam a rfl).1, (seam a rfl).2, later⟩
      | cons b before =>
          obtain ⟨next, back, rest⟩ := is
          refine ⟨?_, fun c first => ?_, ?_⟩
          · rw [older a (by simp), next]
            rfl
          · obtain rfl : b = c := Option.some.inj first
            rw [younger b (by simp)]
            exact back b rfl
          · refine ih rest (fun c inside => older c ?_) (fun c inside => younger c ?_) fun c last => ?_
            · rw [List.dropLast_cons_cons]
              exact List.mem_cons_of_mem a inside
            · exact List.mem_cons_of_mem b inside
            · exact seam c ((List.getLast?_cons_cons ..).trans last)

/-- The first node of the row has no younger one. -/
def Fronted (k : Kin α) (row : List α) : Prop := ∀ x, row.head? = some x → k.younger x = none

/-! ## Families -/

/-- The children of every member, the youngest first. The row of the node `loose` may begin with a
    node that points back. -/
structure Families (k : Kin α) (loose : Option α) (members : Finset α) (children : α → List α) : Prop where
  child : ∀ p ∈ members, k.child p = (children p).head?
  row : ∀ p ∈ members, Row k (children p)
  front : ∀ p ∈ members, loose ≠ some p → Fronted k (children p)
  nodup : ∀ p ∈ members, (children p).Nodup
  parent : ∀ p ∈ members, ∀ x, x ∈ children p ↔ x ∈ members ∧ k.parent x = some p
  closed : ∀ x ∈ members, ∀ p, k.parent x = some p → p ∈ members

/-- The parents of a node end at the root. -/
inductive Rooted (k : Kin α) (root : α) : α → Prop where
  | root : Rooted k root root
  | child {x p : α} (parent : k.parent x = some p) (rooted : Rooted k root p) : Rooted k root x

variable {loose : Option α} {members : Finset α} {children : α → List α} {p q x y : α}

namespace Families

theorem apart (families : Families k loose members children) (here : p ∈ members) (there : q ∈ members)
    (other : p ≠ q) :
    (children p).Disjoint (children q) := by
  intro x one two
  have first := ((families.parent p here x).mp one).2
  have second := ((families.parent q there x).mp two).2
  exact other (Option.some.inj (first.symm.trans second))

theorem member (families : Families k loose members children) (here : p ∈ members) (inside : x ∈ children p) :
    x ∈ members :=
  ((families.parent p here x).mp inside).1

/-- The first child of a node is nobody else's. -/
theorem first_ne (families : Families k loose members children) (here : p ∈ members) (there : q ∈ members)
    (other : p ≠ q) (inside : x ∈ children q) : k.child p ≠ some x := by
  intro same
  rw [families.child p here] at same
  exact families.apart here there other (List.mem_of_head? same) inside

/-- Only the pointers of the members matter. -/
theorem congr (families : Families k loose members children) (parent : ∀ x ∈ members, k'.parent x = k.parent x)
    (child : ∀ x ∈ members, k'.child x = k.child x) (older : ∀ x ∈ members, k'.older x = k.older x)
    (younger : ∀ x ∈ members, k'.younger x = k.younger x) : Families k' loose members children := by
  refine ⟨fun p here => ?_, fun p here => ?_, fun p here tight => ?_, families.nodup, fun p here x => ?_,
    fun x inside p => ?_⟩
  · rw [child p here]
    exact families.child p here
  · exact (families.row p here).congr (fun a inside => older a (families.member here inside)) fun a inside =>
      younger a (families.member here (List.mem_of_mem_tail inside))
  · intro x head
    rw [younger x (families.member here (List.mem_of_head? head))]
    exact families.front p here tight x head
  · rw [families.parent p here x]
    refine and_congr_right fun inside => ?_
    rw [parent x inside]
  · rw [parent x inside]
    exact families.closed x inside p

/-- Where every row begins with a node that does not point back. -/
theorem tight (families : Families k loose members children) (empty : ∀ c, loose = some c → children c = []) :
    Families k none members children := by
  refine ⟨families.child, families.row, fun p here _ => ?_, families.nodup, families.parent, families.closed⟩
  by_cases same : loose = some p
  · rw [empty p same]
    intro x none
    cases none
  · exact families.front p here same

end Families

/-! ## The way to the root -/

theorem Rooted.congr {root : α} (rooted : Rooted k root x) (families : Families k loose members children)
    (inside : x ∈ members)
    (same : ∀ y ∈ members, k'.parent y = k.parent y) : Rooted k' root x := by
  induction rooted with
  | root => exact .root
  | child parent _ ih =>
      exact .child ((same _ inside).trans parent) (ih (families.closed _ inside _ parent))

/-- The children of a node become those of a child of the root. -/
theorem Rooted.move {root : α} (rooted : Rooted k root x)
    (parents : ∀ y, k'.parent y = k.parent y ∨ k'.parent y = some p)
    (below : k'.parent p = some root) : Rooted k' root x := by
  induction rooted with
  | root => exact .root
  | @child x q parent _ ih =>
      rcases parents x with same | given
      · exact .child (same.trans parent) ih
      · exact .child given (.child below .root)

/-- No node is its own parent. -/
theorem Rooted.parent_ne {root : α} (rooted : Rooted k root x) (other : x ≠ root) : k.parent x ≠ some x := by
  induction rooted with
  | root => exact absurd rfl other
  | child parent _ ih =>
      intro own
      obtain rfl := Option.some.inj (parent.symm.trans own)
      exact ih other own

/-- The node `n` parents up. -/
def climb (k : Kin α) : Nat → α → Option α
  | 0, x => some x
  | n + 1, x => (k.parent x).bind (climb k n)

theorem Rooted.climb {root : α} (rooted : Rooted k root x) : ∃ n, climb k n x = some root := by
  induction rooted with
  | root => exact ⟨0, rfl⟩
  | child parent _ ih =>
      obtain ⟨n, up⟩ := ih
      refine ⟨n + 1, ?_⟩
      rw [Siblings.climb, parent]
      exact up

/-- A child is deeper than its parent, so there are no cycles. -/
theorem exists_depth {root : α} (top : k.parent root = none) :
    ∃ depth : α → Nat, ∀ x p, Rooted k root x → k.parent x = some p → depth p < depth x := by
  refine ⟨fun x => sInf { n | climb k n x = some root }, fun x p rooted parent => ?_⟩
  have reached : climb k (sInf { n | climb k n x = some root }) x = some root := Nat.sInf_mem rooted.climb
  cases far : sInf { n | climb k n x = some root } with
  | zero =>
      rw [far] at reached
      obtain rfl : x = root := Option.some.inj reached
      rw [top] at parent
      cases parent
  | succ n =>
      rw [far, climb, parent] at reached
      have up : n ∈ { n | climb k n p = some root } := reached
      exact (Nat.lt_succ_of_le (Nat.sInf_le up)).trans_eq far.symm

/-- Among the nodes of a kind there is a lowest one. -/
theorem exists_lowest {root : α} {kind : α → Prop} (top : k.parent root = none)
    (rooted : ∀ x ∈ members, Rooted k root x)
    (inside : x ∈ members) (good : kind x) :
    ∃ y ∈ members, kind y ∧ ∀ z ∈ members, k.parent z = some y → ¬ kind z := by
  classical
  obtain ⟨depth, deeper⟩ := exists_depth top
  obtain ⟨y, member, deepest⟩ :=
    (members.filter kind).exists_max_image depth ⟨x, Finset.mem_filter.mpr ⟨inside, good⟩⟩
  obtain ⟨here, like⟩ := Finset.mem_filter.mp member
  refine ⟨y, here, like, fun z there parent same => ?_⟩
  exact absurd (deepest z (Finset.mem_filter.mpr ⟨there, same⟩)) (Nat.not_le_of_lt (deeper z y (rooted z there) parent))

/-! ## Changes -/

section Change

variable [DecidableEq α]

/-- The node that was at the front is behind the new one. -/
def lead (younger : α → Option α) (first : Option α) (x : α) : α → Option α :=
  match first with
  | some y => Function.update younger y (some x)
  | none => younger

theorem lead_of_ne {younger : α → Option α} {first : Option α} (other : first ≠ some y) :
    lead younger first x y = younger y := by
  cases first with
  | none => rfl
  | some z => exact Function.update_of_ne (fun same : y = z => other (same ▸ rfl)) ..

theorem lead_self {younger : α → Option α} : lead younger (some y) x y = some x := Function.update_self ..

/-- A node becomes the first child of another one. -/
def Kin.adopt (k : Kin α) (p x : α) : Kin α where
  parent := Function.update k.parent x (some p)
  child := Function.update k.child p (some x)
  older := Function.update k.older x (k.child p)
  younger := lead (Function.update k.younger x none) (k.child p) x

theorem adopt_older_of_ne (other : y ≠ x) : (k.adopt p x).older y = k.older y := Function.update_of_ne other ..

theorem adopt_younger_of_ne (other : y ≠ x) (first : k.child p ≠ some y) : (k.adopt p x).younger y = k.younger y :=
  (lead_of_ne first).trans (Function.update_of_ne other ..)

theorem adopt_younger_self (first : k.child p ≠ some x) : (k.adopt p x).younger x = none :=
  (lead_of_ne first).trans (Function.update_self ..)

theorem adopt_child (k : Kin α) (p x q : α) : (k.adopt p x).child q = if q = p then some x else k.child q :=
  Function.update_apply ..

theorem adopt_parent (k : Kin α) (p x y : α) : (k.adopt p x).parent y = if y = x then some p else k.parent y :=
  Function.update_apply ..

/-- The row a node joins. -/
theorem Row.join {row : List α} (is : Row k row) (first : k.child p = row.head?) (new : x ∉ row)
    (distinct : row.Nodup) :
    Row (k.adopt p x) (x :: row) := by
  refine ⟨(Function.update_self ..).trans first, fun b front => ?_, is.congr (fun a inside => ?_) fun a inside => ?_⟩
  · show lead _ (k.child p) x b = some x
    rw [first, front]
    exact lead_self
  · exact adopt_older_of_ne (ne_of_mem_of_not_mem inside new)
  · have away : a ≠ x := ne_of_mem_of_not_mem (List.mem_of_mem_tail inside) new
    refine adopt_younger_of_ne away ?_
    rw [first]
    cases row with
    | nil => exact absurd inside List.not_mem_nil
    | cons b row =>
        intro same
        obtain rfl := Option.some.inj same
        exact (List.nodup_cons.mp distinct).1 inside

/-- The other rows. -/
theorem Row.adopt {row : List α} (is : Row k row) (off : x ∉ row) (first : ∀ a ∈ row, k.child p ≠ some a) :
    Row (k.adopt p x) row :=
  is.congr (fun _ inside => adopt_older_of_ne (ne_of_mem_of_not_mem inside off)) fun a inside =>
    adopt_younger_of_ne (ne_of_mem_of_not_mem (List.mem_of_mem_tail inside) off) (first a (List.mem_of_mem_tail inside))

theorem Fronted.adopt {row : List α} (front : Fronted k row) (off : x ∉ row) (first : ∀ a ∈ row, k.child p ≠ some a) :
    Fronted (k.adopt p x) row := by
  intro a head
  have inside := List.mem_of_head? head
  rw [adopt_younger_of_ne (ne_of_mem_of_not_mem inside off) (first a inside)]
  exact front a head

/-- A node joins the children of a member that are known without it: what is known of the other
    rows stays, and it is the first in its own. -/
theorem Families.adopt (families : Families k loose members children) (here : p ∈ members) (there : x ∈ members)
    (orphan : k.parent x = none) :
    Families (k.adopt p x) loose members (Function.update children p (x :: children p)) := by
  have outside : ∀ q ∈ members, x ∉ children q := by
    intro q inside child
    have parent := ((families.parent q inside x).mp child).2
    rw [orphan] at parent
    cases parent
  have first : ∀ q ∈ members, q ≠ p → ∀ a ∈ children q, k.child p ≠ some a := fun q inside differs a child =>
    families.first_ne here inside (Ne.symm differs) child
  have rows : ∀ q, Function.update children p (x :: children p) q = if q = p then x :: children p else children q := by
    intro q
    rw [Function.update_apply]
  refine ⟨fun q inside => ?_, fun q inside => ?_, fun q inside tight => ?_, fun q inside => ?_, fun q inside y => ?_,
    fun y inside q parent => ?_⟩
  · rw [rows, adopt_child]
    split
    · rfl
    · exact families.child q inside
  · rw [rows]
    split
    · exact (families.row p here).join (families.child p here) (outside p here) (families.nodup p here)
    · rename_i differs
      exact (families.row q inside).adopt (outside q inside) (first q inside differs)
  · rw [rows]
    split
    · intro y same
      obtain rfl := Option.some.inj same
      refine adopt_younger_self fun same => outside p here (List.mem_of_head? ?_)
      rw [← families.child p here, same]
    · rename_i differs
      exact (families.front q inside tight).adopt (outside q inside) (first q inside differs)
  · rw [rows]
    split
    · exact List.nodup_cons.mpr ⟨outside p here, families.nodup p here⟩
    · exact families.nodup q inside
  · rw [rows, adopt_parent]
    by_cases itself : y = x
    · subst itself
      rw [if_pos rfl]
      split
      · rename_i same
        simp [same, there]
      · rename_i differs
        simp [Ne.symm differs, outside q inside]
    · rw [if_neg itself]
      split
      · rename_i same
        rw [List.mem_cons, or_iff_right itself, same]
        exact families.parent p here y
      · exact families.parent q inside y
  · rw [adopt_parent] at parent
    split at parent
    · exact Option.some.inj parent ▸ here
    · exact families.closed y inside q parent

/-- A new member, which has no parent yet. -/
theorem Families.enter (families : Families k loose members children) (new : x ∉ members) (orphan : k.parent x = none)
    (childless : k.child x = none) (apart : loose ≠ some x) :
    Families k loose (insert x members) (Function.update children x []) := by
  have old : ∀ {q}, q ∈ insert x members → q ≠ x → q ∈ members := fun inside other =>
    Finset.mem_of_mem_insert_of_ne inside other
  have rows : ∀ q, Function.update children x [] q = if q = x then [] else children q := by
    intro q
    rw [Function.update_apply]
  refine ⟨fun q inside => ?_, fun q inside => ?_, fun q inside tight => ?_, fun q inside => ?_, fun q inside y => ?_,
    fun y inside q parent => ?_⟩
  · rw [rows]
    split
    · rename_i same
      rw [same, childless]
      rfl
    · exact families.child q (old inside ‹_›)
  · rw [rows]
    split
    · trivial
    · exact families.row q (old inside ‹_›)
  · rw [rows]
    split
    · exact fun y none => by cases none
    · exact families.front q (old inside ‹_›) tight
  · rw [rows]
    split
    · exact List.nodup_nil
    · exact families.nodup q (old inside ‹_›)
  · rw [rows, Finset.mem_insert]
    split
    · rename_i same
      refine iff_of_false List.not_mem_nil ?_
      rintro ⟨rfl | inside, parent⟩
      · rw [orphan] at parent
        cases parent
      · exact new (same ▸ families.closed y inside q parent)
    · rename_i other
      rw [families.parent q (old ‹_› other)]
      refine and_congr_left fun parent => (or_iff_right ?_).symm
      rintro rfl
      rw [orphan] at parent
      cases parent
  · rcases Finset.mem_insert.mp inside with rfl | inside
    · rw [orphan] at parent
      cases parent
    · exact Finset.mem_insert_of_mem (families.closed y inside q parent)

/-- The node without its parent. -/
def Kin.orphan (k : Kin α) (x : α) : Kin α := { k with parent := Function.update k.parent x none }

theorem orphan_adopt (k : Kin α) (p x : α) : (k.orphan x).adopt p x = k.adopt p x := by
  simp only [Kin.adopt, Kin.orphan, Function.update_idem]

/-- A node gives away its first child, which goes on pointing at the next one. -/
def Kin.release (k : Kin α) (c x : α) : Kin α := { k with child := Function.update k.child c (k.older x) }

theorem Families.release {rest : List α} (families : Families k loose members children) (here : q ∈ members)
    (first : children q = x :: rest) (only : ∀ c, loose = some c → c = q) :
    Families ((k.release q x).orphan x) (some q) members (Function.update children q rest) := by
  have row := first ▸ families.row q here
  have distinct := List.nodup_cons.mp (first ▸ families.nodup q here)
  have rows : ∀ p, Function.update children q rest p = if p = q then rest else children p := by
    intro p
    rw [Function.update_apply]
  have inside : x ∈ children q := first ▸ List.mem_cons_self
  refine ⟨fun p there => ?_, fun p there => ?_, fun p there tight => ?_, fun p there => ?_, fun p there y => ?_,
    fun y there p parent => ?_⟩
  · rw [rows, show ((k.release q x).orphan x).child p =
      if p = q then k.older x else k.child p from Function.update_apply ..]
    split
    · exact row.1
    · exact families.child p there
  · rw [rows]
    refine Row.congr (k := k) ?_ (fun _ _ => rfl) fun _ _ => rfl
    split
    · exact row.2.2
    · exact families.row p there
  · have other : p ≠ q := fun same => tight (same ▸ rfl)
    rw [rows, if_neg other]
    exact families.front p there fun same => other (only p same)
  · rw [rows]
    split
    · exact distinct.2
    · exact families.nodup p there
  · rw [rows, show ((k.release q x).orphan x).parent y =
      if y = x then none else k.parent y from Function.update_apply ..]
    by_cases itself : y = x
    · subst itself
      rw [if_pos rfl]
      refine iff_of_false ?_ (by simp)
      split
      · exact distinct.1
      · rename_i other
        exact fun twice => families.apart here there (Ne.symm other) inside twice
    · rw [if_neg itself, ← families.parent p there y]
      split
      · rename_i same
        rw [same, first, List.mem_cons, or_iff_right itself]
      · rfl
  · rw [show ((k.release q x).orphan x).parent y =
      if y = x then none else k.parent y from Function.update_apply ..] at parent
    split at parent
    · cases parent
    · exact families.closed y there p parent

/-- A node gives its first child to another one. -/
theorem Families.move {rest : List α} (families : Families k loose members children) (here : p ∈ members)
    (there : q ∈ members) (other : p ≠ q) (first : children q = x :: rest) (only : ∀ c, loose = some c → c = q) :
    Families ((k.release q x).adopt p x) (some q) members
      (Function.update (Function.update children q rest) p (x :: children p)) := by
  have inside : x ∈ members := families.member there (first ▸ List.mem_cons_self)
  have adopted := (families.release there first only).adopt here inside (Function.update_self ..)
  rwa [orphan_adopt, Function.update_of_ne other] at adopted

/-- The neighbours of a node are linked, or its parent gets a new first child. -/
def Kin.leave (k : Kin α) (x : α) : Kin α where
  parent := k.parent
  older := match k.younger x with
    | some y => Function.update k.older y (k.older x)
    | none => k.older
  younger := match k.older x with
    | some o => Function.update k.younger o (k.younger x)
    | none => k.younger
  child := match k.younger x, k.parent x with
    | none, some p => Function.update k.child p (k.older x)
    | _, _ => k.child

theorem leave_older (k : Kin α) (x y : α) :
    (k.leave x).older y = if k.younger x = some y then k.older x else k.older y := by
  cases back : k.younger x with
  | none => simp [Kin.leave, back]
  | some z => simp [Kin.leave, back, Function.update_apply, eq_comm]

theorem leave_younger (k : Kin α) (x y : α) :
    (k.leave x).younger y = if k.older x = some y then k.younger x else k.younger y := by
  cases next : k.older x with
  | none => simp [Kin.leave, next]
  | some z => simp [Kin.leave, next, Function.update_apply, eq_comm]

theorem leave_child (k : Kin α) (x p : α) :
    (k.leave x).child p = if k.younger x = none ∧ k.parent x = some p then k.older x else k.child p := by
  cases back : k.younger x with
  | some z => simp [Kin.leave, back]
  | none =>
      cases parent : k.parent x with
      | none => simp [Kin.leave, back, parent]
      | some q => simp [Kin.leave, back, parent, Function.update_apply, eq_comm]

/-- The row a node leaves. -/
theorem Row.leave {row : List α} (is : Row k row) (front : Fronted k row) (distinct : row.Nodup) (inside : x ∈ row) :
    Row (k.leave x) (row.erase x) ∧ Fronted (k.leave x) (row.erase x) ∧
      (k.younger x = none → k.older x = (row.erase x).head?) ∧
      (k.younger x ≠ none → row.head? = (row.erase x).head?) := by
  obtain ⟨before, after, rfl, off⟩ := List.eq_append_cons_of_mem inside
  have same : (before ++ x :: after).erase x = before ++ after := by
    rw [List.erase_append_right _ off, List.erase_cons_head]
  have back := is.younger_eq (front x)
  have next := is.older_eq
  have parts := List.nodup_append.mp distinct
  have later := List.nodup_cons.mp parts.2.1
  have outside : ∀ a ∈ before, a ∉ after := fun a one two => parts.2.2 a one a (List.mem_cons_of_mem x two) rfl
  rw [same]
  refine ⟨?_, fun a head => ?_, fun first => ?_, fun later => ?_⟩
  · refine is.unlink ?_ (fun a a_in => ?_) (fun a a_in => ?_) fun a last => ?_
    · refine is.append.2.2.congr (fun a a_in => ?_) fun a a_in => ?_
      · rw [leave_older, if_neg]
        rw [back]
        exact fun last => outside a (List.mem_of_getLast? last) a_in
      · rw [leave_younger, if_neg]
        rw [next]
        intro first
        cases after with
        | nil => cases first
        | cons b after =>
            obtain rfl := Option.some.inj first
            exact (List.nodup_cons.mp later.2).1 a_in
    · rw [leave_older, if_neg]
      rw [back]
      intro last
      obtain ⟨before', rfl⟩ := List.getLast?_eq_some_iff.mp last
      rw [List.dropLast_concat] at a_in
      exact (List.nodup_append.mp parts.1).2.2 a a_in a (List.mem_singleton_self a) rfl
    · rw [leave_younger, if_neg]
      rw [next]
      exact fun first => outside a (List.mem_of_mem_tail a_in) (List.mem_of_head? first)
    · rw [leave_older, if_pos (back.trans last)]
      refine ⟨next, fun b first => ?_⟩
      rw [leave_younger, if_pos (next.trans first), back, last]
  · rw [leave_younger]
    split
    · rename_i first
      cases before with
      | nil => exact back
      | cons b before =>
          obtain rfl := Option.some.inj head
          rw [next] at first
          exact absurd (List.mem_of_head? first) (outside b List.mem_cons_self)
    · rename_i differs
      cases before with
      | nil =>
          rw [next] at differs
          exact absurd head differs
      | cons b before => exact front a head
  · rw [back, List.getLast?_eq_none_iff] at first
    rw [first]
    exact next
  · cases before with
    | nil => exact absurd back later
    | cons b before => rfl

/-- A member without children leaves the family. -/
theorem Families.leave (families : Families k none members children) (here : p ∈ members) (inside : x ∈ children p)
    (childless : children x = []) :
    Families (k.leave x) none (members.erase x) (Function.update children p ((children p).erase x)) := by
  have member := families.member here inside
  have parent := ((families.parent p here x).mp inside).2
  have other : p ≠ x := by
    rintro rfl
    rw [childless] at inside
    cases inside
  have left := (families.row p here).leave (families.front p here (by simp)) (families.nodup p here) inside
  have rows : ∀ q, Function.update children p ((children p).erase x) q = if q = p then (children p).erase x
    else children q := by
    intro q
    rw [Function.update_apply]
  obtain ⟨before, after, split, off⟩ := List.eq_append_cons_of_mem inside
  have row := split ▸ families.row p here
  have back := row.younger_eq (split ▸ families.front p here (by simp) x)
  have next := row.older_eq
  -- The neighbours of the node are in its own row.
  have beside : ∀ q ∈ members, q ≠ p → ∀ a ∈ children q, k.younger x ≠ some a ∧ k.older x ≠ some a := by
    intro q there differs a child
    have away := fun within => families.apart here there (Ne.symm differs) (a := a) within child
    refine ⟨fun same => away ?_, fun same => away ?_⟩
    · rw [split]
      exact List.mem_append_left _ (List.mem_of_getLast? (back.symm.trans same))
    · rw [split]
      exact List.mem_append_right _ (List.mem_cons_of_mem x (List.mem_of_head? (next.symm.trans same)))
  refine ⟨fun q there => ?_, fun q there => ?_, fun q there _ => ?_, fun q there => ?_, fun q there y => ?_,
    fun y there q of => ?_⟩
  · obtain ⟨-, there⟩ := Finset.mem_erase.mp there
    rw [rows, leave_child, parent]
    by_cases same : q = p
    · subst same
      rw [if_pos rfl]
      by_cases first : k.younger x = none
      · rw [if_pos ⟨first, rfl⟩]
        exact left.2.2.1 first
      · rw [if_neg fun both => first both.1, families.child q here]
        exact left.2.2.2 first
    · rw [if_neg same, if_neg fun both => same (Option.some.inj both.2).symm]
      exact families.child q there
  · obtain ⟨-, there⟩ := Finset.mem_erase.mp there
    rw [rows]
    split
    · exact left.1
    · rename_i differs
      refine (families.row q there).congr (fun a child => ?_) fun a child => ?_
      · rw [leave_older, if_neg (beside q there differs a child).1]
      · rw [leave_younger, if_neg (beside q there differs a (List.mem_of_mem_tail child)).2]
  · obtain ⟨-, there⟩ := Finset.mem_erase.mp there
    rw [rows]
    split
    · exact left.2.1
    · rename_i differs
      intro a head
      rw [leave_younger, if_neg (beside q there differs a (List.mem_of_head? head)).2]
      exact families.front q there (by simp) a head
  · rw [rows]
    split
    · exact (families.nodup p here).erase x
    · exact families.nodup q (Finset.mem_of_mem_erase there)
  · obtain ⟨-, there⟩ := Finset.mem_erase.mp there
    rw [rows, Finset.mem_erase]
    split
    · rename_i same
      rw [(families.nodup p here).mem_erase_iff, families.parent p here y, same, and_assoc]
      rfl
    · rename_i differs
      rw [families.parent q there y, and_assoc]
      refine ⟨fun both => ⟨?_, both⟩, fun both => both.2⟩
      rintro rfl
      exact differs (Option.some.inj (both.2.symm.trans parent))
  · have within := Finset.mem_of_mem_erase there
    refine Finset.mem_erase.mpr ⟨?_, families.closed y within q of⟩
    rintro rfl
    have child := (families.parent q member y).mpr ⟨within, of⟩
    rw [childless] at child
    cases child

end Change

end Ucore.Lib.Siblings
