import Mathlib

/-! # Circular doubly linked lists in memory

Two pointer maps hold the links of every node of a heap. A ring is the list of
nodes met on the way from a head node back to it, with `next` and `prev` inverse
to each other on every step of the way. Insertion and removal are plain stores;
their order is fixed, since nodes may coincide (an empty ring has its head as
both neighbours) and then later stores overwrite earlier ones.
-/

namespace Ucore.Lib.Ring

/-- The `next` and `prev` fields of all nodes of a heap. -/
structure Links (α : Type u) where
  next : α → α
  prev : α → α

variable {α : Type u}

namespace Links

variable [DecidableEq α]

def setNext (l : Links α) (a b : α) : Links α := { l with next := Function.update l.next a b }

def setPrev (l : Links α) (a b : α) : Links α := { l with prev := Function.update l.prev a b }

@[simp] theorem setNext_next (l : Links α) (a b : α) :
    (l.setNext a b).next = Function.update l.next a b := rfl

@[simp] theorem setNext_prev (l : Links α) (a b : α) : (l.setNext a b).prev = l.prev := rfl

@[simp] theorem setPrev_prev (l : Links α) (a b : α) :
    (l.setPrev a b).prev = Function.update l.prev a b := rfl

@[simp] theorem setPrev_next (l : Links α) (a b : α) : (l.setPrev a b).next = l.next := rfl

/-- A node that is its own neighbour on both sides. -/
def self (l : Links α) (e : α) : Links α := (l.setNext e e).setPrev e e

/-- Store `e` between the nodes `p` and `n`. -/
def link (l : Links α) (e p n : α) : Links α :=
  (((l.setPrev n e).setNext p e).setNext e n).setPrev e p

/-- Make the nodes `p` and `n` neighbours. -/
def unlink (l : Links α) (p n : α) : Links α := (l.setNext p n).setPrev n p

theorem link_next (l : Links α) (e p n x : α) :
    (l.link e p n).next x = if x = e then n else if x = p then e else l.next x := by
  simp only [link, setPrev_next, setNext_next, Function.update_apply]

theorem link_prev (l : Links α) (e p n x : α) :
    (l.link e p n).prev x = if x = e then p else if x = n then e else l.prev x := by
  simp only [link, setPrev_prev, setNext_prev, Function.update_apply]

theorem unlink_next (l : Links α) (p n x : α) :
    (l.unlink p n).next x = if x = p then n else l.next x := by
  simp only [unlink, setPrev_next, setNext_next, Function.update_apply]

theorem unlink_prev (l : Links α) (p n x : α) :
    (l.unlink p n).prev x = if x = n then p else l.prev x := by
  simp only [unlink, setPrev_prev, setNext_prev, Function.update_apply]

end Links

/-- Neighbouring nodes point at each other. -/
def Linked (l : Links α) (a b : α) : Prop := l.next a = b ∧ l.prev b = a

/-- Consecutive nodes of the list are linked both ways. -/
abbrev Path (l : Links α) (nodes : List α) : Prop := nodes.IsChain (Linked l)

/-- Only the `next` of the nodes before the last one and the `prev` of the nodes
    after the first one matter to a path. -/
theorem Path.congr {l l' : Links α} {nodes : List α} (path : Path l nodes)
    (next : ∀ x ∈ nodes.dropLast, l'.next x = l.next x)
    (prev : ∀ x ∈ nodes.tail, l'.prev x = l.prev x) : Path l' nodes := by
  induction nodes with
  | nil => exact .nil
  | cons a rest ih =>
      cases rest with
      | nil => exact .singleton a
      | cons b rest =>
          obtain ⟨step, path⟩ := List.isChain_cons_cons.mp path
          refine List.isChain_cons_cons.mpr ⟨⟨?_, ?_⟩, ih path ?_ ?_⟩
          · rw [next a (by simp), step.1]
          · rw [prev b (by simp), step.2]
          · exact fun x inside => next x (by simp [inside])
          · exact fun x inside => prev x (List.mem_of_mem_tail inside)

theorem Path.insert [DecidableEq α] {l : Links α} {e p n : α} {before after : List α}
    (path : Path l (before ++ p :: n :: after))
    (heads : (before ++ p :: n :: after).dropLast.Nodup)
    (tails : (before ++ p :: n :: after).tail.Nodup)
    (fresh : e ∉ before ++ p :: n :: after) :
    Path (l.link e p n) (before ++ p :: e :: n :: after) := by
  obtain ⟨front, back⟩ := List.isChain_split.mp path
  obtain ⟨-, back⟩ := List.isChain_cons_cons.mp back
  simp only [List.mem_append, List.mem_cons, not_or] at fresh
  obtain ⟨notBefore, notP, notN, notAfter⟩ := fresh
  have headsSplit : (before ++ p :: (n :: after).dropLast).Nodup := by simpa using heads
  have front' : Path (l.link e p n) (before ++ [p]) := by
    refine Path.congr front (fun x inside => ?_) (fun x inside => ?_)
    · rw [List.dropLast_concat] at inside
      have xp : x ≠ p := fun same =>
        (List.disjoint_of_nodup_append headsSplit) inside (by simp [same])
      rw [Links.link_next, if_neg (fun same : x = e => notBefore (same ▸ inside)), if_neg xp]
    · have xe : x ≠ e := by
        rintro rfl
        rcases List.mem_append.mp (List.mem_of_mem_tail inside) with h | h
        · exact notBefore h
        · exact notP (by simpa using h)
      have xn : x ≠ n := by
        rintro rfl
        have : (before ++ p :: x :: after).tail = (before ++ [p]).tail ++ x :: after := by
          cases before <;> simp
        rw [this] at tails
        exact (List.disjoint_of_nodup_append tails) inside (by simp)
      rw [Links.link_prev, if_neg xe, if_neg xn]
  have back' : Path (l.link e p n) (n :: after) := by
    refine Path.congr back (fun x inside => ?_) (fun x inside => ?_)
    · have xe : x ≠ e := by
        rintro rfl
        rcases List.mem_cons.mp (List.mem_of_mem_dropLast inside) with h | h
        · exact notN h
        · exact notAfter h
      have xp : x ≠ p := by
        rintro rfl
        exact (List.nodup_cons.mp (List.nodup_append.mp headsSplit).2.1).1 inside
      rw [Links.link_next, if_neg xe, if_neg xp]
    · have xn : x ≠ n := by
        rintro rfl
        have : (before ++ p :: x :: after).tail = (before ++ [p]).tail ++ x :: after := by
          cases before <;> simp
        rw [this] at tails
        exact (List.nodup_cons.mp (List.nodup_append.mp tails).2.1).1 inside
      rw [Links.link_prev, if_neg (fun same : x = e => notAfter (same ▸ inside)), if_neg xn]
  refine List.isChain_split.mpr ⟨front', List.isChain_cons_cons.mpr ⟨⟨?_, ?_⟩, ?_⟩⟩
  · rw [Links.link_next, if_neg (Ne.symm notP), if_pos rfl]
  · rw [Links.link_prev, if_pos rfl]
  · refine List.isChain_cons_cons.mpr ⟨⟨?_, ?_⟩, back'⟩
    · rw [Links.link_next, if_pos rfl]
    · rw [Links.link_prev, if_neg (Ne.symm notN), if_pos rfl]

theorem Path.remove [DecidableEq α] {l : Links α} {e p n : α} {before after : List α}
    (path : Path l (before ++ p :: e :: n :: after))
    (heads : (before ++ p :: e :: n :: after).dropLast.Nodup)
    (tails : (before ++ p :: e :: n :: after).tail.Nodup) :
    Path (l.unlink p n) (before ++ p :: n :: after) := by
  obtain ⟨front, back⟩ := List.isChain_split.mp path
  obtain ⟨-, back⟩ := List.isChain_cons_cons.mp back
  obtain ⟨-, back⟩ := List.isChain_cons_cons.mp back
  have headsSplit : (before ++ p :: e :: (n :: after).dropLast).Nodup := by simpa using heads
  have tailsSplit : ((before ++ [p]).tail ++ e :: n :: after).Nodup := by
    have : (before ++ p :: e :: n :: after).tail = (before ++ [p]).tail ++ e :: n :: after := by
      cases before <;> simp
    rwa [this] at tails
  have front' : Path (l.unlink p n) (before ++ [p]) := by
    refine Path.congr front (fun x inside => ?_) (fun x inside => ?_)
    · rw [List.dropLast_concat] at inside
      rw [Links.unlink_next, if_neg]
      exact fun same => (List.disjoint_of_nodup_append headsSplit) inside (by simp [same])
    · rw [Links.unlink_prev, if_neg]
      exact fun same => (List.disjoint_of_nodup_append tailsSplit) inside (by simp [same])
  have back' : Path (l.unlink p n) (n :: after) := by
    refine Path.congr back (fun x inside => ?_) (fun x inside => ?_)
    · rw [Links.unlink_next, if_neg]
      rintro rfl
      exact (List.nodup_cons.mp (List.nodup_append.mp headsSplit).2.1).1
        (List.mem_cons_of_mem _ inside)
    · rw [Links.unlink_prev, if_neg]
      rintro rfl
      have := (List.nodup_cons.mp (List.nodup_append.mp tailsSplit).2.1).2
      exact (List.nodup_cons.mp this).1 inside
  refine List.isChain_split.mpr ⟨front', List.isChain_cons_cons.mpr ⟨⟨?_, ?_⟩, back'⟩⟩
  · rw [Links.unlink_next, if_pos rfl]
  · rw [Links.unlink_prev, if_pos rfl]

/-- The way to a node is the only one that does not pass it before. -/
theorem Path.unique {l : Links α} {a stop : α} {xs ys : List α} (first : Path l (a :: (xs ++ [stop])))
    (second : Path l (a :: (ys ++ [stop]))) (offFirst : stop ∉ xs) (offSecond : stop ∉ ys) : xs = ys := by
  induction xs generalizing a ys with
  | nil =>
      cases ys with
      | nil => rfl
      | cons y ys =>
          have same := (List.isChain_cons_cons.mp first).1.1.symm.trans (List.isChain_cons_cons.mp second).1.1
          exact absurd (same ▸ List.mem_cons_self) offSecond
  | cons x xs ih =>
      cases ys with
      | nil =>
          have same := (List.isChain_cons_cons.mp second).1.1.symm.trans (List.isChain_cons_cons.mp first).1.1
          exact absurd (same ▸ List.mem_cons_self) offFirst
      | cons y ys =>
          obtain ⟨toFirst, first⟩ := List.isChain_cons_cons.mp first
          obtain ⟨toSecond, second⟩ := List.isChain_cons_cons.mp second
          obtain rfl : x = y := toFirst.1.symm.trans toSecond.1
          rw [ih first second (List.not_mem_of_not_mem_cons offFirst) (List.not_mem_of_not_mem_cons offSecond)]

/-- The nodes met on the way from `head` around to `head` are `xs`, all distinct. -/
structure IsRing (l : Links α) (head : α) (xs : List α) : Prop where
  nodup : (head :: xs).Nodup
  path : Path l (head :: (xs ++ [head]))

namespace IsRing

variable {l l' : Links α} {head e p n x : α} {xs ys : List α}

theorem head_not_mem (ring : IsRing l head xs) : head ∉ xs := (List.nodup_cons.mp ring.nodup).1

theorem unique (ring : IsRing l head xs) (ring' : IsRing l head ys) : xs = ys :=
  ring.path.unique ring'.path ring.head_not_mem ring'.head_not_mem

/-- From a node all the way round and back to it. -/
theorem path_around (ring : IsRing l head (xs ++ e :: ys)) : Path l (e :: (ys ++ head :: xs ++ [e])) := by
  have path : Path l ((head :: xs) ++ e :: (ys ++ [head])) := by simpa using ring.path
  obtain ⟨front, back⟩ := List.isChain_split.mp path
  have joined : Path l ((e :: ys) ++ head :: (xs ++ [e])) := List.isChain_split.mpr ⟨back, front⟩
  simpa using joined

theorem nodes_nodup (ring : IsRing l head xs) : xs.Nodup := (List.nodup_cons.mp ring.nodup).2

private theorem heads (ring : IsRing l head xs) : (head :: (xs ++ [head])).dropLast.Nodup := by
  have same : (head :: (xs ++ [head])).dropLast = head :: xs := by
    rw [← List.cons_append, List.dropLast_concat]
  exact same ▸ ring.nodup

private theorem tails (ring : IsRing l head xs) : (head :: (xs ++ [head])).tail.Nodup :=
  List.nodup_append.mpr ⟨ring.nodes_nodup, List.nodup_singleton _, fun _ inside _ last same =>
    ring.head_not_mem (List.mem_singleton.mp last ▸ same ▸ inside)⟩

theorem of_self [DecidableEq α] (l : Links α) (e : α) : IsRing (l.self e) e [] where
  nodup := List.nodup_singleton e
  path := by simp [Linked, Links.self]

/-- Stores outside a ring leave it alone. -/
theorem congr (ring : IsRing l head xs) (next : ∀ x ∈ head :: xs, l'.next x = l.next x)
    (prev : ∀ x ∈ head :: xs, l'.prev x = l.prev x) : IsRing l' head xs where
  nodup := ring.nodup
  path := by
    refine Path.congr ring.path (fun x inside => next x ?_) (fun x inside => prev x ?_)
    · rwa [← List.cons_append, List.dropLast_concat] at inside
    · simpa [or_comm] using inside

theorem next_last (ring : IsRing l head (xs ++ [p])) : l.next p = head := by
  have path : Path l ((head :: xs) ++ p :: [head]) := by simpa using ring.path
  exact (List.isChain_cons_cons.mp (List.isChain_split.mp path).2).1.1

theorem next_head_nil (ring : IsRing l head []) : l.next head = head :=
  (List.isChain_cons_cons.mp ring.path).1.1

theorem next_head_cons (ring : IsRing l head (n :: ys)) : l.next head = n :=
  (List.isChain_cons_cons.mp ring.path).1.1

theorem prev_head_nil (ring : IsRing l head []) : l.prev head = head :=
  (List.isChain_cons_cons.mp ring.path).1.2

theorem prev_head_concat (ring : IsRing l head (xs ++ [p])) : l.prev head = p := by
  have path : Path l ((head :: xs) ++ p :: [head]) := by simpa using ring.path
  exact (List.isChain_cons_cons.mp (List.isChain_split.mp path).2).1.2

theorem prev_first (ring : IsRing l head (n :: ys)) : l.prev n = head :=
  (List.isChain_cons_cons.mp ring.path).1.2

theorem adjacent (ring : IsRing l head (xs ++ p :: n :: ys)) : Linked l p n := by
  have path : Path l ((head :: xs) ++ p :: n :: (ys ++ [head])) := by simpa using ring.path
  exact (List.isChain_cons_cons.mp (List.isChain_split.mp path).2).1

theorem next_eq_head_iff (ring : IsRing l head (xs ++ p :: ys)) : l.next p = head ↔ ys = [] := by
  cases ys with
  | nil => simp [ring.next_last]
  | cons n ys =>
      rw [ring.adjacent.1]
      refine ⟨fun same => ?_, fun empty => by simp at empty⟩
      exact absurd (same ▸ by simp) ring.head_not_mem

theorem next_head_eq_iff (ring : IsRing l head xs) : l.next head = head ↔ xs = [] := by
  cases xs with
  | nil => simp [ring.next_head_nil]
  | cons n ys =>
      rw [ring.next_head_cons]
      refine ⟨fun same => ?_, fun empty => by simp at empty⟩
      exact absurd (same ▸ by simp) ring.head_not_mem

/-- The neighbours of a node, read off the list on either side of it. -/
theorem prev_eq (ring : IsRing l head (xs ++ e :: ys)) : l.prev e = xs.getLast?.getD head := by
  rcases List.eq_nil_or_concat xs with rfl | ⟨xs, p, rfl⟩
  · exact ring.prev_first
  · rw [List.concat_eq_append] at ring ⊢
    rw [List.getLast?_concat, Option.getD_some]
    have shifted : IsRing l head (xs ++ p :: e :: ys) := by simpa using ring
    exact shifted.adjacent.2

theorem prev_last (ring : IsRing l head (xs ++ [e])) : l.prev e = xs.getLast?.getD head := ring.prev_eq

theorem next_eq (ring : IsRing l head (xs ++ e :: ys)) : l.next e = ys.head?.getD head := by
  cases ys with
  | nil => exact ring.next_last
  | cons n ys => exact ring.adjacent.1

theorem prev_head (ring : IsRing l head xs) : l.prev head = xs.getLast?.getD head := by
  rcases List.eq_nil_or_concat xs with rfl | ⟨xs, p, rfl⟩
  · exact ring.prev_head_nil
  · rw [List.concat_eq_append] at ring ⊢
    rw [ring.prev_head_concat, List.getLast?_concat, Option.getD_some]

theorem next_before (ring : IsRing l head (xs ++ ys)) :
    l.next (xs.getLast?.getD head) = ys.head?.getD head := by
  rcases List.eq_nil_or_concat xs with rfl | ⟨xs, p, rfl⟩
  · cases ys with
    | nil => exact ring.next_head_nil
    | cons n ys => exact ring.next_head_cons
  · rw [List.concat_eq_append] at ring ⊢
    rw [List.getLast?_concat, Option.getD_some]
    have shifted : IsRing l head (xs ++ p :: ys) := by simpa using ring
    exact shifted.next_eq

theorem prev_after (ring : IsRing l head (xs ++ ys)) :
    l.prev (ys.head?.getD head) = xs.getLast?.getD head := by
  cases ys with
  | nil =>
      rw [List.append_nil] at ring
      exact ring.prev_head
  | cons n ys => exact ring.prev_eq

/-- `next` stays on the ring and `prev` undoes it. -/
theorem prev_next (ring : IsRing l head xs) (member : x ∈ head :: xs) :
    l.next x ∈ head :: xs ∧ l.prev (l.next x) = x := by
  rcases List.mem_cons.mp member with rfl | inside
  · cases xs with
    | nil => simp [ring.next_head_nil, ring.prev_head_nil]
    | cons n ys => simp [ring.next_head_cons, ring.prev_first]
  · obtain ⟨before, after, rfl⟩ := List.append_of_mem inside
    cases after with
    | nil => simp [ring.next_last, ring.prev_head_concat]
    | cons n after =>
        obtain ⟨next, prev⟩ := ring.adjacent
        simp [next, prev]

theorem prev_mem (ring : IsRing l head xs) (member : x ∈ head :: xs) : l.prev x ∈ head :: xs := by
  rcases List.mem_cons.mp member with rfl | inside
  · rcases List.eq_nil_or_concat xs with rfl | ⟨xs, p, rfl⟩
    · simp [ring.prev_head_nil]
    · rw [List.concat_eq_append] at ring ⊢
      simp [ring.prev_head_concat]
  · obtain ⟨before, after, rfl⟩ := List.append_of_mem inside
    rw [ring.prev_eq]
    cases last : before.getLast? with
    | none => simp
    | some p => simp [List.mem_of_getLast? last]

/-- A node on a ring is not its own predecessor. -/
theorem prev_ne (ring : IsRing l head xs) (member : x ∈ xs) : l.prev x ≠ x := by
  obtain ⟨before, after, rfl⟩ := List.append_of_mem member
  rw [ring.prev_eq]
  cases last : before.getLast? with
  | none => exact fun same => ring.head_not_mem (same ▸ member)
  | some p =>
      rintro rfl
      exact (List.disjoint_of_nodup_append ring.nodes_nodup) (List.mem_of_getLast? last) List.mem_cons_self

/-- Rings that differ in their last node agree on everything before it. -/
theorem next_append (ring : IsRing l head xs) (ring' : IsRing l' head (xs ++ [e]))
    (member : x ∈ head :: xs) (notLast : x ≠ l.prev head) : l'.next x = l.next x := by
  rcases List.mem_cons.mp member with rfl | inside
  · cases xs with
    | nil => exact absurd ring.prev_head_nil.symm notLast
    | cons n xs =>
        have longer : IsRing l' x (n :: (xs ++ [e])) := ring'
        rw [ring.next_head_cons, longer.next_head_cons]
  · obtain ⟨before, after, rfl⟩ := List.append_of_mem inside
    cases after with
    | nil => exact absurd (by rw [ring.prev_head, List.getLast?_concat, Option.getD_some]) notLast
    | cons n after =>
        have longer : IsRing l' head (before ++ x :: n :: (after ++ [e])) := by simpa using ring'
        rw [ring.adjacent.1, longer.adjacent.1]

theorem prev_append (ring : IsRing l head xs) (ring' : IsRing l' head (xs ++ [e]))
    (member : x ∈ xs) : l'.prev x = l.prev x := by
  obtain ⟨before, after, rfl⟩ := List.append_of_mem member
  have longer : IsRing l' head (before ++ x :: (after ++ [e])) := by simpa using ring'
  rw [ring.prev_eq, longer.prev_eq]

theorem nodup_insert (ring : IsRing l head (xs ++ ys)) (fresh : e ∉ head :: (xs ++ ys)) :
    (head :: (xs ++ e :: ys)).Nodup := by
  have perm : ((head :: xs) ++ e :: ys).Perm (e :: ((head :: xs) ++ ys)) := List.perm_middle
  exact perm.nodup_iff.mpr (List.nodup_cons.mpr ⟨fresh, ring.nodup⟩)

section Stores

variable [DecidableEq α]

/-- Every insertion puts the new node between two consecutive nodes of the
    closed walk around the ring. -/
private theorem insert_walk (before after : List α) (ring : IsRing l head (xs ++ ys))
    (walk : head :: (xs ++ ys ++ [head]) = before ++ p :: n :: after)
    (result : head :: (xs ++ e :: ys ++ [head]) = before ++ p :: e :: n :: after)
    (fresh : e ∉ head :: (xs ++ ys)) : IsRing (l.link e p n) head (xs ++ e :: ys) where
  nodup := ring.nodup_insert fresh
  path := by
    have absent : e ∉ before ++ p :: n :: after := by
      rw [← walk]
      simpa [or_comm, or_assoc, or_left_comm] using fresh
    rw [result]
    exact Path.insert (walk ▸ ring.path) (walk ▸ ring.heads) (walk ▸ ring.tails) absent

/-- Insertion in front of a node of the ring. -/
theorem insert_before (ring : IsRing l head (xs ++ n :: ys)) (fresh : e ∉ head :: (xs ++ n :: ys)) :
    IsRing (l.link e (l.prev n) n) head (xs ++ e :: n :: ys) := by
  rcases List.eq_nil_or_concat xs with rfl | ⟨xs, p, rfl⟩
  · rw [ring.prev_first]
    exact ring.insert_walk [] (ys ++ [head]) rfl rfl fresh
  · rw [List.concat_eq_append] at ring fresh ⊢
    rw [ring.prev_eq, List.getLast?_concat, Option.getD_some]
    exact ring.insert_walk (head :: xs) (ys ++ [head]) (by simp) (by simp) fresh

/-- Insertion at the end of the ring, in front of its head. -/
theorem insert_last (ring : IsRing l head xs) (fresh : e ∉ head :: xs) :
    IsRing (l.link e (l.prev head) head) head (xs ++ [e]) := by
  have ring' : IsRing l head (xs ++ []) := by simpa using ring
  rcases List.eq_nil_or_concat xs with rfl | ⟨xs, p, rfl⟩
  · rw [ring.prev_head_nil]
    exact ring'.insert_walk [] [] rfl rfl (by simpa using fresh)
  · rw [List.concat_eq_append] at ring ring' fresh ⊢
    rw [ring.prev_head_concat]
    exact ring'.insert_walk (head :: xs) [] (by simp) (by simp)
      (by simpa using fresh)

/-- Insertion behind a node of the ring. -/
theorem insert_after (ring : IsRing l head (xs ++ p :: ys)) (fresh : e ∉ head :: (xs ++ p :: ys)) :
    IsRing (l.link e p (l.next p)) head (xs ++ p :: e :: ys) := by
  have shift : xs ++ p :: e :: ys = (xs ++ [p]) ++ e :: ys := by simp
  have ring' : IsRing l head ((xs ++ [p]) ++ ys) := by simpa using ring
  rw [shift]
  cases ys with
  | nil =>
      rw [ring.next_last]
      exact ring'.insert_walk (head :: xs) [] (by simp) (by simp)
        (by simpa using fresh)
  | cons n ys =>
      rw [ring.adjacent.1]
      exact ring'.insert_walk (head :: xs) (ys ++ [head]) (by simp) (by simp)
        (by simpa using fresh)

/-- Insertion at the front of the ring, behind its head. -/
theorem insert_first (ring : IsRing l head xs) (fresh : e ∉ head :: xs) :
    IsRing (l.link e head (l.next head)) head (e :: xs) := by
  cases xs with
  | nil =>
      rw [ring.next_head_nil]
      have front : IsRing l head ([] ++ []) := ring
      exact front.insert_walk [] [] rfl rfl fresh
  | cons n ys =>
      rw [ring.next_head_cons]
      have front : IsRing l head ([] ++ n :: ys) := ring
      exact front.insert_walk [] (ys ++ [head]) rfl rfl fresh

/-- Insertion at any place of the ring, behind the node that precedes it. -/
theorem insert_at (ring : IsRing l head (xs ++ ys)) (fresh : e ∉ head :: (xs ++ ys)) :
    IsRing (l.link e (xs.getLast?.getD head) (l.next (xs.getLast?.getD head))) head (xs ++ e :: ys) := by
  rcases List.eq_nil_or_concat xs with rfl | ⟨xs, p, rfl⟩
  · exact ring.insert_first fresh
  · rw [List.concat_eq_append] at ring fresh ⊢
    rw [List.getLast?_concat, Option.getD_some, List.append_assoc, List.singleton_append]
    rw [List.append_assoc, List.singleton_append] at ring fresh
    exact ring.insert_after fresh

private theorem remove_walk (before after : List α) (ring : IsRing l head (xs ++ e :: ys))
    (walk : head :: (xs ++ e :: ys ++ [head]) = before ++ p :: e :: n :: after)
    (result : head :: (xs ++ ys ++ [head]) = before ++ p :: n :: after) :
    IsRing (l.unlink p n) head (xs ++ ys) where
  nodup := ring.nodup.sublist (by simp)
  path := by
    rw [result]
    exact Path.remove (walk ▸ ring.path) (walk ▸ ring.heads) (walk ▸ ring.tails)

/-- A node leaves the ring when its two neighbours are joined. -/
theorem remove (ring : IsRing l head (xs ++ e :: ys)) :
    IsRing (l.unlink (l.prev e) (l.next e)) head (xs ++ ys) := by
  rcases List.eq_nil_or_concat xs with rfl | ⟨xs, p, rfl⟩
  · rw [ring.prev_first]
    cases ys with
    | nil =>
        rw [ring.next_last]
        exact ring.remove_walk [] [] rfl rfl
    | cons n ys =>
        have front : IsRing l head ([] ++ e :: n :: ys) := ring
        rw [front.adjacent.1]
        exact ring.remove_walk [] (ys ++ [head]) rfl rfl
  · rw [List.concat_eq_append] at ring ⊢
    rw [ring.prev_eq, List.getLast?_concat, Option.getD_some]
    cases ys with
    | nil =>
        rw [ring.next_last]
        exact ring.remove_walk (head :: xs) [] (by simp) (by simp)
    | cons n ys =>
        rw [ring.adjacent.1]
        exact ring.remove_walk (head :: xs) (ys ++ [head]) (by simp) (by simp)

/-- The same, with the nodes that are left as a list without the one that goes. -/
theorem remove_mem (ring : IsRing l head xs) (member : e ∈ xs) :
    IsRing (l.unlink (l.prev e) (l.next e)) head (xs.erase e) := by
  obtain ⟨before, after, rfl⟩ := List.append_of_mem member
  have apart : e ∉ before ++ after := (List.nodup_middle.mp ring.nodes_nodup).notMem
  rw [List.erase_append_right _ fun inside => apart (List.mem_append_left _ inside), List.erase_cons_head]
  exact ring.remove

end Stores

end IsRing

/-! ## Other names for the nodes -/

def Links.map {β : Type v} (l : Links α) (e : α ≃ β) : Links β :=
  ⟨fun b => e (l.next (e.symm b)), fun b => e (l.prev (e.symm b))⟩

theorem IsRing.map {β : Type v} {l : Links α} {head : α} {xs : List α} (ring : IsRing l head xs) (e : α ≃ β) :
    IsRing (l.map e) (e head) (xs.map e) := by
  refine ⟨?_, ?_⟩
  · rw [← List.map_cons]
    exact ring.nodup.map e.injective
  · have linked : ∀ a b, Linked l a b → Linked (l.map e) (e a) (e b) := by
      rintro a b ⟨next, prev⟩
      exact ⟨by simp [Links.map, next], by simp [Links.map, prev]⟩
    have path := List.isChain_map_of_isChain e linked ring.path
    simpa using path

end Ucore.Lib.Ring
