import Ucore.Lib.Ring

/-! # `list.h`

The kernel's intrusive doubly linked lists, over the links of any kind of entry.
Each macro is the store sequence of the header; `Lib.Ring` says what they do to a
well-formed ring.
-/

namespace Ucore.Libs.List

open Lib.Ring

variable {α : Type u} [DecidableEq α]

def listInit (l : Links α) (elm : α) : Links α := l.self elm

def listAddAfter (l : Links α) (listelm elm : α) : Links α := l.link elm listelm (l.next listelm)

def listAdd (l : Links α) (listelm elm : α) : Links α := listAddAfter l listelm elm

def listAddBefore (l : Links α) (listelm elm : α) : Links α := l.link elm (l.prev listelm) listelm

def listDel (l : Links α) (listelm : α) : Links α := l.unlink (l.prev listelm) (l.next listelm)

def listDelInit (l : Links α) (listelm : α) : Links α := listInit (listDel l listelm) listelm

def listEmpty (l : Links α) (list : α) : Bool := l.next list = list

theorem listInit_ring (l : Links α) (elm : α) : IsRing (listInit l elm) elm [] := IsRing.of_self l elm

theorem listEmpty_iff {l : Links α} {list : α} {xs : List α} (ring : IsRing l list xs) :
    listEmpty l list = true ↔ xs = [] := by
  simpa [listEmpty] using ring.next_head_eq_iff

/-- `list_add` behind the entry that precedes the chosen place. -/
theorem listAdd_ring {l : Links α} {list elm : α} {xs ys : List α}
    (ring : IsRing l list (xs ++ ys)) (fresh : elm ∉ list :: (xs ++ ys)) :
    IsRing (listAdd l (xs.getLast?.getD list) elm) list (xs ++ elm :: ys) :=
  ring.insert_at fresh

theorem listAddBefore_ring {l : Links α} {list n elm : α} {xs ys : List α}
    (ring : IsRing l list (xs ++ n :: ys)) (fresh : elm ∉ list :: (xs ++ n :: ys)) :
    IsRing (listAddBefore l n elm) list (xs ++ elm :: n :: ys) :=
  ring.insert_before fresh

theorem listDel_ring {l : Links α} {list e : α} {xs ys : List α}
    (ring : IsRing l list (xs ++ e :: ys)) : IsRing (listDel l e) list (xs ++ ys) :=
  ring.remove

theorem listDel_erase {l : Links α} {list e : α} {xs : List α} (ring : IsRing l list xs) (member : e ∈ xs) :
    IsRing (listDel l e) list (xs.erase e) :=
  ring.remove_mem member

/-- A node off a ring can be initialised without harm to the ring. -/
theorem listInit_congr {l : Links α} {list e : α} {xs : List α} (ring : IsRing l list xs)
    (off : e ∉ list :: xs) : IsRing (listInit l e) list xs := by
  refine ring.congr ?_ ?_
  · intro x inside
    exact Function.update_of_ne (fun same : x = e => off (same ▸ inside)) _ _
  · intro x inside
    exact Function.update_of_ne (fun same : x = e => off (same ▸ inside)) _ _

theorem listEmpty_listInit (l : Links α) (e : α) : listEmpty (listInit l e) e = true := by
  simp [listEmpty, listInit, Links.self]

theorem listDelInit_ring {l : Links α} {list e : α} {xs ys : List α}
    (ring : IsRing l list (xs ++ e :: ys)) : IsRing (listDelInit l e) list (xs ++ ys) := by
  have off : e ∉ list :: (xs ++ ys) := by
    have perm : ((list :: xs) ++ e :: ys).Perm (e :: ((list :: xs) ++ ys)) := List.perm_middle
    exact (List.nodup_cons.mp (perm.nodup_iff.mp ring.nodup)).1
  exact listInit_congr (listDel_ring ring) off

theorem listDelInit_erase {l : Links α} {list e : α} {xs : List α} (ring : IsRing l list xs) (member : e ∈ xs) :
    IsRing (listDelInit l e) list (xs.erase e) := by
  refine listInit_congr (listDel_erase ring member) ?_
  rintro (_ | ⟨_, inside⟩)
  · exact ring.head_not_mem member
  · exact ring.nodes_nodup.not_mem_erase inside

/-- Insertion into a ring leaves the other rings alone. -/
theorem listAdd_frame {l : Links α} {list list' elm : α} {xs ys : List α} (ring : IsRing l list xs)
    (other : IsRing l list' ys) (apart : (list :: xs).Disjoint (list' :: ys))
    (fresh : elm ∉ list' :: ys) : IsRing (listAdd l list elm) list' ys := by
  have next := (ring.prev_next List.mem_cons_self).1
  refine other.congr (fun x inside => ?_) (fun x inside => ?_)
  · have away : x ≠ elm := fun same => fresh (same ▸ inside)
    have outside : x ≠ list := fun same => apart (same ▸ List.mem_cons_self) inside
    rw [listAdd, listAddAfter, Links.link_next, if_neg away, if_neg outside]
  · have away : x ≠ elm := fun same => fresh (same ▸ inside)
    have outside : x ≠ l.next list := fun same => apart (same ▸ next) inside
    rw [listAdd, listAddAfter, Links.link_prev, if_neg away, if_neg outside]

theorem listDel_frame {l : Links α} {list list' e : α} {xs ys : List α} (ring : IsRing l list xs)
    (other : IsRing l list' ys) (apart : (list :: xs).Disjoint (list' :: ys)) (member : e ∈ list :: xs) :
    IsRing (listDel l e) list' ys := by
  refine other.congr (fun x inside => ?_) (fun x inside => ?_)
  · have outside : x ≠ l.prev e := fun same => apart (same ▸ ring.prev_mem member) inside
    rw [listDel, Links.unlink_next, if_neg outside]
  · have outside : x ≠ l.next e := fun same => apart (same ▸ (ring.prev_next member).1) inside
    rw [listDel, Links.unlink_prev, if_neg outside]

/-- Insertion does not touch the nodes of no ring. -/
theorem listAddBefore_off {l : Links α} {list n z : α} (elm : α) {xs : List α} (ring : IsRing l list xs)
    (member : n ∈ list :: xs) (off : z ∉ list :: xs) (other : z ≠ elm) :
    (listAddBefore l n elm).next z = l.next z := by
  have away : z ≠ l.prev n := fun same => off (same ▸ ring.prev_mem member)
  rw [listAddBefore, Links.link_next, if_neg other, if_neg away]

theorem listDelInit_off {l : Links α} {list e z : α} {xs : List α} (ring : IsRing l list xs)
    (member : e ∈ list :: xs) (off : z ∉ list :: xs) : (listDelInit l e).next z = l.next z := by
  have away : z ≠ l.prev e := fun same => off (same ▸ ring.prev_mem member)
  have other : z ≠ e := fun same => off (same ▸ member)
  rw [listDelInit, listInit, Links.self, Links.setPrev_next, Links.setNext_next,
    Function.update_of_ne other, listDel, Links.unlink_next, if_neg away]

/-- A node on a ring is not empty. -/
theorem listEmpty_member {l : Links α} {list e : α} {xs : List α} (ring : IsRing l list xs)
    (member : e ∈ xs) : listEmpty l e = false := by
  obtain ⟨before, after, rfl⟩ := List.append_of_mem member
  have apart := List.nodup_cons.mp (List.nodup_append.mp ring.nodes_nodup).2.1
  rw [listEmpty, decide_eq_false_iff_not, ring.next_eq]
  cases after with
  | nil => exact fun same => ring.head_not_mem (by simp_all)
  | cons n after => exact fun same => apart.1 (by simp_all)

/-! ## Several lists -/

/-- Lists that have no entry in common. -/
structure Lists (l : Links α) (heads : List α) (entries : α → List α) : Prop where
  ring : ∀ list ∈ heads, IsRing l list (entries list)
  apart : ∀ list ∈ heads, ∀ list' ∈ heads, list ≠ list' → (list :: entries list).Disjoint (list' :: entries list')

variable {l : Links α} {heads : List α} {entries : α → List α} {elm : α}

/-- An entry leaves its list; the other lists stay as they are. -/
theorem Lists.leave (lists : Lists l heads entries) (list : α) (head : list ∈ heads) (member : elm ∈ entries list) :
    Lists (listDel l elm) heads (Function.update entries list ((entries list).erase elm)) := by
  have fewer : ∀ list', Function.update entries list ((entries list).erase elm) list' ⊆ entries list' := by
    intro list'
    by_cases same : list' = list
    · rw [same, Function.update_self]
      exact List.erase_subset
    · rw [Function.update_of_ne same]
      exact List.Subset.refl _
  refine ⟨fun list' head' => ?_, fun list' head' list'' head'' other => ?_⟩
  · by_cases same : list' = list
    · rw [same, Function.update_self]
      exact listDel_erase (lists.ring list head) member
    · rw [Function.update_of_ne same]
      exact listDel_frame (lists.ring list head) (lists.ring list' head')
        (lists.apart list head list' head' (Ne.symm same)) (List.mem_cons_of_mem _ member)
  · exact List.disjoint_of_subset_left (List.cons_subset_cons _ (fewer list'))
      (List.disjoint_of_subset_right (List.cons_subset_cons _ (fewer list''))
        (lists.apart list' head' list'' head'' other))

/-- An entry of none of the lists enters one of them. -/
theorem Lists.enter (lists : Lists l heads entries) (list : α) (head : list ∈ heads)
    (fresh : ∀ list' ∈ heads, elm ∉ list' :: entries list') :
    Lists (listAdd l list elm) heads (Function.update entries list (elm :: entries list)) := by
  have more : ∀ list' x, x ∈ list' :: Function.update entries list (elm :: entries list) list' →
      x ∈ list' :: entries list' ∨ x = elm ∧ list' = list := by
    intro list' x inside
    by_cases same : list' = list
    · rw [same, Function.update_self] at inside
      rw [same]
      rcases List.mem_cons.mp inside with rfl | inside
      · exact Or.inl List.mem_cons_self
      · rcases List.mem_cons.mp inside with rfl | inside
        · exact Or.inr ⟨rfl, rfl⟩
        · exact Or.inl (List.mem_cons_of_mem _ inside)
    · rw [Function.update_of_ne same] at inside
      exact Or.inl inside
  refine ⟨fun list' head' => ?_, fun list' head' list'' head'' other x here there => ?_⟩
  · by_cases same : list' = list
    · rw [same, Function.update_self]
      have ring : IsRing l list ([] ++ entries list) := lists.ring list head
      exact listAdd_ring ring (fresh list head)
    · rw [Function.update_of_ne same]
      exact listAdd_frame (lists.ring list head) (lists.ring list' head')
        (lists.apart list head list' head' (Ne.symm same)) (fresh list' head')
  · rcases more _ _ here with old | ⟨rfl, rfl⟩
    · rcases more _ _ there with old' | ⟨rfl, rfl⟩
      · exact lists.apart list' head' list'' head'' other old old'
      · exact fresh list' head' old
    · rcases more _ _ there with old' | ⟨-, same⟩
      · exact fresh list'' head'' old'
      · exact other same.symm

end Ucore.Libs.List
