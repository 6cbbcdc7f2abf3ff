import Ucore.Mm.DefaultPmm

/-! # The first-fit free list as ordered extents

A well-formed free list is a list of extents: the ring through the first pages of
the blocks, in address order, with each block's length in `property`. Every
function of the manager is read here as an operation on that list. Insertion is
described for the places where the loop of `insertLoop` leaves through a `break`.
-/

namespace Ucore.Mm.FirstFit

open Lib.Ring Lib.Extents Libs.Assert Libs.List DefaultPmm

/-- The entries of the blocks' first pages. -/
def entries (bs : List Extent) : List Entry := bs.map fun b => .pageLink b.base

@[simp] theorem entries_nil : entries [] = [] := rfl

@[simp] theorem entries_cons (b : Extent) (bs : List Extent) :
    entries (b :: bs) = .pageLink b.base :: entries bs := rfl

@[simp] theorem entries_append (xs ys : List Extent) :
    entries (xs ++ ys) = entries xs ++ entries ys := List.map_append

@[simp] theorem mem_entries {bs : List Extent} {i : Nat} :
    Entry.pageLink i ∈ entries bs ↔ ∃ b ∈ bs, b.base = i := by
  simp [entries]

/-- The free list of `s` holds the blocks `bs`. `owned` are the pages handed to
    the manager; among them exactly the first pages of the blocks carry
    `PG_property`. -/
structure FreeList (owned : Nat → Prop) (s : Pmm) (bs : List Extent) : Prop where
  ring : IsRing s.links .freeList (entries bs)
  ordered : Ordered bs
  property : ∀ b ∈ bs, (s.pages b.base).property = b.len
  nrFree : s.nrFree = total bs
  small : total bs < 2 ^ 32
  managed : ∀ b ∈ bs, ∀ i ∈ b, owned i
  heads : ∀ i, owned i → ((s.pages i).pgProperty = true ↔ i ∈ bs.map Extent.base)

theorem u32_eq {n : Nat} (small : n < 2 ^ 32) : u32 n = n := Nat.mod_eq_of_lt small

namespace FreeList

variable {owned : Nat → Prop} {s s' : Pmm} {bs lo hi old new : List Extent} {b : Extent}

/-- No other block begins inside a block. -/
theorem not_head (list : FreeList owned s bs) (member : b ∈ bs) {i : Nat} (inside : i ∈ b)
    (notBase : i ≠ b.base) : i ∉ bs.map Extent.base := by
  intro head
  obtain ⟨c, other, rfl⟩ := List.mem_map.mp head
  have different : c ≠ b := fun same => notBase (same ▸ rfl)
  have := list.ordered.apart other member different
  have := list.ordered.positive c other
  simp only [Extent.Apart, Extent.stop, Extent.mem_def] at *
  omega

/-- Every operation of the manager replaces the blocks `old` at one place of the
    list by the blocks `new`, and touches the descriptors of their first pages only. -/
theorem replace (list : FreeList owned s (lo ++ (old ++ hi)))
    (ring : IsRing s'.links .freeList (entries (lo ++ (new ++ hi))))
    (ordered : Ordered (lo ++ (new ++ hi)))
    (nrFree : s'.nrFree = total (lo ++ (new ++ hi))) (small : total (lo ++ (new ++ hi)) < 2 ^ 32)
    (managed : ∀ b ∈ new, ∀ i ∈ b, owned i)
    (property : ∀ b ∈ new, (s'.pages b.base).property = b.len)
    (flags : ∀ i, i ∈ old.map Extent.base ∨ i ∈ new.map Extent.base →
      ((s'.pages i).pgProperty = true ↔ i ∈ new.map Extent.base))
    (frame : ∀ i, i ∉ old.map Extent.base → i ∉ new.map Extent.base →
      (s'.pages i).property = (s.pages i).property ∧
      (s'.pages i).pgProperty = (s.pages i).pgProperty) :
    FreeList owned s' (lo ++ (new ++ hi)) := by
  have oldDistinct := list.ordered.nodup_bases
  have newDistinct := ordered.nodup_bases
  simp only [List.map_append, List.nodup_append, List.mem_append] at oldDistinct newDistinct
  have outside : ∀ i, i ∈ lo.map Extent.base ∨ i ∈ hi.map Extent.base →
      i ∉ old.map Extent.base ∧ i ∉ new.map Extent.base := by
    rintro i (left | right)
    · exact ⟨fun h => oldDistinct.2.2 i left i (Or.inl h) rfl,
        fun h => newDistinct.2.2 i left i (Or.inl h) rfl⟩
    · exact ⟨fun h => oldDistinct.2.1.2.2 i h i right rfl,
        fun h => newDistinct.2.1.2.2 i h i right rfl⟩
  refine ⟨ring, ordered, ?_, nrFree, small, ?_, ?_⟩
  · intro b member
    by_cases fresh : b ∈ new
    · exact property b fresh
    · have side : b ∈ lo ∨ b ∈ hi := by
        simp only [List.mem_append] at member
        tauto
      have far := outside b.base (side.imp List.mem_map_of_mem List.mem_map_of_mem)
      rw [(frame b.base far.1 far.2).1]
      exact list.property b (by rcases side with h | h <;> simp [h])
  · intro b member i inside
    by_cases fresh : b ∈ new
    · exact managed b fresh i inside
    · refine list.managed b ?_ i inside
      simp only [List.mem_append] at member ⊢
      tauto
  · intro i owns
    have before := list.heads i owns
    simp only [List.map_append, List.mem_append] at before ⊢
    by_cases touched : i ∈ old.map Extent.base ∨ i ∈ new.map Extent.base
    · have := flags i touched
      have := outside i
      tauto
    · rw [not_or] at touched
      rw [(frame i touched.1 touched.2).2, before]
      tauto

end FreeList

/-! ## Searching -/

theorem findFit_spec {s : Pmm} {n : Nat} (lo : List Extent) {bs : List Extent}
    (ring : IsRing s.links .freeList (entries (lo ++ bs)))
    (property : ∀ b ∈ bs, (s.pages b.base).property = b.len) {fuel : Nat}
    (enough : bs.length < fuel) :
    findFit s n fuel ((entries lo).getLast?.getD .freeList) =
      .ok ((bs.find? fun b => n ≤ b.len).map Extent.base) := by
  induction bs generalizing lo fuel with
  | nil =>
      obtain ⟨fuel, rfl⟩ := Nat.exists_eq_add_of_lt enough
      rw [entries_append] at ring
      simp [findFit, ring.next_before]
  | cons b bs ih =>
      obtain ⟨fuel, rfl⟩ := Nat.exists_eq_succ_of_ne_zero (Nat.ne_of_gt (Nat.zero_lt_of_lt enough))
      have here := property b (by simp)
      rw [entries_append] at ring
      rw [findFit, ring.next_before, entries_cons, List.head?_cons, Option.getD_some]
      by_cases fits : n ≤ b.len
      · simp [here, fits]
      · have next := ih (lo ++ [b]) (by simpa using ring)
          (fun c member => property c (by simp [member])) (by simpa using enough)
        simpa [here, fits] using next

/-! ## Insertion -/

theorem insertLoop_spec {links : Links Entry} {base : Nat} (lo : List Extent) {mid hi : List Extent}
    {h : Extent}
    (ring : IsRing links .freeList (entries (lo ++ (mid ++ h :: hi))))
    (below : ∀ e ∈ mid, e.base < base) (above : base < h.base) {fuel : Nat}
    (enough : mid.length < fuel) :
    insertLoop base fuel links ((entries lo).getLast?.getD .freeList) =
      .ok (listAddBefore links (.pageLink h.base) (.pageLink base)) := by
  obtain ⟨fuel, rfl⟩ := Nat.exists_eq_succ_of_ne_zero (Nat.ne_of_gt (Nat.zero_lt_of_lt enough))
  induction mid generalizing lo fuel with
  | nil =>
      rw [entries_append] at ring
      simp [insertLoop, ring.next_before, above]
  | cons m mid ih =>
      rw [entries_append] at ring
      have stay : ¬base < m.base := Nat.not_lt.mpr (Nat.le_of_lt (below m (by simp)))
      rw [List.cons_append, entries_cons] at ring
      have inner : links.next (.pageLink m.base) ≠ .freeList := by
        rw [Ne, ring.next_eq_head_iff]
        simp
      have more : fuel ≠ 0 := by simp at enough; omega
      obtain ⟨fuel, rfl⟩ := Nat.exists_eq_succ_of_ne_zero more
      have next := ih (lo ++ [m]) (by simpa using ring)
        (fun e member => below e (by simp [member])) fuel (by simpa using enough)
      rw [insertLoop, ring.next_before]
      simpa [stay, inner] using next

/-- The places where inserting `base` does not run into the end of a nonempty
    list: the list is empty, or some block begins after `base`. -/
def NotLast (bs : List Extent) (base : Nat) : Prop := bs = [] ∨ ∃ h ∈ bs, base < h.base

theorem insertBlock_spec {s : Pmm} {base : Nat} {lo hi : List Extent}
    (ring : IsRing s.links .freeList (entries (lo ++ hi))) (place : NotLast (lo ++ hi) base)
    (below : ∀ e ∈ lo, e.base < base) (above : ∀ e ∈ hi, base < e.base) {fuel : Nat}
    (enough : lo.length < fuel) :
    ∃ links, insertBlock fuel s base = .ok { s with links := links } ∧
      IsRing links .freeList (entries lo ++ .pageLink base :: entries hi) := by
  have fresh : Entry.pageLink base ∉ Entry.freeList :: (entries lo ++ entries hi) := by
    simp only [List.mem_cons, reduceCtorEq, List.mem_append, mem_entries, false_or, not_or]
    refine ⟨?_, ?_⟩
    · rintro ⟨e, member, same⟩
      exact absurd (below e member) (by omega)
    · rintro ⟨e, member, same⟩
      exact absurd (above e member) (by omega)
  rw [entries_append] at ring
  rcases place with empty | ⟨h, member, before⟩
  · obtain ⟨rfl, rfl⟩ := List.append_eq_nil_iff.mp empty
    have isEmpty : listEmpty s.links .freeList = true := (listEmpty_iff ring).mpr rfl
    have front : IsRing s.links .freeList ([] ++ []) := ring
    exact ⟨_, if_pos isEmpty, listAdd_ring front fresh⟩
  · have nonempty : listEmpty s.links .freeList ≠ true := by
      rw [Ne, listEmpty_iff ring, ← entries_append]
      intro none
      simp [List.map_eq_nil_iff.mp none] at member
    cases hi with
    | nil => exact absurd (below h (by simpa using member)) (by omega)
    | cons f hi =>
        have front : IsRing s.links .freeList (entries ([] ++ (lo ++ f :: hi))) := by
          simpa using ring
        have loop := insertLoop_spec [] front below (above f (by simp)) enough
        refine ⟨_, ?_, listAddBefore_ring ring fresh⟩
        rw [insertBlock, if_neg nonempty]
        simp only [entries_nil, List.getLast?_nil, Option.getD_none] at loop
        rw [loop]
        rfl

/-! ## Allocation -/

theorem takeFrom_spec {owned : Nat → Prop} {s : Pmm} {lo hi : List Extent} {b : Extent} {n : Nat}
    (list : FreeList owned s (lo ++ b :: hi)) (positive : 0 < n) (fits : n ≤ b.len) :
    FreeList owned (takeFrom s b.base n) (lo ++ (rest b n ++ hi)) := by
  have member : b ∈ lo ++ b :: hi := by simp
  have ring := list.ring
  rw [entries_append, entries_cons] at ring
  have removed := listDel_ring ring
  have here := list.property b member
  have ordered := ordered_rest (n := n) list.ordered
  have sum := total_rest fits
  have small := list.small
  have count := list.nrFree
  simp only [total_append, total_cons] at small count
  have shape : lo ++ b :: hi = lo ++ ([b] ++ hi) := by simp
  rw [shape] at list
  by_cases split : n < b.len
  · have left : rest b n = [⟨b.base + n, b.len - n⟩] := if_pos split
    have newHead : b.base + n ∉ (lo ++ b :: hi).map Extent.base :=
      (shape ▸ list).not_head member (by simp only [Extent.mem_def]; omega) (by omega)
    have length : u32 (b.len - n) = b.len - n := u32_eq (by omega)
    have nonzero : n ≠ 0 := by omega
    refine list.replace ?_ ordered ?_ ?_ ?_ ?_ ?_ ?_
    · simp only [takeFrom, here, if_pos split, left, setPage_links, entries_append, entries_cons,
        List.singleton_append, ring.prev_eq]
      refine listAdd_ring removed ?_
      simpa [nonzero] using newHead
    · simp only [takeFrom, here, if_pos split, setPage_nrFree, total_append]
      rw [u32_eq (by omega)]
      omega
    · simp only [total_append]
      omega
    · intro c inRest i inside
      refine list.managed b (by simp) i ?_
      have := (mem_rest (b := b) (n := n)).mp ⟨c, inRest, inside⟩
      simp only [Extent.mem_def]
      omega
    · simp [takeFrom, here, split, left, Function.update_apply, length, nonzero]
    · intro i touched
      simp only [left, List.map_cons, List.map_nil, List.mem_singleton] at touched ⊢
      simp only [takeFrom, here, if_pos split, setPage_pages, Function.update_apply]
      rcases touched with rfl | rfl
      · simpa using nonzero
      · simp [nonzero]
    · intro i notOld notNew
      simp only [left, List.map_cons, List.map_nil, List.mem_singleton] at notOld notNew
      simp [takeFrom, here, split, Function.update_apply, notOld, notNew]
  · have left : rest b n = [] := if_neg split
    refine list.replace ?_ ordered ?_ ?_ ?_ ?_ ?_ ?_
    · simpa [takeFrom, here, split, left] using removed
    · simp only [takeFrom, here, if_neg split, setPage_nrFree, total_append]
      rw [u32_eq (by omega)]
      omega
    · simp only [total_append]
      omega
    · simp [left]
    · simp [left]
    · intro i touched
      simp only [left, List.map_cons, List.map_nil, List.mem_singleton, List.not_mem_nil,
        or_false] at touched
      subst touched
      simp [takeFrom, here, split, left]
    · intro i notOld _
      simp only [List.map_cons, List.map_nil, List.mem_singleton] at notOld
      simp [takeFrom, here, split, notOld]

/-! ## Merging -/

theorem absorb_spec {owned : Nat → Prop} {s : Pmm} {lo hi : List Extent} {p e : Extent}
    (list : FreeList owned s (lo ++ p :: e :: hi)) (touch : p.stop = e.base) :
    FreeList owned (absorb s p.base e.base) (lo ++ join p e :: hi) := by
  have ordered := list.ordered.join touch
  have ring := list.ring
  rw [show lo ++ p :: e :: hi = (lo ++ [p]) ++ e :: hi by simp, entries_append, entries_cons] at ring
  have removed := listDel_ring ring
  have here := list.property p (by simp)
  have there := list.property e (by simp)
  have small := list.small
  have count := list.nrFree
  simp only [total_append, total_cons] at small count
  have length : u32 (p.len + e.len) = p.len + e.len := u32_eq (by omega)
  have positive := list.ordered.positive p (by simp)
  have distinct : e.base ≠ p.base := by
    simp only [Extent.stop] at touch
    omega
  rw [show lo ++ p :: e :: hi = lo ++ ([p, e] ++ hi) by simp] at list
  rw [show lo ++ join p e :: hi = lo ++ ([join p e] ++ hi) by simp] at ordered ⊢
  refine list.replace ?_ ordered ?_ ?_ ?_ ?_ ?_ ?_
  · simpa [absorb, join] using removed
  · simp only [absorb, setPage_nrFree, total_append, total_cons, total_nil, join]
    omega
  · simp only [total_append, total_cons, total_nil, join]
    omega
  · intro c same i inside
    rw [List.mem_singleton.mp same, mem_join touch] at inside
    rcases inside with inside | inside
    · exact list.managed p (by simp) i inside
    · exact list.managed e (by simp) i inside
  · simp [absorb, join, here, there, distinct.symm, length]
  · intro i touched
    have flag := list.heads p.base (list.managed p (by simp) _ (by simp [Extent.mem_def, positive]))
    simp only [join, List.map_cons, List.map_nil, List.mem_cons, List.not_mem_nil, or_false] at touched ⊢
    by_cases atBase : i = p.base
    · subst atBase
      simp [absorb, distinct.symm, flag]
    · have atEnd : i = e.base := by tauto
      subst atEnd
      simp [absorb, distinct]
  · intro i notOld _
    simp only [List.map_cons, List.map_nil, List.mem_cons, List.not_mem_nil, or_false, not_or] at notOld
    simp [absorb, notOld.1, notOld.2]

theorem mergePrev_spec {owned : Nat → Prop} {s : Pmm} {lo hi : List Extent} {e : Extent}
    (list : FreeList owned s (lo ++ e :: hi)) :
    (mergePrev s e.base).1 = (joinLeft lo e).2.base ∧
      FreeList owned (mergePrev s e.base).2 ((joinLeft lo e).1 ++ (joinLeft lo e).2 :: hi) := by
  have ring := list.ring
  rw [entries_append, entries_cons] at ring
  have prev := ring.prev_eq
  rcases List.eq_nil_or_concat lo with rfl | ⟨lo, p, rfl⟩
  · rw [entries_nil, List.getLast?_nil, Option.getD_none] at prev
    simpa only [mergePrev, prev, joinLeft_nil, true_and] using list
  · rw [List.concat_eq_append] at list prev ⊢
    rw [entries_append, entries_cons, entries_nil, List.getLast?_concat, Option.getD_some] at prev
    have here := list.property p (by simp)
    rw [joinLeft_concat]
    simp only [mergePrev, prev, here]
    by_cases touch : p.stop = e.base
    · rw [if_pos touch, if_pos (show p.base + p.len = e.base from touch)]
      exact ⟨rfl, absorb_spec (by simpa using list) touch⟩
    · rw [if_neg touch, if_neg (show ¬p.base + p.len = e.base from touch)]
      exact ⟨rfl, list⟩

theorem mergeNext_spec {owned : Nat → Prop} {s : Pmm} {lo hi : List Extent} {e : Extent}
    (list : FreeList owned s (lo ++ e :: hi)) :
    FreeList owned (mergeNext s e.base) (lo ++ (joinRight e hi).1 :: (joinRight e hi).2) := by
  have ring := list.ring
  rw [entries_append, entries_cons] at ring
  have next := ring.next_eq
  cases hi with
  | nil =>
      rw [entries_nil, List.head?_nil, Option.getD_none] at next
      simp only [mergeNext, next, joinRight]
      exact list
  | cons h hi =>
      rw [entries_cons, List.head?_cons, Option.getD_some] at next
      have here := list.property e (by simp)
      simp only [mergeNext, next, joinRight, here]
      by_cases touch : e.stop = h.base
      · rw [if_pos touch, if_pos (show e.base + e.len = h.base from touch)]
        exact absorb_spec list touch
      · rw [if_neg touch, if_neg (show ¬e.base + e.len = h.base from touch)]
        exact list

/-! ## Handing pages to the manager -/

theorem resetPages_spec (expected : Page → Bool) (reset : Page → Page) (e : Extent)
    (pages : Nat → Page) (passes : ∀ i ∈ e, expected (pages i) = true) :
    resetPages expected reset e.base e.len pages =
      .ok fun i => if i ∈ e then reset (pages i) else pages i := by
  obtain ⟨p, count⟩ := e
  induction count generalizing p pages with
  | zero =>
      have absent : ∀ i, i ∉ (⟨p, 0⟩ : Extent) := by
        intro i
        simp only [Extent.mem_def]
        omega
      simp only [resetPages, if_neg (absent _)]
  | succ count ih =>
      have here : p ∈ (⟨p, count + 1⟩ : Extent) := by simp [Extent.mem_def]
      simp only at ih ⊢
      rw [resetPages, assert_bind (passes p here), ih]
      · congr 1
        funext i
        by_cases first : i = p
        · subst first
          simp [Extent.mem_def]
        · have same : i ∈ (⟨p + 1, count⟩ : Extent) ↔ i ∈ (⟨p, count + 1⟩ : Extent) := by
            simp only [Extent.mem_def]
            omega
          simp only [Function.update_of_ne first, same]
      · intro i inside
        simp only [Extent.mem_def] at inside
        rw [Function.update_of_ne (by omega)]
        exact passes i (by simp only [Extent.mem_def]; omega)

theorem reset_spec {owned : Nat → Prop} {s : Pmm} {bs : List Extent} {e : Extent}
    (list : FreeList owned s bs) (apart : ∀ b ∈ bs, b.Apart e) (pages : Nat → Page)
    (same : ∀ i, i ∉ e → pages i = s.pages i) (clear : ∀ i ∈ e, (pages i).pgProperty = false) :
    FreeList (fun i => owned i ∨ i ∈ e) { s with pages := pages } bs := by
  have outside : ∀ b ∈ bs, b.base ∉ e := by
    intro b member
    have := apart b member
    have := list.ordered.positive b member
    simp only [Extent.Apart, Extent.stop, Extent.mem_def] at *
    omega
  refine ⟨list.ring, list.ordered, fun b member => ?_, list.nrFree, list.small,
    fun b member i inside => Or.inl (list.managed b member i inside), fun i owns => ?_⟩
  · simp only [same b.base (outside b member)]
    exact list.property b member
  · by_cases inside : i ∈ e
    · simp only [clear i inside, Bool.false_eq_true, false_iff]
      intro head
      obtain ⟨b, member, rfl⟩ := List.mem_map.mp head
      exact outside b member inside
    · simp only [same i inside]
      exact list.heads i (owns.resolve_right inside)

theorem insert_spec {owned : Nat → Prop} {s : Pmm} {lo hi : List Extent} {e : Extent}
    (list : FreeList owned s (lo ++ hi)) (ordered : Ordered (lo ++ e :: hi))
    (owns : ∀ i ∈ e, owned i) (place : NotLast (lo ++ hi) e.base)
    (small : total (lo ++ hi) + e.len < 2 ^ 32) {fuel : Nat} (enough : lo.length < fuel) :
    ∃ links, insertBlock fuel (markHead s e.base e.len) e.base =
        .ok { markHead s e.base e.len with links := links } ∧
      FreeList owned { markHead s e.base e.len with links := links } (lo ++ e :: hi) := by
  have positive := ordered.positive e (by simp)
  obtain ⟨-, right, across⟩ := Ordered.append_iff.mp ordered
  have below : ∀ a ∈ lo, a.base < e.base := by
    intro a member
    have := across a member e (by simp)
    have := list.ordered.positive a (by simp [member])
    simp only [Extent.stop] at *
    omega
  have above : ∀ a ∈ hi, e.base < a.base := by
    intro a member
    have := (Ordered.cons_iff.mp right).2.1 a member
    simp only [Extent.stop] at *
    omega
  obtain ⟨links, run, ring⟩ := insertBlock_spec (s := markHead s e.base e.len) list.ring place
    below above enough
  have count := list.nrFree
  simp only [total_append] at small count
  refine ⟨links, run, ?_⟩
  rw [show lo ++ e :: hi = lo ++ ([e] ++ hi) by simp] at ordered ⊢
  have list' : FreeList owned s (lo ++ ([] ++ hi)) := by simpa using list
  refine list'.replace (by simpa using ring) ordered ?_ ?_ ?_ ?_ ?_ ?_
  · simp only [markHead, total_append, total_cons, total_nil]
    rw [u32_eq (by omega)]
    omega
  · simp only [total_append, total_cons, total_nil]
    omega
  · intro c same i inside
    exact owns i (List.mem_singleton.mp same ▸ inside)
  · simp [markHead, u32_eq (show e.len < 2 ^ 32 by omega)]
  · intro i touched
    have atBase : i = e.base := by simpa using touched
    subst atBase
    simp [markHead]
  · intro i _ notNew
    simp only [List.map_cons, List.map_nil, List.mem_singleton] at notNew
    simp [markHead, notNew]

/-- `default_init_memmap` on pages not managed so far. -/
theorem defaultInitMemmap_spec {owned : Nat → Prop} {s : Pmm} {lo hi : List Extent} {e : Extent}
    (list : FreeList owned s (lo ++ hi)) (ordered : Ordered (lo ++ e :: hi))
    (reserved : ∀ i ∈ e, (s.pages i).pgReserved = true) (place : NotLast (lo ++ hi) e.base)
    (small : total (lo ++ hi) + e.len < 2 ^ 32) {fuel : Nat} (enough : lo.length < fuel) :
    ∃ s', defaultInitMemmap fuel s e.base e.len = .ok s' ∧
      FreeList (fun i => owned i ∨ i ∈ e) s' (lo ++ e :: hi) ∧
      ∀ i, (s'.pages i).pgReserved = if i ∈ e then false else (s.pages i).pgReserved := by
  have positive := ordered.positive e (by simp)
  have apart : ∀ b ∈ lo ++ hi, b.Apart e := by
    intro b member
    obtain ⟨-, right, across⟩ := Ordered.append_iff.mp ordered
    rcases List.mem_append.mp member with h | h
    · exact Or.inl (across b h e (by simp))
    · exact Or.inr ((Ordered.cons_iff.mp right).2.1 b h)
  have reset := resetPages_spec (·.pgReserved) (fun _ => ⟨0, false, false, 0⟩) e s.pages reserved
  have cleared := reset_spec (e := e) list apart
    (fun i => if i ∈ e then ⟨0, false, false, 0⟩ else s.pages i)
    (fun i outside => if_neg outside) (fun i inside => by rw [if_pos inside])
  obtain ⟨links, run, list'⟩ := insert_spec cleared ordered (fun i inside => Or.inr inside) place
    small enough
  refine ⟨_, ?_, list', fun i => ?_⟩
  · rw [defaultInitMemmap, assert_bind positive, reset]
    exact run
  · by_cases first : i = e.base
    · subst first
      simp [markHead, Extent.mem_def, positive]
    · simp only [markHead, setPage_pages, Function.update_of_ne first]
      split <;> rfl

theorem update_reserved {pages : Nat → Page} {i : Nat} {p : Page}
    (same : p.pgReserved = (pages i).pgReserved) (j : Nat) :
    (Function.update pages i p j).pgReserved = (pages j).pgReserved := by
  by_cases here : j = i
  · subst here
    simpa using same
  · simp [here]

theorem absorb_reserved (s : Pmm) (p e i : Nat) :
    ((absorb s p e).pages i).pgReserved = (s.pages i).pgReserved := by
  simp only [absorb, setPage_pages]
  rw [update_reserved, update_reserved] <;> rfl

theorem mergePrev_reserved (s : Pmm) (base i : Nat) :
    ((mergePrev s base).2.pages i).pgReserved = (s.pages i).pgReserved := by
  unfold mergePrev
  split
  · rfl
  · split
    · exact absorb_reserved ..
    · rfl

theorem mergeNext_reserved (s : Pmm) (base i : Nat) :
    ((mergeNext s base).pages i).pgReserved = (s.pages i).pgReserved := by
  unfold mergeNext
  split
  · rfl
  · split
    · exact absorb_reserved ..
    · rfl

theorem absorb_property (s : Pmm) {p e i : Nat} (away : i ≠ p) :
    ((absorb s p e).pages i).property = (s.pages i).property := by
  simp only [absorb, setPage_pages]
  by_cases absorbed : i = e
  · subst absorbed
    simp [Function.update_of_ne away]
  · simp [Function.update_of_ne away, Function.update_of_ne absorbed]

theorem mergePrev_property (s : Pmm) {base i : Nat} (away : i ≠ (mergePrev s base).1) :
    ((mergePrev s base).2.pages i).property = (s.pages i).property := by
  unfold mergePrev at away ⊢
  split at away
  · rfl
  · split at away
    · rename_i touch
      rw [if_pos touch]
      exact absorb_property s away
    · rename_i apart
      rw [if_neg apart]

theorem mergeNext_property (s : Pmm) {base i : Nat} (away : i ≠ base) :
    ((mergeNext s base).pages i).property = (s.pages i).property := by
  unfold mergeNext
  split
  · rfl
  · split
    · exact absorb_property s away
    · rfl

theorem takeFrom_reserved (s : Pmm) (page n i : Nat) :
    ((takeFrom s page n).pages i).pgReserved = (s.pages i).pgReserved := by
  by_cases split : n < (s.pages page).property
  · simp only [takeFrom, setPage_pages, if_pos split]
    rw [update_reserved, update_reserved] <;> rfl
  · simp only [takeFrom, setPage_pages, if_neg split]
    rw [update_reserved]
    rfl

/-- `default_free_pages` of pages that are managed and in no free block. -/
theorem defaultFreePages_spec {owned : Nat → Prop} {s : Pmm} {lo hi : List Extent} {e : Extent}
    (list : FreeList owned s (lo ++ hi)) (ordered : Ordered (lo ++ e :: hi))
    (owns : ∀ i ∈ e, owned i) (usable : ∀ i ∈ e, (s.pages i).pgReserved = false)
    (place : NotLast (lo ++ hi) e.base) (small : total (lo ++ hi) + e.len < 2 ^ 32) {fuel : Nat}
    (enough : lo.length < fuel) :
    ∃ s', defaultFreePages fuel s e.base e.len = .ok s' ∧ FreeList owned s' (coalesce lo e hi) ∧
      (∀ i, (s'.pages i).pgReserved = (s.pages i).pgReserved) ∧
      ∀ i, i ≠ e.base → i ≠ (joinLeft lo e).2.base → (s'.pages i).property = (s.pages i).property := by
  have positive := ordered.positive e (by simp)
  have apart : ∀ b ∈ lo ++ hi, b.Apart e := by
    intro b member
    obtain ⟨-, right, across⟩ := Ordered.append_iff.mp ordered
    rcases List.mem_append.mp member with h | h
    · exact Or.inl (across b h e (by simp))
    · exact Or.inr ((Ordered.cons_iff.mp right).2.1 b h)
  have noHead : ∀ i ∈ e, (s.pages i).pgProperty = false := by
    intro i inside
    rw [Bool.eq_false_iff, Ne, list.heads i (owns i inside)]
    intro head
    obtain ⟨b, member, rfl⟩ := List.mem_map.mp head
    have := apart b member
    have := list.ordered.positive b member
    simp only [Extent.Apart, Extent.stop, Extent.mem_def] at *
    omega
  have reset := resetPages_spec (fun p => !p.pgReserved && !p.pgProperty)
    (fun p => ⟨0, false, false, p.property⟩) e s.pages (fun i inside => by
      simp [usable i inside, noHead i inside])
  have cleared := reset_spec (e := e) list apart
    (fun i => if i ∈ e then ⟨0, false, false, (s.pages i).property⟩ else s.pages i)
    (fun i outside => if_neg outside) (fun i inside => by rw [if_pos inside])
  obtain ⟨links, run, list'⟩ := insert_spec cleared ordered (fun i inside => Or.inr inside) place
    small enough
  have same : (fun i => owned i ∨ i ∈ e) = owned :=
    funext fun i => propext (or_iff_left_of_imp (owns i))
  rw [same] at list'
  obtain ⟨sameBase, list''⟩ := mergePrev_spec list'
  have merged := mergeNext_spec list''
  rw [← sameBase] at merged
  refine ⟨_, ?_, merged, fun i => ?_, fun i away head => ?_⟩
  · rw [defaultFreePages, assert_bind positive, reset]
    simp only [bind, Except.bind, pure, Except.pure] at run ⊢
    rw [run]
  · rw [mergeNext_reserved, mergePrev_reserved]
    by_cases first : i = e.base
    · subst first
      simp [markHead, Extent.mem_def, positive, usable]
    · simp only [markHead, setPage_pages, Function.update_of_ne first]
      split
      · rename_i inside
        exact (usable i inside).symm
      · rfl
  · rw [← sameBase] at head
    rw [mergeNext_property _ head, mergePrev_property _ head]
    simp only [markHead, setPage_pages, Function.update_of_ne away]
    split <;> rfl

end Ucore.Mm.FirstFit
