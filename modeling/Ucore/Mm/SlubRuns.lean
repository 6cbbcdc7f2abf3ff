import Ucore.Lib.Run
import Ucore.Mm.Slub

/-! # Runs of an object cache

Objects are taken and freed in any order, those in use are written to, and the buddy system
hands out any page that is not in use. The objects keep out of each other's way exactly when
the header fits into what is left of the page, and the free lists end exactly when it fills it.
-/

namespace Ucore.Mm.Slub

open Lib.Bytes
open Lib.Memory
open Lib.Ring
open Lib.Run
open Libs.List

/-- What `buddy_alloc_pages` may return. -/
def Fresh (s : Cache) : Option Nat → Prop
  | none => True
  | some page => page % PAGE_SIZE = 0 ∧ page ≠ 0 ∧ page + PAGE_SIZE < 2 ^ 64 ∧ page ∉ s.pages

inductive Step (s : Cache) : Cache → Prop where
  | alloc {page : Option Nat} {obj : Nat} {t : Cache} (fresh : Fresh s page)
      (run : slubAlloc s page = .ok (obj, t)) :
      Step s { t with live := if obj = 0 then t.live else obj :: t.live }
  | free {obj : Nat} {t : Cache} (live : obj ∈ s.live) (run : slubFree s obj = .ok t) :
      Step s { t with live := t.live.erase obj }
  /-- The objects in use are written to, and so is what is not the cache's. -/
  | use {memory : Block}
      (kept : ∀ page ∈ s.pages, ∀ i, page ≤ i → i < page + PAGE_SIZE →
        (∀ obj ∈ s.live, i < obj ∨ obj + s.objSize ≤ i) → memory i = s.memory i) :
      Step s { s with memory := memory }

def Initial (objSize : Nat) (s : Cache) : Prop := ∃ memory links, s = slubCacheInit memory links objSize

/-- Nothing is left in the lists a new object may come from. -/
def Empty (s : Cache) : Prop := listEmpty s.links .partialList = true ∧ listEmpty s.links .freeList = true

/-- What the free objects of a slab are to those in use. -/
structure Spaced (s : Cache) (page : Nat) (free : List Nat) (last : Nat) : Prop
    extends Slab s.memory page free last where
  distinct : free.Nodup
  inside : ∀ node ∈ free, node + 8 ≤ page + PAGE_SIZE
  apart : ∀ node ∈ free, ∀ obj ∈ s.live, obj + s.objSize ≤ node ∨ node + 8 ≤ obj

/-- The objects in use lie apart and in their pages, each slab counts its free objects and is
    on one list, and calls return. -/
structure Sound (ends : Nat → Prop) (s : Cache) : Prop where
  apart : s.live.Pairwise fun a b => a + s.objSize ≤ b ∨ b + s.objSize ≤ a
  inside : ∀ obj ∈ s.live, kva2slab obj ∈ s.pages ∧ kva2slab obj + SIZEOF_SLAB ≤ obj ∧
    obj + s.objSize ≤ kva2slab obj + PAGE_SIZE
  slabs : ∀ page ∈ s.pages, ∃ free last, ends last ∧ Spaced s page free last
  lists : ∃ parts fulls : List Nat, IsRing s.links .partialList (parts.map .slab) ∧
    IsRing s.links .fullList (fulls.map .slab) ∧ IsRing s.links .freeList [] ∧
    (parts ++ fulls).Perm s.pages ∧ s.pages.Nodup
  allocs : ∀ page, Fresh s page → ∃ obj t, slubAlloc s page = .ok (obj, t) ∧ (obj = 0 ↔ Empty s ∧ page = none)
  frees : ∀ obj ∈ s.live, ∃ t, slubFree s obj = .ok t

/-! ## Sizes -/

/-- What is left of a page behind its objects holds the header. -/
def Fits (objSize : Nat) : Prop := objSize ≤ PAGE_SIZE ∧ SIZEOF_SLAB ≤ PAGE_SIZE % objSize

variable {s t : Cache} {page obj objSize : Nat} {free : Nat → List Nat} {parts fulls : List Nat}

theorem Fits.above (fits : Fits objSize) (positive : 0 < objSize) : SIZEOF_SLAB < objSize :=
  Nat.lt_of_le_of_lt fits.2 (Nat.mod_lt _ positive)

theorem Fits.room (fits : Fits objSize) {j : Nat} (low : j < PAGE_SIZE / objSize) :
    SIZEOF_SLAB + j * objSize + objSize ≤ PAGE_SIZE := by
  have all := Nat.div_add_mod PAGE_SIZE objSize
  have upTo := Nat.mul_le_mul_left objSize (Nat.succ_le_of_lt low)
  have rest := fits.2
  rw [Nat.mul_succ, Nat.mul_comm] at upTo
  omega

theorem Fits.begins (fits : Fits objSize) (positive : 0 < objSize) : Begin objSize := by
  intro j low
  have := fits.room low
  omega

def heads : List Entry := [.freeList, .partialList, .fullList]

def entries (parts fulls : List Nat) : Entry → List Entry
  | .partialList => parts.map .slab
  | .fullList => fulls.map .slab
  | _ => []

def OnLists (l : Links Entry) (parts fulls : List Nat) : Prop := Lists l heads (entries parts fulls)

theorem slab_injective : Function.Injective Entry.slab := fun _ _ => Entry.slab.inj

theorem mem_entries {list : Entry} (head : list ∈ heads) (off : page ∉ parts ++ fulls) :
    Entry.slab page ∉ list :: entries parts fulls list := by
  rw [List.mem_append, not_or] at off
  intro inside
  rcases List.mem_cons.mp inside with rfl | inside
  · simp [heads] at head
  · cases list <;> simp [entries] at inside
    · exact off.1 inside
    · exact off.2 inside

theorem update_partialList (parts' : List Nat) :
    Function.update (entries parts fulls) .partialList (parts'.map .slab) = entries parts' fulls := by
  funext list
  cases list <;> rfl

theorem update_fullList (fulls' : List Nat) :
    Function.update (entries parts fulls) .fullList (fulls'.map .slab) = entries parts fulls' := by
  funext list
  cases list <;> rfl

namespace OnLists

variable {l : Links Entry}

theorem add (lists : OnLists l parts fulls) (off : page ∉ parts ++ fulls) :
    OnLists (listAdd l .partialList (.slab page)) (page :: parts) fulls := by
  have entered := lists.enter .partialList (by simp [heads]) fun _ head => mem_entries head off
  rwa [show Entry.slab page :: entries parts fulls .partialList = (page :: parts).map .slab from rfl,
    update_partialList] at entered

theorem addFull (lists : OnLists l parts fulls) (off : page ∉ parts ++ fulls) :
    OnLists (listAdd l .fullList (.slab page)) parts (page :: fulls) := by
  have entered := lists.enter .fullList (by simp [heads]) fun _ head => mem_entries head off
  rwa [show Entry.slab page :: entries parts fulls .fullList = (page :: fulls).map .slab from rfl,
    update_fullList] at entered

theorem del (lists : OnLists l parts fulls) (member : page ∈ parts) :
    OnLists (listDel l (.slab page)) (parts.erase page) fulls := by
  have left := lists.leave .partialList (by simp [heads]) (List.mem_map_of_mem member)
  rwa [show (entries parts fulls .partialList).erase (Entry.slab page) = (parts.erase page).map .slab from
    (List.map_erase slab_injective _).symm, update_partialList] at left

theorem delFull (lists : OnLists l parts fulls) (member : page ∈ fulls) :
    OnLists (listDel l (.slab page)) parts (fulls.erase page) := by
  have left := lists.leave .fullList (by simp [heads]) (List.mem_map_of_mem member)
  rwa [show (entries parts fulls .fullList).erase (Entry.slab page) = (fulls.erase page).map .slab from
    (List.map_erase slab_injective _).symm, update_fullList] at left

theorem toFull (lists : OnLists l parts fulls) (member : page ∈ parts) (nodup : (parts ++ fulls).Nodup) :
    OnLists (listAdd (listDel l (.slab page)) .fullList (.slab page)) (parts.erase page) (page :: fulls) := by
  refine (lists.del member).addFull ?_
  rw [← List.erase_append_left _ member]
  exact nodup.not_mem_erase

theorem toPartial (lists : OnLists l parts fulls) (member : page ∈ fulls) (nodup : (parts ++ fulls).Nodup) :
    OnLists (listAdd (listDel l (.slab page)) .partialList (.slab page)) (page :: parts) (fulls.erase page) := by
  have off : page ∉ parts := fun inside => (List.disjoint_of_nodup_append nodup) inside member
  refine (lists.delFull member).add ?_
  rw [← List.erase_append_right _ off]
  exact nodup.not_mem_erase

end OnLists

/-! ## The invariant -/

/-- Each slab shares its objects out among the free ones and those in use. -/
structure Inv (s : Cache) (free : Nat → List Nat) (parts fulls : List Nat) : Prop where
  lists : OnLists s.links parts fulls
  pages : (parts ++ fulls).Perm s.pages
  nodup : s.pages.Nodup
  placed : ∀ page ∈ s.pages, page % PAGE_SIZE = 0 ∧ page ≠ 0 ∧ page + PAGE_SIZE < 2 ^ 64
  home : ∀ obj ∈ s.live, kva2slab obj ∈ s.pages
  slab : ∀ page ∈ s.pages, Slab s.memory page (free page) (tailLink s.objSize page)
  shared : ∀ page ∈ s.pages,
    (free page ++ s.live.filter fun obj => kva2slab obj = page).Perm (objects s.objSize page)
  parts : ∀ page ∈ parts, free page ≠ []
  fulls : ∀ page ∈ fulls, free page = []

theorem mem_objects (fits : Fits objSize) (member : obj ∈ objects objSize page) :
    page + SIZEOF_SLAB ≤ obj ∧ obj + objSize ≤ page + PAGE_SIZE := by
  obtain ⟨j, low, rfl⟩ := List.mem_map.mp member
  have := fits.room (List.mem_range.mp low)
  omega

theorem objects_nodup (positive : 0 < objSize) : (objects objSize page).Nodup := by
  refine List.nodup_range.map fun i j same => ?_
  exact Nat.eq_of_mul_eq_mul_right positive (by omega)

theorem objects_apart {a b : Nat} (here : a ∈ objects objSize page) (there : b ∈ objects objSize page) (other : a ≠ b) :
    a + objSize ≤ b ∨ b + objSize ≤ a := by
  obtain ⟨i, -, rfl⟩ := List.mem_map.mp here
  obtain ⟨j, -, rfl⟩ := List.mem_map.mp there
  rcases Nat.lt_trichotomy i j with less | same | more
  · have := Nat.mul_le_mul_right objSize (Nat.succ_le_of_lt less)
    rw [Nat.succ_mul] at this
    exact Or.inl (by omega)
  · exact absurd (by rw [same]) other
  · have := Nat.mul_le_mul_right objSize (Nat.succ_le_of_lt more)
    rw [Nat.succ_mul] at this
    exact Or.inr (by omega)

theorem kva2slab_eq (aligned : page % PAGE_SIZE = 0) (above : page ≤ obj) (below : obj < page + PAGE_SIZE) :
    kva2slab obj = page := by
  simp only [kva2slab, PAGE_SIZE] at *
  omega

/-- Pages do not overlap. -/
theorem page_apart {other : Nat} (aligned : page % PAGE_SIZE = 0) (aligned' : other % PAGE_SIZE = 0)
    (ne : page ≠ other) : page + PAGE_SIZE ≤ other ∨ other + PAGE_SIZE ≤ page := by
  simp only [PAGE_SIZE] at *
  omega

namespace Inv

theorem free_object (inv : Inv s free parts fulls) (owned : page ∈ s.pages) (member : obj ∈ free page) :
    obj ∈ objects s.objSize page :=
  (inv.shared page owned).subset (List.mem_append_left _ member)

theorem live_object (inv : Inv s free parts fulls) (live : obj ∈ s.live) :
    obj ∈ objects s.objSize (kva2slab obj) :=
  (inv.shared _ (inv.home obj live)).subset
    (List.mem_append_right _ (List.mem_filter.mpr ⟨live, decide_eq_true rfl⟩))

theorem shared_nodup (inv : Inv s free parts fulls) (positive : 0 < s.objSize) (owned : page ∈ s.pages) :
    (free page ++ s.live.filter fun obj => kva2slab obj = page).Nodup :=
  (inv.shared page owned).nodup_iff.mpr (objects_nodup positive)

theorem live_nodup (inv : Inv s free parts fulls) (positive : 0 < s.objSize) : s.live.Nodup := by
  refine List.nodup_iff_count_le_one.mpr fun obj => ?_
  by_cases live : obj ∈ s.live
  · have here := (List.nodup_append.mp (inv.shared_nodup positive (inv.home obj live))).2.1
    have once := List.nodup_iff_count_le_one.mp here obj
    rwa [List.count_filter (p := fun other => kva2slab other = kva2slab obj) (decide_eq_true rfl)] at once
  · rw [List.count_eq_zero.mpr live]
    exact Nat.zero_le _

theorem few (inv : Inv s free parts fulls) (owned : page ∈ s.pages) : (free page).length ≤ PAGE_SIZE := by
  have all := (inv.shared page owned).length_eq
  rw [List.length_append, objects, List.length_map, List.length_range] at all
  have := Nat.div_le_self PAGE_SIZE s.objSize
  omega

theorem lists_nodup (inv : Inv s free parts fulls) : (parts ++ fulls).Nodup := inv.pages.nodup_iff.mpr inv.nodup

/-- A slab whose page stays as it is. -/
theorem keeps (inv : Inv s free parts fulls) (fits : Fits s.objSize) (positive : 0 < s.objSize) {m : Block}
    (owned : page ∈ s.pages) (same : ∀ i, page ≤ i → i < page + PAGE_SIZE → m i = s.memory i) :
    Slab m page (free page) (tailLink s.objSize page) := by
  refine (inv.slab page owned).congr (fun i above below => same i above ?_) fun obj inside i above below => ?_
  · simp only [PAGE_SIZE]
    omega
  · have place := mem_objects fits (inv.free_object owned inside)
    have wide := fits.above positive
    simp only [SIZEOF_SLAB] at place wide
    exact same i (by omega) (by omega)

/-- The free objects of a slab are apart from the objects in use. -/
theorem spaced (inv : Inv s free parts fulls) (fits : Fits s.objSize) (positive : 0 < s.objSize)
    (owned : page ∈ s.pages) :
    Spaced s page (free page) (tailLink s.objSize page) := by
  have wide := fits.above positive
  have nodup := inv.shared_nodup positive owned
  refine ⟨inv.slab page owned, (List.nodup_append.mp nodup).1, fun node inside => ?_, fun node inside obj live => ?_⟩
  · have place := mem_objects fits (inv.free_object owned inside)
    simp only [SIZEOF_SLAB] at wide
    omega
  · have here := inv.free_object owned inside
    have there := inv.live_object live
    simp only [SIZEOF_SLAB] at wide
    by_cases same : kva2slab obj = page
    · have other : obj ≠ node := by
        rintro rfl
        exact (List.disjoint_of_nodup_append nodup) inside (List.mem_filter.mpr ⟨live, decide_eq_true same⟩)
      rw [same] at there
      rcases objects_apart there here other with before | after
      · exact Or.inl before
      · exact Or.inr (by omega)
    · have place := mem_objects fits here
      have place' := mem_objects fits there
      rcases page_apart (inv.placed _ (inv.home obj live)).1 (inv.placed page owned).1 same with before | after
      · exact Or.inl (by omega)
      · exact Or.inr (by omega)

theorem live_apart (inv : Inv s free parts fulls) (fits : Fits s.objSize) (positive : 0 < s.objSize) :
    s.live.Pairwise fun a b => a + s.objSize ≤ b ∨ b + s.objSize ≤ a := by
  refine (inv.live_nodup positive).pairwise_of_forall_ne fun a here b there other => ?_
  have first := inv.live_object here
  have second := inv.live_object there
  by_cases same : kva2slab a = kva2slab b
  · exact objects_apart (same ▸ first) second other
  · have place := mem_objects fits first
    have place' := mem_objects fits second
    rcases page_apart (inv.placed _ (inv.home a here)).1 (inv.placed _ (inv.home b there)).1 same with before | after
    · exact Or.inl (by omega)
    · exact Or.inr (by omega)

/-- The objects of the other slabs are shared out as before. -/
theorem filter_cons {live : List Nat} (other : kva2slab obj ≠ page) :
    ((obj :: live).filter fun obj => kva2slab obj = page) = live.filter fun obj => kva2slab obj = page :=
  List.filter_cons_of_neg (by simpa using other)

/-- An object is taken from the slab at the head of the list. -/
theorem takeObject (inv : Inv s free parts fulls) (fits : Fits s.objSize) (positive : 0 < s.objSize) (page : Nat)
    (member : page ∈ parts) :
    ∃ obj t, Slub.takeObject s page = .ok (obj, t) ∧ obj ≠ 0 ∧ t.objSize = s.objSize ∧
      ∃ free parts fulls, Inv { t with live := obj :: t.live } free parts fulls := by
  have owned : page ∈ s.pages := inv.pages.subset (List.mem_append_left _ member)
  obtain ⟨aligned, mapped, top⟩ := inv.placed page owned
  obtain ⟨obj, rest, split⟩ := List.exists_cons_of_ne_nil (inv.parts page member)
  have slab := inv.slab page owned
  have few := inv.few owned
  rw [split] at slab few
  simp only [List.length_cons, PAGE_SIZE] at few
  obtain ⟨m, run, after, frame⟩ := takeObject_spec slab mapped (by omega)
  have mine : obj ∈ objects s.objSize page := inv.free_object owned (split ▸ List.mem_cons_self)
  have place := mem_objects fits mine
  have wide := fits.above positive
  simp only [SIZEOF_SLAB] at place wide
  have home : kva2slab obj = page := kva2slab_eq aligned (by omega) (by omega)
  refine ⟨obj, _, run, by omega, rfl, ?_⟩
  have shared : ∀ q ∈ s.pages, (Function.update free page rest q ++
      (obj :: s.live).filter fun obj => kva2slab obj = q).Perm (objects s.objSize q) := by
    intro q inside
    by_cases same : q = page
    · rw [same, Function.update_self, List.filter_cons_of_pos (by simpa using home)]
      refine List.perm_middle.trans ?_
      have all := inv.shared page owned
      rwa [split] at all
    · rw [Function.update_of_ne same, filter_cons (home.trans_ne (Ne.symm same))]
      exact inv.shared q inside
  have slabs : ∀ q ∈ s.pages, Slab m q (Function.update free page rest q) (tailLink s.objSize q) := by
    intro q inside
    by_cases same : q = page
    · rw [same, Function.update_self]
      exact after
    · rw [Function.update_of_ne same]
      refine inv.keeps fits positive inside fun i above below => frame i ?_
      rcases page_apart (inv.placed q inside).1 aligned same with before | behind
      · exact Or.inl (by omega)
      · simp only [PAGE_SIZE] at behind
        exact Or.inr (by omega)
  have homes : ∀ o ∈ obj :: s.live, kva2slab o ∈ s.pages := by
    rintro o (_ | ⟨_, inside⟩)
    · exact home ▸ owned
    · exact inv.home o inside
  have nodup := inv.lists_nodup
  by_cases last : rest = []
  · refine ⟨Function.update free page rest, parts.erase page, page :: fulls, ?_, ?_, inv.nodup, inv.placed, homes,
      slabs, shared, fun q inside => ?_, fun q inside => ?_⟩
    · rw [takenLinks, if_pos last]
      exact inv.lists.toFull member nodup
    · refine List.perm_middle.trans (List.Perm.trans ?_ inv.pages)
      exact (List.perm_cons_erase member).symm.append_right fulls
    · have other : q ≠ page := fun same => (List.nodup_append.mp nodup).1.not_mem_erase (same ▸ inside)
      rw [Function.update_of_ne other]
      exact inv.parts q (List.mem_of_mem_erase inside)
    · by_cases same : q = page
      · rw [same, Function.update_self]
        exact last
      · rw [Function.update_of_ne same]
        exact inv.fulls q (List.mem_of_ne_of_mem same inside)
  · refine ⟨Function.update free page rest, parts, fulls, ?_, inv.pages, inv.nodup, inv.placed, homes, slabs,
      shared, fun q inside => ?_, fun q inside => ?_⟩
    · rw [takenLinks, if_neg last]
      exact inv.lists
    · by_cases same : q = page
      · rw [same, Function.update_self]
        exact last
      · rw [Function.update_of_ne same]
        exact inv.parts q inside
    · have other : q ≠ page := fun same => List.disjoint_of_nodup_append nodup member (same ▸ inside)
      rw [Function.update_of_ne other]
      exact inv.fulls q inside

/-- A page of the buddy system becomes a slab with all its objects free. -/
theorem allocateSlab (inv : Inv s free parts fulls) (fits : Fits s.objSize) (positive : 0 < s.objSize)
    (fresh : Fresh s (.some page)) :
    ∃ t, Slub.allocateSlab s (.some page) = .ok (.some page, t) ∧ t.objSize = s.objSize ∧
      Inv t (Function.update free page (objects s.objSize page)) (page :: parts) fulls := by
  obtain ⟨aligned, mapped, top, new⟩ := fresh
  have wide := fits.above positive
  simp only [SIZEOF_SLAB] at wide
  obtain ⟨m, run, after, frame⟩ := allocateSlab_spec (fits.begins positive) (by omega) mapped top
  have off : page ∉ parts ++ fulls := fun inside => new (inv.pages.subset inside)
  have other : ∀ q ∈ s.pages, q ≠ page := fun q inside same => new (same ▸ inside)
  have nonempty : objects s.objSize page ≠ [] := by
    have : 0 < PAGE_SIZE / s.objSize := Nat.div_pos fits.1 positive
    simp only [objects, ne_eq, List.map_eq_nil_iff, List.range_eq_nil]
    omega
  refine ⟨_, run, rfl, inv.lists.add off, inv.pages.cons page, List.nodup_cons.mpr ⟨new, inv.nodup⟩, ?_,
    fun obj inside => List.mem_cons_of_mem _ (inv.home obj inside), ?_, ?_, ?_, ?_⟩
  · rintro q (_ | ⟨_, inside⟩)
    · exact ⟨aligned, mapped, top⟩
    · exact inv.placed q inside
  · rintro q (_ | ⟨_, inside⟩)
    · rw [Function.update_self]
      exact after
    · rw [Function.update_of_ne (other q inside)]
      refine inv.keeps fits positive inside fun i above below => frame i ?_
      rcases page_apart (inv.placed q inside).1 aligned (other q inside) with before | behind
      · exact Or.inl (by omega)
      · refine Or.inr ⟨by simp only [SIZEOF_SLAB, PAGE_SIZE] at *; omega, fun obj member => Or.inl ?_⟩
        have := mem_objects fits member
        omega
  · rintro q (_ | ⟨_, inside⟩)
    · have absent : (s.live.filter fun obj => kva2slab obj = page) = [] := by
        refine List.filter_eq_nil_iff.mpr fun obj inside => ?_
        simpa using other _ (inv.home obj inside)
      rw [Function.update_self, absent, List.append_nil]
    · rw [Function.update_of_ne (other q inside)]
      exact inv.shared q inside
  · rintro q (_ | ⟨_, inside⟩)
    · rw [Function.update_self]
      exact nonempty
    · rw [Function.update_of_ne fun same : q = page => off (List.mem_append_left _ (same ▸ inside))]
      exact inv.parts q inside
  · intro q inside
    rw [Function.update_of_ne fun same : q = page => off (List.mem_append_right _ (same ▸ inside))]
    exact inv.fulls q inside

theorem next_partialList (inv : Inv s free (page :: parts) fulls) :
    s.links.next .partialList = .slab page ∧ listEmpty s.links .partialList = false := by
  have ring : IsRing s.links .partialList (.slab page :: parts.map .slab) := inv.lists.ring _ (by simp [heads])
  refine ⟨ring.next_head_cons, ?_⟩
  rw [← Bool.not_eq_true, listEmpty_iff ring]
  simp

theorem freeList_empty (inv : Inv s free parts fulls) : listEmpty s.links .freeList = true :=
  (listEmpty_iff (inv.lists.ring .freeList (by simp [heads]))).mpr rfl

/-- An object is handed out, unless there is neither a free one nor a page for more. -/
theorem slubAlloc (inv : Inv s free parts fulls) (fits : Fits s.objSize) (positive : 0 < s.objSize) {page : Option Nat}
    (fresh : Fresh s page) :
    ∃ obj t, Slub.slubAlloc s page = .ok (obj, t) ∧ (obj = 0 ↔ Empty s ∧ page = none) ∧ t.objSize = s.objSize ∧
      ∃ free parts fulls, Inv { t with live := if obj = 0 then t.live else obj :: t.live } free parts fulls := by
  cases parts with
  | cons slab parts =>
      obtain ⟨next, nonempty⟩ := inv.next_partialList
      obtain ⟨obj, t, run, given, size, free', parts', fulls', after⟩ :=
        inv.takeObject fits positive slab List.mem_cons_self
      refine ⟨obj, t, ?_, ?_, size, free', parts', fulls', ?_⟩
      · rw [Slub.slubAlloc, nonempty, next]
        exact run
      · exact iff_of_false given fun all => Bool.false_ne_true (nonempty.symm.trans all.1.1)
      · rwa [if_neg given]
  | nil =>
      have empty : listEmpty s.links .partialList = true :=
        (listEmpty_iff (inv.lists.ring .partialList (by simp [heads]))).mpr rfl
      cases page with
      | none =>
          refine ⟨0, s, ?_, iff_of_true rfl ⟨⟨empty, inv.freeList_empty⟩, rfl⟩, rfl, free, [], fulls, inv⟩
          rw [Slub.slubAlloc, empty, inv.freeList_empty]
          rfl
      | some slab =>
          obtain ⟨u, allocated, size, made⟩ := inv.allocateSlab fits positive fresh
          obtain ⟨obj, t, run, given, size', free', parts', fulls', after⟩ :=
            made.takeObject (size ▸ fits) (size ▸ positive) slab List.mem_cons_self
          refine ⟨obj, t, ?_, iff_of_false given (fun all => nomatch all.2), size'.trans size, free', parts',
            fulls', ?_⟩
          · rw [Slub.slubAlloc, empty, inv.freeList_empty]
            simp only [not_true_eq_false, if_false, allocated, bind, Except.bind]
            exact run
          · rwa [if_neg given]

/-- A slab that was full is on the list of the others when an object comes back to it. -/
theorem givenLinks (inv : Inv s free parts fulls) (owned : page ∈ s.pages) (obj : Nat) :
    ∃ parts' fulls', OnLists (Slub.givenLinks s page (free page)) parts' fulls' ∧ (parts' ++ fulls').Perm s.pages ∧
      page ∈ parts' ∧ (∀ q ∈ parts', Function.update free page (obj :: free page) q ≠ []) ∧
      ∀ q ∈ fulls', Function.update free page (obj :: free page) q = [] := by
  have nodup := inv.lists_nodup
  rcases List.mem_append.mp (inv.pages.symm.subset owned) with member | member
  · have nonempty := inv.parts page member
    refine ⟨parts, fulls, ?_, inv.pages, member, fun q inside => ?_, fun q inside => ?_⟩
    · rw [Slub.givenLinks, if_neg nonempty]
      exact inv.lists
    · by_cases same : q = page
      · rw [same, Function.update_self]
        exact List.cons_ne_nil _ _
      · rw [Function.update_of_ne same]
        exact inv.parts q inside
    · have other : q ≠ page := fun same => List.disjoint_of_nodup_append nodup member (same ▸ inside)
      rw [Function.update_of_ne other]
      exact inv.fulls q inside
  · have empty := inv.fulls page member
    refine ⟨page :: parts, fulls.erase page, ?_, ?_, List.mem_cons_self, fun q inside => ?_, fun q inside => ?_⟩
    · rw [Slub.givenLinks, if_pos empty]
      exact inv.lists.toPartial member nodup
    · refine List.Perm.trans ?_ inv.pages
      exact List.perm_middle.symm.trans ((List.perm_cons_erase member).symm.append_left parts)
    · by_cases same : q = page
      · rw [same, Function.update_self]
        exact List.cons_ne_nil _ _
      · rw [Function.update_of_ne same]
        exact inv.parts q (List.mem_of_ne_of_mem same inside)
    · have other : q ≠ page := fun same => (List.nodup_append.mp nodup).2.1.not_mem_erase (same ▸ inside)
      rw [Function.update_of_ne other]
      exact inv.fulls q (List.mem_of_mem_erase inside)

/-- An object in use comes back to its slab, and a slab with all its objects free to the buddy system. -/
theorem slubFree (inv : Inv s free parts fulls) (fits : Fits s.objSize) (positive : 0 < s.objSize)
    (live : obj ∈ s.live) :
    ∃ t, Slub.slubFree s obj = .ok t ∧ t.objSize = s.objSize ∧
      ∃ free parts fulls, Inv { t with live := t.live.erase obj } free parts fulls := by
  generalize home : kva2slab obj = page
  have owned : page ∈ s.pages := home ▸ inv.home obj live
  obtain ⟨aligned, mapped, top⟩ := inv.placed page owned
  have mine : obj ∈ objects s.objSize page := home ▸ inv.live_object live
  have place := mem_objects fits mine
  have wide := fits.above positive
  have few := inv.few owned
  have spaced := inv.spaced fits positive owned
  simp only [SIZEOF_SLAB, PAGE_SIZE] at place wide few top
  obtain ⟨m, run, after, frame⟩ := slubFree_spec (inv.slab page owned) home mapped (by omega) place.1 (by omega)
    fun node inside => by
      have := spaced.apart node inside obj live
      omega
  have once := inv.live_nodup positive
  have shared : ∀ q ∈ s.pages, (Function.update free page (obj :: free page) q ++
      (s.live.erase obj).filter fun obj => kva2slab obj = q).Perm (objects s.objSize q) := by
    intro q inside
    refine List.Perm.trans ?_ (inv.shared q inside)
    by_cases same : q = page
    · have moved : (s.live.filter fun obj => kva2slab obj = page).Perm
          (obj :: (s.live.erase obj).filter fun obj => kva2slab obj = page) := by
        have split := (List.perm_cons_erase live).filter fun obj => decide (kva2slab obj = page)
        rwa [List.filter_cons_of_pos (by simpa using home)] at split
      rw [same, Function.update_self, List.cons_append]
      exact List.perm_middle.symm.trans (moved.symm.append_left _)
    · have split := (List.perm_cons_erase live).filter fun obj => decide (kva2slab obj = q)
      rw [filter_cons (home.trans_ne (Ne.symm same))] at split
      rw [Function.update_of_ne same]
      exact split.symm.append_left _
  have slabs : ∀ q ∈ s.pages,
      Slab m q (Function.update free page (obj :: free page) q) (tailLink s.objSize q) := by
    intro q inside
    by_cases same : q = page
    · rw [same, Function.update_self]
      exact after
    · rw [Function.update_of_ne same]
      refine inv.keeps fits positive inside fun i above below => ?_
      simp only [PAGE_SIZE] at below
      rcases page_apart (inv.placed q inside).1 aligned same with before | behind
      · simp only [PAGE_SIZE] at before
        exact frame i (Or.inl (by omega)) (Or.inl (by omega))
      · simp only [PAGE_SIZE] at behind
        exact frame i (Or.inr (by omega)) (Or.inr (by omega))
  have homes : ∀ o ∈ s.live.erase obj, kva2slab o ∈ s.pages := fun o inside =>
    inv.home o (List.mem_of_mem_erase inside)
  obtain ⟨parts', fulls', lists, pages, here, some', none'⟩ := inv.givenLinks owned obj
  have nodup : (parts' ++ fulls').Nodup := pages.nodup_iff.mpr inv.nodup
  refine ⟨_, run, by rw [given]; split <;> rfl, Function.update free page (obj :: free page), ?_⟩
  rw [given]
  split
  · rename_i all
    have gone : ∀ o ∈ s.live.erase obj, kva2slab o ≠ page := by
      intro o inside same
      have count := (shared page owned).length_eq
      rw [Function.update_self, List.length_append, List.length_cons, all, objects, List.length_map,
        List.length_range, Nat.add_eq_left, List.length_eq_zero_iff] at count
      exact List.filter_eq_nil_iff.mp count o inside (decide_eq_true same)
    have kept : ∀ {q}, q ∈ s.pages.erase page → q ∈ s.pages := List.mem_of_mem_erase
    refine ⟨parts'.erase page, fulls', lists.del here, ?_, inv.nodup.erase page,
      fun q inside => inv.placed q (kept inside),
      fun o inside => (List.mem_erase_of_ne (gone o inside)).mpr (homes o inside),
        fun q inside => slabs q (kept inside),
      fun q inside => shared q (kept inside), fun q inside => some' q (List.mem_of_mem_erase inside), none'⟩
    rw [← List.erase_append_left _ here]
    exact pages.erase page
  · exact ⟨parts', fulls', lists, pages, inv.nodup, inv.placed, homes, slabs, shared, some', none'⟩

end Inv

/-! ## Sound sizes -/

theorem initial_inv (initial : Initial objSize s) : Inv s (fun _ => []) [] [] ∧ s.objSize = objSize := by
  obtain ⟨memory, links, rfl⟩ := initial
  refine ⟨⟨⟨fun list head => ?_, ?_⟩, .nil, .nil, nofun, nofun, nofun, nofun, nofun, nofun⟩, rfl⟩
  · let l0 := listInit links .freeList
    have free := listInit_ring links Entry.freeList
    have parts := listInit_ring l0 Entry.partialList
    have free' := listInit_congr free (e := .partialList) (by simp)
    simp only [heads, List.mem_cons, List.not_mem_nil, or_false] at head
    rcases head with rfl | rfl | rfl
    · exact listInit_congr free' (by simp [entries])
    · exact listInit_congr parts (by simp [entries])
    · exact listInit_ring _ _
  · intro list head list' head' other
    simp only [heads, List.mem_cons, List.not_mem_nil, or_false] at head head'
    rcases head with rfl | rfl | rfl <;> rcases head' with rfl | rfl | rfl <;> simp_all [entries]

theorem step_inv (fits : Fits s.objSize) (positive : 0 < s.objSize) (step : Step s t)
    (inv : ∃ free parts fulls, Inv s free parts fulls) :
    t.objSize = s.objSize ∧ ∃ free parts fulls, Inv t free parts fulls := by
  obtain ⟨free, parts, fulls, inv⟩ := inv
  cases step with
  | alloc fresh run =>
      obtain ⟨obj, t, run', -, size, after⟩ := inv.slubAlloc fits positive fresh
      obtain ⟨rfl, rfl⟩ := Prod.mk.inj (Except.ok.inj (run.symm.trans run'))
      exact ⟨size, after⟩
  | free live run =>
      obtain ⟨t, run', size, after⟩ := inv.slubFree fits positive live
      obtain rfl := Except.ok.inj (run.symm.trans run')
      exact ⟨size, after⟩
  | use kept =>
      refine ⟨rfl, free, parts, fulls, inv.lists, inv.pages, inv.nodup, inv.placed, inv.home, fun page owned => ?_,
        inv.shared, inv.parts, inv.fulls⟩
      have spaced := inv.spaced fits positive owned
      have wide := fits.above positive
      simp only [SIZEOF_SLAB] at wide
      refine (inv.slab page owned).congr (fun i above below => ?_) fun node inside i above below => ?_
      · refine kept page owned i above (by simp only [PAGE_SIZE]; omega) fun obj live => ?_
        have place := mem_objects fits (inv.live_object live)
        simp only [SIZEOF_SLAB, PAGE_SIZE] at place
        by_cases same : kva2slab obj = page
        · exact Or.inl (by omega)
        · rcases page_apart (inv.placed _ (inv.home obj live)).1 (inv.placed page owned).1 same with before | behind
          · simp only [PAGE_SIZE] at before
            exact Or.inr (by omega)
          · simp only [PAGE_SIZE] at behind
            exact Or.inl (by omega)
      · have place := spaced.inside node inside
        have behind := spaced.behind node inside
        refine kept page owned i (by omega) (by omega) fun obj live => ?_
        rcases spaced.apart node inside obj live with before | after
        · exact Or.inr (by omega)
        · exact Or.inl (by omega)

theorem Inv.sound (inv : Inv s free parts fulls) (fits : Fits s.objSize) (positive : 0 < s.objSize)
    {ends : Nat → Prop} (tail : ∀ page, ends (tailLink s.objSize page)) : Sound ends s where
  apart := inv.live_apart fits positive
  inside := fun obj live => ⟨inv.home obj live, mem_objects fits (inv.live_object live)⟩
  slabs := fun page owned => ⟨free page, _, tail page, inv.spaced fits positive owned⟩
  lists := ⟨parts, fulls, inv.lists.ring .partialList (by simp [heads]), inv.lists.ring .fullList (by simp [heads]),
    inv.lists.ring .freeList (by simp [heads]), inv.pages, inv.nodup⟩
  allocs := fun _ fresh => by
    obtain ⟨obj, t, run, null, -⟩ := inv.slubAlloc fits positive fresh
    exact ⟨obj, t, run, null⟩
  frees := fun _ live => by
    obtain ⟨t, run, -⟩ := inv.slubFree fits positive live
    exact ⟨t, run⟩

theorem Sound.mono {ends ends' : Nat → Prop} (sound : Sound ends s) (weaker : ∀ last, ends last → ends' last) :
    Sound ends' s where
  apart := sound.apart
  inside := sound.inside
  slabs := fun page owned => by
    obtain ⟨free, last, tail, spaced⟩ := sound.slabs page owned
    exact ⟨free, last, weaker last tail, spaced⟩
  lists := sound.lists
  allocs := sound.allocs
  frees := sound.frees

theorem reached_inv (fits : Fits objSize) (positive : 0 < objSize) (reached : Reachable (Initial objSize) Step s) :
    s.objSize = objSize ∧ ∃ free parts fulls, Inv s free parts fulls := by
  refine reached.invariant (fun s => s.objSize = objSize ∧ ∃ free parts fulls, Inv s free parts fulls)
    (fun s initial => ⟨(initial_inv initial).2, _, _, _, (initial_inv initial).1⟩) ?_
  rintro s t ⟨size, inv⟩ step
  obtain ⟨same, after⟩ := step_inv (size ▸ fits) (size ▸ positive) step inv
  exact ⟨same.trans size, after⟩

/-! ## Sizes that do not fit -/

/-- A cache in a kernel that has just started. -/
def fresh (objSize : Nat) : Cache := slubCacheInit zeros ⟨id, id⟩ objSize

theorem Begin.wide (starts : Begin objSize) (positive : 0 < objSize) (small : objSize ≤ PAGE_SIZE) : 8 ≤ objSize := by
  obtain ⟨left, count⟩ : ∃ left, PAGE_SIZE / objSize = left + 1 :=
    Nat.exists_eq_succ_of_ne_zero (Nat.div_pos small positive).ne'
  have last := starts left (by omega)
  have all := Nat.div_add_mod PAGE_SIZE objSize
  have rest := Nat.mod_lt PAGE_SIZE positive
  rw [count, Nat.mul_succ, Nat.mul_comm] at all
  simp only [SIZEOF_SLAB, PAGE_SIZE] at last all rest
  omega

theorem slubAlloc_first (lists : OnLists s.links [page] []) (fresh : Option Nat) :
    slubAlloc s fresh = takeObject s page := by
  have ring : IsRing s.links .partialList [.slab page] := lists.ring .partialList (by simp [heads])
  have nonempty : listEmpty s.links .partialList = false := by
    rw [← Bool.not_eq_true, listEmpty_iff ring]
    simp
  rw [slubAlloc, nonempty, ring.next_head_cons]
  rfl

/-- The first objects of a slab have been handed out, one after the other. -/
structure Emptied (s : Cache) (page k : Nat) : Prop where
  lists : k < PAGE_SIZE / s.objSize → OnLists s.links [page] []
  slab : Slab s.memory page ((objects s.objSize page).drop k) (tailLink s.objSize page)

theorem Emptied.next {k : Nat} (emptied : Emptied s page k) (more : k < PAGE_SIZE / s.objSize) (mapped : page ≠ 0)
    (fresh : Option Nat) :
    ∃ t, slubAlloc s fresh = .ok (page + SIZEOF_SLAB + k * s.objSize, t) ∧ t.objSize = s.objSize ∧
      Emptied t page (k + 1) := by
  have count : (objects s.objSize page).length = PAGE_SIZE / s.objSize := by
    rw [objects, List.length_map, List.length_range]
  have split : (objects s.objSize page).drop k =
      (page + SIZEOF_SLAB + k * s.objSize) :: (objects s.objSize page).drop (k + 1) := by
    rw [List.drop_eq_getElem_cons (count ▸ more)]
    simp [objects]
  have slab := emptied.slab
  rw [split] at slab
  have bound : ((objects s.objSize page).drop (k + 1)).length < 2 ^ 64 - 1 := by
    have := Nat.div_le_self PAGE_SIZE s.objSize
    rw [List.length_drop, count]
    simp only [PAGE_SIZE] at this ⊢
    omega
  obtain ⟨m, run, after, -⟩ := takeObject_spec slab mapped bound
  have lists := emptied.lists more
  refine ⟨_, (slubAlloc_first lists fresh).trans run, rfl, fun left => ?_, after⟩
  · have unlike : (objects s.objSize page).drop (k + 1) ≠ [] := by
      simp only [ne_eq, List.drop_eq_nil_iff, count, not_le]
      exact left
    simp only [takenLinks, if_neg unlike]
    exact lists

end Ucore.Mm.Slub
