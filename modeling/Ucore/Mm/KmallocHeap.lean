import Ucore.Mm.SlobHeap

/-! # The heap under `kmalloc`

The objects in use, each an extent of the small-object heap, the large ones with pages of
their own. They are apart from each other, from the free blocks and from the pages that the
page allocator still has.
-/

namespace Ucore.Mm.KmallocHeap

open Lib.Extents Libs.Assert Kmalloc SlobHeap

/-- A small object with its header, or a large one with the place of its record. -/
inductive Object
  | small (e : Extent)
  | large (record : Extent) (order page : Nat)
  deriving DecidableEq, Repr

namespace Object

/-- The units from the small-object heap. -/
def slob : Object → Extent
  | small e => e
  | large record _ _ => record

def pages : Object → Option Extent
  | small _ => none
  | large _ order page => some ⟨page * pageUnits, 2 ^ order * pageUnits⟩

def extents (o : Object) : List Extent := o.slob :: o.pages.toList

/-- The address that `kmalloc` returned. -/
def pointer : Object → Nat
  | small e => e.base + 1
  | large _ _ page => page * pageUnits

/-- The bytes behind the pointer. -/
def bytes : Object → Nat
  | small e => (e.len - 1) * SLOB_UNIT
  | large _ order _ => 2 ^ order * PAGE_SIZE

def bigBlock : Object → Option BigBlock
  | small _ => none
  | large record order page => some ⟨record.base, order, page * pageUnits⟩

/-- What the allocator has written down of the size. -/
def Sized (units : Nat → Nat) : Object → Prop
  | small e => 2 ≤ e.len ∧ units e.base = e.len
  | large record _ _ => record.len = slobUnits SIZEOF_BIGBLOCK

end Object

def extents (objs : List Object) : List Extent := objs.flatMap Object.extents

variable {σ : Type}

/-- The arena is the first free block. -/
structure Heap (M : PageAllocator σ) (s : Slob σ) (arena : Nat) (bs : List Extent) (objs : List Object) : Prop where
  list : FreeList s ⟨arena, 1⟩ bs
  sized : ∀ o ∈ objs, o.Sized s.units
  apart : (extents objs).Pairwise Extent.Apart
  higher : ∀ e ∈ extents objs, arena + 1 < e.base
  used : ∀ e ∈ extents objs, ∀ i ∈ e, ∀ b ∈ (⟨arena, 1⟩ : Extent) :: bs, i ∉ b
  owned : ∀ e ∈ bs ++ extents objs, ∀ i ∈ e, ¬M.Free s.pmm (i / pageUnits)
  above : ∀ q, M.Free s.pmm q → arena + 1 < q * pageUnits
  records : s.bigblocks.Perm (objs.filterMap Object.bigBlock)
  balance : total bs + total (extents objs) = M.held s.pmm * pageUnits

variable {M : PageAllocator σ} {s t u : Slob σ} {arena page : Nat} {lo hi bs bs₁ : List Extent}
variable {objs : List Object} {e c : Extent} {n : Nat} {pmm : σ}

@[simp] theorem extents_cons (o : Object) (objs : List Object) : extents (o :: objs) = o.extents ++ extents objs :=
  List.flatMap_cons

@[simp] theorem mem_extents_small : c ∈ (Object.small e).extents ↔ c = e := List.mem_singleton

theorem total_small : total (Object.small e).extents = e.len := rfl

theorem total_large {order : Nat} : total (Object.large e order page).extents = e.len + 2 ^ order * pageUnits := by
  simp only [Object.extents, Object.slob, Object.pages, Option.toList_some, total_cons, total_nil, Nat.add_zero]

theorem pageUnits_pos : 0 < pageUnits := by decide

/-- The units of a page are those whose number leads back to it. -/
theorem mem_page {i : Nat} : i ∈ (⟨page * pageUnits, n * pageUnits⟩ : Extent) ↔
    page ≤ i / pageUnits ∧ i / pageUnits < page + n := by
  rw [Extent.mem_def, Nat.le_div_iff_mul_le pageUnits_pos, Nat.div_lt_iff_lt_mul pageUnits_pos, Nat.add_mul]

namespace Heap

theorem positive (heap : Heap M s arena bs objs) : ∀ e ∈ extents objs, 0 < e.len := by
  intro e inside
  obtain ⟨o, member, part⟩ := List.mem_flatMap.mp inside
  have sized := heap.sized o member
  cases o with
  | small e' =>
      obtain rfl := mem_extents_small.mp part
      exact Nat.zero_lt_of_lt sized.1
  | large record order page =>
      rcases List.mem_cons.mp part with rfl | own
      · rw [show e.len = slobUnits SIZEOF_BIGBLOCK from sized]
        decide
      · obtain rfl := List.mem_singleton.mp own
        exact Nat.mul_pos (Nat.two_pow_pos order) pageUnits_pos

/-- A page that was given is above the arena and apart from the free blocks. -/
theorem newPage (heap : Heap M s arena bs objs) (answer : M.allocPages s.pmm 1 = (some page, pmm)) :
    NewPage M s ⟨arena, 1⟩ bs page pmm := by
  obtain ⟨was, -⟩ := M.alloc_some answer
  have free : M.Free s.pmm page := was page le_rfl (Nat.lt_succ_self page)
  refine ⟨answer, heap.above page free, fun b inside => ?_⟩
  refine (Extent.apart_iff_disjoint (heap.list.positive b (List.mem_cons_of_mem _ inside)) pageUnits_pos).mpr ?_
  rintro i ⟨inBlock, inPage⟩
  have here : page ≤ i / pageUnits ∧ i / pageUnits < page + 1 := by
    rw [← mem_page, Nat.one_mul]
    exact inPage
  have same : i / pageUnits = page := Nat.le_antisymm (Nat.le_of_lt_succ here.2) here.1
  exact heap.owned b (List.mem_append_left _ inside) i inBlock (same ▸ free)

/-- The page allocator has handed something out, or refused. -/
theorem setPmm (heap : Heap M s arena bs objs) (less : ∀ q, M.Free pmm q → M.Free s.pmm q)
    (same : M.held pmm = M.held s.pmm) :
    Heap M { s with pmm := pmm } arena bs objs where
  list := ⟨heap.list.ring, heap.list.positive, heap.list.gaps, heap.list.units, heap.list.slobfree⟩
  sized := heap.sized
  apart := heap.apart
  higher := heap.higher
  used := heap.used
  owned := fun e inside i member free => heap.owned e inside i member (less _ free)
  above := fun q free => heap.above q (less q free)
  records := heap.records
  balance := same ▸ heap.balance

/-- A page was added to the free list. -/
theorem grow (heap : Heap M s arena bs objs) (answer : M.allocPages s.pmm 1 = (some page, pmm))
    (freed : Freed { s with pmm := pmm } ⟨arena, 1⟩ ⟨page * pageUnits, pageUnits⟩ bs u bs₁) :
    Heap M u arena bs₁ objs := by
  obtain ⟨was, gone⟩ := M.alloc_some answer
  have inPage : ∀ i, i ∈ (⟨page * pageUnits, pageUnits⟩ : Extent) ↔ i / pageUnits = page := by
    intro i
    have members : i ∈ (⟨page * pageUnits, 1 * pageUnits⟩ : Extent) ↔ _ := mem_page
    rw [Nat.one_mul] at members
    rw [members]
    omega
  have free : M.Free s.pmm page := was page le_rfl (Nat.lt_succ_self page)
  have away : ∀ e ∈ extents objs, ∀ i ∈ e, i / pageUnits ≠ page := by
    rintro e inside i member rfl
    exact heap.owned e (List.mem_append_right _ inside) i member free
  have blocks : ∀ i, (∃ b ∈ bs₁, i ∈ b) ↔ (∃ b ∈ bs, i ∈ b) ∨ i / pageUnits = page := by
    intro i
    rw [freed.covers, inPage]
  have still : ∀ q, M.Free u.pmm q → M.Free s.pmm q ∧ q ≠ page := by
    intro q isFree
    rw [freed.pmm] at isFree
    obtain ⟨before, other⟩ := gone q isFree
    exact ⟨before, fun same => other (same ▸ ⟨le_rfl, Nat.lt_succ_self _⟩)⟩
  refine ⟨freed.list, fun o member => ?_, heap.apart, heap.higher, fun e inside i member b block here => ?_,
    fun e inside i member isFree => ?_, fun q isFree => heap.above q (still q isFree).1, ?_, ?_⟩
  · have sized := heap.sized o member
    cases o with
    | small e =>
        have part : e ∈ extents objs := List.mem_flatMap.mpr ⟨_, member, mem_extents_small.mpr rfl⟩
        have start : e.base ∈ e := ⟨le_rfl, Nat.lt_add_of_pos_right (Nat.zero_lt_of_lt sized.1)⟩
        have same := freed.units e.base (fun inside => away e part _ start ((inPage _).mp inside))
          (heap.used e part _ start)
        exact ⟨sized.1, same.trans sized.2⟩
    | large record order page => exact sized
  · rcases List.mem_cons.mp block with rfl | block
    · exact heap.used e inside i member _ List.mem_cons_self here
    · rcases (blocks i).mp ⟨b, block, here⟩ with ⟨b', old, here'⟩ | new
      · exact heap.used e inside i member b' (List.mem_cons_of_mem _ old) here'
      · exact away e inside i member new
  · obtain ⟨before, other⟩ := still _ isFree
    rcases List.mem_append.mp inside with block | part
    · rcases (blocks i).mp ⟨e, block, member⟩ with ⟨b', old, here'⟩ | new
      · exact heap.owned b' (List.mem_append_left _ old) i here' before
      · exact other new
    · exact heap.owned e (List.mem_append_right _ part) i member before
  · rw [freed.bigblocks]
    exact heap.records
  · have balance := heap.balance
    have total := freed.total
    have held : M.held u.pmm = M.held s.pmm + 1 := by
      rw [freed.pmm]
      exact M.held_some answer
    dsimp only at total
    rw [total, held, Nat.add_mul]
    omega

/-- Some units of a free block become an object. -/
theorem take (heap : Heap M s arena (lo ++ c :: hi) objs) (least : 2 ≤ n) (fits : n ≤ c.len)
    (taken : Taken s ⟨arena, 1⟩ lo c hi n t) :
    Heap M t arena (lo ++ (rest c n ++ hi)) (.small ⟨c.base, n⟩ :: objs) := by
  have filled : 0 < n := Nat.zero_lt_of_lt least
  have member : c ∈ (⟨arena, 1⟩ : Extent) :: (lo ++ c :: hi) := by simp
  have part : ∀ i ∈ (⟨c.base, n⟩ : Extent), i ∈ c := fun i inside =>
    ⟨inside.1, inside.2.trans_le (Nat.add_le_add_left fits _)⟩
  have left : ∀ b ∈ lo ++ (rest c n ++ hi), ∀ i ∈ b, ∃ b' ∈ lo ++ c :: hi, i ∈ b' := by
    intro b inside i here
    rcases List.mem_append.mp inside with before | inside
    · exact ⟨b, List.mem_append_left _ before, here⟩
    · rcases List.mem_append.mp inside with piece | behind
      · have bounds := mem_rest.mp ⟨b, piece, here⟩
        exact ⟨c, by simp, (Nat.le_add_right ..).trans bounds.1, bounds.2⟩
      · exact ⟨b, by simp [behind], here⟩
  have fresh : ∀ b ∈ (⟨arena, 1⟩ : Extent) :: (lo ++ (rest c n ++ hi)), ∀ i ∈ (⟨c.base, n⟩ : Extent), i ∉ b := by
    intro b inside i taken here
    have ordered := heap.list.ordered
    have distinct : ∀ b ∈ (⟨arena, 1⟩ : Extent) :: (lo ++ hi), b ≠ c := by
      rintro b old rfl
      have bases := ordered.nodup_bases
      have again : b.base ∈ (((⟨arena, 1⟩ : Extent) :: lo) ++ hi).map Extent.base := List.mem_map_of_mem old
      have perm : (((⟨arena, 1⟩ : Extent) :: lo) ++ b :: hi).Perm (b :: (((⟨arena, 1⟩ : Extent) :: lo) ++ hi)) :=
        List.perm_middle
      exact (List.nodup_cons.mp ((perm.map Extent.base).nodup_iff.mp bases)).1 again
    by_cases piece : b ∈ rest c n
    · exact absurd (mem_rest.mp ⟨b, piece, here⟩).1 (Nat.not_le.mpr taken.2)
    · have old : b ∈ (⟨arena, 1⟩ : Extent) :: (lo ++ hi) := by
        simp only [List.mem_cons, List.mem_append, piece, false_or] at inside ⊢
        exact inside
      have here' : b ∈ (⟨arena, 1⟩ : Extent) :: (lo ++ c :: hi) := by
        simp only [List.mem_cons, List.mem_append] at old ⊢
        tauto
      have apart := ordered.apart here' member (distinct b old)
      exact (Extent.apart_iff_disjoint (ordered.positive b here') (ordered.positive c member)).mp apart i
        ⟨here, part i taken⟩
  have off : ∀ e ∈ extents objs, ∀ i ∈ e, i ∉ c := fun e inside i here => heap.used e inside i here c member
  refine ⟨taken.list, fun o inside => ?_, ?_, fun e inside => ?_, fun e inside i here b block => ?_,
    fun e inside i here => ?_, ?_, ?_, ?_⟩
  · rcases List.mem_cons.mp inside with rfl | old
    · exact ⟨least, taken.header⟩
    · have sized := heap.sized o old
      cases o with
      | small e =>
          have use : e ∈ extents objs := List.mem_flatMap.mpr ⟨_, old, mem_extents_small.mpr rfl⟩
          have start : e.base ∈ e := ⟨le_rfl, Nat.lt_add_of_pos_right (Nat.zero_lt_of_lt sized.1)⟩
          exact ⟨sized.1, (taken.units _ (off e use _ start)).trans sized.2⟩
      | large record order page => exact sized
  · rw [extents_cons]
    refine List.pairwise_cons.mpr ⟨fun e inside => ?_, heap.apart⟩
    refine (Extent.apart_iff_disjoint filled (heap.positive e inside)).mpr ?_
    rintro i ⟨new, here⟩
    exact off e inside i here (part i new)
  · rw [extents_cons] at inside
    rcases List.mem_append.mp inside with new | old
    · obtain rfl := mem_extents_small.mp new
      exact (List.pairwise_cons.mp heap.list.gaps).1 c (by simp)
    · exact heap.higher e old
  · rw [extents_cons] at inside
    rcases List.mem_append.mp inside with new | old
    · obtain rfl := mem_extents_small.mp new
      exact fresh b block i here
    · intro inBlock
      rcases List.mem_cons.mp block with rfl | block
      · exact heap.used e old i here _ List.mem_cons_self inBlock
      · obtain ⟨b', was, here'⟩ := left b block i inBlock
        exact heap.used e old i here b' (List.mem_cons_of_mem _ was) here'
  · rw [taken.pmm]
    rw [extents_cons] at inside
    rcases List.mem_append.mp inside with block | use
    · obtain ⟨b', was, here'⟩ := left e block i here
      exact heap.owned b' (List.mem_append_left _ was) i here'
    · rcases List.mem_append.mp use with new | old
      · obtain rfl := mem_extents_small.mp new
        exact heap.owned c (by simp) i (part i here)
      · exact heap.owned e (List.mem_append_right _ old) i here
  · rw [taken.pmm]
    exact heap.above
  · rw [taken.bigblocks]
    exact heap.records
  · have balance := heap.balance
    have cut := total_rest fits
    rw [taken.pmm]
    simp only [total_append, total_cons, extents_cons, total_small] at balance ⊢
    omega

/-- Nothing depends on the order in which the objects are listed. -/
theorem reorder {objs' : List Object} (heap : Heap M s arena bs objs) (perm : objs.Perm objs') :
    Heap M s arena bs objs' := by
  have parts : (extents objs).Perm (extents objs') := perm.flatMap_right Object.extents
  have units : total (extents objs) = total (extents objs') := (parts.map Extent.len).sum_eq
  exact ⟨heap.list, fun o inside => heap.sized o (perm.mem_iff.mpr inside),
    parts.pairwise heap.apart fun apart => apart.symm,
    fun e inside => heap.higher e (parts.mem_iff.mpr inside), fun e inside => heap.used e (parts.mem_iff.mpr inside),
    fun e inside => heap.owned e ((parts.append_left bs).mem_iff.mpr inside), heap.above,
    heap.records.trans (perm.filterMap _), units ▸ heap.balance⟩

/-- The pages of a large object are there, with its record. -/
theorem attach {order : Nat} (heap : Heap M s arena bs (.small e :: objs)) (record : e.len = slobUnits SIZEOF_BIGBLOCK)
    (answer : M.allocPages s.pmm (2 ^ order) = (some page, pmm)) :
    Heap M { s with pmm := pmm, bigblocks := ⟨e.base, order, page * pageUnits⟩ :: s.bigblocks } arena bs
      (.large e order page :: objs) := by
  obtain ⟨was, gone⟩ := M.alloc_some answer
  generalize whole : (⟨page * pageUnits, 2 ^ order * pageUnits⟩ : Extent) = p
  have inPages : ∀ i ∈ p, M.Free s.pmm (i / pageUnits) := by
    intro i inside
    rw [← whole, mem_page] at inside
    exact was _ inside.1 inside.2
  have filled : 0 < p.len := by
    rw [← whole]
    exact Nat.mul_pos (Nat.two_pow_pos order) pageUnits_pos
  have shape : extents (.large e order page :: objs) = e :: p :: extents objs := by
    rw [← whole]
    rfl
  have shape' : extents (.small e :: objs) = e :: extents objs := rfl
  have old : ∀ f ∈ e :: extents objs, f.Apart p := by
    intro f inside
    refine (Extent.apart_iff_disjoint (heap.positive f inside) filled).mpr ?_
    rintro i ⟨here, new⟩
    exact heap.owned f (List.mem_append_right _ inside) i here (inPages i new)
  obtain ⟨first, others⟩ := List.pairwise_cons.mp heap.apart
  refine ⟨⟨heap.list.ring, heap.list.positive, heap.list.gaps, heap.list.units, heap.list.slobfree⟩,
    fun o inside => ?_, ?_,
    fun f inside => ?_, fun f inside i here b block => ?_, fun f inside i here isFree => ?_,
    fun q isFree => heap.above q (gone q isFree).1, ?_, ?_⟩
  · rcases List.mem_cons.mp inside with rfl | inside
    · exact record
    · exact heap.sized o (List.mem_cons_of_mem _ inside)
  · rw [shape]
    refine List.pairwise_cons.mpr ⟨fun f inside => ?_, List.pairwise_cons.mpr ⟨fun f inside => ?_, others⟩⟩
    · rcases List.mem_cons.mp inside with rfl | inside
      · exact old e List.mem_cons_self
      · exact first f inside
    · exact (old f (List.mem_cons_of_mem _ inside)).symm
  · rw [shape] at inside
    rcases List.mem_cons.mp inside with rfl | inside
    · exact heap.higher f List.mem_cons_self
    · rcases List.mem_cons.mp inside with rfl | inside
      · rw [← whole]
        exact heap.above page (was page le_rfl (Nat.lt_add_of_pos_right (Nat.two_pow_pos order)))
      · exact heap.higher f (List.mem_cons_of_mem _ inside)
  · rw [shape] at inside
    by_cases new : f = p
    · subst new
      intro inBlock
      have free := inPages i here
      rcases List.mem_cons.mp block with rfl | block
      · have low := heap.above _ free
        have high : i < arena + 1 := inBlock.2
        exact absurd (low.trans_le (Nat.div_mul_le_self i pageUnits)) (Nat.not_lt.mpr high.le)
      · exact heap.owned b (List.mem_append_left _ block) i inBlock free
    · exact heap.used f (by simpa [new] using inside) i here b block
  · obtain ⟨before, other⟩ := gone _ isFree
    rw [shape] at inside
    by_cases new : f = p
    · rw [new, ← whole, mem_page] at here
      exact other here
    · have inside' : f ∈ bs ++ extents (.small e :: objs) := by
        rw [shape']
        simp only [List.mem_append, List.mem_cons, new, false_or] at inside ⊢
        exact inside
      exact heap.owned f inside' i here before
  · exact heap.records.cons _
  · have balance := heap.balance
    simp only [extents_cons, total_append, total_small, total_large] at balance ⊢
    rw [M.held_some answer, Nat.add_mul]
    omega

/-- The units of an object are free again. -/
theorem release (heap : Heap M s arena bs (.small e :: objs)) (freed : Freed s ⟨arena, 1⟩ e bs t bs₁) :
    Heap M t arena bs₁ objs := by
  have shape : extents (.small e :: objs) = e :: extents objs := rfl
  obtain ⟨first, others⟩ := List.pairwise_cons.mp heap.apart
  have inside : ∀ {f}, f ∈ extents objs → f ∈ extents (.small e :: objs) := List.mem_cons_of_mem e
  have here : e ∈ extents (.small e :: objs) := List.mem_cons_self
  have filled := heap.positive e here
  have off : ∀ f ∈ extents objs, ∀ i ∈ f, i ∉ e := fun f member i inF inE =>
    (Extent.apart_iff_disjoint filled (heap.positive f (inside member))).mp (first f member) i ⟨inE, inF⟩
  refine ⟨freed.list, fun o member => ?_, others, fun f member => heap.higher f (inside member),
    fun f member i inF b block inB => ?_, fun f member i inF isFree => ?_,
      fun q isFree => heap.above q (freed.pmm ▸ isFree),
    ?_, ?_⟩
  · have sized := heap.sized o (List.mem_cons_of_mem _ member)
    cases o with
    | small f =>
        have part : f ∈ extents objs := List.mem_flatMap.mpr ⟨_, member, mem_extents_small.mpr rfl⟩
        have start : f.base ∈ f := ⟨le_rfl, Nat.lt_add_of_pos_right (Nat.zero_lt_of_lt sized.1)⟩
        exact ⟨sized.1, (freed.units _ (off f part _ start) (heap.used f (inside part) _ start)).trans sized.2⟩
    | large record order page => exact sized
  · rcases List.mem_cons.mp block with rfl | block
    · exact heap.used f (inside member) i inF _ List.mem_cons_self inB
    · rcases (freed.covers i).mp ⟨b, block, inB⟩ with ⟨b', old, inB'⟩ | new
      · exact heap.used f (inside member) i inF b' (List.mem_cons_of_mem _ old) inB'
      · exact off f member i inF new
  · rw [freed.pmm] at isFree
    rcases List.mem_append.mp member with block | use
    · rcases (freed.covers i).mp ⟨f, block, inF⟩ with ⟨b', old, inB'⟩ | new
      · exact heap.owned b' (List.mem_append_left _ old) i inB' isFree
      · exact heap.owned e (List.mem_append_right _ here) i new isFree
    · exact heap.owned f (List.mem_append_right _ (inside use)) i inF isFree
  · rw [freed.bigblocks]
    exact heap.records
  · have balance := heap.balance
    have total := freed.total
    simp only [extents_cons, total_append, total_small] at balance
    rw [freed.pmm]
    omega

/-- A record that is found is that of a large object. -/
theorem find_object {block : Nat} {bb : BigBlock} (heap : Heap M s arena bs objs)
    (found : s.bigblocks.find? (·.pages = block) = some bb) :
    ∃ record order page, .large record order page ∈ objs ∧ bb = ⟨record.base, order, page * pageUnits⟩ ∧
      page * pageUnits = block := by
  have member := heap.records.mem_iff.mp (List.mem_of_find?_eq_some found)
  have pages : bb.pages = block := by simpa using List.find?_some found
  obtain ⟨o, inside, same⟩ := List.mem_filterMap.mp member
  cases o with
  | small e => exact absurd same (Option.some_ne_none bb).symm
  | large record order page =>
      obtain rfl := Option.some.inj same
      exact ⟨record, order, page, inside, rfl, pages⟩

theorem start_mem {record : Extent} {order : Nat} (member : .large record order page ∈ objs) :
    ∃ p ∈ extents objs, page * pageUnits ∈ p := by
  refine ⟨⟨page * pageUnits, 2 ^ order * pageUnits⟩, List.mem_flatMap.mpr
    ⟨_, member, by simp [Object.extents, Object.pages]⟩, ?_⟩
  exact ⟨le_rfl, Nat.lt_add_of_pos_right (Nat.mul_pos (Nat.two_pow_pos order) pageUnits_pos)⟩

/-- No record has the address of a small object, not even if that begins a page. -/
theorem find_small (heap : Heap M s arena bs (.small e :: objs)) :
    s.bigblocks.find? (·.pages = e.base + 1) = none := by
  by_contra found
  obtain ⟨bb, found⟩ := Option.ne_none_iff_exists'.mp found
  obtain ⟨record, order, page, member, -, start⟩ := heap.find_object found
  have old : .large record order page ∈ objs := (List.mem_cons.mp member).resolve_left Object.noConfusion
  obtain ⟨p, part, here⟩ := start_mem old
  rw [start] at here
  have least : 2 ≤ e.len := (heap.sized _ List.mem_cons_self).1
  have inside : e.base + 1 ∈ e := ⟨Nat.le_succ _, Nat.add_lt_add_left least _⟩
  have apart := (List.pairwise_cons.mp heap.apart).1 p part
  have positive := heap.positive p (List.mem_cons_of_mem _ part)
  exact (Extent.apart_iff_disjoint (Nat.zero_lt_of_lt least) positive).mp apart _ ⟨inside, here⟩

theorem find_large {order : Nat} (heap : Heap M s arena bs (.large e order page :: objs)) :
    s.bigblocks.find? (·.pages = page * pageUnits) = some ⟨e.base, order, page * pageUnits⟩ := by
  have member : ⟨e.base, order, page * pageUnits⟩ ∈ s.bigblocks := heap.records.mem_iff.mpr List.mem_cons_self
  obtain ⟨bb, found⟩ := Option.isSome_iff_exists.mp
    (List.find?_isSome.mpr ⟨_, member, decide_eq_true rfl⟩ : (s.bigblocks.find? (·.pages = page * pageUnits)).isSome)
  obtain ⟨record, order', page', inside, rfl, start⟩ := heap.find_object found
  rw [found]
  rcases List.mem_cons.mp inside with same | old
  · obtain ⟨rfl, rfl, rfl⟩ := Object.large.inj same
    rfl
  · obtain ⟨p, part, here⟩ := start_mem old
    rw [start] at here
    obtain ⟨q, own, first⟩ : ∃ q ∈ (Object.large e order page).pages.toList, page * pageUnits ∈ q :=
      ⟨_, List.mem_singleton_self _, le_rfl, Nat.lt_add_of_pos_right
        (Nat.mul_pos (Nat.two_pow_pos order) pageUnits_pos)⟩
    obtain rfl := List.mem_singleton.mp own
    have parts := (List.pairwise_cons.mp heap.apart).2
    have apart := (List.pairwise_cons.mp parts).1 p part
    have filled : 0 < 2 ^ order * pageUnits := Nat.mul_pos (Nat.two_pow_pos order) pageUnits_pos
    have positive := heap.positive p (List.mem_cons_of_mem _ (List.mem_cons_of_mem _ part))
    exact absurd ⟨first, here⟩ ((Extent.apart_iff_disjoint filled positive).mp apart _)

end Heap

/-! ## `slob_alloc` on the heap -/

/-- What a request for `n` units leaves the page allocator with, if it is met. -/
def stock (M : PageAllocator σ) (bs : List Extent) (n : Nat) (pmm : σ) : Option σ :=
  if ∃ b ∈ bs, n ≤ b.len then some pmm
  else
    match M.allocPages pmm 1 with
    | (none, _) => none
    | (some _, pmm) => some pmm

theorem rest_length (lo hi : List Extent) (c : Extent) (n : Nat) :
    (lo ++ (rest c n ++ hi)).length ≤ (lo ++ c :: hi).length := by
  rw [rest]
  split
  · simp
  · simp

theorem slobAlloc_heap {size : Nat} (heap : Heap M s arena bs objs) (checked : size + SLOB_UNIT < PAGE_SIZE)
    (least : 2 ≤ slobUnits size) {fuel : Nat} (enough : 2 * bs.length + 4 ≤ fuel) :
    (∃ base t bs', slobAlloc M fuel size 0 s = .ok (some base, t) ∧
      stock M bs (slobUnits size) s.pmm = some t.pmm ∧ bs'.length ≤ bs.length + 1 ∧
      Heap M t arena bs' (.small ⟨base, slobUnits size⟩ :: objs)) ∨
    stock M bs (slobUnits size) s.pmm = none ∧
      ∃ t, slobAlloc M fuel size 0 s = .ok (none, t) ∧ Heap M t arena bs objs := by
  obtain ⟨page, pmm, answer⟩ : ∃ page pmm, M.allocPages s.pmm 1 = (page, pmm) := ⟨_, _, rfl⟩
  have fresh : ∀ p, page = some p → NewPage M s ⟨arena, 1⟩ bs p pmm := by
    rintro p rfl
    exact heap.newPage answer
  rcases slobAlloc_spec heap.list checked (Nat.zero_lt_of_lt least) least answer fresh enough with
    ⟨u, lo, c, hi, t, run, stocked, fits, taken⟩ | ⟨full, refused, run⟩
  · left
    generalize split : lo ++ c :: hi = bs₁ at stocked
    cases stocked with
    | asItWas room =>
        subst split
        refine ⟨c.base, t, _, run, ?_, ?_, heap.take least fits taken⟩
        · rw [stock, if_pos room, taken.pmm]
        · exact (rest_length lo hi c _).trans (Nat.le_succ _)
    | grown full fresh freed =>
        subst split
        refine ⟨c.base, t, _, run, ?_, (rest_length lo hi c _).trans freed.length,
          (heap.grow fresh.given freed).take least fits taken⟩
        have absent : ¬∃ b ∈ bs, slobUnits size ≤ b.len := by
          rintro ⟨b, member, room⟩
          exact absurd room (Nat.not_le.mpr (full b member))
        rw [stock, if_neg absent, fresh.given, taken.pmm, freed.pmm]
  · right
    subst refused
    have nothing : ¬∃ b ∈ bs, slobUnits size ≤ b.len := by
      rintro ⟨b, member, room⟩
      exact absurd room (Nat.not_le.mpr (full b member))
    refine ⟨?_, _, run, heap.setPmm (M.alloc_none answer) (M.held_none answer)⟩
    rw [stock, if_neg nothing, answer]

theorem slobFree_heap {size : Nat} (heap : Heap M s arena bs (.small e :: objs))
    (sized : size ≠ 0 → slobUnits size = e.len) {fuel : Nat} (enough : bs.length + 1 ≤ fuel) :
    ∃ t bs', slobFree fuel e.base size s = .ok t ∧ t.bigblocks = s.bigblocks ∧ Heap M t arena bs' objs := by
  have here : e ∈ extents (.small e :: objs) := List.mem_cons_self
  have filled := heap.positive e here
  have length : if size ≠ 0 then slobUnits size = e.len else s.units e.base = e.len := by
    split
    · rename_i given
      exact sized given
    · exact (heap.sized _ List.mem_cons_self).2
  have apart : ∀ b ∈ bs, b.Apart e := by
    intro b block
    refine (Extent.apart_iff_disjoint (heap.list.positive b (List.mem_cons_of_mem _ block)) filled).mpr ?_
    rintro i ⟨inB, inE⟩
    exact heap.used e here i inE b (List.mem_cons_of_mem _ block) inB
  obtain ⟨t, bs', run, freed⟩ := slobFree_spec heap.list length filled (heap.higher e here) apart enough
  exact ⟨t, bs', run, freed.bigblocks, heap.release freed⟩

/-! ## `kmalloc` -/

/-- The units of a small object, with its header. -/
def objectUnits (size : Nat) : Nat := slobUnits (size + SLOB_UNIT)

theorem objectUnits_ge {size : Nat} (least : 1 ≤ size) : 2 ≤ objectUnits size := by
  simp only [objectUnits, slobUnits, SLOB_UNIT]
  omega

theorem kmalloc_small {size : Nat} (heap : Heap M s arena bs objs) (least : 1 ≤ size)
    (small : size + SLOB_UNIT + SLOB_UNIT < PAGE_SIZE) {fuel : Nat} (enough : 2 * bs.length + 4 ≤ fuel) :
    (∃ e t bs', kmalloc M fuel size s = .ok (some (e.base + 1), t) ∧ e.len = objectUnits size ∧
      Heap M t arena bs' (.small e :: objs)) ∨
    ∃ t, kmalloc M fuel size s = .ok (none, t) ∧ Heap M t arena bs objs := by
  have under : size < PAGE_SIZE - SLOB_UNIT := by omega
  rw [kmalloc, if_pos under]
  rcases slobAlloc_heap heap small (objectUnits_ge least) enough with
    ⟨base, t, bs', run, -, -, heap'⟩ | ⟨-, t, run, heap'⟩
  · exact .inl ⟨_, t, bs', bind_ok.mpr ⟨_, run, rfl⟩, rfl, heap'⟩
  · exact .inr ⟨t, bind_ok.mpr ⟨_, run, rfl⟩, heap'⟩

/-- Sizes that `kmalloc` takes for small and `slob_alloc` does not. -/
theorem kmalloc_between {size : Nat} (large : PAGE_SIZE ≤ size + SLOB_UNIT + SLOB_UNIT)
    (small : size + SLOB_UNIT < PAGE_SIZE) (fuel : Nat) : kmalloc M fuel size s = .error .assertion := by
  have under : size < PAGE_SIZE - SLOB_UNIT := by omega
  have fails : slobAlloc M fuel (size + SLOB_UNIT) 0 s = .error .assertion := by
    rw [slobAlloc, assert, if_neg (Nat.not_lt.mpr large)]
    rfl
  rw [kmalloc, if_pos under, fails]
  rfl

/-- The page allocator does not give what a large object takes. -/
def Refused (M : PageAllocator σ) (bs : List Extent) (size : Nat) (pmm : σ) : Prop :=
  ∀ pmm', stock M bs (slobUnits SIZEOF_BIGBLOCK) pmm = some pmm' →
    (M.allocPages pmm' (2 ^ findOrder (toInt size))).1 = none

theorem kmalloc_large {size : Nat} (heap : Heap M s arena bs objs) (large : PAGE_SIZE ≤ size + SLOB_UNIT)
    {fuel : Nat} (enough : 2 * bs.length + 4 ≤ fuel) :
    (¬Refused M bs size s.pmm ∧ ∃ e page t bs', kmalloc M fuel size s = .ok (some (page * pageUnits), t) ∧
      Heap M t arena bs' (.large e (findOrder (toInt size)) page :: objs)) ∨
    Refused M bs size s.pmm ∧ ∃ t bs', kmalloc M fuel size s = .ok (none, t) ∧
      Heap M t arena bs' objs := by
  have many : ¬size < PAGE_SIZE - SLOB_UNIT := by omega
  have checked : SIZEOF_BIGBLOCK + SLOB_UNIT < PAGE_SIZE := by decide
  have least : 2 ≤ slobUnits SIZEOF_BIGBLOCK := by decide
  rw [kmalloc, if_neg many]
  rcases slobAlloc_heap heap checked least enough with
    ⟨base, t, bs', run, stocked, longer, heap'⟩ | ⟨refused, t, run, heap'⟩
  · rw [run, ok_bind]
    dsimp only
    generalize answer : M.allocPages t.pmm (2 ^ findOrder (toInt size)) = given
    obtain ⟨pages, pmm⟩ := given
    rw [slobGetFreePages, answer]
    cases pages with
    | some page =>
        refine .inl ⟨fun refused => ?_, _, page, _, bs', rfl, heap'.attach rfl answer⟩
        have absent := refused _ stocked
        rw [answer] at absent
        exact Option.some_ne_none page absent
    | none =>
        right
        refine ⟨fun pmm' given => ?_, ?_⟩
        · obtain rfl := Option.some.inj (stocked.symm.trans given)
          rw [answer]
        · have recorded : SIZEOF_BIGBLOCK ≠ 0 → slobUnits SIZEOF_BIGBLOCK = slobUnits SIZEOF_BIGBLOCK := fun _ => rfl
          obtain ⟨v, bs'', free, -, heap''⟩ := slobFree_heap
            (heap'.setPmm (M.alloc_none answer) (M.held_none answer)) recorded (show bs'.length + 1 ≤ fuel by omega)
          refine ⟨v, bs'', ?_, heap''⟩
          dsimp only at free ⊢
          rw [free]
          rfl
  · right
    refine ⟨fun pmm' given => ?_, t, bs, ?_, heap'⟩
    · rw [refused] at given
      exact absurd given (Option.some_ne_none pmm').symm
    · rw [run]
      rfl

/-! ## `ksize` -/

theorem ksize_small (heap : Heap M s arena bs (.small e :: objs)) :
    ksize s (e.base + 1) = e.len * SLOB_UNIT % 2 ^ 32 := by
  have nothing : (if (e.base + 1) % pageUnits = 0 then s.bigblocks.find? (·.pages = e.base + 1) else none) = none := by
    rw [heap.find_small, ite_self]
  rw [ksize, nothing]
  dsimp only
  rw [Nat.add_sub_cancel, (heap.sized _ List.mem_cons_self).2]

theorem ksize_large {order : Nat} (heap : Heap M s arena bs (.large e order page :: objs)) :
    ksize s (page * pageUnits) = PAGE_SIZE <<< order % 2 ^ 32 := by
  rw [ksize, if_pos (Nat.mul_mod_left page pageUnits), heap.find_large]

end Ucore.Mm.KmallocHeap
