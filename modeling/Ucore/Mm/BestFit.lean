import Ucore.Mm.BestFitPmm
import Ucore.Mm.FirstFitRuns

/-! # Allocating and freeing by best fit

What the search finds, and what is left of the free list when pages are taken or given
back. The place of a freed block is found by the loop of the first-fit manager, with
its end of the list.
-/

namespace Ucore.Mm.BestFit

open Lib.Ring Lib.Extents Libs.Assert Libs.List DefaultPmm FirstFit FirstFitRuns BestFitPmm

variable {owned : Nat → Prop} {s : Pmm} {bs : List Extent}

/-! ## The first region -/

/-! ## Searching -/

/-- What the scan has found in the blocks it has passed. -/
def Found (n top : Nat) (passed : List Extent) (minSize : Nat) (page : Option Nat) : Prop :=
  (page = none ∧ minSize = top ∧ ∀ c ∈ passed, c.len < n) ∨
    ∃ b, page = some b.base ∧ minSize = b.len ∧ BestFit n passed b

/-- One more block, behind those passed. -/
theorem Found.next {n top minSize : Nat} {page : Option Nat} {passed : List Extent} {c : Extent}
    (found : Found n top passed minSize page) (behind : ∀ b ∈ passed, b.base ≤ c.base) (below : c.len < top) :
    if n ≤ c.len ∧ c.len < minSize then Found n top (passed ++ [c]) c.len (some c.base)
    else Found n top (passed ++ [c]) minSize page := by
  rcases found with ⟨none, size, short⟩ | ⟨b, some, size, best⟩
  · split
    · rename_i better
      refine Or.inr ⟨c, rfl, rfl, BestFit.replace better.1 fun a inside long => ?_⟩
      have := short a inside
      omega
    · rename_i worse
      refine Or.inl ⟨none, size, fun a inside => ?_⟩
      rcases List.mem_append.mp inside with inside | itself
      · exact short a inside
      · rw [List.mem_singleton.mp itself]
        omega
  · split
    · rename_i better
      refine Or.inr ⟨c, rfl, rfl, BestFit.replace better.1 fun a inside long => ?_⟩
      have := best.shortest a inside long
      omega
    · rename_i worse
      exact Or.inr ⟨b, some, size, best.keep (behind b best.member) fun long => by omega⟩

theorem findBest_spec {n top : Nat} (lo : List Extent) {hi : List Extent}
    (ring : IsRing s.links .freeList (entries (lo ++ hi))) (ordered : Ordered (lo ++ hi))
    (property : ∀ b ∈ hi, (s.pages b.base).property = b.len) (below : ∀ b ∈ hi, b.len < top) {fuel : Nat}
    (enough : hi.length < fuel) {minSize : Nat} {page : Option Nat} (found : Found n top lo minSize page) :
    ∃ minSize' page', findBest s n fuel ((entries lo).getLast?.getD .freeList) minSize page = .ok page' ∧
      Found n top (lo ++ hi) minSize' page' := by
  induction hi generalizing lo fuel minSize page with
  | nil =>
      obtain ⟨fuel, rfl⟩ := Nat.exists_eq_add_of_lt enough
      rw [entries_append] at ring
      refine ⟨minSize, page, by simp [findBest, ring.next_before], ?_⟩
      rwa [List.append_nil]
  | cons c hi ih =>
      obtain ⟨fuel, rfl⟩ := Nat.exists_eq_succ_of_ne_zero (Nat.ne_of_gt (Nat.zero_lt_of_lt enough))
      have shifted : lo ++ c :: hi = (lo ++ [c]) ++ hi := by simp
      have behind : ∀ b ∈ lo, b.base ≤ c.base := by
        intro b inside
        have := (Ordered.append_iff.mp ordered).2.2 b inside c (by simp)
        simp only [Extent.stop] at this
        omega
      have next := found.next behind (below c (by simp))
      have last : (entries (lo ++ [c])).getLast?.getD .freeList = .pageLink c.base := by simp
      have onward : ∀ {minSize : Nat} {page : Option Nat}, Found n top (lo ++ [c]) minSize page →
          ∃ minSize' page', findBest s n fuel (.pageLink c.base) minSize page = .ok page' ∧
            Found n top (lo ++ [c] ++ hi) minSize' page' := by
        intro minSize page found
        rw [← last]
        exact ih (lo ++ [c]) (shifted ▸ ring) (shifted ▸ ordered) (fun b inside => property b (by simp [inside]))
          (fun b inside => below b (by simp [inside])) (by simpa using enough) found
      rw [entries_append] at ring
      rw [findBest, ring.next_before, entries_cons, List.head?_cons, Option.getD_some, shifted]
      simp only [property c List.mem_cons_self]
      split
      · rename_i better
        rw [if_pos better] at next
        exact onward next
      · rename_i worse
        rw [if_neg worse] at next
        exact onward next

/-! ## Allocating -/

/-- Free pages are pages that have a descriptor. -/
theorem total_le_pageCount (list : FreeList owned s bs) (array : ∀ i, owned i → i < pageCount) :
    total bs ≤ pageCount := by
  have below : ∀ b ∈ bs, b.stop ≤ pageCount := by
    intro b member
    have positive := list.ordered.positive b member
    have last := array (b.base + b.len - 1) (list.managed b member _ (by simp only [Extent.mem_def]; omega))
    simp only [Extent.stop]
    omega
  have := list.ordered.total_le 0 (fun _ _ => Nat.zero_le _) below (Nat.zero_le _)
  omega

theorem findBest_found (list : FreeList owned s bs) (array : ∀ i, owned i → i < pageCount) (n : Nat) {fuel : Nat}
    (enough : bs.length < fuel) :
    ∃ page, findBest s n fuel .freeList (u32 (s.nrFree + 1)) none = .ok page ∧
      ((page = none ∧ ∀ c ∈ bs, c.len < n) ∨ ∃ b, page = some b.base ∧ BestFit n bs b) := by
  have size : pageCount = 32768 := by decide +kernel
  have bound := total_le_pageCount list array
  have top : u32 (s.nrFree + 1) = total bs + 1 := by rw [list.nrFree, u32_eq (by omega)]
  have below : ∀ b ∈ bs, b.len < total bs + 1 := fun b member => Nat.lt_succ_of_le (len_le_total member)
  have start : Found n (total bs + 1) [] (total bs + 1) none := Or.inl ⟨rfl, rfl, by simp⟩
  obtain ⟨minSize, page, run, found⟩ := findBest_spec [] list.ring list.ordered list.property below enough start
  refine ⟨page, top ▸ run, ?_⟩
  rcases found with ⟨none, -, short⟩ | ⟨b, some, -, best⟩
  · exact Or.inl ⟨none, short⟩
  · exact Or.inr ⟨b, some, best⟩

/-- Only descriptors of the block are written. -/
theorem takeFrom_frame {page n i : Nat} (first : i ≠ page) (head : i ≠ page + n) :
    (takeFrom s page n).pages i = s.pages i := by
  rw [takeFrom]
  split
  · simp [Function.update_of_ne first, Function.update_of_ne head]
  · simp [Function.update_of_ne first]

/-- Nothing is returned exactly if no block is long enough. Else it is the lowest of the
    shortest blocks that are, and what is left of it takes its place. -/
theorem bestFitAllocPages_best (list : FreeList owned s bs) (array : ∀ i, owned i → i < pageCount) {n : Nat}
    (positive : 0 < n) {fuel : Nat} (enough : bs.length < fuel) :
    (bestFitAllocPages fuel s n = .ok (none, s) ↔ ∀ b ∈ bs, b.len < n) ∧
    ((∃ b ∈ bs, n ≤ b.len) → ∃ lo b hi t, bs = lo ++ b :: hi ∧ BestFit n bs b ∧
      bestFitAllocPages fuel s n = .ok (some b.base, t) ∧ FreeList owned t (lo ++ (rest b n ++ hi)) ∧
      bestFitNrFreePages t = bestFitNrFreePages s - n ∧ ∀ i, i ∉ b → t.pages i = s.pages i) := by
  have refused : (∀ b ∈ bs, b.len < n) → bestFitAllocPages fuel s n = .ok (none, s) := by
    intro short
    rw [bestFitAllocPages, assert_bind positive]
    split
    · rfl
    · obtain ⟨page, run, ⟨rfl, -⟩ | ⟨b, rfl, best⟩⟩ := findBest_found list array n enough
      · rw [run]
        rfl
      · have := short b best.member
        have := best.fits
        omega
  have given : (∃ b ∈ bs, n ≤ b.len) → ∃ lo b hi t, bs = lo ++ b :: hi ∧ BestFit n bs b ∧
      bestFitAllocPages fuel s n = .ok (some b.base, t) ∧ FreeList owned t (lo ++ (rest b n ++ hi)) ∧
      bestFitNrFreePages t = bestFitNrFreePages s - n ∧ ∀ i, i ∉ b → t.pages i = s.pages i := by
    rintro ⟨c, inside, long⟩
    have room : ¬ s.nrFree < n := by
      have := len_le_total inside
      rw [list.nrFree]
      omega
    obtain ⟨page, run, ⟨-, short⟩ | ⟨b, rfl, best⟩⟩ := findBest_found list array n enough
    · have := short c inside
      omega
    · have fits := best.fits
      obtain ⟨lo, hi, rfl⟩ := List.append_of_mem best.member
      have taken := takeFrom_spec list positive fits
      refine ⟨lo, b, hi, takeFrom s b.base n, rfl, best, ?_, taken, ?_, fun i outside => ?_⟩
      · rw [bestFitAllocPages, assert_bind positive, if_neg room, run]
        rfl
      · have left := total_rest fits
        rw [bestFitNrFreePages, bestFitNrFreePages, taken.nrFree, list.nrFree]
        simp only [total_append, total_cons]
        omega
      · simp only [Extent.mem_def] at outside
        have first : i ≠ b.base := by omega
        by_cases head : i = b.base + n
        · have whole : n = b.len := by omega
          have property := list.property b best.member
          simp [takeFrom, property, whole, Function.update_of_ne first]
        · exact takeFrom_frame first head
  refine ⟨⟨fun run b member => ?_, refused⟩, given⟩
  by_contra long
  obtain ⟨-, b, -, t, -, -, other, -⟩ := given ⟨b, member, by omega⟩
  have same := Except.ok.inj (run.symm.trans other)
  cases congrArg Prod.fst same

/-! ## Freeing -/

/-- The links after a page was appended behind the last block, and then behind itself. -/
def appendTwice (links : Links Entry) (last base : Nat) : Links Entry :=
  listAdd (listAdd links (.pageLink last) (.pageLink base)) (.pageLink base) (.pageLink base)

section AppendTwice

variable {links : Links Entry} {last base : Nat}

theorem append_next (end' : links.next (.pageLink last) = .freeList) :
    (listAdd links (.pageLink last) (.pageLink base)).next (.pageLink base) = .freeList := by
  rw [listAdd, listAddAfter, Links.link_next, if_pos rfl, end']

theorem appendTwice_next (end' : links.next (.pageLink last) = .freeList) :
    (appendTwice links last base).next (.pageLink base) = .freeList := by
  rw [appendTwice, listAdd, listAddAfter, Links.link_next, if_pos rfl, append_next end']

theorem appendTwice_prev : (appendTwice links last base).prev (.pageLink base) = .pageLink base := by
  rw [appendTwice, listAdd, listAddAfter, Links.link_prev, if_pos rfl]

theorem appendTwice_prev_freeList (end' : links.next (.pageLink last) = .freeList) :
    (appendTwice links last base).prev .freeList = .pageLink base := by
  rw [appendTwice, listAdd, listAddAfter, Links.link_prev, if_neg (by simp), if_pos (append_next end').symm]

end AppendTwice

/-- Behind the last block the loop goes on from the block it has just appended. -/
theorem insertLoop_last {links : Links Entry} {base : Nat} (lo : List Extent) {mid : List Extent} {last : Extent}
    (ring : IsRing links .freeList (entries (lo ++ (mid ++ [last])))) (below : ∀ b ∈ mid, b.base < base)
    (behind : last.base < base) {fuel : Nat} (enough : mid.length + 2 < fuel) :
    insertLoop base fuel links ((entries lo).getLast?.getD .freeList) = .ok (appendTwice links last.base base) := by
  induction mid generalizing lo fuel with
  | nil =>
      obtain ⟨fuel, rfl⟩ := Nat.exists_eq_add_of_lt enough
      rw [List.nil_append, entries_append, entries_cons, entries_nil] at ring
      have end' := ring.next_last
      have other : last.base ≠ base := behind.ne
      have stay : ¬base < last.base := Nat.not_lt.mpr behind.le
      have appended : (listAdd links (.pageLink last.base) (.pageLink base)).next (.pageLink last.base) =
          .pageLink base := by
        simp [listAdd, listAddAfter, Links.link_next, other]
      have again : (appendTwice links last.base base).next (.pageLink base) = .freeList := appendTwice_next end'
      rw [appendTwice] at again
      rw [show ([] : List Extent).length + 2 + fuel + 1 = fuel + 1 + 1 + 1 by simp; omega]
      simp [insertLoop, ring.next_before, stay, end', appended, append_next end', again, appendTwice]
  | cons m mid ih =>
      obtain ⟨fuel, rfl⟩ := Nat.exists_eq_succ_of_ne_zero (Nat.ne_of_gt (Nat.zero_lt_of_lt enough))
      rw [List.length_cons] at enough
      have next := ih (lo ++ [m]) (by simpa using ring) (fun b inside => below b (by simp [inside]))
        (show mid.length + 2 < fuel by omega)
      rw [entries_append, List.cons_append, entries_cons] at ring
      have stay : ¬base < m.base := Nat.not_lt.mpr (below m (by simp)).le
      have inner : links.next (.pageLink m.base) ≠ .freeList := by
        rw [Ne, ring.next_eq_head_iff]
        simp
      rw [insertLoop, ring.next_before]
      simpa [stay, inner] using next

theorem insertBlock_last {m : Pmm} {base : Nat} {lo : List Extent} {last : Extent}
    (ring : IsRing m.links .freeList (entries (lo ++ [last]))) (behind : ∀ b ∈ lo ++ [last], b.base < base)
    {fuel : Nat} (enough : (lo ++ [last]).length + 2 < fuel) :
    insertBlock fuel m base = .ok { m with links := appendTwice m.links last.base base } := by
  have nonempty : ¬listEmpty m.links .freeList = true := by simp [listEmpty_iff ring]
  rw [List.length_append, List.length_singleton] at enough
  have loop := insertLoop_last [] ring (fun b inside => behind b (by simp [inside])) (behind last (by simp))
    (show lo.length + 2 < fuel by omega)
  rw [entries_nil, List.getLast?_nil, Option.getD_none] at loop
  rw [insertBlock, if_neg nonempty, loop]
  rfl

/-- A block freed behind the last free one becomes its own predecessor. -/
theorem bestFitFreePages_last {lo : List Extent} {last e : Extent} (list : FreeList owned s (lo ++ [last]))
    (positive : 0 < e.len) (small : e.len < 2 ^ 32) (behind : ∀ b ∈ lo ++ [last], b.base < e.base)
    (passes : ∀ i ∈ e, (s.pages i).pgReserved = false ∧ (s.pages i).pgProperty = false) {fuel : Nat}
    (enough : (lo ++ [last]).length + 2 < fuel) :
    ∃ t, bestFitFreePages fuel s e.base e.len = .ok t ∧ t.links.prev .freeList = .pageLink e.base ∧
      t.links.prev (.pageLink e.base) = .pageLink e.base := by
  have ring := list.ring
  rw [entries_append, entries_cons, entries_nil] at ring
  have end' := ring.next_last
  have reset := resetPages_spec (fun p => !p.pgReserved && !p.pgProperty)
    (fun p => ⟨0, false, false, p.property⟩) e s.pages (fun i inside => by simp [passes i inside])
  rw [bestFitFreePages, assert_bind positive, reset, ok_bind]
  generalize opened : markHead _ e.base e.len = m
  have links : m.links = s.links := opened ▸ rfl
  have property : (m.pages e.base).property = e.len := by
    rw [← opened]
    simp [markHead, u32_eq small]
  rw [insertBlock_last (links ▸ list.ring) behind enough, links, ok_bind]
  -- its neighbours, the head of the list and itself, are nothing to merge with
  simp only [mergePrev, mergeNext, appendTwice_prev, appendTwice_next end', property, Nat.add_eq_left,
    positive.ne', if_false]
  exact ⟨_, rfl, appendTwice_prev_freeList end', appendTwice_prev⟩

/-- No free list has a last page that is its own predecessor. -/
theorem self_not_freeList {t : Pmm} {p : Nat} (last : t.links.prev .freeList = .pageLink p)
    (self : t.links.prev (.pageLink p) = .pageLink p) (bs : List Extent) : ¬FreeList owned t bs := by
  intro list
  have onRing := list.ring.prev_mem List.mem_cons_self
  rw [last] at onRing
  exact list.ring.prev_ne (by simpa using onRing) self

/-- What freeing `e` should leave: the list of the runs of free pages, each with its length
    and its mark on its first page. -/
def Coalesced (owned : Nat → Prop) (s t : Pmm) (bs : List Extent) (e : Extent) : Prop :=
  ∃ bs', FreeList owned t bs' ∧ Runs bs' (fun i => (∃ b ∈ bs, i ∈ b) ∨ i ∈ e) ∧
    bestFitNrFreePages t = bestFitNrFreePages s + e.len ∧
    ∀ i, i ≠ e.base → i ∉ bs'.map Extent.base → (t.pages i).property = (s.pages i).property

theorem bestFitFreePages_coalesced {lo hi : List Extent} {e : Extent} (list : FreeList owned s (lo ++ hi))
    (gaps : (lo ++ hi).Pairwise fun a b => a.stop < b.base) (ordered : Ordered (lo ++ e :: hi))
    (owns : ∀ i ∈ e, owned i) (usable : ∀ i ∈ e, (s.pages i).pgReserved = false)
    (place : NotLast (lo ++ hi) e.base) (small : total (lo ++ hi) + e.len < 2 ^ 32) {fuel : Nat}
    (enough : lo.length < fuel) :
    ∃ t, bestFitFreePages fuel s e.base e.len = .ok t ∧ Coalesced owned s t (lo ++ hi) e := by
  obtain ⟨t, run, list', -, frame⟩ := defaultFreePages_spec list ordered owns usable place small enough
  have before : Runs (lo ++ hi) fun i => ∃ b ∈ lo ++ hi, i ∈ b := ⟨list.ordered.positive, gaps, fun _ => Iff.rfl⟩
  refine ⟨t, run, coalesce lo e hi, list', before.coalesce ordered, ?_, fun i away noHead => frame i away ?_⟩
  · rw [bestFitNrFreePages, bestFitNrFreePages, list'.nrFree, total_coalesce, list.nrFree, total_append]
    omega
  · rintro rfl
    refine noHead (List.mem_map.mpr ⟨(joinRight (joinLeft lo e).2 hi).1, by simp [coalesce], ?_⟩)
    cases hi with
    | nil => rfl
    | cons h hi =>
        rw [joinRight]
        split <;> rfl

/-- A freed block joins the runs around it exactly if the list is empty or has a block
    behind it. -/
theorem bestFitFreePages_coalesced_iff (list : FreeList owned s bs) (array : ∀ i, owned i → i < pageCount)
    (gaps : bs.Pairwise fun a b => a.stop < b.base) {e : Extent} (positive : 0 < e.len) (owns : ∀ i ∈ e, owned i)
    (usable : ∀ i ∈ e, (s.pages i).pgReserved = false) (apart : ∀ b ∈ bs, b.Apart e) {fuel : Nat}
    (enough : bs.length + 2 < fuel) :
    (∃ t, bestFitFreePages fuel s e.base e.len = .ok t ∧ Coalesced owned s t bs e) ↔
      bs = [] ∨ ∃ b ∈ bs, e.base < b.base := by
  have size : pageCount = 32768 := by decide +kernel
  have bound := total_le_pageCount list array
  have last := array (e.base + e.len - 1) (owns _ (by simp only [Extent.mem_def]; omega))
  constructor
  · rintro ⟨t, run, bs', list', -⟩
    by_contra place
    rw [not_or, not_exists] at place
    obtain ⟨lo, last, rfl⟩ := (List.eq_nil_or_concat bs).resolve_left place.1
    rw [List.concat_eq_append] at list enough place apart
    have behind : ∀ b ∈ lo ++ [last], b.base < e.base := by
      intro b member
      have under := place.2 b
      have := list.ordered.positive b member
      have := apart b member
      simp only [member, true_and, Extent.Apart, Extent.stop] at *
      omega
    have passes : ∀ i ∈ e, (s.pages i).pgReserved = false ∧ (s.pages i).pgProperty = false := by
      intro i inside
      refine ⟨usable i inside, Bool.eq_false_iff.mpr fun marked => ?_⟩
      obtain ⟨b, member, rfl⟩ := List.mem_map.mp ((list.heads i (owns i inside)).mp marked)
      exact absurd (behind b member) (by simp only [Extent.mem_def] at inside; omega)
    obtain ⟨u, run', first, self⟩ := bestFitFreePages_last list positive (by omega) behind passes enough
    obtain rfl : t = u := Except.ok.inj (run.symm.trans run')
    exact self_not_freeList first self bs' list'
  · intro place
    obtain ⟨lo, hi, rfl, ordered⟩ := list.ordered.split positive apart
    rw [List.length_append] at enough
    exact bestFitFreePages_coalesced list gaps ordered owns usable place (by omega) (by omega)

/-! ## Two free blocks -/

/-- Pages 2 to 4 and 8 to 9 are free. -/
def twoBlocks : Pmm where
  pages i := if i = 2 then ⟨0, false, true, 3⟩ else if i = 8 then ⟨0, false, true, 2⟩ else ⟨0, false, false, 0⟩
  links :=
    { next := fun e => if e = .freeList then .pageLink 2 else if e = .pageLink 2 then .pageLink 8 else .freeList
      prev := fun e => if e = .freeList then .pageLink 8 else if e = .pageLink 8 then .pageLink 2 else .freeList }
  nrFree := 5

theorem twoBlocks_list : FreeList (· < 16) twoBlocks [⟨2, 3⟩, ⟨8, 2⟩] where
  ring := ⟨by decide, by simp [Linked, twoBlocks]⟩
  ordered := ⟨by simp, by simp [Extent.stop]⟩
  property := by simp [twoBlocks]
  nrFree := rfl
  small := by decide
  managed b member i inside := by
    simp only [List.mem_cons, List.not_mem_nil, or_false] at member
    rcases member with rfl | rfl <;> simp only [Extent.mem_def] at inside <;> omega
  heads i _ := by
    simp only [twoBlocks]
    split
    · simp [*]
    · split <;> simp [*]

theorem twoBlocks_array (i : Nat) (owned : i < 16) : i < pageCount := by
  have size : pageCount = 32768 := by decide +kernel
  omega

/-- Two pages are taken from the second block, the shorter one. -/
theorem bestFitAllocPages_best_twoBlocks : 0 < 2 ∧
    (bestFitAllocPages 3 twoBlocks 2 = .ok (none, twoBlocks) ↔ ∀ b ∈ [⟨2, 3⟩, ⟨8, 2⟩], Extent.len b < 2) ∧
    ((∃ b ∈ [(⟨2, 3⟩ : Extent), ⟨8, 2⟩], 2 ≤ b.len) → ∃ lo b hi t, [⟨2, 3⟩, ⟨8, 2⟩] = lo ++ b :: hi ∧
      BestFit 2 [⟨2, 3⟩, ⟨8, 2⟩] b ∧ bestFitAllocPages 3 twoBlocks 2 = .ok (some b.base, t) ∧
      FreeList (· < 16) t (lo ++ (rest b 2 ++ hi)) ∧ bestFitNrFreePages t = bestFitNrFreePages twoBlocks - 2 ∧
      ∀ i, i ∉ b → t.pages i = twoBlocks.pages i) :=
  ⟨by decide, bestFitAllocPages_best twoBlocks_list twoBlocks_array (by decide) (by decide)⟩

/-- The three pages between the blocks join both. -/
theorem bestFitFreePages_coalesced_between :
    (∃ t, bestFitFreePages 5 twoBlocks 5 3 = .ok t ∧ Coalesced (· < 16) twoBlocks t [⟨2, 3⟩, ⟨8, 2⟩] ⟨5, 3⟩) ↔
      [(⟨2, 3⟩ : Extent), ⟨8, 2⟩] = [] ∨ ∃ b ∈ [(⟨2, 3⟩ : Extent), ⟨8, 2⟩], 5 < b.base := by
  refine bestFitFreePages_coalesced_iff (e := ⟨5, 3⟩) twoBlocks_list twoBlocks_array (by simp [Extent.stop])
    (by decide) (fun i inside => ?_) (fun i inside => ?_) (by decide) (by decide)
  · simp only [Extent.mem_def] at inside
    omega
  · simp only [Extent.mem_def] at inside
    have first : i ≠ 2 := by omega
    have second : i ≠ 8 := by omega
    simp [twoBlocks, first, second]

/-- Pages 10 and 11 touch the second block, and are not merged with it. -/
theorem freeBehindLast_not_coalesced :
    ¬∀ (owned : Nat → Prop) (s : Pmm) (bs : List Extent) (e : Extent) (fuel : Nat), FreeList owned s bs →
      (∀ i, owned i → i < pageCount) → bs.Pairwise (fun a b => a.stop < b.base) → 0 < e.len →
      (∀ i ∈ e, owned i) → (∀ i ∈ e, (s.pages i).pgReserved = false) → (∀ b ∈ bs, b.Apart e) →
      bs.length + 2 < fuel →
      ∃ t, bestFitFreePages fuel s e.base e.len = .ok t ∧ Coalesced owned s t bs e := by
  intro always
  have fresh : ∀ i ∈ (⟨10, 2⟩ : Extent), i < 16 ∧ (twoBlocks.pages i).pgReserved = false ∧
      (twoBlocks.pages i).pgProperty = false := by
    intro i inside
    simp only [Extent.mem_def] at inside
    have first : i ≠ 2 := by omega
    have second : i ≠ 8 := by omega
    exact ⟨by omega, by simp [twoBlocks, first, second], by simp [twoBlocks, first, second]⟩
  obtain ⟨t, run, bs', list, -⟩ := always (· < 16) twoBlocks [⟨2, 3⟩, ⟨8, 2⟩] ⟨10, 2⟩ 5 twoBlocks_list twoBlocks_array
    (by simp [Extent.stop]) (by decide) (fun i inside => (fresh i inside).1)
    (fun i inside => (fresh i inside).2.1) (by decide) (by decide)
  obtain ⟨u, run', first, self⟩ := bestFitFreePages_last (e := ⟨10, 2⟩)
    (show FreeList (· < 16) twoBlocks ([⟨2, 3⟩] ++ [⟨8, 2⟩]) from twoBlocks_list) (by decide) (by decide) (by decide)
      (fun i inside => (fresh i inside).2) (show 4 < 5 by decide)
  obtain rfl : t = u := Except.ok.inj (run.symm.trans run')
  exact self_not_freeList first self bs' list

end Ucore.Mm.BestFit
