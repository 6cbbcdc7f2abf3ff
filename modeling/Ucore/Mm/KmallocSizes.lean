import Ucore.Mm.KmallocHeap

/-! # The sizes that `kmalloc` serves

Three ranges meet: small objects with a header, sizes just below a page that neither way
takes, and large objects whose order `find_order` rounds down when the size is a little over
a power of two of pages.
-/

namespace Ucore.Mm.KmallocSizes

open Lib.Extents Libs.Assert Kmalloc SlobHeap KmallocHeap

/-! ## `find_order` -/

/-- Halving drops the remainder, so the order is that of a page and a byte. -/
theorem findOrder_le (n k : Nat) : findOrder n ≤ k ↔ n < 4097 * 2 ^ k := by
  fun_induction findOrder n generalizing k with
  | case1 n more ih =>
      cases k with
      | zero => omega
      | succ k =>
          rw [Nat.add_le_add_iff_right, ih, pow_succ]
          omega
  | case2 n few =>
      have pages := Nat.one_le_two_pow (n := k)
      have bound : 4097 * 1 ≤ 4097 * 2 ^ k := Nat.mul_le_mul_left 4097 pages
      omega

theorem toInt_small {size : Nat} (small : size < 2 ^ 31) : toInt size = size := by
  have low : -(((2 ^ 32 : Nat) : Int) / 2) ≤ size := by norm_num
  have high : (size : Int) < (((2 ^ 32 : Nat) : Int) + 1) / 2 := by
    norm_num
    omega
  unfold toInt
  rw [Int.bmod_eq_of_le low high, Int.toNat_natCast]

theorem toInt_lt (size : Nat) : toInt size < 2 ^ 31 := by
  have bound : Int.bmod size (2 ^ 32) < (((2 ^ 32 : Nat) : Int) + 1) / 2 := Int.bmod_lt (by decide)
  have half : (((2 ^ 32 : Nat) : Int) + 1) / 2 = 2 ^ 31 := by norm_num
  rw [half] at bound
  unfold toInt
  omega

/-- Where the pages of a large object hold all its bytes. -/
def Exact (size : Nat) : Prop := size < 2 ^ 31 ∧ ∀ k, ¬(4096 * 2 ^ k < size ∧ size < 4097 * 2 ^ k)

theorem exact_iff (size : Nat) : size ≤ 2 ^ findOrder (toInt size) * PAGE_SIZE ↔ Exact size := by
  have tight : ∀ k, findOrder (toInt size) ≤ k ↔ toInt size < 4097 * 2 ^ k := findOrder_le _
  generalize findOrder (toInt size) = order at tight ⊢
  have below := (tight order).mp le_rfl
  rw [Nat.mul_comm, PAGE_SIZE]
  constructor
  · intro fits
    have small : size < 2 ^ 31 := by
      by_contra huge
      have int := toInt_lt size
      have most : order ≤ 19 := (tight 19).mpr (by omega)
      have pages : 4096 * 2 ^ order ≤ 4096 * 2 ^ 19 := Nat.mul_le_mul_left _ (Nat.pow_le_pow_right (by decide) most)
      -- only `2 ^ 31` itself is left, which is negative as an `int`
      obtain rfl : size = 2 ^ 31 := by omega
      have absent : toInt (2 ^ 31) = 0 := by decide
      have zero : order ≤ 0 := (tight 0).mpr (by omega)
      rw [Nat.le_zero.mp zero] at fits
      omega
    refine ⟨small, fun k => ?_⟩
    rintro ⟨low, high⟩
    rw [toInt_small small] at tight
    have lower : order ≤ k := (tight k).mpr high
    have pages : 4096 * 2 ^ order ≤ 4096 * 2 ^ k := Nat.mul_le_mul_left _ (Nat.pow_le_pow_right (by decide) lower)
    omega
  · rintro ⟨small, away⟩
    rw [toInt_small small] at below
    by_contra short
    exact away order ⟨Nat.not_le.mp short, below⟩

theorem order_le (size : Nat) : findOrder (toInt size) ≤ 19 := by
  have small := toInt_lt size
  exact (findOrder_le _ _).mpr (by omega)

/-! ## Requests -/

variable {σ : Type} {M : PageAllocator σ} {s t : Slob σ} {arena size : Nat} {bs : List Extent}
variable {objs : List Object}

/-- With fuel enough `kmalloc` returns, and what it returns is null or an object of its own that is
    large enough, also by `ksize`. -/
def Serves (M : PageAllocator σ) (s : Slob σ) (arena : Nat) (objs : List Object) (size : Nat) : Prop :=
  ∃ enough, ∀ fuel ≥ enough, ∃ p t, kmalloc M fuel size s = .ok (p, t) ∧ ∀ block, p = some block →
    size ≤ ksize t block ∧
    ∃ o bs, o.pointer = block ∧ size ≤ o.bytes ∧ Heap M t arena bs (o :: objs)

theorem serves_small (heap : Heap M s arena bs objs) (least : 1 ≤ size)
    (small : size + SLOB_UNIT + SLOB_UNIT < PAGE_SIZE) : Serves M s arena objs size := by
  refine ⟨2 * bs.length + 4, fun fuel enough => ?_⟩
  rcases kmalloc_small heap least small enough with ⟨e, t, bs', run, length, heap'⟩ | ⟨t, run, -⟩
  · refine ⟨_, t, run, fun block returned => ?_⟩
    obtain rfl := Option.some.inj returned
    have units : size + SLOB_UNIT ≤ e.len * SLOB_UNIT ∧ e.len * SLOB_UNIT < PAGE_SIZE := by
      rw [length]
      simp only [objectUnits, slobUnits, SLOB_UNIT, PAGE_SIZE] at small ⊢
      omega
    refine ⟨?_, .small e, bs', rfl, ?_, heap'⟩
    · rw [ksize_small heap', Nat.mod_eq_of_lt (units.2.trans (by decide))]
      exact (Nat.le_add_right ..).trans units.1
    · simp only [Object.bytes, SLOB_UNIT] at units ⊢
      omega
  · exact ⟨none, t, run, fun block returned => absurd returned (Option.some_ne_none block).symm⟩

theorem not_serves_between (large : PAGE_SIZE ≤ size + SLOB_UNIT + SLOB_UNIT) (small : size + SLOB_UNIT < PAGE_SIZE) :
    ¬Serves M s arena objs size := by
  rintro ⟨enough, serves⟩
  obtain ⟨p, t, run, -⟩ := serves enough le_rfl
  rw [kmalloc_between large small] at run
  cases run

theorem serves_large (heap : Heap M s arena bs objs) (large : PAGE_SIZE ≤ size + SLOB_UNIT) :
    Serves M s arena objs size ↔ Refused M bs size s.pmm ∨ Exact size := by
  constructor
  · rintro ⟨enough, serves⟩
    obtain ⟨p, t, run, holds⟩ := serves (max enough (2 * bs.length + 4)) (le_max_left ..)
    rcases kmalloc_large heap large (le_max_right ..) with ⟨-, e, page, t', bs', run', heap'⟩ | ⟨refused, -⟩
    · right
      obtain ⟨rfl, rfl⟩ := Prod.mk.inj (Except.ok.inj (run.symm.trans run'))
      have bytes := (holds _ rfl).1
      rw [ksize_large heap', Nat.shiftLeft_eq, Nat.mul_comm] at bytes
      exact (exact_iff size).mp (bytes.trans (Nat.mod_le ..))
    · exact .inl refused
  · intro condition
    refine ⟨2 * bs.length + 4, fun fuel enough => ?_⟩
    rcases kmalloc_large heap large enough with ⟨given, e, page, t, bs', run, heap'⟩ | ⟨-, t, bs', run, -⟩
    · have exact : Exact size := condition.resolve_left given
      refine ⟨_, t, run, fun block returned => ?_⟩
      obtain rfl := Option.some.inj returned
      have bytes := (exact_iff size).mpr exact
      refine ⟨?_, .large e _ page, bs', rfl, bytes, heap'⟩
      have most : 2 ^ findOrder (toInt size) * PAGE_SIZE < 2 ^ 32 := by
        have pages : 2 ^ findOrder (toInt size) * PAGE_SIZE ≤ 2 ^ 19 * PAGE_SIZE :=
          Nat.mul_le_mul_right _ (Nat.pow_le_pow_right (by decide) (order_le size))
        exact pages.trans_lt (by decide)
      rw [ksize_large heap', Nat.shiftLeft_eq, Nat.mul_comm, Nat.mod_eq_of_lt most]
      exact bytes
    · exact ⟨none, t, run, fun block returned => absurd returned (Option.some_ne_none block).symm⟩

theorem kmalloc_serves_iff (heap : Heap M s arena bs objs) (least : 1 ≤ size) :
    Serves M s arena objs size ↔
      size < 4064 ∨ 4080 ≤ size ∧ (Refused M bs size s.pmm ∨
        size < 2 ^ 31 ∧ ∀ k, ¬(4096 * 2 ^ k < size ∧ size < 4097 * 2 ^ k)) := by
  have header : SLOB_UNIT = 16 := rfl
  have page : PAGE_SIZE = 4096 := rfl
  rcases Nat.lt_or_ge size 4064 with small | more
  · exact iff_of_true (serves_small heap least (by omega)) (.inl small)
  · rcases Nat.lt_or_ge size 4080 with between | large
    · refine iff_of_false (not_serves_between (by omega) (by omega)) ?_
      omega
    · rw [serves_large heap (by omega)]
      exact ⟨fun served => .inr ⟨large, served⟩, fun served => (served.resolve_left (Nat.not_lt.mpr more)).2⟩

/-- A page allocator that does not hand out a page again: the next page, and how many are held. -/
def unused : PageAllocator (Nat × Nat) where
  allocPages s n := (some s.1, (s.1 + n, s.2 + n))
  freePages s _ n := (s.1, s.2 - n)
  Free s q := s.1 ≤ q
  held := Prod.snd
  alloc_some := by
    rintro s t n p answer
    obtain ⟨rfl, rfl⟩ : s.1 = p ∧ (s.1 + n, s.2 + n) = t := by simpa using answer
    refine ⟨fun q low _ => low, fun q free => ⟨(Nat.le_add_right ..).trans free, ?_⟩⟩
    rintro ⟨-, high⟩
    exact absurd free (Nat.not_le.mpr high)
  alloc_none answer := absurd (congrArg Prod.fst answer) (Option.some_ne_none _)
  free_pages := Or.inl
  held_some answer := congrArg (Prod.snd ∘ Prod.snd) answer.symm
  held_none answer := absurd (congrArg Prod.fst answer) (Option.some_ne_none _)
  held_free := rfl

/-- The arena alone. -/
def booted : Slob (Nat × Nat) := ⟨fun _ => 1, id, 16, [], (1, 0)⟩

theorem booted_heap : Heap unused booted 16 [] [] where
  list := by
    refine ⟨⟨List.nodup_singleton 16, List.isChain_pair.mpr rfl⟩, ?_, List.pairwise_singleton .., ?_,
      List.mem_singleton_self 16⟩
    · simp
    · simp [booted]
  sized := by simp
  apart := .nil
  higher := by simp [extents]
  used := by simp [extents]
  owned := by simp [extents]
  above q free := by
    have pages : 1 * pageUnits ≤ q * pageUnits := Nat.mul_le_mul_right pageUnits free
    exact lt_of_lt_of_le (by decide) pages
  records := .refl _
  balance := rfl

theorem unused_granted (bs : List Extent) (size : Nat) (pmm : Nat × Nat) : ¬Refused unused bs size pmm := by
  intro refused
  obtain ⟨pmm', given⟩ : ∃ pmm', stock unused bs (slobUnits SIZEOF_BIGBLOCK) pmm = some pmm' := by
    rw [stock]
    split
    · exact ⟨_, rfl⟩
    · exact ⟨_, rfl⟩
  exact Option.some_ne_none _ (refused pmm' given)

theorem kmalloc_serves_iff_twoPages : Serves unused booted 16 [] 8192 :=
  (kmalloc_serves_iff booted_heap (by decide)).mpr (.inr ⟨by decide, .inr ⟨by decide, by
    rintro k ⟨low, high⟩
    have one : k < 1 := (Nat.pow_lt_pow_iff_right (by decide)).mp (show 2 ^ k < 2 ^ 1 by omega)
    obtain rfl := Nat.lt_one_iff.mp one
    omega⟩⟩)

/-- Just below a page an assertion fails; a byte more than two pages gets two pages. -/
theorem kmalloc_not_serves : ¬Serves unused booted 16 [] 4064 ∧ ¬Serves unused booted 16 [] 8193 := by
  refine ⟨not_serves_between (by decide) (by decide), fun serves => ?_⟩
  have exact := ((serves_large booted_heap (by decide)).mp serves).resolve_left (unused_granted _ _ _)
  exact exact.2 1 (by decide)

end Ucore.Mm.KmallocSizes
