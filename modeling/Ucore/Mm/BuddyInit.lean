import Ucore.Mm.BuddyRuns

/-! # What `buddy_init_memmap` hands out

One order is chosen for the whole region, and blocks of that order are cut until the
region is used up. The last block ends where the region ends only if the order divides
the number of pages.
-/

namespace Ucore.Mm.BuddyInit

open Lib.Ring Lib.Extents Libs.Assert Libs.List BuddyPmm BuddyBlocks BuddyRuns

/-- The first pages of the blocks cut in a number of turns, the last one first. -/
def cutBlocks (base o turns : Nat) : List Nat := (List.range turns).reverse.map fun i => base + i * 2 ^ o

theorem cutBlocks_succ (base o turns : Nat) :
    cutBlocks base o (turns + 1) = (base + turns * 2 ^ o) :: cutBlocks base o turns := by
  simp [cutBlocks, List.range_succ]

theorem mem_cutBlocks {base o turns p : Nat} : p ∈ cutBlocks base o turns ↔ ∃ i < turns, p = base + i * 2 ^ o := by
  simp [cutBlocks, eq_comm]

/-- The loop has put so many blocks of the order on its list and none on another one. -/
structure Cut (base o turns : Nat) (s : Buddy) : Prop where
  ring : IsRing s.links (.freeList o) ((cutBlocks base o turns).map .pageLink)
  others : ∀ o' ≤ MAX_ORDER, o' ≠ o → IsRing s.links (.freeList o') []
  count : s.nrFree o = turns
  none : ∀ o' ≤ MAX_ORDER, o' ≠ o → s.nrFree o' = 0
  property : ∀ p ∈ cutBlocks base o turns, (s.pages p).property = 2 ^ o ∧ (s.pages p).pgProperty = true

theorem buddyInit_cut (raw : Buddy) (base : Nat) {o : Nat} (known : o ≤ MAX_ORDER) :
    Cut base o 0 (buddyInit raw) where
  ring := listInit_rings _ _ _ (Or.inl (List.mem_range.mpr (by omega)))
  others o' known' _ := listInit_rings _ _ _ (Or.inl (List.mem_range.mpr (by omega)))
  count := by simp [buddyInit, known]
  none o' known' _ := by simp [buddyInit, known']
  property p member := by simp [cutBlocks] at member

/-- One turn: the fields of the page are reset and its block goes on the list. -/
theorem Cut.turn {base o turns : Nat} {s : Buddy} (cut : Cut base o turns s) (room : turns + 1 < 2 ^ 64)
    (page : Page) : Cut base o (turns + 1)
      (addBlock (s.setPage (base + turns * 2 ^ o) page) o (base + turns * 2 ^ o)) := by
  have positive := Nat.two_pow_pos o
  have fresh : base + turns * 2 ^ o ∉ cutBlocks base o turns := by
    rw [mem_cutBlocks]
    rintro ⟨i, before, same⟩
    have := Nat.eq_of_mul_eq_mul_right positive (Nat.add_left_cancel same)
    omega
  have offRing : Entry.pageLink (base + turns * 2 ^ o) ∉
      Entry.freeList o :: (cutBlocks base o turns).map .pageLink := by
    simpa using fresh
  refine ⟨?_, fun o' known other => ?_, ?_, fun o' known other => ?_, fun p member => ?_⟩
  · rw [cutBlocks_succ, List.map_cons]
    exact cut.ring.insert_first offRing
  · refine listAdd_frame cut.ring (cut.others o' known other) ?_ (by simp)
    simpa using other
  · simp only [addBlock, Buddy.setPage, Function.update_self, inc64, cut.count]
    exact Nat.mod_eq_of_lt room
  · simp only [addBlock, Buddy.setPage, Function.update_of_ne other]
    exact cut.none o' known other
  · rw [cutBlocks_succ] at member
    rcases List.mem_cons.mp member with rfl | old
    · simp [addBlock, Buddy.setPage]
    · have away : p ≠ base + turns * 2 ^ o := fun same => fresh (same ▸ old)
      simp only [addBlock, Buddy.setPage, Function.update_of_ne away]
      exact cut.property p old

/-- The loop stops at the first multiple of the block size that is not below `n`. -/
theorem initLoop_cut {base n o : Nat} (fits : n + 2 ^ o ≤ 2 ^ 64) (fuel : Nat) {turns : Nat} {s : Buddy}
    (cut : Cut base o turns s) (enough : n < turns + fuel) (below : turns * 2 ^ o < n + 2 ^ o) :
    ∃ t turns', initLoop base n o fuel (turns * 2 ^ o) s = .ok t ∧ Cut base o turns' t ∧
      n ≤ turns' * 2 ^ o ∧ turns' * 2 ^ o < n + 2 ^ o := by
  have positive := Nat.two_pow_pos o
  have grows := Nat.le_mul_of_pos_right turns positive
  induction fuel generalizing turns s with
  | zero =>
      have passed : (n + 1) * 2 ^ o ≤ turns * 2 ^ o := Nat.mul_le_mul_right _ enough
      have := Nat.le_mul_of_pos_right n positive
      rw [Nat.add_mul, Nat.one_mul] at passed
      omega
  | succ fuel ih =>
      rw [initLoop]
      split
      · rename_i more
        have next : turns * 2 ^ o + 2 ^ o = (turns + 1) * 2 ^ o := by rw [Nat.add_mul, Nat.one_mul]
        rw [next]
        apply ih (cut.turn (by omega) _) (by omega)
        · omega
        · exact Nat.le_mul_of_pos_right (turns + 1) positive
      · exact ⟨s, turns, rfl, cut, by omega, below⟩

/-- What the manager should hold after it was given a region. -/
def Tiles (region : Extent) (s : Buddy) : Prop :=
  ∃ free : Nat → List Nat,
    (∀ o ≤ MAX_ORDER, IsRing s.links (.freeList o) ((free o).map .pageLink)) ∧
    (∀ o ≤ MAX_ORDER, ∀ p ∈ free o, (s.pages p).property = 2 ^ o ∧ (s.pages p).pgProperty = true) ∧
    (∀ o ≤ MAX_ORDER, ∀ p ∈ free o, ∀ o' ≤ MAX_ORDER, ∀ p' ∈ free o', (o, p) ≠ (o', p') →
      (block o p).Apart (block o' p')) ∧
    (∀ o ≤ MAX_ORDER, ∀ p ∈ free o, region.base ≤ p ∧ p + 2 ^ o ≤ region.stop) ∧
    (∀ q ∈ region, ∃ o ≤ MAX_ORDER, ∃ p ∈ free o, q ∈ block o p) ∧
    buddyNrFreePages s = region.len

theorem Cut.nrFreePages {base o turns : Nat} {s : Buddy} (cut : Cut base o turns s) (known : o ≤ MAX_ORDER)
    (small : turns * 2 ^ o < 2 ^ 64) : buddyNrFreePages s = turns * 2 ^ o := by
  have single : ((List.range (MAX_ORDER + 1)).map fun i => s.nrFree i * 2 ^ i).sum = turns * 2 ^ o := by
    rw [← List.sum_toFinset _ List.nodup_range, List.toFinset_range]
    rw [Finset.sum_eq_single o, cut.count]
    · intro i inside other
      rw [cut.none i (Nat.lt_succ_iff.mp (Finset.mem_range.mp inside)) other, Nat.zero_mul]
    · intro outside
      exact absurd (Finset.mem_range.mpr (by omega)) outside
  rw [buddyNrFreePages, single, Nat.mod_eq_of_lt small]

theorem Cut.tiles {base o turns : Nat} {s : Buddy} (cut : Cut base o turns s) (known : o ≤ MAX_ORDER)
    (small : turns * 2 ^ o < 2 ^ 64) : Tiles ⟨base, turns * 2 ^ o⟩ s := by
  have positive := Nat.two_pow_pos o
  have only : ∀ o' p, p ∈ Function.update (fun _ => []) o (cutBlocks base o turns) o' →
      o' = o ∧ ∃ i < turns, p = base + i * 2 ^ o := by
    intro o' p member
    by_cases same : o' = o
    · rw [same, Function.update_self] at member
      exact ⟨same, mem_cutBlocks.mp member⟩
    · rw [Function.update_of_ne same] at member
      cases member
  have ends : ∀ i j, i < j → i * 2 ^ o + 2 ^ o ≤ j * 2 ^ o := by
    intro i j before
    calc i * 2 ^ o + 2 ^ o = (i + 1) * 2 ^ o := by rw [Nat.add_mul, Nat.one_mul]
      _ ≤ j * 2 ^ o := Nat.mul_le_mul_right _ before
  refine ⟨Function.update (fun _ => []) o (cutBlocks base o turns), ?_, ?_, ?_, ?_, ?_,
    cut.nrFreePages known small⟩
  · intro o' known'
    by_cases same : o' = o
    · rw [same, Function.update_self]
      exact cut.ring
    · rw [Function.update_of_ne same]
      exact cut.others o' known' same
  · intro o' _ p member
    obtain ⟨rfl, -⟩ := only o' p member
    rw [Function.update_self] at member
    exact cut.property p member
  · intro o' _ p member o'' _ p' member' different
    obtain ⟨rfl, i, _, rfl⟩ := only o' p member
    obtain ⟨rfl, j, _, rfl⟩ := only o'' p' member'
    rw [block_apart]
    rcases Nat.lt_trichotomy i j with before | same | after
    · exact Or.inl (by have := ends i j before; omega)
    · exact absurd (by rw [same]) different
    · exact Or.inr (by have := ends j i after; omega)
  · intro o' _ p member
    obtain ⟨rfl, i, inside, rfl⟩ := only o' p member
    have := ends i turns inside
    exact ⟨Nat.le_add_right _ _, show base + i * 2 ^ o' + 2 ^ o' ≤ base + turns * 2 ^ o' by omega⟩
  · intro q within
    have bounds : base ≤ q ∧ q < base + turns * 2 ^ o := within
    refine ⟨o, known, base + (q - base) / 2 ^ o * 2 ^ o, ?_, ?_⟩
    · rw [Function.update_self, mem_cutBlocks]
      exact ⟨(q - base) / 2 ^ o, Nat.div_lt_of_lt_mul (by rw [Nat.mul_comm]; omega), rfl⟩
    · have lower := Nat.div_mul_le_self (q - base) (2 ^ o)
      have upper := Nat.lt_div_mul_add (a := q - base) positive
      exact ⟨show base + (q - base) / 2 ^ o * 2 ^ o ≤ q by omega,
        show q < base + (q - base) / 2 ^ o * 2 ^ o + 2 ^ o by omega⟩

theorem lowerOrder_fits {n : Nat} (positive : 0 < n) (order : Nat) : 2 ^ lowerOrder n order ≤ n := by
  induction order with
  | zero => exact positive
  | succ order ih =>
      rw [lowerOrder]
      split
      · exact ih
      · omega

/-- The order chosen divides the number of pages only of a single block, or of blocks of
    the largest order. -/
theorem lowerOrder_dvd_iff {n : Nat} (positive : 0 < n) :
    2 ^ lowerOrder n MAX_ORDER ∣ n ↔ (∃ k < MAX_ORDER, n = 2 ^ k) ∨ 2 ^ MAX_ORDER ∣ n := by
  have fits := lowerOrder_fits positive MAX_ORDER
  rcases Nat.lt_or_eq_of_le (lowerOrder_le n MAX_ORDER) with lowered | top
  · have short := lt_lowerOrder lowered
    rw [Nat.pow_succ] at short
    constructor
    · rintro ⟨count, size⟩
      have one : count = 1 := by
        have above : 1 ≤ count := Nat.pos_of_ne_zero (by rintro rfl; omega)
        have under : count < 2 := Nat.lt_of_mul_lt_mul_left (size.symm.trans_lt short)
        omega
      exact Or.inl ⟨_, lowered, by rw [one, Nat.mul_one] at size; exact size⟩
    · rintro (⟨k, below, rfl⟩ | whole)
      · have lower := (Nat.pow_le_pow_iff_right (by decide)).mp fits
        exact Nat.pow_dvd_pow 2 lower
      · exact (Nat.pow_dvd_pow 2 (lowerOrder_le n MAX_ORDER)).trans whole
  · rw [top] at fits ⊢
    constructor
    · exact Or.inr
    · rintro (⟨k, below, rfl⟩ | whole)
      · have upper := (Nat.pow_le_pow_iff_right (by decide)).mp fits
        omega
      · exact whole

/-- A region is tiled exactly if it is one block or is made of blocks of the largest
    order. The bound says that the counter of the loop stays a 64-bit number. -/
theorem buddyInitMemmap_tiles_iff (raw : Buddy) (base n : Nat) (positive : 0 < n)
    (fits : n + 2 ^ MAX_ORDER ≤ 2 ^ 64) :
    ∃ t, buddyInitMemmap (buddyInit raw) base n = .ok t ∧
      (Tiles ⟨base, n⟩ t ↔ (∃ k < MAX_ORDER, n = 2 ^ k) ∨ 2 ^ MAX_ORDER ∣ n) := by
  have known := lowerOrder_le n MAX_ORDER
  have size : 2 ^ lowerOrder n MAX_ORDER ≤ 2 ^ MAX_ORDER := Nat.pow_le_pow_right (by decide) known
  have room : n + 2 ^ lowerOrder n MAX_ORDER ≤ 2 ^ 64 := by omega
  obtain ⟨t, turns, runs, cut, above, below⟩ := initLoop_cut room (n + 1) (buddyInit_cut raw base known)
    (by omega) (by have := Nat.two_pow_pos (lowerOrder n MAX_ORDER); omega)
  have small : turns * 2 ^ lowerOrder n MAX_ORDER < 2 ^ 64 := by omega
  rw [Nat.zero_mul] at runs
  refine ⟨t, assert_bind_ok.mpr ⟨positive, runs⟩, ?_⟩
  rw [← lowerOrder_dvd_iff positive]
  constructor
  · rintro ⟨-, -, -, -, -, -, total⟩
    rw [cut.nrFreePages known small] at total
    exact ⟨turns, by rw [Nat.mul_comm]; exact total.symm⟩
  · rintro ⟨count, whole⟩
    have positive := Nat.two_pow_pos (lowerOrder n MAX_ORDER)
    have used : turns * 2 ^ lowerOrder n MAX_ORDER = n := by
      rw [Nat.mul_comm] at whole
      have least : count ≤ turns := Nat.le_of_mul_le_mul_right (whole ▸ above) positive
      have most : turns < count + 1 :=
        Nat.lt_of_mul_lt_mul_right (a := 2 ^ lowerOrder n MAX_ORDER) (by rw [Nat.add_mul, ← whole]; omega)
      rw [show turns = count by omega, ← whole]
    have tiles := cut.tiles known small
    rwa [used] at tiles

/-- Descriptors as `page_init` leaves them. -/
def reserved : Buddy := ⟨fun _ => ⟨0, true, false, 0⟩, ⟨id, id⟩, fun _ => 0⟩

theorem buddyInitMemmap_tiles_pair : 0 < 2 ∧ 2 + 2 ^ MAX_ORDER ≤ 2 ^ 64 ∧
    ∃ t, buddyInitMemmap (buddyInit reserved) 5 2 = .ok t ∧
      (Tiles ⟨5, 2⟩ t ↔ (∃ k < MAX_ORDER, 2 = 2 ^ k) ∨ 2 ^ MAX_ORDER ∣ 2) :=
  ⟨by decide, by decide, buddyInitMemmap_tiles_iff reserved 5 2 (by decide) (by decide)⟩

/-- Three pages become two blocks of two pages: the manager counts four. -/
theorem threePages_overrun : ¬∀ (raw : Buddy) (base n : Nat), 0 < n → n + 2 ^ MAX_ORDER ≤ 2 ^ 64 →
    ∃ t, buddyInitMemmap (buddyInit raw) base n = .ok t ∧ Tiles ⟨base, n⟩ t := by
  intro always
  obtain ⟨t, runs, -, -, -, -, -, -, total⟩ := always reserved 0 3 (by decide) (by decide)
  have counted : (buddyInitMemmap (buddyInit reserved) 0 3).map buddyNrFreePages = .ok 4 := by decide +kernel
  rw [runs] at counted
  have four : buddyNrFreePages t = 4 := Except.ok.inj counted
  rw [four] at total
  cases total

end Ucore.Mm.BuddyInit
