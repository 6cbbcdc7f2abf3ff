import Ucore.Lib.Bytes
import Ucore.Fs.Error

/-! # Bitmaps

`bitmap.c`: an array of 32-bit words, of which a set bit stands for a free block. The
number of words, `nwords`, is the length of the array.
-/

namespace Ucore.Fs.Bitmaps

open Lib.Bytes Lib.Program Lib.Program.Prog Error

def WORD_BITS : Nat := 32

structure Bitmap where
  nbits : Nat
  map : List (BitVec 32)
  deriving DecidableEq, Repr

/-- `1 << offset` -/
def mask (offset : Nat) : BitVec 32 := BitVec.twoPow 32 offset

def SIZEOF_BITMAP : Nat := 16

/-- `nwords`, for a number of bits. -/
def words (nbits : Nat) : Nat := (nbits + WORD_BITS - 1) / WORD_BITS

/-- A new bitmap, all ones, with the leftover bits at the end marked in use; with the addresses of
    the structure and of the words. `kmalloc` fails where it returns a null pointer. The sums with
    `WORD_BITS` are of type `size_t`. -/
def bitmapCreate (kmalloc : Nat → Op σ Nat) (kfree : Nat → Op σ Unit) (nbits : Nat) : Op σ (Nat × Nat × Bitmap) := do
  ensure (nbits ≠ 0 ∧ nbits < (nbits + WORD_BITS) % 2 ^ 64) .bitmap
  let bitmap ← kmalloc SIZEOF_BITMAP
  let nwords := words nbits
  let start ← onError (kmalloc (4 * nwords)) (kfree bitmap)
  let map := List.replicate nwords (BitVec.allOnes 32)
  if nbits = nwords * WORD_BITS then pure (bitmap, start, ⟨nbits, map⟩)
  else
    let ix := nwords - 1
    let overbits := nbits - ix * WORD_BITS
    ensure (nbits / WORD_BITS = ix) .bitmap
    ensure (0 < overbits ∧ overbits < WORD_BITS) .bitmap
    let last := (List.range' overbits (WORD_BITS - overbits)).foldl (fun word offset => word ^^^ mask offset)
      (map.getD ix 0)
    pure (bitmap, start, ⟨nbits, map.set ix last⟩)

/-- Find the first set bit, clear it, and give its index back. -/
def bitmapAlloc : Op Bitmap Nat := do
  let bitmap ← get
  match bitmap.map.findIdx? (· ≠ 0) with
  | none => throw .noMem
  | some ix =>
      let word := bitmap.map.getD ix 0
      match (List.range WORD_BITS).find? fun offset => word &&& mask offset ≠ 0 with
      | none => stop .bitmap
      | some offset => do
          modify fun bitmap => { bitmap with map := bitmap.map.set ix (word ^^^ mask offset) }
          pure (ix * WORD_BITS + offset)

/-- The word and the mask of an index. -/
def bitmapTranslate (index : Nat) : Op Bitmap (Nat × BitVec 32) := do
  let bitmap ← get
  ensure (index < bitmap.nbits) .bitmap
  pure (index / WORD_BITS, mask (index % WORD_BITS))

def bitmapTest (index : Nat) : Op Bitmap Bool := do
  let (ix, mask) ← bitmapTranslate index
  let bitmap ← get
  pure (decide (bitmap.map.getD ix 0 &&& mask ≠ 0))

def bitmapFree (index : Nat) : Op Bitmap Unit := do
  let (ix, mask) ← bitmapTranslate index
  let bitmap ← get
  ensure (bitmap.map.getD ix 0 &&& mask = 0) .bitmap
  modify fun bitmap => { bitmap with map := bitmap.map.set ix (bitmap.map.getD ix 0 ||| mask) }

namespace Bitmap

/-- The bit of an index is set. -/
def free (bitmap : Bitmap) (index : Nat) : Bool :=
  (bitmap.map.getD (index / WORD_BITS) 0).getLsbD (index % WORD_BITS)

/-- How many bits are set. -/
def freeCount (bitmap : Bitmap) : Nat := Nat.count (fun i => bitmap.free i = true) bitmap.nbits

/-- The words hold the bits and no others. -/
def Full (bitmap : Bitmap) : Prop := bitmap.nbits = bitmap.map.length * WORD_BITS

end Bitmap

open Bitmap

theorem and_mask (word : BitVec 32) {offset : Nat} (inside : offset < WORD_BITS) :
    word &&& mask offset ≠ 0 ↔ word.getLsbD offset = true := by
  have bit : ∀ i, (word &&& mask offset).getLsbD i = (word.getLsbD i && decide (offset = i)) := by
    intro i
    have : offset < 32 := inside
    simp [mask, BitVec.getLsbD_twoPow, this]
  constructor
  · intro nonzero
    by_contra clear
    refine nonzero (BitVec.eq_of_getLsbD_eq fun i _ => ?_)
    rw [bit i]
    by_cases same : offset = i
    · subst same
      simpa using clear
    · simp [same]
  · intro set zero
    have := bit offset
    rw [zero] at this
    simp [set] at this

/-- Replace the word of an index. -/
theorem free_set (bitmap : Bitmap) (index : Nat) (word : BitVec 32) (value : Bool)
    (inside : index / WORD_BITS < bitmap.map.length)
    (bits : ∀ i < WORD_BITS, word.getLsbD i =
      if i = index % WORD_BITS then value else (bitmap.map.getD (index / WORD_BITS) 0).getLsbD i) :
    ({ bitmap with map := bitmap.map.set (index / WORD_BITS) word } : Bitmap).free =
      Function.update bitmap.free index value := by
  funext i
  have bound : i % WORD_BITS < WORD_BITS := Nat.mod_lt _ (by decide)
  have split : i / WORD_BITS = index / WORD_BITS → i % WORD_BITS = index % WORD_BITS → i = index := by
    intro high low
    rw [← Nat.div_add_mod i WORD_BITS, high, low, Nat.div_add_mod]
  unfold Bitmap.free
  by_cases same : i = index
  · subst same
    rw [Function.update_self, List.getD_eq_getElem?_getD, List.getElem?_set_self inside, Option.getD_some,
      bits _ bound, if_pos rfl]
  · rw [Function.update_of_ne same]
    by_cases high : i / WORD_BITS = index / WORD_BITS
    · rw [high, List.getD_eq_getElem?_getD, List.getElem?_set_self inside, Option.getD_some, bits _ bound,
        if_neg fun low => same (split high low)]
    · rw [List.getD_eq_getElem?_getD, List.getElem?_set_ne (Ne.symm high), ← List.getD_eq_getElem?_getD]

theorem free_lt {bitmap : Bitmap} (full : bitmap.Full) {index : Nat} (set : bitmap.free index = true) :
    index < bitmap.nbits := by
  by_contra outside
  have beyond : bitmap.map.length ≤ index / WORD_BITS := by
    rw [Bitmap.Full] at full
    exact (Nat.le_div_iff_mul_le (by decide)).mpr (by omega)
  simp [Bitmap.free, List.getElem?_eq_none beyond] at set

theorem div_lt_length {bitmap : Bitmap} (full : bitmap.Full) {index : Nat} (inside : index < bitmap.nbits) :
    index / WORD_BITS < bitmap.map.length := by
  rw [Bitmap.Full] at full
  rw [Nat.div_lt_iff_lt_mul (by decide)]
  omega

/-! ## Counting -/

theorem count_update {p : Nat → Bool} {n i : Nat} (inside : i < n) (set : p i = true) :
    Nat.count (fun k => Function.update p i false k = true) n + 1 = Nat.count (fun k => p k = true) n := by
  rw [Nat.count_eq_card_filter_range, Nat.count_eq_card_filter_range]
  have erased : (Finset.range n).filter (fun k => Function.update p i false k = true) =
      ((Finset.range n).filter fun k => p k = true).erase i := by
    ext k
    by_cases same : k = i
    · simp [same]
    · simp [same]
  rw [erased]
  exact Finset.card_erase_add_one (by simp [inside, set])

theorem freeCount_clear {before after : Bitmap} {i : Nat} (sized : after.nbits = before.nbits)
    (inside : i < before.nbits) (set : before.free i = true)
    (flipped : after.free = Function.update before.free i false) : after.freeCount + 1 = before.freeCount := by
  rw [freeCount, freeCount, sized, flipped]
  exact count_update inside set

theorem freeCount_set {before after : Bitmap} {i : Nat} (sized : after.nbits = before.nbits)
    (inside : i < before.nbits) (clear : before.free i = false)
    (flipped : after.free = Function.update before.free i true) : after.freeCount = before.freeCount + 1 := by
  have back : before.free = Function.update after.free i false := by
    rw [flipped, Function.update_idem, ← clear, Function.update_eq_self]
  exact (freeCount_clear sized.symm (sized ▸ inside) (by simp [flipped]) back).symm

/-! ## What the operations do -/

variable {allowed : Panic → Prop} {bitmap : Bitmap} {E : Err → Bitmap → Prop}

theorem bitmapTest_spec {index : Nat} {Q : Bool → Bitmap → Prop} (inside : index < bitmap.nbits)
    (post : Q (bitmap.free index) bitmap) : Spec allowed (bitmapTest index) bitmap Q E := by
  have tested : decide (bitmap.map.getD (index / WORD_BITS) 0 &&& mask (index % WORD_BITS) ≠ 0) =
      bitmap.free index := by
    rw [Bool.eq_iff_iff, decide_eq_true_iff]
    exact and_mask _ (Nat.mod_lt index (by decide))
  simp only [bitmapTest, bitmapTranslate, spec_bind, spec_get, spec_ensure_of inside, spec_pure]
  rwa [tested]

/-- Setting a bit that is clear; the words may hold more bits than the bitmap has. -/
theorem bitmapFree_words {index : Nat} {Q : Unit → Bitmap → Prop} (held : index / WORD_BITS < bitmap.map.length)
    (inside : index < bitmap.nbits) (clear : bitmap.free index = false)
    (post : ∀ after : Bitmap, after.nbits = bitmap.nbits → after.map.length = bitmap.map.length →
      after.free = Function.update bitmap.free index true → Q () after) :
    Spec allowed (bitmapFree index) bitmap Q E := by
  have low : index % WORD_BITS < WORD_BITS := Nat.mod_lt _ (by decide)
  have unset : bitmap.map.getD (index / WORD_BITS) 0 &&& mask (index % WORD_BITS) = 0 := by
    by_contra nonzero
    have := (and_mask _ low).mp nonzero
    simp only [Bitmap.free] at clear
    rw [clear] at this
    cases this
  simp only [bitmapFree, bitmapTranslate, spec_bind, spec_get, spec_ensure_of inside, spec_pure,
    spec_ensure_of unset, spec_modify]
  refine post _ rfl (List.length_set ..) (free_set _ _ _ _ held fun i below => ?_)
  have bound : index % WORD_BITS < 32 := low
  by_cases same : i = index % WORD_BITS
  · simp [same, mask, bound]
  · simp [same, mask, BitVec.getLsbD_twoPow, Ne.symm same]

theorem bitmapFree_spec {index : Nat} {Q : Unit → Bitmap → Prop} (full : bitmap.Full)
    (inside : index < bitmap.nbits) (clear : bitmap.free index = false)
    (post : ∀ after : Bitmap, after.nbits = bitmap.nbits → after.Full →
      after.free = Function.update bitmap.free index true → Q () after) :
    Spec allowed (bitmapFree index) bitmap Q E := by
  refine bitmapFree_words (div_lt_length full inside) inside clear fun after sized length flipped => ?_
  exact post after sized (by rw [Bitmap.Full, sized, length, full]) flipped

/-- A word that is zero holds no free block. -/
theorem free_eq_false_of_zero {i : Nat} (zero : bitmap.map.getD (i / WORD_BITS) 0 = 0) : bitmap.free i = false := by
  rw [Bitmap.free, zero]
  exact BitVec.getLsbD_zero

/-- The least set bit is found and cleared. -/
theorem bitmapAlloc_words {Q : Nat → Bitmap → Prop} (failed : (∀ i, bitmap.free i = false) → E .noMem bitmap)
    (post : ∀ (index : Nat) (after : Bitmap), bitmap.free index = true → (∀ j < index, bitmap.free j = false) →
      after.nbits = bitmap.nbits → after.map.length = bitmap.map.length →
      after.free = Function.update bitmap.free index false → Q index after) :
    Spec allowed bitmapAlloc bitmap Q E := by
  simp only [bitmapAlloc, spec_bind, spec_get]
  cases first : bitmap.map.findIdx? (· ≠ 0) with
  | none =>
      refine failed fun i => free_eq_false_of_zero ?_
      have zero := List.findIdx?_eq_none_iff.mp first
      by_cases within : i / WORD_BITS < bitmap.map.length
      · have := zero _ (List.getElem_mem within)
        rw [List.getD_eq_getElem _ _ within]
        simpa using this
      · exact List.getD_eq_default _ _ (Nat.le_of_not_lt within)
  | some ix =>
      obtain ⟨within, nonzero, earlier⟩ := List.findIdx?_eq_some_iff_getElem.mp first
      have word : bitmap.map.getD ix 0 = bitmap.map[ix] := List.getD_eq_getElem _ _ within
      simp only [word]
      cases found : (List.range WORD_BITS).find? fun offset => bitmap.map[ix] &&& mask offset ≠ 0 with
      | none =>
          refine absurd (BitVec.eq_of_getLsbD_eq fun i below => ?_) (by simpa using nonzero)
          have clear := List.find?_eq_none.mp found i (List.mem_range.mpr below)
          simp only [decide_eq_true_eq, and_mask _ (show i < WORD_BITS from below), Bool.not_eq_true] at clear
          simp [clear]
      | some offset =>
          obtain ⟨set, below, lower⟩ := List.find?_range_eq_some.mp found
          rw [List.mem_range] at below
          simp only [decide_eq_true_eq, and_mask _ below] at set
          have high : (ix * WORD_BITS + offset) / WORD_BITS = ix := by
            rw [Nat.mul_comm, Nat.mul_add_div (by decide), Nat.div_eq_of_lt below, Nat.add_zero]
          have low : (ix * WORD_BITS + offset) % WORD_BITS = offset := by
            rw [Nat.mul_comm, Nat.mul_add_mod, Nat.mod_eq_of_lt below]
          simp only [spec_bind, spec_modify, spec_pure]
          refine post _ _ (by rw [Bitmap.free, high, low, word, set]) ?_ rfl (List.length_set ..) ?_
          · intro j before
            -- Either an earlier word, which is zero, or an earlier bit of this one.
            obtain less | same : j / WORD_BITS < ix ∨ j / WORD_BITS = ix := by
              have : j / WORD_BITS ≤ (ix * WORD_BITS + offset) / WORD_BITS := Nat.div_le_div_right (Nat.le_of_lt before)
              rw [high] at this
              omega
            · refine free_eq_false_of_zero ?_
              rw [List.getD_eq_getElem _ _ (Nat.lt_trans less within)]
              simpa using earlier _ less
            · have small : j % WORD_BITS < offset := by
                have := Nat.div_add_mod j WORD_BITS
                rw [same, Nat.mul_comm] at this
                omega
              have clear := lower _ small
              simp only [and_mask _ (Nat.lt_trans small below), Bool.not_eq_true', decide_eq_false_iff_not,
                Bool.not_eq_true] at clear
              rw [Bitmap.free, same, word, clear]
          · have flipped := free_set bitmap (ix * WORD_BITS + offset) (bitmap.map[ix] ^^^ mask offset) false
              (by rwa [high]) fun i bound => ?_
            · rwa [high] at flipped
            · rw [high, low, word]
              have : offset < 32 := below
              by_cases same : i = offset
              · simp [same, mask, this, set]
              · simp [same, mask, BitVec.getLsbD_twoPow, Ne.symm same]

theorem bitmapAlloc_spec {Q : Nat → Bitmap → Prop} (full : bitmap.Full)
    (failed : (∀ i, bitmap.free i = false) → E .noMem bitmap)
    (post : ∀ (index : Nat) (after : Bitmap), bitmap.free index = true → after.nbits = bitmap.nbits →
      after.Full → after.free = Function.update bitmap.free index false → Q index after) :
    Spec allowed bitmapAlloc bitmap Q E := by
  refine bitmapAlloc_words failed fun index after set _ sized length flipped => ?_
  exact post index after set sized (by rw [Bitmap.Full, sized, length, full]) flipped

end Ucore.Fs.Bitmaps
