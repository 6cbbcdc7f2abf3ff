import Mathlib

/-! # Bytes of memory blocks

Numbers as little-endian bytes, and copying bytes out of a block and into it. Blocks
are functions from offsets; how long a block is plays no role here.
-/

namespace Ucore.Lib.Bytes

/-! ## Little-endian numbers -/

/-- The low `count` bytes of a number. -/
def toLe : Nat → Nat → List UInt8
  | 0, _ => []
  | count + 1, v => UInt8.ofNat v :: toLe count (v / 256)

def ofLe : List UInt8 → Nat
  | [] => 0
  | b :: bs => b.toNat + 256 * ofLe bs

@[simp] theorem length_toLe (count v : Nat) : (toLe count v).length = count := by
  induction count generalizing v with
  | zero => rfl
  | succ count ih => simp [toLe, ih]

theorem ofLe_toLe_mod (count v : Nat) : ofLe (toLe count v) = v % 256 ^ count := by
  induction count generalizing v with
  | zero => simp [toLe, ofLe, Nat.mod_one]
  | succ count ih =>
      have low : (UInt8.ofNat v).toNat = v % 256 := by simp
      rw [toLe, ofLe, ih, low, Nat.pow_succ, Nat.mul_comm (256 ^ count), Nat.mod_mul]

theorem ofLe_toLe {count v : Nat} (fits : v < 256 ^ count) : ofLe (toLe count v) = v := by
  rw [ofLe_toLe_mod, Nat.mod_eq_of_lt fits]

theorem ofLe_lt (bs : List UInt8) : ofLe bs < 256 ^ bs.length := by
  induction bs with
  | nil => simp [ofLe]
  | cons b bs ih =>
      have := b.toNat_lt
      rw [ofLe, List.length_cons, Nat.pow_succ]
      omega

theorem ofLe_byte {bs : List UInt8} {k : Nat} (inside : k < bs.length) : UInt8.ofNat (ofLe bs / 256 ^ k) = bs[k] := by
  induction bs generalizing k with
  | nil => simp at inside
  | cons b bs ih =>
      have small := b.toNat_lt
      cases k with
      | zero =>
          apply UInt8.toNat_inj.mp
          simp [ofLe]
      | succ k =>
          have high : (b.toNat + 256 * ofLe bs) / 256 = ofLe bs := by omega
          rw [ofLe, Nat.pow_succ, Nat.mul_comm (256 ^ k), ← Nat.div_div_eq_div_mul, high, List.getElem_cons_succ]
          exact ih (by simpa using inside)

/-! ## Blocks -/

abbrev Block := Nat → UInt8

def zeros : Block := fun _ => 0

/-- `memcpy` out of a block. -/
def slice (b : Block) (offset len : Nat) : List UInt8 := (List.range' offset len).map b

/-- `memcpy` into a block. -/
def patch (b : Block) (offset : Nat) (bytes : List UInt8) : Block := fun i =>
  if offset ≤ i then bytes.getD (i - offset) (b i) else b i

@[simp] theorem length_slice (b : Block) (offset len : Nat) : (slice b offset len).length = len := by
  simp [slice]

theorem slice_getElem? {b : Block} {offset len i : Nat} (inside : i < len) :
    (slice b offset len)[i]? = some (b (offset + i)) := by
  simp [slice, inside]

theorem slice_append (b : Block) (offset m n : Nat) :
    slice b offset (m + n) = slice b offset m ++ slice b (offset + m) n := by
  simp [slice, ← List.range'_append_1]

theorem slice_succ (b : Block) (offset n : Nat) : slice b offset (n + 1) = b offset :: slice b (offset + 1) n := by
  simp [slice, List.range'_succ]

/-- A slice only depends on the bytes it covers. -/
theorem slice_congr {b b' : Block} {offset len : Nat} (same : ∀ i, offset ≤ i → i < offset + len → b i = b' i) :
    slice b offset len = slice b' offset len := by
  refine List.map_congr_left fun i inside => ?_
  rw [List.mem_range'_1] at inside
  exact same i inside.1 inside.2

theorem patch_outside {b : Block} {offset i : Nat} {bytes : List UInt8}
    (outside : i < offset ∨ offset + bytes.length ≤ i) : patch b offset bytes i = b i := by
  unfold patch
  split
  · exact List.getD_eq_default _ _ (by omega)
  · rfl

theorem slice_patch (b : Block) (offset : Nat) (bytes : List UInt8) :
    slice (patch b offset bytes) offset bytes.length = bytes := by
  apply List.ext_getElem? fun i => ?_
  by_cases inside : i < bytes.length
  · rw [slice_getElem? inside, patch, if_pos (Nat.le_add_right _ _), Nat.add_sub_cancel_left,
      List.getElem?_eq_getElem inside, List.getD_eq_getElem _ _ inside]
  · rw [List.getElem?_eq_none (by simpa using inside), List.getElem?_eq_none (by simpa using inside)]

theorem slice_patch_frame {b : Block} {offset from' len : Nat} {bytes : List UInt8}
    (apart : from' + len ≤ offset ∨ offset + bytes.length ≤ from') :
    slice (patch b offset bytes) from' len = slice b from' len :=
  slice_congr fun i low high => patch_outside (by omega)

theorem patch_nil (b : Block) (offset : Nat) : patch b offset [] = b :=
  funext fun _ => patch_outside (by simp; omega)

theorem patch_inside {b : Block} {offset i : Nat} {bytes : List UInt8} (inside : i < bytes.length) :
    patch b offset bytes (offset + i) = bytes[i] := by
  rw [patch, if_pos (Nat.le_add_right _ _), Nat.add_sub_cancel_left, List.getD_eq_getElem _ _ inside]

/-- Copying in two runs of bytes, the second behind the first. -/
theorem patch_append (b : Block) (offset : Nat) (bytes rest : List UInt8) :
    patch b offset (bytes ++ rest) = patch (patch b offset bytes) (offset + bytes.length) rest := by
  funext i
  by_cases before : i < offset
  · rw [patch_outside (.inl before), patch_outside (.inl (by omega)), patch_outside (.inl before)]
  · obtain ⟨j, rfl⟩ := Nat.exists_eq_add_of_le (not_lt.mp before)
    by_cases first : j < bytes.length
    · rw [patch_inside (by simp; omega), patch_outside (.inl (by omega)), patch_inside first,
        List.getElem_append_left first]
    · obtain ⟨k, rfl⟩ := Nat.exists_eq_add_of_le (not_lt.mp first)
      by_cases second : k < rest.length
      · rw [patch_inside (by simpa using second), ← Nat.add_assoc, patch_inside second,
          List.getElem_append_right (by omega)]
        simp
      · rw [patch_outside (.inr (by simp; omega)), patch_outside (.inr (by omega)), patch_outside (.inr (by omega))]

theorem patch_concat (b : Block) (offset : Nat) (bytes : List UInt8) (byte : UInt8) :
    patch b offset (bytes ++ [byte]) = Function.update (patch b offset bytes) (offset + bytes.length) byte := by
  rw [patch_append]
  funext i
  by_cases here : i = offset + bytes.length
  · rw [here, Function.update_self]
    exact patch_inside (i := 0) (by simp)
  · rw [Function.update_of_ne here]
    exact patch_outside (by simp; omega)

/-- A byte of a run that was copied to the front of a block. -/
theorem patch_slice_at (b c : Block) (offset : Nat) {len j : Nat} (inside : j < len) :
    patch c 0 (slice b offset len) j = b (offset + j) := by
  have here := @patch_inside c 0 j (slice b offset len) (by rwa [length_slice])
  rw [Nat.zero_add] at here
  rw [here]
  simp [slice]

/-- Part of a run of bytes that was copied to the front of a block. -/
theorem slice_patch_slice (b c : Block) (offset : Nat) {len at' n : Nat} (fits : at' + n ≤ len) :
    slice (patch c 0 (slice b offset len)) at' n = slice b (offset + at') n := by
  refine List.ext_getElem (by simp) fun i here _ => ?_
  rw [length_slice] at here
  simp only [slice, List.getElem_map, List.getElem_range', Nat.one_mul, Nat.add_assoc]
  exact patch_slice_at b c offset (by omega)

/-- A run of bytes is copied out, changed in part, and copied back. -/
theorem patch_slice_patch (b c : Block) (offset : Nat) {len at' : Nat} {bytes : List UInt8}
    (fits : at' + bytes.length ≤ len) :
    patch b offset (slice (patch (patch c 0 (slice b offset len)) at' bytes) 0 len) = patch b (offset + at') bytes := by
  funext i
  by_cases outside : i < offset ∨ offset + len ≤ i
  · rw [patch_outside (by rwa [length_slice]), patch_outside (by omega)]
  · obtain ⟨j, rfl⟩ := Nat.exists_eq_add_of_le (show offset ≤ i by omega)
    rw [patch_inside (by rw [length_slice]; omega)]
    simp only [slice, List.getElem_map, List.getElem_range', Nat.zero_add, Nat.one_mul]
    by_cases new : at' ≤ j ∧ j < at' + bytes.length
    · obtain ⟨k, rfl⟩ := Nat.exists_eq_add_of_le new.1
      have within : k < bytes.length := by omega
      rw [patch_inside within, ← Nat.add_assoc, patch_inside within]
    · have outer := @patch_outside b (offset + at') (offset + j) bytes (by omega)
      exact (patch_outside (by omega)).trans ((patch_slice_at b c offset (by omega)).trans outer.symm)

/-- Each byte of a block is one of the old ones or one of the new ones. -/
def Between (old new b : Block) : Prop := ∀ i, b i = old i ∨ b i = new i

theorem Between.old (old new : Block) : Between old new old := fun _ => .inl rfl

/-- The bytes a copy has brought so far. -/
theorem between_patch (b : Block) (offset : Nat) (bytes rest : List UInt8) :
    Between b (patch b offset (bytes ++ rest)) (patch b offset bytes) := by
  intro i
  rw [patch_append]
  by_cases inside : i < offset + bytes.length
  · exact .inr (patch_outside (.inl inside)).symm
  · exact .inl (patch_outside (.inr (by omega)))

/-- A prefix of what was copied in. -/
theorem slice_patch_prefix (b : Block) (bytes rest : List UInt8) (offset : Nat) :
    slice (patch b offset (bytes ++ rest)) offset bytes.length = bytes := by
  have whole := slice_patch b offset (bytes ++ rest)
  rw [List.length_append, slice_append] at whole
  exact (List.append_inj whole (by simp)).1

/-! ## Numbers in blocks -/

/-- The four-byte number at an index of a block of them. -/
def word (b : Block) (index : Nat) : Nat := ofLe (slice b (4 * index) 4)

@[simp] theorem word_zeros (index : Nat) : word zeros index = 0 := by
  simp [word, slice, zeros, List.range'_succ, ofLe]

theorem word_patch {b : Block} {index v : Nat} (fits : v < 2 ^ 32) :
    word (patch b (4 * index) (toLe 4 v)) index = v := by
  have same := slice_patch b (4 * index) (toLe 4 v)
  rw [length_toLe] at same
  rw [word, same, ofLe_toLe (by simpa using fits)]

theorem word_patch_of_ne {b : Block} {index other v : Nat} (ne : other ≠ index) :
    word (patch b (4 * index) (toLe 4 v)) other = word b other := by
  rw [word, slice_patch_frame (by rw [length_toLe]; omega), word]

end Ucore.Lib.Bytes
