import Ucore.Lib.Bytes
import Ucore.Libs.Vprintfmt

/-! # `strtol`

Blanks, one sign, a prefix of the base, and digits as long as there are any. The sum wraps
at 64 bits.
-/

namespace Ucore.Libs.Strtol

open Lib.Bytes Printfmt Formatted Vprintfmt

/-- `while (*s == ' ' || *s == '\t')` -/
def skipBlanks (m : Block) : Nat → Nat → Except Fault Nat
  | 0, _ => .error .fuel
  | fuel + 1, s => if m s = chr ' ' ∨ m s = chr '\t' then skipBlanks m fuel (s + 1) else .ok s

/-- What the character stands for, if it stands for a digit of any base. -/
def digitValue (ch : UInt8) : Option Nat :=
  if ch ≥ chr '0' ∧ ch ≤ chr '9' then some (ch.toNat - (chr '0').toNat)
  else if ch ≥ chr 'a' ∧ ch ≤ chr 'z' then some (ch.toNat - (chr 'a').toNat + 10)
  else if ch ≥ chr 'A' ∧ ch ≤ chr 'Z' then some (ch.toNat - (chr 'A').toNat + 10)
  else none

def digits (m : Block) (base : Nat) : Nat → Nat → BitVec 64 → Except Fault (BitVec 64 × Nat)
  | 0, _, _ => .error .fuel
  | fuel + 1, s, val =>
      match digitValue (m s) with
      | none => .ok (val, s)
      | some dig => if dig ≥ base then .ok (val, s) else digits m base fuel (s + 1) (val * base + dig)

/-- The base and the first digit behind a prefix. -/
def basePrefix (m : Block) (s base : Nat) : Nat × Nat :=
  if (base = 0 ∨ base = 16) ∧ m s = chr '0' ∧ m (s + 1) = chr 'x' then (16, s + 2)
  else if base = 0 ∧ m s = chr '0' then (8, s + 1)
  else if base = 0 then (10, s)
  else (base, s)

/-- The value, and the end of the number. -/
def strtol (fuel : Nat) (m : Block) (s base : Nat) : Except Fault (BitVec 64 × Nat) := do
  let s ← skipBlanks m fuel s
  let neg := m s = chr '-'
  let s := if m s = chr '+' ∨ m s = chr '-' then s + 1 else s
  let (base, s) := basePrefix m s base
  let (val, s) ← digits m base fuel s 0
  pure (if neg then -val else val, s)

/-! ## Strings in memory -/

def StringAt (m : Block) (s : Nat) : List UInt8 → Prop
  | [] => m s = 0
  | ch :: text => m s = ch ∧ StringAt m (s + 1) text

theorem StringAt.head {m : Block} {s : Nat} {text : List UInt8} (here : StringAt m s text) : m s = text.headD 0 := by
  cases text with
  | nil => exact here
  | cons ch text => exact here.1

theorem StringAt.skip {m : Block} {s : Nat} (before : List UInt8) {text : List UInt8}
    (here : StringAt m s (before ++ text)) : StringAt m (s + before.length) text := by
  induction before generalizing s with
  | nil => exact here
  | cons ch before ih =>
      have there := ih here.2
      rwa [Nat.add_right_comm, Nat.add_assoc] at there

theorem stringAt_patch (m : Block) (s : Nat) (text : List UInt8) : StringAt (patch m s (text ++ [0])) s text := by
  induction text generalizing m s with
  | nil => exact patch_inside (i := 0) (by decide)
  | cons ch text ih =>
      have split := patch_append m s [ch] (text ++ [0])
      rw [List.singleton_append, ← List.cons_append] at split
      refine ⟨patch_inside (i := 0) (by simp), ?_⟩
      rw [split]
      exact ih _ _

/-! ## Reading a number -/

theorem skipBlanks_eq {m : Block} {s fuel : Nat} (count : Nat) {text : List UInt8}
    (here : StringAt m s (List.replicate count (chr ' ') ++ text)) (enough : count < fuel)
    (ends : text.headD 0 ≠ chr ' ' ∧ text.headD 0 ≠ chr '\t') : skipBlanks m fuel s = .ok (s + count) := by
  induction count generalizing s fuel with
  | zero =>
      obtain _ | fuel := fuel
      · cases enough
      have first : m s = text.headD 0 := StringAt.head here
      rw [skipBlanks, first, if_neg (by simp only [not_or]; exact ends)]
      rfl
  | succ count ih =>
      obtain _ | fuel := fuel
      · cases enough
      rw [skipBlanks, if_pos (.inl here.1), ih here.2 (Nat.lt_of_succ_lt_succ enough)]
      congr 1
      omega

theorem digitValue_digitChar {d : Nat} (ten : d < 10) : digitValue (digitChar d) = some d := by
  interval_cases d <;> decide

/-- The digits add up, whatever wraps on the way. -/
theorem digits_eq {m : Block} {s fuel : Nat} {ds : List Nat} {text : List UInt8} (ten : ∀ d ∈ ds, d < 10)
    (here : StringAt m s (ds.map digitChar ++ text)) (ends : digitValue (text.headD 0) = none)
    (enough : ds.length < fuel) (val : Nat) :
    digits m 10 fuel s (BitVec.ofNat 64 val) =
      .ok (BitVec.ofNat 64 (ds.foldl (fun val d => val * 10 + d) val), s + ds.length) := by
  induction ds generalizing s fuel val with
  | nil =>
      obtain _ | fuel := fuel
      · cases enough
      have first : m s = text.headD 0 := StringAt.head here
      rw [digits, first, ends]
      rfl
  | cons d ds ih =>
      obtain _ | fuel := fuel
      · cases enough
      have small : d < 10 := ten d List.mem_cons_self
      have first : m s = digitChar d := here.1
      have sum : BitVec.ofNat 64 val * (10 : Nat) + (d : Nat) = BitVec.ofNat 64 (val * 10 + d) := by
        apply BitVec.eq_of_toNat_eq
        simp only [BitVec.natCast_eq_ofNat, BitVec.toNat_add, BitVec.toNat_mul, BitVec.toNat_ofNat]
        omega
      rw [digits, first, digitValue_digitChar small]
      dsimp only
      rw [if_neg (by omega), sum, ih (fun d inside => ten d (List.mem_cons_of_mem _ inside)) here.2
        (Nat.lt_of_succ_lt_succ enough), List.foldl_cons, List.length_cons]
      congr 2
      omega

theorem digits_stop {m : Block} {s fuel : Nat} {base : Nat} (ends : digitValue (m s) = none) (enough : 0 < fuel)
    (val : BitVec 64) : digits m base fuel s val = .ok (val, s) := by
  obtain _ | fuel := fuel
  · cases enough
  rw [digits, ends]

theorem strtol_unsigned {m : Block} {s start stop fuel : Nat} {val : BitVec 64}
    (skipped : skipBlanks m fuel s = .ok start) (plus : m start ≠ chr '+') (minus : m start ≠ chr '-')
    (run : digits m 10 fuel start 0 = .ok (val, stop)) : strtol fuel m s 10 = .ok (val, stop) := by
  have noPrefix (s : Nat) : basePrefix m s 10 = (10, s) := rfl
  rw [strtol, skipped, ok_bind, if_neg (not_or.mpr ⟨plus, minus⟩)]
  simp only [noPrefix, run, if_neg minus]
  rfl

theorem strtol_negative {m : Block} {s start stop fuel : Nat} {val : BitVec 64}
    (skipped : skipBlanks m fuel s = .ok start) (minus : m start = chr '-')
    (run : digits m 10 fuel (start + 1) 0 = .ok (val, stop)) : strtol fuel m s 10 = .ok (-val, stop) := by
  have noPrefix (s : Nat) : basePrefix m s 10 = (10, s) := rfl
  rw [strtol, skipped, ok_bind, if_pos (.inr minus)]
  simp only [noPrefix, run, if_pos minus]
  rfl

end Ucore.Libs.Strtol
