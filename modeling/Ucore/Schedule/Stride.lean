import Ucore.Libs.SkewHeap

/-! # The run pool of the stride scheduler

The pool is a skew heap under a comparison of strides that wraps at 32 bits. Where the
strides lie in a window of less than half the circle, the comparison is an order, and the
heap functions keep the pool a heap.
-/

namespace Ucore.Schedule.Stride

open Lib.LinkedTree Libs.Assert Libs.SkewHeap

variable {α : Type u}

/-- `lab6_stride` is given for the process around each entry. -/
def procStrideCompF (lab6Stride : α → UInt32) (a b : α) : Int :=
  let c := (lab6Stride a - lab6Stride b).toBitVec.toInt
  if c > 0 then 1 else if c = 0 then 0 else -1

/-- How far the stride is above `low`, around the circle. -/
def above (lab6Stride : α → UInt32) (low : UInt32) (c : α) : Nat := (lab6Stride c - low).toNat

def Window (lab6Stride : α → UInt32) (low : UInt32) (S : Set α) : Prop := ∀ c ∈ S, above lab6Stride low c < 2 ^ 31

theorem wrapped_sub (x y low : UInt32) (inx : (x - low).toNat < 2 ^ 31) (iny : (y - low).toNat < 2 ^ 31) :
    (x - y).toBitVec.toInt = (x - low).toNat - (y - low).toNat := by
  have both : x - y = (x - low) - (y - low) := by
    apply UInt32.toBitVec_inj.mp
    simp only [UInt32.toBitVec_sub]
    bv_omega
  rw [both, BitVec.toInt_eq_toNat_cond]
  have value : ((x - low) - (y - low)).toBitVec.toNat = (2 ^ 32 - (y - low).toNat + (x - low).toNat) % 2 ^ 32 :=
    UInt32.toNat_sub ..
  rw [value]
  split <;> omega

/-- In a window the wrapped difference orders the strides. -/
theorem procStrideCompF_compares {lab6Stride : α → UInt32} {low : UInt32} {S : Set α}
    (window : Window lab6Stride low S) :
    Compares (procStrideCompF lab6Stride) (fun a b => above lab6Stride low a ≤ above lab6Stride low b) S where
  total a _ b _ := Nat.le_total _ _
  trans a _ b _ c _ := Nat.le_trans
  before a ina b inb := by
    have value := wrapped_sub (lab6Stride a) (lab6Stride b) low (window a ina) (window b inb)
    rw [procStrideCompF, value]
    simp only [above]
    split
    · omega
    · split <;> omega

variable [DecidableEq α]

theorem runPool_calls {comp : α → α → Int} {le : α → α → Prop} {m : Memory α} {a : Option α} {b : α}
    {elems : Finset α} {fuel : Nat} (heap : IsHeap le m a elems) (enough : elems.card + 1 < fuel) :
    (b ∉ elems → Compares comp le (insert b elems : Finset α) →
      ∃ a' m', skewHeapInsert comp fuel a b m = .ok (a', m') ∧ IsHeap le m' a' (insert b elems)) ∧
    (b ∈ elems → Compares comp le elems →
      ∃ a' m', skewHeapRemove comp fuel a b m = .ok (a', m') ∧ IsHeap le m' a' (elems.erase b)) ∧
    ∀ (lab6Stride : α → UInt32) (low : UInt32) (S : Set α), Window lab6Stride low S →
      Compares (procStrideCompF lab6Stride) (fun a b => above lab6Stride low a ≤ above lab6Stride low b) S := by
  refine ⟨fun new order => ?_, fun inside order => ?_, fun lab6Stride low S => procStrideCompF_compares⟩
  · obtain ⟨a', m', run, heap', -⟩ := skewHeapInsert_spec heap new order enough
    exact ⟨a', m', run, heap'⟩
  · obtain ⟨a', m', run, heap', -⟩ := skewHeapRemove_spec heap inside order (Nat.le_of_lt (Nat.lt_of_succ_lt enough))
    exact ⟨a', m', run, heap'⟩

/-- Process 1 has passed the wrap, process 2 has not; 3 comes in between. -/
def strides : Nat → UInt32
  | 1 => 5
  | 2 => 0xfffffff0
  | _ => 0xfffffffa

def pool : Memory Nat
  | 1 => ⟨some 2, none, none⟩
  | 2 => ⟨none, some 1, none⟩
  | _ => ⟨none, none, none⟩

theorem strides_window : Window strides 0xfffffff0 {1, 2, 3} := by
  intro c inside
  obtain rfl | rfl | rfl := inside <;> decide

theorem pool_isHeap : IsHeap (fun a b => above strides 0xfffffff0 a ≤ above strides 0xfffffff0 b) pool (some 2)
    {1, 2} := by
  refine ⟨.node 2 (.node 1 .nil .nil) .nil, rfl, ?_, by decide, by decide, ?_, ?_⟩
  · refine ⟨⟨rfl, ?_, ⟨rfl, nofun, trivial⟩, rfl, nofun, trivial⟩, rfl, nofun, trivial⟩
    rintro c ⟨⟩
    rfl
  · refine ⟨⟨?_, ⟨nofun, trivial⟩, nofun, trivial⟩, nofun, trivial⟩
    rintro c ⟨⟩
    decide
  · rintro c ⟨⟩
    rfl

theorem runPool_calls_wrapped :
    (∃ a' m', skewHeapInsert (procStrideCompF strides) 4 (some 2) 3 pool = .ok (a', m') ∧
      IsHeap (fun a b => above strides 0xfffffff0 a ≤ above strides 0xfffffff0 b) m' a' {3, 1, 2}) ∧
    ∃ a' m', skewHeapRemove (procStrideCompF strides) 4 (some 2) 1 pool = .ok (a', m') ∧
      IsHeap (fun a b => above strides 0xfffffff0 a ≤ above strides 0xfffffff0 b) m' a' {2} := by
  have order (S : Set Nat) (within : S ⊆ {1, 2, 3}) := procStrideCompF_compares fun c inside =>
    strides_window c (within inside)
  refine ⟨(runPool_calls pool_isHeap (by decide)).1 (by decide) (order _ ?_),
    (runPool_calls pool_isHeap (by decide)).2.1 (by decide) (order _ ?_)⟩
  · intro c inside
    simp only [Finset.coe_insert, Finset.coe_singleton, Set.mem_insert_iff, Set.mem_singleton_iff] at inside ⊢
    omega
  · intro c inside
    simp only [Finset.coe_insert, Finset.coe_singleton, Set.mem_insert_iff, Set.mem_singleton_iff] at inside ⊢
    omega

end Ucore.Schedule.Stride
